import NdnEm.Core.AppFace
import NdnEm.Proofs.DeviceStep

/-!
# What an application is sent

Two things keep an application from what it is sent. `async_send` may write
less than it was given, and says how much it wrote. `HandleSend` does not look:
the rest of a packet that was written in part is never sent, and the next packet
follows in the middle of it. And `async_send` is only given an address. A packet
that nobody holds is freed when the handler that made it returns, and the socket
may get to it later.

The application reads all that it was sent exactly as long as the socket never
writes less than a packet at a time, and each packet has an owner until then.
-/

namespace NdnEm

open Lib

namespace SendSide

variable {fmt : WireFormat} {o o' : SendSide} {e : SendEvent} {r : Option (Packet × SendResult)}
  {tr : List (SendEvent × Option (Packet × SendResult))}

/-- The packets passed to `Send`, in order. -/
def passed : List (SendEvent × Option (Packet × SendResult)) → List Packet
  | [] => []
  | (.send pkt, _) :: tr => pkt :: passed tr
  | (.release _, _) :: tr | (.sent _, _) :: tr => passed tr

/-- The sends that were completed, in order. -/
def completed (tr : List (SendEvent × Option (Packet × SendResult))) :
    List (Packet × SendResult) :=
  tr.filterMap (·.2)

/-- The packets whose send succeeded, in order. -/
def succeeded (tr : List (SendEvent × Option (Packet × SendResult))) : List Packet :=
  (completed tr).flatMap fun x => if x.2.isSome then [x.1] else []

/-- The wire encodings of the packets whose send succeeded. -/
def encodings (fmt : WireFormat) (tr : List (SendEvent × Option (Packet × SendResult))) :
    List (Option UInt8) :=
  ((succeeded tr).flatMap fun pkt => fmt.bytes pkt.wire).map some

/-- Sends were completed in call order, and each that succeeded wrote all of its
packet. -/
structure Arrived (fmt : WireFormat) (tr : List (SendEvent × Option (Packet × SendResult)))
    (o : SendSide) : Prop where
  order : passed tr = (completed tr).map (·.1) ++ o.sending
  written : o.written = encodings fmt tr

/-- No successful send was a short one. -/
def Whole (tr : List (SendEvent × Option (Packet × SendResult))) : Prop :=
  ∀ x ∈ completed tr, ∀ n ∈ x.2, n = x.1.getLength

/-- No packet was released before its send succeeded. -/
def Held (tr : List (SendEvent × Option (Packet × SendResult))) : Prop :=
  ∀ tr₁ e pkt n tr₂, tr = tr₁ ++ (e, some (pkt, some n)) :: tr₂ →
    ∀ r, (SendEvent.release pkt, r) ∉ tr₁

theorem passed_append (tr tr' : List (SendEvent × Option (Packet × SendResult))) :
    passed (tr ++ tr') = passed tr ++ passed tr' := by
  induction tr with
  | nil => rfl
  | cons x tr ih =>
      obtain ⟨e, _⟩ := x
      cases e with
      | send pkt => rw [List.cons_append, passed, passed, ih, List.cons_append]
      | release pkt => rw [List.cons_append, passed, passed, ih]
      | sent result => rw [List.cons_append, passed, passed, ih]

theorem completed_snoc (tr : List (SendEvent × Option (Packet × SendResult))) (e : SendEvent)
    (r : Option (Packet × SendResult)) : completed (tr ++ [(e, r)]) = completed tr ++ r.toList := by
  cases r <;> simp [completed]

/-- What a completed send should have written. -/
def full (fmt : WireFormat) (pkt : Packet) (result : SendResult) : List (Option UInt8) :=
  if result.isSome then (fmt.bytes pkt.wire).map some else []

theorem encodings_snoc (e : SendEvent) (pkt : Packet) (result : SendResult) :
    encodings fmt (tr ++ [(e, some (pkt, result))]) =
      encodings fmt tr ++ full fmt pkt result := by
  rw [encodings, succeeded, completed_snoc, Option.toList_some, List.flatMap_append,
    List.flatMap_append, List.map_append, List.flatMap_singleton]
  refine congrArg (encodings fmt tr ++ ·) ?_
  cases result with
  | none => rfl
  | some n => rw [Option.isSome_some, if_pos rfl, List.flatMap_singleton]; rfl

theorem whole_snoc_iff (e : SendEvent) (r : Option (Packet × SendResult)) :
    Whole (tr ++ [(e, r)]) ↔ Whole tr ∧ ∀ x ∈ r, ∀ n ∈ x.2, n = x.1.getLength := by
  unfold Whole
  rw [completed_snoc]
  simp only [List.mem_append, Option.mem_toList]
  constructor
  · intro h
    exact ⟨fun x hx => h x (.inl hx), fun x hx => h x (.inr hx)⟩
  · intro h x hx
    exact hx.elim (h.1 x) (h.2 x)

theorem held_snoc_iff (e : SendEvent) (r : Option (Packet × SendResult)) :
    Held (tr ++ [(e, r)]) ↔
      Held tr ∧ ∀ pkt n, r = some (pkt, some n) → ∀ r', (SendEvent.release pkt, r') ∉ tr := by
  constructor
  · intro h
    refine ⟨?_, ?_⟩
    · intro tr₁ e' pkt n tr₂ heq
      refine h tr₁ e' pkt n (tr₂ ++ [(e, r)]) ?_
      rw [heq, List.append_assoc, List.cons_append]
    · intro pkt n hr
      exact h tr e pkt n [] (by rw [hr])
  · intro h tr₁ e' pkt n tr₂ heq
    rcases List.eq_nil_or_concat tr₂ with rfl | ⟨tr₃, x, rfl⟩
    · obtain ⟨rfl, hlast⟩ := List.append_inj' heq rfl
      exact h.2 pkt n (Prod.mk.inj (List.cons.inj hlast).1).2
    · rw [List.concat_eq_append, ← List.cons_append, ← List.append_assoc] at heq
      obtain ⟨hinit, _⟩ := List.append_inj' heq rfl
      exact h.1 tr₁ e' pkt n tr₃ hinit

/-- Of a send the socket reads as much as it writes, and it is what the packet
has there exactly if the packet is held and all of it is written. -/
theorem buffer_take_eq_iff {pkt : Packet} {result : SendResult}
    (hn : ∀ n ∈ result, 1 ≤ n ∧ n ≤ pkt.getLength) :
    (o.buffer fmt pkt).take (result.getD 0) = full fmt pkt result ↔
      (∀ n ∈ result, n = pkt.getLength) ∧ (result.isSome → pkt ∉ o.released) := by
  have hlen : (fmt.bytes pkt.wire).length = pkt.getLength := fmt.length_bytes pkt.wire
  cases result with
  | none => simp [full]
  | some n =>
      obtain ⟨hpos, hle⟩ := hn n rfl
      rw [Option.getD_some, full, Option.isSome_some, if_pos rfl]
      constructor
      · intro heq
        have hheld : pkt ∉ o.released := by
          intro hfreed
          rw [buffer, if_pos hfreed, List.take_replicate, Nat.min_eq_left hle] at heq
          have hmem : none ∈ (fmt.bytes pkt.wire).map some := by
            rw [← heq, List.mem_replicate]
            exact ⟨by omega, rfl⟩
          simp at hmem
        rw [buffer, if_neg hheld, ← List.map_take, ← hlen, List.take_length] at heq
        have hsize := congrArg List.length heq
        rw [List.length_map, List.length_map, List.length_take, hlen] at hsize
        refine ⟨?_, fun _ => hheld⟩
        intro m hm
        rw [← Option.some.inj hm]
        omega
      · intro h
        obtain rfl := h.1 n rfl
        rw [buffer, if_neg (h.2 rfl), ← List.map_take, ← hlen, List.take_length, List.take_length]

theorem buffer_take_length_le {pkt : Packet} {result : SendResult} :
    ((o.buffer fmt pkt).take (result.getD 0)).length ≤ (full fmt pkt result).length := by
  have hlen : (fmt.bytes pkt.wire).length = pkt.getLength := fmt.length_bytes pkt.wire
  cases result with
  | none => simp
  | some n =>
      rw [full, Option.isSome_some, if_pos rfl, List.length_map, hlen, List.length_take, buffer]
      split
      · rw [List.length_replicate]
        omega
      · rw [List.length_map, List.length_take]
        omega

/-- The send side along a run. -/
structure Account (fmt : WireFormat) (tr : List (SendEvent × Option (Packet × SendResult)))
    (o : SendSide) : Prop where
  order : passed tr = (completed tr).map (·.1) ++ o.sending
  released : ∀ pkt, pkt ∈ o.released ↔ ∃ r, (SendEvent.release pkt, r) ∈ tr
  short : o.written.length ≤ (encodings fmt tr).length
  whole : o.written = encodings fmt tr ↔ Whole tr ∧ Held tr

theorem Account.quiet (h : Account fmt tr o) (hsame : o'.written = o.written)
    (horder : passed (tr ++ [(e, none)]) = (completed tr).map (·.1) ++ o'.sending)
    (hreleased : ∀ pkt, pkt ∈ o'.released ↔ ∃ r, (SendEvent.release pkt, r) ∈ tr ++ [(e, none)]) :
    Account fmt (tr ++ [(e, none)]) o' := by
  have hcompleted : completed (tr ++ [(e, none)]) = completed tr := by
    rw [completed_snoc, Option.toList_none, List.append_nil]
  have hencoded : encodings fmt (tr ++ [(e, none)]) = encodings fmt tr := by
    rw [encodings, succeeded, hcompleted]
    rfl
  refine ⟨?_, hreleased, ?_, ?_⟩
  · rw [hcompleted]
    exact horder
  · rw [hencoded, hsame]
    exact h.short
  · rw [hencoded, hsame, h.whole, whole_snoc_iff, held_snoc_iff]
    simp

theorem account_step (h : Account fmt tr o) (he : (system fmt).Enabled o e)
    (hstep : (system fmt).step o e = .ok (o', r)) : Account fmt (tr ++ [(e, r)]) o' := by
  cases e with
  | send pkt =>
      obtain ⟨rfl, rfl⟩ := Prod.mk.inj (Except.ok.inj hstep)
      refine h.quiet rfl ?_ ?_
      · rw [passed_append, h.order, List.append_assoc]
        rfl
      · intro pkt'
        show pkt' ∈ o.released ↔ _
        rw [h.released pkt']
        simp
  | release pkt =>
      obtain ⟨rfl, rfl⟩ := Prod.mk.inj (Except.ok.inj hstep)
      refine h.quiet rfl ?_ ?_
      · rw [passed_append, h.order]
        exact List.append_nil _
      · intro pkt'
        show pkt' ∈ pkt :: o.released ↔ _
        rw [List.mem_cons, h.released pkt']
        simp [or_comm, exists_or]
  | sent result =>
      obtain ⟨pkt, hhead, hn⟩ := he
      obtain ⟨rest, hrest⟩ := List.head?_eq_some_iff.mp hhead
      simp only [system, sent, hrest, Except.map] at hstep
      obtain ⟨rfl, rfl⟩ := Prod.mk.inj (Except.ok.inj hstep)
      refine ⟨?_, ?_, ?_, ?_⟩
      · rw [completed_snoc, passed_append, h.order, hrest, List.map_append, List.append_assoc]
        simp [passed, handleSend]
      · intro pkt'
        show pkt' ∈ o.released ↔ _
        rw [h.released pkt']
        simp
      · rw [encodings_snoc, List.length_append]
        show (o.written ++ (o.buffer fmt pkt).take (result.getD 0)).length ≤ _
        rw [List.length_append]
        exact Nat.add_le_add h.short buffer_take_length_le
      · rw [encodings_snoc, whole_snoc_iff, held_snoc_iff]
        show o.written ++ (o.buffer fmt pkt).take (result.getD 0) = _ ↔ _
        rw [append_eq_append_iff_of_le h.short buffer_take_length_le, h.whole,
          buffer_take_eq_iff hn, h.released pkt]
        cases result with
        | none => simp
        | some n => simp; tauto

theorem account_run (h : (system fmt).Run empty tr o) : Account fmt tr o := by
  generalize hs : empty = s at h
  induction h with
  | nil =>
      subst hs
      refine ⟨rfl, by simp [empty], Nat.le_refl _, iff_of_true rfl ⟨?_, ?_⟩⟩
      · intro x hx
        cases hx
      · intro tr₁ e pkt n tr₂ heq
        simp at heq
  | snoc _ he hstep ih => exact account_step ih he hstep

/-- **What an application is sent arrives whole** exactly when no successful
send was a short one, and none was of a packet that had been freed. -/
theorem nothing_truncated_iff (h : (system fmt).Run empty tr o) :
    Arrived fmt tr o ↔ Whole tr ∧ Held tr := by
  have hacc := account_run h
  rw [← hacc.whole]
  exact ⟨Arrived.written, fun hw => ⟨hacc.order, hw⟩⟩

/-- Encodings of zeros, of the right length. -/
def zeros : WireFormat where
  bytes w := List.replicate w.size 0
  length_bytes _ := List.length_replicate

/-- Two packets; the socket takes 25 of the 40 bytes of the first. -/
def shortRun : List (SendEvent × Option (Packet × SendResult)) :=
  [(.send (Timed.sample 0 40), none), (.send (Timed.sample 1 30), none),
   (.sent (some 25), some (Timed.sample 0 40, some 25)),
   (.sent (some 30), some (Timed.sample 1 30, some 30))]

theorem shortRun_run : (system zeros).Run empty shortRun
    ⟨[], [], List.replicate 25 (some 0) ++ List.replicate 30 (some 0)⟩ := by
  refine .cons List.not_mem_nil rfl (.cons List.not_mem_nil rfl (.cons ⟨_, rfl, ?_⟩ rfl
    (.single ⟨_, rfl, ?_⟩ rfl)))
  · intro n hn
    obtain rfl := Option.some.inj hn
    decide
  · intro n hn
    obtain rfl := Option.some.inj hn
    decide

theorem nothing_truncated_iff_short :
    Arrived zeros shortRun ⟨[], [], List.replicate 25 (some 0) ++ List.replicate 30 (some 0)⟩ ↔
      Whole shortRun ∧ Held shortRun :=
  nothing_truncated_iff shortRun_run

/-- Both sends succeeded and nothing is outstanding, and bytes are missing. -/
theorem short_write_loses_bytes :
    ∃ o, (system zeros).Run empty shortRun o ∧ o.sending = [] ∧
      succeeded shortRun = passed shortRun ∧
      o.written ≠ ((passed shortRun).flatMap fun pkt => zeros.bytes pkt.wire).map some := by
  refine ⟨_, shortRun_run, rfl, rfl, ?_⟩
  intro heq
  have hlen := congrArg List.length heq
  revert hlen
  decide

/-- The handler returns, and nobody else has the packet. -/
example : ∃ o, (system zeros).Run empty
    [(.send (Timed.sample 0 40), none), (.release (Timed.sample 0 40), none),
     (.sent (some 40), some (Timed.sample 0 40, some 40))] o ∧
    o.written = List.replicate 40 none := by
  refine ⟨_, .cons List.not_mem_nil rfl (.cons trivial rfl (.single ⟨_, rfl, ?_⟩ rfl)), rfl⟩
  intro n hn
  obtain rfl := Option.some.inj hn
  decide

end SendSide

end NdnEm
