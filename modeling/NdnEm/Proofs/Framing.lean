import NdnEm.Core.AppFace
import NdnEm.Proofs.EmulatorStep

/-!
# Stream framing does not depend on chunking

What `HandleReceive` has dispatched and what it holds depend on the bytes
received so far and on nothing else. The blocks that are complete within them
have been dispatched, in order; the rest is the beginning of the next block and
stands at the front of the buffer. The buffer is as large as the largest block,
so it fills up only with the beginning of a larger one, and that is when the
exception is thrown.
-/

namespace NdnEm

open Lib

namespace AppFace

variable {lib : NdnBlock} {σ : Type} {calls : Upcalls σ} {f g : AppFace lib} {s s' s₀ : σ}
  {offset fuel : Nat} {bytes recv tail : List UInt8} {bs : List (List UInt8)}

/-! ## The buffer -/

@[simp] theorem held_length (f : AppFace lib) : f.held.length = f.inputBufferSize := by
  have hlen := f.length_eq
  have hle := f.size_le
  rw [held, List.length_take]
  omega

theorem held_append {hfree : bytes.length ≤ f.free} :
    (f.append bytes hfree).held = f.held ++ bytes := by
  have hlen := f.held_length
  unfold held at hlen
  rw [held, append, held, List.take_left']
  rw [List.length_append, hlen]

theorem held_moveToFront : (f.moveToFront offset).held = f.held.drop offset := by
  have hlen : (f.held.drop offset).length = f.inputBufferSize - offset := by
    rw [List.length_drop, held_length]
  exact List.take_left' hlen

/-- What is dropped is gone, and the rest is at the front. -/
theorem held_discard : (f.discard offset).held = f.held.drop offset := by
  unfold discard
  split_ifs with hzero hsize
  · rw [hzero, List.drop_zero]
  · exact held_moveToFront
  · have hall : f.held.length ≤ offset := by
      rw [held_length]
      omega
    rw [List.drop_eq_nil_of_le hall]
    exact List.take_zero

theorem size_discard : (f.discard offset).inputBufferSize = f.inputBufferSize - offset := by
  rw [← held_length, held_discard, List.length_drop, held_length]

/-! ## The loop -/

/-- What comes after the blocks has no block at its start, as far as it fits
into the buffer. -/
def Unframed (lib : NdnBlock) (tail : List UInt8) : Prop :=
  ∀ xs, xs <+: tail → xs.length ≤ lib.maxNdnPacketSize → lib.tlv.first xs = none

theorem first_of_incomplete {b rest w : List UInt8} (hb : lib.tlv.Word b)
    (hpre : w <+: b ++ rest) (hlt : w.length < b.length) : lib.tlv.first w = none :=
  PrefixCode.first_eq_none hb
    (List.prefix_of_prefix_length_le hpre (List.prefix_append b rest) (by omega)) hlt

/-- The loop ends where there is no block. -/
theorem parse_end (hnone : lib.tlv.first (f.held.drop offset) = none)
    (hfuel : f.inputBufferSize - offset ≤ fuel) :
    f.parse calls fuel offset s =
      .ok (offset, decide (f.inputBufferSize - offset = 0), s) := by
  cases fuel with
  | zero =>
      have hzero : f.inputBufferSize - offset = 0 := by omega
      rw [parse, if_pos hzero, decide_eq_true hzero]
  | succ fuel =>
      by_cases hzero : f.inputBufferSize - offset = 0
      · rw [parse, if_pos hzero, decide_eq_true hzero]
      · simp only [parse, if_neg hzero, hnone, decide_eq_false hzero]

/-- The loop dispatches the blocks that are complete. -/
theorem parse_complete {k : Nat} (hbs : ∀ b ∈ bs, lib.tlv.Word b) (htail : Unframed lib tail)
    (hpre : f.held.drop offset <+: bs.flatten ++ tail)
    (hfuel : f.inputBufferSize - offset ≤ fuel)
    (hacc : (complete (f.inputBufferSize - offset) bs).foldlM calls.dispatch s = .ok s')
    (hk : (complete (f.inputBufferSize - offset) bs).flatten.length = k) :
    f.parse calls fuel offset s =
      .ok (offset + k, decide (f.inputBufferSize - (offset + k) = 0), s') := by
  induction bs generalizing offset fuel s k with
  | nil =>
      obtain rfl : s = s' := Except.ok.inj hacc
      obtain rfl : 0 = k := hk
      refine parse_end (htail _ hpre ?_) hfuel
      rw [List.length_drop, held_length]
      exact Nat.le_trans (Nat.sub_le ..) f.size_le
  | cons b bs ih =>
      have hb := hbs b List.mem_cons_self
      have hlen : (f.held.drop offset).length = f.inputBufferSize - offset := by
        rw [List.length_drop, held_length]
      rw [List.flatten_cons, List.append_assoc] at hpre
      by_cases hlt : f.inputBufferSize - offset < b.length
      · rw [complete_cons_of_lt hlt] at hacc hk
        obtain rfl : s = s' := Except.ok.inj hacc
        obtain rfl : 0 = k := hk
        exact parse_end (first_of_incomplete hb hpre (by omega)) hfuel
      · have hpos : b.length ≠ 0 := by
          intro h
          exact lib.tlv.ne_nil hb (List.length_eq_zero_iff.mp h)
        have hstart : b <+: f.held.drop offset :=
          List.prefix_of_prefix_length_le (List.prefix_append b _) hpre (by omega)
        have hfirst := lib.tlv.first_eq_some.mpr ⟨hb, hstart⟩
        have hrest : f.held.drop (offset + b.length) <+: bs.flatten ++ tail := by
          have hdrop := hpre.drop b.length
          rwa [List.drop_left, List.drop_drop] at hdrop
        rw [complete_cons_of_le (by omega), Nat.sub_sub] at hacc hk
        rw [List.flatten_cons, List.length_append] at hk
        rw [List.foldlM_cons] at hacc
        cases hd : calls.dispatch s b with
        | error e =>
            rw [hd] at hacc
            cases hacc
        | ok s₁ =>
            rw [hd] at hacc
            cases fuel with
            | zero => omega
            | succ fuel =>
                have hfuel' : f.inputBufferSize - (offset + b.length) ≤ fuel := by omega
                have hparse := ih (fun x hx => hbs x (List.mem_cons_of_mem b hx)) hrest hfuel'
                  hacc rfl
                rw [Nat.add_assoc, hk] at hparse
                rw [parse, if_neg (by omega)]
                simp only [hfirst, hd, hparse]

/-! ## One receive -/

/-- What a receive does with the blocks that are not dispatched yet: it throws
if it fills the buffer with the beginning of something larger, and otherwise
dispatches what it completes. -/
theorem handleReceive_cases {k : Nat}
    (hbs : ∀ b ∈ bs, lib.tlv.Word b ∧ b.length ≤ lib.maxNdnPacketSize)
    (htail : Unframed lib tail) (hfree : bytes.length ≤ f.free)
    (hpre : f.held ++ bytes <+: bs.flatten ++ tail)
    (hacc : (complete (f.inputBufferSize + bytes.length) bs).foldlM calls.dispatch s = .ok s')
    (hk : (complete (f.inputBufferSize + bytes.length) bs).flatten.length = k) :
    (f.inputBufferSize + bytes.length = bs.flatten.length + lib.maxNdnPacketSize ∧
      f.handleReceive calls s (some bytes) =
        .error (.runtimeError "Incoming packet too large to process")) ∨
    (f.inputBufferSize + bytes.length < bs.flatten.length + lib.maxNdnPacketSize ∧
      ∃ f', f.handleReceive calls s (some bytes) = .ok (some f', s') ∧
        f'.held = (f.held ++ bytes).drop k ∧ 0 < f'.free) := by
  have hle := (f.append bytes hfree).size_le
  have hkle : k ≤ f.inputBufferSize + bytes.length := hk ▸ complete_length_le
  have hkflat : k ≤ bs.flatten.length := hk ▸ complete_length_le_flatten
  have hparse : (f.append bytes hfree).parse calls (f.append bytes hfree).inputBufferSize 0 s =
      .ok (0 + k, decide ((f.append bytes hfree).inputBufferSize - (0 + k) = 0), s') := by
    refine parse_complete (fun b hb => (hbs b hb).1) htail ?_ (Nat.sub_le ..) hacc hk
    rwa [List.drop_zero, held_append]
  rw [Nat.zero_add] at hparse
  have hsize : (f.append bytes hfree).inputBufferSize = f.inputBufferSize + bytes.length := rfl
  have hpos := lib.max_pos
  rw [handleReceive, dif_pos hfree]
  simp only [hparse, decide_eq_false_iff_not]
  rw [hsize] at hle ⊢
  by_cases hthrow : ¬ (f.inputBufferSize + bytes.length - k = 0) ∧
      f.inputBufferSize + bytes.length = lib.maxNdnPacketSize ∧ k = 0
  · rw [if_pos hthrow]
    obtain ⟨_, hfull, hzero⟩ := hthrow
    refine .inl ⟨?_, rfl⟩
    have hnil : bs = [] := by
      refine eq_nil_of_complete (n := lib.maxNdnPacketSize) ?_ ?_
      · intro b hb
        exact ⟨lib.tlv.ne_nil (hbs b hb).1, (hbs b hb).2⟩
      · rw [← hfull, hk, hzero]
    rw [hnil, hfull]
    exact (Nat.zero_add _).symm
  · rw [if_neg hthrow]
    refine .inr ⟨by omega, _, rfl, ?_, ?_⟩
    · rw [held_discard, held_append]
    · rw [free, size_discard, hsize]
      omega

/-- The face has dispatched the blocks that are complete within the bytes
received, and holds the rest of these bytes. -/
structure Cut (calls : Upcalls σ) (bs : List (List UInt8)) (s₀ : σ) (recv : List UInt8)
    (f : AppFace lib) (s : σ) : Prop where
  dispatched : (complete recv.length bs).foldlM calls.dispatch s₀ = .ok s
  held : f.held = recv.drop (complete recv.length bs).flatten.length
  free_pos : 0 < f.free

/-- The blocks that a longer stream completes are dispatched after the ones
that were complete before. -/
theorem dispatched_more {s₁ : σ} {n m : Nat} (hnm : n ≤ m)
    (hacc : bs.foldlM calls.dispatch s₀ = .ok s₁)
    (hs : (complete n bs).foldlM calls.dispatch s₀ = .ok s) :
    ∃ s', (complete m bs).foldlM calls.dispatch s₀ = .ok s' ∧
      (complete (m - (complete n bs).flatten.length) (bs.drop (complete n bs).length)).foldlM
        calls.dispatch s = .ok s' := by
  obtain ⟨rest, hrest⟩ := complete_isPrefix m bs
  rw [← hrest, List.foldlM_append] at hacc
  cases hm : (complete m bs).foldlM calls.dispatch s₀ with
  | error e =>
      rw [hm] at hacc
      cases hacc
  | ok s' =>
      rw [complete_of_le hnm, List.foldlM_append, hs] at hm
      exact ⟨s', rfl, hm⟩

/-- The bytes held and the ones that come in start with the blocks that are
not dispatched yet. -/
theorem window_isPrefix (hheld : f.held = recv.drop (complete recv.length bs).flatten.length)
    (hpre : recv ++ bytes <+: bs.flatten ++ tail) :
    f.held ++ bytes <+: (bs.drop (complete recv.length bs).length).flatten ++ tail := by
  have hsplit := List.prefix_iff_eq_append.mp (complete_isPrefix recv.length bs)
  have hdrop := hpre.drop (complete recv.length bs).flatten.length
  rw [List.drop_append_of_le_length complete_length_le, ← hheld] at hdrop
  nth_rewrite 2 [← hsplit] at hdrop
  rwa [List.flatten_append, List.append_assoc, List.drop_left] at hdrop

/-- A receive dispatches the blocks it completes, unless it fills the buffer
with the beginning of one block. -/
theorem receive_step {s₁ : σ} (hbs : ∀ b ∈ bs, lib.tlv.Word b ∧ b.length ≤ lib.maxNdnPacketSize)
    (hacc : bs.foldlM calls.dispatch s₀ = .ok s₁) (htail : Unframed lib tail)
    (hcut : Cut calls bs s₀ recv f s) (hfree : bytes.length ≤ f.free)
    (hpre : recv ++ bytes <+: bs.flatten ++ tail) :
    ((recv ++ bytes).length = bs.flatten.length + lib.maxNdnPacketSize ∧
      f.handleReceive calls s (some bytes) =
        .error (.runtimeError "Incoming packet too large to process")) ∨
    ((recv ++ bytes).length < bs.flatten.length + lib.maxNdnPacketSize ∧
      ∃ f' s', f.handleReceive calls s (some bytes) = .ok (some f', s') ∧
        Cut calls bs s₀ (recv ++ bytes) f' s') := by
  have hdone : (complete recv.length bs).flatten.length ≤ recv.length := complete_length_le
  have hmore : recv.length ≤ (recv ++ bytes).length := by
    rw [List.length_append]
    omega
  have hsize : (recv ++ bytes).length - (complete recv.length bs).flatten.length =
      f.inputBufferSize + bytes.length := by
    rw [← held_length, hcut.held, List.length_drop, List.length_append]
    omega
  have hbslen : (complete recv.length bs).flatten.length +
      (bs.drop (complete recv.length bs).length).flatten.length = bs.flatten.length := by
    rw [← List.length_append, ← List.flatten_append,
      List.prefix_iff_eq_append.mp (complete_isPrefix recv.length bs)]
  obtain ⟨s', hs', hnext⟩ := dispatched_more hmore hacc hcut.dispatched
  have hall := @complete_of_le _ _ _ bs hmore
  rw [hsize] at hnext hall
  rcases handleReceive_cases (fun b hb => hbs b (List.mem_of_mem_drop hb)) htail hfree
    (window_isPrefix hcut.held hpre) hnext rfl with ⟨hfull, herr⟩ | ⟨hlt, f', hok, hheld, hpos⟩
  · exact .inl ⟨by omega, herr⟩
  · refine .inr ⟨by omega, f', s', hok, hs', ?_, hpos⟩
    rw [hheld, hcut.held, hall, List.flatten_append, List.length_append, ← List.drop_drop,
      List.drop_append_of_le_length hdone]

/-! ## Any run of receives -/

/-- The bytes received along a trace. -/
def received (tr : List (Option (List UInt8) × Unit)) : List UInt8 :=
  tr.flatMap fun x => x.1.getD []

theorem received_snoc (tr : List (Option (List UInt8) × Unit)) (bytes : List UInt8) (u : Unit) :
    received (tr ++ [(some bytes, u)]) = received tr ++ bytes := by
  rw [received, List.flatMap_append, ← received, List.flatMap_singleton, Option.getD_some]

theorem cut_new {buffer : List UInt8} (hbuf : buffer.length = lib.maxNdnPacketSize)
    (hbs : ∀ b ∈ bs, lib.tlv.Word b) : Cut calls bs s₀ [] (new buffer hbuf) s₀ := by
  have hnone : complete 0 bs = [] := by
    cases bs with
    | nil => rfl
    | cons b bs =>
        have hpos := List.length_pos_iff.mpr (lib.tlv.ne_nil (hbs b List.mem_cons_self))
        exact complete_cons_of_lt hpos
  refine ⟨?_, ?_, lib.max_pos⟩
  · rw [List.length_nil, hnone]
    rfl
  · rw [List.length_nil, hnone]
    exact List.take_zero

theorem run_cut {buffer : List UInt8} {hbuf : buffer.length = lib.maxNdnPacketSize} {s₁ : σ}
    {tr : List (Option (List UInt8) × Unit)}
    (hbs : ∀ b ∈ bs, lib.tlv.Word b ∧ b.length ≤ lib.maxNdnPacketSize)
    (hacc : bs.foldlM calls.dispatch s₀ = .ok s₁) (htail : Unframed lib tail)
    (h : (system lib calls).Run (some (new buffer hbuf), s₀) tr (some f, s))
    (hpre : received tr <+: bs.flatten ++ tail) : Cut calls bs s₀ (received tr) f s := by
  generalize hst : (some f, s) = st at h
  induction h generalizing f s with
  | nil =>
      obtain ⟨hf, rfl⟩ := Prod.mk.inj hst
      obtain rfl := Option.some.inj hf
      exact cut_new hbuf fun b hb => (hbs b hb).1
  | @snoc st₁ st₂ tr e o hrun he hstep ih =>
      obtain ⟨f₁, hf₁, hfree⟩ := he
      obtain ⟨face, s₂⟩ := st₁
      obtain rfl : face = some f₁ := hf₁
      subst hst
      cases e with
      | none =>
          simp only [system, handleReceive] at hstep
          cases hrem : calls.removeFace s₂ with
          | error e => simp [hrem, Except.map] at hstep
          | ok s' => simp [hrem, Except.map] at hstep
      | some bytes =>
          rw [received_snoc] at hpre ⊢
          have hcut := ih ((List.prefix_append _ _).trans hpre) rfl
          rcases receive_step hbs hacc htail hcut (hfree bytes rfl) hpre with
            ⟨_, herr⟩ | ⟨_, f', s', hok, hcut'⟩
          · simp [system, herr, Except.map] at hstep
          · simp only [system, hok, Except.map] at hstep
            obtain ⟨hst, _⟩ := Prod.mk.inj (Except.ok.inj hstep)
            obtain ⟨hf, rfl⟩ := Prod.mk.inj hst
            obtain rfl := Option.some.inj hf
            exact hcut'

/-- A stream is framed: the blocks that are complete have been dispatched, the
rest is held, and the next receive throws exactly when it fills the buffer with
the beginning of a block that is too large. -/
structure Framed (lib : NdnBlock) (calls : Upcalls σ) (bs : List (List UInt8))
    (tail : List UInt8) (s₀ : σ) (recv : List UInt8) (f : AppFace lib) (s : σ) : Prop
    extends Cut calls bs s₀ recv f s where
  throws : ∀ bytes, bytes.length ≤ f.free → recv ++ bytes <+: bs.flatten ++ tail →
    ((system lib calls).Faults (some f, s) (some bytes)
        (.runtimeError "Incoming packet too large to process") ↔
      tail ≠ [] ∧ (recv ++ bytes).length = bs.flatten.length + lib.maxNdnPacketSize)
  goes_on : ∀ bytes, bytes.length ≤ f.free → recv ++ bytes <+: bs.flatten ++ tail →
    ¬ (tail ≠ [] ∧ (recv ++ bytes).length = bs.flatten.length + lib.maxNdnPacketSize) →
    ∃ f' s', (system lib calls).Run (some f, s) [(some bytes, ())] (some f', s')

theorem unframed_of_large
    (h : tail = [] ∨ ∃ big rest, tail = big ++ rest ∧ lib.tlv.Word big ∧
      lib.maxNdnPacketSize < big.length) : Unframed lib tail := by
  intro xs hxs hle
  rcases h with rfl | ⟨big, rest, rfl, hbig, hlt⟩
  · rw [List.prefix_nil] at hxs
    subst hxs
    cases hfirst : lib.tlv.first [] with
    | none => rfl
    | some w =>
        obtain ⟨hw, hpre⟩ := lib.tlv.first_eq_some.mp hfirst
        exact absurd (List.prefix_nil.mp hpre) (lib.tlv.ne_nil hw)
  · exact first_of_incomplete hbig hxs (by omega)

/-- **Framing is independent of chunking.** In every run of receives whose
bytes are the start of a stream of blocks that fit the buffer and are accepted,
possibly with one that does not fit after them, the stream is framed. -/
theorem framing_independent {buffer : List UInt8}
    {hbuf : buffer.length = lib.maxNdnPacketSize} {s₁ : σ}
    {tr : List (Option (List UInt8) × Unit)}
    (hbs : ∀ b ∈ bs, lib.tlv.Word b ∧ b.length ≤ lib.maxNdnPacketSize)
    (hacc : bs.foldlM calls.dispatch s₀ = .ok s₁)
    (htail : tail = [] ∨ ∃ big rest, tail = big ++ rest ∧ lib.tlv.Word big ∧
      lib.maxNdnPacketSize < big.length)
    (h : (system lib calls).Run (some (new buffer hbuf), s₀) tr (some f, s))
    (hpre : received tr <+: bs.flatten ++ tail) :
    Framed lib calls bs tail s₀ (received tr) f s := by
  have hunframed := unframed_of_large htail
  have hcut := run_cut hbs hacc hunframed h hpre
  have hpos := lib.max_pos
  have hsome : ∀ bytes, received tr ++ bytes <+: bs.flatten ++ tail →
      (received tr ++ bytes).length = bs.flatten.length + lib.maxNdnPacketSize → tail ≠ [] := by
    rintro bytes hpre' hlen rfl
    have hle := hpre'.length_le
    rw [List.append_nil] at hle
    omega
  refine ⟨hcut, ?_, ?_⟩
  · intro bytes hfree hpre'
    have hen : (system lib calls).Enabled (some f, s) (some bytes) :=
      ⟨f, rfl, fun b hb => by rwa [← Option.some.inj hb]⟩
    rcases receive_step hbs hacc hunframed hcut hfree hpre' with
      ⟨hlen, herr⟩ | ⟨hlt, f', s', hok, _⟩
    · have hstep : (system lib calls).step (some f, s) (some bytes) =
          .error (.runtimeError "Incoming packet too large to process") := by
        simp [system, herr, Except.map]
      exact ⟨fun _ => ⟨hsome bytes hpre' hlen, hlen⟩, fun _ => ⟨hen, hstep⟩⟩
    · have hstep : (system lib calls).step (some f, s) (some bytes) =
          .ok ((some f', s'), ()) := by
        simp [system, hok, Except.map]
      constructor
      · intro hfault
        cases hstep.symm.trans hfault.2
      · intro hfull
        omega
  · intro bytes hfree hpre' hnot
    rcases receive_step hbs hacc hunframed hcut hfree hpre' with
      ⟨hlen, _⟩ | ⟨_, f', s', hok, _⟩
    · exact absurd ⟨hsome bytes hpre' hlen, hlen⟩ hnot
    · refine ⟨f', s', .single ⟨f, rfl, fun b hb => by rwa [← Option.some.inj hb]⟩ ?_⟩
      simp [system, hok, Except.map]

/-! ## The network behind the face

Dispatching a block is a step of the network, so a receive is a run of it. -/

section Network

variable {mode : Rearm} {ndn : NdnCxx} {decode : List UInt8 → Block}
  {choice : Nat → Clock × (Int → Nat)} {node : String} {face : Int} {em em' : Emulator}
  {k k' : Nat}

/-- A client stays connected while its blocks are dispatched. -/
theorem connected_dispatch {clk : Clock} {raw : Int → Nat} {blk : Block} {out : Output}
    (hconn : em.Connected node face)
    (h : em.dispatch mode ndn node face clk raw blk = .ok (em', out)) :
    em'.Connected node face := by
  obtain ⟨n, hn, happ⟩ := hconn
  obtain ⟨w, _, h⟩ := Emulator.dispatch_cases h
  obtain ⟨m, n', o, hm, hstep, hrest⟩ := Emulator.onNode_cases h
  obtain rfl : n = m := Option.some.inj (Eq.trans (Eq.symm hn) hm)
  have htable : n'.faceTable = n.faceTable := by
    cases w with
    | interest i => exact (Node.handleInterest_tables hstep).1
    | data d => exact (Node.handleData_tables (f := face) hstep).1
  refine ⟨n', ?_, htable ▸ happ⟩
  rcases hrest with ⟨_, rfl, _⟩ | ⟨fw, _, _, hf⟩
  · exact FinMap.find_insert_self _ _ _
  · have hnodes := (Emulator.sendTo_onlyDevices hf).nodes
    rw [hnodes]
    exact FinMap.find_insert_self _ _ _

theorem parse_run {isOk : Bool} {o : Nat} (hconn : em.Connected node face)
    (h : f.parse (Emulator.upcalls mode ndn decode choice node face) fuel offset (em, k) =
      .ok (o, isOk, (em', k'))) :
    ∃ tr, (Emulator.system mode ndn).Run em tr em' ∧ em'.Connected node face := by
  induction fuel generalizing em k offset with
  | zero =>
      rw [parse] at h
      split_ifs at h
      obtain ⟨rfl, _⟩ := Prod.mk.inj (Prod.mk.inj (Prod.mk.inj (Except.ok.inj h)).2).2
      exact ⟨[], .nil em, hconn⟩
  | succ fuel ih =>
      rw [parse] at h
      split_ifs at h
      · obtain ⟨rfl, _⟩ := Prod.mk.inj (Prod.mk.inj (Prod.mk.inj (Except.ok.inj h)).2).2
        exact ⟨[], .nil em, hconn⟩
      · split at h
        · obtain ⟨rfl, _⟩ := Prod.mk.inj (Prod.mk.inj (Prod.mk.inj (Except.ok.inj h)).2).2
          exact ⟨[], .nil em, hconn⟩
        · next element _ =>
            split at h
            · cases h
            · next s₁ hd =>
                obtain ⟨r, hstep, rfl⟩ := ok_of_map hd
                obtain ⟨tr, hrun, hconn'⟩ := ih (connected_dispatch hconn hstep) h
                have hen : (Emulator.system mode ndn).Enabled em (.appReceive node face
                  (choice k).1 (choice k).2 (decode element)) := hconn
                exact ⟨_, .cons hen hstep hrun, hconn'⟩

/-- A receive is a run of the network. -/
theorem handleReceive_run {e : Option (List UInt8)} {f' : Option (AppFace lib)}
    (hconn : em.Connected node face)
    (h : f.handleReceive (Emulator.upcalls mode ndn decode choice node face) (em, k) e =
      .ok (f', (em', k'))) :
    ∃ tr, (Emulator.system mode ndn).Run em tr em' ∧
      (f'.isSome → em'.Connected node face) := by
  cases e with
  | none =>
      cases hstep : em.step mode ndn (.appClose node face) with
      | error e => simp [handleReceive, Emulator.upcalls, hstep, Except.map] at h
      | ok r =>
          simp only [handleReceive, Emulator.upcalls, hstep, Except.map] at h
          obtain ⟨rfl, hst⟩ := Prod.mk.inj (Except.ok.inj h)
          obtain ⟨rfl, _⟩ := Prod.mk.inj hst
          have hen : (Emulator.system mode ndn).Enabled em (.appClose node face) := hconn
          exact ⟨_, .single hen hstep, by simp⟩
  | some bytes =>
      simp only [handleReceive] at h
      split_ifs at h
      split at h
      · cases h
      · next o isOk st hparse =>
          split_ifs at h
          obtain ⟨_, rfl⟩ := Prod.mk.inj (Except.ok.inj h)
          obtain ⟨tr, hrun, hconn'⟩ := parse_run hconn hparse
          exact ⟨tr, hrun, fun _ => hconn'⟩

end Network

/-- `Block::fromBuffer` on the blocks whose type and length take a byte each. -/
def shortBlock : List UInt8 → Option (List UInt8)
  | t :: n :: rest =>
      if t < 253 ∧ n < 253 ∧ n.toNat ≤ rest.length then some (t :: n :: rest.take n.toNat)
      else none
  | _ => none

theorem shortBlock_eq_some {xs w : List UInt8} :
    shortBlock xs = some w ↔ shortBlock w = some w ∧ w <+: xs := by
  constructor
  · intro h
    unfold shortBlock at h
    split at h
    · next t n v =>
        split_ifs at h with hfits
        obtain rfl := Option.some.inj h
        refine ⟨?_, (List.prefix_cons_inj _).mpr
          ((List.prefix_cons_inj _).mpr (List.take_prefix _ _))⟩
        rw [shortBlock, List.take_take, Nat.min_self, List.length_take,
          if_pos ⟨hfits.1, hfits.2.1, by omega⟩]
    · cases h
  · rintro ⟨hw, rest, rfl⟩
    unfold shortBlock at hw
    split at hw
    · next t n v =>
        split_ifs at hw with hfits
        have hv : v.take n.toNat = v := by simpa using hw
        have hlen : v.length = n.toNat := by
          have hle := congrArg List.length hv
          rw [List.length_take] at hle
          omega
        rw [List.cons_append, List.cons_append, shortBlock, List.take_left' hlen, List.length_append,
          if_pos ⟨hfits.1, hfits.2.1, by omega⟩]
    · cases hw

/-- Short blocks, in a buffer of eight bytes. -/
def shortBlocks : NdnBlock where
  maxNdnPacketSize := 8
  max_pos := by omega
  tlv :=
    { Word := fun w => shortBlock w = some w
      first := shortBlock
      first_eq_some := shortBlock_eq_some
      ne_nil := by
        rintro w hw rfl
        cases hw }

/-- A node that keeps what is dispatched. -/
def keepBlocks : Upcalls (List (List UInt8)) where
  dispatch s element := .ok (s ++ [element])
  removeFace s := .ok s

/-- The first receive ends inside the second block, and the second one with
most of a block of ten bytes. -/
def splitRun : List (Option (List UInt8) × Unit) :=
  [(some [6, 1, 7, 5, 2], ()), (some [8, 9, 6, 8, 0, 0], ())]

theorem framing_independent_split : ∃ f s,
    (system shortBlocks keepBlocks).Run
      (some (new (List.replicate 8 0) rfl), []) splitRun (some f, s) ∧
    Framed shortBlocks keepBlocks [[6, 1, 7], [5, 2, 8, 9]] [6, 8, 0, 0, 0, 0, 0, 0, 0, 0] []
      (received splitRun) f s := by
  obtain ⟨f, s, h⟩ : ∃ f s, (system shortBlocks keepBlocks).Run
      (some (new (List.replicate 8 0) rfl), []) splitRun (some f, s) :=
    ⟨_, _, .cons ⟨_, rfl, fun _ h => Option.some.inj h ▸ by decide⟩ rfl
      (.single ⟨_, rfl, fun _ h => Option.some.inj h ▸ by decide⟩ rfl)⟩
  refine ⟨f, s, h, framing_independent ?_ rfl (.inr ⟨_, [], (List.append_nil _).symm, rfl, ?_⟩) h ?_⟩
  · intro b hb
    rcases List.mem_pair.mp hb with rfl | rfl
    · exact ⟨rfl, by decide⟩
    · exact ⟨rfl, by decide⟩
  · decide
  · decide

end AppFace

end NdnEm
