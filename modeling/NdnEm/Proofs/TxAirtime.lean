import NdnEm.Lib.History
import NdnEm.Proofs.IdealTimers

/-!
# A radio sends one packet at a time

With ideal timers a transmission is over when the csma wait it armed is, and
the only thing that can come between is `StartTx`, which arms the csma timer
from any state. A packet accepted during a transmission replaces the end of
the transmission by the end of its own backoff.

So the airtime of a packet is what it should be in the runs where no such
replacement moves the expiry, and the run at the end shows two packets of one
radio on the air together.
-/

namespace NdnEm

open Lib LinkDevice

/-- The time that passes in an event. -/
def DeviceEvent.duration : DeviceEvent → Int
  | .tick n => n
  | .startTx .. | .startRx _ | .timer _ => 0

namespace Timed

variable {l : Link} {s s' : Timed} {e : DeviceEvent} {o : DeviceOut}
  {tr : List (DeviceEvent × DeviceOut)} {p : Packet} {t : Int}

/-- The time that passes in a trace. -/
def elapsed (tr : List (DeviceEvent × DeviceOut)) : Int := (tr.map fun x => x.1.duration).sum

@[simp] theorem elapsed_nil : elapsed [] = 0 := rfl

@[simp] theorem elapsed_cons (x : DeviceEvent × DeviceOut) :
    elapsed (x :: tr) = x.1.duration + elapsed tr := rfl

@[simp] theorem elapsed_append (tr₁ tr₂ : List (DeviceEvent × DeviceOut)) :
    elapsed (tr₁ ++ tr₂) = elapsed tr₁ + elapsed tr₂ := by
  simp [elapsed]

theorem duration_nonneg (e : DeviceEvent) : 0 ≤ e.duration := by
  cases e <;> simp [DeviceEvent.duration]

theorem elapsed_nonneg (tr : List (DeviceEvent × DeviceOut)) : 0 ≤ elapsed tr := by
  induction tr with
  | nil => simp
  | cons x tr ih =>
      have := duration_nonneg x.1
      rw [elapsed_cons]
      omega

theorem now_of_step (h : s.step .ideal l e = .ok (s', o)) : s'.now = s.now + e.duration := by
  cases e with
  | startTx p raw =>
      rcases step_startTx h with ⟨d, _, rfl, _⟩ | ⟨_, rfl, _⟩ <;> simp [DeviceEvent.duration]
  | startRx p => simp [(step_startRx h).2.1, DeviceEvent.duration]
  | timer t => simp [(step_timer h).2, DeviceEvent.duration]
  | tick n =>
      obtain ⟨rfl, _⟩ := Prod.mk.inj (Except.ok.inj h)
      rfl

/-- Time does not pass an expiry that no tick passes. -/
theorem now_le_of_step {t : Int} (hle : s.now ≤ t) (htick : ∀ n : Nat, e = .tick n → s.now + n ≤ t)
    (h : s.step .ideal l e = .ok (s', o)) : s'.now ≤ t := by
  rw [now_of_step h]
  cases e with
  | tick n => exact htick n rfl
  | startTx q raw => simpa [DeviceEvent.duration] using hle
  | startRx q => simpa [DeviceEvent.duration] using hle
  | timer u => simpa [DeviceEvent.duration] using hle

/-- A packet accepted during a transmission leaves its end where it is: the
backoff it draws ends with the transmission. -/
def Undisturbed (l : Link) (s : Timed) : DeviceEvent → Prop
  | .startTx p raw =>
      s.dev.state = .tx → (s.dev.startTx .ideal l s.now raw p).isSome →
        ∀ w ∈ s.dev.csmaTimer.wait, s.now + backoff raw minBE = w.expiry
  | .startRx _ | .timer _ | .tick _ => True

instance (l : Link) (s : Timed) (e : DeviceEvent) : Decidable (Undisturbed l s e) :=
  match e with
  | .startTx _ _ => inferInstanceAs (Decidable (_ → _ → _))
  | .startRx _ | .timer _ | .tick _ => isTrue trivial

/-- The runs in which every transmission is left undisturbed. -/
def undisturbed (l : Link) : System Timed DeviceEvent DeviceOut Fault :=
  (ideal l).restrict (Undisturbed l)

/-- The device is transmitting `p` until `t`. -/
structure OnAir (p : Packet) (t : Int) (s : Timed) : Prop where
  transmitting : s.dev.state = .tx
  head : s.dev.txQueue.head? = some p
  ends : ∃ w, s.dev.csmaTimer.wait = some w ∧ w.expiry = t
  before : s.now ≤ t

/-- No packet leaves the queue and none is put on the air. -/
def Quiet (o : DeviceOut) : Prop :=
  ∀ q, o ≠ .transmit q ∧ o ≠ .finished q ∧ o ≠ .gaveUp q

theorem onAir_step (hs : Ideal s) (hair : OnAir p t s) (he : (undisturbed l).Enabled s e)
    (h : (undisturbed l).step s e = .ok (s', o)) :
    (OnAir p t s' ∧ Quiet o) ∨ (o = .finished p ∧ s.now = t) := by
  have hstep : s.step .ideal l e = .ok (s', o) := h
  obtain ⟨htx, hhead, ⟨w, hw, hexp⟩, hle⟩ := hair
  have hdeaf : ¬ s.dev.rxTimer.Armed := by
    intro harm
    rcases hs.agree.rx_cause harm with hrx | hrx <;> cases htx.symm.trans hrx
  cases e with
  | startTx q raw =>
      rcases step_startTx hstep with ⟨d, hd, rfl, rfl⟩ | ⟨_, rfl, rfl⟩
      · have hsame := he.2 htx (by rw [hd]; rfl) w hw
        obtain ⟨_, _, rfl⟩ := startTx_cases hd
        refine .inl ⟨⟨htx, ?_, ⟨_, rfl, hsame.trans hexp⟩, hle⟩, by simp [Quiet]⟩
        cases hq : s.dev.txQueue with
        | nil => simp [hq] at hhead
        | cons a rest => simpa [hq] using hhead
      · exact .inl ⟨⟨htx, hhead, ⟨w, hw, hexp⟩, hle⟩, by simp [Quiet]⟩
  | startRx q =>
      obtain ⟨hrx, hnow, rfl⟩ := step_startRx hstep
      rcases startRx_cases hrx with ⟨_, hd⟩ | ⟨hst, _⟩
      · exact .inl ⟨⟨hd ▸ htx, hd ▸ hhead, ⟨w, hd ▸ hw, hexp⟩, hnow ▸ hle⟩, by simp [Quiet]⟩
      · rcases hst with hst | hst | hst <;> cases htx.symm.trans hst
  | tick n =>
      obtain ⟨rfl, rfl⟩ := Prod.mk.inj (Except.ok.inj hstep)
      have hon : s.now + n ≤ w.expiry := he.1.2.2 w hw
      exact .inl ⟨⟨htx, hhead, ⟨w, hw, hexp⟩, hexp ▸ hon⟩, by simp [Quiet]⟩
  | timer u =>
      obtain ⟨hnow, hcase⟩ := hs.timer_cases he.1.1 hstep
      rcases hcase with ⟨_, ⟨v, hv, _⟩, _⟩ | ⟨_, _, hd, rfl⟩ | ⟨_, ⟨v, hv, _⟩, _⟩ |
        ⟨raw, nb, be, _, ⟨v, hv, _, hdue⟩, hcsma⟩
      · exact absurd (Timer.armed_iff.mpr ⟨v, hv⟩) hdeaf
      · refine .inl ⟨⟨?_, ?_, ?_, hnow ▸ hle⟩, by simp [Quiet]⟩
        · rw [hd]; exact htx
        · rw [hd]; exact hhead
        · rw [hd]
          exact ⟨_, Timer.wait_expire hw, hexp⟩
      · exact absurd (Timer.armed_iff.mpr ⟨v, hv⟩) hdeaf
      · obtain rfl : v = w := Option.some.inj (hv.symm.trans hw)
        obtain ⟨q, rest, hq, hsent⟩ := doCsma_cases hcsma
        have hqp : q = p := by
          rw [show s.dev.txQueue = q :: rest from hq] at hhead
          exact Option.some.inj hhead
        rcases hsent with ⟨hst, _⟩ | ⟨hst, _⟩ | ⟨hst, _⟩ | ⟨_, rfl, _⟩
        · cases htx.symm.trans hst
        · rcases hst with hst | hst <;> cases htx.symm.trans hst
        · rcases hst with hst | hst <;> cases htx.symm.trans hst
        · exact .inr ⟨hqp ▸ rfl, by omega⟩

/-- `DoCsma` puts the head of the queue on the air. -/
theorem onAir_of_transmit (hs : Ideal s) (hdelay : 0 ≤ l.txDelay p.getLength)
    (he : (ideal l).Enabled s e) (h : s.step .ideal l e = .ok (s', .transmit p)) :
    OnAir p (s.now + l.txDelay p.getLength) s' ∧ s'.now = s.now := by
  cases e with
  | startTx q raw => rcases step_startTx h with ⟨_, _, _, ho⟩ | ⟨_, _, ho⟩ <;> cases ho
  | startRx q => cases (step_startRx h).2.2
  | tick n => cases (Prod.mk.inj (Except.ok.inj h)).2
  | timer u =>
      obtain ⟨hnow, hcase⟩ := hs.timer_cases he.1 h
      rcases hcase with ⟨_, _, _, ho⟩ | ⟨_, _, _, ho⟩ | ⟨_, _, hpost⟩ | ⟨raw, nb, be, _, _, hcsma⟩
      · cases ho
      · cases ho
      · rcases (postRx_cases hpost).2 with ⟨_, _, _, ho⟩ | ⟨_, ho⟩ <;> cases ho
      · obtain ⟨q, rest, hq, hsent⟩ := doCsma_cases hcsma
        rcases hsent with ⟨_, ho, hd⟩ | ⟨_, _, ho, _⟩ | ⟨_, _, ho, _⟩ | ⟨_, ho, _⟩
        · obtain rfl := DeviceOut.transmit.inj ho
          refine ⟨⟨by rw [hd], ?_, ⟨_, by rw [hd]; rfl, rfl⟩, by omega⟩, hnow⟩
          rw [hd]
          show s.dev.txQueue.head? = some p
          rw [show s.dev.txQueue = p :: rest from hq]
          rfl
        · cases ho
        · cases ho
        · cases ho

theorem ideal_run (hs : Ideal s) (h : (ideal l).Run s tr s') :
    Ideal s' ∧ s'.now = s.now + elapsed tr := by
  induction h with
  | nil => exact ⟨hs, by simp⟩
  | snoc _ he hstep ih =>
      refine ⟨ideal_step ih.1 he.1 hstep, ?_⟩
      rw [now_of_step hstep, ih.2]
      simp only [elapsed_append, elapsed_cons, elapsed_nil]
      omega

/-- A transmission goes on, or it has ended exactly at its end. -/
theorem onAir_run (hs : Ideal s) (hair : OnAir p t s) (h : (undisturbed l).Run s tr s') :
    (OnAir p t s' ∧ ∀ x ∈ tr, Quiet x.2) ∨
    ∃ before e after, tr = before ++ (e, .finished p) :: after ∧
      (∀ x ∈ before, Quiet x.2) ∧ s.now + elapsed before = t := by
  induction h with
  | nil => exact .inl ⟨hair, by simp⟩
  | @snoc s₁ s₂ tr e o hrun he hstep ih =>
      rcases ih with ⟨hair₁, hquiet⟩ | ⟨before, e', after, rfl, hquiet, hend⟩
      · obtain ⟨hs₁, hnow⟩ := ideal_run hs hrun.of_restrict
        rcases onAir_step hs₁ hair₁ he hstep with ⟨hair₂, ho⟩ | ⟨rfl, hend⟩
        · refine .inl ⟨hair₂, fun x hx => ?_⟩
          rcases List.mem_append.mp hx with hx | hx
          · exact hquiet x hx
          · rw [List.mem_singleton.mp hx]
            exact ho
        · exact .inr ⟨tr, e, [], rfl, hquiet, by omega⟩
      · exact .inr ⟨before, e', after ++ [(e, o)], by simp, hquiet, hend⟩

/-- What the airtime of a packet promises of the events after its start, in
terms of the time since then. -/
structure Airtime (l : Link) (p : Packet) (s : Timed) (tr : List (DeviceEvent × DeviceOut)) :
    Prop where
  /-- The device transmits until the end. -/
  stays : ∀ before after s₁, tr = before ++ after → (undisturbed l).Run s before s₁ →
    elapsed before < l.txDelay p.getLength →
      s₁.dev.state = .tx ∧ s₁.dev.txQueue.head? = some p
  /-- The first packet to leave the queue is this one, at the end. -/
  popped : ∀ before e o after q, tr = before ++ (e, o) :: after →
    (o = .finished q ∨ o = .gaveUp q) →
    (∀ x ∈ before, ∀ r, x.2 ≠ .finished r ∧ x.2 ≠ .gaveUp r) →
      o = .finished p ∧ elapsed before = l.txDelay p.getLength
  /-- Past the end, it has left the queue. -/
  gone : ∀ before after, tr = before ++ after → l.txDelay p.getLength < elapsed before →
    ∃ e, (e, .finished p) ∈ before
  /-- The next transmission starts at the end or later. -/
  next : ∀ before e q after, tr = before ++ (e, .transmit q) :: after →
    l.txDelay p.getLength ≤ elapsed before

theorem airtime_of_onAir (hs : Ideal s) (hair : OnAir p (s.now + l.txDelay p.getLength) s)
    (h : (undisturbed l).Run s tr s') : Airtime l p s tr := by
  have hpart : ∀ before after, tr = before ++ after → ∃ s₁, (undisturbed l).Run s before s₁ := by
    rintro before after rfl
    obtain ⟨s₁, h₁, _⟩ := h.split
    exact ⟨s₁, h₁⟩
  constructor
  · intro before after s₁ _ h₁ hlt
    rcases onAir_run hs hair h₁ with ⟨hair₁, _⟩ | ⟨m₁, e, m₂, rfl, _, hend⟩
    · exact ⟨hair₁.transmitting, hair₁.head⟩
    · have h₂ := elapsed_nonneg m₂
      have h₀ := duration_nonneg e
      simp only [elapsed_append, elapsed_cons] at hlt
      omega
  · intro before e o after q htr ho hnot
    obtain ⟨s₁, h₁⟩ := hpart (before ++ [(e, o)]) after (by simp [htr])
    rcases onAir_run hs hair h₁ with ⟨_, hquiet⟩ | ⟨m₁, e', m₂, hsplit, _, hend⟩
    · have hq := hquiet (e, o) (by simp) q
      rcases ho with rfl | rfl
      · exact absurd rfl hq.2.1
      · exact absurd rfl hq.2.2
    · rcases last_point hsplit with ⟨rfl, hlast, _⟩ | ⟨m, rfl, _⟩
      · obtain ⟨rfl, rfl⟩ := Prod.mk.inj hlast
        exact ⟨rfl, by omega⟩
      · exact absurd rfl (hnot (e', .finished p) (by simp) p).1
  · intro before after htr hlt
    obtain ⟨s₁, h₁⟩ := hpart before after htr
    rcases onAir_run hs hair h₁ with ⟨hair₁, _⟩ | ⟨m₁, e, m₂, rfl, _, _⟩
    · have hle := hair₁.before
      have hnow := (ideal_run hs h₁.of_restrict).2
      omega
    · exact ⟨e, by simp⟩
  · intro before e q after htr
    obtain ⟨s₁, h₁⟩ := hpart (before ++ [(e, .transmit q)]) after (by simp [htr])
    rcases onAir_run hs hair h₁ with ⟨_, hquiet⟩ | ⟨m₁, e', m₂, hsplit, _, hend⟩
    · exact absurd rfl (hquiet (e, .transmit q) (by simp) q).1
    · rcases last_point hsplit with ⟨_, hlast, _⟩ | ⟨m, rfl, _⟩
      · cases (Prod.mk.inj hlast).2
      · have hm := elapsed_nonneg m
        have h₀ := duration_nonneg e'
        simp only [elapsed_append, elapsed_cons]
        omega

/-- The intervals in which the device transmits, in the order of their starts. -/
def airtimes (l : Link) (now : Int) : List (DeviceEvent × DeviceOut) → List (Int × Int)
  | [] => []
  | (e, .transmit p) :: tr =>
      (now, now + l.txDelay p.getLength) :: airtimes l (now + e.duration) tr
  | (e, _) :: tr => airtimes l (now + e.duration) tr

theorem mem_airtimes {now : Int} {a : Int × Int} (h : a ∈ airtimes l now tr) :
    ∃ before e q after, tr = before ++ (e, .transmit q) :: after ∧
      a.1 = now + elapsed before := by
  induction tr generalizing now with
  | nil => simp [airtimes] at h
  | cons x tr ih =>
      have hold : a ∈ airtimes l (now + x.1.duration) tr → ∃ before e q after,
          x :: tr = before ++ (e, .transmit q) :: after ∧ a.1 = now + elapsed before := by
        intro ha
        obtain ⟨before, e, q, after, rfl, h₁⟩ := ih ha
        refine ⟨x :: before, e, q, after, rfl, ?_⟩
        rw [h₁, elapsed_cons]
        omega
      obtain ⟨e, o⟩ := x
      cases o with
      | transmit p =>
          rcases List.mem_cons.mp h with rfl | ha
          · exact ⟨[], e, p, tr, rfl, by simp⟩
          · exact hold ha
      | quiet => exact hold h
      | enqueued p => exact hold h
      | received p => exact hold h
      | finished p => exact hold h
      | gaveUp p => exact hold h

theorem airtimes_disjoint (hdelay : ∀ n, 0 < l.txDelay n) (hs : Ideal s)
    (h : (undisturbed l).Run s tr s') :
    (airtimes l s.now tr).Pairwise fun a b => a.2 ≤ b.1 := by
  induction tr generalizing s with
  | nil => simp [airtimes]
  | cons x tr ih =>
      obtain ⟨e, o⟩ := x
      obtain ⟨s₁, he, hstep, h₁⟩ := h.cons_inv
      have hs₁ := ideal_step hs he.1.1 hstep
      have hnow := now_of_step hstep
      have htail := ih hs₁ h₁
      rw [hnow] at htail
      cases o with
      | transmit p =>
          refine List.pairwise_cons.mpr ⟨fun b hb => ?_, htail⟩
          obtain ⟨before, e', q, after, rfl, hb₁⟩ := mem_airtimes hb
          obtain ⟨hair, hsame⟩ :=
            onAir_of_transmit hs (le_of_lt (hdelay _)) he.1 hstep
          have hair' : OnAir p (s₁.now + l.txDelay p.getLength) s₁ := hsame ▸ hair
          have hnext := (airtime_of_onAir hs₁ hair' h₁).next before e' q after rfl
          show s.now + l.txDelay p.getLength ≤ b.1
          omega
      | quiet => exact htail
      | enqueued p => exact htail
      | received p => exact htail
      | finished p => exact htail
      | gaveUp p => exact htail

/-- **One packet at a time.** In a run that leaves every transmission
undisturbed, each transmission lasts exactly the airtime of its packet, and
the airtimes are pairwise disjoint. -/
theorem one_packet_at_a_time (hdelay : ∀ n, 0 < l.txDelay n) (hnew : s.dev.Fresh)
    (h : (undisturbed l).Run s tr s') :
    (∀ before e p after, tr = before ++ (e, .transmit p) :: after →
      ∃ s₁, (undisturbed l).Run s (before ++ [(e, .transmit p)]) s₁ ∧
        (undisturbed l).Run s₁ after s' ∧ Airtime l p s₁ after) ∧
    (airtimes l s.now tr).Pairwise fun a b => a.2 ≤ b.1 := by
  have hs := ideal_of_fresh hnew
  refine ⟨?_, airtimes_disjoint hdelay hs h⟩
  rintro before e p after rfl
  obtain ⟨s₀, h₀, hrest⟩ := h.split
  obtain ⟨s₁, he, hstep, hafter⟩ := hrest.cons_inv
  have hs₀ := (ideal_run hs h₀.of_restrict).1
  obtain ⟨hair, hnow⟩ := onAir_of_transmit hs₀ (le_of_lt (hdelay _)) he.1 hstep
  exact ⟨s₁, h₀.snoc he hstep, hafter,
    airtime_of_onAir (ideal_step hs₀ he.1.1 hstep) (hnow ▸ hair) hafter⟩

instance (s : Timed) (e : DeviceEvent) : Decidable ((undisturbed l).Enabled s e) :=
  inferInstanceAs (Decidable (((ideal l).Enabled s e) ∧ Undisturbed l s e))

/-- One packet, from the queue to the end of its airtime. -/
def aloneRun : List (DeviceEvent × DeviceOut) :=
  [(.startTx (sample 0 100) 0, .enqueued (sample 0 100)), (.timer .csmaExpire, .quiet),
   (.timer (.doCsma 0), .transmit (sample 0 100)), (.tick 101, .quiet),
   (.timer .csmaExpire, .quiet), (.timer (.doCsma 0), .finished (sample 0 100))]

theorem one_packet_at_a_time_alone : ∃ s,
    (undisturbed slowLink).Run ⟨slowDevice, 0⟩ aloneRun s ∧
    (∀ before e p after, aloneRun = before ++ (e, .transmit p) :: after →
      ∃ s₁, (undisturbed slowLink).Run ⟨slowDevice, 0⟩ (before ++ [(e, .transmit p)]) s₁ ∧
        (undisturbed slowLink).Run s₁ after s ∧ Airtime slowLink p s₁ after) ∧
    (airtimes slowLink 0 aloneRun).Pairwise fun a b => a.2 ≤ b.1 := by
  obtain ⟨s, hs⟩ : ∃ s, (undisturbed slowLink).Run ⟨slowDevice, 0⟩ aloneRun s :=
    ⟨_, System.run_of_exec (show (undisturbed slowLink).exec ⟨slowDevice, 0⟩
      (aloneRun.map (·.1)) = some (aloneRun, _) from rfl)⟩
  have hdelay : ∀ n, 0 < slowLink.txDelay n := by
    intro n
    show (0 : Int) < n + 1
    omega
  exact ⟨s, hs, one_packet_at_a_time hdelay slowDevice_fresh hs⟩

/-- A second packet is accepted ten microseconds into the first one's airtime,
and draws no backoff. -/
def overlapRun : List (DeviceEvent × DeviceOut) :=
  [(.startTx (sample 0 100) 0, .enqueued (sample 0 100)), (.timer .csmaExpire, .quiet),
   (.timer (.doCsma 0), .transmit (sample 0 100)), (.tick 10, .quiet),
   (.startTx (sample 1 60) 0, .enqueued (sample 1 60)), (.timer .csmaExpire, .quiet),
   (.timer (.doCsma 0), .finished (sample 0 100)), (.timer .csmaExpire, .quiet),
   (.timer (.doCsma 0), .transmit (sample 1 60))]

/-- The first packet is popped after a tenth of its airtime, and the second is
on the air together with the rest of it. -/
theorem transmissions_overlap :
    (∃ s, (ideal slowLink).Run ⟨slowDevice, 0⟩ overlapRun s) ∧
    airtimes slowLink 0 overlapRun = [(0, 101), (10, 71)] ∧
    ¬ (airtimes slowLink 0 overlapRun).Pairwise fun a b => a.2 ≤ b.1 :=
  ⟨⟨_, System.run_of_exec (show (ideal slowLink).exec ⟨slowDevice, 0⟩
    (overlapRun.map (·.1)) = some (overlapRun, _) from rfl)⟩, rfl, by decide⟩

end Timed

end NdnEm
