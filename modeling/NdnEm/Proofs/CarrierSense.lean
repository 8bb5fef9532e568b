import NdnEm.Lib.History
import NdnEm.Proofs.TxAirtime
import NdnEm.Proofs.TxQueue

/-!
# How long the channel is busy

A device that hears a packet arms its receive timer for the end of that
packet. A packet that comes in on top of it makes a collision and arms the
timer again, "based on the new packet size": from then on the device knows
only when the new packet ends. If that is before the end of the first one, the
state returns to IDLE with the first packet still on the air, the channel
counts as clear, and whatever is heard next may be received whole.

As long as every packet heard during a reception outlasts it, the timer always
stands at the latest end, and the device is busy until then. The run at the
end shows a long packet cut short by a short one.
-/

namespace NdnEm

open Lib LinkDevice

namespace Timed

variable {l : Link} {s s' s₁ : Timed} {e : DeviceEvent} {o : DeviceOut}
  {tr : List (DeviceEvent × DeviceOut)} {p : Packet} {t : Int}

section Property

variable (l : Link) (s : Timed)

/-- What is on the air after these events is heard: the device is not
transmitting. -/
def Listens (before : List (DeviceEvent × DeviceOut)) : Prop :=
  ∃ s₀, (ideal l).Run s before s₀ ∧ s₀.dev.state ≠ .tx

/-- What carrier sense promises of a run, in terms of the packets heard. A
packet is known by its place in the trace, and its airtime starts there. -/
structure CarrierSensed (tr : List (DeviceEvent × DeviceOut)) : Prop where
  /-- A heard packet keeps the device busy for all of its airtime. -/
  busy : ∀ before p o mid after s₁, tr = before ++ (.startRx p, o) :: (mid ++ after) →
    Listens l s before → (ideal l).Run s (before ++ (.startRx p, o) :: mid) s₁ →
    elapsed mid < l.txDelay p.getLength → s₁.dev.Hearing
  /-- A packet that is dispatched was heard at the start of an airtime that
  ends now and overlaps that of no other heard packet. -/
  whole : ∀ before e p after, tr = before ++ (e, .received p) :: after →
    ∃ b₁ o b₂, before = b₁ ++ (.startRx p, o) :: b₂ ∧ Listens l s b₁ ∧
      elapsed b₂ = l.txDelay p.getLength ∧
      ∀ c₁ q o' c₂, tr = c₁ ++ (.startRx q, o') :: c₂ → Listens l s c₁ →
        c₁.length ≠ b₁.length →
        elapsed c₁ + l.txDelay q.getLength ≤ elapsed b₁ ∨
          elapsed b₁ + l.txDelay p.getLength ≤ elapsed c₁
  /-- The channel is found clear only when every heard packet has ended. -/
  clear : ∀ before e q after, tr = before ++ (e, .transmit q) :: after →
    ∀ c₁ p o c₂, before = c₁ ++ (.startRx p, o) :: c₂ → Listens l s c₁ →
      l.txDelay p.getLength ≤ elapsed c₂

end Property

/-- A packet that is heard during a reception ends no earlier than it. -/
def Outlasts (l : Link) (s : Timed) : DeviceEvent → Prop
  | .startRx p =>
      s.dev.Hearing → ∀ w ∈ s.dev.rxTimer.wait, w.expiry ≤ s.now + l.txDelay p.getLength
  | .startTx .. | .timer _ | .tick _ => True

/-- The runs in which no reception is cut short. -/
def outlasting (l : Link) : System Timed DeviceEvent DeviceOut Fault :=
  (ideal l).restrict (Outlasts l)

/-! ## What happens during a reception -/

/-- The receive path is where it was: a wait may be queued meanwhile. -/
structure RxKept (d d' : LinkDevice) : Prop where
  state : d'.state = d.state
  pending : d'.pendingRx = d.pendingRx
  wait : ∀ w ∈ d.rxTimer.wait, ∃ w' ∈ d'.rxTimer.wait, w'.expiry = w.expiry

theorem RxKept.of_eq {d d' : LinkDevice} (hst : d'.state = d.state)
    (hpend : d'.pendingRx = d.pendingRx) (hrx : d'.rxTimer = d.rxTimer) : RxKept d d' := by
  refine ⟨hst, hpend, ?_⟩
  intro w hw
  exact ⟨w, hrx ▸ hw, rfl⟩

/-- `DoCsma` does not touch a reception. -/
theorem doCsma_kept {d d' : LinkDevice} {csma : Timer (Int × Int)} {now : Int} {raw : Nat}
    {nb be : Int} (hhear : d.Hearing)
    (h : doCsma .ideal l now raw { d with csmaTimer := csma } nb be = .ok (d', o)) :
    RxKept d d' ∧ ∀ q, o ≠ .received q ∧ o ≠ .transmit q := by
  obtain ⟨p, rest, _, hcase⟩ := doCsma_cases h
  rcases hcase with ⟨hidle, _⟩ | ⟨_, _, rfl, rfl⟩ | ⟨_, _, rfl, rfl⟩ | ⟨htx, _⟩
  · rcases hhear with hrx | hrx <;> cases hidle.symm.trans hrx
  · exact ⟨.of_eq rfl rfl rfl, by simp⟩
  · exact ⟨.of_eq serveNext_state serveNext_rx.2 serveNext_rx.1, by simp⟩
  · have htx' : d.state = .tx := htx
    exact absurd htx' hhear.ne_tx

/-- A reception goes on until another packet is heard, or its wait is over. -/
theorem hearing_step (hs : Ideal s) (hhear : s.dev.Hearing) (he : s.Enabled e)
    (h : s.step .ideal l e = .ok (s', o)) :
    (∃ p, e = .startRx p) ∨
    (e = .timer .postRx ∧ ∃ w, s.dev.rxTimer.wait = some w ∧ w.expiry ≤ s.now) ∨
    (RxKept s.dev s'.dev ∧ ∀ q, o ≠ .received q ∧ o ≠ .transmit q) := by
  cases e with
  | startTx p raw =>
      refine .inr (.inr ?_)
      rcases step_startTx h with ⟨d, hd, rfl, rfl⟩ | ⟨_, rfl, rfl⟩
      · obtain ⟨_, _, rfl⟩ := startTx_cases hd
        exact ⟨.of_eq rfl rfl rfl, by simp⟩
      · exact ⟨.of_eq rfl rfl rfl, by simp⟩
  | startRx p => exact .inl ⟨p, rfl⟩
  | tick n =>
      obtain ⟨rfl, rfl⟩ := Prod.mk.inj (Except.ok.inj h)
      exact .inr (.inr ⟨.of_eq rfl rfl rfl, by simp⟩)
  | timer u =>
      rcases (hs.timer_cases he h).2 with ⟨_, _, hd, rfl⟩ | ⟨_, _, hd, rfl⟩ | ⟨rfl, hdue, _⟩ |
        ⟨raw, nb, be, _, _, hcsma⟩
      · refine .inr (.inr ⟨⟨by rw [hd], by rw [hd], ?_⟩, by simp⟩)
        intro w hw
        rw [hd]
        exact ⟨_, Timer.wait_expire hw, rfl⟩
      · rw [hd]
        exact .inr (.inr ⟨.of_eq rfl rfl rfl, by simp⟩)
      · exact .inr (.inl ⟨rfl, hdue⟩)
      · exact .inr (.inr (doCsma_kept hhear hcsma))

/-! ## The timer stands at the latest end -/

/-- The device is busy until `t` at least. -/
def BusyUntil (t : Int) (s : Timed) : Prop :=
  s.dev.Hearing ∧ ∃ w, s.dev.rxTimer.wait = some w ∧ t ≤ w.expiry

/-- A packet that is heard keeps the device busy until it ends. -/
theorem busyUntil_startRx (hst : s.dev.state ≠ .tx)
    (h : s.step .ideal l (.startRx p) = .ok (s', o)) :
    BusyUntil (s.now + l.txDelay p.getLength) s' := by
  rcases startRx_cases (step_startRx h).1 with ⟨htx, _⟩ | ⟨_, st, hrx, _, hd⟩
  · exact absurd htx hst
  · refine ⟨?_, ⟨_, (), false⟩, ?_, Int.le_refl _⟩
    · rw [hd]
      exact hrx
    · rw [hd]
      rfl

theorem busyUntil_step (hs : Ideal s) (hbusy : BusyUntil t s) (he : (outlasting l).Enabled s e)
    (h : s.step .ideal l e = .ok (s', o)) : BusyUntil t s' ∨ t ≤ s.now := by
  obtain ⟨hhear, w, hw, hle⟩ := hbusy
  rcases hearing_step hs hhear he.1.1 h with ⟨q, rfl⟩ | ⟨_, w', hw', hend⟩ | ⟨hkept, _⟩
  · have hlong : w.expiry ≤ s.now + l.txDelay q.getLength := he.2 hhear w hw
    obtain ⟨hhear', w', hw', hle'⟩ := busyUntil_startRx hhear.ne_tx h
    exact .inl ⟨hhear', w', hw', by omega⟩
  · rw [hw] at hw'
    obtain rfl := Option.some.inj hw'
    exact .inr (by omega)
  · obtain ⟨w', hw', hsame⟩ := hkept.wait w hw
    refine .inl ⟨?_, w', hw', by omega⟩
    unfold Hearing
    rw [hkept.state]
    exact hhear

theorem busyUntil_run (hs : Ideal s) (hbusy : BusyUntil t s) (h : (outlasting l).Run s tr s') :
    BusyUntil t s' ∨ t ≤ s'.now := by
  induction h with
  | nil => exact .inl hbusy
  | @snoc s₁ s₂ tr e o hrun he hstep ih =>
      have hs₁ := (ideal_run hs hrun.of_restrict).1
      have hnow : s₂.now = s₁.now + e.duration := now_of_step hstep
      have hpos := duration_nonneg e
      rcases ih with hbusy₁ | hend
      · rcases busyUntil_step hs₁ hbusy₁ he hstep with hbusy₂ | hend
        · exact .inl hbusy₂
        · exact .inr (by omega)
      · exact .inr (by omega)

/-- A packet that is heard keeps the device busy for its airtime. -/
theorem channel_busy {before mid : List (DeviceEvent × DeviceOut)} (hs : Ideal s)
    (hlisten : Listens l s before)
    (h : (outlasting l).Run s (before ++ (.startRx p, o) :: mid) s')
    (hlt : elapsed mid < l.txDelay p.getLength) : s'.dev.Hearing := by
  obtain ⟨s₀, h₀, hst⟩ := hlisten
  obtain ⟨a, ha, hrest⟩ := h.split
  obtain rfl : a = s₀ := ha.of_restrict.deterministic h₀
  obtain ⟨b, _, hstep, hmid⟩ := hrest.cons_inv
  have hstep' : a.step .ideal l (.startRx p) = .ok (b, o) := hstep
  have hen : a.Enabled (.startRx p) := trivial
  have hb : Ideal b := ideal_step (ideal_run hs h₀).1 hen hstep'
  have hnow : b.now = a.now := (step_startRx hstep').2.1
  rcases busyUntil_run hb (busyUntil_startRx hst hstep') hmid with hbusy | hend
  · exact hbusy.1
  · rw [(ideal_run hb hmid.of_restrict).2, hnow] at hend
    omega

/-! ## A packet that is received whole -/

/-- Only a packet that is heard puts the device in RX. -/
theorem rx_of_step (hne : ∀ p, e ≠ .startRx p) (h : s.step .ideal l e = .ok (s', o))
    (hrx : s'.dev.state = .rx) : s.dev.state = .rx := by
  cases e with
  | startTx p raw =>
      rcases step_startTx h with ⟨d, hd, rfl, _⟩ | ⟨_, rfl, _⟩
      · obtain ⟨_, _, rfl⟩ := startTx_cases hd
        exact hrx
      · exact hrx
  | startRx p => exact absurd rfl (hne p)
  | tick n =>
      obtain ⟨rfl, _⟩ := Prod.mk.inj (Except.ok.inj h)
      exact hrx
  | timer u =>
      rcases fire_cases (step_timer h).1 with ⟨_, hd, _⟩ | ⟨_, hd, _⟩ | ⟨t, _, hpost⟩ |
        ⟨raw, t, nb, be, _, hcsma⟩
      · rw [hd] at hrx
        exact hrx
      · rw [hd] at hrx
        exact hrx
      · rw [(postRx_cases hpost).1] at hrx
        cases hrx
      · obtain ⟨q, rest, _, hcase⟩ := doCsma_cases hcsma
        rcases hcase with ⟨_, _, hd⟩ | ⟨_, _, _, hd⟩ | ⟨_, _, _, hd⟩ | ⟨_, _, hd⟩
        · rw [hd] at hrx
          cases hrx
        · rw [hd] at hrx
          exact hrx
        · rw [hd, serveNext_state] at hrx
          exact hrx
        · rw [hd, serveNext_state] at hrx
          cases hrx

/-- `p` was heard by an idle device, and nothing was heard since. -/
structure Intact (l : Link) (s : Timed) (b₁ b₂ : List (DeviceEvent × DeviceOut)) (p : Packet)
    (s' : Timed) : Prop where
  idle : ∃ s₀, (ideal l).Run s b₁ s₀ ∧ s₀.dev.state = .idle
  alone : ∀ x ∈ b₂, ∀ q, x.1 ≠ .startRx q
  pending : s'.dev.pendingRx = some p
  wait : ∃ w, s'.dev.rxTimer.wait = some w ∧
    w.expiry = s.now + elapsed b₁ + l.txDelay p.getLength ∧ s'.now ≤ w.expiry

/-- Time does not pass the end of a reception. -/
theorem now_le_expiry {w : Wait Unit} (hw : s.dev.rxTimer.wait = some w) (hle : s.now ≤ w.expiry)
    (he : (ideal l).Enabled s e) (h : s.step .ideal l e = .ok (s', o)) : s'.now ≤ w.expiry := by
  refine now_le_of_step hle ?_ h
  rintro n rfl
  exact he.2.1 w hw

theorem intact_of_rx (hdelay : ∀ n, 0 < l.txDelay n) (hnew : s.dev.Fresh)
    (h : (ideal l).Run s tr s') (hrx : s'.dev.state = .rx) :
    ∃ b₁ p o b₂, tr = b₁ ++ (.startRx p, o) :: b₂ ∧ Intact l s b₁ b₂ p s' := by
  induction h with
  | nil =>
      rw [hnew.1] at hrx
      cases hrx
  | @snoc s₁ s₂ tr e o hrun he hstep ih =>
      obtain ⟨hs₁, hnow⟩ := ideal_run (ideal_of_fresh hnew) hrun
      have hstep' : s₁.step .ideal l e = .ok (s₂, o) := hstep
      by_cases hne : ∀ p, e ≠ .startRx p
      · have hrx₁ := rx_of_step hne hstep' hrx
        obtain ⟨b₁, p, o₁, b₂, rfl, hin⟩ := ih hrx₁
        obtain ⟨w, hw, hexp, hle⟩ := hin.wait
        rcases hearing_step hs₁ (.inl hrx₁) he.1 hstep' with ⟨q, hq⟩ | ⟨rfl, _⟩ | ⟨hkept, _⟩
        · exact absurd hq (hne q)
        · rw [(postRx_cases (step_timer hstep').1).1] at hrx
          cases hrx
        · obtain ⟨w', hw', hsame⟩ := hkept.wait w hw
          refine ⟨b₁, p, o₁, b₂ ++ [(e, o)], by simp, hin.idle, ?_, hkept.pending.trans hin.pending,
            w', hw', hsame.trans hexp, ?_⟩
          · intro x hx q
            rcases List.mem_append.mp hx with hx | hx
            · exact hin.alone x hx q
            · rw [List.mem_singleton.mp hx]
              exact hne q
          · rw [hsame]
            exact now_le_expiry hw hle he hstep'
      · obtain ⟨p, rfl⟩ := not_forall_not.mp hne
        obtain ⟨hf, hsame, _⟩ := step_startRx hstep'
        rcases startRx_cases hf with ⟨htx, hd⟩ | ⟨_, st, _, hst, hd⟩
        · rw [hd, htx] at hrx
          cases hrx
        · rw [hd] at hrx
          refine ⟨tr, p, o, [], rfl, ⟨s₁, hrun, hst.mp hrx⟩, by simp, by rw [hd], _, by rw [hd]; rfl,
            ?_, ?_⟩
          · rw [← hnow]
          · have hpos := hdelay p.getLength
            show s₂.now ≤ s₁.now + l.txDelay p.getLength
            omega

/-- A packet is dispatched at the end of the wait of a device in RX. -/
theorem received_cases (hs : Ideal s) (he : s.Enabled e)
    (h : s.step .ideal l e = .ok (s', .received p)) :
    s.dev.state = .rx ∧ s.dev.pendingRx = some p ∧
      ∃ w, s.dev.rxTimer.wait = some w ∧ w.expiry ≤ s.now := by
  cases e with
  | startTx q raw => rcases step_startTx h with ⟨_, _, _, ho⟩ | ⟨_, _, ho⟩ <;> cases ho
  | startRx q => cases (step_startRx h).2.2
  | tick n => cases (Prod.mk.inj (Except.ok.inj h)).2
  | timer u =>
      rcases (hs.timer_cases he h).2 with ⟨_, _, _, ho⟩ | ⟨_, _, _, ho⟩ | ⟨_, hdue, hpost⟩ |
        ⟨raw, nb, be, _, _, hcsma⟩
      · cases ho
      · cases ho
      · rcases (postRx_cases hpost).2 with ⟨hst, q, hq, ho⟩ | ⟨_, ho⟩
        · obtain rfl := DeviceOut.received.inj ho
          exact ⟨hst, hq, hdue⟩
        · cases ho
      · obtain ⟨q, rest, _, hcase⟩ := doCsma_cases hcsma
        rcases hcase with ⟨_, ho, _⟩ | ⟨_, _, ho, _⟩ | ⟨_, _, ho, _⟩ | ⟨_, ho, _⟩ <;> cases ho

/-- A device that hears something does not start to transmit. -/
theorem not_transmit_of_hearing (hs : Ideal s) (hhear : s.dev.Hearing) (he : s.Enabled e)
    (h : s.step .ideal l e = .ok (s', o)) : o ≠ .transmit p := by
  rintro rfl
  rcases hearing_step hs hhear he h with ⟨q, rfl⟩ | ⟨rfl, _⟩ | ⟨_, hnot⟩
  · cases (step_startRx h).2.2
  · rcases (postRx_cases (step_timer h).1).2 with ⟨_, _, _, ho⟩ | ⟨_, ho⟩ <;> cases ho
  · exact absurd rfl (hnot p).2

/-- The airtime of a packet that is dispatched is over, and it was alone. -/
theorem received_whole (hdelay : ∀ n, 0 < l.txDelay n) (hnew : s.dev.Fresh)
    (h : (outlasting l).Run s tr s') {before after : List (DeviceEvent × DeviceOut)}
    (htr : tr = before ++ (e, .received p) :: after) :
    ∃ b₁ o b₂, before = b₁ ++ (.startRx p, o) :: b₂ ∧ Listens l s b₁ ∧
      elapsed b₂ = l.txDelay p.getLength ∧
      ∀ c₁ q o' c₂, tr = c₁ ++ (.startRx q, o') :: c₂ → Listens l s c₁ →
        c₁.length ≠ b₁.length →
        elapsed c₁ + l.txDelay q.getLength ≤ elapsed b₁ ∨
          elapsed b₁ + l.txDelay p.getLength ≤ elapsed c₁ := by
  have hideal := ideal_of_fresh hnew
  rw [htr] at h
  obtain ⟨s₁, hbefore, hrest⟩ := h.split
  obtain ⟨s₂, he, hstep, _⟩ := hrest.cons_inv
  obtain ⟨hs₁, hnow⟩ := ideal_run hideal hbefore.of_restrict
  obtain ⟨hrx, hpend, w, hw, hdue⟩ := received_cases hs₁ he.1.1 hstep
  obtain ⟨b₁, q, o, b₂, rfl, hin⟩ := intact_of_rx hdelay hnew hbefore.of_restrict hrx
  obtain rfl : q = p := Option.some.inj (hin.pending.symm.trans hpend)
  obtain ⟨w', hw', hexp, hle⟩ := hin.wait
  obtain rfl : w = w' := Option.some.inj (hw.symm.trans hw')
  obtain ⟨s₀, h₀, hidle⟩ := hin.idle
  simp only [elapsed_append, elapsed_cons, DeviceEvent.duration] at hnow
  have hlast : elapsed b₂ = l.txDelay q.getLength := by omega
  refine ⟨b₁, o, b₂, rfl, ⟨s₀, h₀, by simp [hidle]⟩, hlast, ?_⟩
  intro c₁ r o' c₂ htr' hlisten hne
  rw [htr, List.append_assoc, List.cons_append] at htr'
  rcases points_cases htr' with ⟨m, rfl, hm⟩ | ⟨rfl, _, _⟩ | ⟨m, hb₁, _⟩
  · -- heard after `q` was, so not before it was dispatched
    refine .inr ?_
    rcases points_cases hm with ⟨m', rfl, _⟩ | ⟨_, hdisp, _⟩ | ⟨m', hb₂, _⟩
    · have hpos := elapsed_nonneg ((e, DeviceOut.received q) :: m')
      simp only [elapsed_append, elapsed_cons, DeviceEvent.duration] at hpos ⊢
      omega
    · obtain ⟨rfl, rfl⟩ := Prod.mk.inj hdisp
      cases (step_startRx hstep).2.2
    · exact absurd rfl (hin.alone (.startRx r, o') (by simp [hb₂]) r)
  · exact absurd rfl hne
  · -- heard before `q`, and over when the device was idle again
    refine .inl ?_
    rw [hb₁] at h₀ hbefore
    obtain ⟨a, ha, _⟩ := hbefore.split
    obtain rfl : a = s₀ := ha.of_restrict.deterministic h₀
    by_contra hover
    have hhear := channel_busy hideal hlisten ha (by
      rw [hb₁] at hover
      simp only [elapsed_append, elapsed_cons, DeviceEvent.duration] at hover
      omega)
    rcases hhear with hst | hst <;> cases hidle.symm.trans hst

/-- **The channel is busy while something is heard.** In a run in which every
packet heard during a reception outlasts it, a heard packet keeps the device
busy for its airtime; so no packet is dispatched that overlaps another, and
the channel is found clear only when every heard packet is over. -/
theorem channel_sensed (hdelay : ∀ n, 0 < l.txDelay n) (hnew : s.dev.Fresh)
    (h : (outlasting l).Run s tr s') : CarrierSensed l s tr where
  busy before p o mid after s₁ htr hlisten h₁ hlt := by
    rw [htr, ← List.cons_append, ← List.append_assoc] at h
    obtain ⟨a, ha, _⟩ := h.split
    obtain rfl : a = s₁ := ha.of_restrict.deterministic h₁
    exact channel_busy (ideal_of_fresh hnew) hlisten ha hlt
  whole before e p after htr := received_whole hdelay hnew h htr
  clear before e q after htr c₁ p o c₂ hbefore hlisten := by
    by_contra hover
    rw [htr] at h
    obtain ⟨s₁, h₁, hrest⟩ := h.split
    obtain ⟨s₂, he, hstep, _⟩ := hrest.cons_inv
    rw [hbefore] at h₁
    have hideal := ideal_of_fresh hnew
    have hhear := channel_busy hideal hlisten h₁ (by omega)
    exact not_transmit_of_hearing (ideal_run hideal h₁.of_restrict).1 hhear he.1.1 hstep rfl

instance (l : Link) (s : Timed) (e : DeviceEvent) : Decidable (Outlasts l s e) :=
  match e with
  | .startRx _ => inferInstanceAs (Decidable (_ → _))
  | .startTx .. | .timer _ | .tick _ => isTrue trivial

instance (l : Link) (s : Timed) (e : DeviceEvent) : Decidable ((outlasting l).Enabled s e) :=
  inferInstanceAs (Decidable ((ideal l).Enabled s e ∧ Outlasts l s e))

/-- A packet that collides with a longer one, and after both one that does not
collide. -/
def collisionRun : List (DeviceEvent × DeviceOut) :=
  [(.startRx (sample 0 10), .quiet), (.tick 5, .quiet), (.startRx (sample 1 50), .quiet),
   (.tick 51, .quiet), (.timer .rxExpire, .quiet), (.timer .postRx, .quiet),
   (.startRx (sample 2 20), .quiet), (.tick 21, .quiet), (.timer .rxExpire, .quiet),
   (.timer .postRx, .received (sample 2 20))]

theorem slowLink_delay : ∀ n, 0 < slowLink.txDelay n := by
  intro n
  show (0 : Int) < n + 1
  omega

theorem channel_sensed_collision : ∃ s,
    (outlasting slowLink).Run ⟨slowDevice, 0⟩ collisionRun s ∧
    CarrierSensed slowLink ⟨slowDevice, 0⟩ collisionRun := by
  obtain ⟨s, hs⟩ : ∃ s, (outlasting slowLink).Run ⟨slowDevice, 0⟩ collisionRun s :=
    ⟨_, System.run_of_exec (show (outlasting slowLink).exec ⟨slowDevice, 0⟩
      (collisionRun.map (·.1)) = some (collisionRun, _) from rfl)⟩
  exact ⟨s, hs, channel_sensed slowLink_delay slowDevice_fresh hs⟩

/-- A short packet comes in on top of a long one, which is then taken for
over: the device transmits, a tenth into the long packet's airtime. -/
def cutRun : List (DeviceEvent × DeviceOut) :=
  [(.startTx (sample 2 30) 1, .enqueued (sample 2 30)),
   (.startRx (sample 0 1000), .quiet), (.tick 300, .quiet), (.startRx (sample 1 10), .quiet),
   (.tick 11, .quiet), (.timer .rxExpire, .quiet), (.timer .postRx, .quiet), (.tick 9, .quiet),
   (.timer .csmaExpire, .quiet), (.timer (.doCsma 0), .transmit (sample 2 30))]

theorem long_packet_cut_short :
    (∃ s, (ideal slowLink).Run ⟨slowDevice, 0⟩ cutRun s) ∧
    ¬ CarrierSensed slowLink ⟨slowDevice, 0⟩ cutRun := by
  refine ⟨⟨_, System.run_of_exec (show (ideal slowLink).exec ⟨slowDevice, 0⟩
    (cutRun.map (·.1)) = some (cutRun, _) from rfl)⟩, ?_⟩
  intro h
  have hclear := h.clear (cutRun.take 9) (.timer (.doCsma 0)) (sample 2 30) [] rfl
    (cutRun.take 1) (sample 0 1000) .quiet ((cutRun.take 9).drop 2) rfl
    ⟨_, System.run_of_exec (show (ideal slowLink).exec ⟨slowDevice, 0⟩
      ((cutRun.take 1).map (·.1)) = some (cutRun.take 1, _) from rfl), by decide⟩
  revert hclear
  decide

end Timed

end NdnEm
