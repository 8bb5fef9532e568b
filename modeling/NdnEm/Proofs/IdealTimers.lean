import NdnEm.Proofs.DeviceStep

/-!
# Ideal timers

Timers that never run late and never run behind: arming one always takes the
old wait with it, and time does not pass an expiry before its handler has run.
With them every reachable state of a device is one in which state, queue and
timers agree, and a handler runs exactly when its wait expires.
-/

namespace NdnEm

open Lib LinkDevice

namespace Timed

variable {l : Link} {s s' : Timed} {e : DeviceEvent} {o : DeviceOut}

/-- Time stops at an expiry until its handler has run. -/
def OnTime (s : Timed) : DeviceEvent → Prop
  | .tick n => s.dev.rxTimer.OnTime (s.now + n) ∧ s.dev.csmaTimer.OnTime (s.now + n)
  | .startTx .. | .startRx _ | .timer _ => True

/-- A device with ideal timers. -/
def ideal (l : Link) : System Timed DeviceEvent DeviceOut Fault :=
  (system .ideal l).restrict OnTime

instance (s : Timed) (e : DeviceEvent) : Decidable (s.OnTime e) :=
  match e with
  | .tick _ => inferInstanceAs (Decidable (_ ∧ _))
  | .startTx .. | .startRx _ | .timer _ => isTrue trivial

instance (l : Link) (s : Timed) (e : DeviceEvent) : Decidable ((ideal l).Enabled s e) :=
  inferInstanceAs (Decidable (s.Enabled e ∧ s.OnTime e))

/-- What ideal timers add to the agreement of state, queue and timers. -/
structure Ideal (s : Timed) : Prop where
  agree : s.dev.Agree
  rx : s.dev.rxTimer.Sound s.now
  csma : s.dev.csmaTimer.Sound s.now

theorem ideal_of_fresh (hd : s.dev.Fresh) : Ideal s := by
  refine ⟨hd.agree, ?_, ?_⟩
  · rw [hd.2.2.1]
    exact Timer.sound_unarmed _
  · rw [hd.2.2.2]
    exact Timer.sound_unarmed _

/-- There are no late handlers, so those among the events are harmless. -/
theorem Ideal.harmless (hs : Ideal s) (he : s.Enabled e) : s.Harmless e := by
  cases e with
  | startTx p raw => trivial
  | startRx p => trivial
  | tick n => trivial
  | timer t =>
      cases t with
      | rxExpire => trivial
      | postRx => trivial
      | csmaExpire => trivial
      | doCsma raw => trivial
      | postRxLate k =>
          have hk : k < s.dev.rxTimer.late.length := he
          rw [hs.rx.1] at hk
          simp at hk
      | doCsmaLate k raw =>
          have hk : k < s.dev.csmaTimer.late.length := he
          rw [hs.csma.1] at hk
          simp at hk

/-- A timer event of a device with ideal timers is an expiry, or the handler of
a wait that has expired. -/
theorem Ideal.timer_cases {t : TimerEvent} (hs : Ideal s) (he : s.Enabled (.timer t))
    (h : s.step .ideal l (.timer t) = .ok (s', o)) :
    s'.now = s.now ∧
    ((t = .rxExpire ∧ s.dev.rxTimer.Due s.now ∧
        s'.dev = { s.dev with rxTimer := s.dev.rxTimer.expire } ∧ o = .quiet) ∨
     (t = .csmaExpire ∧ s.dev.csmaTimer.Due s.now ∧
        s'.dev = { s.dev with csmaTimer := s.dev.csmaTimer.expire } ∧ o = .quiet) ∨
     (t = .postRx ∧ (∃ w, s.dev.rxTimer.wait = some w ∧ w.expiry ≤ s.now) ∧
        postRx { s.dev with rxTimer := s.dev.rxTimer.take } = .ok (s'.dev, o)) ∨
     (∃ raw nb be, t = .doCsma raw ∧
        (∃ w, s.dev.csmaTimer.wait = some w ∧ w.args = (nb, be) ∧ w.expiry ≤ s.now) ∧
        doCsma .ideal l s.now raw { s.dev with csmaTimer := s.dev.csmaTimer.take } nb be =
          .ok (s'.dev, o))) := by
  obtain ⟨hf, hnow⟩ := step_timer h
  have hcan : s.dev.CanFire s.now t := he
  refine ⟨hnow, ?_⟩
  rcases fire_cases hf with ⟨rfl, hd, ho⟩ | ⟨rfl, hd, ho⟩ | ⟨u, hrun, hpost⟩ |
    ⟨raw, u, nb, be, hrun, hcsma⟩
  · exact .inl ⟨rfl, hcan, hd, ho⟩
  · exact .inr (.inl ⟨rfl, hcan, hd, ho⟩)
  · cases hrun with
    | wait =>
        obtain ⟨a, ha⟩ := Option.isSome_iff_exists.mp hcan
        obtain ⟨w, hw, _, hle⟩ := hs.rx.expiry_le ha
        exact .inr (.inr (.inl ⟨rfl, ⟨w, hw, hle⟩, hpost⟩))
    | late k =>
        have hk : k < s.dev.rxTimer.late.length := hcan
        simp [hs.rx.1] at hk
  · cases hrun with
    | wait hready =>
        obtain ⟨w, hw, hargs, hle⟩ := hs.csma.expiry_le hready
        exact .inr (.inr (.inr ⟨raw, nb, be, rfl, ⟨w, hw, hargs, hle⟩, hcsma⟩))
    | late hlate => simp [hs.csma.1] at hlate

theorem doCsma_timers {d d' : LinkDevice} {now : Int} {raw : Nat} {nb be : Int}
    (h : d.doCsma .ideal l now raw nb be = .ok (d', o)) (hs : d.csmaTimer.Sound now) :
    d'.rxTimer = d.rxTimer ∧ d'.csmaTimer.Sound now := by
  have hnext : ∀ {d₁ : LinkDevice}, d₁.csmaTimer = d.csmaTimer →
      (serveNext .ideal now raw d₁).csmaTimer.Sound now := by
    intro d₁ h₁
    unfold serveNext
    split
    · exact (h₁ ▸ hs).arm _ _
    · exact h₁ ▸ hs
  obtain ⟨p, rest, _, hcase⟩ := doCsma_cases h
  rcases hcase with ⟨_, _, rfl⟩ | ⟨_, _, _, rfl⟩ | ⟨_, _, _, rfl⟩ | ⟨_, _, rfl⟩
  · exact ⟨rfl, hs.arm _ _⟩
  · exact ⟨rfl, hs.arm _ _⟩
  · exact ⟨serveNext_rx.1, hnext rfl⟩
  · exact ⟨serveNext_rx.1, hnext rfl⟩

theorem ideal_step (hs : Ideal s) (he : s.Enabled e) (hstep : s.step .ideal l e = .ok (s', o)) :
    Ideal s' := by
  have hagree := agree_step hs.agree (hs.harmless he) hstep
  cases e with
  | startTx p raw =>
      rcases step_startTx hstep with ⟨d, hd, rfl, _⟩ | ⟨_, rfl, _⟩
      · obtain ⟨_, _, rfl⟩ := startTx_cases hd
        exact ⟨hagree, hs.rx, hs.csma.arm _ _⟩
      · exact hs
  | startRx p =>
      obtain ⟨hrx, hnow, _⟩ := step_startRx hstep
      refine ⟨hagree, ?_, ?_⟩
      · rw [hnow]
        rcases startRx_cases hrx with ⟨_, hd⟩ | ⟨_, st, _, _, hd⟩
        · exact hd ▸ hs.rx
        · exact hd ▸ hs.rx.arm _ _
      · rw [hnow]
        rcases startRx_cases hrx with ⟨_, hd⟩ | ⟨_, st, _, _, hd⟩
        · exact hd ▸ hs.csma
        · exact hd ▸ hs.csma
  | tick n =>
      obtain ⟨rfl, _⟩ := Prod.mk.inj (Except.ok.inj hstep)
      have hle : s.now ≤ s.now + n := by omega
      exact ⟨hagree, hs.rx.mono hle, hs.csma.mono hle⟩
  | timer t =>
      obtain ⟨hnow, hcase⟩ := hs.timer_cases he hstep
      suffices hboth : s'.dev.rxTimer.Sound s.now ∧ s'.dev.csmaTimer.Sound s.now from
        ⟨hagree, hnow ▸ hboth.1, hnow ▸ hboth.2⟩
      rcases hcase with ⟨_, hdue, hd, _⟩ | ⟨_, hdue, hd, _⟩ | ⟨_, _, hpost⟩ |
        ⟨raw, nb, be, _, _, hcsma⟩
      · rw [hd]
        exact ⟨hs.rx.expire hdue, hs.csma⟩
      · rw [hd]
        exact ⟨hs.rx, hs.csma.expire hdue⟩
      · rw [(postRx_cases hpost).1]
        exact ⟨hs.rx.take, hs.csma⟩
      · obtain ⟨hrx, hsound⟩ := doCsma_timers hcsma hs.csma.take
        exact ⟨hrx ▸ hs.rx, hsound⟩

end Timed

end NdnEm
