import NdnEm.Proofs.DeviceStep

/-!
# When a late handler crashes the emulator

The handler of a wait that was queued before its timer was armed again runs
all the same. `PostRx` allows for that when the device is idle by then, which
is the case its comment describes; in every other state, and in `DoCsma`
throughout, a late handler is taken for the current one.

As long as late handlers are harmless, state, queue and timers agree, and no
callback fails. Without that they stop agreeing, and the current handler is
the one that crashes: in the run below a late `PostRx` ends a reception whose
own timer is still running, the device starts to transmit, and then that timer
fires.
-/

namespace NdnEm

open Lib LinkDevice

namespace Timed

variable {mode : Rearm} {l : Link} {s s' : Timed}

/-- A handler that finds state, queue and timers in agreement does not fail. -/
theorem fire_no_fault {d : LinkDevice} {now : Int} {t : TimerEvent} (hd : d.Agree)
    (hcan : d.CanFire now t) (he : d.Harmless t) (f : Fault) :
    d.fire mode l now t ≠ .error f := by
  have hpost : ∀ {u : Timer Unit}, d.state ≠ .tx →
      postRx { d with rxTimer := u } ≠ .error f := by
    intro u htx h
    unfold postRx at h
    split at h
    · next hst =>
        split at h
        · next hp =>
            have hsome := hd.pending hst
            rw [show d.pendingRx = none from hp] at hsome
            simp at hsome
        · cases h
    · cases h
    · cases h
    · next hst => exact htx hst
    · next hst => exact hd.awake.1 hst
    · next hst => exact hd.awake.2 hst
  have hcsma : ∀ {u : Timer (Int × Int)} {raw : Nat} {nb be : Int}, d.txQueue ≠ [] →
      doCsma mode l now raw { d with csmaTimer := u } nb be ≠ .error f := by
    intro u raw nb be hq h
    unfold doCsma at h
    split at h
    · next hnil => exact hq hnil
    · split at h
      · cases h
      · simp only [] at h
        split at h <;> cases h
      · simp only [] at h
        split at h <;> cases h
      · cases h
      · next hst => exact hd.awake.1 hst
      · next hst => exact hd.awake.2 hst
  cases t with
  | rxExpire => intro h; cases h
  | postRx =>
      -- the timer is armed, so the device is receiving
      obtain ⟨a, ha⟩ := Option.isSome_iff_exists.mp hcan
      have hhear := hd.rx_cause (Timer.armed_of_ready ha)
      refine hpost fun htx => ?_
      rcases hhear with hrx | hrx <;> cases htx.symm.trans hrx
  | postRxLate k => exact hpost (fun htx => by cases htx.symm.trans he)
  | csmaExpire => intro h; cases h
  | doCsma raw =>
      obtain ⟨⟨nb, be⟩, ha⟩ := Option.isSome_iff_exists.mp hcan
      simp only [fire, ha]
      exact hcsma (hd.csma_cause (Timer.armed_of_ready ha))
  | doCsmaLate k raw =>
      have hk : k < d.csmaTimer.late.length := hcan
      simp only [fire, List.getElem?_eq_getElem hk]
      exact hcsma he.1

/-- **Late handlers and crashes.** In every run of a device in which late
handlers are harmless, no callback reaches an illegal state or fails an
assertion. -/
theorem late_timers_safe {tr : List (DeviceEvent × DeviceOut)} (hnew : s.dev.Fresh)
    (h : ((system .late l).restrict Harmless).Run s tr s') (e : DeviceEvent) (f : Fault) :
    ¬ ((system .late l).restrict Harmless).Faults s' e f := by
  have hs' : s'.dev.Agree :=
    h.invariant (I := fun s => s.dev.Agree)
      (fun s e _ _ hs (he : s.Enabled e ∧ s.Harmless e) hstep => agree_step hs he.2 hstep)
      hnew.agree
  rintro ⟨⟨hcan, he⟩, hf⟩
  simp only [System.restrict, system] at hf
  cases e with
  | startTx p raw =>
      simp only [step] at hf
      split at hf <;> cases hf
  | startRx p =>
      simp only [step] at hf
      cases hrx : s'.dev.startRx .late l s'.now p with
      | ok d => simp [hrx, Except.map] at hf
      | error g =>
          unfold startRx at hrx
          split at hrx
          · cases hrx
          · cases hrx
          · cases hrx
          · cases hrx
          · next hst => exact hs'.awake.1 hst
          · next hst => exact hs'.awake.2 hst
  | timer t =>
      simp only [step] at hf
      cases ht : s'.dev.fire .late l s'.now t with
      | ok r => simp [ht, Except.map] at hf
      | error g => exact fire_no_fault hs' hcan he g ht
  | tick n => cases hf

instance (s : Timed) (e : DeviceEvent) : Decidable (s.Harmless e) :=
  match e with
  | .timer e => inferInstanceAs (Decidable (s.dev.Harmless e))
  | .startTx .. | .startRx _ | .tick _ => isTrue trivial

instance (s : Timed) (e : DeviceEvent) :
    Decidable (((system mode l).restrict Harmless).Enabled s e) :=
  inferInstanceAs (Decidable (_ ∧ _))

/-- The handler of a reception is queued when another packet is heard, and it
runs when that one is over, in an idle device. -/
def idleRun : List (DeviceEvent × DeviceOut) :=
  [(.startRx (sample 0 10), .quiet), (.tick 11, .quiet), (.timer .rxExpire, .quiet),
   (.startRx (sample 1 50), .quiet), (.tick 51, .quiet), (.timer .rxExpire, .quiet),
   (.timer .postRx, .quiet), (.timer (.postRxLate 0), .quiet)]

theorem late_timers_safe_idle : ∃ s,
    ((system .late slowLink).restrict Harmless).Run ⟨slowDevice, 0⟩ idleRun s ∧
    ∀ e f, ¬ ((system .late slowLink).restrict Harmless).Faults s e f := by
  obtain ⟨s, hs⟩ : ∃ s,
      ((system .late slowLink).restrict Harmless).Run ⟨slowDevice, 0⟩ idleRun s :=
    ⟨_, System.run_of_exec (show ((system .late slowLink).restrict Harmless).exec
      ⟨slowDevice, 0⟩ (idleRun.map (·.1)) = some (idleRun, _) from rfl)⟩
  exact ⟨s, hs, late_timers_safe slowDevice_fresh hs⟩

/-- The timer of a reception runs out while the emulator is busy, and another
packet is heard before its handler gets to run. -/
def lateRun : List (DeviceEvent × DeviceOut) :=
  [(.startRx (sample 0 10), .quiet), (.tick 11, .quiet), (.timer .rxExpire, .quiet),
   (.startRx (sample 1 50), .quiet), (.timer (.postRxLate 0), .quiet),
   (.startTx (sample 2 100) 0, .enqueued (sample 2 100)), (.timer .csmaExpire, .quiet),
   (.timer (.doCsma 0), .transmit (sample 2 100)), (.tick 51, .quiet),
   (.timer .rxExpire, .quiet)]

/-- The current handler of the second reception finds the device transmitting. -/
theorem late_postRx_crashes : ∃ s, (system .late slowLink).Run ⟨slowDevice, 0⟩ lateRun s ∧
    (system .late slowLink).Faults s (.timer .postRx)
      (.runtimeError "[LinkDevice::PostRx] illegal state: TX") :=
  ⟨_, System.run_of_exec (show (system .late slowLink).exec ⟨slowDevice, 0⟩
    (lateRun.map (·.1)) = some (lateRun, _) from rfl), by decide, rfl⟩

end Timed

end NdnEm
