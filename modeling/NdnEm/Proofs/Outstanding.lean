import NdnEm.Proofs.IdealTimers
import NdnEm.Proofs.LateTimers

/-!
# Nothing is stranded

With ideal timers there is one csma wait while there is something to send, and
one receive wait while the device hears something. That they are there at all
is `Agree`; that there is only one of each is what arming does.

An outstanding wait is worth having because its handler can be made to run
with no help from outside: time passes, the wait expires, and the handler
finds what it needs. So a packet in the queue is served, and a reception is
cleared, by the device on its own.
-/

namespace NdnEm

open Lib LinkDevice

namespace Timed

variable {l : Link} {s s' : Timed} {tr : List (DeviceEvent × DeviceOut)}

/-- Nothing but the passing of time, and waits that expire. -/
def Idling (x : DeviceEvent × DeviceOut) : Prop :=
  (∃ n, x.1 = .tick n) ∨ x.1 = .timer .csmaExpire ∨ x.1 = .timer .rxExpire

/-- State, queue and outstanding waits correspond, and each wait comes to its
handler. -/
structure Accounted (l : Link) (s : Timed) : Prop where
  csma : 0 < s.dev.csmaTimer.outstanding ↔ s.dev.txQueue ≠ []
  rx : 0 < s.dev.rxTimer.outstanding ↔ s.dev.Hearing
  single : s.dev.csmaTimer.outstanding ≤ 1 ∧ s.dev.rxTimer.outstanding ≤ 1
  sends : s.dev.state = .tx → s.dev.txQueue ≠ []
  served : s.dev.txQueue ≠ [] → ∀ raw, ∃ tr o s₁, (∀ x ∈ tr, Idling x) ∧
    (system .ideal l).Run s (tr ++ [(.timer (.doCsma raw), o)]) s₁
  cleared : s.dev.Hearing → ∃ tr o s₁, (∀ x ∈ tr, Idling x) ∧
    (system .ideal l).Run s (tr ++ [(.timer .postRx, o)]) s₁ ∧ s₁.dev.state = .idle

/-- A handler that can run does run. -/
theorem timer_runs {t : TimerEvent} (hs : Ideal s) (hen : s.Enabled (.timer t)) :
    ∃ o s₁, s.step .ideal l (.timer t) = .ok (s₁, o) := by
  simp only [step]
  cases hf : s.dev.fire .ideal l s.now t with
  | error f => exact absurd hf (fire_no_fault hs.agree hen (hs.harmless hen) f)
  | ok r => exact ⟨_, _, rfl⟩

/-- A wait that is not queued yet comes to its handler: time passes until it
is due, it expires, and the handler runs. -/
theorem wait_served (wait : TimerEvent) {run : TimerEvent} {n : Nat} {d : LinkDevice} (hs : Ideal s)
    (hidle : wait = .csmaExpire ∨ wait = .rxExpire) (hdue : s.dev.CanFire (s.now + n) wait)
    (hwait : s.dev.fire .ideal l (s.now + n) wait = .ok (d, .quiet))
    (hrun : d.CanFire (s.now + n) run) :
    ∃ tr o s₁, (∀ x ∈ tr, Idling x) ∧
      (system .ideal l).Run s (tr ++ [(.timer run, o)]) s₁ := by
  let s₁ : Timed := ⟨s.dev, s.now + n⟩
  let s₂ : Timed := ⟨d, s.now + n⟩
  have hen₀ : s.Enabled (.tick n) := trivial
  have htick : s.step .ideal l (.tick n) = .ok (s₁, .quiet) := rfl
  have hen₁ : s₁.Enabled (.timer wait) := hdue
  have hstep : s₁.step .ideal l (.timer wait) = .ok (s₂, .quiet) := by
    simp only [step]
    rw [hwait]
    rfl
  have hs₂ : Ideal s₂ := ideal_step (ideal_step hs hen₀ htick) hen₁ hstep
  have hen₂ : s₂.Enabled (.timer run) := hrun
  obtain ⟨o, s₃, hlast⟩ := @timer_runs l _ _ hs₂ hen₂
  refine ⟨[(.tick n, .quiet), (.timer wait, .quiet)], o, s₃, ?_,
    .cons hen₀ htick (.cons hen₁ hstep (.single hen₂ hlast))⟩
  intro x hx
  rcases List.mem_cons.mp hx with rfl | hx
  · exact .inl ⟨n, rfl⟩
  · rw [List.mem_singleton.mp hx]
    rcases hidle with rfl | rfl
    · exact .inr (.inl rfl)
    · exact .inr (.inr rfl)

theorem ready_of_queued {κ : Type} {t : Timer κ} {w : Wait κ} (hw : t.wait = some w)
    (hq : w.queued = true) : t.ready.isSome := by
  rw [Timer.ready_eq_some.mpr ⟨w, hw, hq, rfl⟩]
  rfl

theorem ready_expire {κ : Type} {t : Timer κ} {w : Wait κ} (hw : t.wait = some w) :
    t.expire.ready.isSome :=
  ready_of_queued (Timer.wait_expire hw) rfl

/-- A wait is due once the clock has come to its expiry. -/
theorem due_at {κ : Type} {t : Timer κ} {w : Wait κ} {now : Int} (hw : t.wait = some w)
    (hq : ¬ w.queued = true) : t.Due (now + (w.expiry - now).toNat) := by
  refine ⟨w, hw, ?_, Bool.not_eq_true _ ▸ hq⟩
  omega

theorem csma_served (hs : Ideal s) (harm : s.dev.csmaTimer.Armed) (raw : Nat) :
    ∃ tr o s₁, (∀ x ∈ tr, Idling x) ∧
      (system .ideal l).Run s (tr ++ [(.timer (.doCsma raw), o)]) s₁ := by
  obtain ⟨w, hw⟩ := Timer.armed_iff.mp harm
  by_cases hq : w.queued = true
  · have hen : s.Enabled (.timer (.doCsma raw)) := ready_of_queued hw hq
    obtain ⟨o, s₁, hstep⟩ := @timer_runs l _ _ hs hen
    exact ⟨[], o, s₁, by simp, .single hen hstep⟩
  · exact wait_served .csmaExpire hs (.inl rfl) (due_at hw hq) rfl (ready_expire hw)

theorem rx_served (hs : Ideal s) (harm : s.dev.rxTimer.Armed) :
    ∃ tr o s₁, (∀ x ∈ tr, Idling x) ∧
      (system .ideal l).Run s (tr ++ [(.timer .postRx, o)]) s₁ := by
  obtain ⟨w, hw⟩ := Timer.armed_iff.mp harm
  by_cases hq : w.queued = true
  · have hen : s.Enabled (.timer .postRx) := ready_of_queued hw hq
    obtain ⟨o, s₁, hstep⟩ := @timer_runs l _ _ hs hen
    exact ⟨[], o, s₁, by simp, .single hen hstep⟩
  · exact wait_served .rxExpire hs (.inr rfl) (due_at hw hq) rfl (ready_expire hw)

/-- A reception that was handled is over. -/
theorem cleared_of_postRx {o : DeviceOut}
    (h : (system .ideal l).Run s (tr ++ [(.timer .postRx, o)]) s') : s'.dev.state = .idle := by
  obtain ⟨s₁, _, _, hstep⟩ := h.snoc_inv
  rw [(postRx_cases (step_timer hstep).1).1]

theorem accounted_of_ideal (hs : Ideal s) : Accounted l s where
  csma := by
    rw [Timer.outstanding_pos hs.csma.1]
    exact ⟨hs.agree.csma_cause, hs.agree.serves⟩
  rx := by
    rw [Timer.outstanding_pos hs.rx.1]
    exact ⟨hs.agree.rx_cause, hs.agree.hears⟩
  single := ⟨Timer.outstanding_le_one hs.csma.1, Timer.outstanding_le_one hs.rx.1⟩
  sends := hs.agree.sends
  served hq raw := csma_served hs (hs.agree.serves hq) raw
  cleared hhear := by
    obtain ⟨tr, o, s₁, hidle, hrun⟩ := @rx_served l _ hs (hs.agree.hears hhear)
    exact ⟨tr, o, s₁, hidle, hrun, cleared_of_postRx hrun⟩

/-- **Nothing is stranded.** With ideal timers, in every reachable state of a
device, a csma wait is outstanding exactly when the queue is not empty, a
receive wait exactly when the device hears something, and at most one of each;
and the waits come to the handlers that serve the queue and end the reception. -/
theorem nothing_stranded (hnew : s.dev.Fresh) (h : (system .ideal l).Run s tr s') :
    Accounted l s' :=
  accounted_of_ideal
    (h.invariant (fun _ _ _ _ hs he hstep => ideal_step hs he hstep) (ideal_of_fresh hnew))

/-- A packet is put on the air, and another is accepted before it is through. -/
def busyRun : List (DeviceEvent × DeviceOut) :=
  [(.startTx (sample 0 100) 0, .enqueued (sample 0 100)), (.timer .csmaExpire, .quiet),
   (.timer (.doCsma 0), .transmit (sample 0 100)),
   (.startTx (sample 1 60) 3, .enqueued (sample 1 60))]

theorem nothing_stranded_busy : ∃ s,
    (system .ideal slowLink).Run ⟨slowDevice, 0⟩ busyRun s ∧ Accounted slowLink s := by
  obtain ⟨s, hs⟩ : ∃ s, (system .ideal slowLink).Run ⟨slowDevice, 0⟩ busyRun s :=
    ⟨_, System.run_of_exec (show (system .ideal slowLink).exec ⟨slowDevice, 0⟩
      (busyRun.map (·.1)) = some (busyRun, _) from rfl)⟩
  exact ⟨s, hs, nothing_stranded slowDevice_fresh hs⟩

end Timed

end NdnEm
