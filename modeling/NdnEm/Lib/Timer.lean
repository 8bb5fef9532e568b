import Mathlib.Data.Int.Order.Basic
import Mathlib.Data.List.Basic

/-!
# One-shot deadline timers

A timer holds at most one wait that it still owns: an expiry and the arguments
its handler will run with. When the expiry has passed, the event loop may
queue the handler; a queued handler runs at some later point, in no particular
order with anything else that is queued.

Arming the timer again is where implementations and expectations part. The
wait the timer owned is cancelled, so its handler never runs — unless that
handler was queued already, in which case nothing recalls it and it runs
later, with no error, as if it had never been cancelled. `Rearm.late` is that
behaviour. `Rearm.ideal` is the one a protocol designer has in mind, where
arming again always takes the old wait with it.

Handlers that run *with* an error have no state to act on and are left out.
-/

namespace Lib

/-- What becomes of a queued handler when its timer is armed again. -/
inductive Rearm
  | ideal
  | late
deriving DecidableEq

/-- A wait a timer owns. -/
structure Wait (κ : Type) where
  expiry : Int
  args : κ
  /-- The expiry has passed and the handler stands in the event queue. -/
  queued : Bool
deriving DecidableEq

structure Timer (κ : Type) where
  wait : Option (Wait κ)
  /-- Queued handlers of waits that the timer no longer owns. -/
  late : List κ
deriving DecidableEq

namespace Timer

variable {κ : Type}

/-- A timer that was never armed. -/
def unarmed : Timer κ := ⟨none, []⟩

/-- Arm the timer: the new wait replaces the one it owned. -/
def arm (mode : Rearm) (t : Timer κ) (expiry : Int) (args : κ) : Timer κ where
  wait := some ⟨expiry, args, false⟩
  late :=
    match mode, t.wait with
    | .late, some w => if w.queued then t.late ++ [w.args] else t.late
    | _, _ => t.late

/-- Queue the handler of the wait. -/
def expire (t : Timer κ) : Timer κ :=
  { t with wait := t.wait.map fun w => { w with queued := true } }

/-- The wait has come to its expiry at time `now`, and is not queued yet. -/
def Due (t : Timer κ) (now : Int) : Prop :=
  ∃ w ∈ t.wait, w.expiry ≤ now ∧ w.queued = false

/-- The arguments of the queued handler of the wait. -/
def ready (t : Timer κ) : Option κ :=
  t.wait.bind fun w => if w.queued then some w.args else none

/-- Forget the wait, as its handler starts to run. -/
def take (t : Timer κ) : Timer κ := { t with wait := none }

/-- Forget the `k`-th late handler, as it starts to run. -/
def takeLate (t : Timer κ) (k : Nat) : Timer κ := { t with late := t.late.eraseIdx k }

/-- No wait of the timer is overdue at time `now`. -/
def OnTime (t : Timer κ) (now : Int) : Prop :=
  ∀ w ∈ t.wait, now ≤ w.expiry

instance (t : Timer κ) (now : Int) : Decidable (t.Due now) :=
  inferInstanceAs (Decidable (∃ w ∈ t.wait, w.expiry ≤ now ∧ w.queued = false))

instance (t : Timer κ) (now : Int) : Decidable (t.OnTime now) :=
  inferInstanceAs (Decidable (∀ w ∈ t.wait, now ≤ w.expiry))

/-- A wait is outstanding. -/
def Armed (t : Timer κ) : Prop := t.wait.isSome

instance (t : Timer κ) : Decidable t.Armed :=
  inferInstanceAs (Decidable (t.wait.isSome = true))

@[simp] theorem wait_unarmed : (unarmed : Timer κ).wait = none := rfl
@[simp] theorem late_unarmed : (unarmed : Timer κ).late = [] := rfl

@[simp] theorem wait_arm (mode : Rearm) (t : Timer κ) (expiry : Int) (args : κ) :
    (t.arm mode expiry args).wait = some ⟨expiry, args, false⟩ := rfl

/-- Ideal timers make no late handler. -/
@[simp] theorem late_arm_ideal (t : Timer κ) (expiry : Int) (args : κ) :
    (t.arm .ideal expiry args).late = t.late := rfl

/-- A timer that owns no wait has none to cancel. -/
theorem arm_of_unarmed {mode : Rearm} {t : Timer κ} (h : t.wait = none) (expiry : Int) (args : κ) :
    t.arm mode expiry args = t.arm .ideal expiry args := by
  cases mode with
  | ideal => rfl
  | late =>
      unfold arm
      rw [h]

@[simp] theorem late_expire (t : Timer κ) : t.expire.late = t.late := rfl
@[simp] theorem wait_take (t : Timer κ) : t.take.wait = none := rfl
@[simp] theorem late_take (t : Timer κ) : t.take.late = t.late := rfl
@[simp] theorem wait_takeLate (t : Timer κ) (k : Nat) : (t.takeLate k).wait = t.wait := rfl

@[simp] theorem armed_arm (mode : Rearm) (t : Timer κ) (expiry : Int) (args : κ) :
    (t.arm mode expiry args).Armed := rfl

@[simp] theorem armed_expire (t : Timer κ) : t.expire.Armed ↔ t.Armed := by
  simp [Armed, expire]

@[simp] theorem armed_take (t : Timer κ) : ¬ t.take.Armed := by simp [Armed]

@[simp] theorem armed_takeLate (t : Timer κ) (k : Nat) : (t.takeLate k).Armed ↔ t.Armed :=
  Iff.rfl

@[simp] theorem armed_unarmed : ¬ (unarmed : Timer κ).Armed := by simp [Armed]

theorem armed_iff {t : Timer κ} : t.Armed ↔ ∃ w, t.wait = some w :=
  Option.isSome_iff_exists

theorem wait_expire {t : Timer κ} {w : Wait κ} (h : t.wait = some w) :
    t.expire.wait = some { w with queued := true } := by
  unfold expire
  rw [h]
  rfl

/-- Only a wait that is queued is ready to be handled. -/
theorem ready_eq_some {t : Timer κ} {a : κ} :
    t.ready = some a ↔ ∃ w, t.wait = some w ∧ w.queued = true ∧ w.args = a := by
  cases hw : t.wait with
  | none => simp [ready, hw]
  | some w => by_cases hq : w.queued <;> simp [ready, hw, hq]

theorem armed_of_ready {t : Timer κ} {a : κ} (h : t.ready = some a) : t.Armed := by
  obtain ⟨w, hw, _⟩ := ready_eq_some.mp h
  exact armed_iff.mpr ⟨w, hw⟩

/-- How many handlers are still to run: that of the wait, and the late ones. -/
def outstanding (t : Timer κ) : Nat := t.wait.toList.length + t.late.length

/-- Without late handlers it is the wait that is outstanding, or nothing. -/
theorem outstanding_le_one {t : Timer κ} (h : t.late = []) : t.outstanding ≤ 1 := by
  unfold outstanding
  rw [h]
  cases t.wait <;> simp

theorem outstanding_pos {t : Timer κ} (h : t.late = []) : 0 < t.outstanding ↔ t.Armed := by
  unfold outstanding Armed
  rw [h]
  cases t.wait <;> simp

/-- No handler runs late, and none is queued before its time. -/
def Sound (t : Timer κ) (now : Int) : Prop :=
  t.late = [] ∧ ∀ w ∈ t.wait, w.queued = true → w.expiry ≤ now

section Sound

variable {t : Timer κ} {now now' : Int}

theorem sound_unarmed (now : Int) : (unarmed : Timer κ).Sound now := ⟨rfl, by simp⟩

/-- Arming an ideal timer keeps it sound. -/
theorem Sound.arm (h : t.Sound now) (expiry : Int) (args : κ) :
    (t.arm .ideal expiry args).Sound now := by
  refine ⟨h.1, ?_⟩
  rintro w hw
  obtain rfl := Option.some.inj hw
  simp

theorem Sound.take (h : t.Sound now) : t.take.Sound now := ⟨h.1, by simp⟩

theorem Sound.expire (h : t.Sound now) (hdue : t.Due now) : t.expire.Sound now := by
  refine ⟨h.1, ?_⟩
  obtain ⟨w, hw, hle, _⟩ := hdue
  rintro w' hw' _
  rw [Timer.expire, show t.wait = some w from hw] at hw'
  obtain rfl := Option.some.inj hw'
  exact hle

theorem Sound.mono (h : t.Sound now) (hle : now ≤ now') : t.Sound now' :=
  ⟨h.1, fun w hw hq => le_trans (h.2 w hw hq) hle⟩

theorem Sound.expiry_le (h : t.Sound now) {a : κ} (hr : t.ready = some a) :
    ∃ w, t.wait = some w ∧ w.args = a ∧ w.expiry ≤ now := by
  obtain ⟨w, hw, hq, ha⟩ := ready_eq_some.mp hr
  exact ⟨w, hw, ha, h.2 w hw hq⟩

end Sound

end Timer

end Lib
