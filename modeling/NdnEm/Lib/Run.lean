import Mathlib.Data.List.Basic
import Mathlib.Data.List.Induction

/-!
# Runs of an event-driven system

A system waits for events. In each state some events can happen; one that
happens either leads to a new state, with an observation of what it did, or
ends the run with a fault. Everything random or external — a clock reading, a
backoff draw, the order in which handlers run — is part of the event, so the
step is a function and a run is its list of events.

Runs grow at the end, because invariants are proved there. `Run.split` and
`Run.append` are what a proof uses to talk about the middle of one, and
`Run.invariant` is the only induction most proofs need.

A property that holds only while the environment keeps to a condition is a
property of the *restricted* system: `restrict` narrows the enabled events and
changes nothing else.
-/

namespace Lib

/-- What a mapped computation answers is what the computation answered, mapped. -/
theorem ok_of_map {α β φ : Type} {x : Except φ α} {g : α → β} {b : β} (h : x.map g = .ok b) :
    ∃ a, x = .ok a ∧ g a = b := by
  cases x with
  | error f => cases h
  | ok a => exact ⟨a, rfl, Except.ok.inj h⟩

theorem exists_error_map {α β φ : Type} {x : Except φ α} {g : α → β} :
    (∃ f, x.map g = .error f) ↔ ∃ f, x = .error f := by
  cases x <;> simp [Except.map]

theorem not_ok_iff {α φ : Type} {x : Except φ α} : (∃ f, x = .error f) ↔ ¬ ∃ a, x = .ok a := by
  cases x <;> simp

/-- Which events can happen in a state, and what each of them does. -/
structure System (σ ε ω φ : Type) where
  Enabled : σ → ε → Prop
  step : σ → ε → Except φ (σ × ω)

namespace System

variable {σ ε ω φ : Type}

/-- The runs of a system: from a state, through a trace of events and what
each was observed to do, to a state. A fault has no successor, so a run that
reaches one ends there. -/
inductive Run (S : System σ ε ω φ) : σ → List (ε × ω) → σ → Prop
  | nil (s : σ) : Run S s [] s
  | snoc {s s₁ s₂ : σ} {tr : List (ε × ω)} {e : ε} {o : ω} :
      Run S s tr s₁ → S.Enabled s₁ e → S.step s₁ e = .ok (s₂, o) →
      Run S s (tr ++ [(e, o)]) s₂

/-- An enabled event that ends the run with fault `f`. -/
def Faults (S : System σ ε ω φ) (s : σ) (e : ε) (f : φ) : Prop :=
  S.Enabled s e ∧ S.step s e = .error f

/-- The same system, with the events allowed only under `C`. -/
def restrict (S : System σ ε ω φ) (C : σ → ε → Prop) : System σ ε ω φ where
  Enabled s e := S.Enabled s e ∧ C s e
  step := S.step

variable {S : System σ ε ω φ} {s s₁ s₂ : σ} {tr tr₁ tr₂ : List (ε × ω)} {e : ε} {o : ω}

namespace Run

theorem single (he : S.Enabled s e) (hs : S.step s e = .ok (s₁, o)) :
    S.Run s [(e, o)] s₁ :=
  snoc (nil s) he hs

theorem append (h₁ : S.Run s tr₁ s₁) (h₂ : S.Run s₁ tr₂ s₂) :
    S.Run s (tr₁ ++ tr₂) s₂ := by
  induction h₂ with
  | nil => rwa [List.append_nil]
  | snoc _ he hs ih => rw [← List.append_assoc]; exact snoc ih he hs

theorem cons (he : S.Enabled s e) (hs : S.step s e = .ok (s₁, o))
    (h : S.Run s₁ tr s₂) : S.Run s ((e, o) :: tr) s₂ :=
  append (single he hs) h

theorem eq_of_nil (h : S.Run s [] s₁) : s₁ = s := by
  generalize htr : ([] : List (ε × ω)) = tr at h
  cases h with
  | nil => rfl
  | snoc => simp at htr

/-- The last step of a run. -/
theorem snoc_inv (h : S.Run s (tr ++ [(e, o)]) s₂) :
    ∃ s₁, S.Run s tr s₁ ∧ S.Enabled s₁ e ∧ S.step s₁ e = .ok (s₂, o) := by
  generalize htr : tr ++ [(e, o)] = tr' at h
  cases h with
  | nil => simp at htr
  | snoc h he hs =>
      obtain ⟨rfl, heo⟩ := List.append_inj' htr rfl
      obtain ⟨rfl, rfl⟩ : e = _ ∧ o = _ := by simpa using heo
      exact ⟨_, h, he, hs⟩

/-- A run passes through the state between any two parts of its trace. -/
theorem split (h : S.Run s (tr₁ ++ tr₂) s₂) :
    ∃ s₁, S.Run s tr₁ s₁ ∧ S.Run s₁ tr₂ s₂ := by
  induction tr₂ using List.reverseRecOn generalizing s₂ with
  | nil => exact ⟨s₂, by rwa [List.append_nil] at h, nil s₂⟩
  | append_singleton tr₂ eo ih =>
      rw [← List.append_assoc] at h
      obtain ⟨s', h', he, hs⟩ := snoc_inv h
      obtain ⟨s₁, h₁, h₂⟩ := ih h'
      exact ⟨s₁, h₁, snoc h₂ he hs⟩

/-- The first step of a run. -/
theorem cons_inv (h : S.Run s ((e, o) :: tr) s₂) :
    ∃ s₁, S.Enabled s e ∧ S.step s e = .ok (s₁, o) ∧ S.Run s₁ tr s₂ := by
  have h' : S.Run s ([(e, o)] ++ tr) s₂ := h
  obtain ⟨s₁, h₁, h₂⟩ := split h'
  have h₁' : S.Run s ([] ++ [(e, o)]) s₁ := h₁
  obtain ⟨s₀, h₀, he, hs⟩ := snoc_inv h₁'
  obtain rfl := eq_of_nil h₀
  exact ⟨s₁, he, hs, h₂⟩

theorem single_inv (h : S.Run s [(e, o)] s₁) :
    S.Enabled s e ∧ S.step s e = .ok (s₁, o) := by
  obtain ⟨s', he, hs, h'⟩ := cons_inv h
  obtain rfl := eq_of_nil h'
  exact ⟨he, hs⟩

/-- What one step preserves, a run preserves. -/
theorem invariant {I : σ → Prop}
    (hstep : ∀ s e s' o, I s → S.Enabled s e → S.step s e = .ok (s', o) → I s')
    (h : S.Run s tr s₁) (hI : I s) : I s₁ := by
  induction h with
  | nil => exact hI
  | snoc _ he hs ih => exact hstep _ _ _ _ ih he hs

/-- What every step of a run observes, when an invariant holds of the state it
is taken in. -/
theorem observes {I : σ → Prop} {P : ε → ω → Prop}
    (hstep : ∀ s e s' o, I s → S.Enabled s e → S.step s e = .ok (s', o) → I s' ∧ P e o)
    (h : S.Run s tr s₁) (hI : I s) : ∀ x ∈ tr, P x.1 x.2 := by
  induction h with
  | nil => simp
  | snoc h he hs ih =>
      have hI₁ := invariant (fun s e s' o hs he h => (hstep s e s' o hs he h).1) h hI
      intro x hx
      rcases List.mem_append.mp hx with hx | hx
      · exact ih x hx
      · obtain rfl := List.mem_singleton.mp hx
        exact (hstep _ _ _ _ hI₁ he hs).2

/-- Events decide a run: two runs over one trace end in the same state. -/
theorem deterministic (h₁ : S.Run s tr s₁) (h₂ : S.Run s tr s₂) : s₁ = s₂ := by
  induction tr using List.reverseRecOn generalizing s₁ s₂ with
  | nil => rw [eq_of_nil h₁, eq_of_nil h₂]
  | append_singleton tr x ih =>
      obtain ⟨a, ha, _, hstep₁⟩ := snoc_inv h₁
      obtain ⟨b, hb, _, hstep₂⟩ := snoc_inv h₂
      rw [ih ha hb] at hstep₁
      exact (Prod.mk.inj (Except.ok.inj (hstep₁.symm.trans hstep₂))).1

/-- A run that keeps to a condition is a run. -/
theorem of_restrict {C : σ → ε → Prop} (h : (S.restrict C).Run s tr s₁) : S.Run s tr s₁ := by
  induction h with
  | nil => exact nil _
  | snoc _ he hs ih => exact snoc ih he.1 hs

/-- A condition may be weakened. -/
theorem mono_restrict {C D : σ → ε → Prop} (hCD : ∀ s e, C s e → D s e)
    (h : (S.restrict C).Run s tr s₁) : (S.restrict D).Run s tr s₁ := by
  induction h with
  | nil => exact nil _
  | snoc _ he hs ih => exact snoc ih ⟨he.1, hCD _ _ he.2⟩ hs

end Run

/-! ## Executing a list of events -/

section Exec

variable [∀ s e, Decidable (S.Enabled s e)]

/-- Run a list of events, answering `none` as soon as one of them cannot
happen or ends in a fault. -/
def exec (S : System σ ε ω φ) [∀ s e, Decidable (S.Enabled s e)] :
    σ → List ε → Option (List (ε × ω) × σ)
  | s, [] => some ([], s)
  | s, e :: es =>
      if S.Enabled s e then
        match S.step s e with
        | .ok (s₁, o) => (S.exec s₁ es).map fun r => ((e, o) :: r.1, r.2)
        | .error _ => none
      else none

/-- What `exec` computes is a run. -/
theorem run_of_exec {es : List ε} (h : S.exec s es = some (tr, s₂)) :
    S.Run s tr s₂ := by
  induction es generalizing s tr with
  | nil =>
      obtain ⟨rfl, rfl⟩ : tr = [] ∧ s₂ = s := by simpa [exec, eq_comm] using h
      exact .nil _
  | cons e es ih =>
      rw [exec] at h
      split at h
      · next he =>
          split at h
          · next s₁ o hs =>
              obtain ⟨⟨tr', s'⟩, hr, heq⟩ := Option.map_eq_some_iff.mp h
              obtain ⟨rfl, rfl⟩ : (e, o) :: tr' = tr ∧ s' = s₂ := by simpa using heq
              exact .cons he hs (ih hr)
          · simp at h
      · simp at h

end Exec

end System

end Lib
