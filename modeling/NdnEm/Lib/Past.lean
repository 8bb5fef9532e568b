import NdnEm.Lib.Run

/-!
# What a run has been through

A step of a run is known by the state it is taken in, its event and what it was
observed to do. That such a step happened stays true as the run goes on, and
the last step is the only thing that can make it true: the two facts with which
an invariant speaks of the past. And what holds only until something is done
holds at the end of a run, or something was done in it.
-/

namespace Lib

namespace System

variable {σ ε ω φ : Type} {S : System σ ε ω φ} {A : σ → ε → ω → Prop} {s₀ s : σ}
  {tr : List (ε × ω)} {e : ε} {o : ω}

/-- Some step of the trace was, in the state it was taken in, as `A` says. -/
def Happened (S : System σ ε ω φ) (s₀ : σ) (A : σ → ε → ω → Prop) (tr : List (ε × ω)) : Prop :=
  ∃ tr₁ e o tr₂ s, tr = tr₁ ++ (e, o) :: tr₂ ∧ S.Run s₀ tr₁ s ∧ A s e o

theorem not_happened_nil : ¬ S.Happened s₀ A [] := by
  intro h
  obtain ⟨tr₁, e, o, tr₂, s, heq, _⟩ := h
  simp at heq

theorem Happened.extend (h : S.Happened s₀ A tr) (tr' : List (ε × ω)) :
    S.Happened s₀ A (tr ++ tr') := by
  obtain ⟨tr₁, e, o, tr₂, s, rfl, hrun, hA⟩ := h
  exact ⟨tr₁, e, o, tr₂ ++ tr', s, by simp, hrun, hA⟩

theorem Happened.last (hrun : S.Run s₀ tr s) (hA : A s e o) :
    S.Happened s₀ A (tr ++ [(e, o)]) :=
  ⟨tr, e, o, [], s, rfl, hrun, hA⟩

/-- What happened by the end of a last step happened before it, or is it. -/
theorem happened_snoc (hrun : S.Run s₀ tr s) :
    S.Happened s₀ A (tr ++ [(e, o)]) ↔ S.Happened s₀ A tr ∨ A s e o := by
  refine ⟨?_, fun h => h.elim (fun h => h.extend _) (.last hrun)⟩
  intro h
  obtain ⟨tr₁, e₁, o₁, tr₂, s₁, heq, hrun₁, hA⟩ := h
  cases tr₂ using List.reverseRecOn with
  | nil =>
      obtain ⟨rfl, hx⟩ := List.append_inj' heq rfl
      obtain ⟨rfl, rfl⟩ : e = e₁ ∧ o = o₁ := by simpa using hx
      rw [hrun.deterministic hrun₁]
      exact .inr hA
  | append_singleton tr₂ x =>
      rw [← List.cons_append, ← List.append_assoc] at heq
      obtain ⟨rfl, _⟩ := List.append_inj' heq rfl
      exact .inl ⟨tr₁, e₁, o₁, tr₂, s₁, rfl, hrun₁, hA⟩

/-- An invariant that may speak of the past: what every step leads on from
holds of every run. -/
theorem Run.invariant_past {J : List (ε × ω) → σ → Prop}
    (hstep : ∀ tr s e s' o, S.Run s₀ tr s → J tr s → S.Enabled s e → S.step s e = .ok (s', o) →
      J (tr ++ [(e, o)]) s')
    (hrun : S.Run s₀ tr s) (hstart : J [] s₀) : J tr s := by
  induction hrun with
  | nil => exact hstart
  | snoc hrun he hs ih => exact hstep _ _ _ _ _ hrun ih he hs

/-- What every step leads on from, until a step that is done with it. -/
theorem Run.until {J : List (ε × ω) → σ → Prop} {D : List (ε × ω) → σ → ε → ω → Prop}
    (hstep : ∀ tr s e s' o, S.Run s₀ tr s → J tr s → S.Enabled s e → S.step s e = .ok (s', o) →
      D tr s e o ∨ J (tr ++ [(e, o)]) s')
    (hrun : S.Run s₀ tr s) (hstart : J [] s₀) :
    J tr s ∨ ∃ tr₁ e o tr₂ s₁, tr = tr₁ ++ (e, o) :: tr₂ ∧ S.Run s₀ tr₁ s₁ ∧ D tr₁ s₁ e o := by
  induction hrun with
  | nil => exact .inl hstart
  | @snoc s₁ s₂ tr e o hrun he hs ih =>
      rcases ih with hJ | ⟨tr₁, e₁, o₁, tr₂, s₁, rfl, hrun₁, hdone⟩
      · rcases hstep _ _ _ _ _ hrun hJ he hs with hdone | hJ'
        · exact .inr ⟨tr, e, o, [], s₁, rfl, hrun, hdone⟩
        · exact .inl hJ'
      · exact .inr ⟨tr₁, e₁, o₁, tr₂ ++ [(e, o)], s₁, by simp, hrun₁, hdone⟩

end System

end Lib
