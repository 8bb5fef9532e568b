import Mathlib.Data.List.Basic
import Mathlib.Data.List.Induction

/-!
# Passes that may fail

A reader goes over a list, element by element, and stops at the first one it
refuses. Whether it refuses an element depends on what it has read before, so
an invariant relates the state to the elements that are done. Then the pass
succeeds exactly if no element is refused after those before it; and a reader
that refuses only what it has seen before is one that wants no repetitions.
-/

namespace Lib

variable {σ α β φ : Type} {step : σ → α → Except φ σ} {I : List α → σ → Prop}
  {Q : List α → α → Prop} {s s' : σ} {done cs : List α}

theorem foldlM_cons_ok {c : α} :
    (c :: cs).foldlM step s = .ok s' ↔ ∃ s₁, step s c = .ok s₁ ∧ cs.foldlM step s₁ = .ok s' := by
  rw [List.foldlM_cons]
  cases step s c with
  | error f => exact iff_of_false (fun h => by cases h) (fun h => by
      obtain ⟨_, h, _⟩ := h
      cases h)
  | ok s₁ =>
      refine ⟨fun h => ⟨s₁, rfl, h⟩, ?_⟩
      intro h
      obtain ⟨s₂, heq, h⟩ := h
      obtain rfl := Except.ok.inj heq
      exact h

/-- What every element leads on to, the rest of a pass leads to. -/
theorem foldlM_keeps_rest (hkeep : ∀ done s c s', I done s → step s c = .ok s' → I (done ++ [c]) s')
    (hI : I done s) (h : cs.foldlM step s = .ok s') : I (done ++ cs) s' := by
  induction cs generalizing s done with
  | nil =>
      obtain rfl := Except.ok.inj h
      rw [List.append_nil]
      exact hI
  | cons c cs ih =>
      obtain ⟨s₁, hs, hrest⟩ := foldlM_cons_ok.mp h
      have hall := ih (hkeep _ _ _ _ hI hs) hrest
      rwa [List.append_assoc] at hall

theorem foldlM_keeps (hkeep : ∀ done s c s', I done s → step s c = .ok s' → I (done ++ [c]) s')
    (hI : I [] s) (h : cs.foldlM step s = .ok s') : I cs s' :=
  foldlM_keeps_rest hkeep hI h

theorem foldlM_rest_ok_iff (hok : ∀ done s c, I done s → ((∃ s', step s c = .ok s') ↔ Q done c))
    (hkeep : ∀ done s c s', I done s → step s c = .ok s' → I (done ++ [c]) s') (hI : I done s) :
    (∃ s', cs.foldlM step s = .ok s') ↔
      ∀ pre c post, cs = pre ++ c :: post → Q (done ++ pre) c := by
  induction cs generalizing s done with
  | nil => exact iff_of_true ⟨s, rfl⟩ (fun pre c post h => by simp at h)
  | cons c cs ih =>
      refine ⟨?_, ?_⟩
      · intro h pre c' post heq
        obtain ⟨s', h⟩ := h
        obtain ⟨s₁, hs, hrest⟩ := foldlM_cons_ok.mp h
        cases pre with
        | nil =>
            obtain ⟨rfl, rfl⟩ := List.cons.inj heq
            rw [List.append_nil]
            exact (hok _ _ _ hI).mp ⟨s₁, hs⟩
        | cons a pre =>
            obtain ⟨rfl, htail⟩ := List.cons.inj heq
            have hall := (ih (hkeep _ _ _ _ hI hs)).mp ⟨s', hrest⟩ pre c' post htail
            rwa [List.append_assoc] at hall
      · intro h
        have hfirst := h [] c cs rfl
        rw [List.append_nil] at hfirst
        obtain ⟨s₁, hs⟩ := (hok _ _ _ hI).mpr hfirst
        have hrest : ∀ pre c' post, cs = pre ++ c' :: post → Q (done ++ [c] ++ pre) c' := by
          intro pre c' post heq
          have hall := h (c :: pre) c' post (by rw [heq]; rfl)
          rwa [List.append_assoc]
        obtain ⟨s', hs'⟩ := (ih (hkeep _ _ _ _ hI hs)).mpr hrest
        exact ⟨s', foldlM_cons_ok.mpr ⟨s₁, hs, hs'⟩⟩

/-- A pass succeeds if every element is accepted after those before it. -/
theorem foldlM_ok_iff (hok : ∀ done s c, I done s → ((∃ s', step s c = .ok s') ↔ Q done c))
    (hkeep : ∀ done s c s', I done s → step s c = .ok s' → I (done ++ [c]) s') (hI : I [] s) :
    (∃ s', cs.foldlM step s = .ok s') ↔ ∀ pre c post, cs = pre ++ c :: post → Q pre c :=
  foldlM_rest_ok_iff hok hkeep hI

/-- Every element, after those before it, is every element. -/
theorem forall_split_iff {P : α → Prop} :
    (∀ pre c post, cs = pre ++ c :: post → P c) ↔ ∀ c ∈ cs, P c := by
  refine ⟨?_, fun h pre c post heq => h c (by simp [heq])⟩
  intro h c hc
  obtain ⟨pre, post, heq⟩ := List.append_of_mem hc
  exact h pre c post heq

/-- None is among those before it if all are different. -/
theorem nodup_map_iff_split {f : α → β} :
    (∀ pre c post, cs = pre ++ c :: post → f c ∉ pre.map f) ↔ (cs.map f).Nodup := by
  induction cs using List.reverseRecOn with
  | nil => simp
  | append_singleton cs a ih =>
      rw [List.map_append, List.map_singleton, (List.perm_append_singleton _ _).nodup_iff,
        List.nodup_cons, ← ih]
      refine ⟨fun h => ⟨h cs a [] rfl, fun pre c post heq => ?_⟩, ?_⟩
      · exact h pre c (post ++ [a]) (by rw [heq]; simp)
      · intro h pre c post heq
        cases post using List.reverseRecOn with
        | nil =>
            obtain ⟨rfl, hlast⟩ := List.append_inj' heq rfl
            obtain rfl : a = c := by simpa using hlast
            exact h.1
        | append_singleton post b =>
            rw [← List.cons_append, ← List.append_assoc] at heq
            obtain ⟨rfl, _⟩ := List.append_inj' heq rfl
            exact h.2 pre c post rfl

end Lib
