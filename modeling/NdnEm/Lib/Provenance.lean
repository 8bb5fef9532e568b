import Mathlib.Logic.Relation
import NdnEm.Lib.Run

/-!
# Where things come from

A system holds things. A step passes them on, takes in new ones with its event
and shows some to the outside. A step that makes nothing up leaves and shows
only what it had or was given, up to the ways a thing may be passed on, and
then the same is true of a run: everything it holds or shows goes back, by such
ways, to something that came in or was there at the start.

What a thing is, and which ways there are, is left open. A thing may carry the
place it is at, so that a way leads from one place to the next, or may turn
into another thing that is made from it.
-/

namespace Lib

open Relation

namespace System

variable {σ ε ω φ π : Type} {S : System σ ε ω φ} {I : σ → Prop} {Holds : σ → π → Prop}
  {Shows : ω → π → Prop} {Enters : ε → π → Prop} {Way : π → π → Prop} {s s' : σ}
  {tr : List (ε × ω)} {e : ε} {o : ω} {x : π}

/-- Under an invariant, a step makes nothing up. -/
structure Conveys (S : System σ ε ω φ) (I : σ → Prop) (Holds : σ → π → Prop)
    (Shows : ω → π → Prop) (Enters : ε → π → Prop) (Way : π → π → Prop) : Prop where
  keeps : ∀ s e s' o, I s → S.Enabled s e → S.step s e = .ok (s', o) → I s'
  holds : ∀ s e s' o x, I s → S.Enabled s e → S.step s e = .ok (s', o) → Holds s' x →
    ∃ y, ReflTransGen Way y x ∧ (Holds s y ∨ Enters e y)
  shows : ∀ s e s' o x, I s → S.Enabled s e → S.step s e = .ok (s', o) → Shows o x →
    ∃ y, ReflTransGen Way y x ∧ (Holds s y ∨ Enters e y)

/-- `x` goes back to what `s` held, or to what an event of the trace brought. -/
def Origin (Holds : σ → π → Prop) (Enters : ε → π → Prop) (Way : π → π → Prop) (s : σ)
    (tr : List (ε × ω)) (x : π) : Prop :=
  ∃ y, ReflTransGen Way y x ∧ (Holds s y ∨ ∃ z ∈ tr, Enters z.1 y)

theorem Origin.along {y : π} (h : Origin Holds Enters Way s tr y) (hway : ReflTransGen Way y x) :
    Origin Holds Enters Way s tr x := by
  obtain ⟨z, hz, hfrom⟩ := h
  exact ⟨z, hz.trans hway, hfrom⟩

theorem Origin.extend (h : Origin Holds Enters Way s tr x) (tr' : List (ε × ω)) :
    Origin Holds Enters Way s (tr ++ tr') x := by
  obtain ⟨y, hway, hold | ⟨z, hz, hin⟩⟩ := h
  · exact ⟨y, hway, .inl hold⟩
  · exact ⟨y, hway, .inr ⟨z, List.mem_append_left _ hz, hin⟩⟩

/-- What goes back to the state a last step is taken in, or to its event, goes
back to the start. -/
theorem Origin.snoc {s₁ : σ} (hold : ∀ y, Holds s₁ y → Origin Holds Enters Way s tr y)
    (h : ∃ y, ReflTransGen Way y x ∧ (Holds s₁ y ∨ Enters e y)) :
    Origin Holds Enters Way s (tr ++ [(e, o)]) x := by
  obtain ⟨y, hway, hy | hy⟩ := h
  · exact ((hold y hy).extend _).along hway
  · exact ⟨y, hway, .inr ⟨(e, o), List.mem_append_right _ (List.mem_singleton_self _), hy⟩⟩

/-- Everything a run holds has an origin. -/
theorem Conveys.holds_run (h : S.Conveys I Holds Shows Enters Way) (hI : I s)
    (hrun : S.Run s tr s') : ∀ x, Holds s' x → Origin Holds Enters Way s tr x := by
  induction hrun with
  | nil => exact fun x hx => ⟨x, .refl, .inl hx⟩
  | snoc hrun he hs ih =>
      have hI₁ := hrun.invariant h.keeps hI
      exact fun x hx => .snoc ih (h.holds _ _ _ _ x hI₁ he hs hx)

/-- Everything a run shows has an origin before it. -/
theorem Conveys.shows_run (h : S.Conveys I Holds Shows Enters Way) (hI : I s)
    (hrun : S.Run s (tr ++ [(e, o)]) s') (hx : Shows o x) :
    Origin Holds Enters Way s (tr ++ [(e, o)]) x := by
  obtain ⟨s₁, hrun, he, hs⟩ := hrun.snoc_inv
  exact .snoc (h.holds_run hI hrun) (h.shows _ _ _ _ x (hrun.invariant h.keeps hI) he hs hx)

end System

end Lib
