import Mathlib.Data.List.Basic

/-!
# Looking back along a trace

`Since tr P Q` is the past-time operator: some point of the trace satisfied
`P`, and every point after it satisfied `Q`. Stated with a split of the trace
it says what it means; `since_snoc` is the law that an induction along a
growing trace uses instead.
-/

namespace Lib

variable {α : Type}

/-- Two points of one trace: one is before the other, or they are the same. -/
theorem points_cases {a b c d : List α} {x y : α} (h : a ++ x :: b = c ++ y :: d) :
    (∃ m, c = a ++ x :: m ∧ b = m ++ y :: d) ∨ (a = c ∧ x = y ∧ b = d) ∨
      ∃ m, a = c ++ y :: m ∧ d = m ++ x :: b := by
  rcases List.append_eq_append_iff.mp h with ⟨m, hc, hm⟩ | ⟨m, ha, hm⟩
  · cases m with
    | nil =>
        obtain ⟨rfl, rfl⟩ := List.cons.inj hm
        exact .inr (.inl ⟨by rw [hc, List.append_nil], rfl, rfl⟩)
    | cons z m =>
        obtain ⟨rfl, hb⟩ := List.cons.inj hm
        exact .inl ⟨m, hc, hb⟩
  · cases m with
    | nil =>
        obtain ⟨rfl, rfl⟩ := List.cons.inj hm
        exact .inr (.inl ⟨by rw [ha, List.append_nil], rfl, rfl⟩)
    | cons z m =>
        obtain ⟨rfl, hd⟩ := List.cons.inj hm
        exact .inr (.inr ⟨m, ha, hd⟩)

/-- A point of a trace is its last one, or before it. -/
theorem last_point {a c d : List α} {x y : α} (h : a ++ [x] = c ++ y :: d) :
    (a = c ∧ x = y ∧ d = []) ∨ ∃ m, a = c ++ y :: m ∧ d = m ++ [x] := by
  rcases points_cases h with ⟨m, _, hm⟩ | ⟨rfl, rfl, hd⟩ | hbefore
  · simp at hm
  · exact .inl ⟨rfl, rfl, hd.symm⟩
  · exact .inr hbefore

/-- `Q` has held ever since some point where `P` held. -/
def Since (tr : List α) (P Q : α → Prop) : Prop :=
  ∃ before x after, tr = before ++ x :: after ∧ P x ∧ ∀ y ∈ after, Q y

@[simp] theorem since_nil (P Q : α → Prop) : ¬ Since [] P Q := by
  rintro ⟨before, x, after, h, _⟩
  simp at h

/-- One more point either is the one looked for, or keeps the condition. -/
theorem since_snoc {tr : List α} {x : α} {P Q : α → Prop} :
    Since (tr ++ [x]) P Q ↔ P x ∨ (Since tr P Q ∧ Q x) := by
  constructor
  · rintro ⟨before, y, after, h, hP, hQ⟩
    rcases last_point h with ⟨rfl, rfl, rfl⟩ | ⟨m, rfl, rfl⟩
    · exact .inl hP
    · exact .inr ⟨⟨before, y, m, rfl, hP, fun w hw => hQ w (by simp [hw])⟩, hQ x (by simp)⟩
  · rintro (hP | ⟨⟨before, y, after, rfl, hP, hQ⟩, hx⟩)
    · exact ⟨tr, x, [], rfl, hP, by simp⟩
    · refine ⟨before, y, after ++ [x], by simp, hP, fun w hw => ?_⟩
      rcases List.mem_append.mp hw with hw | hw
      · exact hQ w hw
      · rw [List.mem_singleton.mp hw]; exact hx

end Lib
