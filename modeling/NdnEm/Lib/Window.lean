import Mathlib.Algebra.Ring.Nat
import Mathlib.Data.List.Infix

/-!
# The newest that fits

A queue with a limit on its total weight drops its oldest elements to make room
for a new one. Whatever the weights, what it holds is `LongestFitting`: of all
that was ever added, the longest suffix that is within the limit.
-/

namespace Lib

variable {α : Type} {weight : α → Nat} {limit : Nat} {l s t : List α} {a : α}

/-- The weight of a list. -/
def total (weight : α → Nat) (l : List α) : Nat := (l.map weight).sum

@[simp] theorem total_nil : total weight [] = 0 := rfl

@[simp] theorem total_cons : total weight (a :: l) = weight a + total weight l := by
  rw [total, List.map_cons, List.sum_cons, total]

theorem total_append : total weight (l ++ s) = total weight l + total weight s := by
  rw [total, List.map_append, List.sum_append, total, total]

/-- Dropping elements does not add weight. -/
theorem total_filter_le (p : α → Bool) : total weight (l.filter p) ≤ total weight l := by
  induction l with
  | nil => exact Nat.le_refl _
  | cons a l ih =>
      rw [List.filter_cons, total_cons]
      split
      · rw [total_cons]
        omega
      · omega

/-- The longest suffix that is within the limit. -/
structure LongestFitting (weight : α → Nat) (limit : Nat) (l s : List α) : Prop where
  suffix : s <:+ l
  fits : total weight s ≤ limit
  longest : ∀ t, t <:+ l → total weight t ≤ limit → t <:+ s

namespace LongestFitting

theorem of_fits (h : total weight l ≤ limit) : LongestFitting weight limit l l :=
  ⟨List.suffix_rfl, h, fun _ ht _ => ht⟩

/-- An element in front that does not fit is out. -/
theorem cons (h : LongestFitting weight limit l s) (hlt : limit < total weight (a :: l)) :
    LongestFitting weight limit (a :: l) s := by
  refine ⟨h.suffix.trans (List.suffix_cons a l), h.fits, ?_⟩
  intro t ht hfits
  rcases List.suffix_cons_iff.mp ht with rfl | ht
  · omega
  · exact h.longest t ht hfits

/-- A new element goes to the end of what fits beside it, and what fits beside
it is found among what fitted before. -/
theorem snoc (h : LongestFitting weight limit l s) (ha : weight a ≤ limit)
    (hs : LongestFitting weight (limit - weight a) s t) :
    LongestFitting weight limit (l ++ [a]) (t ++ [a]) := by
  obtain ⟨u, hu⟩ := hs.suffix.trans h.suffix
  refine ⟨⟨u, by rw [← List.append_assoc, hu]⟩, ?_, ?_⟩
  · have hfits := hs.fits
    rw [total_append, total_cons, total_nil]
    omega
  · intro v hv hfits
    rcases List.eq_nil_or_concat' v with rfl | ⟨v, b, rfl⟩
    · exact List.nil_suffix
    · obtain ⟨w, hw⟩ := hv
      rw [← List.append_assoc] at hw
      obtain ⟨hwl, hb⟩ := List.append_inj' hw rfl
      obtain rfl : b = a := List.singleton_inj.mp hb
      rw [total_append, total_cons, total_nil] at hfits
      have hv : v <:+ s := h.longest v ⟨w, hwl⟩ (by omega)
      obtain ⟨x, hx⟩ := hs.longest v hv (by omega)
      exact ⟨x, by rw [← List.append_assoc, hx]⟩

/-- A queue of images holds the images of what fits. -/
theorem of_map {β : Type} {f : α → β} {weight : β → Nat} {t : List β}
    (h : LongestFitting weight limit (l.map f) t) :
    ∃ s, t = s.map f ∧ LongestFitting (fun x => weight (f x)) limit l s := by
  have htotal : ∀ s, total weight (s.map f) = total (fun x => weight (f x)) s := by
    intro s
    rw [total, total, List.map_map]
    rfl
  obtain ⟨u, hu⟩ := h.suffix
  obtain ⟨v, s, rfl, _, rfl⟩ := List.append_eq_map_iff.mp hu
  refine ⟨s, rfl, List.suffix_append v s, ?_, ?_⟩
  · rw [← htotal]
    exact h.fits
  · intro r hr hfits
    rw [← htotal] at hfits
    have hle := (h.longest _ (hr.map f) hfits).length_le
    rw [List.length_map, List.length_map] at hle
    exact List.suffix_of_suffix_length_le hr (List.suffix_append v s) hle

end LongestFitting

end Lib
