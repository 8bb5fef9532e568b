import Mathlib.Data.List.Basic
import Mathlib.Data.List.Infix

/-!
# Words on a stream

In a prefix code, what a stream starts with decides which word it starts with,
if any. So the words on a stream are cut in one way only, however its symbols
arrive: `complete n ws` are the words of `ws` that end within the first `n`
symbols, and the rest of these symbols belong to the next word.
-/

namespace Lib

variable {α : Type}

structure PrefixCode (α : Type) where
  Word : List α → Prop
  /-- The word that a stream starts with. -/
  first : List α → Option (List α)
  first_eq_some : ∀ {xs w}, first xs = some w ↔ Word w ∧ w <+: xs
  ne_nil : ∀ {w}, Word w → w ≠ []

namespace PrefixCode

variable {c : PrefixCode α} {w v xs : List α}

/-- No word is the start of another. -/
theorem eq_of_starts (hv : c.Word v) (hw : c.Word w) (h : v <+: w) : v = w := by
  have hfirst : c.first w = some w := c.first_eq_some.mpr ⟨hw, List.prefix_rfl⟩
  have hfirst' : c.first w = some v := c.first_eq_some.mpr ⟨hv, h⟩
  exact Option.some.inj (hfirst'.symm.trans hfirst)

/-- There is no word in the beginning of a word. -/
theorem first_eq_none (hw : c.Word w) (h : xs <+: w) (hlt : xs.length < w.length) :
    c.first xs = none := by
  cases hfirst : c.first xs with
  | none => rfl
  | some v =>
      obtain ⟨hv, hpre⟩ := c.first_eq_some.mp hfirst
      have hle := hpre.length_le
      rw [eq_of_starts hv hw (hpre.trans h)] at hle
      omega

end PrefixCode

/-! ## The words that are complete -/

/-- The words that end within the first `n` symbols. -/
def complete : Nat → List (List α) → List (List α)
  | _, [] => []
  | n, w :: ws => if w.length ≤ n then w :: complete (n - w.length) ws else []

variable {n m : Nat} {ws : List (List α)}

@[simp] theorem complete_nil : complete n ([] : List (List α)) = [] := rfl

theorem complete_cons_of_le (h : w.length ≤ n) :
    complete n (w :: ws) = w :: complete (n - w.length) ws := by
  rw [complete, if_pos h]

theorem complete_cons_of_lt (h : n < w.length) : complete n (w :: ws) = [] := by
  rw [complete, if_neg (by omega)]

theorem complete_isPrefix (n : Nat) (ws : List (List α)) : complete n ws <+: ws := by
  induction ws generalizing n with
  | nil => simp
  | cons w ws ih =>
      by_cases h : w.length ≤ n
      · rw [complete_cons_of_le h]
        exact (List.prefix_cons_inj w).mpr (ih (n - w.length))
      · rw [complete_cons_of_lt (by omega)]
        exact List.nil_prefix

theorem complete_length_le : (complete n ws).flatten.length ≤ n := by
  induction ws generalizing n with
  | nil => simp
  | cons w ws ih =>
      by_cases h : w.length ≤ n
      · have hrest := @ih (n - w.length)
        rw [complete_cons_of_le h, List.flatten_cons, List.length_append]
        omega
      · rw [complete_cons_of_lt (by omega)]
        exact Nat.zero_le n

theorem complete_length_le_flatten : (complete n ws).flatten.length ≤ ws.flatten.length := by
  obtain ⟨rest, hrest⟩ := complete_isPrefix n ws
  rw [← hrest, List.flatten_append, List.length_append, hrest]
  exact Nat.le_add_right ..

/-- Where each word would fit, the first one is complete. -/
theorem eq_nil_of_complete (hws : ∀ w ∈ ws, w ≠ [] ∧ w.length ≤ n)
    (h : (complete n ws).flatten.length = 0) : ws = [] := by
  cases ws with
  | nil => rfl
  | cons w ws =>
      obtain ⟨hne, hle⟩ := hws w List.mem_cons_self
      have hpos := List.length_pos_iff.mpr hne
      rw [complete_cons_of_le hle, List.flatten_cons, List.length_append] at h
      omega

/-- More symbols complete more words, after those that are complete. -/
theorem complete_of_le (h : n ≤ m) :
    complete m ws = complete n ws ++
      complete (m - (complete n ws).flatten.length) (ws.drop (complete n ws).length) := by
  induction ws generalizing n m with
  | nil => simp
  | cons w ws ih =>
      by_cases hw : w.length ≤ n
      · have hrest := ih (show n - w.length ≤ m - w.length by omega)
        rw [complete_cons_of_le hw, complete_cons_of_le (by omega), hrest]
        simp [Nat.sub_add_eq]
      · rw [complete_cons_of_lt (show n < w.length by omega)]
        simp

/-- Two parts, neither longer than it should be, are what they should be as soon
as the whole is. -/
theorem append_eq_append_iff_of_le {a b c d : List α} (hab : a.length ≤ b.length)
    (hcd : c.length ≤ d.length) : a ++ c = b ++ d ↔ a = b ∧ c = d := by
  constructor
  · intro h
    have hlen := congrArg List.length h
    rw [List.length_append, List.length_append] at hlen
    exact List.append_inj h (by omega)
  · intro h
    rw [h.1, h.2]

end Lib
