import Mathlib.Algebra.BigOperators.Group.Finset.Basic
import Mathlib.Data.Finset.Union
import Mathlib.Data.Finset.Option
import Mathlib.Data.Finset.Sort

/-!
# Finite maps, read through their lookup

A table keyed by names, nonces or addresses is used in three ways: one key is
looked up, one key is written, and every entry is visited once. `FinMap` is
the lookup function itself together with the finite set of keys it answers
for, so the first two are function application and update, and the third is a
walk over a `Finset`.

The support is a field and not a side condition: a map that answers outside
its keys, or lists a key it does not hold, cannot be built. Two maps with the
same lookups are therefore equal, which is what lets a theorem say that a
table is *unchanged* rather than that it agrees wherever anybody looks.
-/

namespace Lib

/-- A finite map: a lookup, and exactly the keys it answers for. -/
structure FinMap (κ ν : Type) where
  find : κ → Option ν
  keys : Finset κ
  mem_keys : ∀ k, k ∈ keys ↔ (find k).isSome

namespace FinMap

variable {κ ν μ α : Type}

/-- Lookups decide the map. -/
@[ext] theorem ext {a b : FinMap κ ν} (h : ∀ k, a.find k = b.find k) : a = b := by
  obtain ⟨fa, ka, ha⟩ := a
  obtain ⟨fb, kb, hb⟩ := b
  obtain rfl : fa = fb := funext h
  obtain rfl : ka = kb := Finset.ext fun k => (ha k).trans (hb k).symm
  rfl

theorem mem_keys_of_find {m : FinMap κ ν} {k : κ} {v : ν} (h : m.find k = some v) :
    k ∈ m.keys := by
  rw [m.mem_keys, h]; rfl

theorem notMem_keys {m : FinMap κ ν} {k : κ} : k ∉ m.keys ↔ m.find k = none := by
  rw [m.mem_keys, Bool.not_eq_true, Option.isSome_eq_false_iff, Option.isNone_iff_eq_none]

/-- The map with no entry. -/
def empty : FinMap κ ν where
  find _ := none
  keys := ∅
  mem_keys := by simp

instance : EmptyCollection (FinMap κ ν) := ⟨empty⟩

@[simp] theorem find_empty (k : κ) : (∅ : FinMap κ ν).find k = none := rfl

@[simp] theorem keys_empty : (∅ : FinMap κ ν).keys = ∅ := rfl

section Update

variable [DecidableEq κ]

/-- Write one key, whether or not it was there. -/
def insert (m : FinMap κ ν) (k : κ) (v : ν) : FinMap κ ν where
  find k' := if k' = k then some v else m.find k'
  keys := Insert.insert k m.keys
  mem_keys k' := by
    by_cases h : k' = k
    · simp [h]
    · simp [h, m.mem_keys]

@[simp] theorem find_insert (m : FinMap κ ν) (k : κ) (v : ν) (k' : κ) :
    (m.insert k v).find k' = if k' = k then some v else m.find k' := rfl

@[simp] theorem keys_insert (m : FinMap κ ν) (k : κ) (v : ν) :
    (m.insert k v).keys = Insert.insert k m.keys := rfl

theorem find_insert_self (m : FinMap κ ν) (k : κ) (v : ν) :
    (m.insert k v).find k = some v := by simp

theorem find_insert_ne {m : FinMap κ ν} {k k' : κ} {v : ν} (h : k' ≠ k) :
    (m.insert k v).find k' = m.find k' := by simp [h]

/-- What is found after a write was written, or was there. -/
theorem find_insert_cases {m : FinMap κ ν} {k k' : κ} {v w : ν}
    (h : (m.insert k v).find k' = some w) : (k' = k ∧ w = v) ∨ (k' ≠ k ∧ m.find k' = some w) := by
  rw [find_insert] at h
  split at h
  · next hk => exact .inl ⟨hk, (Option.some.inj h).symm⟩
  · next hk => exact .inr ⟨hk, h⟩

theorem isSome_insert {m : FinMap κ ν} {k k' : κ} {v : ν} :
    ((m.insert k v).find k').isSome ↔ (m.find k').isSome ∨ k' = k := by
  rw [find_insert]
  split
  · next hk => exact iff_of_true rfl (.inr hk)
  · next hk => exact ⟨.inl, fun h => h.resolve_right hk⟩

/-- Of two writes to one key the second stays. -/
theorem insert_insert (m : FinMap κ ν) (k : κ) (v w : ν) :
    (m.insert k v).insert k w = m.insert k w := by
  refine ext fun k' => ?_
  by_cases hk : k' = k
  · rw [hk, find_insert_self, find_insert_self]
  · rw [find_insert_ne hk, find_insert_ne hk, find_insert_ne hk]

/-- Writing what is there changes nothing. -/
theorem insert_of_find {m : FinMap κ ν} {k : κ} {v : ν} (h : m.find k = some v) :
    m.insert k v = m := by
  refine ext fun k' => ?_
  by_cases hk : k' = k
  · rw [hk, find_insert_self, h]
  · rw [find_insert_ne hk]

/-- What holds of every entry still does when one is written. -/
theorem forall_insert {m : FinMap κ ν} {k : κ} {v : ν} {P : κ → ν → Prop}
    (h : ∀ k' w, m.find k' = some w → P k' w) (hv : P k v) :
    ∀ k' w, (m.insert k v).find k' = some w → P k' w := by
  intro k' w hw
  rcases find_insert_cases hw with ⟨rfl, rfl⟩ | ⟨_, hold⟩
  · exact hv
  · exact h k' w hold

/-- Drop one key. -/
def erase (m : FinMap κ ν) (k : κ) : FinMap κ ν where
  find k' := if k' = k then none else m.find k'
  keys := m.keys.erase k
  mem_keys k' := by
    by_cases h : k' = k
    · simp [h]
    · simp [h, m.mem_keys]

@[simp] theorem find_erase (m : FinMap κ ν) (k k' : κ) :
    (m.erase k).find k' = if k' = k then none else m.find k' := rfl

end Update

/-- Visit every entry once, keeping what `f` answers for it: the loop that
erases some entries and rewrites the others. -/
def filterMap (f : κ → ν → Option μ) (m : FinMap κ ν) : FinMap κ μ where
  find k := (m.find k).bind (f k)
  keys := m.keys.filter fun k => ((m.find k).bind (f k)).isSome
  mem_keys k := by
    rw [Finset.mem_filter, m.mem_keys]
    constructor
    · exact fun h => h.2
    · intro h
      refine ⟨?_, h⟩
      cases hk : m.find k with
      | none => simp [hk] at h
      | some v => rfl

@[simp] theorem find_filterMap (f : κ → ν → Option μ) (m : FinMap κ ν) (k : κ) :
    (m.filterMap f).find k = (m.find k).bind (f k) := rfl

theorem find_filterMap_eq_some {f : κ → ν → Option μ} {m : FinMap κ ν} {k : κ} {w : μ} :
    (m.filterMap f).find k = some w ↔ ∃ v, m.find k = some v ∧ f k v = some w := by
  simp [Option.bind_eq_some_iff]

section Collect

variable [DecidableEq α]

/-- Visit every entry once and gather what it contributes to a set. -/
def collect (m : FinMap κ ν) (f : κ → ν → Finset α) : Finset α :=
  m.keys.biUnion fun k => (m.find k).elim ∅ (f k)

@[simp] theorem mem_collect {m : FinMap κ ν} {f : κ → ν → Finset α} {a : α} :
    a ∈ m.collect f ↔ ∃ k v, m.find k = some v ∧ a ∈ f k v := by
  rw [collect, Finset.mem_biUnion]
  constructor
  · rintro ⟨k, _, ha⟩
    cases hk : m.find k with
    | none => simp [hk] at ha
    | some v => exact ⟨k, v, hk, by simpa [hk] using ha⟩
  · rintro ⟨k, v, hk, ha⟩
    exact ⟨k, mem_keys_of_find hk, by simpa [hk] using ha⟩

end Collect

section Sum

/-- Visit every entry once and add up. -/
def sum (m : FinMap κ ν) (f : κ → ν → Nat) : Nat := ∑ k ∈ m.keys, (m.find k).elim 0 (f k)

/-- Rewriting an entry changes the sum by the difference of the entries. -/
theorem sum_insert [DecidableEq κ] {m : FinMap κ ν} {k : κ} {v : ν} (h : m.find k = some v)
    (v' : ν) (f : κ → ν → Nat) : (m.insert k v').sum f + f k v = m.sum f + f k v' := by
  have hk := mem_keys_of_find h
  have hrest : ∑ a ∈ m.keys.erase k, ((m.insert k v').find a).elim 0 (f a) =
      ∑ a ∈ m.keys.erase k, (m.find a).elim 0 (f a) :=
    Finset.sum_congr rfl fun a ha => by rw [find_insert_ne (Finset.ne_of_mem_erase ha)]
  unfold sum
  rw [keys_insert, Finset.insert_eq_of_mem hk, ← Finset.add_sum_erase _ _ hk, hrest,
    ← Finset.add_sum_erase _ _ hk, h, find_insert_self]
  simp only [Option.elim_some]
  omega

end Sum

/-- Maps with the same keys and the same answers on them are equal, so
equality of maps is decided over the keys. -/
instance [DecidableEq κ] [DecidableEq ν] : DecidableEq (FinMap κ ν) := fun a b =>
  decidable_of_iff (a.keys = b.keys ∧ ∀ k ∈ a.keys, a.find k = b.find k) <| by
    constructor
    · rintro ⟨hk, hf⟩
      refine ext fun k => ?_
      by_cases h : k ∈ a.keys
      · exact hf k h
      · rw [notMem_keys.mp h, notMem_keys.mp (hk ▸ h)]
    · rintro rfl
      exact ⟨rfl, fun _ _ => rfl⟩

end FinMap

/-! ## Ascending iteration -/

section Ascending

variable {α : Type} [LinearOrder α]

/-- The elements of a finite set in ascending order, as an ordered container
iterates them. Insertion sort, so that it computes on a literal set. -/
def ascending (s : Finset α) : List α :=
  Quot.liftOn s.val (List.insertionSort (· ≤ ·)) fun _ _ h =>
    List.Perm.eq_of_pairwise (fun _ _ _ _ => le_antisymm)
      (List.pairwise_insertionSort (· ≤ ·) _) (List.pairwise_insertionSort (· ≤ ·) _)
      ((List.perm_insertionSort (· ≤ ·) _).trans
        (h.trans (List.perm_insertionSort (· ≤ ·) _).symm))

theorem ascending_eq_sort (s : Finset α) : ascending s = s.sort := by
  have hval : ((ascending s : List α) : Multiset α) = s.val := by
    unfold ascending
    induction s.val using Quot.inductionOn with
    | h l => exact Quot.sound (List.perm_insertionSort (· ≤ ·) l)
  refine List.Perm.eq_of_pairwise (fun _ _ _ _ => le_antisymm) ?_ (Finset.pairwise_sort s (· ≤ ·)) ?_
  · unfold ascending
    induction s.val using Quot.inductionOn with
    | h l => exact List.pairwise_insertionSort (· ≤ ·) l
  · exact Multiset.coe_eq_coe.mp (hval.trans (Finset.sort_eq s (· ≤ ·)).symm)

@[simp] theorem mem_ascending {s : Finset α} {a : α} : a ∈ ascending s ↔ a ∈ s := by
  rw [ascending_eq_sort, Finset.mem_sort]

theorem ascending_nodup (s : Finset α) : (ascending s).Nodup := by
  rw [ascending_eq_sort]; exact Finset.sort_nodup s _

theorem ascending_singleton (a : α) : ascending ({a} : Finset α) = [a] := by
  rw [ascending_eq_sort, Finset.sort_singleton]

theorem length_ascending (s : Finset α) : (ascending s).length = s.card := by
  rw [ascending_eq_sort, Finset.length_sort]

end Ascending

end Lib
