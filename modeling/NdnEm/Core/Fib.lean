import Mathlib.Data.Int.Order.Basic
import NdnEm.Lib.FinMap
import NdnEm.Core.Packet

/-!
# The forwarding table

A map from name prefixes to sets of face ids. Lookup is "match-all": it does
not stop at the longest prefix that is registered but gathers the faces of
every one, from the whole name down to the root, so routes never have to be
inherited when they are added.
-/

namespace NdnEm

open Lib

structure Fib where
  fib : FinMap Name (Finset Int)
deriving DecidableEq

namespace Fib

def empty : Fib := ⟨∅⟩

/-- The faces registered under exactly this name; none for an absent entry. -/
def faces (t : Fib) (n : Name) : Finset Int := (t.fib.find n).getD ∅

/-- `m_fib[prefix].insert (faceId)`, where `operator[]` makes the entry. -/
def addRoute (t : Fib) (p : Name) (faceId : Int) : Fib :=
  ⟨t.fib.insert p (insert faceId (t.faces p))⟩

/-- Erase the face from every entry, and every entry this empties. -/
def cleanUp (t : Fib) (faceId : Int) : Fib :=
  ⟨t.fib.filterMap fun _ faces =>
    if faces.erase faceId = ∅ then none else some (faces.erase faceId)⟩

/-- The rounds of the lookup loop from `i` components down to none. -/
def lookUpFrom (t : Fib) (name : Name) : Nat → Finset Int → Finset Int
  | 0, out => out ∪ t.faces (name.take 0)
  | i + 1, out => t.lookUpFrom name i (out ∪ t.faces (name.take (i + 1)))

def lookUp (t : Fib) (name : Name) (out : Finset Int) : Finset Int :=
  t.lookUpFrom name name.length out

@[simp] theorem faces_empty (n : Name) : empty.faces n = ∅ := rfl

theorem faces_addRoute (t : Fib) (p : Name) (f : Int) (n : Name) :
    (t.addRoute p f).faces n = if n = p then insert f (t.faces p) else t.faces n := by
  unfold faces addRoute
  by_cases h : n = p <;> simp [h, faces]

theorem faces_cleanUp (t : Fib) (f : Int) (n : Name) :
    (t.cleanUp f).faces n = (t.faces n).erase f := by
  unfold faces cleanUp
  cases h : t.fib.find n with
  | none => simp [h]
  | some s => by_cases hs : s.erase f = ∅ <;> simp [h, hs]

theorem mem_addRoute {t : Fib} {p n : Name} {f g : Int} :
    g ∈ (t.addRoute p f).faces n ↔ (n = p ∧ g = f) ∨ g ∈ t.faces n := by
  rw [faces_addRoute]
  split
  · next h => subst h; simp
  · next h => simp [h]

theorem mem_cleanUp {t : Fib} {n : Name} {f g : Int} :
    g ∈ (t.cleanUp f).faces n ↔ g ≠ f ∧ g ∈ t.faces n := by
  rw [faces_cleanUp, Finset.mem_erase]

/-- The lookup loop visits the prefixes of length `i` down to `0`. -/
theorem mem_lookUpFrom {t : Fib} {name : Name} {f : Int} :
    ∀ {i : Nat} {out : Finset Int},
      f ∈ t.lookUpFrom name i out ↔ f ∈ out ∨ ∃ k ≤ i, f ∈ t.faces (name.take k) := by
  intro i
  induction i with
  | zero => intro out; simp [lookUpFrom]
  | succ i ih =>
      intro out
      rw [lookUpFrom, ih, Finset.mem_union, or_assoc]
      refine or_congr_right ⟨?_, ?_⟩
      · rintro (h | ⟨k, hk, h⟩)
        · exact ⟨i + 1, le_refl _, h⟩
        · exact ⟨k, Nat.le_succ_of_le hk, h⟩
      · rintro ⟨k, hk, h⟩
        rcases Nat.le_succ_iff.mp hk with hk | rfl
        · exact .inr ⟨k, hk, h⟩
        · exact .inl h

/-- Lookup gathers the faces of every prefix of the name, the root and the
name itself included. -/
theorem mem_lookUp {t : Fib} {name : Name} {out : Finset Int} {f : Int} :
    f ∈ t.lookUp name out ↔ f ∈ out ∨ ∃ p, p <+: name ∧ f ∈ t.faces p := by
  rw [lookUp, mem_lookUpFrom]
  refine or_congr_right ⟨?_, ?_⟩
  · rintro ⟨k, _, h⟩
    exact ⟨name.take k, List.take_prefix k name, h⟩
  · rintro ⟨p, hp, h⟩
    exact ⟨p.length, hp.length_le, by rwa [← List.prefix_iff_eq_take.mp hp]⟩

end Fib

end NdnEm
