import NdnEm.Lib.History
import NdnEm.Proofs.NodeStep

/-!
# The FIB is its history

A route is added to one entry, and a face is taken out of all of them at once.
Neither operation looks at what is there, so what an entry holds is decided by
the calls: the faces that were added under its name and not cleaned up since.
Lookup joins the entries of all prefixes and inherits this.
-/

namespace NdnEm

open Lib

inductive FibOp
  | addRoute (p : Name) (faceId : Int)
  | cleanUp (faceId : Int)
deriving DecidableEq

namespace Fib

variable {ops : List FibOp} {op : FibOp} {p : Name} {f : Int}

def apply (t : Fib) : FibOp → Fib
  | .addRoute p faceId => t.addRoute p faceId
  | .cleanUp faceId => t.cleanUp faceId

/-- The table after some calls. -/
def applyAll (t : Fib) (ops : List FibOp) : Fib := ops.foldl apply t

theorem applyAll_snoc (t : Fib) : t.applyAll (ops ++ [op]) = (t.applyAll ops).apply op := by
  rw [applyAll, List.foldl_append]
  rfl

/-- An `AddRoute (p, f)` that no `CleanUp (f)` has followed. -/
def Registered (ops : List FibOp) (p : Name) (f : Int) : Prop :=
  Since ops (· = .addRoute p f) (· ≠ .cleanUp f)

theorem registered_addRoute {q : Name} {g : Int} :
    Registered (ops ++ [.addRoute q g]) p f ↔ (p = q ∧ f = g) ∨ Registered ops p f := by
  simp [Registered, since_snoc, eq_comm]

theorem registered_cleanUp {g : Int} :
    Registered (ops ++ [.cleanUp g]) p f ↔ f ≠ g ∧ Registered ops p f := by
  simp [Registered, since_snoc, eq_comm, and_comm]

/-- An entry holds the faces that are registered under its name. -/
theorem mem_faces_iff : f ∈ (empty.applyAll ops).faces p ↔ Registered ops p f := by
  induction ops using List.reverseRecOn with
  | nil =>
      refine iff_of_false ?_ (since_nil _ _)
      show f ∉ empty.faces p
      rw [faces_empty]
      exact Finset.notMem_empty f
  | append_singleton ops op ih =>
      rw [applyAll_snoc]
      cases op with
      | addRoute q g => rw [apply, mem_addRoute, registered_addRoute, ih]
      | cleanUp g => rw [apply, mem_cleanUp, registered_cleanUp, ih]

/-- No entry is without a face. -/
def NoneEmpty (t : Fib) : Prop := ∀ p s, t.fib.find p = some s → s ≠ ∅

theorem noneEmpty_empty : empty.NoneEmpty := by
  intro p s hs
  cases hs

theorem NoneEmpty.apply {t : Fib} (h : t.NoneEmpty) (op : FibOp) : (t.apply op).NoneEmpty := by
  cases op with
  | addRoute q g => exact FinMap.forall_insert h (Finset.insert_ne_empty _ _)
  | cleanUp g =>
      intro p s hs
      obtain ⟨faces, _, hkept⟩ := FinMap.find_filterMap_eq_some.mp hs
      split_ifs at hkept with hgone
      rw [← Option.some.inj hkept]
      exact hgone

theorem noneEmpty_applyAll (ops : List FibOp) : (empty.applyAll ops).NoneEmpty := by
  induction ops using List.reverseRecOn with
  | nil => exact noneEmpty_empty
  | append_singleton ops op ih =>
      rw [applyAll_snoc]
      exact ih.apply op

/-- **Lookup against the history of routes.** After any calls of `AddRoute` and
`CleanUp`, lookup adds to `out` exactly the faces that are registered under a
prefix of the name, and no entry is empty. -/
theorem lookUp_eq_history (ops : List FibOp) (name : Name) (out : Finset Int) :
    (∀ f, f ∈ (empty.applyAll ops).lookUp name out ↔
      f ∈ out ∨ ∃ p, p <+: name ∧ Registered ops p f) ∧
    ∀ p s, (empty.applyAll ops).fib.find p = some s → s ≠ ∅ := by
  refine ⟨?_, noneEmpty_applyAll ops⟩
  intro f
  rw [mem_lookUp]
  refine or_congr_right (exists_congr fun p => and_congr_right fun _ => ?_)
  exact mem_faces_iff

/-- A route under the root is found under every name, and a face that was
cleaned up under none. -/
example : (empty.applyAll [.addRoute [] 1, .addRoute [[1]] 2, .addRoute [[1]] 3, .cleanUp 2]).lookUp
    [[1], [2]] {7} = {7, 1, 3} := by
  decide

end Fib

/-! ## The table of a node -/

namespace Node

variable {lib : NdnCxx} {n n' : Node} {e : NodeEvent} {o : Option Forward} {tr : Trace}

/-- Whatever happens to a node, its FIB is left alone, or changed by one call. -/
theorem step_fib (h : n.step lib e = .ok (n', o)) :
    n'.fib = n.fib ∨ ∃ op, n'.fib = n.fib.apply op := by
  rcases step_fib_cases h with hsame | ⟨f, _, hclean⟩ | ⟨_, _, _, p, g, _, hadd⟩
  · exact .inl hsame
  · exact .inr ⟨.cleanUp f, hclean⟩
  · exact .inr ⟨.addRoute p g, hadd⟩

/-- The FIB of a node is one that calls built. -/
theorem run_fib {ops : List FibOp} (hn : n.fib = Fib.empty.applyAll ops)
    (h : (system lib).Run n tr n') : ∃ ops', n'.fib = Fib.empty.applyAll (ops ++ ops') := by
  induction h with
  | nil => exact ⟨[], by rw [List.append_nil, hn]⟩
  | snoc _ _ hstep ih =>
      obtain ⟨ops', hops⟩ := ih
      rcases step_fib hstep with hsame | ⟨op, hop⟩
      · exact ⟨ops', hsame.trans hops⟩
      · refine ⟨ops' ++ [op], ?_⟩
        rw [hop, hops, ← Fib.applyAll_snoc, List.append_assoc]

end Node

end NdnEm
