import Mathlib.Algebra.BigOperators.Group.Finset.Basic
import Mathlib.Algebra.Order.BigOperators.Group.Finset
import Mathlib.Algebra.Ring.Nat
import Mathlib.Data.Set.Finite.Basic
import NdnEm.Lib.Run

/-!
# Paying for steps

A potential is a number read off the state. If every step of a kind is paid
for, one unit or more, out of the potential or out of a gain, then a run that
gains little makes few steps of that kind, and an infinite run that gains at
finitely many places makes finitely many of them.

What a step costs and what it gains may depend on the state it is taken in.
`watched` puts that state into the trace, so that the costs of a run are sums
over its trace.
-/

namespace Lib

namespace System

variable {σ ε ω φ : Type} {S : System σ ε ω φ} {s s' : σ}

/-- The same system, whose steps also show the state they are taken in. -/
def watched (S : System σ ε ω φ) : System σ ε (σ × ω) φ where
  Enabled := S.Enabled
  step s e := (S.step s e).map fun r => (r.1, (s, r.2))

theorem watched_step {e : ε} {x : σ × ω} (h : S.watched.step s e = .ok (s', x)) :
    x.1 = s ∧ S.step s e = .ok (s', x.2) := by
  obtain ⟨r, hs, heq⟩ := ok_of_map h
  obtain ⟨rfl, rfl⟩ := Prod.mk.inj heq
  exact ⟨rfl, hs⟩

/-- What one step preserves, a watched run preserves. -/
theorem Run.watched_invariant {I : σ → Prop} {tr : List (ε × σ × ω)}
    (hstep : ∀ s e s' o, I s → S.Enabled s e → S.step s e = .ok (s', o) → I s')
    (h : S.watched.Run s tr s') (hI : I s) : I s' := by
  refine h.invariant (fun s₁ e s₂ x hs he hx => ?_) hI
  exact hstep s₁ e s₂ x.2 hs he (watched_step hx).2

/-- Every run can be watched. -/
theorem Run.watch {tr : List (ε × ω)} (h : S.Run s tr s') :
    ∃ wtr : List (ε × σ × ω), S.watched.Run s wtr s' ∧ wtr.map (fun x => (x.1, x.2.2)) = tr := by
  induction h with
  | nil => exact ⟨[], .nil _, rfl⟩
  | @snoc s₁ s₂ tr e o _ he hs ih =>
      obtain ⟨wtr, hrun, rfl⟩ := ih
      have hstep : S.watched.step s₁ e = .ok (s₂, (s₁, o)) := by
        show (S.step s₁ e).map _ = _
        rw [hs]
        rfl
      exact ⟨wtr ++ [(e, s₁, o)], hrun.snoc he hstep, by simp⟩

/-- Under an invariant, every fee is covered by the load or by a gain. -/
structure Pays (S : System σ ε ω φ) (I : σ → Prop) (load : σ → Nat)
    (fee gain : σ → ε → ω → Nat) : Prop where
  keeps : ∀ s e s' o, I s → S.Enabled s e → S.step s e = .ok (s', o) → I s'
  pays : ∀ s e s' o, I s → S.Enabled s e → S.step s e = .ok (s', o) →
    load s' + fee s e o ≤ load s + gain s e o

variable {I : σ → Prop} {load : σ → Nat} {fee gain : σ → ε → ω → Nat}

/-- A cost, summed along a watched trace. -/
def total (cost : σ → ε → ω → Nat) (tr : List (ε × σ × ω)) : Nat :=
  (tr.map fun x => cost x.2.1 x.1 x.2.2).sum

@[simp] theorem total_nil (cost : σ → ε → ω → Nat) : total cost [] = 0 := rfl

theorem total_snoc (cost : σ → ε → ω → Nat) (tr : List (ε × σ × ω)) (e : ε) (x : σ × ω) :
    total cost (tr ++ [(e, x)]) = total cost tr + cost x.1 e x.2 := by
  simp [total]

theorem total_add (cost cost' : σ → ε → ω → Nat) (tr : List (ε × σ × ω)) :
    total (fun s e o => cost s e o + cost' s e o) tr = total cost tr + total cost' tr := by
  induction tr with
  | nil => rfl
  | cons x tr ih =>
      simp only [total, List.map_cons, List.sum_cons] at ih ⊢
      omega

@[simp] theorem total_zero (tr : List (ε × σ × ω)) : total (fun _ _ _ => 0) tr = 0 := by
  simp [total]

theorem Pays.total_le (hp : S.Pays I load fee gain) {tr : List (ε × σ × ω)} (hI : I s)
    (h : S.watched.Run s tr s') : load s' + total fee tr ≤ load s + total gain tr := by
  induction h with
  | nil => simp
  | snoc hrun he hs ih =>
      have hI' := hrun.watched_invariant hp.keeps hI
      obtain ⟨hx, hstep⟩ := watched_step hs
      have hpay := hp.pays _ _ _ _ hI' he hstep
      rw [total_snoc, total_snoc, hx]
      omega

/-! ## Infinite runs -/

/-- A run that never ends: its states, and what happens in each. -/
structure Forever (S : System σ ε ω φ) (s : Nat → σ) (x : Nat → ε × ω) : Prop where
  enabled : ∀ i, S.Enabled (s i) (x i).1
  step : ∀ i, S.step (s i) (x i).1 = .ok (s (i + 1), (x i).2)

variable {st : Nat → σ} {x : Nat → ε × ω}

/-- Any stretch of it is a run. -/
theorem Forever.run (h : S.Forever st x) (i n : Nat) :
    S.Run (st i) ((List.range n).map fun m => x (i + m)) (st (i + n)) := by
  induction n with
  | zero => exact .nil _
  | succ n ih =>
      rw [List.range_succ, List.map_append]
      exact ih.snoc (h.enabled (i + n)) (h.step (i + n))

theorem Forever.invariant (h : S.Forever st x)
    (hstep : ∀ s e s' o, I s → S.Enabled s e → S.step s e = .ok (s', o) → I s') (hI : I (st 0))
    (i : Nat) : I (st i) := by
  have hrun := (h.run 0 i).invariant hstep hI
  rwa [Nat.zero_add] at hrun

theorem Pays.sum_le (hp : S.Pays I load fee gain) (h : S.Forever st x) (hI : I (st 0)) (n : Nat) :
    load (st n) + ∑ i ∈ Finset.range n, fee (st i) (x i).1 (x i).2 ≤
      load (st 0) + ∑ i ∈ Finset.range n, gain (st i) (x i).1 (x i).2 := by
  induction n with
  | zero => simp
  | succ n ih =>
      have hpay := hp.pays _ _ _ _ (h.invariant hp.keeps hI n) (h.enabled n) (h.step n)
      rw [Finset.sum_range_succ, Finset.sum_range_succ]
      omega

/-- **Finitely many gains pay for finitely many fees.** -/
theorem Pays.finite_fees (hp : S.Pays I load fee gain) (h : S.Forever st x) (hI : I (st 0))
    (hgain : {i | gain (st i) (x i).1 (x i).2 ≠ 0}.Finite) :
    {i | fee (st i) (x i).1 (x i).2 ≠ 0}.Finite := by
  by_contra hinf
  let budget := load (st 0) + ∑ i ∈ hgain.toFinset, gain (st i) (x i).1 (x i).2
  obtain ⟨t, ht, hcard⟩ := Set.Infinite.exists_subset_card_eq hinf (budget + 1)
  have hfees : budget + 1 ≤ ∑ i ∈ t, fee (st i) (x i).1 (x i).2 := by
    rw [← hcard, Finset.card_eq_sum_ones]
    exact Finset.sum_le_sum fun i hi => Nat.one_le_iff_ne_zero.mpr (ht hi)
  -- a stretch of the run that has all of these fees in it
  obtain ⟨n, hn⟩ : ∃ n, t ⊆ Finset.range n := ⟨t.sup id + 1, fun i hi =>
    Finset.mem_range.mpr (Nat.lt_succ_of_le (Finset.le_sup (f := id) hi))⟩
  have hmore : ∑ i ∈ t, fee (st i) (x i).1 (x i).2 ≤
      ∑ i ∈ Finset.range n, fee (st i) (x i).1 (x i).2 := Finset.sum_le_sum_of_subset hn
  have hless : ∑ i ∈ Finset.range n, gain (st i) (x i).1 (x i).2 ≤
      ∑ i ∈ hgain.toFinset, gain (st i) (x i).1 (x i).2 :=
    Finset.sum_le_sum_of_ne_zero fun i _ hi => hgain.mem_toFinset.mpr hi
  have hsum := hp.sum_le h hI n
  omega

end System

end Lib
