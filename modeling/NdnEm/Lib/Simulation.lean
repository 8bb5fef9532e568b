import Mathlib.Data.List.TakeDrop
import NdnEm.Lib.Run

/-!
# One system seen in another

A part of a system, or an abstraction of it, is a system of its own. That the
large one behaves as the small one says it does is a *view*: what a run of the
large one has in common with a run of the small one. A view relates not only
the two states but the two traces behind them, so that it can say what the
runs were observed to do, and in which order.

One step of the large system is any number of steps of the small one: none
when the step is about something else, several when it is a loop over calls.

Two traces that show the same to an observer show it in the same order. The
`rank` of a point counts what was shown before it, so points of equal rank in
the two traces are the same thing seen, and what is earlier in one is earlier
in the other.
-/

namespace Lib

namespace System

variable {σ ε ω φ τ δ ρ ψ : Type} {S : System σ ε ω φ} {T : System τ δ ρ ψ} {s₀ s : σ}
  {t₀ t t' : τ} {V : List (ε × ω) → σ → List (δ × ρ) → τ → Prop} {tr : List (ε × ω)}

/-- A run of `S` through `tr` to `s` looks, in view `V`, like a run of `T`. -/
def Seen (T : System τ δ ρ ψ) (t₀ : τ) (V : List (ε × ω) → σ → List (δ × ρ) → τ → Prop)
    (tr : List (ε × ω)) (s : σ) : Prop :=
  ∃ tr' t, T.Run t₀ tr' t ∧ V tr s tr' t

/-- Some steps of `T` after a run lead to what the view asks for. -/
theorem Seen.after {tr' seg : List (δ × ρ)} (hrun : T.Run t₀ tr' t) (hseg : T.Run t seg t')
    (hV : V tr s (tr' ++ seg) t') : Seen T t₀ V tr s :=
  ⟨tr' ++ seg, t', hrun.append hseg, hV⟩

/-- If every step leads on from what is seen to what is seen, every run is
seen. -/
theorem Run.seen
    (hstep : ∀ tr s tr' t e s' o, S.Run s₀ tr s → T.Run t₀ tr' t → V tr s tr' t →
      S.Enabled s e → S.step s e = .ok (s', o) →
      ∃ seg t', T.Run t seg t' ∧ V (tr ++ [(e, o)]) s' (tr' ++ seg) t')
    (hstart : V [] s₀ [] t₀) (hrun : S.Run s₀ tr s) : Seen T t₀ V tr s := by
  induction hrun with
  | nil => exact ⟨[], t₀, .nil t₀, hstart⟩
  | snoc hrun he hs ih =>
      obtain ⟨tr', t, hrun', hV⟩ := ih
      obtain ⟨seg, t', hseg, hV'⟩ := hstep _ _ _ _ _ _ _ hrun hrun' hV he hs
      exact .after hrun' hseg hV'

/-- The runs of a part: if every step that is reachable is one of the part's, or
leaves the part alone, the part's own steps are a run of it. -/
theorem Run.project {I : σ → Prop} {π : σ → τ} {v : ε × ω → Option (δ × ρ)}
    (hkeep : ∀ s e s' o, I s → S.Enabled s e → S.step s e = .ok (s', o) → I s')
    (halone : ∀ s e s' o, I s → S.Enabled s e → S.step s e = .ok (s', o) → v (e, o) = none →
      π s' = π s)
    (hpart : ∀ s e s' o e' o', I s → S.Enabled s e → S.step s e = .ok (s', o) →
      v (e, o) = some (e', o') → T.Enabled (π s) e' ∧ T.step (π s) e' = .ok (π s', o'))
    (hrun : S.Run s₀ tr s) (hI : I s₀) : T.Run (π s₀) (tr.filterMap v) (π s) := by
  induction hrun with
  | nil => exact .nil _
  | @snoc s₁ s₂ tr e o hrun he hs ih =>
      have hI₁ := hrun.invariant hkeep hI
      rw [List.filterMap_append]
      cases hv : v (e, o) with
      | none =>
          rw [List.filterMap_cons_none hv, List.filterMap_nil, List.append_nil,
            halone _ _ _ _ hI₁ he hs hv]
          exact ih
      | some x =>
          obtain ⟨hen, hstep⟩ := hpart _ _ _ _ _ _ hI₁ he hs hv
          rw [List.filterMap_cons_some hv, List.filterMap_nil]
          exact .snoc ih hen hstep

end System

/-! ## What two traces show alike -/

section Rank

variable {α γ : Type} {f : α → Option γ} {l : List α} {p q k : Nat} {a : α} {c : γ}

/-- How much is shown before that point. -/
def rank (f : α → Option γ) (l : List α) (p : Nat) : Nat := ((l.take p).filterMap f).length

/-- What is shown at a point. -/
def ShownAt (f : α → Option γ) (l : List α) (p : Nat) (c : γ) : Prop :=
  ∃ a, l[p]? = some a ∧ f a = some c

theorem ShownAt.split (h : ShownAt f l p c) : l.filterMap f =
    (l.take p).filterMap f ++ c :: (l.drop (p + 1)).filterMap f := by
  obtain ⟨a, ha, hc⟩ := h
  obtain ⟨hlt, rfl⟩ := List.getElem?_eq_some_iff.mp ha
  conv_lhs => rw [← List.take_append_drop p l, List.drop_eq_getElem_cons hlt]
  rw [List.filterMap_append, List.filterMap_cons_some hc]

theorem ShownAt.getElem? (h : ShownAt f l p c) : (l.filterMap f)[rank f l p]? = some c := by
  rw [h.split, rank, List.getElem?_append_right (Nat.le_refl _), Nat.sub_self]
  rfl

theorem rank_mono (h : p ≤ q) : rank f l p ≤ rank f l q :=
  ((List.take_sublist_take_left h).filterMap f).length_le

theorem ShownAt.rank_lt (h : ShownAt f l p c) (hlt : p < q) : rank f l p < rank f l q := by
  obtain ⟨a, ha, hc⟩ := h
  obtain ⟨hp, rfl⟩ := List.getElem?_eq_some_iff.mp ha
  refine Nat.lt_of_lt_of_le ?_ (rank_mono hlt)
  rw [rank, rank, List.take_succ_eq_append_getElem hp, List.filterMap_append,
    List.length_append, List.filterMap_cons_some hc]
  simp

/-- Points are in the order of their ranks. -/
theorem ShownAt.le_of_rank (h : ShownAt f l q c) (hrank : rank f l p ≤ rank f l q) : p ≤ q := by
  by_contra hlt
  have := h.rank_lt (show q < p by omega)
  omega

theorem ShownAt.eq_of_rank {c' : γ} (hp : ShownAt f l p c) (hq : ShownAt f l q c')
    (hrank : rank f l p = rank f l q) : p = q :=
  Nat.le_antisymm (hq.le_of_rank (Nat.le_of_eq hrank)) (hp.le_of_rank (Nat.le_of_eq hrank.symm))

theorem exists_rank (h : (l.filterMap f)[k]? = some c) : ∃ p, ShownAt f l p c ∧ rank f l p = k := by
  induction l generalizing k with
  | nil => simp at h
  | cons a l ih =>
      cases ha : f a with
      | none =>
          rw [List.filterMap_cons_none ha] at h
          obtain ⟨p, ⟨b, hb, hc⟩, hk⟩ := ih h
          refine ⟨p + 1, ⟨b, hb, hc⟩, ?_⟩
          rw [rank, List.take_succ_cons, List.filterMap_cons_none ha]
          exact hk
      | some c' =>
          rw [List.filterMap_cons_some ha] at h
          cases k with
          | zero =>
              obtain rfl : c' = c := by simpa using h
              exact ⟨0, ⟨a, rfl, ha⟩, rfl⟩
          | succ k =>
              obtain ⟨p, ⟨b, hb, hc⟩, hk⟩ := ih h
              refine ⟨p + 1, ⟨b, hb, hc⟩, ?_⟩
              rw [rank, List.take_succ_cons, List.filterMap_cons_some ha, List.length_cons]
              exact congrArg (· + 1) hk

/-- What one trace shows, another that shows the same shows at a point of equal
rank. -/
theorem ShownAt.transfer {β : Type} {g : β → Option γ} {m : List β} (h : ShownAt f l p c)
    (hsame : l.filterMap f = m.filterMap g) : ∃ q, ShownAt g m q c ∧ rank g m q = rank f l p :=
  exists_rank (hsame ▸ h.getElem?)

end Rank

end Lib
