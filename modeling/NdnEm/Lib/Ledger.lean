import Mathlib.Data.Finset.Card
import Mathlib.Data.List.Induction
import Mathlib.Logic.Function.Basic

/-!
# Credits and payments

Calls come in and leave credits; payments use credits up. That no payment is
made without a call behind it, and no two with the same call, is one
injection: from the open credits and the payments made so far to the calls.

`Balanced` says the injection exists, with what an open credit owes to its
call and what a payment answers of its call carried along. The four rules
below are the only ways books change: something is dropped or forgotten
(`mono`), a call leaves a credit (`issue`), a call is paid on the spot
(`settle`), and a batch of payments is made, each out of a credit of its own
(`pay`). What comes out is `Balanced.matching`.
-/

namespace Lib

variable {κ π γ : Type}

/-- Open credits and payments made, each standing for a call of its own. -/
def Balanced (isOpen : κ → Prop) (paid : π → Prop) (owes : κ → γ → Prop)
    (answers : π → γ → Prop) : Prop :=
  ∃ (credit : κ → γ) (payment : π → γ),
    (∀ a, isOpen a → owes a (credit a)) ∧
    (∀ p, paid p → answers p (payment p)) ∧
    (∀ a b, isOpen a → isOpen b → credit a = credit b → a = b) ∧
    (∀ p q, paid p → paid q → payment p = payment q → p = q) ∧
    ∀ a p, isOpen a → paid p → credit a ≠ payment p

namespace Balanced

variable {isOpen isOpen' : κ → Prop} {paid paid' : π → Prop} {owes owes' : κ → γ → Prop}
  {answers answers' : π → γ → Prop}

/-- Empty books balance. -/
theorem empty [Nonempty γ] (hopen : ∀ a, ¬ isOpen a) (hpaid : ∀ p, ¬ paid p) :
    Balanced isOpen paid owes answers := by
  obtain ⟨c⟩ := ‹Nonempty γ›
  exact ⟨fun _ => c, fun _ => c, fun a h => absurd h (hopen a), fun p h => absurd h (hpaid p),
    fun a _ h => absurd h (hopen a), fun p _ h => absurd h (hpaid p),
    fun a _ h => absurd h (hopen a)⟩

/-- Credits may be dropped, and what is promised may be read differently. -/
theorem mono (h : Balanced isOpen paid owes answers) (hopen : ∀ a, isOpen' a → isOpen a)
    (hpaid : ∀ p, paid' p → paid p) (howes : ∀ a c, isOpen' a → owes a c → owes' a c)
    (hanswers : ∀ p c, paid' p → answers p c → answers' p c) :
    Balanced isOpen' paid' owes' answers' := by
  obtain ⟨credit, payment, ho, ha, hcc, hpp, hcp⟩ := h
  exact ⟨credit, payment, fun a h => howes _ _ h (ho a (hopen a h)),
    fun p h => hanswers _ _ h (ha p (hpaid p h)),
    fun a b h h' => hcc a b (hopen a h) (hopen b h'),
    fun p q h h' => hpp p q (hpaid p h) (hpaid q h'),
    fun a p h h' => hcp a p (hopen a h) (hpaid p h')⟩

/-- A call nobody stands for yet leaves one credit. -/
theorem issue [DecidableEq κ] (h : Balanced isOpen paid owes answers) (a₀ : κ) (c : γ)
    (hcredit : owes' a₀ c) (howes : ∀ a c', isOpen a → owes a c' → owes' a c' ∧ c' ≠ c)
    (hanswers : ∀ p c', paid p → answers p c' → answers' p c' ∧ c' ≠ c)
    (hopen : ∀ a, isOpen' a → a = a₀ ∨ isOpen a) (hpaid : ∀ p, paid' p → paid p) :
    Balanced isOpen' paid' owes' answers' := by
  obtain ⟨credit, payment, ho, ha, hcc, hpp, hcp⟩ := h
  have hold : ∀ a, isOpen' a → a ≠ a₀ → isOpen a := fun a h hne => (hopen a h).resolve_left hne
  have hne : ∀ a, isOpen a → credit a ≠ c := fun a h => (howes a _ h (ho a h)).2
  refine ⟨fun a => if a = a₀ then c else credit a, payment, fun a h => ?_,
    fun p h => (hanswers p _ (hpaid p h) (ha p (hpaid p h))).1, fun a b h h' heq => ?_,
    fun p q h h' => hpp p q (hpaid p h) (hpaid q h'), fun a p h hp => ?_⟩
  · by_cases h₀ : a = a₀
    · simpa [h₀] using hcredit
    · simpa [h₀] using (howes a _ (hold a h h₀) (ho a (hold a h h₀))).1
  · by_cases ha₀ : a = a₀ <;> by_cases hb₀ : b = a₀ <;>
      simp only [ha₀, hb₀, if_true, if_false] at heq
    · rw [ha₀, hb₀]
    · exact absurd heq.symm (hne b (hold b h' hb₀))
    · exact absurd heq (hne a (hold a h ha₀))
    · exact hcc a b (hold a h ha₀) (hold b h' hb₀) heq
  · by_cases ha₀ : a = a₀
    · simp only [ha₀, if_true]
      exact fun heq => (hanswers p _ (hpaid p hp) (ha p (hpaid p hp))).2 heq.symm
    · simp only [ha₀, if_false]
      exact hcp a p (hold a h ha₀) (hpaid p hp)

/-- A call nobody stands for yet is paid at once. -/
theorem settle [DecidableEq π] (h : Balanced isOpen paid owes answers) (p₀ : π) (c : γ)
    (hpayment : answers' p₀ c) (howes : ∀ a c', isOpen a → owes a c' → owes' a c' ∧ c' ≠ c)
    (hanswers : ∀ p c', paid p → answers p c' → answers' p c' ∧ c' ≠ c)
    (hopen : ∀ a, isOpen' a → isOpen a) (hpaid : ∀ p, paid' p → p = p₀ ∨ paid p) :
    Balanced isOpen' paid' owes' answers' := by
  obtain ⟨credit, payment, ho, ha, hcc, hpp, hcp⟩ := h
  have hold : ∀ p, paid' p → p ≠ p₀ → paid p := fun p h hne => (hpaid p h).resolve_left hne
  have hne : ∀ p, paid p → payment p ≠ c := fun p h => (hanswers p _ h (ha p h)).2
  refine ⟨credit, fun p => if p = p₀ then c else payment p,
    fun a h => (howes a _ (hopen a h) (ho a (hopen a h))).1, fun p h => ?_,
    fun a b h h' => hcc a b (hopen a h) (hopen b h'), fun p q h h' heq => ?_,
    fun a p h hp => ?_⟩
  · by_cases h₀ : p = p₀
    · simpa [h₀] using hpayment
    · simpa [h₀] using (hanswers p _ (hold p h h₀) (ha p (hold p h h₀))).1
  · by_cases hp₀ : p = p₀ <;> by_cases hq₀ : q = p₀ <;>
      simp only [hp₀, hq₀, if_true, if_false] at heq
    · rw [hp₀, hq₀]
    · exact absurd heq.symm (hne q (hold q h' hq₀))
    · exact absurd heq (hne p (hold p h hp₀))
    · exact hpp p q (hold p h hp₀) (hold q h' hq₀) heq
  · by_cases hp₀ : p = p₀
    · simp only [hp₀, if_true]
      exact (howes a _ (hopen a h) (ho a (hopen a h))).2
    · simp only [hp₀, if_false]
      exact hcp a p (hopen a h) (hold p hp hp₀)

/-- A batch of payments, each out of an open credit of its own that is closed
with it. -/
theorem pay (h : Balanced isOpen paid owes answers) (new : π → Prop) [DecidablePred new]
    (pick : π → κ) (hpick : ∀ p, new p → isOpen (pick p))
    (hinj : ∀ p q, new p → new q → pick p = pick q → p = q)
    (hanswers : ∀ p c, new p → owes (pick p) c → answers p c)
    (hopen : ∀ a, isOpen' a → isOpen a ∧ ∀ p, new p → pick p ≠ a)
    (hpaid : ∀ p, paid' p → new p ∨ paid p) :
    Balanced isOpen' paid' owes answers := by
  obtain ⟨credit, payment, ho, ha, hcc, hpp, hcp⟩ := h
  have hold : ∀ p, paid' p → ¬ new p → paid p := fun p h hne => (hpaid p h).resolve_left hne
  refine ⟨credit, fun p => if new p then credit (pick p) else payment p,
    fun a h => ho a (hopen a h).1, fun p h => ?_,
    fun a b h h' => hcc a b (hopen a h).1 (hopen b h').1, fun p q h h' heq => ?_,
    fun a p h hp => ?_⟩
  · by_cases hn : new p
    · simpa [hn] using hanswers p _ hn (ho _ (hpick p hn))
    · simpa [hn] using ha p (hold p h hn)
  · by_cases hp : new p <;> by_cases hq : new q <;> simp only [hp, hq, if_true, if_false] at heq
    · exact hinj p q hp hq (hcc _ _ (hpick p hp) (hpick q hq) heq)
    · exact absurd heq (hcp _ _ (hpick p hp) (hold q h' hq))
    · exact absurd heq.symm (hcp _ _ (hpick q hq) (hold p h hp))
    · exact hpp p q (hold p h hp) (hold q h' hq) heq
  · by_cases hn : new p
    · simp only [hn, if_true]
      exact fun heq => (hopen a h).2 p hn (hcc _ _ (hopen a h).1 (hpick p hn) heq).symm
    · simp only [hn, if_false]
      exact hcp a p (hopen a h).1 (hold p hp hn)

/-- What balanced books promise: a call for every payment, no call twice. -/
theorem matching (h : Balanced isOpen paid owes answers) :
    ∃ call : π → γ, (∀ p, paid p → answers p (call p)) ∧
      ∀ p q, paid p → paid q → call p = call q → p = q := by
  obtain ⟨_, payment, _, ha, _, hpp, _⟩ := h
  exact ⟨payment, ha, hpp⟩

end Balanced

/-! ## Counting along a trace

When calls and payments are positions of one trace, a matching bounds the
number of the ones by the number of the others. -/

section Count

variable {α : Type}

/-- The positions of a list that satisfy a test. -/
def positions (p : α → Bool) (l : List α) : Finset Nat :=
  (Finset.range l.length).filter fun j => l[j]?.any p

theorem mem_positions {p : α → Bool} {l : List α} {j : Nat} :
    j ∈ positions p l ↔ ∃ x, l[j]? = some x ∧ p x = true := by
  rw [positions, Finset.mem_filter, Finset.mem_range]
  constructor
  · intro h
    simpa [Option.any_eq_true] using h.2
  · rintro ⟨x, hx, hp⟩
    exact ⟨(List.getElem?_eq_some_iff.mp hx).1, by simpa [hx] using hp⟩

theorem card_positions (p : α → Bool) (l : List α) : (positions p l).card = l.countP p := by
  induction l using List.reverseRecOn with
  | nil => simp [positions]
  | append_singleton l x ih =>
      have hold : ∀ j, j ∈ positions p (l ++ [x]) ↔
          j ∈ positions p l ∨ (j = l.length ∧ p x = true) := by
        intro j
        simp only [mem_positions, List.getElem?_append]
        split
        · next h => simp [show j ≠ l.length by omega]
        · next h =>
            rw [List.getElem?_eq_none (show l.length ≤ j by omega)]
            by_cases hj : j = l.length
            · simp [hj]
            · simp [hj, show j - l.length ≠ 0 by omega]
      have hlast : l.length ∉ positions p l := by
        rw [mem_positions]
        rintro ⟨y, hy, _⟩
        simp at hy
      rw [List.countP_append, ← ih]
      by_cases hx : p x = true
      · rw [show positions p (l ++ [x]) = insert l.length (positions p l) from
          Finset.ext fun j => by rw [hold, Finset.mem_insert, or_comm]; simp [hx],
          Finset.card_insert_of_notMem hlast]
        simp [hx]
      · rw [show positions p (l ++ [x]) = positions p l from
          Finset.ext fun j => by rw [hold]; simp [hx]]
        simp [hx]

/-- A matching of the `p`s with `q`s bounds their number. -/
theorem countP_le_of_matching {p q : α → Bool} {l : List α} (call : Nat → Nat)
    (hcall : ∀ j ∈ positions p l, call j ∈ positions q l)
    (hinj : ∀ j ∈ positions p l, ∀ k ∈ positions p l, call j = call k → j = k) :
    l.countP p ≤ l.countP q := by
  rw [← card_positions, ← card_positions]
  exact Finset.card_le_card_of_injOn call hcall fun j hj k hk h => hinj j hj k hk h

end Count

end Lib
