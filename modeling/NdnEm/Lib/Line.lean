import Mathlib.Data.List.Basic

/-!
# A waiting line with one server

What joins the line stays in it until it is served or given up, and only its
head can be either. A history lists what happened, and says who it happened
to; it does not say which arrival that was, and the same thing may arrive more
than once. So arrivals are numbered, and since only the head ever leaves, the
number of whoever is at the head is the number of departures so far. That is
how `starts` numbers what is put into service.

`Conserved` is what the histories of a line satisfy: nothing is lost, nothing
is served twice or out of turn, and what is given up was never served. A
component keeps a line when its steps are `Step`s of one.
-/

namespace Lib

variable {α : Type}

/-- Who waits, and whether the head is being served. -/
structure Line (α : Type) where
  waiting : List α
  busy : Bool

namespace Line

/-- What happens to a line. -/
inductive Turn (α : Type)
  | arrive (a : α)
  /-- The head is put into service. -/
  | start (a : α)
  /-- The head leaves, served. -/
  | finish (a : α)
  /-- The head leaves, and was not served. -/
  | giveUp (a : α)
  | other

inductive Step : Line α → Turn α → Line α → Prop
  | arrive (x : Line α) (a : α) : Step x (.arrive a) ⟨x.waiting ++ [a], x.busy⟩
  | start (a : α) (rest : List α) : Step ⟨a :: rest, false⟩ (.start a) ⟨a :: rest, true⟩
  | finish (a : α) (rest : List α) : Step ⟨a :: rest, true⟩ (.finish a) ⟨rest, false⟩
  | giveUp (a : α) (rest : List α) : Step ⟨a :: rest, false⟩ (.giveUp a) ⟨rest, false⟩
  | other (x : Line α) : Step x .other x

/-- Whoever is at the head stays there until they leave. -/
theorem Step.head_stays {x y : Line α} {t : Turn α} {a : α} (h : Step x t y)
    (ht : ∀ b, t ≠ .finish b ∧ t ≠ .giveUp b) (hx : x.waiting.head? = some a) :
    y.waiting.head? = some a := by
  cases h with
  | arrive _ b =>
      obtain ⟨rest, hw⟩ := List.head?_eq_some_iff.mp hx
      rw [hw]
      rfl
  | start b rest => exact hx
  | finish b rest => exact absurd rfl (ht b).1
  | giveUp b rest => exact absurd rfl (ht b).2
  | other _ => exact hx

/-- The histories of a line that was empty at first. -/
inductive Serves : List (Turn α) → Line α → Prop
  | nil : Serves [] ⟨[], false⟩
  | snoc {h : List (Turn α)} {x y : Line α} {t : Turn α} :
      Serves h x → Step x t y → Serves (h ++ [t]) y

/-- All arrivals, in order; the place in this list is the number. -/
def arrivals : List (Turn α) → List α
  | [] => []
  | .arrive a :: h => a :: arrivals h
  | _ :: h => arrivals h

/-- All departures, in order, and whether they were served. -/
def departures : List (Turn α) → List (α × Bool)
  | [] => []
  | .finish a :: h => (a, true) :: departures h
  | .giveUp a :: h => (a, false) :: departures h
  | _ :: h => departures h

/-- Everything put into service, in order, with its number; `k` is the number
of the head before. -/
def starts (k : Nat) : List (Turn α) → List (Nat × α)
  | [] => []
  | .start a :: h => (k, a) :: starts k h
  | .finish _ :: h => starts (k + 1) h
  | .giveUp _ :: h => starts (k + 1) h
  | _ :: h => starts k h

/-- Number `k` has been put into service. -/
def Started (h : List (Turn α)) (k : Nat) : Prop := ∃ a, (k, a) ∈ starts 0 h

theorem arrivals_append (h h' : List (Turn α)) :
    arrivals (h ++ h') = arrivals h ++ arrivals h' := by
  induction h with
  | nil => rfl
  | cons t h ih => cases t <;> simp only [List.cons_append, arrivals, ih]

theorem departures_append (h h' : List (Turn α)) :
    departures (h ++ h') = departures h ++ departures h' := by
  induction h with
  | nil => rfl
  | cons t h ih => cases t <;> simp only [List.cons_append, departures, ih]

theorem starts_append (k : Nat) (h h' : List (Turn α)) :
    starts k (h ++ h') = starts k h ++ starts (k + (departures h).length) h' := by
  induction h generalizing k with
  | nil => rfl
  | cons t h ih =>
      cases t <;> simp only [List.cons_append, starts, departures, ih, List.length_cons]
      · rw [Nat.add_assoc, Nat.add_comm 1]
      · rw [Nat.add_assoc, Nat.add_comm 1]

/-- What is conserved along a history. -/
structure Conserved (h : List (Turn α)) (x : Line α) : Prop where
  /-- Whatever arrived has left or is still waiting. -/
  kept : arrivals h = (departures h).map (·.1) ++ x.waiting
  /-- Service is in the order of arrival, and at most once for each arrival. -/
  ordered : (starts 0 h).Pairwise fun s t => s.1 < t.1
  named : ∀ s ∈ starts 0 h, (arrivals h)[s.1]? = some s.2
  /-- Of those that left, exactly the served ones have been in service. -/
  fate : ∀ k d, (departures h)[k]? = some d → (Started h k ↔ d.2 = true)
  /-- Of those waiting, the head is in service while the server is busy, -/
  head : Started h (departures h).length ↔ x.busy = true
  /-- and nobody else is. -/
  rest : ∀ k, (departures h).length < k → ¬ Started h k
  occupied : x.busy = true → x.waiting ≠ []

variable {h : List (Turn α)} {x : Line α} {a : α} {rest : List α} {busy : Bool} {k : Nat}

/-- Only what has left, or is at the head, has been in service. -/
theorem Conserved.started_le (hc : Conserved h x) (hk : Started h k) :
    k ≤ (departures h).length := by
  by_contra hlt
  exact hc.rest k (by omega) hk

theorem Conserved.started_lt (hc : Conserved h ⟨rest, false⟩) (hk : Started h k) :
    k < (departures h).length := by
  have hle := hc.started_le hk
  by_contra hlt
  have heq : k = (departures h).length := by omega
  rw [heq, hc.head] at hk
  cases hk

/-- Somebody may join the line. -/
theorem Conserved.join (hc : Conserved h x) (t : Turn α) {new : List α}
    (harr : arrivals [t] = new) (hdep : departures [t] = []) (hst : ∀ k, starts k [t] = []) :
    Conserved (h ++ [t]) ⟨x.waiting ++ new, x.busy⟩ := by
  have hdep' : departures (h ++ [t]) = departures h := by
    rw [departures_append, hdep, List.append_nil]
  have hst' : starts 0 (h ++ [t]) = starts 0 h := by
    rw [starts_append, hst, List.append_nil]
  have hstarted : ∀ k, Started (h ++ [t]) k ↔ Started h k := by
    intro k
    rw [Started, Started, hst']
  constructor
  · rw [arrivals_append, harr, hdep', hc.kept, List.append_assoc]
  · rw [hst']
    exact hc.ordered
  · intro s hs
    rw [hst'] at hs
    have hold := hc.named s hs
    have hlt : s.1 < (arrivals h).length := (List.getElem?_eq_some_iff.mp hold).1
    rw [arrivals_append, List.getElem?_append_left hlt]
    exact hold
  · intro k d hd
    rw [hdep'] at hd
    rw [hstarted]
    exact hc.fate k d hd
  · rw [hdep', hstarted]
    exact hc.head
  · intro k hk
    rw [hdep'] at hk
    rw [hstarted]
    exact hc.rest k hk
  · intro hbusy
    have hne := hc.occupied hbusy
    simp [hne]

/-- The head is put into service, and it is its first time. -/
theorem Conserved.start (hc : Conserved h ⟨a :: rest, false⟩) :
    Conserved (h ++ [.start a]) ⟨a :: rest, true⟩ := by
  have harr : arrivals (h ++ [.start a]) = arrivals h := by
    rw [arrivals_append, show arrivals [Turn.start a] = [] from rfl, List.append_nil]
  have hdep : departures (h ++ [.start a]) = departures h := by
    rw [departures_append, show departures [Turn.start a] = [] from rfl, List.append_nil]
  have hst : starts 0 (h ++ [.start a]) = starts 0 h ++ [((departures h).length, a)] := by
    rw [starts_append, Nat.zero_add]
    rfl
  have hstarted : ∀ k, Started (h ++ [.start a]) k ↔ Started h k ∨ k = (departures h).length := by
    intro k
    simp only [Started, hst, List.mem_append, List.mem_singleton, Prod.mk.injEq, exists_or,
      exists_and_left, exists_eq, and_true]
  constructor
  · rw [harr, hdep, hc.kept]
  · rw [hst, List.pairwise_append]
    refine ⟨hc.ordered, List.pairwise_singleton _ _, ?_⟩
    intro s hs t ht
    rw [List.mem_singleton.mp ht]
    exact hc.started_lt ⟨s.2, hs⟩
  · intro s hs
    rw [harr]
    rw [hst, List.mem_append, List.mem_singleton] at hs
    rcases hs with hs | rfl
    · exact hc.named s hs
    · have hle : ((departures h).map (·.1)).length ≤ (departures h).length :=
        Nat.le_of_eq (List.length_map _)
      rw [hc.kept, List.getElem?_append_right hle, List.length_map, Nat.sub_self]
      rfl
  · intro k d hd
    rw [hdep] at hd
    have hlt : k < (departures h).length := (List.getElem?_eq_some_iff.mp hd).1
    rw [hstarted, or_iff_left (by omega)]
    exact hc.fate k d hd
  · rw [hdep, hstarted]
    simp
  · intro k hk
    rw [hdep] at hk
    rw [hstarted]
    rintro (hold | heq)
    · exact hc.rest k hk hold
    · omega
  · simp

/-- The head leaves, and it was served exactly when the server was busy. -/
theorem Conserved.leave (hc : Conserved h ⟨a :: rest, busy⟩) (t : Turn α)
    (harr : arrivals [t] = []) (hdep : departures [t] = [(a, busy)])
    (hst : ∀ k, starts k [t] = []) : Conserved (h ++ [t]) ⟨rest, false⟩ := by
  have hstarted : ∀ k, Started (h ++ [t]) k ↔ Started h k := by
    intro k
    rw [Started, Started, starts_append, hst, List.append_nil]
  have hlen : (departures (h ++ [t])).length = (departures h).length + 1 := by
    rw [departures_append, hdep, List.length_append, List.length_singleton]
  constructor
  · rw [arrivals_append, harr, List.append_nil, departures_append, hdep, hc.kept]
    simp
  · rw [starts_append, hst, List.append_nil]
    exact hc.ordered
  · intro s hs
    rw [starts_append, hst, List.append_nil] at hs
    rw [arrivals_append, harr, List.append_nil]
    exact hc.named s hs
  · intro k d hd
    rw [hstarted]
    rw [departures_append, hdep] at hd
    rcases Nat.lt_or_ge k (departures h).length with hlt | hge
    · rw [List.getElem?_append_left hlt] at hd
      exact hc.fate k d hd
    · obtain ⟨hk, hd⟩ : k - (departures h).length = 0 ∧ (a, busy) = d := by
        rw [List.getElem?_append_right hge] at hd
        simpa [List.getElem?_singleton] using hd
      have heq : k = (departures h).length := by omega
      rw [heq, hc.head, ← hd]
  · rw [hlen, hstarted]
    exact iff_of_false (hc.rest _ (by omega)) Bool.false_ne_true
  · intro k hk
    rw [hlen] at hk
    rw [hstarted]
    exact hc.rest k (by omega)
  · intro hbusy
    cases hbusy

/-- Whatever happens to a line, nothing is lost, repeated or out of turn. -/
theorem Serves.conserved (hs : Serves h x) : Conserved h x := by
  induction hs with
  | nil =>
      refine ⟨rfl, .nil, ?_, ?_, ?_, ?_, ?_⟩ <;> simp [starts, departures, Started]
  | snoc _ hstep ih =>
      cases hstep with
      | arrive _ a => exact ih.join (.arrive a) rfl rfl fun _ => rfl
      | start a rest => exact ih.start
      | finish a rest => exact ih.leave (.finish a) rfl rfl fun _ => rfl
      | giveUp a rest => exact ih.leave (.giveUp a) rfl rfl fun _ => rfl
      | other x =>
          have hnone : arrivals [Turn.other] = ([] : List α) := rfl
          have hjoin := ih.join .other hnone rfl fun _ => rfl
          rwa [List.append_nil] at hjoin

end Line

end Lib
