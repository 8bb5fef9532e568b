import NdnEm.Core.Pit
import NdnEm.Lib.History
import NdnEm.Lib.Run

/-!
# The PIT is its history

What a consumption hands out is decided by the calls made so far, not by how
the two-level table happens to be laid out: a face is handed out exactly when
some accepted Interest from it is still unexpired and has not been satisfied
since.

The proof is an invariant in two halves. Every record in the table has a call
in the past that left it there and that no Data has answered since. And every
such call still has its record, unless a cleanup saw its expiry pass. The
second half is where the two comparisons of the source meet: a record the
cleanup dropped had `expire < now'`, the clock has not gone back, and a
consumption asks for `now < expire`.
-/

namespace NdnEm

open Lib

inductive PitOp
  | add (now : Int) (faceId : Int) (i : Interest)
  | consume (now : Int) (name : Name) (out : Finset Int)
  | cleanUp (now : Int)

inductive PitOut
  | added (isNew : Bool)
  | faces (out : Finset Int)
  | done

def PitOp.now : PitOp → Int
  | .add now _ _ => now
  | .consume now _ _ => now
  | .cleanUp now => now

namespace Pit

def apply (t : Pit) : PitOp → Pit × PitOut
  | .add now f i => ((t.addInterest now f i).2, .added (t.addInterest now f i).1)
  | .consume now name out =>
      ((t.consumeInterestWithDataName now name out).1,
       .faces (t.consumeInterestWithDataName now name out).2)
  | .cleanUp now => (t.cleanUp now, .done)

/-- The table as a system of its own: any sequence of the three operations. -/
def system : System Pit PitOp PitOut Fault where
  Enabled _ _ := True
  step t op := .ok (t.apply op)

/-- The operation is an `AddInterest (f, i)` at time `t₀` that returned true. -/
def Accepts (f : Int) (i : Interest) (t₀ : Int) (x : PitOp × PitOut) : Prop :=
  x = (.add t₀ f i, .added true)

/-- The operation consumes no name that extends `n`. -/
def Spares (n : Name) (x : PitOp × PitOut) : Prop :=
  ∀ t₁ m out, x.1 = .consume t₁ m out → ¬ n <+: m

/-- An accepted Interest that no Data has answered since. -/
def Pending (tr : List (PitOp × PitOut)) (f : Int) (i : Interest) (t₀ : Int) : Prop :=
  Since tr (Accepts f i t₀) (Spares i.name)

theorem pending_add {tr : List (PitOp × PitOut)} {now f g : Int} {i j : Interest} {t₀ : Int}
    {b : Bool} :
    Pending (tr ++ [(.add now g j, .added b)]) f i t₀ ↔
      (now = t₀ ∧ g = f ∧ j = i ∧ b = true) ∨ Pending tr f i t₀ := by
  simp [Pending, since_snoc, Accepts, Spares, and_assoc]

theorem pending_consume {tr : List (PitOp × PitOut)} {now f : Int} {i : Interest} {t₀ : Int}
    {name : Name} {out : Finset Int} {o : PitOut} :
    Pending (tr ++ [(.consume now name out, o)]) f i t₀ ↔
      Pending tr f i t₀ ∧ ¬ i.name <+: name := by
  simp [Pending, since_snoc, Accepts, Spares]

theorem pending_cleanUp {tr : List (PitOp × PitOut)} {now f : Int} {i : Interest} {t₀ : Int}
    {o : PitOut} :
    Pending (tr ++ [(.cleanUp now, o)]) f i t₀ ↔ Pending tr f i t₀ := by
  simp [Pending, since_snoc, Accepts, Spares]

/-- A record is explained by a pending Interest. -/
def Explained (tr : List (PitOp × PitOut)) (n : Name) (k : UInt32) (r : FaceRecord) : Prop :=
  ∃ i t₀, Pending tr r.faceId i t₀ ∧ i.name = n ∧ i.nonce = k ∧
    r.expire = t₀ + i.interestLifetime

/-- Every record of the table is explained by the trace. -/
theorem record_explained {tr : List (PitOp × PitOut)} {t : Pit}
    (h : system.Run empty tr t) :
    ∀ n k r, t.record n k = some r → Explained tr n k r := by
  induction h with
  | nil =>
      intro n k r hr
      simp at hr
  | @snoc s₁ s₂ tr op o _ _ hs ih =>
      obtain ⟨rfl, rfl⟩ : (s₁.apply op).1 = s₂ ∧ (s₁.apply op).2 = o := by
        simpa [system, Prod.ext_iff] using hs
      intro n k r hr
      cases op with
      | add now f i =>
          simp only [apply] at hr ⊢
          rw [record_addInterest] at hr
          split at hr
          · -- the record this very call leaves
            next hnew =>
              obtain ⟨⟨rfl, rfl⟩, hnone⟩ := hnew
              obtain rfl := Option.some.inj hr
              exact ⟨i, now, pending_add.mpr (.inl ⟨rfl, rfl, rfl, addInterest_fst.mpr hnone⟩),
                rfl, rfl, rfl⟩
          · obtain ⟨j, t₀, hp, hrest⟩ := ih n k r hr
            exact ⟨j, t₀, pending_add.mpr (.inr hp), hrest⟩
      | consume now name out =>
          simp only [apply] at hr ⊢
          rw [record_consume] at hr
          split at hr
          · simp at hr
          · next hpre =>
              obtain ⟨j, t₀, hp, rfl, hrest⟩ := ih n k r hr
              exact ⟨j, t₀, pending_consume.mpr ⟨hp, hpre⟩, rfl, hrest⟩
      | cleanUp now =>
          simp only [apply] at hr ⊢
          obtain ⟨hr, _⟩ := record_cleanUp_eq_some.mp hr
          obtain ⟨j, t₀, hp, hrest⟩ := ih n k r hr
          exact ⟨j, t₀, pending_cleanUp.mpr hp, hrest⟩

/-- Every pending Interest still has its record, unless a cleanup has seen
its expiry pass. -/
theorem record_of_pending {tr : List (PitOp × PitOut)} {t : Pit}
    (h : system.Run empty tr t) {f : Int} {i : Interest} {t₀ : Int}
    (hp : Pending tr f i t₀) :
    t.record i.name i.nonce = some ⟨f, t₀ + i.interestLifetime⟩ ∨
      ∃ now o, (.cleanUp now, o) ∈ tr ∧ t₀ + i.interestLifetime < now := by
  induction h with
  | nil => exact absurd hp (since_nil _ _)
  | @snoc s₁ s₂ tr op o _ _ hs ih =>
      obtain ⟨rfl, rfl⟩ : (s₁.apply op).1 = s₂ ∧ (s₁.apply op).2 = o := by
        simpa [system, Prod.ext_iff] using hs
      cases op with
      | add now g j =>
          simp only [apply] at hp ⊢
          rcases pending_add.mp hp with ⟨rfl, rfl, rfl, hnew⟩ | hp
          · left
            rw [record_addInterest_of_none (addInterest_fst.mp hnew)]
            simp
          · rcases ih hp with hrec | ⟨now', o', hmem, hlt⟩
            · left
              rw [record_addInterest, hrec]
              simp
            · exact .inr ⟨now', o', by simp [hmem], hlt⟩
      | consume now name out =>
          simp only [apply] at hp ⊢
          obtain ⟨hp, hpre⟩ := pending_consume.mp hp
          rcases ih hp with hrec | ⟨now', o', hmem, hlt⟩
          · left
            rw [record_consume, if_neg hpre, hrec]
          · exact .inr ⟨now', o', by simp [hmem], hlt⟩
      | cleanUp now =>
          simp only [apply] at hp ⊢
          rcases ih (pending_cleanUp.mp hp) with hrec | ⟨now', o', hmem, hlt⟩
          · by_cases hexp : t₀ + i.interestLifetime < now
            · exact .inr ⟨now, .done, by simp, hexp⟩
            · exact .inl (record_cleanUp_eq_some.mpr ⟨hrec, by simpa using hexp⟩)
          · exact .inr ⟨now', o', by simp [hmem], hlt⟩

/-- The faces a consumption hands out are those of the pending, unexpired
Interests whose name is a prefix of the Data's, and the entries of all other
names stay as they are. -/
theorem consume_eq_history {tr : List (PitOp × PitOut)} {t : Pit}
    (hrun : system.Run empty tr t) (now : Int) (hclk : ∀ x ∈ tr, x.1.now ≤ now)
    (name : Name) (out : Finset Int) :
    (∀ f, f ∈ (t.consumeInterestWithDataName now name out).2 ↔
      f ∈ out ∨ ∃ i t₀, Pending tr f i t₀ ∧ i.name <+: name ∧
        now < t₀ + i.interestLifetime) ∧
    ∀ n, ¬ n <+: name →
      (t.consumeInterestWithDataName now name out).1.pit.find n = t.pit.find n := by
  refine ⟨fun f => ?_, fun n hn => find_consume_of_not_prefix hn⟩
  rw [mem_consume]
  refine or_congr_right ⟨?_, ?_⟩
  · rintro ⟨n, k, r, hpre, hrec, hexp, rfl⟩
    obtain ⟨i, t₀, hp, rfl, _, hr⟩ := record_explained hrun n k r hrec
    exact ⟨i, t₀, hp, hpre, hr ▸ hexp⟩
  · rintro ⟨i, t₀, hp, hpre, hexp⟩
    rcases record_of_pending hrun hp with hrec | ⟨now', o, hmem, hlt⟩
    · exact ⟨i.name, i.nonce, _, hpre, hrec, hexp, rfl⟩
    · have hle : now' ≤ now := hclk _ hmem
      omega

instance (t : Pit) (op : PitOp) : Decidable (system.Enabled t op) :=
  inferInstanceAs (Decidable True)

end Pit

end NdnEm
