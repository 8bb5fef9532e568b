import Mathlib.Data.Int.Order.Basic
import NdnEm.Lib.FinMap
import NdnEm.Core.Packet

/-!
# The pending-interest table

Two levels: a name leads to an entry, and a nonce within the entry leads to
the face the Interest came from and the time it expires. The entry also keeps
the Interest object in the source, which nothing reads back.

Three things are worth noticing before reading the proofs. A nonce is refused
whether or not its record has expired; a record counts for an arriving Data
only while its expiry is still ahead; and the periodic cleanup drops a record
only once its expiry is strictly behind. The two comparisons differ, and a
record at its exact expiry is neither consumed nor collected.
-/

namespace NdnEm

open Lib

structure FaceRecord where
  faceId : Int
  expire : Int
deriving DecidableEq, Repr

structure PitEntry where
  nonceTable : FinMap UInt32 FaceRecord
deriving DecidableEq

/-- Refuse a nonce that is in the table; record any other. -/
def PitEntry.addNonce (e : PitEntry) (nonce : UInt32) (faceId : Int) (expire : Int) :
    Bool × PitEntry :=
  match e.nonceTable.find nonce with
  | none => (true, ⟨e.nonceTable.insert nonce ⟨faceId, expire⟩⟩)
  | some _ => (false, e)

structure Pit where
  pit : FinMap Name PitEntry
deriving DecidableEq

namespace Pit

def empty : Pit := ⟨∅⟩

/-- The record under a name and a nonce. -/
def record (t : Pit) (n : Name) (k : UInt32) : Option FaceRecord :=
  (t.pit.find n).bind fun e => e.nonceTable.find k

/-- `now` is the clock reading the expiry is computed from. -/
def addInterest (t : Pit) (now : Int) (faceId : Int) (i : Interest) : Bool × Pit :=
  let expire := now + i.interestLifetime
  match t.pit.find i.name with
  | none =>
      let entry := ((⟨∅⟩ : PitEntry).addNonce i.nonce faceId expire).2
      (true, ⟨t.pit.insert i.name entry⟩)
  | some entry =>
      let r := entry.addNonce i.nonce faceId expire
      (r.1, ⟨t.pit.insert i.name r.2⟩)

/-- Visit every entry; one whose name is a prefix of `name` gives its
unexpired faces to `out` and is erased. -/
def consumeInterestWithDataName (t : Pit) (now : Int) (name : Name) (out : Finset Int) :
    Pit × Finset Int :=
  (⟨t.pit.filterMap fun n e => if n.isPrefixOf name then none else some e⟩,
   out ∪ t.pit.collect fun n e =>
     if n.isPrefixOf name then
       e.nonceTable.collect fun _ r => if r.expire > now then {r.faceId} else ∅
     else ∅)

/-- Drop the records whose expiry is behind, then the entries left empty. -/
def cleanUp (t : Pit) (now : Int) : Pit :=
  ⟨t.pit.filterMap fun _ e =>
    let nonces := e.nonceTable.filterMap fun _ r => if r.expire < now then none else some r
    if nonces.keys = ∅ then none else some ⟨nonces⟩⟩

@[simp] theorem record_empty (n : Name) (k : UInt32) : empty.record n k = none := rfl

/-- What `addInterest` does, in terms of records: a nonce that is recorded
under the name is refused and nothing changes. -/
theorem addInterest_of_record {t : Pit} {now : Int} {f : Int} {i : Interest} {r : FaceRecord}
    (h : t.record i.name i.nonce = some r) : t.addInterest now f i = (false, t) := by
  obtain ⟨e, he, hr⟩ := Option.bind_eq_some_iff.mp h
  have hins : t.pit.insert i.name e = t.pit := by
    refine FinMap.ext fun n => ?_
    by_cases hn : n = i.name
    · subst hn; simp [he]
    · simp [hn]
  simp [addInterest, he, PitEntry.addNonce, hr, hins]

theorem addInterest_fst_of_none {t : Pit} {now : Int} {f : Int} {i : Interest}
    (h : t.record i.name i.nonce = none) : (t.addInterest now f i).1 = true := by
  unfold record at h
  unfold addInterest
  cases he : t.pit.find i.name with
  | none => rfl
  | some e =>
      have hr : e.nonceTable.find i.nonce = none := by simpa [he] using h
      simp [PitEntry.addNonce, hr]

/-- A nonce that is new under its name gets a record, and no other record
changes. -/
theorem record_addInterest_of_none {t : Pit} {now : Int} {f : Int} {i : Interest}
    (h : t.record i.name i.nonce = none) (n : Name) (k : UInt32) :
    (t.addInterest now f i).2.record n k =
      if n = i.name ∧ k = i.nonce then some ⟨f, now + i.interestLifetime⟩
      else t.record n k := by
  unfold record at h ⊢
  unfold addInterest
  cases he : t.pit.find i.name with
  | none =>
      by_cases hn : n = i.name
      · subst hn
        by_cases hk : k = i.nonce <;> simp [PitEntry.addNonce, he, hk]
      · simp [PitEntry.addNonce, hn]
  | some e =>
      have hr : e.nonceTable.find i.nonce = none := by simpa [he] using h
      by_cases hn : n = i.name
      · subst hn
        by_cases hk : k = i.nonce <;> simp [PitEntry.addNonce, hr, he, hk]
      · simp [PitEntry.addNonce, hr, hn]

/-- The boolean of `addInterest` says whether the nonce was new. -/
theorem addInterest_fst {t : Pit} {now : Int} {f : Int} {i : Interest} :
    (t.addInterest now f i).1 = true ↔ t.record i.name i.nonce = none := by
  constructor
  · intro h
    cases hr : t.record i.name i.nonce with
    | none => rfl
    | some r => rw [addInterest_of_record hr] at h; simp at h
  · exact addInterest_fst_of_none

theorem record_addInterest (t : Pit) (now : Int) (f : Int) (i : Interest) (n : Name)
    (k : UInt32) :
    (t.addInterest now f i).2.record n k =
      if (n = i.name ∧ k = i.nonce) ∧ t.record n k = none
      then some ⟨f, now + i.interestLifetime⟩ else t.record n k := by
  cases h : t.record i.name i.nonce with
  | none =>
      rw [record_addInterest_of_none h]
      by_cases hnk : n = i.name ∧ k = i.nonce
      · obtain ⟨rfl, rfl⟩ := hnk; simp [h]
      · simp [hnk]
  | some r =>
      rw [addInterest_of_record h]
      by_cases hnk : n = i.name ∧ k = i.nonce
      · obtain ⟨rfl, rfl⟩ := hnk; simp [h]
      · simp [hnk]

/-- Consumption erases the records of the prefixes of the name, and only
those. -/
theorem record_consume (t : Pit) (now : Int) (name : Name) (out : Finset Int) (n : Name)
    (k : UInt32) :
    (t.consumeInterestWithDataName now name out).1.record n k =
      if n <+: name then none else t.record n k := by
  unfold record consumeInterestWithDataName
  cases he : t.pit.find n with
  | none => simp [he]
  | some e => by_cases hp : n <+: name <;> simp [he, hp]

/-- A whole entry whose name is not a prefix of the Data's is untouched. -/
theorem find_consume_of_not_prefix {t : Pit} {now : Int} {name : Name} {out : Finset Int}
    {n : Name} (h : ¬ n <+: name) :
    (t.consumeInterestWithDataName now name out).1.pit.find n = t.pit.find n := by
  unfold consumeInterestWithDataName
  cases he : t.pit.find n with
  | none => simp [he]
  | some e => simp [he, h]

/-- The faces a consumption adds are those of the unexpired records under the
prefixes of the name. -/
theorem mem_consume {t : Pit} {now : Int} {name : Name} {out : Finset Int} {f : Int} :
    f ∈ (t.consumeInterestWithDataName now name out).2 ↔
      f ∈ out ∨ ∃ n k r, n <+: name ∧ t.record n k = some r ∧ now < r.expire ∧
        r.faceId = f := by
  unfold consumeInterestWithDataName
  rw [Finset.mem_union, FinMap.mem_collect]
  refine or_congr_right ⟨?_, ?_⟩
  · rintro ⟨n, e, he, hf⟩
    split at hf
    · next hp =>
        obtain ⟨k, r, hr, hf⟩ := FinMap.mem_collect.mp hf
        split at hf
        · next hexp =>
            refine ⟨n, k, r, List.isPrefixOf_iff_prefix.mp hp, ?_, hexp, ?_⟩
            · simp [record, he, hr]
            · exact (Finset.mem_singleton.mp hf).symm
        · simp at hf
    · simp at hf
  · rintro ⟨n, k, r, hp, hr, hexp, rfl⟩
    obtain ⟨e, he, hr⟩ := Option.bind_eq_some_iff.mp hr
    refine ⟨n, e, he, ?_⟩
    rw [if_pos (List.isPrefixOf_iff_prefix.mpr hp), FinMap.mem_collect]
    exact ⟨k, r, hr, by rw [if_pos hexp]; exact Finset.mem_singleton_self _⟩

/-- Cleanup drops a record exactly when its expiry is behind. -/
theorem record_cleanUp (t : Pit) (now : Int) (n : Name) (k : UInt32) :
    (t.cleanUp now).record n k =
      (t.record n k).bind fun r => if r.expire < now then none else some r := by
  unfold record cleanUp
  cases he : t.pit.find n with
  | none => simp [he]
  | some e =>
      simp only [FinMap.find_filterMap, he, Option.bind_some]
      split
      · next hempty =>
          have : k ∉ (e.nonceTable.filterMap fun _ r =>
              if r.expire < now then none else some r).keys := by simp [hempty]
          rw [FinMap.notMem_keys, FinMap.find_filterMap] at this
          simpa using this.symm
      · simp

theorem record_cleanUp_eq_some {t : Pit} {now : Int} {n : Name} {k : UInt32} {r : FaceRecord} :
    (t.cleanUp now).record n k = some r ↔ t.record n k = some r ∧ now ≤ r.expire := by
  rw [record_cleanUp, Option.bind_eq_some_iff]
  constructor
  · rintro ⟨r', hr', h⟩
    split at h
    · simp at h
    · obtain rfl := Option.some.inj h
      exact ⟨hr', by omega⟩
  · rintro ⟨hr, hle⟩
    exact ⟨r, hr, if_neg (by omega)⟩

end Pit

end NdnEm
