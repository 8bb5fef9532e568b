import NdnEm.Proofs.ConfigStep
import NdnEm.Proofs.ContentStore

/-!
# The configured size of a content store

A configuration gives the size in KB. It is shifted as an `int`, which keeps
its 32 low bits, and compared as a `size_t`, which makes a negative limit
larger than any Data. So a size from 0 to 2 ^ 21 - 1 KB is what the store keeps
to, and any other is not: the store has no limit, or one that has nothing to do
with the configured size, except that a negative size whose shift leaves
nothing gives a store that holds nothing.
-/

namespace NdnEm

open Lib

/-- The size a node is configured with, in KB. -/
def NodeConfig.cacheSize (c : NodeConfig) : Int := c.cacheLimit.getD 100

namespace Emulator

variable {em em' : Emulator} {nodes : List NodeConfig}

/-- Every configured node has a new store, with its size in bytes for limit. -/
def Stores (nodes : List NodeConfig) (em : Emulator) : Prop :=
  ∀ c ∈ nodes, ∃ n, em.nodeTable.find c.id = some n ∧
    n.cacheManager = CacheManager.new (toInt (c.cacheSize * 2 ^ 10))

theorem readNode_store {mac mac' : MacAddr} {c : NodeConfig}
    (h : em.readNode mac c = .ok (em', mac')) :
    em.nodeTable.find c.id = none ∧ ∃ n, em'.nodeTable = em.nodeTable.insert c.id n ∧
      n.cacheManager = CacheManager.new (toInt (c.cacheSize * 2 ^ 10)) := by
  unfold readNode at h
  split at h
  · cases h
  · next hnone =>
      simp only [] at h
      split at h
      · cases h
      · next em₁ n mac₁ hdevs =>
          obtain ⟨rfl, _⟩ := Prod.mk.inj (Except.ok.inj h)
          obtain ⟨⟨htab, hcache⟩, _⟩ := readDevices_preserves
            (Q := fun a m => a.nodeTable = em.nodeTable ∧
              m.cacheManager = CacheManager.new (toInt (c.cacheSize * 2 ^ 10)))
            (fun a m id l hq => hq) (fun a m dev mac link hq _ _ => hq) ⟨rfl, rfl⟩ hdevs
          refine ⟨hnone, n, ?_, hcache⟩
          rw [← htab]
          rfl

/-- A node that was read is not read again. -/
theorem readNodes_stores {mac : MacAddr} (h : readNodes em mac nodes = .ok em') :
    (∀ id n, em.nodeTable.find id = some n → em'.nodeTable.find id = some n) ∧
      em'.Stores nodes := by
  induction nodes generalizing em mac with
  | nil =>
      obtain rfl := Except.ok.inj h
      exact ⟨fun _ _ hn => hn, by simp [Stores]⟩
  | cons c cs ih =>
      rw [readNodes] at h
      split at h
      · cases h
      · next em₁ mac₁ hread =>
          obtain ⟨hnone, n, htab, hcache⟩ := readNode_store hread
          obtain ⟨hkept, hstores⟩ := ih h
          constructor
          · intro id m hm
            refine hkept id m ?_
            rw [htab, FinMap.find_insert_ne]
            · exact hm
            · rintro rfl
              rw [hnone] at hm
              cases hm
          · intro c' hc'
            rcases List.mem_cons.mp hc' with rfl | hc'
            · exact ⟨n, hkept _ _ (by rw [htab, FinMap.find_insert_self]), hcache⟩
            · exact hstores c' hc'

theorem Stores.setNode {id : String} {n n' : Node} (h : em.Stores nodes)
    (hn : em.nodeTable.find id = some n) (hcache : n'.cacheManager = n.cacheManager) :
    (em.setNode id n').Stores nodes := by
  intro c hc
  obtain ⟨m, hm, hm'⟩ := h c hc
  by_cases hid : c.id = id
  · rw [hid, hn] at hm
    obtain rfl := Option.some.inj hm
    exact ⟨n', by rw [hid]; exact FinMap.find_insert_self _ _ _, hcache.trans hm'⟩
  · exact ⟨m, (FinMap.find_insert_ne hid).trans hm, hm'⟩

theorem stores_config {c : Config} (h : readNetworkConfig c = .ok em) : em.Stores c.nodes := by
  obtain ⟨em₁, em₂, h₁, h₂, h₃⟩ := readNetworkConfig_cases h
  have htop : em₁.Stores c.nodes := by
    unfold readTopology at h₁
    split at h₁
    · cases h₁
    · exact (readNodes_stores h₁).2
  have hroutes : em₂.Stores c.nodes := by
    refine readAll_preserves (fun a x b _ ha hread => ?_) htop h₂
    obtain ⟨hop, n, n', _, hn, hadd, rfl⟩ := readRoute_cases hread
    refine ha.setNode hn ?_
    obtain ⟨d, hd, ⟨face, _, rfl⟩ | ⟨_, rfl⟩⟩ := addRoute_cases hadd <;> rfl
  exact readAll_preserves (fun a x b _ ha hread => readMatrix_preserves
    (fun a id l h => h) ha hread) hroutes h₃

end Emulator

namespace CacheManager

variable {c c' : CacheManager} {K limit : Int}

/-- What a size of `K` KB promises, after any insertions: the Data held are
within it, and every Data within it is stored. -/
def RespectsSize (K : Int) (c : CacheManager) : Prop :=
  ∀ ins : List Insertion, ∃ c', c.insertAll ins = .ok c' ∧
    ((c'.queue.map CacheEntry.size).sum : Int) ≤ max K 0 * 1024 ∧
    ∀ x : Insertion, (x.data.size : Int) ≤ K * 1024 →
      ∃ c'', c'.insert x.now x.data = .ok c'' ∧ x.entry ∈ c''.queue

/-- A limit that is the size is kept to. -/
theorem respectsSize_of_limit (hlo : 0 ≤ limit) (hhi : limit < 2 ^ 31)
    (hmax : limit ≤ max K 0 * 1024) (hmin : 0 ≤ K → K * 1024 ≤ limit) :
    (new limit).RespectsSize K := by
  intro ins
  obtain ⟨c, held, hc, hholds⟩ := insertAll_holds hlo hhi ins
  have hacc := hholds.accounted hlo
  have hwithin := hacc.within
  refine ⟨c, hc, ?_, ?_⟩
  · rw [total] at hwithin
    omega
  · intro x hx
    obtain ⟨t, _, hins⟩ := hacc.insert_fits x.now (d := x.data) hlo hhi (by omega)
    exact ⟨_, hins, List.mem_append_right _ (List.mem_singleton_self _)⟩

theorem insertAll_one (x : Insertion) : c.insertAll [x] = c.insert x.now x.data := by
  unfold insertAll
  rw [List.foldlM_cons]
  cases c.insert x.now x.data <;> rfl

/-- One Data goes into a new store if `size_t` says that it fits. -/
theorem insert_new {x : Insertion} (hfits : x.data.size ≤ toSize limit)
    (hsize : x.data.size < 2 ^ 64) :
    (new limit).insertAll [x] = .ok ⟨[x.entry], toInt x.data.size, limit⟩ := by
  have hzero : toSize 0 = 0 := rfl
  have hroom : ¬ exceeds 0 x.data.size limit = true := by
    rw [exceeds, hzero, Nat.zero_add, Nat.mod_eq_of_lt hsize, decide_eq_true_iff]
    omega
  rw [insertAll_one, insert, if_neg (by show ¬ x.data.size > toSize limit; omega)]
  simp only [new]
  rw [evict, if_neg hroom]
  simp only [hzero, Int.natCast_zero, Int.zero_add]
  rfl

/-- A Data of that size. -/
def sized (n : Nat) : Insertion := ⟨0, ⟨[], 0, [], n⟩⟩

/-- A store that takes a Data beyond the size does not respect it. -/
theorem not_respectsSize_of_room {n : Nat} (hfits : n ≤ toSize limit) (hsize : n < 2 ^ 64)
    (hbig : max K 0 * 1024 < n) : ¬ (new limit).RespectsSize K := by
  intro h
  obtain ⟨c, hc, hsum, _⟩ := h [sized n]
  have hone : (new limit).insertAll [sized n] = .ok ⟨[(sized n).entry], toInt n, limit⟩ :=
    insert_new hfits hsize
  rw [hone] at hc
  obtain rfl := Except.ok.inj hc
  have hn : ([(sized n).entry].map CacheEntry.size).sum = n := by simp [sized]
  rw [hn] at hsum
  omega

/-- A store that rejects a Data within the size does not respect it. -/
theorem not_respectsSize_of_rejects {n : Nat} (hrejects : toSize limit < n)
    (hsmall : (n : Int) ≤ K * 1024) : ¬ (new limit).RespectsSize K := by
  intro h
  obtain ⟨c, hc, _, hstored⟩ := h []
  obtain rfl := Except.ok.inj hc
  obtain ⟨c', hc', hmem⟩ := hstored (sized n) hsmall
  have hsame : (new limit).insert 0 (sized n).data = .ok (new limit) := by
    rw [insert, if_pos (show (sized n).data.size > toSize (new limit).limit from hrejects)]
  obtain rfl := Except.ok.inj (hsame.symm.trans hc')
  cases hmem

/-- The sizes that are kept to. -/
def Sane (K : Int) : Prop := (0 ≤ K ∧ K < 2 ^ 21) ∨ (K < 0 ∧ 2 ^ 22 ∣ K)

theorem respectsSize_iff (hlo : -(2 ^ 31) ≤ K) (hhi : K < 2 ^ 31) :
    (new (toInt (K * 2 ^ 10))).RespectsSize K ↔ Sane K := by
  have hlim := toInt_eq (K * 2 ^ 10)
  have hrange : -(2 ^ 31) ≤ toInt (K * 2 ^ 10) ∧ toInt (K * 2 ^ 10) < 2 ^ 31 := by
    split at hlim <;> omega
  constructor
  · intro h
    by_contra hnot
    unfold Sane at hnot
    rcases Int.lt_or_le (toInt (K * 2 ^ 10)) 0 with hneg | hnn
    · -- as a size_t, the limit is above every Data of any configured size
      have hto : (toSize (toInt (K * 2 ^ 10)) : Int) = 2 ^ 64 + toInt (K * 2 ^ 10) := by
        unfold toSize
        omega
      have hfits : (max K 0 * 1024 + 1).toNat ≤ toSize (toInt (K * 2 ^ 10)) := by omega
      exact not_respectsSize_of_room hfits (by omega) (by omega) h
    · have hto : (toSize (toInt (K * 2 ^ 10)) : Int) = toInt (K * 2 ^ 10) :=
        toSize_of_range hnn (by omega)
      rcases Int.lt_or_le K 0 with hK | hK
      · have hpos : toInt (K * 2 ^ 10) ≠ 0 := by
          intro hzero
          refine hnot (.inr ⟨hK, ?_⟩)
          split at hlim <;> omega
        have hfits : 1 ≤ toSize (toInt (K * 2 ^ 10)) := by omega
        exact not_respectsSize_of_room hfits (by omega) (by omega) h
      · have hrejects : toSize (toInt (K * 2 ^ 10)) < toSize (toInt (K * 2 ^ 10)) + 1 :=
          Nat.lt_succ_self _
        exact not_respectsSize_of_rejects hrejects (by omega) h
  · rintro (⟨h0, h21⟩ | ⟨hneg, hdvd⟩)
    · rw [toInt_of_range (by omega) (by omega)]
      exact respectsSize_of_limit (by omega) (by omega) (by omega) (by omega)
    · have hzero : toInt (K * 2 ^ 10) = 0 := by
        split at hlim <;> omega
      rw [hzero]
      exact respectsSize_of_limit (by omega) (by omega) (by omega) (by omega)

end CacheManager

namespace Emulator

open CacheManager

/-- **The configured cache size is respected** exactly when it is one of the
sane sizes. -/
theorem cache_size_respected_iff {c : Config} {em : Emulator} {nc : NodeConfig} {n : Node}
    (hc : readNetworkConfig c = .ok em) (hnc : nc ∈ c.nodes)
    (hn : em.nodeTable.find nc.id = some n) (hlo : -(2 ^ 31) ≤ nc.cacheSize)
    (hhi : nc.cacheSize < 2 ^ 31) :
    n.cacheManager.RespectsSize nc.cacheSize ↔ Sane nc.cacheSize := by
  obtain ⟨m, hm, hstore⟩ := stores_config hc nc hnc
  obtain rfl := Option.some.inj (hn.symm.trans hm)
  rw [hstore]
  exact respectsSize_iff hlo hhi

theorem cache_size_respected_pair : ∃ em n, readNetworkConfig pairConfig = .ok em ∧
    em.nodeTable.find "n0" = some n ∧ (n.cacheManager.RespectsSize 100 ↔ Sane 100) := by
  obtain ⟨em, n, hc, hn⟩ : ∃ em n, readNetworkConfig pairConfig = .ok em ∧
      em.nodeTable.find "n0" = some n := ⟨_, _, rfl, rfl⟩
  exact ⟨em, n, hc, hn, cache_size_respected_iff hc List.mem_cons_self hn (by decide) (by decide)⟩

/-- A node that is told to cache less than nothing. -/
def negativeConfig : Config where
  links := []
  nodes := [⟨"n0", some (-1), [], []⟩]
  matrices := []

theorem negative_size_ignored : ∃ em n, readNetworkConfig negativeConfig = .ok em ∧
    em.nodeTable.find "n0" = some n ∧
    (∃ c', n.cacheManager.insertAll [sized 100] = .ok c' ∧
      (c'.queue.map CacheEntry.size).sum = 100) ∧
    ¬ n.cacheManager.RespectsSize (-1) := by
  refine ⟨_, _, rfl, rfl, ⟨_, rfl, rfl⟩, ?_⟩
  intro h
  obtain ⟨c', hc', hsum, _⟩ := h [sized 100]
  obtain rfl := Except.ok.inj hc'
  revert hsum
  decide

end Emulator

end NdnEm
