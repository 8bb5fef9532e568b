import NdnEm.Lib.Run
import NdnEm.Proofs.ContentStore

/-!
# The count of the content store is exact

The store keeps a running count of sizes in an `int` and compares it, with the
sizes and the limit, in `size_t`. As long as the count is the sum of the sizes
held and within the limit, every number that is converted or computed is in the
range of its type, so the comparisons decide what they say and nothing wraps.
Eviction then stops in time: a queue that is empty counts nothing, and beside
nothing every Data that was not rejected fits.
-/

namespace NdnEm

open Lib

/-- The numbers that `int` represents, and those that `size_t` does. -/
def FitsInt (n : Int) : Prop := -(2 ^ 31) ≤ n ∧ n < 2 ^ 31
def FitsSize (n : Int) : Prop := 0 ≤ n ∧ n < 2 ^ 64

namespace CacheManager

variable {c c' : CacheManager} {limit : Int} {sz : Nat} {q : List CacheEntry}

/-! ## Arithmetic that neither wraps nor truncates -/

section Exact

variable (count : Int) (sz : Nat) (limit : Int)

/-- `m_count + sz > m_limit`, with the conversions of both `int`s. -/
def CompareExact : Prop := FitsSize count ∧ FitsSize (count + sz) ∧ FitsSize limit

/-- `m_count -= sz`: to `size_t`, the difference, and back to `int`. -/
def SubExact : Prop := FitsSize count ∧ FitsSize (count - sz) ∧ FitsInt (count - sz)

/-- `m_count += sz`. -/
def AddExact : Prop := FitsSize count ∧ FitsSize (count + sz) ∧ FitsInt (count + sz)

end Exact

/-- In every round of the eviction loop. -/
def EvictExact (sz : Nat) (limit : Int) : List CacheEntry → Int → Prop
  | [], count => CompareExact count sz limit
  | e :: rest, count =>
      CompareExact count sz limit ∧
        (exceeds count sz limit = true →
          SubExact count e.size ∧ EvictExact sz limit rest (count - e.size))

/-- In a call of `Insert`; a Data that is too big is only compared. -/
def InsertExact (c : CacheManager) (d : Data) : Prop :=
  FitsSize c.limit ∧ (d.size ≤ toSize c.limit →
    EvictExact d.size c.limit c.queue c.count ∧
    ∀ queue count, evict d.size c.limit c.queue c.count = .ok (queue, count) →
      AddExact count d.size)

/-- In every round of the cleanup loop. -/
def PurgeExact (now : Int) : List CacheEntry → Int → Prop
  | [], _ => True
  | e :: rest, count =>
      if e.expire < now then SubExact count e.size ∧ PurgeExact now rest (count - e.size)
      else PurgeExact now rest count

/-! ## Insertion -/

theorem evictExact_total (hlo : 0 ≤ limit) (hhi : limit < 2 ^ 31) (hsz : (sz : Int) ≤ limit)
    (hcount : (total CacheEntry.size q : Int) ≤ limit) :
    EvictExact sz limit q (total CacheEntry.size q) := by
  have hcompare : CompareExact (total CacheEntry.size q) sz limit :=
    ⟨⟨by omega, by omega⟩, ⟨by omega, by omega⟩, hlo, by omega⟩
  induction q with
  | nil => exact hcompare
  | cons e q ih =>
      have hsum : total CacheEntry.size (e :: q) = e.size + total CacheEntry.size q := total_cons
      have hrest : (total CacheEntry.size (e :: q) : Int) - e.size = total CacheEntry.size q := by
        omega
      refine ⟨hcompare, ?_⟩
      intro _
      refine ⟨⟨hcompare.1, ?_, ?_⟩, ?_⟩
      · exact ⟨by omega, by omega⟩
      · exact ⟨by omega, by omega⟩
      · rw [hrest]
        exact ih (by omega) ⟨⟨by omega, by omega⟩, ⟨by omega, by omega⟩, hlo, by omega⟩

theorem Accounted.insertExact (hlo : 0 ≤ limit) (hhi : limit < 2 ^ 31) (h : Accounted limit c)
    (d : Data) : c.InsertExact d := by
  have hlim := h.limit_eq
  have hl : (toSize limit : Int) = limit := toSize_of_range hlo (by omega)
  refine ⟨⟨by omega, by omega⟩, ?_⟩
  rw [hlim, h.count]
  intro hfits
  refine ⟨evictExact_total hlo hhi (by omega) h.within, ?_⟩
  intro queue count hevict
  obtain ⟨t, ht, hfit⟩ := evict_spec hlo hhi (by omega : (d.size : Int) ≤ limit) h.within
  obtain ⟨rfl, rfl⟩ := Prod.mk.inj (Except.ok.inj (ht.symm.trans hevict))
  have hroom := hfit.fits
  exact ⟨⟨by omega, by omega⟩, ⟨by omega, by omega⟩, by omega, by omega⟩

theorem Accounted.insert (hlo : 0 ≤ limit) (hhi : limit < 2 ^ 31) (h : Accounted limit c)
    (now : Int) (d : Data) : ∃ c', c.insert now d = .ok c' ∧ Accounted limit c' := by
  have hlim := h.limit_eq
  by_cases hfits : (d.size : Int) ≤ limit
  · obtain ⟨t, hfit, hins⟩ := h.insert_fits now hlo hhi hfits
    have hroom := hfit.fits
    refine ⟨_, hins, rfl, rfl, ?_⟩
    have hsize : (⟨d, d.size, now + d.freshnessPeriod⟩ : CacheEntry).size = d.size := rfl
    rw [total_append, total_cons, total_nil, hsize]
    omega
  · exact ⟨c, insert_too_big (by omega) (by omega) (by omega), h⟩

/-! ## Cleanup -/

/-- What is not yet expired. -/
def unexpired (now : Int) (q : List CacheEntry) : List CacheEntry :=
  q.filter fun e => ¬ e.expire < now

/-- The loop counts off what it erases; `k` is the count of what it has passed. -/
theorem purge_spec (now : Int) {k : Nat} (hcount : (k + total CacheEntry.size q : Int) < 2 ^ 31) :
    purge now q (k + total CacheEntry.size q : Int) =
        (unexpired now q, (k + total CacheEntry.size (unexpired now q) : Int)) ∧
      PurgeExact now q (k + total CacheEntry.size q : Int) := by
  induction q generalizing k with
  | nil => exact ⟨rfl, trivial⟩
  | cons e q ih =>
      have hsum : total CacheEntry.size (e :: q) = e.size + total CacheEntry.size q := total_cons
      by_cases hexp : e.expire < now
      · obtain ⟨hpurge, hexact⟩ := ih (k := k) (by omega)
        have hto : (toSize (k + total CacheEntry.size (e :: q) : Int) : Int) =
            k + total CacheEntry.size (e :: q) := toSize_of_range (by omega) (by omega)
        have hrest : (k + total CacheEntry.size (e :: q) : Int) - e.size =
            k + total CacheEntry.size q := by omega
        have hkept : unexpired now (e :: q) = unexpired now q := by
          simp [unexpired, hexp]
        constructor
        · rw [purge, if_pos hexp, hto, hrest, toInt_of_range (by omega) (by omega), hkept]
          exact hpurge
        · rw [PurgeExact, if_pos hexp, hrest]
          refine ⟨⟨⟨by omega, by omega⟩, ?_, ?_⟩, hexact⟩
          · exact ⟨by omega, by omega⟩
          · exact ⟨by omega, by omega⟩
      · obtain ⟨hpurge, hexact⟩ := ih (k := k + e.size) (by omega)
        have hkept : unexpired now (e :: q) = e :: unexpired now q := by
          simp [unexpired, List.filter_cons, hexp]
        have hpast : (k + total CacheEntry.size (e :: q) : Int) =
            ((k + e.size : Nat) + total CacheEntry.size q : Int) := by omega
        constructor
        · rw [purge, if_neg hexp, hpast, hpurge, hkept, total_cons]
          simp only [Prod.mk.injEq, true_and]
          omega
        · rw [PurgeExact, if_neg hexp, hpast]
          exact hexact

theorem Accounted.cleanUp (hhi : limit < 2 ^ 31) (h : Accounted limit c) (error : Bool)
    (now : Int) : Accounted limit (c.cleanUp error now) ∧ PurgeExact now c.queue c.count := by
  have hwithin := h.within
  obtain ⟨hpurge, hexact⟩ := purge_spec now (q := c.queue) (k := 0) (by omega)
  simp only [Int.natCast_zero, Int.zero_add] at hpurge hexact
  rw [h.count]
  refine ⟨?_, hexact⟩
  cases error with
  | true => exact h
  | false =>
      have hclean : c.cleanUp false now = ⟨unexpired now c.queue,
          total CacheEntry.size (unexpired now c.queue), c.limit⟩ := by
        rw [CacheManager.cleanUp, if_neg Bool.false_ne_true, h.count, hpurge]
      rw [hclean]
      have hle : total CacheEntry.size (c.queue.filter fun e => ¬ e.expire < now) ≤
          total CacheEntry.size c.queue := total_filter_le _
      refine ⟨h.limit_eq, rfl, ?_⟩
      show (total CacheEntry.size (unexpired now c.queue) : Int) ≤ limit
      rw [unexpired]
      omega

/-! ## Any calls -/

inductive StoreOp
  | insert (now : Int) (d : Data)
  | cleanUp (error : Bool) (now : Int)
deriving DecidableEq, Repr

/-- The store as a system of its own: any sequence of the two operations. -/
def system : System CacheManager StoreOp Unit Fault where
  Enabled _ _ := True
  step c
    | .insert now d => (c.insert now d).map fun c' => (c', ())
    | .cleanUp error now => .ok (c.cleanUp error now, ())

/-- No number of the call wraps or is truncated. -/
def CallExact (c : CacheManager) : StoreOp → Prop
  | .insert _ d => c.InsertExact d
  | .cleanUp error now => error = false → PurgeExact now c.queue c.count

theorem accounted_step (hlo : 0 ≤ limit) (hhi : limit < 2 ^ 31) (h : Accounted limit c)
    (op : StoreOp) : CallExact c op ∧ ∃ c', system.step c op = .ok (c', ()) ∧ Accounted limit c' := by
  cases op with
  | insert now d =>
      obtain ⟨c', hins, hc'⟩ := h.insert hlo hhi now d
      refine ⟨h.insertExact hlo hhi d, c', ?_, hc'⟩
      show (c.insert now d).map _ = _
      rw [hins]
      rfl
  | cleanUp error now =>
      obtain ⟨hc', hexact⟩ := h.cleanUp hhi error now
      exact ⟨fun _ => hexact, _, rfl, hc'⟩

/-- **The accounting of the store is exact, and eviction is safe.** After any
calls of `Insert` and `CleanUp` the count is the sum of the sizes held and
within the limit; and the next call, whichever it is, computes with numbers in
range and returns, so it takes no front of an empty queue. -/
theorem accounting_exact (hlo : 0 ≤ limit) (hhi : limit ≤ 2 ^ 31 - 1)
    {tr : List (StoreOp × Unit)} (h : system.Run (new limit) tr c) :
    c.count = (c.queue.map CacheEntry.size).sum ∧ 0 ≤ c.count ∧ c.count ≤ limit ∧
      ∀ op, CallExact c op ∧ ∃ c', system.step c op = .ok (c', ()) := by
  have hacc : Accounted limit c := by
    refine h.invariant (I := Accounted limit) ?_ ⟨rfl, rfl, hlo⟩
    intro a op b o ha _ hstep
    obtain ⟨_, c', hc', hnext⟩ := accounted_step hlo (by omega) ha op
    obtain ⟨rfl, _⟩ := Prod.mk.inj (Except.ok.inj (hc'.symm.trans hstep))
    exact hnext
  have hcount := hacc.count
  have hwithin := hacc.within
  refine ⟨hcount, by omega, by omega, ?_⟩
  intro op
  obtain ⟨hexact, c', hc', _⟩ := accounted_step hlo (by omega) hacc op
  exact ⟨hexact, c', hc'⟩

instance (c : CacheManager) (op : StoreOp) : Decidable (system.Enabled c op) :=
  inferInstanceAs (Decidable True)

/-- The second insertion evicts the first, and the cleanup erases the second
from in front of the third. -/
def accountOps : List StoreOp :=
  [.insert 0 ⟨[[1]], 5, [], 60⟩, .insert 1 ⟨[[2]], 5, [], 50⟩, .insert 2 ⟨[[3]], 50, [], 30⟩,
   .cleanUp true 9, .cleanUp false 9]

theorem accounting_exact_cleanUp : ∃ c, system.Run (new 100) (accountOps.map fun op => (op, ())) c ∧
    c.count = (c.queue.map CacheEntry.size).sum ∧ 0 ≤ c.count ∧ c.count ≤ 100 ∧
      ∀ op, CallExact c op ∧ ∃ c', system.step c op = .ok (c', ()) := by
  obtain ⟨c, hc⟩ : ∃ c, system.Run (new 100) (accountOps.map fun op => (op, ())) c :=
    ⟨_, System.run_of_exec (show system.exec (new 100) accountOps =
      some (accountOps.map fun op => (op, ()), _) from rfl)⟩
  exact ⟨c, hc, accounting_exact (by decide) (by decide) hc⟩

end CacheManager

end NdnEm
