import NdnEm.Lib.Window
import NdnEm.Proofs.NodeStep

/-!
# The content store is a window on its insertions

Insert makes room at the front of the queue until the new Data fits, deciding
by a running count. The count is exact, so what is left after any insertions is
the longest suffix of the accepted ones that is within the limit. A lookup then
is one over that suffix, from the oldest insertion on.
-/

namespace NdnEm

open Lib

/-- A call of `Insert`: its clock reading and its Data. -/
structure Insertion where
  now : Int
  data : Data
deriving DecidableEq, Repr

namespace Insertion

/-- The entry that an insertion makes. -/
def entry (x : Insertion) : CacheEntry := ⟨x.data, x.data.size, x.now + x.data.freshnessPeriod⟩

@[simp] theorem entry_data (x : Insertion) : x.entry.data = x.data := rfl
@[simp] theorem entry_size (x : Insertion) : x.entry.size = x.data.size := rfl
@[simp] theorem entry_expire (x : Insertion) :
    x.entry.expire = x.now + x.data.freshnessPeriod := rfl

/-- What a lookup may answer with. -/
structure Answers (now : Int) (i : Interest) (x : Insertion) : Prop where
  extends_name : i.name <+: x.data.name
  fresh : i.mustBeFresh → now < x.now + x.data.freshnessPeriod

end Insertion

namespace CacheManager

variable {c c' : CacheManager} {limit : Int} {sz : Nat} {q : List CacheEntry}

theorem entryMatches_iff {now : Int} {i : Interest} {x : Insertion} :
    entryMatches now i x.entry = true ↔ x.Answers now i := by
  rw [entryMatches, Bool.and_eq_true, List.isPrefixOf_iff_prefix]
  constructor
  · rintro ⟨hname, hfresh⟩
    refine ⟨hname, ?_⟩
    intro hmust
    simpa [hmust] using hfresh
  · intro h
    refine ⟨h.extends_name, ?_⟩
    by_cases hmust : i.mustBeFresh = true
    · simpa [hmust] using h.fresh hmust
    · simp [hmust]

/-! ## Eviction -/

/-- The comparison in `size_t` is the one that is meant. -/
theorem exceeds_iff {count : Nat} (hlo : 0 ≤ limit) (hhi : limit < 2 ^ 31)
    (hcount : (count : Int) ≤ limit) (hsz : (sz : Int) ≤ limit) :
    exceeds count sz limit = true ↔ limit < count + sz := by
  have hc : (toSize count : Int) = count := toSize_of_range (by omega) (by omega)
  have hl : (toSize limit : Int) = limit := toSize_of_range hlo (by omega)
  rw [exceeds, decide_eq_true_iff, Nat.mod_eq_of_lt (by omega)]
  omega

/-- Making room leaves the longest suffix of the queue beside which the new
Data fits, and the count of it. -/
theorem evict_spec (hlo : 0 ≤ limit) (hhi : limit < 2 ^ 31) (hsz : (sz : Int) ≤ limit)
    (hcount : (total CacheEntry.size q : Int) ≤ limit) :
    ∃ t, evict sz limit q (total CacheEntry.size q) = .ok (t, total CacheEntry.size t) ∧
      LongestFitting CacheEntry.size (limit.toNat - sz) q t := by
  have hexceeds := exceeds_iff hlo hhi hcount hsz
  induction q with
  | nil =>
      have hfits : ¬ exceeds (total CacheEntry.size []) sz limit = true := by
        rw [hexceeds, total_nil]
        omega
      refine ⟨[], ?_, .of_fits (Nat.zero_le _)⟩
      rw [evict, if_neg hfits]
  | cons e q ih =>
      have hsum : total CacheEntry.size (e :: q) = e.size + total CacheEntry.size q := total_cons
      by_cases hlt : exceeds (total CacheEntry.size (e :: q)) sz limit = true
      · have hrest : (total CacheEntry.size q : Int) ≤ limit := by omega
        obtain ⟨t, ht, hfit⟩ := ih hrest (exceeds_iff hlo hhi hrest hsz)
        refine ⟨t, ?_, hfit.cons ?_⟩
        · have hto : (toSize (total CacheEntry.size (e :: q)) : Int) =
              (total CacheEntry.size (e :: q) : Nat) := toSize_of_range (by omega) (by omega)
          have hleft : toInt ((toSize (total CacheEntry.size (e :: q)) : Int) - e.size) =
              total CacheEntry.size q := by
            rw [hto, toInt_of_range (by omega) (by omega)]
            omega
          rw [evict, if_pos hlt]
          simp only [hleft]
          rw [if_neg (by omega)]
          exact ht
        · rw [hexceeds] at hlt
          omega
      · refine ⟨e :: q, ?_, .of_fits ?_⟩
        · rw [evict, if_neg hlt]
        · rw [hexceeds] at hlt
          omega

/-- The count is that of the queue, and within the limit. -/
structure Accounted (limit : Int) (c : CacheManager) : Prop where
  limit_eq : c.limit = limit
  count : c.count = total CacheEntry.size c.queue
  within : (total CacheEntry.size c.queue : Int) ≤ limit

theorem insert_too_big {now : Int} {d : Data} (hlo : 0 ≤ c.limit) (hhi : c.limit < 2 ^ 31)
    (hbig : c.limit < d.size) : c.insert now d = .ok c := by
  have hl : (toSize c.limit : Int) = c.limit := toSize_of_range hlo (by omega)
  rw [insert, if_pos (by omega)]

/-- A Data that is within the limit joins what is left of the queue. -/
theorem Accounted.insert_fits (now : Int) {d : Data} (hlo : 0 ≤ limit) (hhi : limit < 2 ^ 31)
    (h : Accounted limit c) (hfits : (d.size : Int) ≤ limit) :
    ∃ t, LongestFitting CacheEntry.size (limit.toNat - d.size) c.queue t ∧
      c.insert now d = .ok ⟨t ++ [⟨d, d.size, now + d.freshnessPeriod⟩],
        total CacheEntry.size (t ++ [⟨d, d.size, now + d.freshnessPeriod⟩]), limit⟩ := by
  have hlim := h.limit_eq
  have hl : (toSize limit : Int) = limit := toSize_of_range hlo (by omega)
  obtain ⟨t, hevict, hfit⟩ := evict_spec hlo hhi hfits h.within
  have hroom := hfit.fits
  refine ⟨t, hfit, ?_⟩
  have ht : (toSize (total CacheEntry.size t) : Int) = (total CacheEntry.size t : Nat) :=
    toSize_of_range (by omega) (by omega)
  have hsum : total CacheEntry.size (t ++ [⟨d, d.size, now + d.freshnessPeriod⟩]) =
      total CacheEntry.size t + d.size := by
    rw [total_append, total_cons, total_nil, Nat.add_zero]
  rw [insert, if_neg (by rw [hlim]; omega)]
  simp only [h.count, hlim, hevict]
  rw [ht, toInt_of_range (by omega) (by omega), hsum, Int.natCast_add]

/-! ## Any insertions -/

/-- The insertions that are not rejected for their size. -/
def accepted (limit : Int) (ins : List Insertion) : List Insertion :=
  ins.filter fun x => x.data.size ≤ limit

/-- The insertions whose Data the store holds. -/
structure Holds (limit : Int) (ins held : List Insertion) (c : CacheManager) : Prop where
  window : LongestFitting (fun x : Insertion => x.data.size) limit.toNat (accepted limit ins) held
  queue : c.queue = held.map Insertion.entry
  count : c.count = total CacheEntry.size c.queue
  limit_eq : c.limit = limit

theorem Holds.accounted {ins held : List Insertion} (hlo : 0 ≤ limit)
    (h : Holds limit ins held c) : Accounted limit c := by
  refine ⟨h.limit_eq, h.count, ?_⟩
  have hwin := h.window.fits
  have hsame : total CacheEntry.size c.queue = total (fun x => x.data.size) held := by
    rw [h.queue, total, total, List.map_map]
    rfl
  omega

/-- An accepted insertion joins the longest suffix beside which it fits. -/
theorem insert_fits {ins held : List Insertion} {x : Insertion} (hlo : 0 ≤ limit)
    (hhi : limit < 2 ^ 31) (h : Holds limit ins held c) (hfits : (x.data.size : Int) ≤ limit) :
    ∃ c' held', c.insert x.now x.data = .ok c' ∧ Holds limit (ins ++ [x]) held' c' := by
  obtain ⟨t, hfit, hins⟩ := (h.accounted hlo).insert_fits x.now hlo hhi hfits
  rw [h.queue] at hfit
  obtain ⟨s, rfl, hs⟩ := hfit.of_map
  refine ⟨_, s ++ [x], hins, ?_, ?_, rfl, rfl⟩
  · have hacc : accepted limit (ins ++ [x]) = accepted limit ins ++ [x] := by
      rw [accepted, List.filter_append, ← accepted, List.filter_singleton]
      simp [hfits]
    rw [hacc]
    exact h.window.snoc (by omega) hs
  · rw [List.map_append, List.map_singleton]
    rfl

theorem insert_step {ins held : List Insertion} (x : Insertion) (hlo : 0 ≤ limit)
    (hhi : limit < 2 ^ 31) (h : Holds limit ins held c) :
    ∃ c' held', c.insert x.now x.data = .ok c' ∧ Holds limit (ins ++ [x]) held' c' := by
  by_cases hfits : (x.data.size : Int) ≤ limit
  · exact insert_fits hlo hhi h hfits
  · have hlim := h.limit_eq
    refine ⟨c, held, insert_too_big (by omega) (by omega) (by omega), ?_, h.queue, h.count, hlim⟩
    have hacc : accepted limit (ins ++ [x]) = accepted limit ins := by
      rw [accepted, List.filter_append, ← accepted, List.filter_singleton]
      simp [hfits]
    rw [hacc]
    exact h.window

/-- The store after some calls of `Insert`. -/
def insertAll (c : CacheManager) (ins : List Insertion) : Except Fault CacheManager :=
  ins.foldlM (fun c x => c.insert x.now x.data) c

theorem insertAll_snoc {ins : List Insertion} {x : Insertion} (h : c.insertAll ins = .ok c') :
    c.insertAll (ins ++ [x]) = c'.insert x.now x.data := by
  unfold insertAll at h ⊢
  rw [List.foldlM_append, h]
  show ([x].foldlM (fun c (x : Insertion) => c.insert x.now x.data) c') = _
  rw [List.foldlM_cons]
  cases c'.insert x.now x.data <;> rfl

theorem insertAll_holds (hlo : 0 ≤ limit) (hhi : limit < 2 ^ 31) (ins : List Insertion) :
    ∃ c held, (new limit).insertAll ins = .ok c ∧ Holds limit ins held c := by
  induction ins using List.reverseRecOn with
  | nil => exact ⟨new limit, [], rfl, .of_fits (Nat.zero_le _), rfl, rfl, rfl⟩
  | append_singleton ins x ih =>
      obtain ⟨c, held, hc, hholds⟩ := ih
      obtain ⟨c', held', hins, hholds'⟩ := insert_step x hlo hhi hholds
      exact ⟨c', held', (insertAll_snoc hc).trans hins, hholds'⟩

/-! ## Lookup -/

/-- The earliest of some insertions that answers an Interest. -/
def Earliest (now : Int) (i : Interest) (held : List Insertion) (d : Data) : Prop :=
  ∃ before x after, held = before ++ x :: after ∧ x.Answers now i ∧ x.data = d ∧
    ∀ y ∈ before, ¬ y.Answers now i

theorem find_eq_some {now : Int} {i : Interest} {d : Data} {held : List Insertion}
    (hq : c.queue = held.map Insertion.entry) :
    c.findMatchingData now i = some d ↔ Earliest now i held d := by
  rw [findMatchingData, hq, List.find?_map, Option.map_map, Option.map_eq_some_iff]
  constructor
  · rintro ⟨x, hx, rfl⟩
    obtain ⟨hans, before, after, rfl, hbefore⟩ := List.find?_eq_some_iff_append.mp hx
    refine ⟨before, x, after, rfl, entryMatches_iff.mp hans, rfl, ?_⟩
    intro y hy hans'
    have hnot := hbefore y hy
    rw [Function.comp_apply, entryMatches_iff.mpr hans'] at hnot
    cases hnot
  · rintro ⟨before, x, after, rfl, hans, rfl, hbefore⟩
    refine ⟨x, List.find?_eq_some_iff_append.mpr ⟨entryMatches_iff.mpr hans, before, after, rfl, ?_⟩,
      rfl⟩
    intro y hy
    rw [Function.comp_apply, Bool.not_eq_true', Bool.eq_false_iff]
    exact fun hm => hbefore y hy (entryMatches_iff.mp hm)

theorem find_eq_none {now : Int} {i : Interest} {held : List Insertion}
    (hq : c.queue = held.map Insertion.entry) :
    c.findMatchingData now i = none ↔ ∀ x ∈ held, ¬ x.Answers now i := by
  rw [findMatchingData_eq_none, hq, List.forall_mem_map]
  refine forall₂_congr fun x _ => ?_
  rw [← entryMatches_iff, Bool.not_eq_true]

/-- What the store promises after some insertions. -/
structure Specified (limit : Int) (ins : List Insertion) (c : CacheManager) : Prop where
  /-- It holds the longest suffix of the accepted insertions that is within the
  limit, and finds the earliest of them that answers. -/
  held : ∃ held,
    LongestFitting (fun x : Insertion => x.data.size) limit.toNat (accepted limit ins) held ∧
    c.queue = held.map Insertion.entry ∧
    ∀ now i, (∀ d, c.findMatchingData now i = some d ↔ Earliest now i held d) ∧
      (c.findMatchingData now i = none ↔ ∀ x ∈ held, ¬ x.Answers now i)
  /-- An oversized insertion changes nothing. -/
  oversized : ∀ now d, limit < d.size → c.insert now d = .ok c

/-- The third insertion takes the place of the first, and the fourth is too
big. -/
def insertions : List Insertion :=
  [⟨0, ⟨[[1]], 5, [], 40⟩⟩, ⟨1, ⟨[[1], [2]], 5, [], 50⟩⟩, ⟨2, ⟨[[1], [3]], 9, [], 30⟩⟩,
   ⟨3, ⟨[[4]], 5, [], 101⟩⟩]

end CacheManager

/-! ## The store of a node -/

namespace Node

variable {lib : NdnCxx} {n n' : Node} {e : NodeEvent} {o : Option Forward}

theorem handleData_store {clk : Clock} {f : Int} {d : Data}
    (h : n.handleData clk f d = .ok (n', o)) :
    n'.cacheManager = n.cacheManager ∨
      ∃ x : Insertion, n.cacheManager.insert x.now x.data = .ok n'.cacheManager := by
  rcases handleData_cases h with ⟨_, rfl, _⟩ | ⟨_, c, hc, rfl, _⟩
  · exact .inl rfl
  · exact .inr ⟨⟨clk.insert, d⟩, hc⟩

/-- Whatever happens to a node, its store is left alone or inserted into. -/
theorem step_store (h : n.step lib e = .ok (n', o)) :
    n'.cacheManager = n.cacheManager ∨
      ∃ x : Insertion, n.cacheManager.insert x.now x.data = .ok n'.cacheManager := by
  cases e with
  | interest clk f i =>
      rcases handleInterest_cases h with ⟨_, _, rfl, _⟩ | ⟨_, ⟨_, rfl, _⟩ | ⟨_, _, rfl, _⟩ |
        ⟨_, _, hcmd⟩ | ⟨_, _, _, rfl, _⟩⟩
      · exact .inl rfl
      · exact .inl rfl
      · exact .inl rfl
      · rcases processCommand_cases hcmd with ⟨rfl, _⟩ | ⟨fib, r, _, hresp⟩
        · exact .inl rfl
        · have hdata := handleData_store (f := 0) hresp
          exact hdata
      · exact .inl rfl
  | data clk f d => exact handleData_store (f := f) h
  | removeFace f =>
      rw [removeFace_cases (step_removeFace h).1]
      exact .inl rfl
  | cleanUp now =>
      obtain ⟨rfl, _⟩ := Prod.mk.inj (Except.ok.inj h)
      exact .inl rfl
  | addLinkFace mac dev =>
      obtain ⟨rfl, _⟩ := Prod.mk.inj (Except.ok.inj h)
      exact .inl rfl
  | accept =>
      obtain ⟨face, _, rfl, _⟩ := step_accept h
      exact .inl rfl

/-- The store of a node is one that insertions built. -/
theorem run_store {c : CacheManager} {tr : Trace} (hn : n.cacheManager = c)
    (h : (system lib).Run n tr n') :
    ∃ ins : List Insertion, c.insertAll ins = .ok n'.cacheManager := by
  induction h with
  | nil => exact ⟨[], by rw [hn]; rfl⟩
  | snoc _ _ hstep ih =>
      obtain ⟨ins, hins⟩ := ih
      rcases step_store hstep with hsame | ⟨x, hx⟩
      · exact ⟨ins, by rw [hins, hsame]⟩
      · exact ⟨ins ++ [x], (CacheManager.insertAll_snoc hins).trans hx⟩

end Node

end NdnEm
