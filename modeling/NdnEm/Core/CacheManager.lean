import Mathlib.Data.List.Basic
import NdnEm.Core.Packet

/-!
# The content store

A first-in first-out queue of Data with a running count of their sizes. Lookup
scans from the oldest entry and answers the first whose name extends the
Interest's; of the selectors it knows only MustBeFresh.

`CleanUp` erases expired entries from anywhere in the queue. No node schedules
it, so a node's own store only ever sees lookups and insertions.

The count and the limit are `int`, the sizes are `size_t`, and every
comparison between them is made in `size_t`. The conversions are written out
below, because a negative limit or count does not compare as a negative
number.
-/

namespace NdnEm

structure CacheEntry where
  data : Data
  size : Nat
  expire : Int
deriving DecidableEq, Repr

structure CacheManager where
  queue : List CacheEntry
  count : Int
  limit : Int
deriving DecidableEq, Repr

namespace CacheManager

/-- The constructor, with the limit in bytes. -/
def new (limit : Int) : CacheManager := ⟨[], 0, limit⟩

def entryMatches (now : Int) (i : Interest) (e : CacheEntry) : Bool :=
  i.name.isPrefixOf e.data.name && (!i.mustBeFresh || (i.mustBeFresh && e.expire > now))

/-- Return the first match. -/
def findMatchingData (c : CacheManager) (now : Int) (i : Interest) : Option Data :=
  (c.queue.find? (entryMatches now i)).map (·.data)

/-- `m_count + sz > m_limit`. -/
def exceeds (count : Int) (sz : Nat) (limit : Int) : Bool :=
  (toSize count + sz) % 2 ^ 64 > toSize limit

/-- Cache replacement: pop the front until `sz` more bytes fit. -/
def evict (sz : Nat) (limit : Int) : List CacheEntry → Int → Except Fault (List CacheEntry × Int)
  | [], count =>
      if exceeds count sz limit then .error (.undefined "front of an empty cache queue")
      else .ok ([], count)
  | e :: rest, count =>
      if exceeds count sz limit then
        -- m_count -= front_sz: the difference is taken in size_t
        let count' := toInt ((toSize count : Int) - e.size)
        if count' < 0 then .error (.assertion "m_count >= 0")
        else evict sz limit rest count'
      else .ok (e :: rest, count)

/-- `now` is the clock reading the expiry is computed from. -/
def insert (c : CacheManager) (now : Int) (d : Data) : Except Fault CacheManager :=
  let expire := now + d.freshnessPeriod
  let sz := d.size
  if sz > toSize c.limit then .ok c
  else
    match evict sz c.limit c.queue c.count with
    | .error f => .error f
    | .ok (queue, count) =>
        .ok { c with
          queue := queue ++ [⟨d, d.size, expire⟩]
          count := toInt ((toSize count : Int) + d.size) }

/-- The loop of `CleanUp`: erase what has expired, wherever it stands. -/
def purge (now : Int) : List CacheEntry → Int → List CacheEntry × Int
  | [], count => ([], count)
  | e :: rest, count =>
      if e.expire < now then
        -- m_count -= sz: the difference is taken in size_t
        purge now rest (toInt ((toSize count : Int) - e.size))
      else
        let (kept, count) := purge now rest count
        (e :: kept, count)

/-- The handler of the cleanup timer; on an error it returns at once. -/
def cleanUp (c : CacheManager) (error : Bool) (now : Int) : CacheManager :=
  if error then c
  else
    let (queue, count) := purge now c.queue c.count
    { c with queue := queue, count := count }

theorem findMatchingData_eq_some {c : CacheManager} {now : Int} {i : Interest} {d : Data}
    (h : c.findMatchingData now i = some d) : i.name <+: d.name := by
  obtain ⟨e, he, rfl⟩ := Option.map_eq_some_iff.mp h
  have hm := List.find?_some he
  simp only [entryMatches, Bool.and_eq_true] at hm
  exact List.isPrefixOf_iff_prefix.mp hm.1

theorem findMatchingData_eq_none {c : CacheManager} {now : Int} {i : Interest} :
    c.findMatchingData now i = none ↔ ∀ e ∈ c.queue, entryMatches now i e = false := by
  simp [findMatchingData]

end CacheManager

end NdnEm
