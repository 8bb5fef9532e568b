import NdnEm.Proofs.UserRequests

/-!
# Pushing against polling

One sequence of readings, delivered twice: as the Interests the sensor pushes,
and as the Data it answers polls with. The two repositories go through the same
sequence numbers and file under the same keys and names, by one step lemma. The
contents are another matter. A polled reading arrives in a Content block and a
pushed one in a name component, and only the first is stored without its type
and length.
-/

namespace NdnEm

open Lib

/-- A wire is a type and a length, then the value. -/
def AppCxx.Framed (lib : AppCxx) : Prop :=
  ∀ t v, ∃ header, header ≠ [] ∧ lib.encode t v = header ++ v

/-- A sequence number, an `int`, and the bytes that go with it. -/
structure Reading where
  sequence : Int
  info : List UInt8
  lower : -(2 ^ 31) ≤ sequence
  upper : sequence < 2 ^ 31

/-- The reading's number is read as what it was written from. -/
def Reading.ReadsBack (lib : AppCxx) (x : Reading) : Prop :=
  lib.readNumber (lib.number x.sequence) = some x.sequence

instance (lib : AppCxx) (x : Reading) : Decidable (x.ReadsBack lib) :=
  inferInstanceAs (Decidable (_ = _))

/-- The reading arrives as the Interest that the sensor pushes it with. -/
def Reading.Pushed (lib : AppCxx) (x : Reading) (e : RepoEvent) : Prop :=
  ∃ nonce, e = .pushInterest (Sensor.schedulePush lib ⟨x.sequence⟩ x.info nonce)

/-- The repository asks for the reading: it polls, with the reading's number or
with none, or is notified of it. -/
def Reading.Asked (lib : AppCxx) (x : Reading) (i : Interest) : Prop :=
  (∃ r nonce, (r.sequence = -1 ∨ r.sequence = x.sequence) ∧ i = Repo.pollData lib r nonce) ∨
  (∃ nonce nonce', Repo.handleNotifyInterest lib nonce
    (Sensor.scheduleNotify lib ⟨x.sequence⟩ nonce') = .ok i)

/-- The reading arrives as the Data that the sensor answers with. -/
def Reading.Polled (lib : AppCxx) (x : Reading) (e : RepoEvent) : Prop :=
  ∃ i d, x.Asked lib i ∧ Sensor.handleInterest lib ⟨x.sequence⟩ x.info i = .ok (some d) ∧
    e = .data d

/-- The last `int`. -/
def lastInt : Int := 2 ^ 31 - 1

def overflow : Fault := .undefined "signed integer overflow"

namespace Repo

variable {lib : AppCxx} {r r' : Repo} {x : Reading} {xs : List Reading} {e e' : RepoEvent}
  {es es' : List RepoEvent}

/-- Handle some events in order. -/
def deliver (lib : AppCxx) : Repo → List RepoEvent → Except Fault Repo
  | r, [] => .ok r
  | r, e :: es =>
      match r.step lib e with
      | .error f => .error f
      | .ok (r', _) => deliver lib r' es

/-- The same sequence number, and the same keys with, under each, the same name
and the same content. -/
structure Agrees (r r' : Repo) : Prop where
  sequence : r.sequence = r'.sequence
  keys : r.store.keys = r'.store.keys
  entries : ∀ k d d', r.store.find k = some d → r'.store.find k = some d' →
    d.name = d'.name ∧ d.content = d'.content

/-- Two deliveries both return, with repositories that agree. -/
def EndAlike : Except Fault Repo → Except Fault Repo → Prop
  | .ok r, .ok r' => r.Agrees r'
  | _, _ => False

/-- As much agreement as there is: under each key the same name, and never the
same content. -/
structure Parallel (r r' : Repo) : Prop where
  sequence : r.sequence = r'.sequence
  keys : r.store.keys = r'.store.keys
  entries : ∀ k d d', r.store.find k = some d → r'.store.find k = some d' →
    d.name = d'.name ∧ d.content ≠ d'.content
  last : lastInt ∉ r.store.keys

theorem parallel_new : new.Parallel new :=
  ⟨rfl, rfl, fun _ _ _ h => (by cases h), by simp [new]⟩

theorem Parallel.insert {k : Int} {d d' : Data} (h : r.Parallel r') (hk : k ≠ lastInt)
    (hname : d.name = d'.name) (hcontent : d.content ≠ d'.content) :
    (⟨r.store.insert k d, k + 1⟩ : Repo).Parallel ⟨r'.store.insert k d', k + 1⟩ := by
  refine ⟨rfl, ?_, ?_, ?_⟩
  · show (r.store.insert k d).keys = (r'.store.insert k d').keys
    rw [FinMap.keys_insert, FinMap.keys_insert, h.keys]
  · intro j c c' hc hc'
    rcases FinMap.find_insert_cases hc with ⟨rfl, rfl⟩ | ⟨hne, hold⟩
    · rw [FinMap.find_insert_self] at hc'
      obtain rfl := Option.some.inj hc'
      exact ⟨hname, hcontent⟩
    · rw [FinMap.find_insert_ne hne] at hc'
      exact h.entries j c c' hold hc'
  · show lastInt ∉ (r.store.insert k d).keys
    rw [FinMap.keys_insert, Finset.mem_insert]
    intro h
    rcases h with heq | hmem
    · exact hk heq.symm
    · exact h.last hmem

/-- One reading, delivered to both under its number. -/
theorem storeReading_parallel {seq : Component} {b b' : TlvBlock} (h : r.Parallel r')
    (hread : lib.readNumber seq = some x.sequence)
    (hcontent : AppCxx.setContent b ≠ AppCxx.setContent b') :
    (x.sequence = lastInt ∧ r.storeReading lib seq b = .error overflow ∧
      r'.storeReading lib seq b' = .error overflow) ∨
    (x.sequence ≠ lastInt ∧ ∃ s s' stored, r.storeReading lib seq b = .ok (s, stored) ∧
      r'.storeReading lib seq b' = .ok (s', stored) ∧ s.Parallel s' ∧
      x.sequence ∈ s.store.keys ∧ r.store.keys ⊆ s.store.keys) := by
  simp only [storeReading, hread, ← h.keys]
  by_cases hmem : x.sequence ∈ r.store.keys
  · rw [if_pos hmem, if_pos hmem]
    exact .inr ⟨fun heq => h.last (heq ▸ hmem), r, r', false, rfl, rfl, h, hmem,
      Finset.Subset.refl _⟩
  · rw [if_neg hmem, if_neg hmem]
    have hupper := x.upper
    by_cases hlast : x.sequence = lastInt
    · have hover : increment x.sequence = .error overflow := by
        rw [hlast]
        rfl
      rw [hover]
      exact .inl ⟨hlast, rfl, rfl⟩
    · have hnext : increment x.sequence = .ok (x.sequence + 1) := by
        unfold lastInt at hlast
        exact if_pos (by omega)
      rw [hnext]
      refine .inr ⟨hlast, _, _, true, rfl, rfl, h.insert hlast rfl hcontent, ?_, ?_⟩
      · exact Finset.mem_insert_self _ _
      · exact Finset.subset_insert _ _

/-! ## The two deliveries of a reading -/

theorem step_pushed (he : x.Pushed lib e) : ∃ put : Bool → Option Data, r.step lib e =
    (r.storeReading lib (lib.number x.sequence) (lib.wireEncode x.info)).map
      fun y => (y.1, put y.2) := by
  obtain ⟨nonce, rfl⟩ := he
  let ack := lib.makeData (pushPrefix ++ [lib.number x.sequence, x.info, component "ack"]) 100
    (AppCxx.setContent (lib.wireEncode x.info))
  exact ⟨fun stored => if stored then some ack else none, rfl⟩

theorem asked_name {i : Interest} (h : x.Asked lib i) :
    i.name = readPrefix ∨ i.name = readPrefix ++ [lib.number x.sequence] := by
  rcases h with ⟨r, nonce, hseq, rfl⟩ | ⟨nonce, nonce', hi⟩
  · unfold pollData
    split
    · next hne =>
        rcases hseq with heq | heq
        · exact absurd heq hne
        · rw [heq]
          exact .inr rfl
    · exact .inl rfl
  · obtain rfl := Except.ok.inj hi
    exact .inr rfl

/-- With or without a number in the question, the Data is named after the number
of the reading. -/
theorem polled_data (hread : x.ReadsBack lib) (he : x.Polled lib e) :
    e = .data (lib.makeData (readPrefix ++ [lib.number x.sequence]) 5000 x.info) := by
  obtain ⟨i, d, hasked, hd, rfl⟩ := he
  rcases asked_name hasked with hname | hname
  · have hthree : i.name = [component "wsn", component "thermometer", component "read"] := hname
    simp only [Sensor.handleInterest, hthree] at hd
    obtain rfl := Option.some.inj (Except.ok.inj hd)
    rfl
  · have hfour : i.name = [component "wsn", component "thermometer", component "read",
        lib.number x.sequence] := hname
    have hback : lib.readNumber (lib.number x.sequence) = some x.sequence := hread
    simp only [Sensor.handleInterest, hfour, hback] at hd
    rw [if_neg (by simp)] at hd
    obtain rfl := Option.some.inj (Except.ok.inj hd)
    rfl

theorem step_polled (hread : x.ReadsBack lib) (he : x.Polled lib e) : ∃ b : TlvBlock,
    AppCxx.setContent b = x.info ∧ r.step lib e =
      (r.storeReading lib (lib.number x.sequence) b).map fun y => (y.1, none) := by
  rw [polled_data hread he]
  refine ⟨lib.getContent (lib.makeData (readPrefix ++ [lib.number x.sequence]) 5000 x.info),
    rfl, ?_⟩
  show ((r.storeReading lib (lib.number x.sequence) _).map (·.1)).map _ = _
  cases r.storeReading lib (lib.number x.sequence) (lib.getContent
    (lib.makeData (readPrefix ++ [lib.number x.sequence]) 5000 x.info)) <;> rfl

/-- What is wrapped is longer than what is not. -/
theorem wrapped_ne (hlib : lib.Framed) (c : Component) : AppCxx.setContent (lib.wireEncode c) ≠ c := by
  obtain ⟨header, hne, hwire⟩ := hlib tlvNameComponent c
  have hset : AppCxx.setContent (lib.wireEncode c) = header ++ c := hwire
  rw [hset]
  intro heq
  have hlen := congrArg List.length heq
  rw [List.length_append] at hlen
  exact hne (List.length_eq_zero_iff.mp (by omega))

theorem step_parallel (hlib : lib.Framed) (h : r.Parallel r') (hread : x.ReadsBack lib)
    (he : x.Pushed lib e) (he' : x.Polled lib e') :
    (x.sequence = lastInt ∧ r.step lib e = .error overflow ∧ r'.step lib e' = .error overflow) ∨
    (x.sequence ≠ lastInt ∧ ∃ s s' o o', r.step lib e = .ok (s, o) ∧ r'.step lib e' = .ok (s', o') ∧
      s.Parallel s' ∧ x.sequence ∈ s.store.keys ∧ r.store.keys ⊆ s.store.keys) := by
  obtain ⟨put, hpush⟩ := step_pushed (r := r) he
  obtain ⟨b, hb, hpoll⟩ := step_polled (r := r') hread he'
  have hcontent : AppCxx.setContent (lib.wireEncode x.info) ≠ AppCxx.setContent b := by
    rw [hb]
    exact wrapped_ne hlib x.info
  rw [hpush, hpoll]
  rcases storeReading_parallel h hread hcontent with ⟨hlast, herr, herr'⟩ |
    ⟨hlast, s, s', stored, hs, hs', hpar, hmem, hsub⟩
  · rw [herr, herr']
    exact .inl ⟨hlast, rfl, rfl⟩
  · rw [hs, hs']
    exact .inr ⟨hlast, s, s', _, _, rfl, rfl, hpar, hmem, hsub⟩

/-- All readings: the deliveries overflow together, or end in repositories with
the same numbers, keys and names. -/
theorem deliver_parallel (hlib : lib.Framed) (hread : ∀ x ∈ xs, x.ReadsBack lib)
    (hpush : List.Forall₂ (Reading.Pushed lib) xs es)
    (hpoll : List.Forall₂ (Reading.Polled lib) xs es') (h : r.Parallel r') :
    ((∃ x ∈ xs, x.sequence = lastInt) ∧ r.deliver lib es = .error overflow ∧
      r'.deliver lib es' = .error overflow) ∨
    ((∀ x ∈ xs, x.sequence ≠ lastInt) ∧ ∃ s s', r.deliver lib es = .ok s ∧
      r'.deliver lib es' = .ok s' ∧ s.Parallel s' ∧ (∀ x ∈ xs, x.sequence ∈ s.store.keys) ∧
      r.store.keys ⊆ s.store.keys) := by
  induction hpush generalizing es' r r' with
  | nil =>
      cases hpoll
      exact .inr ⟨by simp, r, r', rfl, rfl, h, by simp, Finset.Subset.refl _⟩
  | @cons x e xs es he hpush ih =>
      cases hpoll with
      | @cons _ e' _ es' he' hpoll =>
          have hx := hread x List.mem_cons_self
          have hxs : ∀ y ∈ xs, y.ReadsBack lib := fun y hy => hread y (List.mem_cons_of_mem x hy)
          rcases step_parallel hlib h hx he he' with ⟨hlast, herr, herr'⟩ |
            ⟨hlast, s, s', o, o', hs, hs', hpar, hmem, hsub⟩
          · refine .inl ⟨⟨x, List.mem_cons_self, hlast⟩, ?_, ?_⟩
            · rw [deliver, herr]
            · rw [deliver, herr']
          · rw [deliver, deliver, hs, hs']
            rcases ih hxs hpoll hpar with ⟨⟨y, hy, hylast⟩, herr, herr'⟩ |
              ⟨hnone, t, t', ht, ht', hpar', hall, hsub'⟩
            · exact .inl ⟨⟨y, List.mem_cons_of_mem x hy, hylast⟩, herr, herr'⟩
            · refine .inr ⟨?_, t, t', ht, ht', hpar', ?_, hsub.trans hsub'⟩
              · intro y hy
                rcases List.mem_cons.mp hy with rfl | hy
                · exact hlast
                · exact hnone y hy
              · intro y hy
                rcases List.mem_cons.mp hy with rfl | hy
                · exact hsub' hmem
                · exact hall y hy

/-- Repositories that agree on every content, and on none, are empty. -/
theorem Parallel.agrees_iff (h : r.Parallel r') : r.Agrees r' ↔ r.store.keys = ∅ := by
  refine ⟨?_, ?_⟩
  · intro hagree
    by_contra hne
    obtain ⟨k, hk⟩ := Finset.nonempty_iff_ne_empty.mpr hne
    obtain ⟨d, hd⟩ := Option.ne_none_iff_exists'.mp fun hnone => FinMap.notMem_keys.mpr hnone hk
    obtain ⟨d', hd'⟩ := Option.ne_none_iff_exists'.mp fun hnone =>
      FinMap.notMem_keys.mpr hnone (h.keys ▸ hk)
    exact (h.entries k d d' hd hd').2 (hagree.entries k d d' hd hd').2
  · intro hempty
    refine ⟨h.sequence, h.keys, ?_⟩
    intro k d d' hd
    have hk := FinMap.mem_keys_of_find hd
    rw [hempty] at hk
    cases hk

/-- **Push and poll build the same repository** only of no readings at all. -/
theorem push_poll_alike_iff (hlib : lib.Framed) (hread : ∀ x ∈ xs, x.ReadsBack lib)
    (hpush : List.Forall₂ (Reading.Pushed lib) xs es)
    (hpoll : List.Forall₂ (Reading.Polled lib) xs es') :
    EndAlike (new.deliver lib es) (new.deliver lib es') ↔ xs = [] := by
  rcases deliver_parallel hlib hread hpush hpoll parallel_new with ⟨⟨x, hx, _⟩, herr, herr'⟩ |
    ⟨_, s, s', hs, hs', hpar, hall, _⟩
  · -- neither returns
    rw [herr, herr']
    refine iff_of_false id ?_
    intro hnil
    rw [hnil] at hx
    cases hx
  · rw [hs, hs']
    show s.Agrees s' ↔ xs = []
    rw [hpar.agrees_iff]
    refine ⟨?_, ?_⟩
    · intro hempty
      refine List.eq_nil_iff_forall_not_mem.mpr ?_
      intro x hx
      have hmem := hall x hx
      rw [hempty] at hmem
      cases hmem
    · intro hnil
      subst hnil
      cases hpush
      obtain rfl := Except.ok.inj hs
      rfl

theorem digitCxx_framed : digitCxx.Framed := fun t v => ⟨[t.toUInt8, v.length.toUInt8], by simp, rfl⟩

/-- The Interests that push some readings. -/
def pushes (lib : AppCxx) (xs : List Reading) : List RepoEvent :=
  xs.map fun x => .pushInterest (Sensor.schedulePush lib ⟨x.sequence⟩ x.info 1)

/-- The Data that answers polls for them. -/
def polls (lib : AppCxx) (xs : List Reading) : List RepoEvent :=
  xs.map fun x => .data (lib.makeData (readPrefix ++ [lib.number x.sequence]) 5000 x.info)

theorem pushed_pushes (xs : List Reading) :
    List.Forall₂ (Reading.Pushed lib) xs (pushes lib xs) := by
  refine List.forall₂_map_right_iff.mpr (List.forall₂_same.mpr ?_)
  intro x _
  exact ⟨1, rfl⟩

theorem polled_polls (xs : List Reading) :
    List.Forall₂ (Reading.Polled lib) xs (polls lib xs) := by
  refine List.forall₂_map_right_iff.mpr (List.forall₂_same.mpr ?_)
  intro x _
  exact ⟨new.pollData lib 1, _, .inl ⟨new, 1, .inl rfl, rfl⟩, rfl, rfl⟩

/-- Readings 5, 3 and 5 again. -/
def someReadings : List Reading :=
  [⟨5, [75], by decide, by decide⟩, ⟨3, [76], by decide, by decide⟩,
    ⟨5, [77], by decide, by decide⟩]

theorem push_poll_alike_some : (∀ x ∈ someReadings, x.ReadsBack digitCxx) ∧
    ¬ EndAlike (new.deliver digitCxx (pushes digitCxx someReadings))
      (new.deliver digitCxx (polls digitCxx someReadings)) := by
  have hread : ∀ x ∈ someReadings, x.ReadsBack digitCxx := by decide
  refine ⟨hread, ?_⟩
  rw [push_poll_alike_iff digitCxx_framed hread (pushed_pushes _) (polled_polls _)]
  decide

/-- The byte 75 is stored as it is when it is polled, and with a type and a
length when it is pushed. -/
theorem push_poll_differ : ∃ r r',
    new.deliver digitCxx (pushes digitCxx (someReadings.take 1)) = .ok r ∧
    new.deliver digitCxx (polls digitCxx (someReadings.take 1)) = .ok r' ∧
    r.store.find 5 = some ⟨dataPrefix ++ [component "5"], 5000, [8, 1, 75], 60⟩ ∧
    r'.store.find 5 = some ⟨dataPrefix ++ [component "5"], 5000, [75], 60⟩ ∧
    ¬ EndAlike (new.deliver digitCxx (pushes digitCxx (someReadings.take 1)))
      (new.deliver digitCxx (polls digitCxx (someReadings.take 1))) := by
  refine ⟨_, _, rfl, rfl, rfl, rfl, ?_⟩
  intro h
  have hagree : Agrees _ _ := h
  have hsame := (hagree.entries 5 _ _ rfl rfl).2
  revert hsame
  decide

end Repo

end NdnEm
