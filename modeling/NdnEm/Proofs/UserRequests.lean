import NdnEm.Core.SensorApps

/-!
# User requests

A request for a number is answered from the entry of that number, any other
from the last entry. Each handler that fills the store names an entry after
the component it was numbered by, so what is found under a number has that
number in its name. Whether anything is found is another matter: the handler
reads on as if it always were.
-/

namespace NdnEm

open Lib

namespace Repo

variable {lib : AppCxx} {r r' : Repo} {e : RepoEvent} {o : Option Data} {seq : Component}
  {content : TlvBlock} {stored : Bool} {i : Interest} {d : Data} {tr : List (RepoEvent × Option Data)}

/-- A reading is known already, or is stored under its number. -/
theorem storeReading_cases (h : r.storeReading lib seq content = .ok (r', stored)) :
    ∃ k, lib.readNumber seq = some k ∧
      ((k ∈ r.store.keys ∧ r' = r) ∨
       (k ∉ r.store.keys ∧ r' = ⟨r.store.insert k (repoData lib seq content), k + 1⟩)) := by
  unfold storeReading at h
  split at h
  · cases h
  · next k hk =>
      refine ⟨k, hk, ?_⟩
      split_ifs at h with hmem
      · obtain ⟨rfl, _⟩ := Prod.mk.inj (Except.ok.inj h)
        exact .inl ⟨hmem, rfl⟩
      · unfold increment at h
        split_ifs at h
        obtain ⟨rfl, _⟩ := Prod.mk.inj (Except.ok.inj h)
        exact .inr ⟨hmem, rfl⟩

theorem handleData_cases (h : r.handleData lib d = .ok r') :
    ∃ seq stored, r.storeReading lib seq (lib.getContent d) = .ok (r', stored) := by
  unfold handleData at h
  split at h
  · next seq _ =>
      obtain ⟨x, hs, rfl⟩ := ok_of_map h
      exact ⟨seq, x.2, hs⟩
  · cases h

theorem handlePushInterest_cases (h : r.handlePushInterest lib i = .ok (r', o)) :
    ∃ seq value stored, r.storeReading lib seq (lib.wireEncode value) = .ok (r', stored) := by
  unfold handlePushInterest at h
  split at h
  · next seq value _ =>
      obtain ⟨x, hs, heq⟩ := ok_of_map h
      obtain ⟨rfl, _⟩ := Prod.mk.inj heq
      exact ⟨seq, value, x.2, hs⟩
  · cases h

/-- An event resets the sequence number, or brings a reading. -/
theorem step_cases (h : r.step lib e = .ok (r', o)) :
    r' = r.handleTimeout ∨ ∃ seq content stored, r.storeReading lib seq content = .ok (r', stored) := by
  cases e with
  | data d =>
      obtain ⟨r₁, hd, heq⟩ := ok_of_map h
      obtain ⟨rfl, _⟩ := Prod.mk.inj heq
      obtain ⟨seq, stored, hs⟩ := handleData_cases hd
      exact .inr ⟨seq, _, stored, hs⟩
  | pushInterest i =>
      obtain ⟨seq, value, stored, hs⟩ := handlePushInterest_cases h
      exact .inr ⟨seq, _, stored, hs⟩
  | timeout =>
      obtain ⟨rfl, _⟩ := Prod.mk.inj (Except.ok.inj h)
      exact .inl rfl

/-- A Data named after a component that is read as `k`. -/
def Numbered (lib : AppCxx) (k : Int) (d : Data) : Prop :=
  ∃ seq, d.name = dataPrefix ++ [seq] ∧ lib.readNumber seq = some k

/-- Every Data is under the number in its name. -/
def Filed (lib : AppCxx) (r : Repo) : Prop := ∀ k d, r.store.find k = some d → Numbered lib k d

theorem filed_new : new.Filed lib := by
  intro k d h
  cases h

theorem filed_step (hr : r.Filed lib) (h : r.step lib e = .ok (r', o)) : r'.Filed lib := by
  rcases step_cases h with rfl | ⟨seq, content, stored, hs⟩
  · exact hr
  · obtain ⟨k, hk, ⟨_, rfl⟩ | ⟨_, rfl⟩⟩ := storeReading_cases hs
    · exact hr
    · exact FinMap.forall_insert hr ⟨seq, rfl, hk⟩

theorem filed_run (h : (system lib).Run new tr r) : r.Filed lib :=
  h.invariant (fun _ _ _ _ hr _ hs => filed_step hr hs) filed_new

/-! ## The handler -/

/-- The last entry of a store is one of its entries. -/
theorem last_some (h : r.last = some d) : ∃ k, r.store.find k = some d := by
  obtain ⟨k, _, hk⟩ := Option.bind_eq_some_iff.mp h
  exact ⟨k, hk⟩

theorem last_isSome_iff : r.last.isSome ↔ r.store.keys.Nonempty := by
  unfold last
  cases hlast : (ascending r.store.keys).getLast? with
  | none =>
      have hempty : ascending r.store.keys = [] := List.getLast?_eq_none_iff.mp hlast
      refine iff_of_false (by simp) ?_
      intro hne
      obtain ⟨k, hk⟩ := hne
      rw [← mem_ascending, hempty] at hk
      cases hk
  | some k =>
      have hk : k ∈ r.store.keys := mem_ascending.mp (List.mem_of_getLast? hlast)
      refine iff_of_true ?_ ⟨k, hk⟩
      exact Option.ne_none_iff_isSome.mp fun hnone => FinMap.notMem_keys.mpr hnone hk

/-- A request ends well: nothing undefined or uncaught happens, and what is put
is in the store, under the requested number if there is one. -/
structure AnswersSafely (lib : AppCxx) (r : Repo) (i : Interest) : Prop where
  total : ∀ f, r.handleUserInterest lib i ≠ .error f
  stored : ∀ d, r.handleUserInterest lib i = .ok d → ∃ k, r.store.find k = some d
  requested : ∀ d seq, r.handleUserInterest lib i = .ok d → i.name = dataPrefix ++ [seq] →
    ∃ k, lib.readNumber seq = some k ∧ r.store.find k = some d ∧ Numbered lib k d

/-- A fourth component, if it is the last, is the number of an entry; without
it there is some entry. -/
def Answerable (lib : AppCxx) (r : Repo) (i : Interest) : Prop :=
  (∀ seq, i.name = dataPrefix ++ [seq] → ∃ k ∈ r.store.keys, lib.readNumber seq = some k) ∧
  (i.name.length ≠ 4 → r.store.keys.Nonempty)

theorem handleUserInterest_numbered (h : i.name = dataPrefix ++ [seq]) :
    r.handleUserInterest lib i = .ok d ↔
      ∃ k, lib.readNumber seq = some k ∧ r.store.find k = some d := by
  have hname : i.name = [component "wsn", component "data", component "temperature", seq] := h
  simp only [handleUserInterest, hname]
  cases hk : lib.readNumber seq with
  | none => simp
  | some k => cases hd : r.store.find k <;> simp [hd]

theorem handleUserInterest_other (h : i.name.length ≠ 4) :
    r.handleUserInterest lib i = .ok d ↔ r.last = some d := by
  unfold handleUserInterest
  split
  · next hname =>
      rw [hname] at h
      exact absurd rfl h
  · cases hd : r.last <;> simp

/-- The shapes of a name under the prefix of the data. -/
theorem under_dataPrefix (h : dataPrefix <+: i.name) :
    (∃ seq, i.name = dataPrefix ++ [seq]) ∨ i.name.length ≠ 4 := by
  obtain ⟨rest, hrest⟩ := h
  have hthree : dataPrefix.length = 3 := rfl
  by_cases hlen : i.name.length = 4
  · have hone : rest.length = 1 := by
      rw [← hrest, List.length_append] at hlen
      omega
    obtain ⟨seq, rfl⟩ := List.length_eq_one_iff.mp hone
    exact .inl ⟨seq, hrest.symm⟩
  · exact .inr hlen

/-- The handler returns exactly when it has something to read. -/
theorem answers_iff (h : dataPrefix <+: i.name) :
    (∃ d, r.handleUserInterest lib i = .ok d) ↔ r.Answerable lib i := by
  rcases under_dataPrefix h with ⟨seq, hseq⟩ | hlen
  · have hfour : i.name.length = 4 := by
      rw [hseq]
      rfl
    refine ⟨?_, ?_⟩
    · intro h
      obtain ⟨d, hd⟩ := h
      obtain ⟨k, hk, hfind⟩ := (handleUserInterest_numbered hseq).mp hd
      refine ⟨?_, fun hne => absurd hfour hne⟩
      intro seq' hseq'
      obtain rfl : seq = seq' := by simpa [dataPrefix] using hseq.symm.trans hseq'
      exact ⟨k, FinMap.mem_keys_of_find hfind, hk⟩
    · intro h
      obtain ⟨hnumber, _⟩ := h
      obtain ⟨k, hmem, hk⟩ := hnumber seq hseq
      obtain ⟨d, hd⟩ := Option.ne_none_iff_exists'.mp fun hnone => FinMap.notMem_keys.mpr hnone hmem
      exact ⟨d, (handleUserInterest_numbered hseq).mpr ⟨k, hk, hd⟩⟩
  · have hsome : (∃ d, r.handleUserInterest lib i = .ok d) ↔ r.last.isSome := by
      rw [Option.isSome_iff_exists]
      exact exists_congr fun d => handleUserInterest_other hlen
    rw [hsome, last_isSome_iff]
    refine ⟨?_, fun h => h.2 hlen⟩
    intro hne
    refine ⟨?_, fun _ => hne⟩
    intro seq hseq
    rw [hseq] at hlen
    exact absurd rfl hlen

/-- **User requests end well** exactly when there is something to answer them
from. -/
theorem user_request_safe_iff (hrun : (system lib).Run new tr r) (hname : dataPrefix <+: i.name) :
    r.AnswersSafely lib i ↔ r.Answerable lib i := by
  rw [← answers_iff hname]
  refine ⟨?_, ?_⟩
  · intro h
    cases hres : r.handleUserInterest lib i with
    | error f => exact absurd hres (h.total f)
    | ok d => exact ⟨d, rfl⟩
  · intro h
    obtain ⟨d, hd⟩ := h
    refine ⟨?_, ?_, ?_⟩
    · intro f hf
      cases hd.symm.trans hf
    · intro d' hd'
      rcases under_dataPrefix hname with ⟨seq, hseq⟩ | hlen
      · obtain ⟨k, _, hfind⟩ := (handleUserInterest_numbered hseq).mp hd'
        exact ⟨k, hfind⟩
      · exact last_some ((handleUserInterest_other hlen).mp hd')
    · intro d' seq hd' hseq
      obtain ⟨k, hk, hfind⟩ := (handleUserInterest_numbered hseq).mp hd'
      exact ⟨k, hk, hfind, filed_run hrun k d' hfind⟩

/-- Numbers of one digit, and blocks of less than 253 bytes. -/
def digitCxx : AppCxx where
  toUri c := String.ofList (c.map fun b => Char.ofNat b.toNat)
  lexicalCastInt s :=
    match s.toList with
    | [c] => if c.isDigit then some (c.toNat - 48) else none
    | _ => none
  lexicalCastString n := String.ofList [Char.ofNat (n.toNat + 48)]
  encode t v := t.toUInt8 :: v.length.toUInt8 :: v
  interestSize _ := 60
  signedSize _ _ := 60

/-- A reading numbered 5 is polled. -/
def polledRun : List (RepoEvent × Option Data) :=
  [(.data ⟨readPrefix ++ [component "5"], 5000, [75], 60⟩, none)]

/-- A user request. -/
def ask (rest : Name) : Interest := ⟨dataPrefix ++ rest, 1, 4000, false, 60⟩

theorem user_request_safe_last : ∃ r, (system digitCxx).Run new polledRun r ∧
    r.AnswersSafely digitCxx (ask []) ∧
    r.handleUserInterest digitCxx (ask []) = .ok ⟨dataPrefix ++ [component "5"], 5000, [75], 60⟩ := by
  obtain ⟨r, hrun, hd⟩ : ∃ r, (system digitCxx).Run new polledRun r ∧
      r.handleUserInterest digitCxx (ask []) =
        .ok ⟨dataPrefix ++ [component "5"], 5000, [75], 60⟩ :=
    ⟨_, .single trivial rfl, rfl⟩
  have hname : dataPrefix <+: (ask []).name := List.prefix_append _ _
  exact ⟨r, hrun, (user_request_safe_iff hrun hname).mpr ((answers_iff hname).mp ⟨_, hd⟩), hd⟩

/-- The store is empty, or has no such number, or the component is no number. -/
theorem user_request_crashes :
    new.handleUserInterest digitCxx (ask []) = .error (.undefined "rbegin () of an empty map") ∧
    new.handleUserInterest digitCxx (ask [component "7"]) =
      .error (.undefined "null shared_ptr<Data>") ∧
    new.handleUserInterest digitCxx (ask [component "x"]) = .error badLexicalCast ∧
    (system digitCxx).Run new [] new ∧ dataPrefix <+: (ask []).name ∧
    ¬ new.AnswersSafely digitCxx (ask []) :=
  ⟨rfl, rfl, rfl, .nil new, List.prefix_append _ _, fun h => h.total _ rfl⟩

end Repo

end NdnEm
