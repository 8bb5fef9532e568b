import NdnEm.Core.Wsn
import NdnEm.Lib.Past
import NdnEm.Proofs.PushPoll

/-!
# What the sensor network promises

Whatever is lost, late, repeated or out of order, every packet on its way has
one of a few names, and every number in one is the number of a reading that
the sensor has taken, or of the next. `Sound` says so of a state, relative to
what the sensor has read so far; everything else is read off from it: what is
stored, what a user is answered, and that no assertion of the two applications
ever fails.
-/

namespace NdnEm

open Lib

/-- Up to that number, and as far as an `int` goes, what a number is written as
is read as the number. -/
def AppCxx.Counts (lib : AppCxx) (n : Int) : Prop :=
  ∀ k, 1 ≤ k → k ≤ n → k ≤ lastInt → lib.readNumber (lib.number k) = some k

theorem AppCxx.Counts.mono {lib : AppCxx} {m n : Int} (h : lib.Counts n) (hle : m ≤ n) :
    lib.Counts m :=
  fun k hlo hhi hlast => h k hlo (by omega) hlast

/-- What a reading's bytes reach the repository in. -/
def OptMode.block (lib : AppCxx) (info : List UInt8) : OptMode → TlvBlock
  | .push => lib.wireEncode info
  | .poll | .notify => ⟨tlvContent, info, lib.encode tlvContent info⟩

/-- The bytes the sensor reads when it handles the event. -/
def WsnEvent.info : WsnEvent → Option (List UInt8)
  | .push info _ | .readInterest _ info => some info
  | .startSensor | .startRepo | .newReading | .notify _ | .poll _ | .pushInterest _
  | .notifyInterest _ _ | .data _ _ | .timeout _ | .userInterest _ => none

namespace Wsn

variable {lib : AppCxx} {sm rm : OptMode} {P Q : Int → List UInt8 → Prop} {w w' : Wsn}
  {e : WsnEvent} {o : Option Wire} {n m k : Int} {name : Name} {info : List UInt8} {i : Interest}
  {d : Data} {tr : List (WsnEvent × Option Wire)}

/-- A name the repository asks the sensor with, when the sensor is at `n`. -/
inductive Question (lib : AppCxx) (n : Int) : Name → Prop
  | latest : Question lib n readPrefix
  | numbered {k : Int} (hlo : 1 ≤ k) (hhi : k ≤ n + 1) (hlast : k ≤ lastInt) :
      Question lib n (readPrefix ++ [lib.number k])

/-- The name of an Interest that one of the two puts. -/
inductive Expected (lib : AppCxx) (P : Int → List UInt8 → Prop) (n : Int) : Name → Prop
  | question {name : Name} (h : Question lib n name) : Expected lib P n name
  | pushed {k : Int} {info : List UInt8} (h : P k info) :
      Expected lib P n (pushPrefix ++ [lib.number k, info])
  | notified {k : Int} (hlo : 1 ≤ k) (hhi : k ≤ n) (hlast : k ≤ lastInt) :
      Expected lib P n (notifyPrefix ++ [lib.number k])

/-- A Data under the prefix of the readings holds one. -/
def Genuine (lib : AppCxx) (P : Int → List UInt8 → Prop) (d : Data) : Prop :=
  readPrefix <+: d.name → ∃ k info, P k info ∧ d.name = readPrefix ++ [lib.number k] ∧
    d.content = info

/-- All is well, if the pairs of `P` are the numbers and the bytes the sensor
has read. -/
structure Sound (lib : AppCxx) (rm : OptMode) (P : Int → List UInt8 → Prop) (w : Wsn) : Prop where
  off : w.sensing = false → w.sensor.sequence = 0
  on : w.sensing = true → 1 ≤ w.sensor.sequence
  upper : w.sensor.sequence ≤ lastInt
  read : ∀ k info, P k info → 1 ≤ k ∧ k ≤ w.sensor.sequence
  interests : ∀ i ∈ w.interests, Expected lib P w.sensor.sequence i.name
  datas : ∀ d ∈ w.datas, Genuine lib P d
  asked : ∀ i ∈ w.asked, Question lib w.sensor.sequence i.name
  unasked : rm = .push → w.asked = []
  stored : ∀ k d, w.repo.store.find k = some d → k ≠ lastInt ∧
    ∃ info, P k info ∧ d = Repo.repoData lib (lib.number k) (rm.block lib info)
  next : w.repo.sequence = -1 ∨ w.repo.sequence - 1 ∈ w.repo.store.keys

theorem Question.mono (h : Question lib n name) (hle : n ≤ m) : Question lib m name := by
  cases h with
  | latest => exact .latest
  | numbered hlo hhi hlast => exact .numbered hlo (by omega) hlast

theorem Expected.mono (h : Expected lib P n name) (hle : n ≤ m)
    (hPQ : ∀ k info, P k info → Q k info) : Expected lib Q m name := by
  cases h with
  | question h => exact .question (h.mono hle)
  | pushed h => exact .pushed (hPQ _ _ h)
  | notified hlo hhi hlast => exact .notified hlo (by omega) hlast

theorem Genuine.mono (h : Genuine lib P d) (hPQ : ∀ k info, P k info → Q k info) :
    Genuine lib Q d := by
  intro hname
  obtain ⟨k, info, hP, hrest⟩ := h hname
  exact ⟨k, info, hPQ _ _ hP, hrest⟩

/-! ## The names tell the packets apart -/

theorem Question.under (h : Question lib n name) : readPrefix <+: name := by
  cases h with
  | latest => exact List.prefix_refl _
  | numbered => exact List.prefix_append _ _

/-- Two names that differ in a component have no common extension. -/
theorem not_prefix_of {p q rest : Name} (h : ¬ p <+: q ∧ ¬ q <+: p) : ¬ p <+: q ++ rest := by
  intro hp
  rcases List.prefix_or_prefix_of_prefix hp (List.prefix_append q rest) with h' | h'
  · exact h.1 h'
  · exact h.2 h'

theorem Expected.to_sensor (h : Expected lib P n name) (hname : thermometerPrefix <+: name) :
    Question lib n name := by
  cases h with
  | question h => exact h
  | pushed => exact absurd hname (not_prefix_of (by decide))
  | notified => exact absurd hname (not_prefix_of (by decide))

theorem Question.not_under {p : Name} (h : Question lib n name)
    (hp : ¬ p <+: readPrefix ∧ ¬ readPrefix <+: p) : ¬ p <+: name := by
  obtain ⟨rest, rfl⟩ := h.under
  exact not_prefix_of hp

theorem Expected.to_push (h : Expected lib P n name) (hname : pushPrefix <+: name) :
    ∃ k info, P k info ∧ name = pushPrefix ++ [lib.number k, info] := by
  cases h with
  | question h => exact absurd hname (h.not_under (by decide))
  | pushed h => exact ⟨_, _, h, rfl⟩
  | notified => exact absurd hname (not_prefix_of (by decide))

theorem Expected.to_notify (h : Expected lib P n name) (hname : notifyPrefix <+: name) :
    ∃ k, 1 ≤ k ∧ k ≤ n ∧ k ≤ lastInt ∧ name = notifyPrefix ++ [lib.number k] := by
  cases h with
  | question h => exact absurd hname (h.not_under (by decide))
  | pushed => exact absurd hname (not_prefix_of (by decide))
  | notified hlo hhi hlast => exact ⟨_, hlo, hhi, hlast, rfl⟩

/-- What is put under another prefix is no reading. -/
theorem genuine_of_other {p : Name} (hname : p <+: d.name)
    (hp : ¬ readPrefix <+: p ∧ ¬ p <+: readPrefix) : Genuine lib P d := by
  obtain ⟨rest, hrest⟩ := hname
  intro h
  rw [← hrest] at h
  exact absurd h (not_prefix_of hp)

/-! ## What the handlers do with these names -/

theorem increment_cases (h : increment n = .ok m) : m = n + 1 ∧ m ≤ lastInt := by
  unfold increment at h
  split at h
  · next hlt =>
      obtain rfl := Except.ok.inj h
      exact ⟨rfl, by unfold lastInt; omega⟩
  · cases h

/-- The sensor discards a question that is out of sync, and answers any other
with what it reads now. -/
theorem handleInterest_question {s : Sensor} (info : List UInt8)
    (hlib : lib.Counts (s.sequence + 1))
    (h : Question lib s.sequence i.name) :
    s.handleInterest lib info i = .ok none ∨
      s.handleInterest lib info i = .ok (some
        (lib.makeData (readPrefix ++ [lib.number s.sequence]) 5000 info)) := by
  generalize hname : i.name = name at h
  cases h with
  | latest =>
      have hthree : i.name = [component "wsn", component "thermometer", component "read"] := hname
      refine .inr ?_
      simp only [Sensor.handleInterest, hthree]
      rfl
  | @numbered k hlo hhi hlast =>
      have hfour : i.name = [component "wsn", component "thermometer", component "read",
        lib.number k] := hname
      have hread : lib.readNumber (lib.number k) = some k := hlib k hlo hhi hlast
      simp only [Sensor.handleInterest, hfour, hread]
      by_cases hk : k = s.sequence
      · rw [if_neg (by simp [hk]), hk]
        exact .inr rfl
      · rw [if_pos hk]
        exact .inl rfl

theorem handleData_reading {r : Repo} {c : Component} (h : d.name = readPrefix ++ [c]) :
    r.handleData lib d = (r.storeReading lib c (lib.getContent d)).map (·.1) := by
  have hfour : d.name = [component "wsn", component "thermometer", component "read", c] := h
  simp only [Repo.handleData, hfour]

theorem handlePushInterest_reading {r : Repo} {c v : Component}
    (h : i.name = pushPrefix ++ [c, v]) :
    r.handlePushInterest lib i = (r.storeReading lib c (lib.wireEncode v)).map fun x => (x.1,
      if x.2 then some (lib.makeData (i.name ++ [component "ack"]) 100
        (AppCxx.setContent (lib.wireEncode v))) else none) := by
  have hfive : i.name = [component "wsn", component "repo", component "push", c, v] := h
  simp only [Repo.handlePushInterest, hfive]

theorem handleNotifyInterest_reading {nonce : UInt32} {c : Component}
    (h : i.name = notifyPrefix ++ [c]) :
    Repo.handleNotifyInterest lib nonce i =
      .ok (lib.makeInterest (readPrefix ++ [c]) nonce) := by
  have hfour : i.name = [component "wsn", component "repo", component "notify", c] := h
  simp only [Repo.handleNotifyInterest, hfour]

/-- Only a new reading that is numbered by the last `int` is a fault. -/
theorem storeReading_error_iff {r : Repo} {c : Component} {b : TlvBlock}
    (hc : lib.readNumber c = some k) :
    (∃ f, r.storeReading lib c b = .error f) ↔ k ∉ r.store.keys ∧ lastInt ≤ k := by
  unfold Repo.storeReading increment lastInt
  simp only [hc]
  by_cases hmem : k ∈ r.store.keys
  · simp [hmem]
  · rw [if_neg hmem]
    by_cases hlt : k + 1 < 2 ^ 31
    · rw [if_pos hlt]
      simp only [reduceCtorEq, exists_false, false_iff]
      omega
    · rw [if_neg hlt]
      simp only [Except.error.injEq, exists_eq', true_iff]
      exact ⟨hmem, by omega⟩

/-! ## What each event preserves -/

namespace Sound

/-- More may have been read. -/
theorem mono (h : Sound lib rm P w) (hPQ : ∀ k info, P k info → Q k info)
    (hQ : ∀ k info, Q k info → 1 ≤ k ∧ k ≤ w.sensor.sequence) : Sound lib rm Q w where
  off := h.off
  on := h.on
  upper := h.upper
  read := hQ
  interests i hi := (h.interests i hi).mono (by omega) hPQ
  datas d hd := (h.datas d hd).mono hPQ
  asked := h.asked
  unasked := h.unasked
  stored k d hd := by
    obtain ⟨hk, info, hP, heq⟩ := h.stored k d hd
    exact ⟨hk, info, hPQ k info hP, heq⟩
  next := h.next

/-- The sensor goes on to its next number. -/
theorem grow {s : Sensor} (h : Sound lib rm P w) (hs : w.sensor.scheduleNewReading = .ok s) :
    Sound lib rm P { w with sensor := s, sensing := true } := by
  obtain ⟨m, hm, rfl⟩ := ok_of_map hs
  obtain ⟨rfl, hlast⟩ := increment_cases hm
  refine ⟨fun hoff => (by cases hoff), fun _ => ?_, hlast, ?_, ?_, h.datas, ?_, h.unasked, h.stored,
    h.next⟩
  · show 1 ≤ w.sensor.sequence + 1
    cases hon : w.sensing with
    | false =>
        have := h.off hon
        omega
    | true =>
        have := h.on hon
        omega
  · intro k info hP
    obtain ⟨hlo, hhi⟩ := h.read k info hP
    refine ⟨hlo, ?_⟩
    show k ≤ w.sensor.sequence + 1
    omega
  · intro i hi
    refine (h.interests i hi).mono ?_ fun _ _ h => h
    show w.sensor.sequence ≤ w.sensor.sequence + 1
    omega
  · intro i hi
    refine (h.asked i hi).mono ?_
    show w.sensor.sequence ≤ w.sensor.sequence + 1
    omega

theorem express (h : Sound lib rm P w) (hi : Expected lib P w.sensor.sequence i.name) :
    Sound lib rm P (w.express i) :=
  { h with interests := List.forall_mem_cons.mpr ⟨hi, h.interests⟩ }

theorem ask (h : Sound lib rm P w) (hrm : rm ≠ .push)
    (hi : Question lib w.sensor.sequence i.name) : Sound lib rm P (w.ask i) :=
  { h.express (.question hi) with
    asked := List.forall_mem_cons.mpr ⟨hi, h.asked⟩
    unasked := fun heq => absurd heq hrm }

theorem put {od : Option Data} (h : Sound lib rm P w) (hd : ∀ d ∈ od, Genuine lib P d) :
    Sound lib rm P (w.put od) := by
  cases od with
  | none => exact h
  | some d => exact { h with datas := List.forall_mem_cons.mpr ⟨hd d rfl, h.datas⟩ }

/-- An Interest has been called back for. -/
theorem answered (h : Sound lib rm P w) (i : Interest) :
    Sound lib rm P { w with asked := w.asked.erase i } :=
  { h with
    asked := fun j hj => h.asked j (List.mem_of_mem_erase hj)
    unasked := fun hrm => by simp [h.unasked hrm] }

/-- The number is given up. -/
theorem reset (h : Sound lib rm P w) : Sound lib rm P { w with repo := w.repo.handleTimeout } :=
  { h with stored := h.stored, next := .inl rfl }

/-- A reading reaches the repository. -/
theorem store {r : Repo} {stored : Bool} (h : Sound lib rm P w)
    (hlib : lib.Counts (w.sensor.sequence + 1)) (hP : P k info)
    (hs : w.repo.storeReading lib (lib.number k) (rm.block lib info) = .ok (r, stored)) :
    Sound lib rm P { w with repo := r } := by
  obtain ⟨hlo, hhi⟩ := h.read k info hP
  have hread : lib.readNumber (lib.number k) = some k :=
    hlib k hlo (by omega) (hhi.trans h.upper)
  obtain ⟨k', hk', ⟨_, rfl⟩ | ⟨hnew, rfl⟩⟩ := Repo.storeReading_cases hs
  · exact h
  · obtain rfl : k = k' := Option.some.inj (hread.symm.trans hk')
    refine { h with stored := FinMap.forall_insert h.stored ⟨?_, info, hP, rfl⟩, next := .inr ?_ }
    · intro hlast
      have herr := (storeReading_error_iff (b := rm.block lib info) hread).mpr ⟨hnew, by omega⟩
      obtain ⟨f, hf⟩ := herr
      cases hf.symm.trans hs
    · show k + 1 - 1 ∈ (w.repo.store.insert k _).keys
      rw [FinMap.keys_insert, Int.add_sub_cancel]
      exact Finset.mem_insert_self _ _

/-- The repository polls for no reading beyond the next. -/
theorem poll_question {nonce : UInt32} (h : Sound lib rm P w) :
    Question lib w.sensor.sequence (w.repo.pollData lib nonce).name := by
  unfold Repo.pollData
  split
  · next hne =>
      have hmem := h.next.resolve_left hne
      obtain ⟨d, hd⟩ := Option.ne_none_iff_exists'.mp fun hnone => FinMap.notMem_keys.mpr hnone hmem
      obtain ⟨hlast, info, hP, _⟩ := h.stored _ d hd
      obtain ⟨hlo, hhi⟩ := h.read _ info hP
      have hupper := h.upper
      exact .numbered (by omega) (by omega) (by omega)
  · exact .latest

end Sound

/-- What a user is answered is in the store. -/
theorem stored_of_answer {r : Repo} (h : r.handleUserInterest lib i = .ok d) :
    ∃ k, r.store.find k = some d := by
  unfold Repo.handleUserInterest at h
  split at h
  · split at h
    · cases h
    · next k _ =>
        split at h
        · cases h
        · next hfind =>
            obtain rfl := Except.ok.inj h
            exact ⟨k, hfind⟩
  · split at h
    · cases h
    · next hlast =>
        obtain rfl := Except.ok.inj h
        exact Repo.last_some hlast

theorem sound_step (h : Sound lib rm P w) (hlib : lib.Counts (w.sensor.sequence + 1))
    (he : w.Enabled sm rm e) (hs : w.step lib e = .ok (w', o))
    (hread : ∀ info, e.info = some info → o.isSome → P w.sensor.sequence info) :
    Sound lib rm P w' := by
  cases e with
  | startSensor =>
      obtain ⟨s, hnext, heq⟩ := ok_of_map hs
      obtain ⟨rfl, _⟩ := Prod.mk.inj heq
      exact h.grow hnext
  | startRepo =>
      obtain ⟨rfl, _⟩ := Prod.mk.inj (Except.ok.inj hs)
      exact { h with }
  | newReading =>
      obtain ⟨s, hnext, heq⟩ := ok_of_map hs
      obtain ⟨rfl, _⟩ := Prod.mk.inj heq
      have hon : w.sensing = true := he
      have hgrow := h.grow hnext
      rwa [← hon] at hgrow
  | push info nonce =>
      obtain ⟨rfl, rfl⟩ := Prod.mk.inj (Except.ok.inj hs)
      exact h.express (.pushed (hread info rfl rfl))
  | notify nonce =>
      obtain ⟨rfl, _⟩ := Prod.mk.inj (Except.ok.inj hs)
      exact h.express (.notified (h.on he.1) (by omega) h.upper)
  | readInterest i info =>
      obtain ⟨od, hod, heq⟩ := ok_of_map hs
      obtain ⟨rfl, rfl⟩ := Prod.mk.inj heq
      obtain ⟨_, hi, hname⟩ := he
      have hquestion := (h.interests i hi).to_sensor hname
      rcases handleInterest_question info hlib hquestion with hnone | hsome
      · obtain rfl := Except.ok.inj (hod.symm.trans hnone)
        exact h
      · obtain rfl := Except.ok.inj (hod.symm.trans hsome)
        refine h.put ?_
        intro d hd _
        obtain rfl := Option.some.inj hd
        exact ⟨w.sensor.sequence, info, hread info rfl rfl, rfl, rfl⟩
  | poll nonce =>
      obtain ⟨rfl, _⟩ := Prod.mk.inj (Except.ok.inj hs)
      obtain ⟨_, rfl⟩ := he
      exact h.ask (by decide) h.poll_question
  | pushInterest i =>
      obtain ⟨⟨r, od⟩, hr, heq⟩ := ok_of_map hs
      obtain ⟨rfl, _⟩ := Prod.mk.inj heq
      obtain ⟨_, rfl, hi, hname⟩ := he
      obtain ⟨k, info, hP, hname'⟩ := (h.interests i hi).to_push hname
      rw [handlePushInterest_reading hname'] at hr
      obtain ⟨⟨r', stored⟩, hstore, heq⟩ := ok_of_map hr
      obtain ⟨rfl, rfl⟩ := Prod.mk.inj heq
      refine (h.store hlib hP hstore).put ?_
      intro d hd
      split at hd
      · obtain rfl := Option.some.inj hd
        have hunder : pushPrefix <+: i.name ++ [component "ack"] :=
          hname.trans (List.prefix_append _ _)
        exact genuine_of_other hunder (by decide)
      · cases hd
  | notifyInterest i nonce =>
      obtain ⟨j, hj, heq⟩ := ok_of_map hs
      obtain ⟨rfl, _⟩ := Prod.mk.inj heq
      obtain ⟨_, rfl, hi, hname⟩ := he
      obtain ⟨k, hlo, hhi, hlast, hname'⟩ := (h.interests i hi).to_notify hname
      rw [handleNotifyInterest_reading hname'] at hj
      obtain rfl := Except.ok.inj hj
      exact h.ask (by decide) (.numbered hlo (by omega) hlast)
  | data i d =>
      obtain ⟨r, hr, heq⟩ := ok_of_map hs
      obtain ⟨rfl, _⟩ := Prod.mk.inj heq
      obtain ⟨hi, hd, hname⟩ := he
      obtain ⟨k, info, hP, hname', hcontent⟩ := h.datas d hd ((h.asked i hi).under.trans hname)
      rw [handleData_reading hname'] at hr
      obtain ⟨⟨r', stored⟩, hstore, rfl⟩ := ok_of_map hr
      have hblock : lib.getContent d = rm.block lib info := by
        rw [← hcontent]
        cases rm with
        | poll | notify => rfl
        | push =>
            rw [h.unasked rfl] at hi
            cases hi
      rw [hblock] at hstore
      exact (h.store hlib hP hstore).answered i
  | timeout i =>
      obtain ⟨rfl, _⟩ := Prod.mk.inj (Except.ok.inj hs)
      exact h.reset.answered i
  | userInterest i =>
      obtain ⟨d, hd, heq⟩ := ok_of_map hs
      obtain ⟨rfl, _⟩ := Prod.mk.inj heq
      refine h.put ?_
      intro d' hd'
      obtain rfl := Option.some.inj hd'
      obtain ⟨k, hk⟩ := stored_of_answer hd
      obtain ⟨_, info, _, rfl⟩ := h.stored k d hk
      have hunder : dataPrefix <+: dataPrefix ++ [lib.number k] := List.prefix_append _ _
      exact genuine_of_other hunder (by decide)

/-! ## Runs -/

/-- The sensor's number goes up. -/
theorem sequence_mono_step (hs : w.step lib e = .ok (w', o)) :
    w.sensor.sequence ≤ w'.sensor.sequence := by
  have hgrow : ∀ s, w.sensor.scheduleNewReading = .ok s → w.sensor.sequence ≤ s.sequence := by
    intro s hs
    obtain ⟨m, hm, rfl⟩ := ok_of_map hs
    obtain ⟨rfl, _⟩ := increment_cases hm
    show w.sensor.sequence ≤ w.sensor.sequence + 1
    omega
  cases e with
  | startSensor | newReading =>
      obtain ⟨s, hnext, heq⟩ := ok_of_map hs
      obtain ⟨rfl, _⟩ := Prod.mk.inj heq
      exact hgrow s hnext
  | startRepo | push | notify | poll | timeout =>
      obtain ⟨rfl, _⟩ := Prod.mk.inj (Except.ok.inj hs)
      exact Int.le_refl _
  | readInterest | pushInterest =>
      obtain ⟨x, _, heq⟩ := ok_of_map hs
      obtain ⟨rfl, _⟩ := Prod.mk.inj heq
      unfold put
      split <;> exact Int.le_refl _
  | notifyInterest | data | userInterest =>
      obtain ⟨x, _, heq⟩ := ok_of_map hs
      obtain ⟨rfl, _⟩ := Prod.mk.inj heq
      exact Int.le_refl _

theorem sequence_mono_run (hrun : (system lib sm rm).Run w tr w') :
    w.sensor.sequence ≤ w'.sensor.sequence :=
  hrun.invariant (I := fun u => w.sensor.sequence ≤ u.sensor.sequence)
    (fun _ _ _ _ hle _ hs => hle.trans (sequence_mono_step hs)) (Int.le_refl _)

/-- The sensor, at number `k`, puts these bytes in a packet. -/
def Reads (k : Int) (info : List UInt8) (w : Wsn) (e : WsnEvent) (o : Option Wire) : Prop :=
  w.sensor.sequence = k ∧ e.info = some info ∧ o.isSome

/-- It did so in the trace. -/
def WasRead (lib : AppCxx) (sm rm : OptMode) (tr : List (WsnEvent × Option Wire)) (k : Int)
    (info : List UInt8) : Prop :=
  (system lib sm rm).Happened new (Reads k info) tr

theorem sound_new : Sound lib rm P new ↔ ∀ k info, ¬ P k info := by
  refine ⟨?_, ?_⟩
  · intro h k info hP
    obtain ⟨hlo, hhi⟩ := h.read k info hP
    have hzero : k ≤ 0 := hhi
    omega
  · intro hP
    exact ⟨fun _ => rfl, fun h => (by cases h), by decide, fun k info h => absurd h (hP k info),
      fun _ h => (by cases h), fun _ h => (by cases h), fun _ h => (by cases h), fun _ => rfl,
      fun _ _ h => (by cases h), .inl rfl⟩

/-- Only a sensor that is on reads. -/
theorem on_of_info (he : w.Enabled sm rm e) (h : e.info = some info) : w.sensing = true := by
  cases e with
  | push | readInterest => exact he.1
  | startSensor | startRepo | newReading | notify | poll | pushInterest | notifyInterest | data
  | timeout | userInterest => cases h

theorem sound_run (hrun : (system lib sm rm).Run new tr w)
    (hlib : lib.Counts (w.sensor.sequence + 1)) : Sound lib rm (WasRead lib sm rm tr) w := by
  revert hlib
  refine hrun.invariant_past (J := fun tr w => lib.Counts (w.sensor.sequence + 1) →
    Sound lib rm (WasRead lib sm rm tr) w) ?_ ?_
  · intro tr w e w' o hrun ih he hs hlib
    have hlib' : lib.Counts (w.sensor.sequence + 1) := by
      have hle := sequence_mono_step hs
      exact hlib.mono (by omega)
    have h := ih hlib'
    refine sound_step (h.mono (fun _ _ hP => hP.extend _) ?_) hlib' he hs ?_
    · intro k info hP
      rcases (System.happened_snoc hrun).mp hP with hold | ⟨rfl, hinfo, _⟩
      · exact h.read k info hold
      · exact ⟨h.on (on_of_info he hinfo), Int.le_refl _⟩
    · intro info hinfo ho
      exact .last hrun ⟨rfl, hinfo, ho⟩
  · intro _
    exact sound_new.mpr fun _ _ => System.not_happened_nil

/-- The question of a repository that has no number. -/
def question : Interest := Repo.new.pollData Repo.digitCxx 1

/-- The answer of a sensor at `n` that reads 75. -/
def answer (n : Int) : Data :=
  Repo.digitCxx.makeData (readPrefix ++ [Repo.digitCxx.number n]) 5000 [75]

/-- Readings 1 and 2 are polled, and after each a user asks for the last. -/
def polledTwice : List WsnEvent :=
  [.startSensor, .startRepo, .poll 1, .readInterest question [75], .data question (answer 1),
    .userInterest (Repo.ask []), .newReading, .poll 1,
    .readInterest (Repo.pollData Repo.digitCxx ⟨∅, 2⟩ 1) [75],
    .data (Repo.pollData Repo.digitCxx ⟨∅, 2⟩ 1) (answer 2), .userInterest (Repo.ask [])]

theorem digitCxx_counts : Repo.digitCxx.Counts 3 := by
  intro k hlo hhi _
  obtain rfl | rfl | rfl : k = 1 ∨ k = 2 ∨ k = 3 := by omega
  · rfl
  · rfl
  · rfl

theorem polledTwice_run : ∃ tr w d c, (system Repo.digitCxx .poll .poll).Run new tr w ∧
    w.sensor.sequence = 2 ∧ w.repo.store.find 1 = some d ∧
    tr[5]? = some (.userInterest (Repo.ask []), some (.data d)) ∧
    tr[10]? = some (.userInterest (Repo.ask []), some (.data c)) :=
  ⟨_, _, _, _, System.run_of_exec (show (system Repo.digitCxx .poll .poll).exec new polledTwice =
    some (_, _) from rfl), rfl, rfl, rfl, rfl⟩

/-! ## What is stored, and what a user is answered -/

/-- **What is stored was read**: whatever the network does, the Data under a
number is the repository's own, of bytes the sensor read when it was at that
number. -/
theorem stored_was_read (hrun : (system lib sm rm).Run new tr w)
    (hlib : lib.Counts (w.sensor.sequence + 1)) (hd : w.repo.store.find k = some d) :
    1 ≤ k ∧ k ≤ w.sensor.sequence ∧ ∃ info, WasRead lib sm rm tr k info ∧
      d = Repo.repoData lib (lib.number k) (rm.block lib info) := by
  have h := sound_run hrun hlib
  obtain ⟨_, info, hP, heq⟩ := h.stored k d hd
  obtain ⟨hlo, hhi⟩ := h.read k info hP
  exact ⟨hlo, hhi, info, hP, heq⟩

theorem stored_was_read_polled : ∃ tr d info, WasRead Repo.digitCxx .poll .poll tr 1 info ∧
    d = Repo.repoData Repo.digitCxx (Repo.digitCxx.number 1)
      (OptMode.block Repo.digitCxx info .poll) := by
  obtain ⟨tr, w, d, _, hrun, hseq, hd, _⟩ := polledTwice_run
  have hlib : Repo.digitCxx.Counts (w.sensor.sequence + 1) := hseq ▸ digitCxx_counts
  obtain ⟨_, _, info, hread, heq⟩ := stored_was_read hrun hlib hd
  exact ⟨tr, d, info, hread, heq⟩

/-- The repository gives up its number, is brought a reading, or is left alone. -/
theorem repo_cases (hs : w.step lib e = .ok (w', o)) :
    w'.repo = w.repo ∨ w'.repo = w.repo.handleTimeout ∨
      ∃ c b stored, w.repo.storeReading lib c b = .ok (w'.repo, stored) := by
  cases e with
  | startRepo | push | notify | poll =>
      obtain ⟨rfl, _⟩ := Prod.mk.inj (Except.ok.inj hs)
      exact .inl rfl
  | timeout =>
      obtain ⟨rfl, _⟩ := Prod.mk.inj (Except.ok.inj hs)
      exact .inr (.inl rfl)
  | startSensor | newReading | notifyInterest | userInterest =>
      obtain ⟨x, _, heq⟩ := ok_of_map hs
      obtain ⟨rfl, _⟩ := Prod.mk.inj heq
      exact .inl rfl
  | readInterest =>
      obtain ⟨od, _, heq⟩ := ok_of_map hs
      obtain ⟨rfl, _⟩ := Prod.mk.inj heq
      cases od <;> exact .inl rfl
  | pushInterest i =>
      obtain ⟨⟨r, od⟩, hr, heq⟩ := ok_of_map hs
      obtain ⟨rfl, _⟩ := Prod.mk.inj heq
      obtain ⟨c, v, stored, hstore⟩ := Repo.handlePushInterest_cases hr
      refine .inr (.inr ⟨c, lib.wireEncode v, stored, ?_⟩)
      cases od <;> exact hstore
  | data i d =>
      obtain ⟨r, hr, heq⟩ := ok_of_map hs
      obtain ⟨rfl, _⟩ := Prod.mk.inj heq
      obtain ⟨c, stored, hstore⟩ := Repo.handleData_cases hr
      exact .inr (.inr ⟨c, _, stored, hstore⟩)

/-- What is stored stays as it is. -/
theorem stored_stays_step (hs : w.step lib e = .ok (w', o)) (hd : w.repo.store.find k = some d) :
    w'.repo.store.find k = some d := by
  rcases repo_cases hs with heq | heq | ⟨c, b, stored, hstore⟩
  · rw [heq]
    exact hd
  · rw [heq]
    exact hd
  · obtain ⟨k', _, ⟨_, heq⟩ | ⟨hnew, heq⟩⟩ := Repo.storeReading_cases hstore
    · rw [heq]
      exact hd
    · have hne : k ≠ k' := fun hkk => hnew (hkk ▸ FinMap.mem_keys_of_find hd)
      rw [heq]
      exact (FinMap.find_insert_ne hne).trans hd

theorem stored_stays_run (hrun : (system lib sm rm).Run w tr w')
    (hd : w.repo.store.find k = some d) : w'.repo.store.find k = some d :=
  hrun.invariant (I := fun u => u.repo.store.find k = some d)
    (fun _ _ _ _ hd _ hs => stored_stays_step hs hd) hd

/-- The last entry of a store has its greatest number. -/
theorem last_greatest {r : Repo} (h : r.last = some d) :
    ∃ k, r.store.find k = some d ∧ ∀ j ∈ r.store.keys, j ≤ k := by
  obtain ⟨k, hk, hd⟩ := Option.bind_eq_some_iff.mp h
  refine ⟨k, hd, ?_⟩
  intro j hj
  have hsorted : (ascending r.store.keys).Pairwise (· ≤ ·) := by
    rw [ascending_eq_sort]
    exact Finset.pairwise_sort _ _
  obtain ⟨l, hl⟩ := List.getLast?_eq_some_iff.mp hk
  rw [hl, List.pairwise_append] at hsorted
  rcases List.mem_append.mp (hl ▸ mem_ascending.mpr hj) with hj | hj
  · exact hsorted.2.2 j hj k (List.mem_singleton_self k)
  · exact le_of_eq (List.mem_singleton.mp hj)

/-- A user's Interest is answered out of the store: under the number it asks
for, and under the greatest if it asks for none. -/
theorem answer_cases {r : Repo} (hname : dataPrefix <+: i.name)
    (h : r.handleUserInterest lib i = .ok d) :
    ∃ k, r.store.find k = some d ∧
      (∀ c, i.name = dataPrefix ++ [c] → lib.readNumber c = some k) ∧
      (i.name.length ≠ 4 → ∀ j ∈ r.store.keys, j ≤ k) := by
  rcases Repo.under_dataPrefix hname with ⟨c, hc⟩ | hlen
  · obtain ⟨k, hk, hd⟩ := (Repo.handleUserInterest_numbered hc).mp h
    refine ⟨k, hd, ?_, ?_⟩
    · intro c' hc'
      obtain rfl : c = c' := by simpa using hc.symm.trans hc'
      exact hk
    · intro hne
      rw [hc] at hne
      exact absurd rfl hne
  · obtain ⟨k, hd, hmax⟩ := last_greatest ((Repo.handleUserInterest_other hlen).mp h)
    refine ⟨k, hd, ?_, fun _ => hmax⟩
    intro c hc
    rw [hc] at hlen
    exact absurd rfl hlen

/-- After that trace, `d` answers `i` with the reading numbered `k`. -/
structure Answers (lib : AppCxx) (sm rm : OptMode) (tr : List (WsnEvent × Option Wire))
    (i : Interest) (k : Int) (d : Data) : Prop where
  requested : ∀ c, i.name = dataPrefix ++ [c] → lib.readNumber c = some k
  read : ∃ info, WasRead lib sm rm tr k info ∧
    d = Repo.repoData lib (lib.number k) (rm.block lib info)

/-- An answer in a run, and what the repository held then. -/
theorem answer_at {p : Nat} (hrun : (system lib sm rm).Run new tr w)
    (hlib : lib.Counts (w.sensor.sequence + 1))
    (hp : tr[p]? = some (.userInterest i, some (.data d))) :
    ∃ u k, (system lib sm rm).Run new (tr.take p) u ∧ u.repo.store.find k = some d ∧
      Answers lib sm rm (tr.take p) i k d ∧
      (i.name.length ≠ 4 → ∀ j ∈ u.repo.store.keys, j ≤ k) := by
  obtain ⟨hlt, hget⟩ := List.getElem?_eq_some_iff.mp hp
  have htr : tr.take p ++ ((.userInterest i, some (.data d)) :: tr.drop (p + 1)) = tr := by
    rw [← hget, ← List.drop_eq_getElem_cons hlt, List.take_append_drop]
  rw [← htr] at hrun
  obtain ⟨u, hbefore, hfrom⟩ := hrun.split
  have hle := sequence_mono_run hfrom
  obtain ⟨_, he, hs, _⟩ := hfrom.cons_inv
  obtain ⟨d', hd', heq⟩ := ok_of_map hs
  obtain ⟨rfl, ho⟩ := Prod.mk.inj heq
  obtain rfl : d' = d := by simpa using ho
  obtain ⟨k, hk, hrequested, hmax⟩ := answer_cases he.2 hd'
  have hlib' : lib.Counts (u.sensor.sequence + 1) := hlib.mono (by omega)
  have hread := (sound_run hbefore hlib').stored k d' hk
  exact ⟨u, k, hbefore, hk, ⟨hrequested, hread.2⟩, hmax⟩

/-- **What users are told hangs together**: a user is answered with a reading
that was taken, under the number that was asked for; two answers under one
number are the same Data; and a user who asks for no number is never told an
older reading than a user before. -/
theorem user_answers {p q : Nat} {j : Interest} {c : Data}
    (hrun : (system lib sm rm).Run new tr w) (hlib : lib.Counts (w.sensor.sequence + 1))
    (hle : p ≤ q) (hp : tr[p]? = some (.userInterest i, some (.data d)))
    (hq : tr[q]? = some (.userInterest j, some (.data c))) :
    ∃ k l, Answers lib sm rm (tr.take p) i k d ∧ Answers lib sm rm (tr.take q) j l c ∧
      (k = l → d = c) ∧ (j.name.length ≠ 4 → k ≤ l) := by
  obtain ⟨u, k, hu, hk, hansp, _⟩ := answer_at hrun hlib hp
  obtain ⟨v, l, hv, hl, hansq, hmax⟩ := answer_at hrun hlib hq
  have hsplit : tr.take q = tr.take p ++ (tr.take q).drop p := by
    have hpp : (tr.take q).take p = tr.take p := by rw [List.take_take, Nat.min_eq_left hle]
    rw [← hpp, List.take_append_drop]
  rw [hsplit] at hv
  obtain ⟨u', hu', hbetween⟩ := hv.split
  obtain rfl := hu.deterministic hu'
  have hstays := stored_stays_run hbetween hk
  refine ⟨k, l, hansp, hansq, ?_, ?_⟩
  · intro hkl
    rw [hkl] at hstays
    exact Option.some.inj (hstays.symm.trans hl)
  · intro hlen
    exact hmax hlen k (FinMap.mem_keys_of_find hstays)

theorem user_answers_polled : ∃ (tr : List (WsnEvent × Option Wire)) (d c : Data) (k l : Int),
    Answers Repo.digitCxx .poll .poll (tr.take 5) (Repo.ask []) k d ∧
    Answers Repo.digitCxx .poll .poll (tr.take 10) (Repo.ask []) l c ∧ k ≤ l := by
  obtain ⟨tr, w, d, c, hrun, hseq, _, hp, hq⟩ := polledTwice_run
  have hlib : Repo.digitCxx.Counts (w.sensor.sequence + 1) := hseq ▸ digitCxx_counts
  obtain ⟨k, l, hk, hl, _, hle⟩ := user_answers hrun hlib (show 5 ≤ 10 by omega) hp hq
  exact ⟨tr, d, c, k, l, hk, hl, hle (by decide)⟩

/-! ## What ends the applications -/

/-- The event brings the repository a reading numbered `k`. -/
def Brings (lib : AppCxx) (k : Int) : WsnEvent → Prop
  | .pushInterest i => ∃ c info, i.name = pushPrefix ++ [c, info] ∧ lib.readNumber c = some k
  | .data _ d => ∃ c, d.name = readPrefix ++ [c] ∧ lib.readNumber c = some k
  | .startSensor | .startRepo | .newReading | .push _ _ | .notify _ | .readInterest _ _ | .poll _
  | .notifyInterest _ _ | .timeout _ | .userInterest _ => False

/-- What ends an application: an `int` that has no next, or a user's request
that the store has no answer to. -/
inductive Ends (lib : AppCxx) (w : Wsn) : WsnEvent → Prop
  | newReading (h : w.sensor.sequence = lastInt) : Ends lib w .newReading
  | reading {e : WsnEvent} (h : Brings lib lastInt e) : Ends lib w e
  | userInterest {i : Interest} (h : ¬ w.repo.Answerable lib i) : Ends lib w (.userInterest i)

theorem scheduleNewReading_error_iff {s : Sensor} :
    (∃ f, s.scheduleNewReading = .error f) ↔ lastInt ≤ s.sequence := by
  unfold Sensor.scheduleNewReading increment lastInt
  rw [exists_error_map]
  split
  · simp only [reduceCtorEq, exists_false, false_iff]
    omega
  · simp only [Except.error.injEq, exists_eq', true_iff]
    omega

namespace Sound

/-- No stored number is the last. -/
theorem last_notMem (h : Sound lib rm P w) : lastInt ∉ w.repo.store.keys := by
  intro hmem
  obtain ⟨d, hd⟩ := Option.ne_none_iff_exists'.mp fun hnone => FinMap.notMem_keys.mpr hnone hmem
  exact (h.stored _ d hd).1 rfl

/-- A reading on its way is stored, or is known, unless its number is the last. -/
theorem storeReading_error_iff {b : TlvBlock} (h : Sound lib rm P w)
    (hlib : lib.Counts (w.sensor.sequence + 1)) (hP : P k info) :
    (∃ f, w.repo.storeReading lib (lib.number k) b = .error f) ↔ k = lastInt := by
  obtain ⟨hlo, hhi⟩ := h.read k info hP
  have hupper := h.upper
  rw [Wsn.storeReading_error_iff (hlib k hlo (by omega) (by omega))]
  refine ⟨fun herr => ?_, ?_⟩
  · have hge := herr.2
    omega
  · rintro rfl
    exact ⟨h.last_notMem, Int.le_refl _⟩

/-- What the number is read as. -/
theorem readNumber_iff (h : Sound lib rm P w) (hlib : lib.Counts (w.sensor.sequence + 1))
    (hP : P k info) : lib.readNumber (lib.number k) = some n ↔ k = n := by
  obtain ⟨hlo, hhi⟩ := h.read k info hP
  rw [hlib k hlo (by omega) (hhi.trans h.upper), Option.some_inj]

end Sound

/-- **What ends the two applications** is only the end of the `int`s and what a
user asks: no assertion fails and every number is read, whatever the network
does with the packets. -/
theorem ends_iff (hrun : (system lib sm rm).Run new tr w)
    (hlib : lib.Counts (w.sensor.sequence + 1)) (he : w.Enabled sm rm e) :
    (∃ f, w.step lib e = .error f) ↔ Ends lib w e := by
  have h := sound_run hrun hlib
  cases e with
  | startSensor =>
      have hzero := h.off he
      refine iff_of_false ?_ ?_
      · intro herr
        have hlast := scheduleNewReading_error_iff.mp (exists_error_map.mp herr)
        rw [hzero] at hlast
        revert hlast
        decide
      · intro hends
        cases hends with
        | reading hbrings => exact hbrings
  | newReading =>
      refine exists_error_map.trans (scheduleNewReading_error_iff.trans ?_)
      have hupper := h.upper
      refine ⟨fun hlast => .newReading (by omega), ?_⟩
      intro hends
      cases hends with
      | newReading hlast => omega
      | reading hbrings => exact absurd hbrings id
  | startRepo | push | notify | poll | timeout =>
      refine iff_of_false ?_ ?_
      · intro herr
        obtain ⟨f, hf⟩ := herr
        cases hf
      · intro hends
        cases hends with
        | reading hbrings => exact hbrings
  | readInterest i info =>
      obtain ⟨_, hi, hname⟩ := he
      refine iff_of_false ?_ ?_
      · intro herr
        obtain ⟨f, hf⟩ := exists_error_map.mp herr
        rcases handleInterest_question info hlib ((h.interests i hi).to_sensor hname) with
          hnone | hsome
        · cases hf.symm.trans hnone
        · cases hf.symm.trans hsome
      · intro hends
        cases hends with
        | reading hbrings => exact hbrings
  | notifyInterest i nonce =>
      obtain ⟨_, _, hi, hname⟩ := he
      obtain ⟨k, _, _, _, hname'⟩ := (h.interests i hi).to_notify hname
      refine iff_of_false ?_ ?_
      · intro herr
        obtain ⟨f, hf⟩ := exists_error_map.mp herr
        cases hf.symm.trans (handleNotifyInterest_reading hname')
      · intro hends
        cases hends with
        | reading hbrings => exact hbrings
  | pushInterest i =>
      obtain ⟨_, _, hi, hname⟩ := he
      obtain ⟨k, info, hP, hname'⟩ := (h.interests i hi).to_push hname
      refine exists_error_map.trans ?_
      rw [handlePushInterest_reading hname', exists_error_map, h.storeReading_error_iff hlib hP]
      refine ⟨fun hk => .reading ⟨_, _, hname', (h.readNumber_iff hlib hP).mpr hk⟩, ?_⟩
      intro hends
      cases hends with
      | reading hbrings =>
          obtain ⟨c, info', hc, hread⟩ := hbrings
          obtain ⟨rfl, _⟩ : lib.number k = c ∧ info = info' := by simpa using hname'.symm.trans hc
          exact (h.readNumber_iff hlib hP).mp hread
  | data i d =>
      obtain ⟨hi, hd, hname⟩ := he
      obtain ⟨k, info, hP, hname', _⟩ := h.datas d hd ((h.asked i hi).under.trans hname)
      refine exists_error_map.trans ?_
      rw [handleData_reading hname', exists_error_map, h.storeReading_error_iff hlib hP]
      refine ⟨fun hk => .reading ⟨_, hname', (h.readNumber_iff hlib hP).mpr hk⟩, ?_⟩
      intro hends
      cases hends with
      | reading hbrings =>
          obtain ⟨c, hc, hread⟩ := hbrings
          obtain rfl : lib.number k = c := by simpa using hname'.symm.trans hc
          exact (h.readNumber_iff hlib hP).mp hread
  | userInterest i =>
      refine exists_error_map.trans ?_
      rw [not_ok_iff, Repo.answers_iff he.2]
      refine ⟨fun hno => .userInterest hno, ?_⟩
      intro hends
      cases hends with
      | reading hbrings => exact absurd hbrings id
      | userInterest hno => exact hno

/-- A user asks a repository that has just started. -/
theorem ends_iff_asked : ∃ tr w, (system Repo.digitCxx .poll .poll).Run new tr w ∧
    Ends Repo.digitCxx w (.userInterest (Repo.ask [])) := by
  have hrun : (system Repo.digitCxx .poll .poll).Run new [(.startRepo, none)]
      { new with storing := true } := .single rfl rfl
  have hlib : Repo.digitCxx.Counts 1 := digitCxx_counts.mono (by omega)
  have he : ({ new with storing := true } : Wsn).Enabled .poll .poll
      (.userInterest (Repo.ask [])) := by decide
  exact ⟨_, _, hrun, (ends_iff hrun hlib he).mp ⟨_, rfl⟩⟩

end Wsn

end NdnEm
