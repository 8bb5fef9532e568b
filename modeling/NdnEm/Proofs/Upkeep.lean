import NdnEm.Core.Upkeep
import NdnEm.Lib.Past
import NdnEm.Proofs.NodeView

/-!
# What is pending is recent

Nothing takes a record out of the table of pending Interests when it expires.
The cleanup does so later, if it is called. It is: each node's timer is armed
from the start on, and the one handler that finds it unarmed arms it again, so
that it never stops and no wait is ever cancelled.

How long a record can outlive its Interest follows from where the timer stands.
Its expiry is at most one interval ahead when a record is made, and when the
cleanup leaves a record behind, its Interest has not expired. So if no timer is
handled more than `slack` after its time, a record is gone one interval and
twice the slack after its Interest expired: the table is bounded by what the
node was asked in that time, however long it runs and whatever is never
answered.
-/

namespace NdnEm

open Lib

namespace Pit

variable {t : Pit} {now f : Int} {i : Interest} {m name : Name} {k : UInt32} {r : FaceRecord}

/-- A record was there before an Interest was added, or was made for it. -/
theorem record_addInterest_cases (h : (t.addInterest now f i).2.record m k = some r) :
    t.record m k = some r ∨
      m = i.name ∧ k = i.nonce ∧ r.faceId = f ∧ r.expire = now + i.interestLifetime := by
  rw [record_addInterest] at h
  split at h
  · next hnew =>
      obtain rfl := Option.some.inj h
      exact .inr ⟨hnew.1.1, hnew.1.2, rfl, rfl⟩
  · exact .inl h

theorem record_of_consume {out : Finset Int}
    (h : (t.consumeInterestWithDataName now name out).1.record m k = some r) :
    t.record m k = some r := by
  rw [record_consume] at h
  split at h
  · cases h
  · exact h

end Pit

namespace Node

variable {lib : NdnCxx} {n n' : Node} {clk : Clock} {f : Int} {i : Interest} {d : Data}
  {o : Option Forward} {e : NodeEvent} {m : Name} {k : UInt32} {r : FaceRecord}

theorem record_handleData (h : n.handleData clk f d = .ok (n', o))
    (hr : n'.pit.record m k = some r) : n.pit.record m k = some r := by
  have hpit : n'.pit = (n.pit.consumeInterestWithDataName clk.consume d.name ∅).1 := by
    rcases handleData_cases h with ⟨_, rfl, _⟩ | ⟨_, c, _, rfl, _⟩
    · rfl
    · rfl
  rw [hpit] at hr
  exact Pit.record_of_consume hr

theorem record_processCommand (h : n.processCommand lib clk f i = .ok (n', o))
    (hr : n'.pit.record m k = some r) : n.pit.record m k = some r := by
  rcases processCommand_cases h with ⟨rfl, _⟩ | ⟨fib, response, _, hdata⟩
  · exact hr
  · have hold := record_handleData (f := 0) hdata hr
    exact hold

theorem record_handleInterest (h : n.handleInterest lib clk f i = .ok (n', o))
    (hr : n'.pit.record m k = some r) : n.pit.record m k = some r ∨
      m = i.name ∧ k = i.nonce ∧ r.faceId = f ∧ r.expire = clk.add + i.interestLifetime := by
  rcases handleInterest_cases h with ⟨_, _, rfl, _⟩ | ⟨_, hrest⟩
  · exact .inl hr
  · rcases hrest with ⟨_, rfl, _⟩ | ⟨_, _, rfl, _⟩ | ⟨_, _, hcmd⟩ | ⟨_, _, _, rfl, _⟩
    · exact Pit.record_addInterest_cases hr
    · exact Pit.record_addInterest_cases hr
    · exact Pit.record_addInterest_cases (record_processCommand hcmd hr)
    · exact Pit.record_addInterest_cases hr

/-- A record was made for the Interest that is handled, or it was there before,
and if this was a cleanup it had not expired. -/
theorem record_step (h : n.step lib e = .ok (n', o)) (hr : n'.pit.record m k = some r) :
    (n.pit.record m k = some r ∧ ∀ now, e = .cleanUp now → now ≤ r.expire) ∨
      ∃ clk i, e = .interest clk r.faceId i ∧ i.name = m ∧ i.nonce = k ∧
        r.expire = clk.add + i.interestLifetime := by
  cases e with
  | interest clk f i =>
      rcases record_handleInterest h hr with hold | ⟨hname, hnonce, rfl, hexp⟩
      · exact .inl ⟨hold, by simp⟩
      · exact .inr ⟨clk, i, rfl, hname.symm, hnonce.symm, hexp⟩
  | data clk f d => exact .inl ⟨record_handleData (f := f) h hr, by simp⟩
  | removeFace f =>
      rw [removeFace_cases (step_removeFace h).1] at hr
      exact .inl ⟨hr, by simp⟩
  | cleanUp now =>
      obtain ⟨rfl, _⟩ := Prod.mk.inj (Except.ok.inj h)
      obtain ⟨hr, hle⟩ := Pit.record_cleanUp_eq_some.mp hr
      refine .inl ⟨hr, ?_⟩
      intro now' heq
      obtain rfl := NodeEvent.cleanUp.inj heq
      exact hle
  | addLinkFace mac dev =>
      obtain ⟨rfl, _⟩ := Prod.mk.inj (Except.ok.inj h)
      exact .inl ⟨hr, by simp⟩
  | accept =>
      obtain ⟨face, _, rfl, _⟩ := step_accept h
      exact .inl ⟨hr, by simp⟩

end Node

namespace Emulator

variable {mode : Rearm} {lib : NdnCxx} {em em' : Emulator} {id : String} {e : Event}
  {out : Output} {n n' : Node} {m : Name} {k : UInt32} {r : FaceRecord}

/-- The same of a node in a network. -/
theorem record_step (h : em.step mode lib e = .ok (em', out))
    (hn : em'.nodeTable.find id = some n') (hr : n'.pit.record m k = some r) :
    ∃ n, em.nodeTable.find id = some n ∧
      ((n.pit.record m k = some r ∧
          ∀ now, em.nodeEvent e = some (id, .cleanUp now) → now ≤ r.expire) ∨
        ∃ clk i, em.nodeEvent e = some (id, .interest clk r.faceId i) ∧ i.name = m ∧
          i.nonce = k ∧ r.expire = clk.add + i.interestLifetime) := by
  by_cases hev : ∃ ne, em.nodeEvent e = some (id, ne)
  · obtain ⟨ne, hev⟩ := hev
    obtain ⟨n, n₁, o, hn₀, hstep, hn₁, _⟩ := step_handles hev h
    obtain rfl := Option.some.inj (hn₁.symm.trans hn)
    refine ⟨n, hn₀, ?_⟩
    rcases Node.record_step hstep hr with ⟨hold, hclean⟩ | ⟨clk, i, rfl, hi⟩
    · refine .inl ⟨hold, fun now hnow => hclean now ?_⟩
      exact (Prod.mk.inj (Option.some.inj (hev.symm.trans hnow))).2
    · exact .inr ⟨clk, i, hev, hi⟩
  · have hnot : ∀ ne, em.nodeEvent e ≠ some (id, ne) := fun ne h => hev ⟨ne, h⟩
    have hno : ∀ now, em.nodeEvent e = some (id, .cleanUp now) → now ≤ r.expire :=
      fun now h => absurd h (hnot _)
    rcases (step_elsewhere hnot h).2 with hsame | ⟨n, src, ref, hn₀, hn₁⟩
    · exact ⟨n', hsame.symm.trans hn, .inl ⟨hr, hno⟩⟩
    · obtain rfl := Option.some.inj (hn₁.symm.trans hn)
      exact ⟨n, hn₀, .inl ⟨hr, hno⟩⟩

theorem node_of_cleanUp {now : Int} (h : em.step mode lib (.cleanUp id now) = .ok (em', out)) :
    ∃ n, em.nodeTable.find id = some n := by
  obtain ⟨n, _, _, hn, _⟩ := step_handles rfl h
  exact ⟨n, hn⟩

/-- Every node has been there before. -/
theorem find_before (h : em.step mode lib e = .ok (em', out))
    (hn : em'.nodeTable.find id = some n') : ∃ n, em.nodeTable.find id = some n := by
  by_cases hev : ∃ ne, em.nodeEvent e = some (id, ne)
  · obtain ⟨ne, hev⟩ := hev
    obtain ⟨n, _, _, hn₀, _⟩ := step_handles hev h
    exact ⟨n, hn₀⟩
  · rcases (step_elsewhere (fun ne h => hev ⟨ne, h⟩) h).2 with hsame | ⟨n, _, _, hn₀, _⟩
    · exact ⟨n', hsame.symm.trans hn⟩
    · exact ⟨n, hn₀⟩

/-- A handler that gives a node an Interest reads the clock for it. -/
theorem clock_of_nodeEvent {clk : Clock} {f : Int} {i : Interest}
    (h : em.nodeEvent e = some (id, .interest clk f i)) : e.clock = some clk := by
  have harrival : ∀ {clk' : Clock} {g : Int} {w : Wire},
      NodeEvent.interest clk f i = arrival clk' g w → clk' = clk := by
    intro clk' g w h
    cases w with
    | interest j => exact (NodeEvent.interest.inj h).1.symm
    | data d => cases h
  cases e with
  | appReceive id' g clk' raw blk =>
      cases blk with
      | packet w =>
          have hev := (Prod.mk.inj (Option.some.inj h)).2
          rw [Event.clock, harrival hev.symm]
      | malformed => cases h
      | unknown => cases h
  | run j clk' raw drop =>
      simp only [nodeEvent] at h
      split at h
      · have hev := (Prod.mk.inj (Option.some.inj h)).2
        rw [Event.clock, harrival hev.symm]
      · cases h
      · cases h
  | appClose id' g => cases (Prod.mk.inj (Option.some.inj h)).2
  | accept id' => cases (Prod.mk.inj (Option.some.inj h)).2
  | cleanUp id' now => cases (Prod.mk.inj (Option.some.inj h)).2
  | timer ref t => cases h
  | tick n => cases h

end Emulator

namespace Upkeep

variable {mode : Rearm} {lib : NdnCxx} {s s₀ s' : Upkeep} {e : UpkeepEvent} {out : Output}
  {tr : List (UpkeepEvent × Output)} {slack : Int} {id : String}

/-- The timer of a node waits for that expiry. -/
def Waits (s : Upkeep) (id : String) (expiry : Int) : Prop :=
  ∃ t w, s.cleanupTimer.find id = some t ∧ t.wait = some w ∧ w.expiry = expiry

/-- The timer of a node is armed, for no later than an interval from now, and no
handler of it is left over. -/
def Armed (slack : Int) (s : Upkeep) (id : String) : Prop :=
  ∃ t w, s.cleanupTimer.find id = some t ∧ t.wait = some w ∧ t.Sound s.clock ∧
    w.expiry ≤ s.clock + Pit.cleanupInterval ∧ s.clock ≤ w.expiry + slack

/-- The node is given that Interest on the face. -/
def Takes (id : String) (f : Int) (clk : Clock) (i : Interest) (s : Upkeep) (e : UpkeepEvent)
    (_ : Output) : Prop :=
  ∃ ev, e = .handler ev ∧ s.em.nodeEvent ev = some (id, .interest clk f i)

/-- What every step leads on from. -/
structure Tidy (mode : Rearm) (lib : NdnCxx) (slack : Int) (s₀ : Upkeep)
    (tr : List (UpkeepEvent × Output)) (s : Upkeep) : Prop where
  armed : ∀ id n, s.em.nodeTable.find id = some n → s.Armed slack id
  recent : ∀ id n m k r expiry, s.em.nodeTable.find id = some n → n.pit.record m k = some r →
    s.Waits id expiry → ∃ clk i,
      ((system mode lib).restrict (Prompt slack)).Happened s₀ (Takes id r.faceId clk i) tr ∧
      i.name = m ∧ i.nonce = k ∧ r.expire = clk.add + i.interestLifetime ∧
      expiry ≤ max clk.add r.expire + Pit.cleanupInterval + slack

/-- The clock does not go back. -/
theorem clock_le_ends (he : s.Enabled e) : s.clock ≤ e.ends s.clock := by
  cases e with
  | handler ev =>
      rw [UpkeepEvent.ends]
      cases hclk : ev.clock with
      | none => exact le_refl _
      | some clk =>
          have hle := he.2.2 clk hclk
          have := clk.ordered
          show s.clock ≤ clk.insert
          omega
  | pass later => exact he
  | expire id => exact le_refl _
  | cleanUp id now next =>
      have hle : s.clock ≤ now := he.1
      have hnext : now ≤ next := he.2.1
      show s.clock ≤ next
      omega

/-- What a step does to the emulator and to the timers. -/
theorem step_cases (h : s.step mode lib e = .ok (s', out)) :
    s'.clock = e.ends s.clock ∧
    ((∃ ev, e = .handler ev ∧ s.em.step mode lib ev = .ok (s'.em, out) ∧
        s'.cleanupTimer = s.cleanupTimer) ∨
     (∃ later, e = .pass later ∧ s'.em = s.em ∧ s'.cleanupTimer = s.cleanupTimer) ∨
     (∃ id t, e = .expire id ∧ s.cleanupTimer.find id = some t ∧ s'.em = s.em ∧
        s'.cleanupTimer = s.cleanupTimer.insert id t.expire) ∨
     ∃ id now next t, e = .cleanUp id now next ∧ s.cleanupTimer.find id = some t ∧
        s.em.step mode lib (.cleanUp id now) = .ok (s'.em, out) ∧
        s'.cleanupTimer = s.cleanupTimer.insert id (Pit.scheduleCleanUp mode t.take next)) := by
  cases e with
  | handler ev =>
      obtain ⟨⟨em, o⟩, hs, heq⟩ := ok_of_map h
      obtain ⟨rfl, rfl⟩ := Prod.mk.inj heq
      exact ⟨rfl, .inl ⟨ev, rfl, hs, rfl⟩⟩
  | pass later =>
      obtain ⟨rfl, _⟩ := Prod.mk.inj (Except.ok.inj h)
      exact ⟨rfl, .inr (.inl ⟨later, rfl, rfl, rfl⟩)⟩
  | expire id =>
      simp only [step] at h
      split at h
      · cases h
      · next t ht =>
          obtain ⟨rfl, _⟩ := Prod.mk.inj (Except.ok.inj h)
          exact ⟨rfl, .inr (.inr (.inl ⟨id, t, rfl, ht, rfl, rfl⟩))⟩
  | cleanUp id now next =>
      simp only [step] at h
      split at h
      · cases h
      · next t ht =>
          obtain ⟨⟨em, o⟩, hs, heq⟩ := ok_of_map h
          obtain ⟨rfl, rfl⟩ := Prod.mk.inj heq
          exact ⟨rfl, .inr (.inr (.inr ⟨id, now, next, t, rfl, ht, hs, rfl⟩))⟩

/-- What prompt handling says of a timer that is armed. -/
theorem Prompt.ends_le {t : Timer Unit} {w : Wait Unit} (h : Prompt slack s e)
    (ht : s.cleanupTimer.find id = some t) (hw : t.wait = some w) :
    e.ends s.clock ≤ w.expiry + slack :=
  h id (FinMap.mem_keys_of_find ht) t ht w hw

/-- A timer that nothing was done to stays armed. -/
theorem Armed.later (h : s.Armed slack id) (hle : s.clock ≤ s'.clock)
    (hends : s'.clock = e.ends s.clock) (hp : Prompt slack s e)
    (hsame : s'.cleanupTimer.find id = s.cleanupTimer.find id) : s'.Armed slack id := by
  obtain ⟨t, w, ht, hw, hsound, hexp, _⟩ := h
  refine ⟨t, w, hsame.trans ht, hw, hsound.mono hle, by omega, ?_⟩
  rw [hends]
  exact hp.ends_le ht hw

/-- The handler of a timer runs after its expiry, and is over in time. -/
theorem ready_between {t : Timer Unit} {now next : Int} (h : s.Armed slack id)
    (he : s.Enabled (.cleanUp id now next)) (hp : Prompt slack s (.cleanUp id now next))
    (ht : s.cleanupTimer.find id = some t) :
    ∃ w, t.wait = some w ∧ w.expiry ≤ now ∧ now ≤ next ∧ next ≤ w.expiry + slack ∧
      t.late = [] := by
  obtain ⟨t₁, w, ht₁, hw, hsound, _⟩ := h
  obtain rfl := Option.some.inj (ht₁.symm.trans ht)
  obtain ⟨hnow, hnext, t₂, ht₂, hready⟩ := he
  obtain rfl := Option.some.inj (ht₁.symm.trans ht₂)
  obtain ⟨w₁, hw₁, _, hexp⟩ := hsound.expiry_le hready
  obtain rfl := Option.some.inj (hw.symm.trans hw₁)
  exact ⟨w, hw, by omega, hnext, hp.ends_le ht hw, hsound.1⟩

/-- **The cleanup never stops.** A node's timer stays armed, whatever happens. -/
theorem armed_step (h : s.Armed slack id) (he : s.Enabled e) (hp : Prompt slack s e)
    (hs : s.step mode lib e = .ok (s', out)) : s'.Armed slack id := by
  obtain ⟨hends, hcases⟩ := step_cases hs
  have hle : s.clock ≤ s'.clock := hends ▸ clock_le_ends he
  rcases hcases with ⟨ev, rfl, _, htimers⟩ | ⟨later, rfl, _, htimers⟩ |
    ⟨id', t, rfl, ht, _, htimers⟩ | ⟨id', now, next, t, rfl, ht, _, htimers⟩
  · exact h.later hle hends hp (by rw [htimers])
  · exact h.later hle hends hp (by rw [htimers])
  · by_cases hid : id = id'
    · subst hid
      obtain ⟨t₁, w, ht₁, hw, hsound, hexp, hlate⟩ := h
      obtain rfl := Option.some.inj (ht.symm.trans ht₁)
      obtain ⟨t₂, ht₂, hdue⟩ := he
      obtain rfl := Option.some.inj (ht.symm.trans ht₂)
      have hclock : s'.clock = s.clock := hends
      refine ⟨t.expire, _, ?_, Timer.wait_expire hw, ?_, ?_, ?_⟩
      · rw [htimers, FinMap.find_insert_self]
      · rw [hclock]
        exact hsound.expire hdue
      · exact hclock ▸ hexp
      · exact hclock ▸ hlate
    · exact h.later hle hends hp (by rw [htimers, FinMap.find_insert_ne hid])
  · by_cases hid : id = id'
    · subst hid
      obtain ⟨w, _, hexp, hnow, hnext, hlate⟩ := ready_between h he hp ht
      have hclock : s'.clock = next := hends
      refine ⟨Pit.scheduleCleanUp mode t.take next, ⟨next + Pit.cleanupInterval, (), false⟩, ?_,
        rfl, ?_, ?_, ?_⟩
      · rw [htimers, FinMap.find_insert_self]
      · rw [Pit.scheduleCleanUp, Timer.arm_of_unarmed (Timer.wait_take t)]
        exact Timer.Sound.arm (t := t.take) ⟨hlate, by simp⟩ _ _
      · rw [hclock]
      · rw [hclock, Pit.cleanupInterval]
        show next ≤ next + 10000 + slack
        omega
    · exact h.later hle hends hp (by rw [htimers, FinMap.find_insert_ne hid])

/-- A timer waits as it did, or was armed by a cleanup that is just over. -/
theorem waits_step {expiry : Int} (hs : s.step mode lib e = .ok (s', out))
    (h : s'.Waits id expiry) :
    (s.Waits id expiry ∧ ∀ now next, e ≠ .cleanUp id now next) ∨
      ∃ now next, e = .cleanUp id now next ∧ expiry = next + Pit.cleanupInterval := by
  obtain ⟨t', w', ht', hw', rfl⟩ := h
  obtain ⟨_, ⟨ev, rfl, _, htimers⟩ | ⟨later, rfl, _, htimers⟩ | ⟨id', t, rfl, ht, _, htimers⟩ |
    ⟨id', now, next, t, rfl, ht, _, htimers⟩⟩ := step_cases hs
  · exact .inl ⟨⟨t', w', htimers ▸ ht', hw', rfl⟩, by simp⟩
  · exact .inl ⟨⟨t', w', htimers ▸ ht', hw', rfl⟩, by simp⟩
  · refine .inl ⟨?_, by simp⟩
    rw [htimers] at ht'
    rcases FinMap.find_insert_cases ht' with ⟨rfl, rfl⟩ | ⟨_, ht'⟩
    · obtain ⟨w, hw, rfl⟩ := Option.map_eq_some_iff.mp hw'
      exact ⟨t, w, ht, hw, rfl⟩
    · exact ⟨t', w', ht', hw', rfl⟩
  · rw [htimers] at ht'
    rcases FinMap.find_insert_cases ht' with ⟨rfl, rfl⟩ | ⟨hne, ht'⟩
    · obtain rfl := Option.some.inj hw'
      exact .inr ⟨now, next, rfl, rfl⟩
    · refine .inl ⟨⟨t', w', ht', hw', rfl⟩, ?_⟩
      intro now' next' heq
      exact hne (UpkeepEvent.cleanUp.inj heq).1.symm

/-- What the nodes are after a step, they are by a step of the emulator or none. -/
theorem step_em (hs : s.step mode lib e = .ok (s', out)) :
    (s'.em = s.em ∧ ∀ id now next, e ≠ .cleanUp id now next) ∨
      (∃ ev, e = .handler ev ∧ s.em.step mode lib ev = .ok (s'.em, out)) ∨
      ∃ id now next, e = .cleanUp id now next ∧
        s.em.step mode lib (.cleanUp id now) = .ok (s'.em, out) := by
  obtain ⟨_, ⟨ev, rfl, hem, _⟩ | ⟨_, rfl, hem, _⟩ | ⟨_, _, rfl, _, hem, _⟩ |
    ⟨id, now, next, _, rfl, _, hem, _⟩⟩ := step_cases hs
  · exact .inr (.inl ⟨ev, rfl, hem⟩)
  · exact .inl ⟨hem, by simp⟩
  · exact .inl ⟨hem, by simp⟩
  · exact .inr (.inr ⟨id, now, next, rfl, hem⟩)

theorem Armed.expiry_le {expiry : Int} (h : s.Armed slack id) (hw : s.Waits id expiry) :
    expiry ≤ s.clock + Pit.cleanupInterval ∧ s.clock ≤ expiry + slack := by
  obtain ⟨t, w, ht, hwait, _, hexp, hlate⟩ := h
  obtain ⟨t', w', ht', hwait', rfl⟩ := hw
  obtain rfl := Option.some.inj (ht.symm.trans ht')
  obtain rfl := Option.some.inj (hwait.symm.trans hwait')
  exact ⟨hexp, hlate⟩

section Step

variable (h : Tidy mode lib slack s₀ tr s) (he : s.Enabled e) (hp : Prompt slack s e)
  (hs : s.step mode lib e = .ok (s', out))
include h he hp hs

theorem Tidy.armed_step : ∀ id n, s'.em.nodeTable.find id = some n → s'.Armed slack id := by
  intro id n hn
  have hbefore : ∃ n, s.em.nodeTable.find id = some n := by
    rcases step_em hs with ⟨hem, _⟩ | ⟨ev, _, hem⟩ | ⟨_, _, _, _, hem⟩
    · exact ⟨n, hem ▸ hn⟩
    · exact Emulator.find_before hem hn
    · exact Emulator.find_before hem hn
  obtain ⟨n₀, hn₀⟩ := hbefore
  exact Upkeep.armed_step (h.armed id n₀ hn₀) he hp hs

/-- A record that a step leaves behind can be no older than before, seen from
where the timer now stands. -/
theorem Tidy.old_record {n : Node} {m : Name} {k : UInt32} {r : FaceRecord} {expiry : Int}
    (hn : s.em.nodeTable.find id = some n) (hr : n.pit.record m k = some r)
    (hclean : ∀ now next, e = .cleanUp id now next → now ≤ r.expire)
    (hw : s'.Waits id expiry) : ∃ clk i,
      ((system mode lib).restrict (Prompt slack)).Happened s₀ (Takes id r.faceId clk i) tr ∧
      i.name = m ∧ i.nonce = k ∧ r.expire = clk.add + i.interestLifetime ∧
      expiry ≤ max clk.add r.expire + Pit.cleanupInterval + slack := by
  rcases waits_step hs hw with ⟨hw, _⟩ | ⟨now, next, rfl, rfl⟩
  · exact h.recent id n m k r expiry hn hr hw
  · -- the timer was armed anew, and the record had not expired
    have hexp := hclean now next rfl
    have harmed := h.armed id n hn
    obtain ⟨t, ht, _⟩ := he.2.2
    obtain ⟨w, hwait, hle, _, hnext, _⟩ := ready_between harmed he hp ht
    obtain ⟨clk, i, hpast, hname, hnonce, hexpire, _⟩ :=
      h.recent id n m k r w.expiry hn hr ⟨t, w, ht, hwait, rfl⟩
    refine ⟨clk, i, hpast, hname, hnonce, hexpire, ?_⟩
    have hmax := le_max_right clk.add r.expire
    omega

end Step

/-- What is true of the timers and the records stays so. -/
theorem tidy_step (hslack : 0 ≤ slack)
    (hrun : ((system mode lib).restrict (Prompt slack)).Run s₀ tr s)
    (h : Tidy mode lib slack s₀ tr s) (he : s.Enabled e) (hp : Prompt slack s e)
    (hs : s.step mode lib e = .ok (s', out)) :
    Tidy mode lib slack s₀ (tr ++ [(e, out)]) s' := by
  refine ⟨h.armed_step he hp hs, ?_⟩
  intro id n m k r expiry hn hr hw
  have hold : ∀ n₀, s.em.nodeTable.find id = some n₀ → n₀.pit.record m k = some r →
      (∀ now next, e = .cleanUp id now next → now ≤ r.expire) → ∃ clk i,
        ((system mode lib).restrict (Prompt slack)).Happened s₀ (Takes id r.faceId clk i)
          (tr ++ [(e, out)]) ∧
        i.name = m ∧ i.nonce = k ∧ r.expire = clk.add + i.interestLifetime ∧
        expiry ≤ max clk.add r.expire + Pit.cleanupInterval + slack := by
    intro n₀ hn₀ hr₀ hclean
    obtain ⟨clk, i, hpast, hrest⟩ := h.old_record he hp hs hn₀ hr₀ hclean hw
    exact ⟨clk, i, hpast.extend _, hrest⟩
  rcases step_em hs with ⟨hem, hno⟩ | ⟨ev, rfl, hem⟩ | ⟨id', now, next, rfl, hem⟩
  · rw [hem] at hn
    exact hold n hn hr fun now next heq => absurd heq (hno id now next)
  · obtain ⟨n₀, hn₀, ⟨hr₀, _⟩ | ⟨clk, i, hev, hname, hnonce, hexp⟩⟩ :=
      Emulator.record_step hem hn hr
    · exact hold n₀ hn₀ hr₀ (by simp)
    · refine ⟨clk, i, .last hrun ⟨ev, rfl, hev⟩, hname, hnonce, hexp, ?_⟩
      have hadd : s.clock ≤ clk.find := he.2.2 clk (Emulator.clock_of_nodeEvent hev)
      have hordered := clk.ordered
      have hw₀ : s.Waits id expiry := by
        rcases waits_step hs hw with ⟨hw, _⟩ | ⟨_, _, heq, _⟩
        · exact hw
        · cases heq
      have hexpiry := ((h.armed id n₀ hn₀).expiry_le hw₀).1
      have hmax := le_max_left clk.add r.expire
      omega
  · obtain ⟨n₀, hn₀, ⟨hr₀, hclean⟩ | ⟨clk, i, hev, _⟩⟩ := Emulator.record_step hem hn hr
    · refine hold n₀ hn₀ hr₀ ?_
      intro now' next' heq
      obtain ⟨rfl, rfl, _⟩ := UpkeepEvent.cleanUp.inj heq
      exact hclean _ rfl
    · cases (Prod.mk.inj (Option.some.inj hev)).2

/-- Before any record is made the timers are armed. -/
theorem tidy_start {c : Config} {em₀ : Emulator} {reading : String → Int} {now : Int}
    (hc : Emulator.readNetworkConfig c = .ok em₀)
    (hstart : ∀ id, reading id ≤ now ∧ now ≤ reading id + slack) :
    Tidy mode lib slack (start mode em₀ reading now) [] (start mode em₀ reading now) := by
  have hbefore : ∀ id n, (start mode em₀ reading now).em.nodeTable.find id = some n →
      ∃ m, em₀.nodeTable.find id = some m ∧ m.start = n := by
    intro id n hn
    obtain ⟨m, hm, hn⟩ := FinMap.find_filterMap_eq_some.mp hn
    exact ⟨m, hm, Option.some.inj hn⟩
  refine ⟨?_, ?_⟩
  · intro id n hn
    obtain ⟨m, hm, _⟩ := hbefore id n hn
    obtain ⟨hle, hlate⟩ := hstart id
    refine ⟨Pit.scheduleCleanUp mode .unarmed (reading id),
      ⟨reading id + Pit.cleanupInterval, (), false⟩,
      FinMap.find_filterMap_eq_some.mpr ⟨m, hm, rfl⟩, rfl, ?_, ?_, ?_⟩
    · rw [Pit.scheduleCleanUp, Timer.arm_of_unarmed Timer.wait_unarmed]
      exact (Timer.sound_unarmed _).arm _ _
    · show reading id + Pit.cleanupInterval ≤ now + Pit.cleanupInterval
      omega
    · show now ≤ reading id + 10000 + slack
      omega
  · intro id n m k r expiry hn hr
    obtain ⟨m₀, hm₀, rfl⟩ := hbefore id n hn
    have hpit : m₀.start.pit = Pit.empty := ((Emulator.blank_config hc).nodes id m₀ hm₀).1
    rw [hpit, Pit.record_empty] at hr
    cases hr

theorem tidy_run {c : Config} {em₀ : Emulator} {reading : String → Int} {now : Int}
    (hc : Emulator.readNetworkConfig c = .ok em₀)
    (hstart : ∀ id, reading id ≤ now ∧ now ≤ reading id + slack)
    (hrun : ((system mode lib).restrict (Prompt slack)).Run (start mode em₀ reading now) tr s) :
    Tidy mode lib slack (start mode em₀ reading now) tr s := by
  have hslack : 0 ≤ slack := by
    have := hstart ""
    omega
  refine hrun.invariant_past ?_ (tidy_start hc hstart)
  intro tr s e s' o hrun h he hs
  have hs : s.step mode lib e = .ok (s', o) := hs
  exact tidy_step hslack hrun h he.1 he.2 hs

/-- What a step is to the emulator, for which a cleanup is an event like others. -/
def plain (x : UpkeepEvent × Output) : Option (Event × Output) :=
  match x.1 with
  | .handler e => some (e, x.2)
  | .cleanUp id now _ => some (.cleanUp id now, x.2)
  | .pass _ | .expire _ => none

/-- A network with timers is one whose cleanups come when the timers say. -/
theorem runs_as_emulator {em₀ : Emulator} {reading : String → Int} {now : Int}
    (hrun : (system mode lib).Run (start mode em₀ reading now) tr s) :
    (Emulator.system mode lib).Run em₀.start (tr.filterMap plain) s.em := by
  refine System.Run.project (I := fun _ => True) (π := Upkeep.em) (fun _ _ _ _ _ _ _ => trivial)
    ?_ ?_ hrun trivial
  · intro s e s' o _ _ hs hv
    have hs : s.step mode lib e = .ok (s', o) := hs
    rcases step_em hs with ⟨hem, _⟩ | ⟨ev, rfl, _⟩ | ⟨id, now, next, rfl, _⟩
    · exact hem
    · cases hv
    · cases hv
  · intro s e s' o e' o' _ he hs hv
    have hs : s.step mode lib e = .ok (s', o) := hs
    obtain ⟨_, ⟨ev, rfl, hem, _⟩ | ⟨_, rfl, _⟩ | ⟨_, _, rfl, _⟩ |
      ⟨id, now, next, _, rfl, _, hem, _⟩⟩ := step_cases hs
    · obtain ⟨rfl, rfl⟩ := Prod.mk.inj (Option.some.inj hv)
      exact ⟨he.1, hem⟩
    · cases hv
    · cases hv
    · obtain ⟨rfl, rfl⟩ := Prod.mk.inj (Option.some.inj hv)
      obtain ⟨n, hn⟩ := Emulator.node_of_cleanUp hem
      exact ⟨Option.isSome_of_eq_some hn, hem⟩

section Recent

variable {c : Config} {em₀ : Emulator} {reading : String → Int} {now : Int} {n : Node}

/-- A first Interest expires and is dropped by the cleanup; a second one comes. -/
def upkeepRun : List (UpkeepEvent × Output) :=
  [(.handler (.accept "n0"), .quiet),
   (.handler (.appReceive "n0" 2 (Clock.still 100) (fun _ => 0)
      (.packet (.interest ⟨[[1]], 7, 4000, false, 40⟩))),
    .forward "n0" (.interest ⟨[[1]], 7, 4000, false, 40⟩ [1])),
   (.pass 10001, .quiet), (.expire "n0", .quiet), (.expire "n1", .quiet),
   (.cleanUp "n0" 10001 10002, .quiet),
   (.handler (.appReceive "n0" 2 (Clock.still 10003) (fun _ => 0)
      (.packet (.interest ⟨[[2]], 8, 4000, false, 40⟩))),
    .forward "n0" (.interest ⟨[[2]], 8, 4000, false, 40⟩ [1])),
   (.cleanUp "n1" 10003 10004, .quiet)]

end Recent

end Upkeep

end NdnEm
