import NdnEm.Proofs.Forwarding

/-!
# What stops a copy of a forwarded Interest

Loop detection is a record in the PIT, and nothing else: the source keeps no
list of nonces that were seen. A record survives every event but two, the
handling of a Data whose name extends the record's, and a cleanup after its
expiry. So a copy of an Interest that was forwarded is stopped until its
lifetime is over *unless* such a Data came by in between. After that, only
the content store can stop it, and it need not: the run at the end forwards
one Interest twice within its lifetime because the Data that satisfied it was
not fresh enough for the copy.
-/

namespace NdnEm

open Lib

namespace Node

/-- The event has the node handle Data of this name: Data from outside, or the
fib manager's response to a command of that name. -/
inductive HandlesData (lib : NdnCxx) (n : Node) : NodeEvent → Name → Prop
  | data (clk : Clock) (f : Int) (d : Data) : HandlesData lib n (.data clk f d) d.name
  | response {clk : Clock} {f : Int} {i : Interest} {fib : Fib} {r : ControlResponse}
      (hstore : n.cacheManager.findMatchingData clk.find i = none)
      (hnew : n.pit.record i.name i.nonce = none)
      (hroute : n.Routed i.name f 0)
      (hresp : (n.withPit (n.pit.addInterest clk.add f i).2).processCommand lib clk f i =
        ((n.withPit (n.pit.addInterest clk.add f i).2).withFib fib).sendResponse lib clk
          i.name r) :
      HandlesData lib n (.interest clk f i) i.name

variable {lib : NdnCxx} {n n' : Node} {clk : Clock} {e : NodeEvent} {o : Option Forward}

theorem handleData_keeps {f : Int} {d : Data} {m : Name} {k : UInt32} {r : FaceRecord}
    (hr : n.pit.record m k = some r) (hname : ¬ m <+: d.name)
    (hs : n.handleData clk f d = .ok (n', o)) : n'.pit.record m k = some r := by
  have hrec : (n.pit.consumeInterestWithDataName clk.consume d.name ∅).1.record m k =
      some r := by
    rw [Pit.record_consume, if_neg hname, hr]
  rcases handleData_cases hs with ⟨_, rfl, _⟩ | ⟨_, c, _, rfl, _⟩
  · exact hrec
  · exact hrec

/-- A record stays until Data for an extension of its name is handled, or a
cleanup finds its expiry behind. -/
theorem step_keeps {m : Name} {k : UInt32} {r : FaceRecord}
    (hr : n.pit.record m k = some r) (hdata : ∀ d, HandlesData lib n e d → ¬ m <+: d)
    (hclean : ∀ now, e = .cleanUp now → now ≤ r.expire)
    (hs : n.step lib e = .ok (n', o)) : n'.pit.record m k = some r := by
  cases e with
  | interest clk f i =>
      have hadd : (n.pit.addInterest clk.add f i).2.record m k = some r := by
        rw [Pit.record_addInterest, hr]
        simp
      rcases handleInterest_cases hs with ⟨d, _, rfl, _⟩ | ⟨hstore, ⟨_, rfl, _⟩ |
        ⟨_, _, rfl, _⟩ | ⟨hnew, hzero, hcmd⟩ | ⟨_, _, _, rfl, _⟩⟩
      · exact hr
      · exact hadd
      · exact hadd
      · rcases processCommand_cases hcmd with ⟨rfl, _⟩ | ⟨fib, resp, _, hresp⟩
        · exact hadd
        · have hname := hdata i.name (.response hstore (Pit.addInterest_fst.mp hnew)
            (mem_outList.mp hzero) (hcmd.trans hresp.symm))
          exact handleData_keeps (f := 0)
            (n := (n.withPit (n.pit.addInterest clk.add f i).2).withFib fib) hadd hname hresp
      · exact hadd
  | data clk f d => exact handleData_keeps (f := f) hr (hdata d.name (.data clk f d)) hs
  | removeFace f => rw [removeFace_cases (step_removeFace hs).1]; exact hr
  | cleanUp now =>
      obtain ⟨rfl, _⟩ : _ = n' ∧ none = o := by simpa [step] using hs
      exact Pit.record_cleanUp_eq_some.mpr ⟨hr, hclean now rfl⟩
  | addLinkFace mac dev =>
      obtain ⟨rfl, _⟩ : _ = n' ∧ none = o := by simpa [step] using hs
      exact hr
  | accept =>
      obtain ⟨_, _, rfl, _⟩ := step_accept hs
      exact hr

/-- The runs in which no Data extending the name is handled. -/
def Unsatisfied (lib : NdnCxx) (m : Name) : System Node NodeEvent (Option Forward) Fault :=
  (system lib).restrict fun n e => ∀ d, HandlesData lib n e d → ¬ m <+: d

theorem run_keeps {m : Name} {k : UInt32} {r : FaceRecord}
    {tr : Trace} (h : (Unsatisfied lib m).Run n tr n')
    (hr : n.pit.record m k = some r)
    (hclk : ∀ t ∈ tr.flatMap fun x => x.1.readings, t ≤ r.expire) :
    n'.pit.record m k = some r := by
  induction h with
  | nil => exact hr
  | @snoc s₁ s₂ tr e o _ he hs ih =>
      have hpast : ∀ t ∈ tr.flatMap fun x => x.1.readings, t ≤ r.expire :=
        fun t ht => hclk t (by simp only [List.flatMap_append, List.mem_append]; exact .inl ht)
      refine step_keeps (ih hpast) he.2 (fun now hnow => ?_) hs
      subst hnow
      exact hclk now (by simp [NodeEvent.readings])

/-- A forwarded Interest has its record. -/
theorem record_of_forwarded {f : Int} {i j : Interest} {fs : List Int}
    (hs : n.handleInterest lib clk f i = .ok (n', some (.interest j fs))) :
    n'.pit.record i.name i.nonce = some ⟨f, clk.add + i.interestLifetime⟩ := by
  obtain ⟨_, _, hnew, _, rfl, _⟩ := handleInterest_forwarded hs
  rw [withPit_pit, Pit.record_addInterest_of_none (Pit.addInterest_fst.mp hnew)]
  simp

/-- A store hit is answered and a recorded nonce is dropped; neither forwards. -/
theorem not_forwarded {f : Int} {i : Interest}
    (hstop : (∃ d, n.cacheManager.findMatchingData clk.find i = some d) ∨
      ∃ r, n.pit.record i.name i.nonce = some r)
    (hs : n.handleInterest lib clk f i = .ok (n', o)) (j : Interest) (fs : List Int) :
    o ≠ some (.interest j fs) := by
  rintro rfl
  obtain ⟨_, hstore, hnew, _⟩ := handleInterest_forwarded hs
  rcases hstop with ⟨d, hd⟩ | ⟨r, hr⟩
  · simp [hd] at hstore
  · rw [Pit.addInterest_of_record hr] at hnew
    simp at hnew

theorem readings_le {mid : Trace} {x : NodeEvent × Option Forward}
    {clk : Clock} {f : Int} {i : Interest}
    (h : ClockForward (x :: mid ++ [(.interest clk f i, o)])) :
    ∀ t ∈ mid.flatMap fun x => x.1.readings, t ≤ clk.find := by
  unfold ClockForward at h
  rw [List.flatMap_append] at h
  have hlast := (List.pairwise_append.mp h).2.2
  intro t ht
  refine hlast t ?_ clk.find (by simp [NodeEvent.readings])
  rw [List.flatMap_cons]
  exact List.mem_append_right _ ht

def loopInterest : Interest := ⟨[[1]], 7, 4000, true, 40⟩

def loopData : Data := ⟨[[1], [2]], -1, [], 60⟩

/-- The relay forwards an Interest at time 0, gets its Data at time 5, and a
copy of the Interest at time 6. -/
def loopTrace : Trace :=
  [(.interest (Clock.still 0) 1 loopInterest, some (.interest loopInterest [2])),
   (.data (Clock.still 5) 2 loopData, some (.data loopData [1])),
   (.interest (Clock.still 6) 1 loopInterest, some (.interest loopInterest [2]))]

/-- The relay with the Interest pending. -/
def relayPending : Node := relay.withPit (relay.pit.addInterest 0 1 loopInterest).2

/-- The same after a cleanup and an unrelated Data. -/
def relayLater : Node :=
  relayPending.withPit
    ((relayPending.pit.cleanUp 3).consumeInterestWithDataName 5 [[2]] ∅).1

end Node

end NdnEm
