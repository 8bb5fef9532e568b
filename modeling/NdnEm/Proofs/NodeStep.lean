import NdnEm.Core.Node

/-!
# What a node's handlers can do

One inversion lemma a handler: if it returned, this is what it returned and
under which conditions. Every invariant of the node is read off these, so no
later proof unfolds a handler.

The one composition among them is the fib manager's: a command handled inside
`handleInterest` re-enters the node as a Data named like the command.
-/

namespace NdnEm

open Lib

/-- The parameters with the requesting face in place of no face. -/
def ControlParameters.orRequester (p : ControlParameters) (faceId : Int) : ControlParameters :=
  if p.faceId = none ∨ p.faceId = some 0 then
    { p with faceId := some (UInt64.ofNat (toSize faceId)) }
  else p

namespace Node

variable {lib : NdnCxx} {n n' : Node} {clk : Clock} {f : Int} {i : Interest} {d : Data}
  {o : Option Forward}

/-- The node with another PIT, content store or FIB: the only three parts a
packet handler writes. -/
def withPit (n : Node) (t : Pit) : Node := { n with pit := t }
def withCache (n : Node) (c : CacheManager) : Node := { n with cacheManager := c }
def withFib (n : Node) (t : Fib) : Node := { n with fib := t }

@[simp] theorem withPit_pit (n : Node) (t : Pit) : (n.withPit t).pit = t := rfl

@[simp] theorem withPit_faceTable (n : Node) (t : Pit) :
    (n.withPit t).faceTable = n.faceTable := rfl

/-! ## The faces of a send -/

theorem mem_forwardToFace {outId g : Int} :
    g ∈ n.forwardToFace outId ↔ g = outId ∧ g ∈ n.faceTable.keys := by
  unfold forwardToFace
  split <;> simp_all

theorem mem_forwardToFaces {out : Finset Int} {g : Int} :
    g ∈ n.forwardToFaces out ↔ g ∈ out ∧ g ∈ n.faceTable.keys := by
  simp only [forwardToFaces, List.mem_flatMap, mem_ascending, mem_forwardToFace]
  constructor
  · rintro ⟨a, ha, rfl, hg⟩
    exact ⟨ha, hg⟩
  · rintro ⟨ha, hg⟩
    exact ⟨g, ha, rfl, hg⟩

theorem forwardToFaces_eq_filter (out : Finset Int) :
    n.forwardToFaces out = (ascending out).filter (· ∈ n.faceTable.keys) := by
  unfold forwardToFaces
  induction ascending out with
  | nil => rfl
  | cons g gs ih =>
      rw [List.flatMap_cons, ih, List.filter_cons]
      by_cases h : g ∈ n.faceTable.keys <;> simp [forwardToFace, h]

/-- No face is sent the same packet twice. -/
theorem forwardToFaces_nodup (out : Finset Int) : (n.forwardToFaces out).Nodup := by
  rw [forwardToFaces_eq_filter]
  exact (ascending_nodup out).filter _

theorem forwardToFace_nodup (outId : Int) : (n.forwardToFace outId).Nodup := by
  unfold forwardToFace
  split <;> simp

/-! ## The handlers, inverted -/

theorem handleData_cases (h : n.handleData clk f d = .ok (n', o)) :
    let r := n.pit.consumeInterestWithDataName clk.consume d.name ∅
    (r.2 = ∅ ∧ n' = n.withPit r.1 ∧ o = none) ∨
    (r.2 ≠ ∅ ∧ ∃ c, n.cacheManager.insert clk.insert d = .ok c ∧
      n' = (n.withPit r.1).withCache c ∧ o = some (.data d (n.forwardToFaces r.2))) := by
  unfold handleData at h
  simp only [] at h
  split at h
  · next hempty =>
      obtain ⟨rfl, rfl⟩ : _ = n' ∧ none = o := by simpa using h
      exact .inl ⟨hempty, rfl, rfl⟩
  · next hne =>
      split at h
      · cases h
      · next c hc =>
          obtain ⟨rfl, rfl⟩ : _ = n' ∧ _ = o := by simpa using h
          exact .inr ⟨hne, c, hc, rfl, rfl⟩

/-- The parameters of the register command in a name. -/
def registerParameters (lib : NdnCxx) (n : Node) (command : Name) : Option ControlParameters :=
  n.fibManager.bind fun m =>
    command[m.fibCmdPrefix.length]?.bind fun verb =>
      command[m.fibCmdPrefix.length + 1]?.bind fun parameterComponent =>
        if verb = component "register" then FibManager.extractParameters lib parameterComponent
        else none

/-- A command that is handled is ignored, or answered as `AddNextHop` says. -/
theorem processCommand_spec (h : n.processCommand lib clk f i = .ok (n', o)) :
    (n.registerParameters lib i.name = none ∧ n' = n ∧ o = none) ∨
    ∃ params fib r, n.registerParameters lib i.name = some params ∧
      FibManager.addNextHop lib n.fib (params.orRequester f) = .ok (fib, r) ∧
      (n.withFib fib).sendResponse lib clk i.name r = .ok (n', o) := by
  unfold processCommand at h
  split at h
  · cases h
  · next m hm =>
      simp only [] at h
      split at h
      · next verb c hverb hc =>
          have hcommand : n.registerParameters lib i.name =
              if verb = component "register" then FibManager.extractParameters lib c else none := by
            rw [registerParameters, hm, Option.bind_some, hverb, Option.bind_some, hc,
              Option.bind_some]
          split_ifs at h with hreg
          · rw [if_pos hreg] at hcommand
            split at h
            · next hparams =>
                obtain ⟨rfl, rfl⟩ := Prod.mk.inj (Except.ok.inj h)
                exact .inl ⟨hcommand.trans hparams, rfl, rfl⟩
            · next params hparams =>
                split at h
                · cases h
                · next fib r hnext =>
                    exact .inr ⟨params, fib, r, hcommand.trans hparams, hnext, h⟩
          · rw [if_neg hreg] at hcommand
            obtain ⟨rfl, rfl⟩ := Prod.mk.inj (Except.ok.inj h)
            exact .inl ⟨hcommand, rfl, rfl⟩
      · cases h

/-- A command leaves the node as it was, or adds at most one route and sends
its response through the node. -/
theorem processCommand_cases (h : n.processCommand lib clk f i = .ok (n', o)) :
    (n' = n ∧ o = none) ∨
    ∃ fib r, (fib = n.fib ∨ ∃ p g, fib = n.fib.addRoute p g) ∧
      (n.withFib fib).sendResponse lib clk i.name r = .ok (n', o) := by
  rcases processCommand_spec h with ⟨_, hn, ho⟩ | ⟨params, fib, r, _, hnext, hsend⟩
  · exact .inl ⟨hn, ho⟩
  · exact .inr ⟨fib, r, FibManager.addNextHop_fib hnext, hsend⟩

/-- The four ways an Interest is handled, and the dead end of a name without
a route. -/
theorem handleInterest_cases (h : n.handleInterest lib clk f i = .ok (n', o)) :
    let r := n.pit.addInterest clk.add f i
    let out := (n.fib.lookUp i.name ∅).erase f
    (∃ d, n.cacheManager.findMatchingData clk.find i = some d ∧ n' = n ∧
      o = some (.cached d (n.forwardToFace f))) ∨
    (n.cacheManager.findMatchingData clk.find i = none ∧
      ((r.1 = false ∧ n' = n.withPit r.2 ∧ o = none) ∨
       (r.1 = true ∧ out = ∅ ∧ n' = n.withPit r.2 ∧ o = none) ∨
       (r.1 = true ∧ 0 ∈ out ∧ (n.withPit r.2).processCommand lib clk f i = .ok (n', o)) ∨
       (r.1 = true ∧ out ≠ ∅ ∧ 0 ∉ out ∧ n' = n.withPit r.2 ∧
         o = some (.interest i (n.forwardToFaces out))))) := by
  unfold handleInterest at h
  split at h
  · next d hd =>
      obtain ⟨rfl, rfl⟩ : n = n' ∧ _ = o := by simpa using h
      exact .inl ⟨d, hd, rfl, rfl⟩
  · next hd =>
      refine .inr ⟨hd, ?_⟩
      simp only [] at h
      split at h
      · next hadd =>
          split at h
          · next hempty =>
              obtain ⟨rfl, rfl⟩ : _ = n' ∧ none = o := by simpa using h
              exact .inr (.inl ⟨hadd, hempty, rfl, rfl⟩)
          · next hne =>
              split at h
              · next hzero => exact .inr (.inr (.inl ⟨hadd, hzero, h⟩))
              · next hzero =>
                  obtain ⟨rfl, rfl⟩ : _ = n' ∧ _ = o := by simpa using h
                  exact .inr (.inr (.inr ⟨hadd, hne, hzero, rfl, rfl⟩))
      · next hadd =>
          obtain ⟨rfl, rfl⟩ : _ = n' ∧ none = o := by simpa using h
          exact .inl ⟨by simpa using hadd, rfl, rfl⟩

/-- A command sends no Interest: all it can send is its response. -/
theorem processCommand_forward {fw : Forward}
    (h : n.processCommand lib clk f i = .ok (n', some fw)) :
    ∃ d faces, fw = .data d faces ∧ d.name = i.name := by
  rcases processCommand_cases h with ⟨_, ho⟩ | ⟨fib, r, _, hs⟩
  · cases ho
  · rcases handleData_cases (f := 0) hs with ⟨_, _, ho⟩ | ⟨_, c, _, _, ho⟩
    · cases ho
    · exact ⟨_, _, Option.some.inj ho, rfl⟩

/-- What it takes for an Interest to be forwarded. -/
theorem handleInterest_forwarded {j : Interest} {fs : List Int}
    (h : n.handleInterest lib clk f i = .ok (n', some (.interest j fs))) :
    j = i ∧ n.cacheManager.findMatchingData clk.find i = none ∧
      (n.pit.addInterest clk.add f i).1 = true ∧ 0 ∉ (n.fib.lookUp i.name ∅).erase f ∧
      n' = n.withPit (n.pit.addInterest clk.add f i).2 ∧
      fs = n.forwardToFaces ((n.fib.lookUp i.name ∅).erase f) := by
  rcases handleInterest_cases h with ⟨d, _, _, ho⟩ | ⟨hstore, ⟨_, _, ho⟩ | ⟨_, _, _, ho⟩ |
    ⟨_, _, hcmd⟩ | ⟨hnew, _, hzero, hn', ho⟩⟩
  · cases ho
  · cases ho
  · cases ho
  · obtain ⟨_, _, hd, _⟩ := processCommand_forward hcmd
    cases hd
  · obtain ⟨rfl, rfl⟩ := Forward.interest.inj (Option.some.inj ho)
    exact ⟨rfl, hstore, hnew, hzero, hn', rfl⟩

/-- Handling a packet changes the PIT and the content store, and adds routes. -/
theorem handleData_tables (h : n.handleData clk f d = .ok (n', o)) :
    n'.faceTable = n.faceTable ∧ n'.faceCounter = n.faceCounter ∧ n'.client = n.client ∧
      n'.fib = n.fib := by
  rcases handleData_cases h with ⟨_, rfl, _⟩ | ⟨_, c, _, rfl, _⟩ <;> exact ⟨rfl, rfl, rfl, rfl⟩

theorem handleInterest_tables (h : n.handleInterest lib clk f i = .ok (n', o)) :
    n'.faceTable = n.faceTable ∧ n'.faceCounter = n.faceCounter ∧ n'.client = n.client ∧
      (n'.fib = n.fib ∨ ∃ p g, n'.fib = n.fib.addRoute p g) := by
  rcases handleInterest_cases h with ⟨_, _, rfl, _⟩ | ⟨_, ⟨_, rfl, _⟩ | ⟨_, _, rfl, _⟩ |
    ⟨_, _, hcmd⟩ | ⟨_, _, _, rfl, _⟩⟩
  · exact ⟨rfl, rfl, rfl, .inl rfl⟩
  · exact ⟨rfl, rfl, rfl, .inl rfl⟩
  · exact ⟨rfl, rfl, rfl, .inl rfl⟩
  · rcases processCommand_cases hcmd with ⟨rfl, _⟩ | ⟨fib, r, hfib, hresp⟩
    · exact ⟨rfl, rfl, rfl, .inl rfl⟩
    · obtain ⟨htab, hcount, hcl, hfib'⟩ := handleData_tables (f := 0) hresp
      exact ⟨htab, hcount, hcl, hfib'.symm ▸ hfib⟩
  · exact ⟨rfl, rfl, rfl, .inl rfl⟩

theorem removeFace_cases (h : n.removeFace f = .ok n') :
    n' = { n with faceTable := n.faceTable.erase f, fib := n.fib.cleanUp f } := by
  unfold removeFace at h
  split at h
  · cases h
  · exact (Except.ok.inj h).symm

theorem step_removeFace (h : n.step lib (.removeFace f) = .ok (n', o)) :
    n.removeFace f = .ok n' ∧ o = none := by
  simp only [step] at h
  obtain ⟨m, hr, heq⟩ := ok_of_map h
  obtain ⟨rfl, rfl⟩ := Prod.mk.inj heq
  exact ⟨hr, rfl⟩

theorem step_accept (h : n.step lib .accept = .ok (n', o)) :
    ∃ face, n.client = some face ∧ n' = n.handleAccept face ∧ o = none := by
  simp only [step] at h
  split at h
  · next face hc =>
      obtain ⟨rfl, rfl⟩ : _ = n' ∧ none = o := by simpa using h
      exact ⟨face, hc, rfl, rfl⟩
  · cases h

/-- An event that changes the FIB removes a face, or is an Interest that is
handled as a command. -/
theorem step_fib_cases {e : NodeEvent} (h : n.step lib e = .ok (n', o)) :
    n'.fib = n.fib ∨ (∃ f, e = .removeFace f ∧ n'.fib = n.fib.cleanUp f) ∨
      ∃ clk f i p g, e = .interest clk f i ∧ n'.fib = n.fib.addRoute p g := by
  cases e with
  | interest clk f i =>
      rcases (handleInterest_tables h).2.2.2 with hsame | ⟨p, g, hadd⟩
      · exact .inl hsame
      · exact .inr (.inr ⟨clk, f, i, p, g, rfl, hadd⟩)
  | data clk f d => exact .inl (handleData_tables (f := f) h).2.2.2
  | removeFace f =>
      rw [removeFace_cases (step_removeFace h).1]
      exact .inr (.inl ⟨f, rfl, rfl⟩)
  | cleanUp now =>
      obtain ⟨rfl, _⟩ := Prod.mk.inj (Except.ok.inj h)
      exact .inl rfl
  | addLinkFace mac dev =>
      obtain ⟨rfl, _⟩ := Prod.mk.inj (Except.ok.inj h)
      exact .inl rfl
  | accept =>
      obtain ⟨face, _, rfl, _⟩ := step_accept h
      exact .inl rfl

end Node

end NdnEm
