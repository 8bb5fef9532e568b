import NdnEm.Proofs.ConfigStep
import NdnEm.Proofs.DeviceStep
import NdnEm.Proofs.EmulatorStep
import NdnEm.Proofs.Forwarding

/-!
# Rib commands never leave their node

Lookup gathers the faces of every prefix, so a command matches default routes
and longer registrations as well as the fib manager's own. It stays on the
node all the same because 0 among the faces wins over everything else, and 0
is always among them: it is put there when the node starts, registration only
adds, and removal and the incoming-face rule only ever take out the id of a
face, and those start from 1.
-/

namespace NdnEm

open Lib

namespace Node

/-- Face ids start from 1; 0 is the fib manager's. -/
structure Numbered (n : Node) : Prop where
  counter : 1 ≤ n.faceCounter
  table : ∀ g ∈ n.faceTable.keys, 1 ≤ g
  client : ∀ g ∈ n.client, 1 ≤ g

/-- A started node: the fib manager's route is in place. -/
structure Guarded (n : Node) : Prop extends Numbered n where
  rib : 0 ∈ n.fib.faces ribPrefix

variable {lib : NdnCxx} {n n' : Node} {e : NodeEvent} {o : Option Forward}

theorem numbered_new (id : String) (limit : Int) : (new id limit).Numbered :=
  ⟨Int.le_refl 1, by simp [new], by simp [new]⟩

theorem Numbered.addLinkFace (hn : n.Numbered) (mac : MacAddr) (dev : DeviceRef) :
    (n.addLinkFace mac dev).1.Numbered := by
  have hc := hn.counter
  refine ⟨?_, fun g hg => ?_, hn.client⟩
  · show 1 ≤ n.faceCounter + 1
    omega
  · rcases Finset.mem_insert.mp hg with rfl | hg
    · exact hc
    · exact hn.table g hg

theorem Numbered.start (hn : n.Numbered) : n.start.Guarded := by
  have hc := hn.counter
  refine ⟨⟨?_, hn.table, fun g hg => ?_⟩, ?_⟩
  · show 1 ≤ n.faceCounter + 1
    omega
  · obtain rfl := Option.some.inj hg
    exact hc
  · exact Fib.mem_addRoute.mpr (.inl ⟨rfl, rfl⟩)

theorem guarded_step (hn : n.Guarded)
    (hclose : ∀ f, e = .removeFace f → n.faceTable.find f = some .app)
    (hs : n.step lib e = .ok (n', o)) : n'.Guarded := by
  have hsame : n'.faceTable = n.faceTable ∧ n'.faceCounter = n.faceCounter ∧
      n'.client = n.client → 0 ∈ n'.fib.faces ribPrefix → n'.Guarded := by
    rintro ⟨htab, hcount, hcl⟩ hrib
    exact ⟨⟨hcount ▸ hn.counter, htab ▸ hn.table, hcl ▸ hn.client⟩, hrib⟩
  cases e with
  | interest clk f i =>
      obtain ⟨htab, hcount, hcl, hfib⟩ := handleInterest_tables hs
      refine hsame ⟨htab, hcount, hcl⟩ ?_
      rcases hfib with hfib | ⟨p, g, hfib⟩
      · exact hfib ▸ hn.rib
      · rw [hfib]
        exact Fib.mem_addRoute.mpr (.inr hn.rib)
  | data clk f d =>
      obtain ⟨htab, hcount, hcl, hfib⟩ := handleData_tables (f := f) hs
      exact hsame ⟨htab, hcount, hcl⟩ (hfib ▸ hn.rib)
  | removeFace f =>
      rw [removeFace_cases (step_removeFace hs).1]
      have hf := hn.table f (FinMap.mem_keys_of_find (hclose f rfl))
      refine ⟨⟨hn.counter, fun g hg => hn.table g (Finset.mem_of_mem_erase hg), hn.client⟩, ?_⟩
      exact Fib.mem_cleanUp.mpr ⟨by omega, hn.rib⟩
  | cleanUp now =>
      obtain ⟨rfl, _⟩ := Prod.mk.inj (Except.ok.inj hs)
      exact ⟨⟨hn.counter, hn.table, hn.client⟩, hn.rib⟩
  | addLinkFace mac dev =>
      obtain ⟨rfl, _⟩ := Prod.mk.inj (Except.ok.inj hs)
      exact ⟨hn.toNumbered.addLinkFace mac dev, hn.rib⟩
  | accept =>
      obtain ⟨face, hface, rfl, _⟩ := step_accept hs
      have hc := hn.counter
      refine ⟨⟨?_, fun g hg => ?_, fun g hg => ?_⟩, hn.rib⟩
      · show 1 ≤ n.faceCounter + 1
        omega
      · rcases Finset.mem_insert.mp hg with rfl | hg
        · exact hn.client g hface
        · exact hn.table g hg
      · obtain rfl := Option.some.inj hg
        exact hc

/-- A guarded node sends no command, whichever face it came in on. -/
theorem command_not_sent {clk : Clock} {f : Int} {i j : Interest} {fs : List Int}
    (hn : n.Guarded) (hf : 1 ≤ f)
    (hs : n.handleInterest lib clk f i = .ok (n', some (.interest j fs))) :
    ¬ ribPrefix <+: j.name := by
  obtain ⟨rfl, _, _, hzero, _⟩ := handleInterest_forwarded hs
  intro hname
  exact hzero (mem_outList.mpr ⟨by omega, ribPrefix, hname, hn.rib⟩)

end Node

namespace Emulator

variable {mode : Rearm} {lib : NdnCxx} {em em' : Emulator}

/-- The same of the whole network: `I` holds of every node, and a device or a
posted dispatch names no face before 1. -/
structure Above (I : Node → Prop) (em : Emulator) : Prop where
  nodes : ∀ id n, em.nodeTable.find id = some n → I n
  devices : ∀ ref d mac f, em.deviceTable.find ref = some d → d.faces.find mac = some f → 1 ≤ f
  posted : ∀ id f w, .dispatch id f w ∈ em.posted → 1 ≤ f

theorem Above.setNode {I : Node → Prop} (h : em.Above I) {id : String} {n : Node} (hn : I n) :
    (em.setNode id n).Above I :=
  ⟨FinMap.forall_insert h.nodes hn, h.devices, h.posted⟩

theorem Above.setDevice {I : Node → Prop} (h : em.Above I) {ref : DeviceRef} {d : LinkDevice}
    (hd : ∀ mac f, d.faces.find mac = some f → 1 ≤ f) : (em.setDevice ref d).Above I := by
  refine ⟨h.nodes, fun ref' d' mac f hd' hf => ?_, h.posted⟩
  rcases FinMap.find_insert_cases hd' with ⟨_, rfl⟩ | ⟨_, hold⟩
  · exact hd _ _ hf
  · exact h.devices _ _ _ _ hold hf

theorem above_move {k : Nat} (h : em.Above Node.Guarded) (hm : Move mode lib k em em') :
    em'.Above Node.Guarded := by
  refine ⟨?_, ?_, ?_⟩
  · refine forall_nodes_move h.nodes ?_ hm
    intro id n n' e o hn hs hclose
    exact Node.guarded_step (h.nodes id n hn) hclose hs
  · intro ref d mac f hd hf
    rcases faces_move hm hd hf with ⟨d₀, hd₀, hf₀⟩ | ⟨d₀, n, hn, _, rfl⟩
    · exact h.devices ref d₀ mac f hd₀ hf₀
    · exact (h.nodes _ _ hn).counter
  · intro id f w hmem
    rcases posted_move hm hmem with hold | ⟨ref, d, i, hd, hf, _⟩
    · exact h.posted id f w hold
    · exact h.devices ref d _ f hd hf

/-- A configuration that is accepted numbers its faces from 1. -/
theorem above_config {c : Config} (h : readNetworkConfig c = .ok em) :
    em.Above Node.Numbered := by
  obtain ⟨em₁, em₂, h₁, h₂, h₃⟩ := readNetworkConfig_cases h
  have htop : em₁.Above Node.Numbered := by
    refine readTopology_induct (P := fun a => a.Above Node.Numbered)
      (Q := fun a n => a.Above Node.Numbered ∧ n.Numbered) ?_ ?_ ?_ ?_ ?_ ?_ h₁
    · exact ⟨by simp [empty], by simp [empty], by simp [empty]⟩
    · exact fun a id l h => ⟨h.nodes, h.devices, h.posted⟩
    · exact fun a n id l h => ⟨⟨h.1.nodes, h.1.devices, h.1.posted⟩, h.2⟩
    · exact fun a id limit h _ => ⟨h, Node.numbered_new id limit⟩
    · intro a n dev mac link h _ _
      refine ⟨h.1.setDevice fun m f hf => ?_, h.2.addLinkFace _ _⟩
      rcases FinMap.find_insert_cases hf with ⟨_, rfl⟩ | ⟨_, hold⟩
      · exact h.2.counter
      · cases hold
    · exact fun a n h => h.1.setNode h.2
  have hroutes : em₂.Above Node.Numbered := by
    refine readAll_preserves (fun a x b _ ha hread => ?_) htop h₂
    obtain ⟨hop, n, n', _, hn, hadd, rfl⟩ := readRoute_cases hread
    have hn' := ha.nodes _ _ hn
    refine ha.setNode ?_
    obtain ⟨d, hd, ⟨face, _, rfl⟩ | ⟨_, rfl⟩⟩ := addRoute_cases hadd
    · exact ⟨hn'.counter, hn'.table, hn'.client⟩
    · have hnum := hn'.addLinkFace hop ⟨n.id, x.2.interface⟩
      exact ⟨hnum.counter, hnum.table, hnum.client⟩
  exact readAll_preserves (fun a x b _ ha hread => readMatrix_preserves
    (fun a id l h => ⟨h.nodes, h.devices, h.posted⟩) ha hread) hroutes h₃

theorem above_start (h : em.Above Node.Numbered) : em.start.Above Node.Guarded := by
  refine ⟨fun id n hn => ?_, h.devices, h.posted⟩
  obtain ⟨m, hm, heq⟩ := FinMap.find_filterMap_eq_some.mp hn
  obtain rfl := Option.some.inj heq
  exact (h.nodes _ _ hm).start

theorem forward_not_command {e : Event} {id : String} {i : Interest} {fs : List Int}
    (h : em.Above Node.Guarded) (he : em.Enabled e)
    (hs : em.step mode lib e = .ok (em', .forward id (.interest i fs))) :
    ¬ ribPrefix <+: i.name := by
  obtain ⟨n, n', clk, f, w, hn, harr, hstep⟩ := step_forward he hs
  have hguard := h.nodes _ _ hn
  have hf : 1 ≤ f := by
    rcases harr with ⟨m, hm, happ⟩ | ⟨w', hmem⟩
    · obtain rfl : n = m := Option.some.inj (hn.symm.trans hm)
      exact hguard.table f (FinMap.mem_keys_of_find happ)
    · exact h.posted _ _ _ hmem
  cases w with
  | interest j => exact Node.command_not_sent hguard hf hstep
  | data d =>
      have hd : n.handleData clk f d = .ok (n', some (.interest i fs)) := hstep
      rcases Node.handleData_cases hd with ⟨_, _, ho⟩ | ⟨_, _, _, _, ho⟩ <;> cases ho

/-- **Rib commands never leave their node.** In every run of every network
that an accepted configuration starts, no node passes an Interest under
`/localhost/nfd/rib` to `Send`. -/
theorem rib_commands_stay {c : Config} (hc : readNetworkConfig c = .ok em)
    {tr : List (Event × Output)} (hrun : (system mode lib).Run em.start tr em') :
    ∀ x ∈ tr, ∀ id i fs, x.2 = .forward id (.interest i fs) → ¬ ribPrefix <+: i.name := by
  refine hrun.observes (I := fun a => a.Above Node.Guarded)
    (P := fun _ out => ∀ id i fs, out = .forward id (.interest i fs) → ¬ ribPrefix <+: i.name)
    ?_ (above_start (above_config hc))
  intro a e b out ha he hs
  refine ⟨step_preserves (fun _ _ => above_move) ha he hs, fun id i fs hout => ?_⟩
  subst hout
  exact forward_not_command ha he hs

/-- A client connects to the first node and sends a register command. -/
def commandRun : List (Event × Output) :=
  [(.accept "n0", .quiet),
   (.appReceive "n0" 2 (Clock.still 0) (fun _ => 0) (.packet (.interest
      ⟨ribPrefix ++ [component "register", [7]], 1, 4000, false, 80⟩)), .quiet)]

theorem rib_commands_stay_pair : ∃ em em', readNetworkConfig pairConfig = .ok em ∧
    (system .late Node.noCommands).Run em.start commandRun em' ∧
    ∀ x ∈ commandRun, ∀ id i fs, x.2 = .forward id (.interest i fs) → ¬ ribPrefix <+: i.name := by
  obtain ⟨em, hc, em', hrun⟩ : ∃ em, readNetworkConfig pairConfig = .ok em ∧
      ∃ em', (system .late Node.noCommands).Run em.start commandRun em' :=
    ⟨_, rfl, _, System.run_of_exec (show (system .late Node.noCommands).exec _
      (commandRun.map (·.1)) = some (commandRun, _) from rfl)⟩
  exact ⟨em, em', hc, hrun, rib_commands_stay hc hrun⟩

end Emulator

end NdnEm
