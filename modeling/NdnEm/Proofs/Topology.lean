import NdnEm.Proofs.FibFaces
import NdnEm.Proofs.Flood
import NdnEm.Proofs.Hearing

/-!
# The topology of a run

The links and the places of the devices come from the configuration and never
change: what hears what is what the connections say, a link enters a device
under the name of its node, and a link face hangs on a device of the node that
has it. So a packet that leaves a node leaves it through one of its devices,
and what a node hears was sent by a node that is connected to it.
-/

namespace NdnEm

open Lib

/-- The configuration has a connection from the one node to the other. -/
def Config.Connects (c : Config) (a b : String) : Prop :=
  ∃ m ∈ c.matrices, ∃ con ∈ m.connections, con.src = a ∧ con.dst = b

/-- There is a path of connections, of any length, from the one to the other. -/
def Config.Reaches (c : Config) : String → String → Prop := Relation.ReflTransGen c.Connects

namespace Emulator

variable {mode : Rearm} {lib : NdnCxx} {em em' : Emulator} {k : Nat} {c : Config}

/-! ## Faces and devices -/

/-- Every link face hangs on a device of the node that has it. -/
def Housed (em : Emulator) : Prop :=
  ∀ id n, em.nodeTable.find id = some n → ∀ g mac ref,
    n.faceTable.find g = some (.link mac ref) →
      ref.node = id ∧ (em.deviceTable.find ref).isSome

/-- Link faces of a node that hang on devices of another emulator. -/
def HousedOn (em : Emulator) (id : String) (n : Node) : Prop :=
  ∀ g mac ref, n.faceTable.find g = some (.link mac ref) →
    ref.node = id ∧ (em.deviceTable.find ref).isSome

theorem Housed.setNode {id : String} {n : Node} (h : em.Housed) (hn : em.HousedOn id n) :
    (em.setNode id n).Housed :=
  FinMap.forall_insert h hn

theorem isSome_setDevice {ref ref' : DeviceRef} (d : LinkDevice)
    (h : (em.deviceTable.find ref').isSome) :
    ((em.setDevice ref d).deviceTable.find ref').isSome := by
  rw [setDevice, FinMap.find_insert]
  split
  · rfl
  · exact h

theorem Housed.setDevice (h : em.Housed) (ref : DeviceRef) (d : LinkDevice) :
    (em.setDevice ref d).Housed := by
  intro id n hn g mac ref' hg
  obtain ⟨hid, hsome⟩ := h id n hn g mac ref' hg
  exact ⟨hid, isSome_setDevice d hsome⟩

/-- A new face of a node, on a device that it has. -/
theorem HousedOn.addLinkFace {id : String} {n : Node} {mac : MacAddr} {ref : DeviceRef}
    (h : em.HousedOn id n) (hid : ref.node = id) (hsome : (em.deviceTable.find ref).isSome) :
    em.HousedOn id (n.addLinkFace mac ref).1 := by
  intro g mac' ref' hg
  rcases FinMap.find_insert_cases hg with ⟨_, heq⟩ | ⟨_, hg⟩
  · obtain ⟨rfl, rfl⟩ := Face.link.inj heq
    exact ⟨hid, hsome⟩
  · exact h g mac' ref' hg

theorem housed_move (h : em.Housed) (hm : Move mode lib k em em') : em'.Housed := by
  cases hm with
  | @node id n n' e o hn hs hadd _ =>
      refine h.setNode ?_
      intro g mac ref hg
      exact h id n hn g mac ref (Node.step_linkFaces hadd hs g mac ref hg)
  | @face ref d n src hd hn _ _ =>
      have hon : em.HousedOn ref.node (n.addLinkFace src ref).1 :=
        HousedOn.addLinkFace (h ref.node n hn) rfl (by rw [hd]; rfl)
      exact (h.setNode hon).setDevice ref _
  | startTx hd hs => exact h.setDevice _ _
  | startRx hd hs => exact h.setDevice _ _
  | fire hd hs => exact h.setDevice _ _
  | object w _ => exact h
  | address a _ _ => exact h
  | dispatch w hd hf _ => exact h
  | transmit link nodeId pkt => exact h
  | unpost j => exact h
  | tick n => exact h

theorem housed_topology (h : readTopology c = .ok em) : em.Housed := by
  refine readTopology_induct (P := Housed) (Q := fun a n => a.Housed ∧ a.HousedOn n.id n)
    ?_ ?_ ?_ ?_ ?_ ?_ h
  · intro id n hn
    cases hn
  · exact fun a id l h => h
  · exact fun a n id l h => h
  · intro a id limit h _
    refine ⟨h, ?_⟩
    intro g mac ref hg
    cases hg
  · intro a n dev mac link h _ _
    refine ⟨h.1.setDevice _ _, ?_⟩
    refine HousedOn.addLinkFace ?_ rfl ?_
    · intro g mac' ref hg
      obtain ⟨hid, hsome⟩ := h.2 g mac' ref hg
      exact ⟨hid, isSome_setDevice _ hsome⟩
    · show (FinMap.find (FinMap.insert _ _ _) _).isSome
      rw [FinMap.find_insert_self]
      rfl
  · exact fun a n h => h.1.setNode h.2

theorem housed_config (h : readNetworkConfig c = .ok em) : em.Housed := by
  obtain ⟨em₁, em₂, h₁, h₂, h₃⟩ := readNetworkConfig_cases h
  have hroutes : em₂.Housed ∧ ∀ id n, em₂.nodeTable.find id = some n → n.id = id := by
    refine readAll_preserves (P := fun a => a.Housed ∧ ∀ id n, a.nodeTable.find id = some n →
      n.id = id) (fun a x b _ ha hread => ?_) ⟨housed_topology h₁, (plain_topology h₁).ids⟩ h₂
    obtain ⟨hop, n, n', _, hn, hadd, rfl⟩ := readRoute_cases hread
    have hid := ha.2 _ _ hn
    obtain ⟨d, hd, ⟨face, _, rfl⟩ | ⟨_, rfl⟩⟩ := addRoute_cases hadd
    · have hon : a.HousedOn x.1 n := ha.1 _ _ hn
      exact ⟨ha.1.setNode hon, FinMap.forall_insert ha.2 hid⟩
    · have hon : a.HousedOn x.1 (n.addLinkFace hop ⟨n.id, x.2.interface⟩).1 :=
        HousedOn.addLinkFace (ha.1 _ _ hn) hid (by rw [hd]; rfl)
      exact ⟨ha.1.setNode hon, FinMap.forall_insert ha.2 hid⟩
  exact readAll_preserves (fun a m b _ ha hread => readMatrix_preserves (fun _ _ _ h => h) ha hread)
    hroutes.1 h₃

theorem Housed.start (h : em.Housed) : em.start.Housed := by
  intro id n hn
  obtain ⟨m, hm, heq⟩ := FinMap.find_filterMap_eq_some.mp hn
  obtain rfl := Option.some.inj heq
  exact h id m hm

/-! ## Links -/

/-- The links are those of the configuration: a neighbour is a node with a
connection to it and a device there, and the device is one of its own. -/
structure Charted (c : Config) (em : Emulator) : Prop where
  entered : ∀ id l b ref, em.linkTable.find id = some l → l.nodeTable.find b = some ref →
    ref.node = b ∧ (em.deviceTable.find ref).isSome
  neighbors : ∀ id l a b, em.linkTable.find id = some l → b ∈ l.neighbors a →
    c.Connects a b ∧ (l.nodeTable.find b).isSome

theorem charted_config (h : readNetworkConfig c = .ok em) : em.Charted c := by
  obtain ⟨em₁, mac, hplaced, hjoined⟩ := joined_config h
  refine ⟨?_, ?_⟩
  · intro id l b ref hl hb
    obtain ⟨hnode, hmem⟩ := hjoined.entered hplaced hl hb
    refine ⟨hnode, ?_⟩
    obtain ⟨j, hj⟩ := List.mem_iff_getElem?.mp hmem
    obtain ⟨d, hd, _⟩ := hplaced.made j _ hj
    rw [hjoined.devices, hd]
    rfl
  · intro id l a b hl hb
    have hmem := (hjoined.neighbors id l hl a b).mp hb
    refine ⟨?_, ?_⟩
    · obtain ⟨m, hm, _, hcon⟩ := mem_connections.mp hmem
      exact ⟨m, hm, _, hcon, rfl, rfl⟩
    · obtain ⟨_, l', hl', hsome⟩ := hjoined.known _ hmem
      obtain rfl : l = l' := Option.some.inj (hl.symm.trans hl')
      exact hsome

/-- No run changes the links, or takes a device away. -/
theorem Charted.of_sameTopology (h : em.Charted c) (hsame : SameTopology em em') :
    em'.Charted c := by
  refine ⟨?_, ?_⟩
  · intro id l b ref hl hb
    rw [hsame.links] at hl
    obtain ⟨hnode, hsome⟩ := h.entered id l b ref hl hb
    refine ⟨hnode, ?_⟩
    have hmap := hsame.devices ref
    obtain ⟨d, hd⟩ := Option.isSome_iff_exists.mp hsome
    rw [hd, Option.map_some] at hmap
    obtain ⟨d', hd', _⟩ := Option.map_eq_some_iff.mp hmap
    rw [hd']
    rfl
  · intro id l a b hl
    rw [hsame.links] at hl
    exact h.neighbors id l a b hl

theorem sameTopology_run {tr : List (Event × Output)} (hrun : (system mode lib).Run em tr em') :
    SameTopology em em' :=
  hrun.invariant (fun _ _ _ _ ha he hs => step_preserves (fun _ _ => sameTopology_move) ha he hs)
    ⟨rfl, rfl, fun _ => rfl⟩

/-! ## Before anything happens -/

/-- Nothing was received or sent yet. -/
structure Blank (em : Emulator) : Prop where
  nodes : ∀ id n, em.nodeTable.find id = some n →
    n.pit = Pit.empty ∧ ∃ limit, n.cacheManager = CacheManager.new limit
  devices : ∀ ref d, em.deviceTable.find ref = some d →
    ∃ mac link faces, d = { LinkDevice.new mac link 5 with faces := faces }
  posted : em.posted = []

theorem blank_config (h : readNetworkConfig c = .ok em) : em.Blank := by
  obtain ⟨em₁, em₂, h₁, h₂, h₃⟩ := readNetworkConfig_cases h
  have htop : em₁.Blank := by
    refine readTopology_induct (P := Blank) (Q := fun a n => a.Blank ∧
      n.pit = Pit.empty ∧ ∃ limit, n.cacheManager = CacheManager.new limit) ?_ ?_ ?_ ?_ ?_ ?_ h₁
    · exact ⟨by simp [empty], by simp [empty], rfl⟩
    · exact fun a id l h => ⟨h.nodes, h.devices, h.posted⟩
    · exact fun a n id l h => ⟨⟨h.1.nodes, h.1.devices, h.1.posted⟩, h.2⟩
    · exact fun a id limit h _ => ⟨h, rfl, limit, rfl⟩
    · intro a n dev mac link h _ _
      exact ⟨⟨h.1.nodes, FinMap.forall_insert h.1.devices ⟨mac, link, _, rfl⟩, h.1.posted⟩, h.2⟩
    · exact fun a n h => ⟨FinMap.forall_insert h.1.nodes h.2, h.1.devices, h.1.posted⟩
  have hroutes : em₂.Blank := by
    refine readAll_preserves (fun a x b _ ha hread => ?_) htop h₂
    obtain ⟨hop, n, n', _, hn, hadd, rfl⟩ := readRoute_cases hread
    have hold := ha.nodes _ _ hn
    refine ⟨FinMap.forall_insert ha.nodes ?_, ha.devices, ha.posted⟩
    obtain ⟨d, hd, ⟨face, _, rfl⟩ | ⟨_, rfl⟩⟩ := addRoute_cases hadd
    · exact hold
    · exact hold
  exact readAll_preserves (fun a m b _ ha hread => readMatrix_preserves
    (fun a id l h => ⟨h.nodes, h.devices, h.posted⟩) ha hread) hroutes h₃

theorem Blank.start (h : em.Blank) : em.start.Blank := by
  refine ⟨?_, h.devices, h.posted⟩
  intro id n hn
  obtain ⟨m, hm, heq⟩ := FinMap.find_filterMap_eq_some.mp hn
  obtain rfl := Option.some.inj heq
  exact h.nodes id m hm

/-- What the configuration has built, and what every run keeps of it. -/
structure Laid (c : Config) (em : Emulator) : Prop where
  housed : em.Housed
  charted : em.Charted c

theorem laid_start (h : readNetworkConfig c = .ok em) : em.start.Laid c := by
  have hcharted := charted_config h
  exact ⟨(housed_config h).start, hcharted.entered, hcharted.neighbors⟩

theorem laid_step {e : Event} {out : Output} (h : em.Laid c) (he : em.Enabled e)
    (hs : em.step mode lib e = .ok (em', out)) : em'.Laid c := by
  refine ⟨step_preserves (fun _ _ => housed_move) h.housed he hs, ?_⟩
  have hrun : (system mode lib).Run em [(e, out)] em' := .single he hs
  exact h.charted.of_sameTopology (sameTopology_run hrun)

end Emulator

end NdnEm
