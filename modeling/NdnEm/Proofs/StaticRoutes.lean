import NdnEm.Proofs.Acceptance
import NdnEm.Proofs.FibFaces

/-!
# What static routes do

`AddRoute` looks for the face of the next hop in the device's own map, where
only the broadcast face is while the configuration is read, and does not enter
the face it makes. So all broadcast routes over a device share one face, and
every route to a neighbour gets a face of its own: an Interest that two of them
match is sent to that neighbour twice. The routes stay for as long as the
network runs, since only the faces of clients are ever cleaned up.
-/

namespace NdnEm

open Lib

namespace Node

variable {n : Node} {name p : Name} {mac hop : MacAddr} {ref dev : DeviceRef} {g : Int}

/-- The link faces over a device to an address that the FIB names for a name. -/
def toward (n : Node) (name : Name) (mac : MacAddr) (ref : DeviceRef) : Finset Int :=
  (n.fib.lookUp name ∅).filter fun g => n.faceTable.find g = some (.link mac ref)

theorem mem_toward : g ∈ n.toward name mac ref ↔
    (∃ p, p <+: name ∧ g ∈ n.fib.faces p) ∧ n.faceTable.find g = some (.link mac ref) := by
  rw [toward, Finset.mem_filter, Fib.mem_lookUp]
  simp

/-- A route to a face that is there. -/
theorem toward_addRoute (hface : n.faceTable.find g = some (.link hop dev)) :
    ({ n with fib := n.fib.addRoute p g } : Node).toward name mac ref =
      if p <+: name ∧ dev = ref ∧ hop = mac then insert g (n.toward name mac ref)
      else n.toward name mac ref := by
  ext f
  have hnew : f ∈ ({ n with fib := n.fib.addRoute p g } : Node).toward name mac ref ↔
      (p <+: name ∧ f = g ∧ dev = ref ∧ hop = mac) ∨ f ∈ n.toward name mac ref := by
    simp only [mem_toward, Fib.mem_addRoute]
    refine ⟨?_, ?_⟩
    · intro h
      obtain ⟨⟨q, hq, hor⟩, hf⟩ := h
      rcases hor with ⟨rfl, rfl⟩ | hold
      · obtain ⟨hmac, hdev⟩ := Face.link.inj (Option.some.inj (hface.symm.trans hf))
        exact .inl ⟨hq, rfl, hdev, hmac⟩
      · exact .inr ⟨⟨q, hq, hold⟩, hf⟩
    · intro h
      rcases h with ⟨hp, rfl, rfl, rfl⟩ | ⟨⟨q, hq, hold⟩, hf⟩
      · exact ⟨⟨p, hp, .inl ⟨rfl, rfl⟩⟩, hface⟩
      · exact ⟨⟨q, hq, .inr hold⟩, hf⟩
  rw [hnew]
  split_ifs with hmatch
  · rw [Finset.mem_insert]
    exact or_congr_left ⟨fun h => h.2.1, fun h => ⟨hmatch.1, h, hmatch.2⟩⟩
  · exact or_iff_right fun h => hmatch ⟨h.1, h.2.2⟩

/-- A new face is not named for anything yet. -/
theorem toward_addLinkFace (hn : n.Counted) (hnum : n.Numbered) (hvalid : n.FibValid) :
    (n.addLinkFace hop dev).1.toward name mac ref = n.toward name mac ref := by
  ext f
  simp only [mem_toward]
  refine and_congr_right fun h => ?_
  obtain ⟨q, _, hf⟩ := h
  have hne : f ≠ n.faceCounter := by
    have hcounter := hnum.counter
    rcases hvalid q f hf with ⟨rfl, _⟩ | hmem
    · omega
    · have hlt := hn.table f hmem
      omega
  rw [addLinkFace, FinMap.find_insert_ne hne]

theorem counter_notMem_toward (hn : n.Counted) : n.faceCounter ∉ n.toward name mac ref := by
  intro hmem
  exact hn.counter_notMem (FinMap.mem_keys_of_find (mem_toward.mp hmem).2)

/-- Only the faces of clients are ever cleaned up. -/
theorem toward_step {lib : NdnCxx} {n' : Node} {e : NodeEvent} {o : Option Forward}
    (hn : n.Counted) (hclose : ∀ f, e = .removeFace f → n.faceTable.find f = some .app)
    (hs : n.step lib e = .ok (n', o)) : n.toward name mac ref ⊆ n'.toward name mac ref := by
  intro g hg
  obtain ⟨⟨q, hq, hfib⟩, hface⟩ := mem_toward.mp hg
  refine mem_toward.mpr ⟨⟨q, hq, ?_⟩, linkFace_step hn hclose hs hface⟩
  rcases step_fib_cases hs with hsame | ⟨f, he, hclean⟩ | ⟨_, _, _, p, f, _, hadd⟩
  · rw [hsame]
    exact hfib
  · rw [hclean]
    refine Fib.mem_cleanUp.mpr ⟨?_, hfib⟩
    intro heq
    cases hface.symm.trans (heq ▸ hclose f he)
  · rw [hadd]
    exact Fib.mem_addRoute.mpr (.inr hfib)

theorem toward_start (hn : n.Numbered) : n.start.toward name mac ref = n.toward name mac ref := by
  ext f
  simp only [mem_toward]
  refine and_congr_left fun hf => exists_congr fun q => and_congr_right fun _ => ?_
  have hpos := hn.table f (FinMap.mem_keys_of_find hf)
  refine Fib.mem_addRoute.trans (or_iff_right fun h => ?_)
  omega

end Node

namespace Emulator

variable {em em₁ em' : Emulator} {done : List (String × RouteConfig)} {id : String} {name : Name}
  {mac : MacAddr} {dev : String}

/-- The route sends Interests for the name over the device to the address. -/
def Leads (em : Emulator) (id : String) (name : Name) (mac : MacAddr) (dev : String)
    (r : RouteConfig) : Prop :=
  r.pfx <+: name ∧ r.interface = dev ∧ (em.resolveNexthop id r).toOption = some mac

instance (r : RouteConfig) : Decidable (em.Leads id name mac dev r) :=
  inferInstanceAs (Decidable (_ ∧ _ ∧ _))

/-- The faces that so many routes over one device to one address take. -/
def facesOf (mac : MacAddr) (routes : Nat) : Nat :=
  if mac = broadcastMac then min 1 routes else routes

/-- What the routes read so far have made of a network of plain devices. -/
structure Routed (em₁ : Emulator) (done : List (String × RouteConfig)) (em : Emulator) :
    Prop where
  sound : em.Sound
  numbered : ∀ id n, em.nodeTable.find id = some n → n.Numbered
  same : SameDevices em₁ em
  /-- All faces are link faces of the node's devices, and the broadcast faces
  are the ones that the devices know. -/
  links : ∀ id n g face, em.nodeTable.find id = some n → n.faceTable.find g = some face →
    ∃ mac dev, face = .link mac ⟨id, dev⟩ ∧ (mac = broadcastMac →
      ∃ d, em.deviceTable.find ⟨id, dev⟩ = some d ∧ d.faces.find broadcastMac = some g)
  faces : ∀ id n, em.nodeTable.find id = some n → ∀ name mac dev,
    (n.toward name mac ⟨id, dev⟩).card =
      facesOf mac (done.countP fun x => x.1 = id ∧ em₁.Leads id name mac dev x.2)

theorem Routed.broadcast_unique (h : Routed em₁ done em) {n : Node}
    (hn : em.nodeTable.find id = some n) {g g' : Int}
    (hg : g ∈ n.toward name broadcastMac ⟨id, dev⟩)
    (hg' : n.faceTable.find g' = some (.link broadcastMac ⟨id, dev⟩)) : g = g' := by
  have hknown : ∀ g, n.faceTable.find g = some (.link broadcastMac ⟨id, dev⟩) →
      ∃ d, em.deviceTable.find ⟨id, dev⟩ = some d ∧ d.faces.find broadcastMac = some g := by
    intro g hg
    obtain ⟨mac, dev', hface, hd⟩ := h.links id n g _ hn hg
    obtain ⟨rfl, hdev⟩ := Face.link.inj hface
    obtain rfl := congrArg DeviceRef.dev hdev
    exact hd rfl
  obtain ⟨d, hd, hf⟩ := hknown g (Node.mem_toward.mp hg).2
  obtain ⟨d', hd', hf'⟩ := hknown g' hg'
  obtain rfl : d = d' := Option.some.inj (hd.symm.trans hd')
  exact Option.some.inj (hf.symm.trans hf')

theorem facesOf_succ_broadcast (k : Nat) : facesOf broadcastMac (k + 1) = 1 := by
  rw [facesOf, if_pos rfl]
  omega

theorem facesOf_succ (hmac : mac ≠ broadcastMac) (k : Nat) :
    facesOf mac (k + 1) = facesOf mac k + 1 := by
  rw [facesOf, facesOf, if_neg hmac, if_neg hmac]

/-- The route of a node makes one more face for it, or uses the one for
broadcast. -/
theorem Routed.faces_readRoute (h : Routed em₁ done em) (hplain : em₁.Plain) {n n' : Node}
    {r : RouteConfig} {hop : MacAddr} (hn : em.nodeTable.find id = some n)
    (hhop : em₁.resolveNexthop id r = .ok hop)
    (hadd : em.addRoute n r.pfx r.interface hop = .ok n') (name : Name) (mac : MacAddr)
    (dev : String) : (n'.toward name mac ⟨id, dev⟩).card =
      facesOf mac ((done.countP fun x => x.1 = id ∧ em₁.Leads id name mac dev x.2) +
        if em₁.Leads id name mac dev r then 1 else 0) := by
  have hcard := h.faces id n hn name mac dev
  have hid := h.sound.ids id n hn
  have hleads : em₁.Leads id name mac dev r ↔
      r.pfx <+: name ∧ (⟨id, r.interface⟩ : DeviceRef) = ⟨id, dev⟩ ∧ hop = mac := by
    rw [Leads, hhop]
    simp [Except.toOption]
  obtain ⟨d, hd, hcases⟩ := addRoute_cases hadd
  rw [hid] at hd
  have hfaces : (d.faces.find hop).isSome ↔ hop = broadcastMac :=
    hplain.broadcast _ d (by rw [← h.same.1]; exact hd) hop
  rcases hcases with ⟨face, hf, rfl⟩ | ⟨hnone, rfl⟩
  · obtain rfl : hop = broadcastMac := hfaces.mp (by rw [hf]; rfl)
    obtain ⟨m, hm, hface⟩ := h.sound.grounded.devices _ _ _ _ hd hf
    obtain rfl : n = m := Option.some.inj (hn.symm.trans hm)
    rw [Node.toward_addRoute hface]
    simp only [hleads]
    split_ifs with hmatch
    · obtain ⟨_, hdev, rfl⟩ := hmatch
      rw [facesOf_succ_broadcast, Finset.card_eq_one]
      refine ⟨face, Finset.eq_singleton_iff_unique_mem.mpr ⟨Finset.mem_insert_self _ _, ?_⟩⟩
      intro g hg
      rcases Finset.mem_insert.mp hg with hg | hg
      · exact hg
      · exact h.broadcast_unique hn hg (hdev ▸ hface)
    · exact hcard
  · have hmac : hop ≠ broadcastMac := by
      intro heq
      have hsome := hfaces.mpr heq
      rw [hnone] at hsome
      cases hsome
    have hcount := h.sound.grounded.counted id n hn
    have hold : (n.addLinkFace hop ⟨n.id, r.interface⟩).1.toward name mac ⟨id, dev⟩ =
        n.toward name mac ⟨id, dev⟩ :=
      Node.toward_addLinkFace hcount (h.numbered id n hn) (h.sound.valid id n hn)
    have hface : (n.addLinkFace hop ⟨n.id, r.interface⟩).1.faceTable.find n.faceCounter =
        some (.link hop ⟨n.id, r.interface⟩) := FinMap.find_insert_self _ _ _
    refine (congrArg Finset.card (Node.toward_addRoute hface)).trans ?_
    rw [hold]
    simp only [hleads, hid]
    split_ifs with hmatch
    · obtain ⟨_, _, rfl⟩ := hmatch
      rw [Finset.card_insert_of_notMem (Node.counter_notMem_toward hcount), hcard,
        facesOf_succ hmac]
    · exact hcard

theorem Routed.readRoute (h : Routed em₁ done em) (hplain : em₁.Plain)
    {x : String × RouteConfig} (hread : em.readRoute x.1 x.2 = .ok em') :
    Routed em₁ (done ++ [x]) em' := by
  have hsound := sound_readRoute h.sound hread
  obtain ⟨hop, n, n', hhop, hn, hadd, rfl⟩ := readRoute_cases hread
  rw [h.same.resolveNexthop] at hhop
  have hid := h.sound.ids x.1 n hn
  have hnum := h.numbered x.1 n hn
  obtain ⟨d, hd, hcases⟩ := addRoute_cases hadd
  have hmac : d.faces.find hop = none → hop ≠ broadcastMac := by
    intro hnone heq
    have hsome := (hplain.broadcast _ d (by rw [← h.same.1]; exact hd) hop).mpr heq
    rw [hnone] at hsome
    cases hsome
  refine ⟨hsound, FinMap.forall_insert h.numbered ?_, h.same, ?_, ?_⟩
  · rcases hcases with ⟨face, _, rfl⟩ | ⟨_, rfl⟩
    · exact ⟨hnum.counter, hnum.table, hnum.client⟩
    · have hnew := hnum.addLinkFace hop ⟨n.id, x.2.interface⟩
      exact ⟨hnew.counter, hnew.table, hnew.client⟩
  · intro id m g face hm hg
    rcases FinMap.find_insert_cases hm with ⟨rfl, rfl⟩ | ⟨_, hm⟩
    · rcases hcases with ⟨_, _, rfl⟩ | ⟨hnone, rfl⟩
      · exact h.links x.1 n g face hn hg
      · rcases FinMap.find_insert_cases hg with ⟨_, rfl⟩ | ⟨_, hg⟩
        · exact ⟨hop, x.2.interface, by rw [hid], fun heq => absurd heq (hmac hnone)⟩
        · exact h.links x.1 n g face hn hg
    · exact h.links id m g face hm hg
  · intro id m hm name mac dev
    rw [List.countP_append, List.countP_singleton]
    rcases FinMap.find_insert_cases hm with ⟨rfl, rfl⟩ | ⟨hne, hm⟩
    · rw [h.faces_readRoute hplain hn hhop hadd]
      simp
    · rw [h.faces id m hm]
      simp [Ne.symm hne]

/-! ## Before the first route -/

/-- Numbered link faces, and no routes. -/
structure Routeless (n : Node) : Prop extends Node.Numbered n where
  fib : n.fib = Fib.empty
  links : ∀ g face, n.faceTable.find g = some face → ∃ mac ref, face = .link mac ref

theorem Routeless.addLinkFace {n : Node} (h : Routeless n) (mac : MacAddr) (ref : DeviceRef) :
    Routeless (n.addLinkFace mac ref).1 := by
  refine ⟨h.toNumbered.addLinkFace mac ref, h.fib, ?_⟩
  intro g face hg
  rcases FinMap.find_insert_cases hg with ⟨_, rfl⟩ | ⟨_, hg⟩
  · exact ⟨mac, ref, rfl⟩
  · exact h.links g face hg

theorem routeless_topology {c : Config} (h : readTopology c = .ok em) :
    ∀ id n, em.nodeTable.find id = some n → Routeless n := by
  refine readTopology_induct (P := fun a => ∀ id n, a.nodeTable.find id = some n → Routeless n)
    (Q := fun a n => (∀ id m, a.nodeTable.find id = some m → Routeless m) ∧ Routeless n)
    ?_ ?_ ?_ ?_ ?_ ?_ h
  · simp [empty]
  · exact fun a id l h => h
  · exact fun a n id l h => h
  · exact fun a id limit h _ => ⟨h, Node.numbered_new id limit, rfl, by simp [Node.new]⟩
  · exact fun a n dev mac link h _ _ => ⟨h.1, h.2.addLinkFace _ _⟩
  · exact fun a n h => FinMap.forall_insert h.1 h.2

theorem routed_topology {c : Config} (h : readTopology c = .ok em) : Routed em [] em := by
  have hplain := plain_topology h
  have hnodes := routeless_topology h
  refine ⟨⟨grounded_topology h, hplain.ids, fibsValid_topology h⟩,
    fun id n hn => (hnodes id n hn).toNumbered, ⟨rfl, rfl⟩, ?_, ?_⟩
  · intro id n g face hn hg
    obtain ⟨mac, ref, rfl⟩ := (hnodes id n hn).links g face hg
    obtain ⟨rfl, d, hd, hf⟩ := hplain.known id n hn g mac ref hg
    exact ⟨mac, ref.dev, rfl, fun hmac => ⟨d, hd, hmac ▸ hf⟩⟩
  · intro id n hn name mac dev
    have hnone : n.toward name mac ⟨id, dev⟩ = ∅ := by
      ext g
      rw [Node.mem_toward, (hnodes id n hn).fib]
      simp
    rw [hnone]
    simp [facesOf]

/-! ## The accepted configuration -/

/-- The connections of a link do not matter for next hops. -/
theorem Joined.nexthop {cs : List (String × ConnectionConfig)} (h : Joined em₁ cs em)
    (r : RouteConfig) :
    (em.resolveNexthop id r).toOption = (em₁.resolveNexthop id r).toOption := by
  unfold resolveNexthop
  cases r.nexthop with
  | none => rfl
  | some b =>
      rw [h.devices]
      cases em₁.deviceTable.find ⟨id, r.interface⟩ with
      | none => rfl
      | some d =>
          have htab := h.tables d.link
          simp only []
          cases hl : em.linkTable.find d.link with
          | none =>
              cases hl₁ : em₁.linkTable.find d.link with
              | none => rfl
              | some l₁ => simp [hl, hl₁] at htab
          | some l =>
              cases hl₁ : em₁.linkTable.find d.link with
              | none => simp [hl, hl₁] at htab
              | some l₁ =>
                  rw [hl, hl₁] at htab
                  simp only [Link.getNodeDevice, Option.some.inj htab]
                  cases l₁.nodeTable.find b <;> rfl

theorem countP_routes {nodes : List NodeConfig} (hnodup : (nodes.map (·.id)).Nodup)
    {n : NodeConfig} (hn : n ∈ nodes) (P : RouteConfig → Prop) [DecidablePred P] :
    ((routes nodes).countP fun x => x.1 = n.id ∧ P x.2) = n.routes.countP fun r => P r := by
  have hother : ∀ cs : List NodeConfig, n.id ∉ cs.map (·.id) →
      ((routes cs).countP fun x => x.1 = n.id ∧ P x.2) = 0 := by
    intro cs hcs
    rw [List.countP_eq_zero]
    intro x hx heq
    obtain ⟨c, hc, hmem⟩ := List.mem_flatMap.mp hx
    obtain ⟨r, _, rfl⟩ := List.mem_map.mp hmem
    exact hcs (List.mem_map.mpr ⟨c, hc, (of_decide_eq_true heq).1⟩)
  induction nodes with
  | nil => cases hn
  | cons c cs ih =>
      obtain ⟨hnot, hnodup⟩ := List.nodup_cons.mp hnodup
      rw [routes, List.flatMap_cons, List.countP_append, List.countP_map]
      rcases List.mem_cons.mp hn with rfl | hn
      · have hrest := hother cs hnot
        rw [routes] at hrest
        rw [hrest]
        simp [Function.comp_def]
      · have hne : c.id ≠ n.id := by
          intro heq
          exact hnot (List.mem_map.mpr ⟨n, hn, heq.symm⟩)
        have hrest := ih hnodup hn
        rw [routes] at hrest
        rw [hrest]
        simp [Function.comp_def, hne]

/-- A node that is configured, once the network has started, and what its
routes have made of it. -/
theorem configured_node {c : Config} (hc : readNetworkConfig c = .ok em) {n : NodeConfig}
    (hn : n ∈ c.nodes) : ∃ m, em.nodeTable.find n.id = some m ∧ m.Numbered ∧ m.FibValid ∧
      (∀ g face, m.faceTable.find g = some face → ∃ mac dev, face = .link mac ⟨n.id, dev⟩) ∧
      ∀ name mac dev, (m.toward name mac ⟨n.id, dev⟩).card =
        facesOf mac (n.routes.countP fun r => em.Leads n.id name mac dev r) := by
  obtain ⟨em₁, em₂, h₁, h₂, h₃⟩ := readNetworkConfig_cases hc
  obtain ⟨_, hnodes, _⟩ := readTopology_ok_iff.mp ⟨em₁, h₁⟩
  obtain ⟨mac, htaken⟩ := taken_topology h₁
  have hplain := plain_topology h₁
  have hrouted : Routed em₁ (routes c.nodes) em₂ := by
    rw [readAll_eq] at h₂
    exact foldlM_keeps (I := Routed em₁) (fun _ _ _ _ h hread => h.readRoute hplain hread)
      (routed_topology h₁) h₂
  have hsame : em.nodeTable = em₂.nodeTable :=
    readAll_preserves (P := fun a => a.nodeTable = em₂.nodeTable)
      (fun a x b _ ha hread => readMatrix_preserves
        (P := fun a => a.nodeTable = em₂.nodeTable) (fun a id l h => h) ha hread) rfl h₃
  have hquiet := (taken_routes htaken h₂).placed.quiet
  have hnone : Joined em₂ [] em₂ :=
    ⟨rfl, fun _ => rfl, fun id l hl a b => by simp [hquiet id l a hl], by simp⟩
  have hjoined : Joined em₂ (connections c.matrices) em := hnone.readMatrices h₃
  have hleads : ∀ {id name mac dev r}, em₁.Leads id name mac dev r ↔
      em.Leads id name mac dev r := by
    intro id name mac dev r
    rw [Leads, Leads, hjoined.nexthop, hrouted.same.resolveNexthop]
  obtain ⟨m, hm⟩ := Option.isSome_iff_exists.mp
    (((taken_routes htaken h₂).nodes n.id).mpr (List.mem_map.mpr ⟨n, hn, rfl⟩))
  refine ⟨m, hsame ▸ hm, hrouted.numbered _ m hm, hrouted.sound.valid _ m hm, ?_, ?_⟩
  · intro g face hg
    obtain ⟨mac, dev, hface, _⟩ := hrouted.links n.id m g face hm hg
    exact ⟨mac, dev, hface⟩
  · intro name mac dev
    rw [hrouted.faces n.id m hm, countP_routes hnodes hn]
    simp only [hleads]

/-! ## Runs -/

/-- The node has all the faces toward its neighbours that it had. -/
def Keeps (n : Node) (id : String) (em : Emulator) : Prop :=
  ∃ m, em.nodeTable.find id = some m ∧
    ∀ name mac ref, n.toward name mac ref ⊆ m.toward name mac ref

theorem keeps_move {mode : Rearm} {lib : NdnCxx} {k : Nat} {n : Node} (hground : em.Grounded)
    (hm : Move mode lib k em em') (h : Keeps n id em) : Keeps n id em' := by
  obtain ⟨m, hfind, hsub⟩ := h
  rcases nodes_move hm with hsame | ⟨id', a, b, e, o, ha, hs, hclose, hnew⟩
  · exact ⟨m, hsame ▸ hfind, hsub⟩
  · by_cases hid : id = id'
    · subst hid
      obtain rfl : a = m := Option.some.inj (ha.symm.trans hfind)
      refine ⟨b, ?_, fun name mac ref => (hsub name mac ref).trans
        (Node.toward_step (hground.counted _ _ ha) hclose hs)⟩
      rw [hnew]
      exact FinMap.find_insert_self _ _ _
    · refine ⟨m, ?_, hsub⟩
      rw [hnew]
      exact (FinMap.find_insert_ne hid).trans hfind

theorem keeps_run {mode : Rearm} {lib : NdnCxx} {tr : List (Event × Output)} {n : Node}
    (hground : em.Grounded) (hrun : (system mode lib).Run em tr em') (h : Keeps n id em) :
    Keeps n id em' := by
  refine (hrun.invariant (I := fun a => a.Grounded ∧ Keeps n id a) ?_ ⟨hground, h⟩).2
  intro a e b o hI he hs
  refine step_preserves (P := fun a => a.Grounded ∧ Keeps n id a) ?_ hI he hs
  exact fun x y hx hm => ⟨grounded_move hx.1 hm, keeps_move hx.1 hm hx.2⟩

/-- **Static routes**: what a started node looks up for a name are the faces of
its routes whose prefix it has, one for all broadcast routes over a device and
one for every other route, and the fib manager's for its own. They stay. -/
theorem static_routes {c : Config} (hc : readNetworkConfig c = .ok em) {n : NodeConfig}
    (hn : n ∈ c.nodes) : ∃ m, em.start.nodeTable.find n.id = some m ∧
      (∀ name mac dev, (m.toward name mac ⟨n.id, dev⟩).card =
        facesOf mac (n.routes.countP fun r => em.Leads n.id name mac dev r)) ∧
      (∀ name, ∀ g ∈ m.fib.lookUp name ∅, (g = 0 ∧ ribPrefix <+: name) ∨
        ∃ mac dev, g ∈ m.toward name mac ⟨n.id, dev⟩) ∧
      ∀ mode lib tr em', (system mode lib).Run em.start tr em' → Keeps m n.id em' := by
  obtain ⟨m, hm, hnum, hvalid, hlinks, hfaces⟩ := configured_node hc hn
  have hstart : em.start.nodeTable.find n.id = some m.start :=
    FinMap.find_filterMap_eq_some.mpr ⟨m, hm, rfl⟩
  refine ⟨m.start, hstart, ?_, ?_, ?_⟩
  · intro name mac dev
    rw [Node.toward_start hnum]
    exact hfaces name mac dev
  · intro name g hg
    obtain ⟨q, hq, hfib⟩ : ∃ q, q <+: name ∧ g ∈ m.start.fib.faces q := by
      simpa using Fib.mem_lookUp.mp hg
    rcases hvalid.start q g hfib with ⟨hzero, hrib⟩ | hmem
    · exact .inl ⟨hzero, hrib ▸ hq⟩
    · cases hface : m.faceTable.find g with
      | none => exact absurd hmem (FinMap.notMem_keys.mpr hface)
      | some face =>
          obtain ⟨mac, dev, rfl⟩ := hlinks g face hface
          exact .inr ⟨mac, dev, Node.mem_toward.mpr ⟨⟨q, hq, hfib⟩, hface⟩⟩
  · intro mode lib tr em' hrun
    exact keeps_run (grounded_start (grounded_config hc)) hrun
      ⟨m.start, hstart, fun _ _ _ => Finset.Subset.refl _⟩

/-- Two routes to one neighbour, under one name and a longer one. -/
def nestedConfig : Config where
  links := [⟨"l0", fun len => len + 1, none⟩]
  nodes := [⟨"n0", none, [⟨"wn0", "l0"⟩], [⟨[], "wn0", some "n1"⟩, ⟨[[1]], "wn0", some "n1"⟩,
      ⟨[], "wn0", none⟩, ⟨[[1]], "wn0", none⟩]⟩,
    ⟨"n1", none, [⟨"wn1", "l0"⟩], []⟩]
  matrices := [⟨"l0", [⟨"n0", "n1"⟩]⟩]

/-- An Interest that both match goes out twice to the neighbour, and once to
all. -/
theorem static_routes_nested : ∃ em n, readNetworkConfig nestedConfig = .ok em ∧
    n ∈ nestedConfig.nodes ∧ ∃ m, em.start.nodeTable.find n.id = some m ∧
      (m.toward [[1], [2]] 2 ⟨n.id, "wn0"⟩).card = 2 ∧
      (m.toward [[1], [2]] broadcastMac ⟨n.id, "wn0"⟩).card = 1 := by
  obtain ⟨em, hc, htwo, hone⟩ : ∃ em, readNetworkConfig nestedConfig = .ok em ∧
      facesOf 2 ((nestedConfig.nodes[0].routes).countP
        fun r => em.Leads "n0" [[1], [2]] 2 "wn0" r) = 2 ∧
      facesOf broadcastMac ((nestedConfig.nodes[0].routes).countP
        fun r => em.Leads "n0" [[1], [2]] broadcastMac "wn0" r) = 1 :=
    ⟨_, rfl, by decide, by decide⟩
  obtain ⟨m, hm, hfaces, _⟩ := static_routes hc (n := nestedConfig.nodes[0]) (by decide)
  exact ⟨em, nestedConfig.nodes[0], hc, by decide, m, hm, (hfaces _ _ _).trans htwo,
    (hfaces _ _ _).trans hone⟩

end Emulator

end NdnEm
