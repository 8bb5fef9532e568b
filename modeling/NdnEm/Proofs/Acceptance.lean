import NdnEm.Lib.Pass
import NdnEm.Proofs.Hearing

/-!
# Which configurations are accepted

`ReadNetworkConfig` throws at the first thing it cannot make sense of, and what
it can make sense of depends on what it has read so far. Taken together its
checks come to this: no id is used twice where it must not be, and everything
that is referred to is there.
-/

namespace NdnEm

open Lib

/-- The node has a device on the link. -/
def OnLink (nodes : List NodeConfig) (node link : String) : Prop :=
  ∃ p ∈ placements nodes, p.ref.node = node ∧ p.link = link

instance (nodes : List NodeConfig) (node link : String) : Decidable (OnLink nodes node link) :=
  inferInstanceAs (Decidable (∃ p ∈ placements nodes, _))

/-- The interface is a device of the node, and a next hop that is named has a
device on the same link. -/
def RouteConfig.Resolves (nodes : List NodeConfig) (node : String) (r : RouteConfig) : Prop :=
  ∃ p ∈ placements nodes, p.ref = ⟨node, r.interface⟩ ∧ ∀ b ∈ r.nexthop, OnLink nodes b p.link

instance (nodes : List NodeConfig) (node : String) (r : RouteConfig) :
    Decidable (r.Resolves nodes node) :=
  inferInstanceAs (Decidable (∃ p ∈ placements nodes, _))

/-- A connection leads from one node on the link to another. -/
def ConnectionConfig.Joins (nodes : List NodeConfig) (link : String) (c : ConnectionConfig) :
    Prop :=
  c.src ≠ c.dst ∧ OnLink nodes c.src link ∧ OnLink nodes c.dst link

instance (nodes : List NodeConfig) (link : String) (c : ConnectionConfig) :
    Decidable (c.Joins nodes link) :=
  inferInstanceAs (Decidable (_ ∧ _ ∧ _))

structure Config.WellFormed (c : Config) : Prop where
  links : (c.links.map (·.id)).Nodup
  nodes : (c.nodes.map (·.id)).Nodup
  devices : ∀ n ∈ c.nodes, (n.devices.map (·.deviceId)).Nodup
  attached : ∀ n ∈ c.nodes, ∀ d ∈ n.devices, d.linkId ∈ c.links.map (·.id)
  routes : ∀ n ∈ c.nodes, ∀ r ∈ n.routes, r.Resolves c.nodes n.id
  matrices : ∀ m ∈ c.matrices, m.linkId ∈ c.links.map (·.id) ∧
    ∀ con ∈ m.connections, con.Joins c.nodes m.linkId

instance (c : Config) : Decidable c.WellFormed :=
  decidable_of_iff ((c.links.map (·.id)).Nodup ∧ (c.nodes.map (·.id)).Nodup ∧
      (∀ n ∈ c.nodes, (n.devices.map (·.deviceId)).Nodup) ∧
      (∀ n ∈ c.nodes, ∀ d ∈ n.devices, d.linkId ∈ c.links.map (·.id)) ∧
      (∀ n ∈ c.nodes, ∀ r ∈ n.routes, r.Resolves c.nodes n.id) ∧
      ∀ m ∈ c.matrices, m.linkId ∈ c.links.map (·.id) ∧
        ∀ con ∈ m.connections, con.Joins c.nodes m.linkId)
    ⟨fun ⟨links, nodes, devices, attached, routes, matrices⟩ =>
      ⟨links, nodes, devices, attached, routes, matrices⟩,
      fun h => ⟨h.links, h.nodes, h.devices, h.attached, h.routes, h.matrices⟩⟩

namespace Emulator

variable {em em' : Emulator} {links ids : List String} {ps : List Placement} {mac mac' : MacAddr}

/-! ## The passes as folds -/

theorem readAll_eq {α : Type} {read : Emulator → α → Except Fault Emulator} {cs : List α} :
    readAll read em cs = cs.foldlM read em := by
  induction cs generalizing em with
  | nil => rfl
  | cons c cs ih =>
      rw [readAll, List.foldlM_cons]
      cases read em c with
      | error f => rfl
      | ok em₁ => exact ih

/-- The body of the loop over the devices of a node. -/
def readDevice (x : Emulator × Node × MacAddr) (c : DeviceConfig) :
    Except Fault (Emulator × Node × MacAddr) :=
  match x.1.linkTable.find c.linkId with
  | none => .error (.runtimeError ("[Emulator::ReadNetworkConfig] unkown link " ++
      c.linkId ++ " on node " ++ x.2.1.id))
  | some l =>
      match x.1.addDevice x.2.1 c.deviceId x.2.2 c.linkId with
      | .error f => .error f
      | .ok (em, n) =>
          .ok ({ em with linkTable :=
            em.linkTable.insert c.linkId (l.addNodeDevice n.id ⟨n.id, c.deviceId⟩) }, n, x.2.2 + 1)

theorem readDevices_eq {n : Node} {cs : List DeviceConfig} :
    readDevices n mac em cs = cs.foldlM readDevice (em, n, mac) := by
  induction cs generalizing em n mac with
  | nil => rfl
  | cons c cs ih =>
      rw [readDevices, List.foldlM_cons]
      unfold readDevice
      cases em.linkTable.find c.linkId with
      | none => rfl
      | some l =>
          simp only []
          cases em.addDevice n c.deviceId mac c.linkId with
          | error f => rfl
          | ok x => exact ih

theorem readNodes_eq {cs : List NodeConfig} :
    readNodes em mac cs = (cs.foldlM (fun x c => readNode x.1 x.2 c) (em, mac)).map (·.1) := by
  induction cs generalizing em mac with
  | nil => rfl
  | cons c cs ih =>
      rw [readNodes, List.foldlM_cons]
      cases em.readNode mac c with
      | error f => rfl
      | ok x => exact ih

/-- The body of the loop over the connections of a matrix. -/
def readConnection (link : String) (em : Emulator) (c : ConnectionConfig) :
    Except Fault Emulator :=
  match em.linkTable.find link with
  | none => .error (.runtimeError
      ("[Emulator::ReadNetworkConfig] unkown matrix link id " ++ link))
  | some l => (l.addConnection c.src c.dst).map (em.setLink link)

theorem readConnections_eq {link : String} {cs : List ConnectionConfig} :
    readConnections link em cs = cs.foldlM (readConnection link) em := by
  induction cs generalizing em with
  | nil => rfl
  | cons c cs ih =>
      rw [readConnections, List.foldlM_cons]
      unfold readConnection
      cases em.linkTable.find link with
      | none => rfl
      | some l =>
          simp only []
          cases l.addConnection c.src c.dst with
          | error f => rfl
          | ok l' => exact ih

/-! ## What has been read -/

/-- The links and nodes that have been read, and the devices, with the next MAC
address. -/
structure Taken (links ids : List String) (ps : List Placement) (em : Emulator) (mac : MacAddr) :
    Prop where
  placed : em.Placed ps mac
  links : ∀ id, (em.linkTable.find id).isSome ↔ id ∈ links
  nodes : ∀ id, (em.nodeTable.find id).isSome ↔ id ∈ ids
  named : ∀ id n, em.nodeTable.find id = some n → n.id = id
  attached : ∀ p ∈ ps, ∃ d, em.deviceTable.find p.ref = some d ∧ d.link = p.link

theorem Taken.device_iff (h : Taken links ids ps em mac) (ref : DeviceRef) :
    (em.deviceTable.find ref).isSome ↔ ∃ p ∈ ps, p.ref = ref := by
  refine ⟨?_, ?_⟩
  · intro hsome
    obtain ⟨d, hd⟩ := Option.isSome_iff_exists.mp hsome
    obtain ⟨k, p, hp, href, _⟩ := h.placed.numbered ref d hd
    exact ⟨p, List.mem_of_getElem? hp, href⟩
  · intro h'
    obtain ⟨p, hp, rfl⟩ := h'
    obtain ⟨d, hd, _⟩ := h.attached p hp
    rw [hd]
    rfl

theorem Taken.onLink_iff (h : Taken links ids ps em mac) {link b : String} {l : Link}
    (hl : em.linkTable.find link = some l) :
    (l.nodeTable.find b).isSome ↔ ∃ p ∈ ps, p.ref.node = b ∧ p.link = link := by
  refine ⟨?_, ?_⟩
  · intro hsome
    obtain ⟨ref, href⟩ := Option.isSome_iff_exists.mp hsome
    obtain ⟨hnode, hmem⟩ := h.placed.entered link l b ref hl href
    exact ⟨_, hmem, hnode, rfl⟩
  · intro h'
    obtain ⟨p, hp, rfl, rfl⟩ := h'
    obtain ⟨l', hl', hsome⟩ := h.placed.known p hp
    obtain rfl : l = l' := Option.some.inj (hl.symm.trans hl')
    exact hsome

/-! ## The links -/

theorem taken_empty : Taken [] [] [] empty 1 :=
  ⟨⟨rfl, by simp, by simp [empty], by simp [empty], by simp, by simp [empty]⟩, by simp [empty],
    by simp [empty], by simp [empty], by simp⟩

theorem readLink_ok_iff {c : LinkConfig} :
    (∃ em', em.readLink c = .ok em') ↔ ¬ (em.linkTable.find c.id).isSome := by
  unfold readLink
  cases em.linkTable.find c.id <;> simp

theorem Taken.readLink {c : LinkConfig} (h : Taken links [] [] em mac)
    (hread : em.readLink c = .ok em') : Taken (links ++ [c.id]) [] [] em' mac := by
  have hplaced := h.placed.readLink hread
  obtain ⟨mtu, rfl⟩ := readLink_cases hread
  refine ⟨hplaced, ?_, h.nodes, h.named, by simp⟩
  intro id
  rw [List.mem_append, List.mem_singleton, ← h.links id]
  exact FinMap.isSome_insert

/-- The links that are known are those of the elements read so far. -/
theorem taken_link_step {done : List LinkConfig} {c : LinkConfig}
    (h : Taken (done.map (·.id)) [] [] em 1) (hread : em.readLink c = .ok em') :
    Taken ((done ++ [c]).map (·.id)) [] [] em' 1 := by
  rw [List.map_append]
  exact h.readLink hread

theorem readLinks_ok_iff {cs : List LinkConfig} :
    (∃ em', readAll readLink empty cs = .ok em') ↔ (cs.map (·.id)).Nodup := by
  rw [readAll_eq, ← nodup_map_iff_split]
  refine foldlM_ok_iff (I := fun done em => Taken (done.map (·.id)) [] [] em 1) ?_
    (fun _ _ _ _ h hread => taken_link_step h hread) taken_empty
  intro done em c h
  exact readLink_ok_iff.trans (not_congr (h.links c.id))

theorem taken_links {cs : List LinkConfig} (h : readAll readLink empty cs = .ok em) :
    Taken (cs.map (·.id)) [] [] em 1 := by
  rw [readAll_eq] at h
  exact foldlM_keeps (I := fun done em => Taken (done.map (·.id)) [] [] em 1)
    (fun _ _ _ _ h hread => taken_link_step h hread) taken_empty h

/-! ## The nodes and their devices -/

theorem Taken.place {n : Node} {l : Link} {dev link : String} (h : Taken links ids ps em mac)
    (hl : em.linkTable.find link = some l) (hnone : em.deviceTable.find ⟨n.id, dev⟩ = none) :
    Taken links ids (ps ++ [⟨⟨n.id, dev⟩, link⟩]) (em.place n l dev link mac) (mac + 1) where
  placed := h.placed.place hl hnone
  links id := by
    have hmem : link ∈ links := (h.links link).mp (by rw [hl]; rfl)
    refine FinMap.isSome_insert.trans ⟨?_, fun hid => .inl ((h.links id).mpr hid)⟩
    intro hor
    rcases hor with hid | rfl
    · exact (h.links id).mp hid
    · exact hmem
  nodes := h.nodes
  named := h.named
  attached p hp := by
    rcases List.mem_append.mp hp with hp | hp
    · obtain ⟨d, hd, hlink⟩ := h.attached p hp
      have hne : p.ref ≠ ⟨n.id, dev⟩ := by
        intro heq
        rw [heq, hnone] at hd
        cases hd
      exact ⟨d, (FinMap.find_insert_ne hne).trans hd, hlink⟩
    · obtain rfl := List.mem_singleton.mp hp
      exact ⟨_, FinMap.find_insert_self _ _ _, rfl⟩

theorem readDevice_ok_iff {n : Node} {c : DeviceConfig} :
    (∃ y, readDevice (em, n, mac) c = .ok y) ↔ (em.linkTable.find c.linkId).isSome ∧
      ¬ (em.deviceTable.find ⟨n.id, c.deviceId⟩).isSome := by
  unfold readDevice addDevice
  cases em.linkTable.find c.linkId with
  | none => simp
  | some l => cases em.deviceTable.find ⟨n.id, c.deviceId⟩ <;> simp

theorem readDevice_cases {n n' : Node} {c : DeviceConfig}
    (h : readDevice (em, n, mac) c = .ok (em', n', mac')) :
    ∃ l, em.linkTable.find c.linkId = some l ∧ em.deviceTable.find ⟨n.id, c.deviceId⟩ = none ∧
      em' = em.place n l c.deviceId c.linkId mac ∧ n'.id = n.id ∧ mac' = mac + 1 := by
  simp only [readDevice, addDevice] at h
  cases hl : em.linkTable.find c.linkId with
  | none =>
      rw [hl] at h
      cases h
  | some l =>
      cases hd : em.deviceTable.find ⟨n.id, c.deviceId⟩ with
      | some d =>
          rw [hl, hd] at h
          cases h
      | none =>
          rw [hl, hd] at h
          obtain ⟨rfl, hrest⟩ := Prod.mk.inj (Except.ok.inj h)
          obtain ⟨rfl, rfl⟩ := Prod.mk.inj hrest
          exact ⟨l, rfl, rfl, rfl, rfl, rfl⟩

/-- The devices of one node, as they are placed. -/
def placedAt (id : String) (ds : List DeviceConfig) : List Placement :=
  ds.map fun d => ⟨⟨id, d.deviceId⟩, d.linkId⟩

/-- The devices that have been read, with those of the node that is being read. -/
def TakenDevices (links ids : List String) (ps : List Placement) (id : String)
    (done : List DeviceConfig) (x : Emulator × Node × MacAddr) : Prop :=
  Taken links ids (ps ++ placedAt id done) x.1 x.2.2 ∧ x.2.1.id = id

theorem takenDevices_step {id : String} {done : List DeviceConfig} {c : DeviceConfig}
    {x y : Emulator × Node × MacAddr} (h : TakenDevices links ids ps id done x)
    (hread : readDevice x c = .ok y) : TakenDevices links ids ps id (done ++ [c]) y := by
  obtain ⟨em, n, mac⟩ := x
  obtain ⟨em', n', mac'⟩ := y
  obtain ⟨htaken, rfl⟩ := h
  obtain ⟨l, hl, hnone, rfl, hid, rfl⟩ := readDevice_cases hread
  refine ⟨?_, hid⟩
  have hplace := htaken.place hl hnone
  rwa [placedAt, List.map_append, List.map_singleton, ← List.append_assoc]

theorem readDevices_ok_iff {n : Node} {cs : List DeviceConfig} (h : Taken links ids ps em mac)
    (hnew : ∀ p ∈ ps, p.ref.node ≠ n.id) :
    (∃ y, readDevices n mac em cs = .ok y) ↔
      (∀ d ∈ cs, d.linkId ∈ links) ∧ (cs.map (·.deviceId)).Nodup := by
  rw [readDevices_eq, ← forall_split_iff, ← nodup_map_iff_split]
  have hpass : (∃ y, cs.foldlM readDevice (em, n, mac) = .ok y) ↔
      ∀ pre c post, cs = pre ++ c :: post →
        c.linkId ∈ links ∧ c.deviceId ∉ pre.map (·.deviceId) := by
    refine foldlM_ok_iff (I := TakenDevices links ids ps n.id) ?_
      (fun _ _ _ _ h hread => takenDevices_step h hread) ⟨by simpa [placedAt] using h, rfl⟩
    intro done x c hx
    obtain ⟨em, n', mac⟩ := x
    obtain ⟨htaken, hid⟩ := hx
    have hid' : n'.id = n.id := hid
    rw [readDevice_ok_iff, htaken.links, htaken.device_iff, hid']
    refine and_congr_right fun _ => not_congr ⟨?_, ?_⟩
    · intro h
      obtain ⟨p, hp, href⟩ := h
      rcases List.mem_append.mp hp with hp | hp
      · exact absurd (congrArg DeviceRef.node href) (hnew p hp)
      · obtain ⟨d, hd, rfl⟩ := List.mem_map.mp hp
        exact List.mem_map.mpr ⟨d, hd, congrArg DeviceRef.dev href⟩
    · intro h
      obtain ⟨d, hd, hdev⟩ := List.mem_map.mp h
      exact ⟨_, List.mem_append_right _ (List.mem_map.mpr ⟨d, hd, rfl⟩), by rw [hdev]⟩
  rw [hpass]
  exact ⟨fun h => ⟨fun pre c post heq => (h pre c post heq).1,
    fun pre c post heq => (h pre c post heq).2⟩,
    fun h pre c post heq => ⟨h.1 pre c post heq, h.2 pre c post heq⟩⟩

theorem placements_append (ns : List NodeConfig) (c : NodeConfig) :
    placements (ns ++ [c]) = placements ns ++ placedAt c.id c.devices := by
  simp [placements, placedAt]

theorem node_of_placement {ns : List NodeConfig} {p : Placement} (h : p ∈ placements ns) :
    p.ref.node ∈ ns.map (·.id) := by
  obtain ⟨c, hc, hp⟩ := List.mem_flatMap.mp h
  obtain ⟨d, _, rfl⟩ := List.mem_map.mp hp
  exact List.mem_map.mpr ⟨c, hc, rfl⟩

/-- The nodes that have been read. -/
def TakenNodes (links : List String) (done : List NodeConfig) (x : Emulator × MacAddr) : Prop :=
  Taken links (done.map (·.id)) (placements done) x.1 x.2

theorem Taken.setNode {id : String} {n : Node} (h : Taken links ids ps em mac) (hid : n.id = id) :
    Taken links (ids ++ [id]) ps (em.setNode id n) mac where
  placed := ⟨h.placed.next, h.placed.made, h.placed.numbered, h.placed.entered, h.placed.known,
    h.placed.quiet⟩
  links := h.links
  nodes id' := by
    rw [List.mem_append, List.mem_singleton, ← h.nodes id']
    exact FinMap.isSome_insert
  named := FinMap.forall_insert h.named hid
  attached := h.attached

theorem readNode_ok_iff {done : List NodeConfig} {x : Emulator × MacAddr} {c : NodeConfig}
    (h : TakenNodes links done x) : (∃ y, readNode x.1 x.2 c = .ok y) ↔
      c.id ∉ done.map (·.id) ∧ (∀ d ∈ c.devices, d.linkId ∈ links) ∧
        (c.devices.map (·.deviceId)).Nodup := by
  have htaken : Taken links (done.map (·.id)) (placements done) x.1 x.2 := h
  rw [← htaken.nodes c.id]
  unfold readNode
  cases hn : x.1.nodeTable.find c.id with
  | some n => simp
  | none =>
      simp only [Option.isSome_none, Bool.false_eq_true, not_false_eq_true, true_and]
      have hnew : ∀ p ∈ placements done, p.ref.node ≠ c.id := by
        intro p hp heq
        have hsome := (htaken.nodes c.id).mpr (heq ▸ node_of_placement hp)
        rw [hn] at hsome
        cases hsome
      generalize hnode : Node.new c.id _ = n
      have hid : n.id = c.id := by
        rw [← hnode]
        rfl
      rw [← readDevices_ok_iff htaken (hid ▸ hnew)]
      cases readDevices n x.2 x.1 c.devices <;> simp

theorem takenNodes_step {done : List NodeConfig} {x y : Emulator × MacAddr} {c : NodeConfig}
    (h : TakenNodes links done x) (hread : readNode x.1 x.2 c = .ok y) :
    TakenNodes links (done ++ [c]) y := by
  unfold readNode at hread
  split at hread
  · cases hread
  · simp only [] at hread
    split at hread
    · cases hread
    · next em₁ n mac₁ hdevs =>
        obtain rfl := Except.ok.inj hread
        rw [readDevices_eq] at hdevs
        have hnil : placements done ++ placedAt c.id [] = placements done := List.append_nil _
        obtain ⟨htaken, hid⟩ := foldlM_keeps
          (I := TakenDevices links (done.map (·.id)) (placements done) c.id)
          (fun _ _ _ _ h hread => takenDevices_step h hread)
          ⟨hnil.symm ▸ h, rfl⟩ hdevs
        unfold TakenNodes
        rw [List.map_append, List.map_singleton, placements_append]
        exact htaken.setNode hid

theorem readNodes_ok_iff {cs : List NodeConfig} (h : Taken links [] [] em mac) :
    (∃ em', readNodes em mac cs = .ok em') ↔ (cs.map (·.id)).Nodup ∧
      ∀ n ∈ cs, (∀ d ∈ n.devices, d.linkId ∈ links) ∧ (n.devices.map (·.deviceId)).Nodup := by
  have hpass : (∃ y, cs.foldlM (fun x c => readNode x.1 x.2 c) (em, mac) = .ok y) ↔
      ∀ pre c post, cs = pre ++ c :: post → c.id ∉ pre.map (·.id) ∧
        (∀ d ∈ c.devices, d.linkId ∈ links) ∧ (c.devices.map (·.deviceId)).Nodup :=
    foldlM_ok_iff (I := TakenNodes links) (fun _ _ _ h => readNode_ok_iff h)
      (fun _ _ _ _ h hread => takenNodes_step h hread) h
  rw [← nodup_map_iff_split, ← forall_split_iff, readNodes_eq]
  refine Iff.trans ?_ (hpass.trans ?_)
  · cases cs.foldlM (fun x c => readNode x.1 x.2 c) (em, mac) <;> simp [Except.map]
  · exact ⟨fun h => ⟨fun pre c post heq => (h pre c post heq).1,
      fun pre c post heq => (h pre c post heq).2⟩,
      fun h pre c post heq => ⟨h.1 pre c post heq, h.2 pre c post heq⟩⟩

theorem taken_nodes {cs : List NodeConfig} (h : Taken links [] [] em mac)
    (hread : readNodes em mac cs = .ok em') :
    ∃ mac', Taken links (cs.map (·.id)) (placements cs) em' mac' := by
  have hnone : TakenNodes links [] (em, mac) := h
  rw [readNodes_eq] at hread
  cases hfold : cs.foldlM (fun x c => readNode x.1 x.2 c) (em, mac) with
  | error f =>
      rw [hfold] at hread
      cases hread
  | ok y =>
      rw [hfold] at hread
      obtain rfl : y.1 = em' := Except.ok.inj hread
      exact ⟨y.2, foldlM_keeps (I := TakenNodes links)
        (fun _ _ _ _ h hread => takenNodes_step h hread) hnone hfold⟩

theorem readTopology_ok_iff {c : Config} : (∃ em, readTopology c = .ok em) ↔
    (c.links.map (·.id)).Nodup ∧ (c.nodes.map (·.id)).Nodup ∧
      ∀ n ∈ c.nodes, (∀ d ∈ n.devices, d.linkId ∈ c.links.map (·.id)) ∧
        (n.devices.map (·.deviceId)).Nodup := by
  rw [← readLinks_ok_iff]
  unfold readTopology
  cases h : readAll readLink empty c.links with
  | error f => simp
  | ok em =>
      simp only [Except.ok.injEq, exists_eq', true_and]
      exact readNodes_ok_iff (taken_links h)

theorem taken_topology {c : Config} (h : readTopology c = .ok em) :
    ∃ mac, Taken (c.links.map (·.id)) (c.nodes.map (·.id)) (placements c.nodes) em mac := by
  unfold readTopology at h
  split at h
  · cases h
  · next em₀ h₀ => exact taken_nodes (taken_links h₀) h

/-! ## The routes -/

theorem Taken.nexthop_ok_iff (h : Taken links ids ps em mac) {id : String} {r : RouteConfig}
    {p : Placement} (hp : p ∈ ps) (href : p.ref = ⟨id, r.interface⟩) :
    (∃ hop, em.resolveNexthop id r = .ok hop) ↔
      ∀ b ∈ r.nexthop, ∃ q ∈ ps, q.ref.node = b ∧ q.link = p.link := by
  unfold resolveNexthop
  cases r.nexthop with
  | none => simp
  | some b =>
      obtain ⟨d, hd, hlink⟩ := h.attached p hp
      obtain ⟨l, hl, _⟩ := h.placed.known p hp
      rw [href] at hd
      rw [← hlink] at hl
      simp only [hd, hl, Option.mem_def, Option.some.injEq, forall_eq', ← hlink,
        ← h.onLink_iff hl, Link.getNodeDevice]
      cases hb : l.nodeTable.find b with
      | none => simp
      | some ref =>
          -- the device that the link knows is in the table
          obtain ⟨_, hmem⟩ := h.placed.entered d.link l b ref hl hb
          obtain ⟨d', hd', _⟩ := h.attached _ hmem
          simp [hd']

theorem addRoute_ok_iff {n : Node} {pfx : Name} {dev : String} {hop : MacAddr} :
    (∃ n', em.addRoute n pfx dev hop = .ok n') ↔ (em.deviceTable.find ⟨n.id, dev⟩).isSome := by
  unfold addRoute
  cases em.deviceTable.find ⟨n.id, dev⟩ <;> simp

theorem Taken.readRoute_ok_iff (h : Taken links ids ps em mac)
    (howned : ∀ p ∈ ps, p.ref.node ∈ ids) {id : String} {r : RouteConfig} :
    (∃ em', em.readRoute id r = .ok em') ↔ ∃ p ∈ ps, p.ref = ⟨id, r.interface⟩ ∧
      ∀ b ∈ r.nexthop, ∃ q ∈ ps, q.ref.node = b ∧ q.link = p.link := by
  refine ⟨?_, ?_⟩
  · intro hok
    obtain ⟨em', hread⟩ := hok
    obtain ⟨hop, n, n', hhop, hn, hadd, _⟩ := readRoute_cases hread
    have hsome := addRoute_ok_iff.mp ⟨n', hadd⟩
    rw [h.named id n hn] at hsome
    obtain ⟨p, hp, href⟩ := (h.device_iff _).mp hsome
    exact ⟨p, hp, href, (h.nexthop_ok_iff hp href).mp ⟨hop, hhop⟩⟩
  · intro hresolves
    obtain ⟨p, hp, href, hhop⟩ := hresolves
    obtain ⟨hop, hhop⟩ := (h.nexthop_ok_iff hp href).mpr hhop
    have hid : id ∈ ids := by
      have hnode := howned p hp
      rwa [href] at hnode
    obtain ⟨n, hn⟩ := Option.isSome_iff_exists.mp ((h.nodes id).mpr hid)
    have hsome : (em.deviceTable.find ⟨n.id, r.interface⟩).isSome := by
      rw [h.named id n hn]
      exact (h.device_iff _).mpr ⟨p, hp, href⟩
    obtain ⟨n', hadd⟩ : ∃ n', em.addRoute n r.pfx r.interface hop = .ok n' :=
      addRoute_ok_iff.mpr hsome
    exact ⟨em.setNode id n', by simp only [Emulator.readRoute, hhop, hn, hadd]⟩

/-- A route is entered at a node that is there. -/
theorem Taken.readRoute (h : Taken links ids ps em mac) {id : String} {r : RouteConfig}
    (hread : em.readRoute id r = .ok em') : Taken links ids ps em' mac := by
  obtain ⟨hop, n, n', _, hn, hadd, rfl⟩ := readRoute_cases hread
  have hid : id ∈ ids := (h.nodes id).mp (by rw [hn]; rfl)
  have hname : n'.id = id := by
    rw [← h.named id n hn]
    obtain ⟨d, _, hcases⟩ := addRoute_cases hadd
    rcases hcases with ⟨face, _, rfl⟩ | ⟨_, rfl⟩ <;> rfl
  have hset := h.setNode hname
  refine ⟨hset.placed, hset.links, ?_, hset.named, hset.attached⟩
  intro id'
  rw [hset.nodes id', List.mem_append, List.mem_singleton]
  exact or_iff_left_of_imp fun heq => heq ▸ hid

theorem forall_routes_iff {nodes : List NodeConfig} {P : String → RouteConfig → Prop} :
    (∀ x ∈ routes nodes, P x.1 x.2) ↔ ∀ n ∈ nodes, ∀ r ∈ n.routes, P n.id r := by
  simp only [routes, List.forall_mem_flatMap, List.forall_mem_map]

theorem readRoutes_ok_iff {nodes : List NodeConfig}
    (h : Taken links (nodes.map (·.id)) (placements nodes) em mac) :
    (∃ em', readAll (fun em x => em.readRoute x.1 x.2) em (routes nodes) = .ok em') ↔
      ∀ n ∈ nodes, ∀ r ∈ n.routes, r.Resolves nodes n.id := by
  rw [readAll_eq, ← forall_routes_iff, ← forall_split_iff]
  exact foldlM_ok_iff
    (I := fun _ em => Taken links (nodes.map NodeConfig.id) (placements nodes) em mac)
    (fun _ _ _ h => h.readRoute_ok_iff fun _ => node_of_placement)
    (fun _ _ _ _ h hread => h.readRoute hread) h

theorem taken_routes {cs : List (String × RouteConfig)} (h : Taken links ids ps em mac)
    (hread : readAll (fun em x => em.readRoute x.1 x.2) em cs = .ok em') :
    Taken links ids ps em' mac :=
  readAll_preserves (P := fun em => Taken links ids ps em mac)
    (fun _ _ _ _ h hread => h.readRoute hread) h hread

/-! ## The connections -/

/-- The links that are known, each with the nodes it is entered with. -/
structure Entered (links : List String) (ps : List Placement) (em : Emulator) : Prop where
  links : ∀ id, (em.linkTable.find id).isSome ↔ id ∈ links
  onLink : ∀ id l b, em.linkTable.find id = some l →
    ((l.nodeTable.find b).isSome ↔ ∃ p ∈ ps, p.ref.node = b ∧ p.link = id)

theorem Taken.enteredLinks (h : Taken links ids ps em mac) : Entered links ps em :=
  ⟨h.links, fun _ _ _ hl => h.onLink_iff hl⟩

theorem addConnection_ok_iff {l : Link} {src dst : String} :
    (∃ l', l.addConnection src dst = .ok l') ↔
      src ≠ dst ∧ (l.nodeTable.find src).isSome ∧ (l.nodeTable.find dst).isSome := by
  unfold Link.addConnection
  split_ifs with hsame hsrc hdst
  · simp [hsame]
  · simp_all
  · simp_all
  · simp_all [Option.isSome_iff_ne_none]

theorem readConnection_some {link : String} {c : ConnectionConfig} {l : Link}
    (hl : em.linkTable.find link = some l) :
    readConnection link em c = (l.addConnection c.src c.dst).map (em.setLink link) := by
  unfold readConnection
  rw [hl]

theorem Entered.readConnection_ok_iff (h : Entered links ps em) {link : String}
    {c : ConnectionConfig} (hlink : link ∈ links) :
    (∃ em', readConnection link em c = .ok em') ↔ c.src ≠ c.dst ∧
      (∃ p ∈ ps, p.ref.node = c.src ∧ p.link = link) ∧
      ∃ p ∈ ps, p.ref.node = c.dst ∧ p.link = link := by
  obtain ⟨l, hl⟩ := Option.isSome_iff_exists.mp ((h.links link).mpr hlink)
  rw [← h.onLink link l c.src hl, ← h.onLink link l c.dst hl, ← addConnection_ok_iff,
    readConnection_some hl]
  cases l.addConnection c.src c.dst <;> simp [Except.map]

theorem Entered.readConnection (h : Entered links ps em) {link : String} {c : ConnectionConfig}
    (hlink : link ∈ links) (hread : Emulator.readConnection link em c = .ok em') :
    Entered links ps em' := by
  obtain ⟨l, hl⟩ := Option.isSome_iff_exists.mp ((h.links link).mpr hlink)
  rw [readConnection_some hl] at hread
  cases hcon : l.addConnection c.src c.dst with
  | error f =>
      rw [hcon] at hread
      cases hread
  | ok l' =>
      rw [hcon] at hread
      obtain rfl : em.setLink link l' = em' := Except.ok.inj hread
      obtain ⟨_, _, _, rfl⟩ := Link.addConnection_cases hcon
      refine ⟨fun id => ?_, fun id m b hm => ?_⟩
      · rw [← h.links id]
        refine FinMap.isSome_insert.trans (or_iff_left_of_imp fun heq => ?_)
        rw [heq, hl]
        rfl
      · rcases FinMap.find_insert_cases hm with ⟨rfl, rfl⟩ | ⟨_, hm⟩
        · exact h.onLink id l b hl
        · exact h.onLink id m b hm

theorem Entered.readMatrix_ok_iff {nodes : List NodeConfig}
    (h : Entered links (placements nodes) em) {c : MatrixConfig} :
    (∃ em', readMatrix em c = .ok em') ↔
      c.linkId ∈ links ∧ ∀ con ∈ c.connections, con.Joins nodes c.linkId := by
  rw [← h.links c.linkId, ← forall_split_iff]
  unfold readMatrix
  cases hl : em.linkTable.find c.linkId with
  | none => simp
  | some l =>
      have hlink : c.linkId ∈ links := (h.links c.linkId).mp (by rw [hl]; rfl)
      simp only [readConnections_eq, Option.isSome_some, true_and]
      exact foldlM_ok_iff (I := fun _ em => Entered links (placements nodes) em)
        (fun _ _ _ h => h.readConnection_ok_iff hlink)
        (fun _ _ _ _ h hread => h.readConnection hlink hread) h

theorem Entered.readMatrix (h : Entered links ps em) {c : MatrixConfig}
    (hread : Emulator.readMatrix em c = .ok em') : Entered links ps em' := by
  unfold Emulator.readMatrix at hread
  split at hread
  · cases hread
  · next l hl =>
      have hlink : c.linkId ∈ links := (h.links c.linkId).mp (by rw [hl]; rfl)
      rw [readConnections_eq] at hread
      exact foldlM_keeps (I := fun _ em => Entered links ps em)
        (fun _ _ _ _ h hread => h.readConnection hlink hread) h hread

theorem readMatrices_ok_iff {nodes : List NodeConfig} {ms : List MatrixConfig}
    (h : Entered links (placements nodes) em) : (∃ em', readAll readMatrix em ms = .ok em') ↔
      ∀ m ∈ ms, m.linkId ∈ links ∧ ∀ con ∈ m.connections, con.Joins nodes m.linkId := by
  rw [readAll_eq, ← forall_split_iff]
  exact foldlM_ok_iff (I := fun _ em => Entered links (placements nodes) em)
    (fun _ _ _ h => h.readMatrix_ok_iff) (fun _ _ _ _ h hread => h.readMatrix hread) h

/-- A configuration is accepted exactly if it is well formed. -/
theorem accepted_iff (c : Config) : (∃ em, readNetworkConfig c = .ok em) ↔ c.WellFormed := by
  refine ⟨?_, ?_⟩
  · intro hok
    obtain ⟨em, hread⟩ := hok
    obtain ⟨em₁, em₂, h₁, h₂, h₃⟩ := readNetworkConfig_cases hread
    obtain ⟨hlinks, hnodes, hdevices⟩ := readTopology_ok_iff.mp ⟨em₁, h₁⟩
    obtain ⟨mac, htaken⟩ := taken_topology h₁
    exact ⟨hlinks, hnodes, fun n hn => (hdevices n hn).2, fun n hn => (hdevices n hn).1,
      (readRoutes_ok_iff htaken).mp ⟨em₂, h₂⟩,
      (readMatrices_ok_iff (taken_routes htaken h₂).enteredLinks).mp ⟨em, h₃⟩⟩
  · intro h
    obtain ⟨em₁, h₁⟩ := readTopology_ok_iff.mpr
      ⟨h.links, h.nodes, fun n hn => ⟨h.attached n hn, h.devices n hn⟩⟩
    obtain ⟨mac, htaken⟩ := taken_topology h₁
    obtain ⟨em₂, h₂⟩ := (readRoutes_ok_iff htaken).mpr h.routes
    obtain ⟨em, h₃⟩ := (readMatrices_ok_iff (taken_routes htaken h₂).enteredLinks).mpr h.matrices
    exact ⟨em, by simp only [readNetworkConfig, h₁, h₂, h₃]⟩

example : pairConfig.WellFormed := by decide

end Emulator

end NdnEm
