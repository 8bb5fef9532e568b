import NdnEm.Proofs.Flood
import NdnEm.Proofs.Placement

/-!
# Who hears a transmission

A transmission is `StartRx` of what the link's node table has for each
neighbour of the sender, so it reaches one device of each node at most.
`AddConnection` refuses nodes that are not on the link, which is why a device
is found for every neighbour. That it is the device meant is another matter:
of the devices that a node has on a link, only the last one hears anything.
-/

namespace NdnEm

open Lib

namespace Link

variable {l l' : Link} {src dst a : String}

/-- What `m_nodeTable` has for each neighbour that does not lose the packet. -/
def receivers (l : Link) (drop : String → Bool) (nodeId : String) : List (Option DeviceRef) :=
  ((ascending (l.neighbors nodeId)).filter fun b => !drop b).map l.nodeTable.find

theorem mem_receivers {drop : String → Bool} {r : Option DeviceRef} :
    r ∈ l.receivers drop a ↔ ∃ b ∈ l.neighbors a, drop b = false ∧ l.nodeTable.find b = r := by
  simp [receivers, and_assoc]

theorem addConnection_cases (h : l.addConnection src dst = .ok l') :
    src ≠ dst ∧ (l.nodeTable.find src).isSome ∧ (l.nodeTable.find dst).isSome ∧
      l' = { l with linkMatrix := l.linkMatrix.insert src (insert dst (l.neighbors src)) } := by
  unfold addConnection at h
  split at h
  · cases h
  · next hne =>
      split at h
      · cases h
      · next hsrc =>
          split at h
          · cases h
          · next hdst =>
              rw [Option.isNone_iff_eq_none] at hsrc hdst
              exact ⟨hne, Option.isSome_iff_ne_none.mpr hsrc, Option.isSome_iff_ne_none.mpr hdst,
                (Except.ok.inj h).symm⟩

theorem addConnection_neighbors (h : l.addConnection src dst = .ok l') (a b : String) :
    b ∈ l'.neighbors a ↔ b ∈ l.neighbors a ∨ (a = src ∧ b = dst) := by
  obtain ⟨_, _, _, rfl⟩ := addConnection_cases h
  by_cases ha : a = src
  · subst ha
    simp only [neighbors, FinMap.find_insert_self, Option.getD_some, Finset.mem_insert]
    tauto
  · simp [neighbors, ha]

end Link

namespace Emulator

variable {mode : Rearm} {lib : NdnCxx} {em em₁ em' : Emulator}

/-- `m_nodeTable[it->first]->StartRx (pkt)`. -/
def startRxOn (mode : Rearm) (pkt : Packet) (em : Emulator) :
    Option DeviceRef → Except Fault Emulator
  | none => .error (.undefined "null device")
  | some ref =>
      match em.attached ref with
      | .error f => .error f
      | .ok (d, l) => (d.startRx mode l em.now pkt).map (em.setDevice ref)

/-- Of the nodes, those that do not lose the packet have `StartRx` called, and
nothing else is done. -/
theorem transmit_eq (l : Link) (drop : String → Bool) (pkt : Packet) (em : Emulator)
    (ids : List String) :
    transmit mode l drop pkt em ids =
      ((ids.filter fun b => !drop b).map l.nodeTable.find).foldlM (startRxOn mode pkt) em := by
  induction ids generalizing em with
  | nil => rfl
  | cons b rest ih =>
      rw [transmit]
      by_cases hdrop : drop b = true
      · rw [if_pos hdrop, ih, List.filter_cons_of_neg (by simp [hdrop])]
      · rw [if_neg hdrop, List.filter_cons_of_pos (by simp [hdrop]), List.map_cons,
          List.foldlM_cons]
        cases l.nodeTable.find b with
        | none => rfl
        | some ref =>
            simp only [startRxOn]
            cases em.attached ref with
            | error f => rfl
            | ok x =>
                simp only []
                cases x.1.startRx mode x.2 em.now pkt with
                | error f => rfl
                | ok d' => exact ih (em.setDevice ref d')

/-- Every device that the configuration attaches to a link hears the nodes that
have a connection to its node, and a transmission calls `StartRx` of nothing
but devices of other nodes. -/
structure Hears (c : Config) (em : Emulator) : Prop where
  heard : ∀ m ∈ c.matrices, ∀ con ∈ m.connections, ∃ l, em.linkTable.find m.linkId = some l ∧
    ∀ p ∈ placements c.nodes, p.link = m.linkId → p.ref.node = con.dst →
      ∀ drop, drop con.dst = false → some p.ref ∈ l.receivers drop con.src
  others : ∀ id l, em.linkTable.find id = some l → ∀ drop a, ∀ r ∈ l.receivers drop a,
    ∃ ref, r = some ref ∧ (em.deviceTable.find ref).isSome ∧ ref.node ≠ a

/-- No node that a connection goes to has two devices on the link of the
connection. -/
def OneDevicePerLink (c : Config) : Prop :=
  ∀ m ∈ c.matrices, ∀ con ∈ m.connections, ∀ p ∈ placements c.nodes, ∀ q ∈ placements c.nodes,
    p.link = m.linkId → q.link = m.linkId → p.ref.node = con.dst → q.ref.node = con.dst →
      p.ref = q.ref

instance (c : Config) : Decidable (OneDevicePerLink c) :=
  inferInstanceAs (Decidable (∀ m ∈ c.matrices, ∀ con ∈ m.connections, ∀ p ∈ placements c.nodes,
    ∀ q ∈ placements c.nodes, _))

/-! ## The matrices -/

/-- The connections of all matrices, each with its link. -/
def connections (matrices : List MatrixConfig) : List (String × ConnectionConfig) :=
  matrices.flatMap fun m => m.connections.map fun con => (m.linkId, con)

/-- Reading these connections has entered them into the link matrices, and
changed nothing else. -/
structure Joined (em₁ : Emulator) (cs : List (String × ConnectionConfig)) (em : Emulator) :
    Prop where
  devices : em.deviceTable = em₁.deviceTable
  tables : ∀ id, (em.linkTable.find id).map (·.nodeTable) =
    (em₁.linkTable.find id).map (·.nodeTable)
  neighbors : ∀ id l, em.linkTable.find id = some l → ∀ a b,
    b ∈ l.neighbors a ↔ (id, ⟨a, b⟩) ∈ cs
  known : ∀ x ∈ cs, x.2.src ≠ x.2.dst ∧
    ∃ l, em.linkTable.find x.1 = some l ∧ (l.nodeTable.find x.2.dst).isSome

theorem Joined.addConnection {cs : List (String × ConnectionConfig)} {link : String}
    {con : ConnectionConfig} {l l' : Link} (h : Joined em₁ cs em)
    (hl : em.linkTable.find link = some l) (hadd : l.addConnection con.src con.dst = .ok l') :
    Joined em₁ (cs ++ [(link, con)]) (em.setLink link l') := by
  have hmem := Link.addConnection_neighbors hadd
  obtain ⟨hne, _, hdst, hl'⟩ := Link.addConnection_cases hadd
  have hsame : l'.nodeTable = l.nodeTable := by rw [hl']
  have hfind : ∀ id, (em.setLink link l').linkTable.find id =
      if id = link then some l' else em.linkTable.find id := fun _ => rfl
  refine ⟨h.devices, ?_, ?_, ?_⟩
  · intro id
    rw [hfind, ← h.tables id]
    split_ifs with hid
    · rw [hid, hl, Option.map_some, Option.map_some, hsame]
    · rfl
  · intro id m hm a b
    rw [hfind] at hm
    rw [List.mem_append, List.mem_singleton]
    split_ifs at hm with hid
    · obtain rfl := Option.some.inj hm
      subst hid
      rw [hmem, h.neighbors id l hl]
      refine or_congr_right ⟨?_, ?_⟩
      · rintro ⟨rfl, rfl⟩
        rfl
      · intro heq
        rw [← (Prod.mk.inj heq).2]
        exact ⟨rfl, rfl⟩
    · rw [h.neighbors id m hm]
      refine ⟨.inl, fun hor => hor.resolve_right fun heq => hid (Prod.mk.inj heq).1⟩
  · intro x hx
    rw [hfind]
    rcases List.mem_append.mp hx with hx | hx
    · obtain ⟨hxne, m, hm, hsome⟩ := h.known x hx
      refine ⟨hxne, ?_⟩
      split_ifs with hid
      · obtain rfl : l = m := Option.some.inj (hl.symm.trans (hid ▸ hm))
        exact ⟨l', rfl, by rw [hsame]; exact hsome⟩
      · exact ⟨m, hm, hsome⟩
    · obtain rfl := List.mem_singleton.mp hx
      exact ⟨hne, l', if_pos rfl, by rw [hsame]; exact hdst⟩

theorem Joined.readConnections {cs : List (String × ConnectionConfig)} {link : String}
    {cons : List ConnectionConfig} (h : Joined em₁ cs em)
    (hread : Emulator.readConnections link em cons = .ok em') :
    Joined em₁ (cs ++ cons.map (link, ·)) em' := by
  induction cons generalizing em cs with
  | nil =>
      obtain rfl := Except.ok.inj hread
      rw [List.map_nil, List.append_nil]
      exact h
  | cons con cons ih =>
      rw [Emulator.readConnections] at hread
      split at hread
      · cases hread
      · next l hl =>
          split at hread
          · cases hread
          · next l' hadd =>
              have hrest := ih (h.addConnection hl hadd) hread
              rw [List.append_assoc] at hrest
              exact hrest

theorem Joined.readMatrices {cs : List (String × ConnectionConfig)} {ms : List MatrixConfig}
    (h : Joined em₁ cs em) (hread : readAll readMatrix em ms = .ok em') :
    Joined em₁ (cs ++ connections ms) em' := by
  induction ms generalizing em cs with
  | nil =>
      obtain rfl := Except.ok.inj hread
      rw [connections, List.flatMap_nil, List.append_nil]
      exact h
  | cons m ms ih =>
      rw [readAll] at hread
      split at hread
      · cases hread
      · next em₂ hm =>
          unfold readMatrix at hm
          split at hm
          · cases hm
          · have hrest := ih (h.readConnections hm) hread
            rw [List.append_assoc] at hrest
            exact hrest

/-- The tables and matrices of an accepted configuration, in terms of it. -/
theorem joined_config {c : Config} (h : readNetworkConfig c = .ok em) :
    ∃ em₁ mac, em₁.Placed (placements c.nodes) mac ∧ Joined em₁ (connections c.matrices) em := by
  obtain ⟨em₁, em₂, h₁, h₂, h₃⟩ := readNetworkConfig_cases h
  obtain ⟨mac, hplaced⟩ := placed_topology h₁
  have hsame : SameDevices em₁ em₂ :=
    readAll_preserves (P := SameDevices em₁) (fun a x b _ ha hread =>
      ⟨(sameDevices_readRoute hread).1.trans ha.1, (sameDevices_readRoute hread).2.trans ha.2⟩)
      ⟨rfl, rfl⟩ h₂
  have hnone : Joined em₁ [] em₂ := by
    refine ⟨hsame.1, ?_, ?_, by simp⟩
    · intro id
      rw [hsame.2]
    · intro id l hl a b
      rw [hsame.2] at hl
      rw [hplaced.quiet id l a hl]
      simp
  exact ⟨em₁, mac, hplaced, hnone.readMatrices h₃⟩

/-! ## What is heard -/

theorem mem_connections {ms : List MatrixConfig} {link : String} {con : ConnectionConfig} :
    (link, con) ∈ connections ms ↔ ∃ m ∈ ms, m.linkId = link ∧ con ∈ m.connections := by
  simp [connections]
  tauto

theorem Joined.entered {cs : List (String × ConnectionConfig)} {ps : List Placement}
    {mac : MacAddr} {id b : String} {l : Link} {ref : DeviceRef} (hw : Joined em₁ cs em)
    (hp : em₁.Placed ps mac) (hl : em.linkTable.find id = some l)
    (hb : l.nodeTable.find b = some ref) : ref.node = b ∧ ⟨ref, id⟩ ∈ ps := by
  have htab := hw.tables id
  rw [hl, Option.map_some] at htab
  obtain ⟨l₁, hl₁, heq⟩ := Option.map_eq_some_iff.mp htab.symm
  rw [← heq] at hb
  exact hp.entered id l₁ b ref hl₁ hb

theorem hears_iff {c : Config} {mac : MacAddr} (hp : em₁.Placed (placements c.nodes) mac)
    (hw : Joined em₁ (connections c.matrices) em) : em.Hears c ↔ OneDevicePerLink c := by
  constructor
  · intro h m hm con hcon
    obtain ⟨l, hl, hheard⟩ := h.heard m hm con hcon
    -- what is heard at `con.dst` is what its entry in the node table says
    have hentry : ∀ p ∈ placements c.nodes, p.link = m.linkId → p.ref.node = con.dst →
        l.nodeTable.find con.dst = some p.ref := by
      intro p hmem hlink hnode
      obtain ⟨b, _, _, hb⟩ := Link.mem_receivers.mp
        (hheard p hmem hlink hnode (fun _ => false) rfl)
      obtain ⟨heq, _⟩ := hw.entered hp hl hb
      rw [← hnode, heq]
      exact hb
    intro p hpm q hqm hpl hql hpn hqn
    exact Option.some.inj ((hentry p hpm hpl hpn).symm.trans (hentry q hqm hql hqn))
  · intro hone
    refine ⟨?_, ?_⟩
    · intro m hm con hcon
      have hmem : (m.linkId, con) ∈ connections c.matrices :=
        mem_connections.mpr ⟨m, hm, rfl, hcon⟩
      obtain ⟨_, l, hl, hsome⟩ := hw.known _ hmem
      refine ⟨l, hl, ?_⟩
      intro p hpm hlink hnode drop hdrop
      obtain ⟨ref, href⟩ := Option.isSome_iff_exists.mp hsome
      obtain ⟨hrefn, hrefm⟩ := hw.entered hp hl href
      have heq : p.ref = ref := hone m hm con hcon p hpm ⟨ref, m.linkId⟩ hrefm hlink rfl hnode hrefn
      rw [heq]
      exact Link.mem_receivers.mpr
        ⟨con.dst, (hw.neighbors _ l hl _ _).mpr hmem, hdrop, href⟩
    · intro id l hl drop a r hr
      obtain ⟨b, hb, _, rfl⟩ := Link.mem_receivers.mp hr
      obtain ⟨hne, l', hl', hsome⟩ := hw.known _ ((hw.neighbors id l hl a b).mp hb)
      obtain rfl : l = l' := Option.some.inj (hl.symm.trans hl')
      obtain ⟨ref, href⟩ := Option.isSome_iff_exists.mp hsome
      obtain ⟨hnode, hmem⟩ := hw.entered hp hl href
      refine ⟨ref, href, ?_, ?_⟩
      · obtain ⟨k, hk⟩ := List.mem_iff_getElem?.mp hmem
        obtain ⟨d, hd, _⟩ := hp.made k _ hk
        rw [hw.devices, hd]
        rfl
      · rw [hnode]
        exact hne.symm

theorem Hears.of_sameTopology {c : Config} (h : em.Hears c) (hsame : SameTopology em em') :
    em'.Hears c := by
  refine ⟨?_, ?_⟩
  · rw [hsame.links]
    exact h.heard
  · intro id l hl drop a r hr
    rw [hsame.links] at hl
    obtain ⟨ref, hr, hsome, hne⟩ := h.others id l hl drop a r hr
    refine ⟨ref, hr, ?_, hne⟩
    have hdev := congrArg Option.isSome (hsame.devices ref)
    rw [Option.isSome_map, Option.isSome_map] at hdev
    rw [hdev]
    exact hsome

/-- **Every device can hear its link** if no node that a connection goes to has
two devices on it, and only then. -/
theorem devices_hear {c : Config} (hc : readNetworkConfig c = .ok em) :
    (∀ tr em', (system mode lib).Run em.start tr em' → em'.Hears c) ↔ OneDevicePerLink c := by
  obtain ⟨em₁, mac, hp, hw⟩ := joined_config hc
  have hstart : Joined em₁ (connections c.matrices) em.start :=
    ⟨hw.devices, hw.tables, hw.neighbors, hw.known⟩
  constructor
  · intro h
    exact (hears_iff hp hstart).mp (h [] em.start (.nil _))
  · intro hone tr em' hrun
    have hsame : SameTopology em.start em' :=
      hrun.invariant
        (fun _ _ _ _ ha he hs => step_preserves (fun _ _ => sameTopology_move) ha he hs)
        ⟨rfl, rfl, fun _ => rfl⟩
    exact ((hears_iff hp hstart).mpr hone).of_sameTopology hsame

theorem devices_hear_pair : ∃ em, readNetworkConfig pairConfig = .ok em ∧
    ((∀ tr em', (system .late Node.noCommands).Run em.start tr em' → em'.Hears pairConfig) ↔
      OneDevicePerLink pairConfig) ∧ OneDevicePerLink pairConfig :=
  ⟨_, rfl, devices_hear rfl, by decide⟩

/-- The pair, where the second node has another device on the link. -/
def twinConfig : Config where
  links := pairConfig.links
  nodes := [⟨"n0", none, [⟨"wn0", "l0"⟩], [⟨[], "wn0", none⟩]⟩,
    ⟨"n1", none, [⟨"wn1", "l0"⟩, ⟨"wn2", "l0"⟩], [⟨[], "wn1", none⟩]⟩]
  matrices := pairConfig.matrices

/-- A client of the first node asks for something, and no copy is lost. -/
def askRun : List (Event × Output) :=
  let wn0 : DeviceRef := ⟨"n0", "wn0"⟩
  let pkt : Packet := ⟨0, .interest echoInterest⟩
  [(.accept "n0", .quiet),
   (.appReceive "n0" 2 (Clock.still 0) (fun _ => 0) (.packet (.interest echoInterest)),
     .forward "n0" (.interest echoInterest [1])),
   (.timer wn0 .csmaExpire, .device wn0 .quiet),
   (.timer wn0 (.doCsma 0), .device wn0 (.transmit pkt)),
   (.run 0 (Clock.still 0) (fun _ => 0) (fun _ => false), .quiet)]

/-- The second device of `n1` receives the Interest, and the first one, which
its route goes through, does not. -/
theorem first_device_deaf : ∃ em em' d₁ d₂, readNetworkConfig twinConfig = .ok em ∧
    (system .late Node.noCommands).Run em.start askRun em' ∧
    em'.deviceTable.find ⟨"n1", "wn1"⟩ = some d₁ ∧ d₁.state = .idle ∧
    em'.deviceTable.find ⟨"n1", "wn2"⟩ = some d₂ ∧ d₂.state = .rx ∧ ¬ em'.Hears twinConfig := by
  refine ⟨_, _, _, _, rfl, System.run_of_exec (show (system .late Node.noCommands).exec _
    (askRun.map (·.1)) = some (askRun, _) from rfl), rfl, rfl, rfl, rfl, ?_⟩
  intro h
  obtain ⟨l, hl, hheard⟩ := h.heard _ List.mem_cons_self ⟨"n0", "n1"⟩ List.mem_cons_self
  obtain rfl := Option.some.inj hl
  have hdeaf := hheard ⟨⟨"n1", "wn1"⟩, "l0"⟩ (by decide) rfl rfl (fun _ => false) rfl
  revert hdeaf
  decide

end Emulator

end NdnEm
