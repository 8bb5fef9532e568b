import NdnEm.Proofs.ConfigStep
import NdnEm.Proofs.DeviceStep
import NdnEm.Proofs.EmulatorStep
import NdnEm.Proofs.Forwarding

/-!
# One link face per neighbour

A link face is entered in two tables: the node's, by its id, and the device's,
by the MAC address at the other end. `AddBroadcastFace` and `PostRx` write
both. `AddRoute` looks the next hop up in the device's table, makes a face if
there is none, and writes only the node's.

So the two tables agree for as long as nothing runs, and in every run, exactly
when no route makes a face. With a unicast route the device does not know the
face it has, and makes another one when the neighbour is heard: an Interest of
that neighbour then comes in on one face and is routed back out of the other.
-/

namespace NdnEm

open Lib

namespace Node

/-- No event but the creation of a face adds a link face. -/
theorem step_linkFaces {lib : NdnCxx} {n n' : Node} {e : NodeEvent} {o : Option Forward}
    (hadd : ∀ mac dev, e ≠ .addLinkFace mac dev) (hs : n.step lib e = .ok (n', o)) :
    ∀ g mac ref, n'.faceTable.find g = some (.link mac ref) →
      n.faceTable.find g = some (.link mac ref) := by
  cases e with
  | interest clk f i => rw [(handleInterest_tables hs).1]; exact fun _ _ _ h => h
  | data clk f d => rw [(handleData_tables (f := f) hs).1]; exact fun _ _ _ h => h
  | removeFace f =>
      rw [removeFace_cases (step_removeFace hs).1]
      intro g mac ref h
      simp only [FinMap.find_erase] at h
      split at h
      · cases h
      · exact h
  | cleanUp now =>
      obtain ⟨rfl, _⟩ := Prod.mk.inj (Except.ok.inj hs)
      exact fun _ _ _ h => h
  | addLinkFace mac dev => exact absurd rfl (hadd mac dev)
  | accept =>
      obtain ⟨face, _, rfl, _⟩ := step_accept hs
      intro g mac ref h
      simp only [handleAccept, FinMap.find_insert] at h
      split at h
      · cases h
      · exact h

end Node

namespace Emulator

variable {mode : Rearm} {lib : NdnCxx} {em em' : Emulator}

/-- For every device and remote MAC, the node has at most one link face, and
it is the one the device's own face map answers. -/
def OneFacePerNeighbor (em : Emulator) : Prop :=
  ∀ ref d n mac, em.deviceTable.find ref = some d → em.nodeTable.find ref.node = some n →
    (∀ g g', n.faceTable.find g = some (.link mac ref) →
      n.faceTable.find g' = some (.link mac ref) → g = g') ∧
    ∀ g, n.faceTable.find g = some (.link mac ref) → d.faces.find mac = some g

/-- A link face among some node's faces is known to its device. -/
def Known (em : Emulator) (id : String) (n : Node) : Prop :=
  ∀ g mac ref, n.faceTable.find g = some (.link mac ref) →
    ref.node = id ∧ ∃ d, em.deviceTable.find ref = some d ∧ d.faces.find mac = some g

def AllKnown (em : Emulator) : Prop :=
  ∀ id n, em.nodeTable.find id = some n → em.Known id n

theorem AllKnown.oneFace (h : em.AllKnown) : em.OneFacePerNeighbor := by
  intro ref d n mac hd hn
  have hface : ∀ g, n.faceTable.find g = some (.link mac ref) → d.faces.find mac = some g := by
    intro g hg
    obtain ⟨_, d', hd', hf⟩ := h _ _ hn g mac ref hg
    obtain rfl : d = d' := Option.some.inj (hd.symm.trans hd')
    exact hf
  refine ⟨fun g g' hg hg' => ?_, hface⟩
  exact Option.some.inj ((hface g hg).symm.trans (hface g' hg'))

/-- Devices may forget nothing. -/
theorem Known.mono {id : String} {n : Node} (h : em.Known id n)
    (hdev : ∀ ref d mac g, em.deviceTable.find ref = some d → d.faces.find mac = some g →
      ∃ d', em'.deviceTable.find ref = some d' ∧ d'.faces.find mac = some g) :
    em'.Known id n := by
  intro g mac ref hg
  obtain ⟨hid, d, hd, hf⟩ := h g mac ref hg
  exact ⟨hid, hdev _ _ _ _ hd hf⟩

theorem known_setNode {id : String} {n : Node} (h : em.AllKnown) (hn : em.Known id n) :
    (em.setNode id n).AllKnown :=
  FinMap.forall_insert h hn

theorem known_setDevice {ref : DeviceRef} {d : LinkDevice} (d' : LinkDevice)
    (hd : em.deviceTable.find ref = some d)
    (hfaces : ∀ mac g, d.faces.find mac = some g → d'.faces.find mac = some g) :
    ∀ ref₀ d₀ mac g, em.deviceTable.find ref₀ = some d₀ → d₀.faces.find mac = some g →
      ∃ d₁, (em.setDevice ref d').deviceTable.find ref₀ = some d₁ ∧
        d₁.faces.find mac = some g := by
  intro ref₀ d₀ mac g hd₀ hf
  by_cases href : ref₀ = ref
  · subst href
    obtain rfl : d = d₀ := Option.some.inj (hd.symm.trans hd₀)
    exact ⟨d', FinMap.find_insert_self _ _ _, hfaces _ _ hf⟩
  · exact ⟨d₀, (FinMap.find_insert_ne href).trans hd₀, hf⟩

theorem allKnown_fixed {ref : DeviceRef} {d d' : LinkDevice} (h : em.AllKnown)
    (hd : em.deviceTable.find ref = some d) (hfix : d.Fixed d') :
    (em.setDevice ref d').AllKnown := by
  intro id n hn
  refine (h id n hn).mono (known_setDevice d' hd fun mac g hf => ?_)
  rw [hfix.2.2]
  exact hf

theorem allKnown_move {k : Nat} (h : em.AllKnown) (hm : Move mode lib k em em') :
    em'.AllKnown := by
  cases hm with
  | @node id n n' e o hn hs hadd _ =>
      refine known_setNode h fun g mac ref hg => ?_
      exact h _ _ hn g mac ref (Node.step_linkFaces hadd hs g mac ref hg)
  | object w _ => exact h
  | address a _ _ => exact h
  | startTx hd hs => exact allKnown_fixed h hd (LinkDevice.startTx_fixed hs)
  | startRx hd hs => exact allKnown_fixed h hd (LinkDevice.startRx_fixed hs)
  | fire hd hs => exact allKnown_fixed h hd (LinkDevice.fire_fixed hs)
  | @face ref d n src hd hn hnone _ =>
      let d' := { d with faces := d.faces.insert src (n.addLinkFace src ref).2 }
      have hmono := known_setDevice d' hd fun mac g hf => by
        refine (FinMap.find_insert_ne ?_).trans hf
        rintro rfl
        rw [hnone] at hf
        cases hf
      have hold : (em.setDevice ref d').AllKnown := fun id n hn => (h id n hn).mono hmono
      refine known_setNode hold fun g mac ref' hg => ?_
      rcases FinMap.find_insert_cases hg with ⟨rfl, hface⟩ | ⟨_, hg⟩
      · obtain ⟨rfl, rfl⟩ := Face.link.inj hface
        exact ⟨rfl, _, FinMap.find_insert_self _ _ _, FinMap.find_insert_self _ _ _⟩
      · exact hold _ _ hn g mac ref' hg
  | dispatch w hd hf _ => exact h
  | transmit link nodeId pkt => exact h
  | unpost j => exact h
  | tick n => exact h

/-! ## What the configuration leaves -/

/-- After the devices are made: every device has its broadcast face and no
other, every node knows its id, and all link faces are known. -/
structure Plain (em : Emulator) : Prop where
  ids : ∀ id n, em.nodeTable.find id = some n → n.id = id
  broadcast : ∀ ref d, em.deviceTable.find ref = some d →
    ∀ mac, (d.faces.find mac).isSome ↔ mac = broadcastMac
  known : em.AllKnown

theorem plain_addBroadcastFace {n : Node} {dev : String} {mac : MacAddr} {link : String}
    (h : em.Plain) (hn : em.Known n.id n) (hnone : em.deviceTable.find ⟨n.id, dev⟩ = none) :
    (em.addBroadcastFace n ⟨n.id, dev⟩ (LinkDevice.new mac link 5)).1.Plain ∧
    (em.addBroadcastFace n ⟨n.id, dev⟩ (LinkDevice.new mac link 5)).1.Known n.id
      (em.addBroadcastFace n ⟨n.id, dev⟩ (LinkDevice.new mac link 5)).2 := by
  have hmono : ∀ ref₀ d₀ mac₀ g, em.deviceTable.find ref₀ = some d₀ →
      d₀.faces.find mac₀ = some g →
      ∃ d₁, (em.addBroadcastFace n ⟨n.id, dev⟩
        (LinkDevice.new mac link 5)).1.deviceTable.find ref₀ = some d₁ ∧
        d₁.faces.find mac₀ = some g := by
    intro ref₀ d₀ mac₀ g hd₀ hf
    refine ⟨d₀, (FinMap.find_insert_ne ?_).trans hd₀, hf⟩
    rintro rfl
    rw [hnone] at hd₀
    cases hd₀
  refine ⟨⟨h.ids, fun ref d hd m => ?_, fun id n hn => (h.known id n hn).mono hmono⟩,
    fun g m ref hg => ?_⟩
  · rcases FinMap.find_insert_cases hd with ⟨_, rfl⟩ | ⟨_, hd⟩
    · by_cases hm : m = broadcastMac <;> simp [LinkDevice.new, hm]
    · exact h.broadcast ref d hd m
  · rcases FinMap.find_insert_cases hg with ⟨rfl, hface⟩ | ⟨_, hg⟩
    · obtain ⟨rfl, rfl⟩ := Face.link.inj hface
      exact ⟨rfl, _, FinMap.find_insert_self _ _ _, FinMap.find_insert_self _ _ _⟩
    · exact hn.mono hmono g m ref hg

theorem plain_topology {c : Config} (h : readTopology c = .ok em) : em.Plain := by
  refine readTopology_induct (P := Plain) (Q := fun a n => a.Plain ∧ a.Known n.id n)
    ?_ ?_ ?_ ?_ ?_ ?_ h
  · exact ⟨by simp [empty], by simp [empty], by simp [AllKnown, empty]⟩
  · exact fun a id l h => ⟨h.ids, h.broadcast, h.known⟩
  · exact fun a n id l h => ⟨⟨h.1.ids, h.1.broadcast, h.1.known⟩, h.2⟩
  · exact fun a id limit h _ => ⟨h, fun g mac ref hg => by simp [Node.new] at hg⟩
  · exact fun a n dev mac link h hnone _ => plain_addBroadcastFace h.1 h.2 hnone
  · intro a n h
    refine ⟨fun id m hm => ?_, h.1.broadcast, known_setNode h.1.known h.2⟩
    rw [show (a.setNode n.id n).nodeTable.find id =
      if id = n.id then some n else a.nodeTable.find id from rfl] at hm
    split at hm
    · next hid =>
        obtain rfl := Option.some.inj hm
        exact hid.symm
    · exact h.1.ids _ _ hm

/-- The tables that `resolveNexthop` reads. -/
def SameDevices (a b : Emulator) : Prop :=
  b.deviceTable = a.deviceTable ∧ b.linkTable = a.linkTable

theorem SameDevices.resolveNexthop {a b : Emulator} (h : SameDevices a b) (id : String)
    (r : RouteConfig) : b.resolveNexthop id r = a.resolveNexthop id r := by
  unfold Emulator.resolveNexthop
  rw [h.1, h.2]

theorem sameDevices_readRoute {a b : Emulator} {id : String} {r : RouteConfig}
    (h : a.readRoute id r = .ok b) : SameDevices a b := by
  obtain ⟨_, _, _, _, _, _, rfl⟩ := readRoute_cases h
  exact ⟨rfl, rfl⟩

/-- The route of a plain network to the broadcast address makes no face. -/
theorem plain_readRoute {id : String} {r : RouteConfig} (h : em.Plain)
    (hhop : em.resolveNexthop id r = .ok broadcastMac) (hread : em.readRoute id r = .ok em') :
    em'.Plain := by
  obtain ⟨hop, n, n', hres, hn, hadd, rfl⟩ := readRoute_cases hread
  obtain rfl : hop = broadcastMac := Except.ok.inj (hres.symm.trans hhop)
  obtain ⟨d, hd, ⟨face, _, rfl⟩ | ⟨hnone, _⟩⟩ := addRoute_cases hadd
  · refine ⟨fun id' m hm => ?_, h.broadcast, 
      known_setNode h.known fun g mac ref hg => h.known _ _ hn g mac ref hg⟩
    rw [show (em.setNode id { n with fib := n.fib.addRoute r.pfx face }).nodeTable.find id' =
      if id' = id then some _ else em.nodeTable.find id' from rfl] at hm
    split at hm
    · next hid =>
        obtain rfl := Option.some.inj hm
        exact (h.ids _ _ hn).trans hid.symm
    · exact h.ids _ _ hm
  · have hsome := (h.broadcast _ _ hd broadcastMac).mpr rfl
    rw [hnone] at hsome
    cases hsome

/-- A link face that the device it belongs to does not know. -/
def Stray (em : Emulator) : Prop :=
  ∃ ref d n g mac, em.deviceTable.find ref = some d ∧ em.nodeTable.find ref.node = some n ∧
    n.faceTable.find g = some (.link mac ref) ∧ g < n.faceCounter ∧ d.faces.find mac = none

theorem Stray.not_oneFace (h : em.Stray) : ¬ em.OneFacePerNeighbor := by
  obtain ⟨ref, d, n, g, mac, hd, hn, hg, _, hnone⟩ := h
  intro hone
  have hf := (hone ref d n mac hd hn).2 g hg
  rw [hnone] at hf
  cases hf

/-- A route with a next hop of its own makes a stray face. -/
theorem stray_readRoute {id : String} {r : RouteConfig} (h : em.Plain)
    (hhop : em.resolveNexthop id r ≠ .ok broadcastMac) (hread : em.readRoute id r = .ok em') :
    em'.Stray := by
  obtain ⟨hop, n, n', hres, hn, hadd, rfl⟩ := readRoute_cases hread
  have hid := h.ids _ _ hn
  obtain ⟨d, hd, ⟨face, hf, _⟩ | ⟨hnone, rfl⟩⟩ := addRoute_cases hadd
  · have hhop' := (h.broadcast _ _ hd hop).mp (by rw [hf]; rfl)
    rw [hhop'] at hres
    exact absurd hres hhop
  · subst hid
    refine ⟨⟨n.id, r.interface⟩, d, _, n.faceCounter, hop, hd, FinMap.find_insert_self _ _ _,
      FinMap.find_insert_self _ _ _, ?_, hnone⟩
    show n.faceCounter < n.faceCounter + 1
    omega

theorem Stray.readRoute {id : String} {r : RouteConfig} (h : em.Stray)
    (hread : em.readRoute id r = .ok em') : em'.Stray := by
  obtain ⟨ref, d, m, g, mac, hd, hm, hg, hlt, hnone⟩ := h
  obtain ⟨hop, n, n', _, hn, hadd, rfl⟩ := readRoute_cases hread
  by_cases hid : ref.node = id
  · subst hid
    obtain rfl : m = n := Option.some.inj (hm.symm.trans hn)
    refine ⟨ref, d, n', g, mac, hd, FinMap.find_insert_self _ _ _, ?_, ?_, hnone⟩
    · obtain ⟨_, _, ⟨face, _, rfl⟩ | ⟨_, rfl⟩⟩ := addRoute_cases hadd
      · exact hg
      · exact (FinMap.find_insert_ne (by omega)).trans hg
    · obtain ⟨_, _, ⟨face, _, rfl⟩ | ⟨_, rfl⟩⟩ := addRoute_cases hadd
      · exact hlt
      · show g < m.faceCounter + 1
        omega
  · exact ⟨ref, d, m, g, mac, hd, (FinMap.find_insert_ne hid).trans hm, hg, hlt, hnone⟩

theorem Stray.start (h : em.Stray) : em.start.Stray := by
  obtain ⟨ref, d, m, g, mac, hd, hm, hg, hlt, hnone⟩ := h
  refine ⟨ref, d, m.start, g, mac, hd, ?_, hg, ?_, hnone⟩
  · rw [Emulator.start, FinMap.find_filterMap, hm]
    rfl
  · show g < m.faceCounter + 1
    omega

theorem allKnown_start (h : em.AllKnown) : em.start.AllKnown := by
  intro id n hn
  obtain ⟨m, hm, heq⟩ := FinMap.find_filterMap_eq_some.mp hn
  obtain rfl := Option.some.inj heq
  exact h id m hm

/-- Every route goes to the broadcast address, as the pass over the routes
resolves its next hop. -/
def BroadcastRoutes (c : Config) : Prop :=
  ∀ em₁, readTopology c = .ok em₁ →
    ∀ x ∈ routes c.nodes, em₁.resolveNexthop x.1 x.2 = .ok broadcastMac

/-- The first route that is not to the broadcast address makes a stray face,
and it stays. -/
theorem stray_of_unicast {em₁ em₂ : Emulator} {rs : List (String × RouteConfig)}
    (h₁ : em₁.Plain)
    (h : readAll (fun em x => em.readRoute x.1 x.2) em₁ rs = .ok em₂)
    (hne : ∃ x ∈ rs, em₁.resolveNexthop x.1 x.2 ≠ .ok broadcastMac) : em₂.Stray := by
  induction rs generalizing em₁ with
  | nil =>
      obtain ⟨x, hx, _⟩ := hne
      simp at hx
  | cons r rs ih =>
      rw [readAll] at h
      split at h
      · cases h
      · next b hb =>
          by_cases hhop : em₁.resolveNexthop r.1 r.2 = .ok broadcastMac
          · refine ih (plain_readRoute h₁ hhop hb) h ?_
            obtain ⟨x, hx, hne⟩ := hne
            rcases List.mem_cons.mp hx with rfl | hx
            · exact absurd hhop hne
            · refine ⟨x, hx, ?_⟩
              rwa [(sameDevices_readRoute hb).resolveNexthop]
          · exact readAll_preserves (fun a c b _ ha hread => ha.readRoute hread)
              (stray_readRoute h₁ hhop hb) h

/-- **One face per neighbour.** Node and device tables agree in every
reachable state of a network exactly when all its routes are broadcast routes. -/
theorem one_face_per_neighbor {c : Config} (hc : readNetworkConfig c = .ok em) :
    (∀ tr em', (system mode lib).Run em.start tr em' → em'.OneFacePerNeighbor) ↔
      BroadcastRoutes c := by
  obtain ⟨em₁, em₂, h₁, h₂, h₃⟩ := readNetworkConfig_cases hc
  have hplain := plain_topology h₁
  constructor
  · intro hall em₁' h₁' x hx
    obtain rfl : em₁' = em₁ := Except.ok.inj (h₁'.symm.trans h₁)
    by_contra hhop
    have hstray : em.Stray :=
      readAll_preserves (fun a m b _ ha hread => readMatrix_preserves (fun _ _ _ h => h) ha hread)
        (stray_of_unicast hplain h₂ ⟨x, hx, hhop⟩) h₃
    exact hstray.start.not_oneFace (hall [] em.start (.nil _))
  · intro hroutes tr em' hrun
    have hmid : em₂.Plain ∧ SameDevices em₁ em₂ := by
      refine readAll_preserves (P := fun a => a.Plain ∧ SameDevices em₁ a)
        (fun a x b hx ha hread => ?_) ⟨hplain, rfl, rfl⟩ h₂
      have hsame := sameDevices_readRoute hread
      refine ⟨plain_readRoute ha.1 ?_ hread, hsame.1.trans ha.2.1, hsame.2.trans ha.2.2⟩
      rw [ha.2.resolveNexthop]
      exact hroutes em₁ h₁ x hx
    have hend : em.AllKnown :=
      readAll_preserves (fun a m b _ ha hread => readMatrix_preserves (fun _ _ _ h => h) ha hread)
        hmid.1.known h₃
    have hrun' : em'.AllKnown :=
      hrun.invariant (fun _ _ _ _ ha he hs => step_preserves (fun _ _ => allKnown_move) ha he hs)
        (allKnown_start hend)
    exact hrun'.oneFace

theorem one_face_per_neighbor_pair : ∃ em, readNetworkConfig pairConfig = .ok em ∧
    ((∀ tr em', (system .late Node.noCommands).Run em.start tr em' →
      em'.OneFacePerNeighbor) ↔ BroadcastRoutes pairConfig) :=
  ⟨_, rfl, one_face_per_neighbor rfl⟩

/-- The pair, with a route of the first node that names the second. -/
def unicastConfig : Config where
  links := pairConfig.links
  nodes := [⟨"n0", none, [⟨"wn0", "l0"⟩], [⟨[], "wn0", some "n1"⟩]⟩,
    ⟨"n1", none, [⟨"wn1", "l0"⟩], [⟨[], "wn1", none⟩]⟩]
  matrices := pairConfig.matrices

def echoInterest : Interest := ⟨[[1]], 7, 4000, false, 40⟩

/-- A client of the second node asks for something, and the first node hears
it. -/
def echoRun : List (Event × Output) :=
  let wn0 : DeviceRef := ⟨"n0", "wn0"⟩
  let wn1 : DeviceRef := ⟨"n1", "wn1"⟩
  let pkt : Packet := ⟨0, .interest echoInterest⟩
  let run : Event := .run 0 (Clock.still 0) (fun _ => 0) (fun _ => false)
  [(.accept "n1", .quiet),
   (.appReceive "n1" 2 (Clock.still 0) (fun _ => 0) (.packet (.interest echoInterest)),
     .forward "n1" (.interest echoInterest [1])),
   (.timer wn1 .csmaExpire, .device wn1 .quiet),
   (.timer wn1 (.doCsma 0), .device wn1 (.transmit pkt)),
   (run, .quiet), (.tick 41, .quiet),
   (.timer wn0 .rxExpire, .device wn0 .quiet),
   (.timer wn0 .postRx, .device wn0 (.received pkt)),
   (run, .forward "n0" (.interest echoInterest [2]))]

/-- The first node has two faces to the second one's device: 2 from its route,
and 4 made on reception. It sends the Interest that came in on face 4 back out
of face 2. -/
theorem two_faces_per_neighbor : ∃ em em' n, readNetworkConfig unicastConfig = .ok em ∧
    (system .late Node.noCommands).Run em.start echoRun em' ∧
    em'.nodeTable.find "n0" = some n ∧
    n.faceTable.find 2 = some (.link 2 ⟨"n0", "wn0"⟩) ∧
    n.faceTable.find 4 = some (.link 2 ⟨"n0", "wn0"⟩) ∧ ¬ em'.OneFacePerNeighbor := by
  refine ⟨_, _, _, rfl, System.run_of_exec (show (system .late Node.noCommands).exec _
    (echoRun.map (·.1)) = some (echoRun, _) from rfl), rfl, rfl, rfl, fun h => ?_⟩
  have hsame := (h ⟨"n0", "wn0"⟩ _ _ 2 rfl rfl).1 2 4 rfl rfl
  cases hsame

end Emulator

end NdnEm
