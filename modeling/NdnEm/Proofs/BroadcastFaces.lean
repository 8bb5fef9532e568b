import NdnEm.Proofs.FaceTables
import NdnEm.Proofs.Placement

/-!
# Broadcast faces never receive

The rule that an Interest is not sent back to the face it came in on is safe
because nothing comes in on a broadcast face: the face of a received packet is
that of its source address, and devices put their own address there. Addresses
are handed out by a plain counter from 1 on, and the broadcast address is
`0xffff`, so what has to be known is that the counter does not get that far.
-/

namespace NdnEm

open Lib

namespace Emulator

variable {mode : Rearm} {lib : NdnCxx} {em em' : Emulator} {k : Nat}

/-- No device has the broadcast address, and nothing that waits to be
dispatched is on a face to it. -/
structure BroadcastSilent (em : Emulator) : Prop where
  macs : ∀ ref d, em.deviceTable.find ref = some d → d.macAddr ≠ broadcastMac
  silent : ∀ id g w n mac ref, .dispatch id g w ∈ em.posted → em.nodeTable.find id = some n →
    n.faceTable.find g = some (.link mac ref) → mac ≠ broadcastMac

/-- What keeps the broadcast faces silent: the broadcast address is no packet's
source, wherever the packet is. -/
structure Unicast (em : Emulator) : Prop where
  macs : ∀ ref d, em.deviceTable.find ref = some d → d.macAddr ≠ broadcastMac
  sources : ∀ i, (em.address i).src ≠ broadcastMac
  posted : ∀ id g w, .dispatch id g w ∈ em.posted →
    ∃ mac ref, em.LinkFaceAt id g mac ref ∧ mac ≠ broadcastMac

theorem Unicast.silent (h : em.Unicast) : em.BroadcastSilent := by
  refine ⟨h.macs, ?_⟩
  intro id g w n mac ref hmem hn hg
  obtain ⟨mac', ref', ⟨n', hn', hg'⟩, hne⟩ := h.posted id g w hmem
  obtain rfl : n = n' := Option.some.inj (hn.symm.trans hn')
  obtain ⟨rfl, _⟩ := Face.link.inj (Option.some.inj (hg.symm.trans hg'))
  exact hne

/-! ## Runs -/

theorem macs_move (h : ∀ ref d, em.deviceTable.find ref = some d → d.macAddr ≠ broadcastMac)
    (hm : Move mode lib k em em') :
    ∀ ref d, em'.deviceTable.find ref = some d → d.macAddr ≠ broadcastMac := by
  intro ref d' hd'
  obtain ⟨d, hd, hmac, _⟩ := device_move hm hd'
  rw [hmac]
  exact h ref d hd

theorem sources_setAddress {i : Nat} {a : Address}
    (h : ∀ i, (em.address i).src ≠ broadcastMac) (ha : a.src ≠ broadcastMac) :
    ∀ j, ((em.setAddress i a).address j).src ≠ broadcastMac := by
  intro j
  show (Function.update em.address i a j).src ≠ broadcastMac
  by_cases hj : j = i
  · rw [hj, Function.update_self]
    exact ha
  · rw [Function.update_of_ne hj]
    exact h j

/-- A packet object is new, and its source zero, or gets the address of a
device. -/
theorem sources_move (h : em.Unicast) (hm : Move mode lib k em em') :
    ∀ i, (em'.address i).src ≠ broadcastMac := by
  cases hm with
  | object w _ =>
      have hzero : (⟨0, 0⟩ : Address).src ≠ broadcastMac := by decide
      exact sources_setAddress h.sources hzero
  | address a _ hsrc =>
      refine sources_setAddress h.sources ?_
      rcases hsrc with heq | ⟨ref, d, hd, heq⟩
      · rw [heq]
        exact h.sources _
      · rw [heq]
        exact h.macs ref d hd
  | node hn hs _ _ => exact h.sources
  | startTx hd hs => exact h.sources
  | startRx hd hs => exact h.sources
  | fire hd hs => exact h.sources
  | face hd hn _ _ => exact h.sources
  | dispatch w hd hf _ => exact h.sources
  | transmit link nodeId pkt => exact h.sources
  | unpost j => exact h.sources
  | tick n => exact h.sources

theorem unicast_move (hground : em.Grounded) (h : em.Unicast) (hm : Move mode lib k em em') :
    em'.Unicast := by
  refine ⟨macs_move h.macs hm, sources_move h hm, ?_⟩
  intro id g w hmem
  rcases posted_move hm hmem with hold | ⟨ref, d, i, hd, hf, rfl⟩
  · obtain ⟨mac, ref, hat, hne⟩ := h.posted id g w hold
    exact ⟨mac, ref, linkFaceAt_move hground hm hat, hne⟩
  · -- the face is the one to the source of a packet
    exact ⟨_, ref, linkFaceAt_move hground hm (hground.devices ref d _ g hd hf), h.sources i⟩

/-! ## The addresses -/

/-- The counter reaches the broadcast address with the device that is made
after 65534 others. -/
theorem Placed.macs {ps : List Placement} {mac : MacAddr} (h : em.Placed ps mac)
    (hlt : ps.length < 65535) :
    ∀ ref d, em.deviceTable.find ref = some d → d.macAddr ≠ broadcastMac := by
  intro ref d hd heq
  obtain ⟨j, p, hj, _, hmac⟩ := h.numbered ref d hd
  have hjlt := (List.getElem?_eq_some_iff.mp hj).1
  have hnat : (UInt64.ofNat (j + 1)).toNat = broadcastMac.toNat := by rw [← hmac, heq]
  rw [UInt64.toNat_ofNat_of_lt' (by rw [UInt64.size]; omega)] at hnat
  have hbroadcast : broadcastMac.toNat = 65535 := rfl
  omega

theorem Placed.broadcast_device {ps : List Placement} {mac : MacAddr} (h : em.Placed ps mac)
    (hge : 65535 ≤ ps.length) :
    ∃ ref d, em.deviceTable.find ref = some d ∧ d.macAddr = broadcastMac := by
  obtain ⟨d, hd, hmac⟩ := h.made 65534 ps[65534] (List.getElem?_eq_getElem (by omega))
  exact ⟨_, d, hd, hmac⟩

/-- Only the devices of the topology are there when the network starts, and
nothing was sent yet. -/
structure Untouched (em₁ em : Emulator) : Prop where
  devices : em.deviceTable = em₁.deviceTable
  address : em.address = fun _ => ⟨0, 0⟩
  posted : em.posted = []

theorem untouched_config {c : Config} (h : readNetworkConfig c = .ok em) :
    ∃ em₁, readTopology c = .ok em₁ ∧ Untouched em₁ em := by
  obtain ⟨em₁, em₂, h₁, h₂, h₃⟩ := readNetworkConfig_cases h
  have hquiet : em₁.address = (fun _ => ⟨0, 0⟩) ∧ em₁.posted = [] :=
    readTopology_induct (P := fun a => a.address = (fun _ => ⟨0, 0⟩) ∧ a.posted = [])
      (Q := fun a _ => a.address = (fun _ => ⟨0, 0⟩) ∧ a.posted = [])
      ⟨rfl, rfl⟩ (fun _ _ _ h => h) (fun _ _ _ _ h => h) (fun _ _ _ h _ => h)
      (fun _ _ _ _ _ h _ _ => h) (fun _ _ h => h) h₁
  have hroutes : Untouched em₁ em₂ := by
    refine readAll_preserves (P := Untouched em₁) ?_ ⟨rfl, hquiet.1, hquiet.2⟩ h₂
    intro a x b _ ha hread
    obtain ⟨_, _, _, _, _, _, rfl⟩ := readRoute_cases hread
    exact ⟨ha.devices, ha.address, ha.posted⟩
  refine ⟨em₁, h₁, readAll_preserves (P := Untouched em₁) ?_ hroutes h₃⟩
  exact fun a m b _ ha hread => readMatrix_preserves
    (fun _ _ _ h => ⟨h.devices, h.address, h.posted⟩) ha hread

/-- **Broadcast faces never receive** in a network of fewer than 65535 devices,
and only there: the next one has the broadcast address. -/
theorem broadcast_silent {c : Config} (hc : readNetworkConfig c = .ok em) :
    (∀ tr em', (system mode lib).Run em.start tr em' → em'.BroadcastSilent) ↔
      (placements c.nodes).length < 65535 := by
  obtain ⟨em₁, h₁, hunt⟩ := untouched_config hc
  obtain ⟨mac, hplaced⟩ := placed_topology h₁
  have hdevices : em.start.deviceTable = em₁.deviceTable := hunt.devices
  constructor
  · intro hall
    by_contra hlt
    obtain ⟨ref, d, hd, hmac⟩ := hplaced.broadcast_device (Nat.le_of_not_lt hlt)
    exact (hall [] em.start (.nil _)).macs ref d (hdevices ▸ hd) hmac
  · intro hlt tr em' hrun
    have hstart : em.start.Unicast := by
      refine ⟨?_, ?_, ?_⟩
      · rw [hdevices]
        exact hplaced.macs hlt
      · intro i
        rw [show em.start.address = em.address from rfl, hunt.address]
        exact (by decide : (0 : MacAddr) ≠ broadcastMac)
      · intro id g w hmem
        rw [show em.start.posted = em.posted from rfl, hunt.posted] at hmem
        cases hmem
    have hend := hrun.invariant (I := fun a => a.Grounded ∧ a.Unicast) ?_
      ⟨grounded_start (grounded_config hc), hstart⟩
    · exact hend.2.silent
    · intro a e b o ha he hs
      exact step_preserves (P := fun a => a.Grounded ∧ a.Unicast)
        (fun _ _ hP hm => ⟨grounded_move hP.1 hm, unicast_move hP.1 hP.2 hm⟩) ha he hs

theorem broadcast_silent_pair : ∃ em, readNetworkConfig pairConfig = .ok em ∧
    ((∀ tr em', (system .late Node.noCommands).Run em.start tr em' → em'.BroadcastSilent) ↔
      (placements pairConfig.nodes).length < 65535) ∧
    (placements pairConfig.nodes).length = 2 :=
  ⟨_, rfl, broadcast_silent rfl, rfl⟩

/-! ## A network that is large enough -/

/-- Devices with new ids, on links that are there, are all made. -/
theorem readDevices_ok {n : Node} {mac : MacAddr} {cs : List DeviceConfig}
    (hlinks : ∀ c ∈ cs, (em.linkTable.find c.linkId).isSome)
    (hids : (cs.map (·.deviceId)).Nodup)
    (hnew : ∀ c ∈ cs, em.deviceTable.find ⟨n.id, c.deviceId⟩ = none) :
    ∃ em' n' mac', readDevices n mac em cs = .ok (em', n', mac') := by
  induction cs generalizing em n mac with
  | nil => exact ⟨em, n, mac, rfl⟩
  | cons c cs ih =>
      obtain ⟨l, hl⟩ := Option.isSome_iff_exists.mp (hlinks c List.mem_cons_self)
      rw [List.map_cons, List.nodup_cons] at hids
      have hadd : em.addDevice n c.deviceId mac c.linkId =
          .ok (em.addBroadcastFace n ⟨n.id, c.deviceId⟩ (LinkDevice.new mac c.linkId 5)) := by
        rw [addDevice, hnew c List.mem_cons_self]
      rw [readDevices, hl]
      simp only [hadd]
      refine ih ?_ hids.2 ?_
      · intro c' hc'
        have hsome := hlinks c' (List.mem_cons_of_mem _ hc')
        rw [FinMap.find_insert]
        split_ifs
        · rfl
        · exact hsome
      · intro c' hc'
        have hne : (⟨n.id, c'.deviceId⟩ : DeviceRef) ≠ ⟨n.id, c.deviceId⟩ := by
          intro heq
          refine hids.1 ?_
          rw [← (DeviceRef.mk.inj heq).2]
          exact List.mem_map_of_mem hc'
        exact (FinMap.find_insert_ne hne).trans (hnew c' (List.mem_cons_of_mem _ hc'))

theorem repr_injective {a b : Nat} (h : a.repr = b.repr) : a = b := by
  have hdigits := congrArg (fun s => Nat.ofDigitChars 10 s.toList 0) h
  simpa using hdigits

def crowdDevices (n : Nat) : List DeviceConfig := (List.range n).map fun k => ⟨k.repr, "l0"⟩

/-- One node with that many devices on one link, with numbers for ids. -/
def crowd (n : Nat) : Config where
  links := [⟨"l0", fun len => len + 1, none⟩]
  nodes := [⟨"n0", none, crowdDevices n, []⟩]
  matrices := []

theorem crowd_accepted (n : Nat) : ∃ em, readNetworkConfig (crowd n) = .ok em := by
  obtain ⟨em₀, hlinks, hlink, hnode, hdevice⟩ : ∃ em₀,
      readAll readLink empty (crowd n).links = .ok em₀ ∧ (em₀.linkTable.find "l0").isSome ∧
      em₀.nodeTable.find "n0" = none ∧ ∀ ref, em₀.deviceTable.find ref = none :=
    ⟨_, rfl, rfl, rfl, fun _ => rfl⟩
  obtain ⟨em, n', mac, hread⟩ : ∃ em n' mac,
      readDevices (Node.new "n0" (toInt (100 * 2 ^ 10))) 1 em₀ (crowdDevices n) =
        .ok (em, n', mac) := by
    refine readDevices_ok ?_ ?_ (fun _ _ => hdevice _)
    · intro c hc
      obtain ⟨k, _, rfl⟩ := List.mem_map.mp hc
      exact hlink
    · rw [crowdDevices, List.map_map]
      exact List.nodup_range.map fun _ _ h => repr_injective h
  have hone : em₀.readNode 1 ⟨"n0", none, crowdDevices n, []⟩ = .ok (em.setNode "n0" n', mac) := by
    unfold readNode
    simp only [hnode, Option.getD_none, hread]
  have htop : readTopology (crowd n) = .ok (em.setNode "n0" n') := by
    rw [readTopology, hlinks]
    show readNodes em₀ 1 [⟨"n0", none, crowdDevices n, []⟩] = _
    rw [readNodes, hone]
    rfl
  refine ⟨em.setNode "n0" n', ?_⟩
  rw [readNetworkConfig, htop]
  rfl

theorem placements_crowd (n : Nat) : (placements (crowd n).nodes).length = n := by
  simp [placements, crowd, crowdDevices]

/-- The last of 65535 devices has the broadcast address. -/
theorem crowd_not_silent : ∃ em ref d, readNetworkConfig (crowd 65535) = .ok em ∧
    em.start.deviceTable.find ref = some d ∧ d.macAddr = broadcastMac ∧
    ¬ em.start.BroadcastSilent := by
  obtain ⟨em, hc⟩ := crowd_accepted 65535
  obtain ⟨em₁, h₁, hunt⟩ := untouched_config hc
  obtain ⟨mac, hplaced⟩ := placed_topology h₁
  obtain ⟨ref, d, hd, hmac⟩ := hplaced.broadcast_device (Nat.le_of_eq (placements_crowd _).symm)
  have hstart : em.start.deviceTable.find ref = some d := by
    rw [show em.start.deviceTable = em₁.deviceTable from hunt.devices]
    exact hd
  exact ⟨em, ref, d, hc, hstart, hmac, fun h => h.macs ref d hstart hmac⟩

end Emulator

end NdnEm
