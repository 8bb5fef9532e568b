import NdnEm.Proofs.LinkFaces

/-!
# Where the devices are

Nodes and devices are read in the order of the configuration, and each device
is given the next MAC address. So the devices of an accepted configuration are
numbered, and the number decides the address. On its link a device is entered
under the name of its node: of several devices of one node the link knows the
last.
-/

namespace NdnEm

open Lib

/-- A device in a configuration, and the link it is attached to. -/
structure Placement where
  ref : DeviceRef
  link : String
deriving DecidableEq, Repr

/-- All devices, in the order they are read. -/
def placements (nodes : List NodeConfig) : List Placement :=
  nodes.flatMap fun c => c.devices.map fun d => ⟨⟨c.id, d.deviceId⟩, d.linkId⟩

namespace Emulator

variable {em em' : Emulator} {ps : List Placement} {mac mac' : MacAddr}

/-- The devices made so far are these, and the next one gets that address. -/
structure Placed (em : Emulator) (ps : List Placement) (mac : MacAddr) : Prop where
  next : mac = UInt64.ofNat (ps.length + 1)
  made : ∀ (k : Nat) (p : Placement), ps[k]? = some p →
    ∃ d, em.deviceTable.find p.ref = some d ∧ d.macAddr = UInt64.ofNat (k + 1)
  numbered : ∀ ref d, em.deviceTable.find ref = some d →
    ∃ k p, ps[k]? = some p ∧ p.ref = ref ∧ d.macAddr = UInt64.ofNat (k + 1)
  /-- The device that a link knows for a node is one of its devices there. -/
  entered : ∀ id l b ref, em.linkTable.find id = some l → l.nodeTable.find b = some ref →
    ref.node = b ∧ ⟨ref, id⟩ ∈ ps
  known : ∀ p ∈ ps, ∃ l, em.linkTable.find p.link = some l ∧
    (l.nodeTable.find p.ref.node).isSome
  quiet : ∀ id l a, em.linkTable.find id = some l → l.neighbors a = ∅

theorem Placed.readLink {c : LinkConfig} (h : em.Placed [] mac) (hread : em.readLink c = .ok em') :
    em'.Placed [] mac := by
  obtain ⟨mtu, rfl⟩ := readLink_cases hread
  refine ⟨h.next, by simp, h.numbered, ?_, by simp, ?_⟩
  · intro id l b ref hl hb
    rcases FinMap.find_insert_cases hl with ⟨_, rfl⟩ | ⟨_, hl⟩
    · cases hb
    · exact h.entered id l b ref hl hb
  · intro id l a hl
    rcases FinMap.find_insert_cases hl with ⟨_, rfl⟩ | ⟨_, hl⟩
    · rfl
    · exact h.quiet id l a hl

/-- The network with one more device, entered on its link. -/
def place (em : Emulator) (n : Node) (l : Link) (dev : String) (link : String) (mac : MacAddr) :
    Emulator :=
  (em.addBroadcastFace n ⟨n.id, dev⟩ (LinkDevice.new mac link 5)).1.setLink link
    (l.addNodeDevice n.id ⟨n.id, dev⟩)

section Place

variable {n : Node} {l : Link} {dev link : String}

theorem Placed.made_place (h : em.Placed ps mac) (hnone : em.deviceTable.find ⟨n.id, dev⟩ = none)
    {k : Nat} {p : Placement} (hp : (ps ++ [⟨⟨n.id, dev⟩, link⟩])[k]? = some p) :
    ∃ d, (em.place n l dev link mac).deviceTable.find p.ref = some d ∧
      d.macAddr = UInt64.ofNat (k + 1) := by
  rcases Nat.lt_or_ge k ps.length with hk | hk
  · rw [List.getElem?_append_left hk] at hp
    obtain ⟨d, hd, hmac⟩ := h.made k p hp
    have hne : p.ref ≠ ⟨n.id, dev⟩ := by
      intro href
      rw [href, hnone] at hd
      cases hd
    exact ⟨d, (FinMap.find_insert_ne hne).trans hd, hmac⟩
  · rw [List.getElem?_append_right hk, List.getElem?_singleton] at hp
    split_ifs at hp with hlast
    obtain rfl := Option.some.inj hp
    refine ⟨_, FinMap.find_insert_self _ _ _, ?_⟩
    rw [show k = ps.length by omega]
    exact h.next

theorem Placed.numbered_place (h : em.Placed ps mac) {ref : DeviceRef} {d : LinkDevice}
    (hd : (em.place n l dev link mac).deviceTable.find ref = some d) :
    ∃ k p, (ps ++ [⟨⟨n.id, dev⟩, link⟩])[k]? = some p ∧ p.ref = ref ∧
      d.macAddr = UInt64.ofNat (k + 1) := by
  rcases FinMap.find_insert_cases hd with ⟨rfl, rfl⟩ | ⟨_, hd⟩
  · refine ⟨ps.length, ⟨⟨n.id, dev⟩, link⟩, ?_, rfl, h.next⟩
    rw [List.getElem?_append_right (Nat.le_refl _), Nat.sub_self]
    rfl
  · obtain ⟨k, p, hk, hp, hmac⟩ := h.numbered ref d hd
    refine ⟨k, p, ?_, hp, hmac⟩
    rw [List.getElem?_append_left (List.getElem?_eq_some_iff.mp hk).1]
    exact hk

/-- The new device takes the entry of its node, and the others stay. -/
theorem Placed.entered_place (h : em.Placed ps mac) (hl : em.linkTable.find link = some l)
    {id b : String} {l' : Link} {ref : DeviceRef}
    (hl' : (em.place n l dev link mac).linkTable.find id = some l')
    (hb : l'.nodeTable.find b = some ref) :
    ref.node = b ∧ ⟨ref, id⟩ ∈ ps ++ [⟨⟨n.id, dev⟩, link⟩] := by
  rcases FinMap.find_insert_cases hl' with ⟨rfl, rfl⟩ | ⟨_, hl'⟩
  · rcases FinMap.find_insert_cases hb with ⟨rfl, rfl⟩ | ⟨_, hb⟩
    · exact ⟨rfl, List.mem_append_right ps (List.mem_singleton_self _)⟩
    · obtain ⟨hnode, hmem⟩ := h.entered id l b ref hl hb
      exact ⟨hnode, List.mem_append_left _ hmem⟩
  · obtain ⟨hnode, hmem⟩ := h.entered id l' b ref hl' hb
    exact ⟨hnode, List.mem_append_left _ hmem⟩

theorem Placed.known_place (h : em.Placed ps mac) (hl : em.linkTable.find link = some l)
    {p : Placement} (hp : p ∈ ps ++ [⟨⟨n.id, dev⟩, link⟩]) :
    ∃ l', (em.place n l dev link mac).linkTable.find p.link = some l' ∧
      (l'.nodeTable.find p.ref.node).isSome := by
  rcases List.mem_append.mp hp with hp | hp
  · obtain ⟨m, hm, hsome⟩ := h.known p hp
    by_cases hlink : p.link = link
    · obtain rfl : l = m := Option.some.inj (hl.symm.trans (hlink ▸ hm))
      refine ⟨l.addNodeDevice n.id ⟨n.id, dev⟩, ?_, ?_⟩
      · rw [hlink]
        exact FinMap.find_insert_self _ _ _
      · rw [Link.addNodeDevice, FinMap.find_insert]
        split_ifs
        · rfl
        · exact hsome
    · exact ⟨m, (FinMap.find_insert_ne hlink).trans hm, hsome⟩
  · obtain rfl := List.mem_singleton.mp hp
    refine ⟨l.addNodeDevice n.id ⟨n.id, dev⟩, FinMap.find_insert_self _ _ _, ?_⟩
    rw [Link.addNodeDevice, FinMap.find_insert_self]
    rfl

theorem Placed.place (h : em.Placed ps mac) (hl : em.linkTable.find link = some l)
    (hnone : em.deviceTable.find ⟨n.id, dev⟩ = none) :
    (em.place n l dev link mac).Placed (ps ++ [⟨⟨n.id, dev⟩, link⟩]) (mac + 1) where
  next := by
    rw [h.next, List.length_append, List.length_singleton]
    exact (UInt64.ofNat_add _ _).symm
  made _ _ hp := h.made_place hnone hp
  numbered _ _ hd := h.numbered_place hd
  entered _ _ _ _ hl' hb := h.entered_place hl hl' hb
  known _ hp := h.known_place hl hp
  quiet id l' a hl' := by
    rcases FinMap.find_insert_cases hl' with ⟨rfl, rfl⟩ | ⟨_, hl'⟩
    · exact h.quiet id l a hl
    · exact h.quiet id l' a hl'

end Place

theorem Placed.readDevices {n n' : Node} {cs : List DeviceConfig} (h : em.Placed ps mac)
    (hread : Emulator.readDevices n mac em cs = .ok (em', n', mac')) :
    em'.Placed (ps ++ cs.map fun c => ⟨⟨n.id, c.deviceId⟩, c.linkId⟩) mac' := by
  induction cs generalizing em n mac ps with
  | nil =>
      obtain ⟨rfl, hrest⟩ := Prod.mk.inj (Except.ok.inj hread)
      obtain ⟨_, rfl⟩ := Prod.mk.inj hrest
      rw [List.map_nil, List.append_nil]
      exact h
  | cons c cs ih =>
      rw [Emulator.readDevices] at hread
      split at hread
      · cases hread
      · next l hl =>
          split at hread
          · cases hread
          · next em₁ n₁ hadd =>
              unfold addDevice at hadd
              split at hadd
              · cases hadd
              · next hnone =>
                  obtain ⟨rfl, rfl⟩ := Prod.mk.inj (Except.ok.inj hadd)
                  have hrest := ih (h.place hl hnone) hread
                  rw [List.append_assoc] at hrest
                  exact hrest

theorem Placed.readNode {c : NodeConfig} (h : em.Placed ps mac)
    (hread : em.readNode mac c = .ok (em', mac')) :
    em'.Placed (ps ++ c.devices.map fun d => ⟨⟨c.id, d.deviceId⟩, d.linkId⟩) mac' := by
  unfold Emulator.readNode at hread
  split at hread
  · cases hread
  · simp only [] at hread
    split at hread
    · cases hread
    · next em₁ n mac₁ hdevs =>
        obtain ⟨rfl, rfl⟩ := Prod.mk.inj (Except.ok.inj hread)
        have hall := h.readDevices hdevs
        exact ⟨hall.next, hall.made, hall.numbered, hall.entered, hall.known, hall.quiet⟩

theorem Placed.readNodes {cs : List NodeConfig} (h : em.Placed ps mac)
    (hread : em.readNodes mac cs = .ok em') : ∃ mac', em'.Placed (ps ++ placements cs) mac' := by
  induction cs generalizing em mac ps with
  | nil =>
      obtain rfl := Except.ok.inj hread
      rw [placements, List.flatMap_nil, List.append_nil]
      exact ⟨mac, h⟩
  | cons c cs ih =>
      rw [Emulator.readNodes] at hread
      split at hread
      · cases hread
      · next em₁ mac₁ hnode =>
          obtain ⟨mac', hrest⟩ := ih (h.readNode hnode) hread
          rw [List.append_assoc] at hrest
          exact ⟨mac', hrest⟩

theorem placed_topology {c : Config} (h : readTopology c = .ok em) :
    ∃ mac, em.Placed (placements c.nodes) mac := by
  unfold readTopology at h
  split at h
  · cases h
  · next em₀ h₀ =>
      have hempty : empty.Placed [] 1 :=
        ⟨rfl, by simp, by simp [empty], by simp [empty], by simp, by simp [empty]⟩
      have hlinks : em₀.Placed [] 1 :=
        readAll_preserves (P := fun a => a.Placed [] 1)
          (fun a l b _ ha hread => Placed.readLink ha hread) hempty h₀
      exact hlinks.readNodes h

end Emulator

end NdnEm
