import NdnEm.Core.Config

/-!
# What reading a configuration can do

The passes of `ReadNetworkConfig`, each with the one induction that a property
of its result needs. The node pass builds a node before it enters it into the
table, so its induction carries two predicates: one for the emulator between
nodes, one for the emulator together with the node under construction.
-/

namespace NdnEm

open Lib

namespace Emulator

variable {em em' : Emulator}

/-- What every element of a pass preserves, the pass preserves. -/
theorem readAll_preserves {α : Type} {read : Emulator → α → Except Fault Emulator}
    {P : Emulator → Prop} {cs : List α}
    (hread : ∀ a c b, c ∈ cs → P a → read a c = .ok b → P b) (hP : P em)
    (h : readAll read em cs = .ok em') : P em' := by
  induction cs generalizing em with
  | nil =>
      obtain rfl := Except.ok.inj h
      exact hP
  | cons c cs ih =>
      rw [readAll] at h
      split at h
      · cases h
      · next em₁ hc =>
          exact ih (fun a c b hmem => hread a c b (List.mem_cons_of_mem _ hmem))
            (hread _ _ _ List.mem_cons_self hP hc) h

/-- Enter a link in the table, new or changed. -/
def setLink (em : Emulator) (id : String) (l : Link) : Emulator :=
  { em with linkTable := em.linkTable.insert id l }

theorem readLink_cases {c : LinkConfig} (h : em.readLink c = .ok em') :
    ∃ mtu, em' = em.setLink c.id (Link.new c.id c.txDelay mtu) := by
  unfold readLink at h
  split at h
  · cases h
  · exact ⟨_, (Except.ok.inj h).symm⟩

theorem readMatrix_preserves {P : Emulator → Prop} {c : MatrixConfig}
    (hlink : ∀ a id l, P a → P (a.setLink id l)) (hP : P em) (h : em.readMatrix c = .ok em') :
    P em' := by
  have hcons : ∀ {cs : List ConnectionConfig} {a : Emulator}, P a →
      readConnections c.linkId a cs = .ok em' → P em' := by
    intro cs
    induction cs with
    | nil =>
        intro a hP h
        obtain rfl := Except.ok.inj h
        exact hP
    | cons con cs ih =>
        intro a hP h
        rw [readConnections] at h
        split at h
        · cases h
        · split at h
          · cases h
          · exact ih (hlink _ _ _ hP) h
  unfold readMatrix at h
  split at h
  · cases h
  · exact hcons hP h

theorem readRoute_cases {id : String} {r : RouteConfig} (h : em.readRoute id r = .ok em') :
    ∃ hop n n', em.resolveNexthop id r = .ok hop ∧ em.nodeTable.find id = some n ∧
      em.addRoute n r.pfx r.interface hop = .ok n' ∧ em' = em.setNode id n' := by
  unfold readRoute at h
  split at h
  · cases h
  · next hop hhop =>
      split at h
      · cases h
      · next n hn =>
          split at h
          · cases h
          · next n' hn' => exact ⟨hop, n, n', hhop, hn, hn', (Except.ok.inj h).symm⟩

theorem addRoute_cases {n n' : Node} {pfx : Name} {dev : String} {hop : MacAddr}
    (h : em.addRoute n pfx dev hop = .ok n') :
    ∃ d, em.deviceTable.find ⟨n.id, dev⟩ = some d ∧
      ((∃ face, d.faces.find hop = some face ∧
          n' = { n with fib := n.fib.addRoute pfx face }) ∨
       (d.faces.find hop = none ∧
          n' = { (n.addLinkFace hop ⟨n.id, dev⟩).1 with
            fib := n.fib.addRoute pfx n.faceCounter })) := by
  unfold addRoute at h
  split at h
  · cases h
  · next d hd =>
      refine ⟨d, hd, ?_⟩
      simp only [] at h
      split at h
      · next hf => exact .inl ⟨_, hf, (Except.ok.inj h).symm⟩
      · next hf => exact .inr ⟨hf, (Except.ok.inj h).symm⟩

theorem readNetworkConfig_cases {c : Config} (h : readNetworkConfig c = .ok em) :
    ∃ em₁ em₂, readTopology c = .ok em₁ ∧
      readAll (fun em x => em.readRoute x.1 x.2) em₁ (routes c.nodes) = .ok em₂ ∧
      readAll readMatrix em₂ c.matrices = .ok em := by
  unfold readNetworkConfig at h
  split at h
  · cases h
  · next em₁ h₁ =>
      split at h
      · cases h
      · next em₂ h₂ => exact ⟨em₁, em₂, h₁, h₂, h⟩

section Topology

variable {P : Emulator → Prop} {Q : Emulator → Node → Prop}

theorem readDevices_preserves
    (hlink : ∀ a n id l, Q a n → Q (a.setLink id l) n)
    (hdev : ∀ a n dev mac link, Q a n → a.deviceTable.find ⟨n.id, dev⟩ = none →
      (a.linkTable.find link).isSome →
      Q (a.addBroadcastFace n ⟨n.id, dev⟩ (LinkDevice.new mac link 5)).1
        (a.addBroadcastFace n ⟨n.id, dev⟩ (LinkDevice.new mac link 5)).2)
    {n n' : Node} {mac mac' : MacAddr} {cs : List DeviceConfig} (hQ : Q em n)
    (h : readDevices n mac em cs = .ok (em', n', mac')) : Q em' n' ∧ n'.id = n.id := by
  induction cs generalizing em n mac with
  | nil =>
      obtain ⟨rfl, hrest⟩ := Prod.mk.inj (Except.ok.inj h)
      obtain ⟨rfl, _⟩ := Prod.mk.inj hrest
      exact ⟨hQ, rfl⟩
  | cons c cs ih =>
      rw [readDevices] at h
      split at h
      · cases h
      · next l hl =>
        split at h
        · cases h
        · next em₁ n₁ hadd =>
            unfold addDevice at hadd
            split at hadd
            · cases hadd
            · next hnone =>
                have hboth := Except.ok.inj hadd
                have hQ₁ := hdev em n c.deviceId mac c.linkId hQ hnone (by rw [hl]; rfl)
                rw [hboth] at hQ₁
                have hid : n₁.id = n.id := by
                  rw [show n₁ = (em.addBroadcastFace n ⟨n.id, c.deviceId⟩
                    (LinkDevice.new mac c.linkId 5)).2 from (congrArg Prod.snd hboth).symm]
                  rfl
                obtain ⟨hQ', hid'⟩ := ih (hlink _ _ _ _ hQ₁) h
                exact ⟨hQ', hid'.trans hid⟩

theorem readNode_preserves
    (hlink : ∀ a n id l, Q a n → Q (a.setLink id l) n)
    (hnew : ∀ a id limit, P a → a.nodeTable.find id = none → Q a (Node.new id limit))
    (hdev : ∀ a n dev mac link, Q a n → a.deviceTable.find ⟨n.id, dev⟩ = none →
      (a.linkTable.find link).isSome →
      Q (a.addBroadcastFace n ⟨n.id, dev⟩ (LinkDevice.new mac link 5)).1
        (a.addBroadcastFace n ⟨n.id, dev⟩ (LinkDevice.new mac link 5)).2)
    (hnode : ∀ a n, Q a n → P (a.setNode n.id n))
    {mac mac' : MacAddr} {c : NodeConfig} (hP : P em)
    (h : em.readNode mac c = .ok (em', mac')) : P em' := by
  unfold readNode at h
  split at h
  · cases h
  · next hnone =>
      simp only [] at h
      split at h
      · cases h
      · next em₁ n mac₁ hdevs =>
          obtain ⟨rfl, _⟩ := Prod.mk.inj (Except.ok.inj h)
          obtain ⟨hQ, hid⟩ := readDevices_preserves hlink hdev (hnew _ _ _ hP hnone) hdevs
          have hid' : n.id = c.id := hid
          exact hid' ▸ hnode _ _ hQ

/-- What the links, the nodes and the devices preserve holds of the topology. -/
theorem readTopology_induct (hempty : P empty)
    (hlinks : ∀ a id l, P a → P (a.setLink id l))
    (hlink : ∀ a n id l, Q a n → Q (a.setLink id l) n)
    (hnew : ∀ a id limit, P a → a.nodeTable.find id = none → Q a (Node.new id limit))
    (hdev : ∀ a n dev mac link, Q a n → a.deviceTable.find ⟨n.id, dev⟩ = none →
      (a.linkTable.find link).isSome →
      Q (a.addBroadcastFace n ⟨n.id, dev⟩ (LinkDevice.new mac link 5)).1
        (a.addBroadcastFace n ⟨n.id, dev⟩ (LinkDevice.new mac link 5)).2)
    (hnode : ∀ a n, Q a n → P (a.setNode n.id n))
    {c : Config} (h : readTopology c = .ok em) : P em := by
  have hnodes : ∀ {cs : List NodeConfig} {a : Emulator} {mac : MacAddr}, P a →
      a.readNodes mac cs = .ok em → P em := by
    intro cs
    induction cs with
    | nil =>
        intro a mac hP h
        obtain rfl := Except.ok.inj h
        exact hP
    | cons c cs ih =>
        intro a mac hP h
        rw [readNodes] at h
        split at h
        · cases h
        · next b mac₁ hread =>
            exact ih (readNode_preserves hlink hnew hdev hnode hP hread) h
  unfold readTopology at h
  split at h
  · cases h
  · next em₀ h₀ =>
      refine hnodes (readAll_preserves (fun a c b _ hP hread => ?_) hempty h₀) h
      obtain ⟨mtu, rfl⟩ := readLink_cases hread
      exact hlinks _ _ _ hP

end Topology

/-- Two nodes that hear each other, each with a default route. -/
def pairConfig : Config where
  links := [⟨"l0", fun len => len + 1, none⟩]
  nodes := [⟨"n0", none, [⟨"wn0", "l0"⟩], [⟨[], "wn0", none⟩]⟩,
    ⟨"n1", none, [⟨"wn1", "l0"⟩], [⟨[], "wn1", none⟩]⟩]
  matrices := [⟨"l0", [⟨"n0", "n1"⟩, ⟨"n1", "n0"⟩]⟩]

end Emulator

end NdnEm
