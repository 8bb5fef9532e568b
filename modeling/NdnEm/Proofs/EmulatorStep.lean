import Mathlib.Logic.Relation
import NdnEm.Core.Config
import NdnEm.Proofs.DeviceStep
import NdnEm.Proofs.NodeStep

/-!
# What a step of the network is made of

A handler of the emulator touches nodes, devices, packet objects and the event
queue, in loops. `Move` lists the elementary changes; a step is a sequence of
them, so an invariant of the network needs one case for each kind of change
and never looks into a handler. What a step was seen to do is inverted apart
from that, in `step_forward`.
-/

namespace NdnEm

open Lib Relation

namespace Emulator

variable {mode : Rearm} {lib : NdnCxx} {em em' : Emulator} {k : Nat}

/-- The on-demand face to a sender that a device has no face for. -/
def addFace (em : Emulator) (ref : DeviceRef) (d : LinkDevice) (n : Node) (src : MacAddr) :
    Emulator :=
  (em.setNode ref.node (n.addLinkFace src ref).1).setDevice ref
    { d with faces := d.faces.insert src (n.addLinkFace src ref).2 }

/-- The elementary changes. Packet objects before number `k` are not written. -/
inductive Move (mode : Rearm) (lib : NdnCxx) (k : Nat) : Emulator → Emulator → Prop
  | node {em : Emulator} {id : String} {n n' : Node} {e : NodeEvent} {o : Option Forward}
      (hn : em.nodeTable.find id = some n) (hs : n.step lib e = .ok (n', o))
      (hadd : ∀ mac dev, e ≠ .addLinkFace mac dev)
      (hclose : ∀ f, e = .removeFace f → n.faceTable.find f = some .app) :
      Move mode lib k em (em.setNode id n')
  | object {em : Emulator} (w : Wire) (h : k ≤ em.packets) : Move mode lib k em (em.newPacket w).1
  | address {em : Emulator} {id : Nat} (a : Address) (h : k ≤ id)
      (hsrc : a.src = (em.address id).src ∨
        ∃ ref d, em.deviceTable.find ref = some d ∧ a.src = d.macAddr) :
      Move mode lib k em (em.setAddress id a)
  | startTx {em : Emulator} {ref : DeviceRef} {d d' : LinkDevice} {l : Link} {raw : Nat}
      {pkt : Packet} (hd : em.deviceTable.find ref = some d)
      (hs : d.startTx mode l em.now raw pkt = some d') : Move mode lib k em (em.setDevice ref d')
  | startRx {em : Emulator} {ref : DeviceRef} {d d' : LinkDevice} {l : Link} {pkt : Packet}
      (hd : em.deviceTable.find ref = some d)
      (hs : d.startRx mode l em.now pkt = .ok d') : Move mode lib k em (em.setDevice ref d')
  | fire {em : Emulator} {ref : DeviceRef} {d d' : LinkDevice} {l : Link}
      {e : LinkDevice.TimerEvent} {o : DeviceOut} (hd : em.deviceTable.find ref = some d)
      (hs : d.fire mode l em.now e = .ok (d', o)) : Move mode lib k em (em.setDevice ref d')
  | face {em : Emulator} {ref : DeviceRef} {d : LinkDevice} {n : Node} {src : MacAddr}
      (hd : em.deviceTable.find ref = some d) (hn : em.nodeTable.find ref.node = some n)
      (hnone : d.faces.find src = none) (hsrc : ∃ i, src = (em.address i).src) :
      Move mode lib k em (em.addFace ref d n src)
  | dispatch {em : Emulator} {ref : DeviceRef} {d : LinkDevice} {src : MacAddr} {face : Int}
      (w : Wire) (hd : em.deviceTable.find ref = some d) (hf : d.faces.find src = some face)
      (hsrc : ∃ i, src = (em.address i).src) :
      Move mode lib k em (em.post (.dispatch ref.node face w))
  | transmit {em : Emulator} (link nodeId : String) (pkt : Packet) :
      Move mode lib k em (em.post (.transmit link nodeId pkt))
  | unpost {em : Emulator} (j : Nat) :
      Move mode lib k em { em with posted := em.posted.eraseIdx j }
  | tick {em : Emulator} (n : Nat) : Move mode lib k em { em with now := em.now + n }

theorem attached_cases {ref : DeviceRef} {d : LinkDevice} {l : Link}
    (h : em.attached ref = .ok (d, l)) :
    em.deviceTable.find ref = some d ∧ em.linkTable.find d.link = some l := by
  unfold attached at h
  split at h
  · cases h
  · next hd =>
      split at h
      · cases h
      · next hl =>
          obtain ⟨rfl, rfl⟩ := Prod.mk.inj (Except.ok.inj h)
          exact ⟨hd, hl⟩

theorem startTx_cases {ref : DeviceRef} {raw : Nat} {pkt : Packet}
    (h : em.startTx mode ref raw pkt = .ok em') :
    em' = em ∨ ∃ d l d', em.deviceTable.find ref = some d ∧
      em.linkTable.find d.link = some l ∧ d.startTx mode l em.now raw pkt = some d' ∧
      em' = (em.setSrc pkt d.macAddr).setDevice ref d' := by
  unfold startTx at h
  split at h
  · cases h
  · next d l hat =>
      obtain ⟨hd, hl⟩ := attached_cases hat
      split at h
      · exact .inl (Except.ok.inj h).symm
      · next d' hs => exact .inr ⟨d, l, d', hd, hl, hs, (Except.ok.inj h).symm⟩

theorem send_moves {face : Face} {raw : Nat} {pkt : Packet} (hk : k ≤ pkt.id)
    (h : em.send mode raw pkt face = .ok em') : ReflTransGen (Move mode lib k) em em' := by
  cases face with
  | app =>
      obtain rfl := Except.ok.inj h
      exact .refl
  | link mac ref =>
      have hdst : Move mode lib k em (em.setDst pkt mac) := .address _ hk (.inl rfl)
      rcases startTx_cases h with rfl | ⟨d, l, d', hd, _, hs, rfl⟩
      · exact .single hdst
      · exact .tail (.tail (.single hdst) (.address _ hk (.inr ⟨ref, d, hd, rfl⟩)))
          (.startTx hd hs)

theorem sendTo_moves {faceTable : FinMap Int Face} {raw : Int → Nat} {pkt : Packet}
    {faces : List Int} (hk : k ≤ pkt.id) (h : sendTo mode faceTable raw pkt em faces = .ok em') :
    ReflTransGen (Move mode lib k) em em' := by
  induction faces generalizing em with
  | nil =>
      obtain rfl := Except.ok.inj h
      exact .refl
  | cons g gs ih =>
      rw [sendTo] at h
      split at h
      · exact ih h
      · split at h
        · cases h
        · next em₁ hs => exact (send_moves hk hs).trans (ih h)

theorem forward_moves {faceTable : FinMap Int Face} {raw : Int → Nat} {w : Wire}
    {faces : List Int} (hk : k ≤ em.packets)
    (h : em.forward mode faceTable raw w faces = .ok em') :
    ReflTransGen (Move mode lib k) em em' := by
  have hpkt : k ≤ (em.newPacket w).2.id := hk
  exact .head (.object w hk) (sendTo_moves hpkt h)

theorem onNode_cases {id : String} {raw : Int → Nat} {e : NodeEvent} {out : Output}
    (h : em.onNode mode lib id raw e = .ok (em', out)) :
    ∃ n n' o, em.nodeTable.find id = some n ∧ n.step lib e = .ok (n', o) ∧
      ((o = none ∧ em' = em.setNode id n' ∧ out = .quiet) ∨
        ∃ fw, o = some fw ∧ out = .forward id fw ∧
          (em.setNode id n').forward mode n'.faceTable raw fw.wire fw.faces = .ok em') := by
  unfold onNode at h
  split at h
  · cases h
  · next n hn =>
      split at h
      · cases h
      · next n' hs =>
          obtain ⟨rfl, rfl⟩ := Prod.mk.inj (Except.ok.inj h)
          exact ⟨n, n', none, hn, hs, .inl ⟨rfl, rfl, rfl⟩⟩
      · next n' fw hs =>
          split at h
          · cases h
          · next em₁ hf =>
              obtain ⟨rfl, rfl⟩ := Prod.mk.inj (Except.ok.inj h)
              exact ⟨n, n', some fw, hn, hs, .inr ⟨fw, rfl, rfl, hf⟩⟩

theorem onNode_moves {id : String} {raw : Int → Nat} {e : NodeEvent} {out : Output}
    (hk : k ≤ em.packets) (hadd : ∀ mac dev, e ≠ .addLinkFace mac dev)
    (hclose : ∀ f, e = .removeFace f → em.Connected id f)
    (h : em.onNode mode lib id raw e = .ok (em', out)) :
    ReflTransGen (Move mode lib k) em em' := by
  obtain ⟨n, n', o, hn, hs, hrest⟩ := onNode_cases h
  have hmove : Move mode lib k em (em.setNode id n') := by
    refine .node hn hs hadd fun f hf => ?_
    obtain ⟨m, hm, happ⟩ := hclose f hf
    obtain rfl : n = m := Option.some.inj (hn.symm.trans hm)
    exact happ
  rcases hrest with ⟨_, rfl, _⟩ | ⟨fw, _, _, hf⟩
  · exact .single hmove
  · have hk' : k ≤ (em.setNode id n').packets := hk
    exact .head hmove (forward_moves hk' hf)

/-- The node event of a packet that is dispatched. -/
def arrival (clk : Clock) (face : Int) : Wire → NodeEvent
  | .interest i => .interest clk face i
  | .data d => .data clk face d

theorem dispatch_cases {id : String} {face : Int} {clk : Clock} {raw : Int → Nat} {blk : Block}
    {out : Output} (h : em.dispatch mode lib id face clk raw blk = .ok (em', out)) :
    ∃ w, blk = .packet w ∧ em.onNode mode lib id raw (arrival clk face w) = .ok (em', out) := by
  cases blk with
  | packet w =>
      cases w with
      | interest i => exact ⟨_, rfl, h⟩
      | data d => exact ⟨_, rfl, h⟩
  | malformed => cases h
  | unknown => cases h

theorem dispatch_moves {id : String} {face : Int} {clk : Clock} {raw : Int → Nat} {blk : Block}
    {out : Output} (hk : k ≤ em.packets)
    (h : em.dispatch mode lib id face clk raw blk = .ok (em', out)) :
    ReflTransGen (Move mode lib k) em em' := by
  obtain ⟨w, _, h⟩ := dispatch_cases h
  refine onNode_moves hk ?_ ?_ h
  · intro mac dev
    cases w <;> simp [arrival]
  · intro f hf
    cases w <;> simp [arrival] at hf

theorem transmit_moves {link : Link} {drop : String → Bool} {pkt : Packet}
    {nodes : List String} (h : transmit mode link drop pkt em nodes = .ok em') :
    ReflTransGen (Move mode lib k) em em' := by
  induction nodes generalizing em with
  | nil =>
      obtain rfl := Except.ok.inj h
      exact .refl
  | cons id rest ih =>
      rw [transmit] at h
      split at h
      · exact ih h
      · split at h
        · cases h
        · split at h
          · cases h
          · next d l hat =>
              split at h
              · cases h
              · next d' hrx => exact .head (.startRx (attached_cases hat).1 hrx) (ih h)

/-- Sending and transmitting write devices and addresses, and nothing else. -/
structure OnlyDevices (em em' : Emulator) : Prop where
  nodes : em'.nodeTable = em.nodeTable
  links : em'.linkTable = em.linkTable
  packets : em'.packets = em.packets
  posted : em'.posted = em.posted

theorem OnlyDevices.trans {em₁ : Emulator} (h : em.OnlyDevices em₁) (h' : em₁.OnlyDevices em') :
    em.OnlyDevices em' :=
  ⟨h'.nodes.trans h.nodes, h'.links.trans h.links, h'.packets.trans h.packets,
    h'.posted.trans h.posted⟩

theorem sendTo_onlyDevices {faceTable : FinMap Int Face} {raw : Int → Nat} {pkt : Packet}
    {faces : List Int} (h : sendTo mode faceTable raw pkt em faces = .ok em') :
    em.OnlyDevices em' := by
  induction faces generalizing em with
  | nil =>
      obtain rfl := Except.ok.inj h
      exact ⟨rfl, rfl, rfl, rfl⟩
  | cons g gs ih =>
      rw [sendTo] at h
      split at h
      · exact ih h
      · next face _ =>
          split at h
          · cases h
          · next em₁ hs =>
              refine OnlyDevices.trans ?_ (ih h)
              cases face with
              | app =>
                  obtain rfl := Except.ok.inj hs
                  exact ⟨rfl, rfl, rfl, rfl⟩
              | link mac ref =>
                  obtain rfl | ⟨d, l, d', _, _, _, rfl⟩ := startTx_cases hs <;>
                    exact ⟨rfl, rfl, rfl, rfl⟩

theorem transmit_onlyDevices {link : Link} {drop : String → Bool} {pkt : Packet}
    {nodes : List String} (h : transmit mode link drop pkt em nodes = .ok em') :
    em.OnlyDevices em' := by
  induction nodes generalizing em with
  | nil =>
      obtain rfl := Except.ok.inj h
      exact ⟨rfl, rfl, rfl, rfl⟩
  | cons id rest ih =>
      rw [transmit] at h
      split at h
      · exact ih h
      · split at h
        · cases h
        · next ref _ =>
            split at h
            · cases h
            · split at h
              · cases h
              · next d' _ =>
                  have hdev : em.OnlyDevices (em.setDevice ref d') := ⟨rfl, rfl, rfl, rfl⟩
                  exact hdev.trans (ih h)

theorem receive_cases {ref : DeviceRef} {pkt : Packet} (h : em.receive ref pkt = .ok em') :
    ∃ d n, em.deviceTable.find ref = some d ∧ em.nodeTable.find ref.node = some n ∧
      ((((em.address pkt.id).dst ≠ d.macAddr ∧ (em.address pkt.id).dst ≠ broadcastMac) ∧
          em' = em) ∨
       (∃ face, d.faces.find (em.address pkt.id).src = some face ∧
          em' = em.post (.dispatch ref.node face pkt.wire)) ∨
       (d.faces.find (em.address pkt.id).src = none ∧
          em' = (em.addFace ref d n (em.address pkt.id).src).post
            (.dispatch ref.node (n.addLinkFace (em.address pkt.id).src ref).2 pkt.wire))) := by
  unfold receive at h
  split at h
  · next d n hd hn =>
      refine ⟨d, n, hd, hn, ?_⟩
      simp only [] at h
      split at h
      · split at h
        · next face hf => exact .inr (.inl ⟨face, hf, (Except.ok.inj h).symm⟩)
        · next hf => exact .inr (.inr ⟨hf, (Except.ok.inj h).symm⟩)
      · next hnot =>
          exact .inl ⟨⟨fun hdst => hnot (.inl hdst), fun hdst => hnot (.inr hdst)⟩,
            (Except.ok.inj h).symm⟩
  · cases h

theorem receive_moves {ref : DeviceRef} {pkt : Packet} (h : em.receive ref pkt = .ok em') :
    ReflTransGen (Move mode lib k) em em' := by
  obtain ⟨d, n, hd, hn, ⟨_, rfl⟩ | ⟨face, hf, rfl⟩ | ⟨hf, rfl⟩⟩ := receive_cases h
  · exact .refl
  · exact .single (.dispatch _ hd hf ⟨pkt.id, rfl⟩)
  · have hface : (d.faces.insert (em.address pkt.id).src
        (n.addLinkFace (em.address pkt.id).src ref).2).find (em.address pkt.id).src =
        some (n.addLinkFace (em.address pkt.id).src ref).2 := FinMap.find_insert_self _ _ _
    exact .tail (.single (.face hd hn hf ⟨pkt.id, rfl⟩))
      (.dispatch _ (FinMap.find_insert_self _ _ _) hface ⟨pkt.id, rfl⟩)

/-- What a timer of a device does to the network. -/
theorem fire_cases {ref : DeviceRef} {e : LinkDevice.TimerEvent} {out : Output}
    (h : em.fire mode ref e = .ok (em', out)) :
    ∃ d l d' o, em.deviceTable.find ref = some d ∧ em.linkTable.find d.link = some l ∧
      d.fire mode l em.now e = .ok (d', o) ∧ out = .device ref o ∧
      ((∃ pkt, o = .received pkt ∧ (em.setDevice ref d').receive ref pkt = .ok em') ∨
       (∃ pkt, o = .transmit pkt ∧
          em' = (em.setDevice ref d').post (.transmit d.link ref.node pkt)) ∨
       ((∀ pkt, o ≠ .received pkt ∧ o ≠ .transmit pkt) ∧ em' = em.setDevice ref d')) := by
  unfold fire at h
  split at h
  · cases h
  · next d l hat =>
      obtain ⟨hd, hl⟩ := attached_cases hat
      split at h
      · cases h
      · next d' o hs =>
          refine ⟨d, l, d', o, hd, hl, hs, ?_⟩
          simp only [] at h
          split at h
          · next pkt =>
              obtain ⟨em₁, hr, heq⟩ := ok_of_map h
              obtain ⟨rfl, rfl⟩ := Prod.mk.inj heq
              exact ⟨rfl, .inl ⟨pkt, rfl, hr⟩⟩
          · next pkt =>
              obtain ⟨rfl, rfl⟩ := Prod.mk.inj (Except.ok.inj h)
              exact ⟨rfl, .inr (.inl ⟨pkt, rfl, rfl⟩)⟩
          all_goals
            obtain ⟨rfl, rfl⟩ := Prod.mk.inj (Except.ok.inj h)
            exact ⟨rfl, .inr (.inr ⟨by simp, rfl⟩)⟩

theorem fire_moves {ref : DeviceRef} {e : LinkDevice.TimerEvent} {out : Output}
    (h : em.fire mode ref e = .ok (em', out)) : ReflTransGen (Move mode lib k) em em' := by
  obtain ⟨d, l, d', o, hd, _, hs, _, hrest⟩ := fire_cases h
  have hfire : Move mode lib k em (em.setDevice ref d') := .fire hd hs
  rcases hrest with ⟨pkt, _, hr⟩ | ⟨pkt, _, rfl⟩ | ⟨_, rfl⟩
  · exact .head hfire (receive_moves hr)
  · exact .tail (.single hfire) (.transmit _ _ _)
  · exact .single hfire

/-- What the handler that was posted at place `j` does. -/
theorem run_cases {j : Nat} {clk : Clock} {raw : Int → Nat} {drop : String → Bool} {out : Output}
    (h : em.step mode lib (.run j clk raw drop) = .ok (em', out)) :
    ∃ p, em.posted[j]? = some p ∧
      ((∃ link nodeId pkt l, p = .transmit link nodeId pkt ∧ em.linkTable.find link = some l ∧
          transmit mode l drop pkt { em with posted := em.posted.eraseIdx j }
            (ascending (l.neighbors nodeId)) = .ok em' ∧ out = .quiet) ∨
       (∃ node face w, p = .dispatch node face w ∧
          ({ em with posted := em.posted.eraseIdx j } : Emulator).onNode mode lib node raw
            (arrival clk face w) = .ok (em', out))) := by
  simp only [step] at h
  split at h
  · cases h
  · next p hp =>
      refine ⟨p, hp, ?_⟩
      cases p with
      | transmit link nodeId pkt =>
          simp only [runPosted] at h
          split at h
          · cases h
          · next l hl =>
              obtain ⟨em₁, ht, heq⟩ := ok_of_map h
              obtain ⟨rfl, rfl⟩ := Prod.mk.inj heq
              exact .inl ⟨link, nodeId, pkt, l, rfl, hl, ht, rfl⟩
      | dispatch node face wire =>
          obtain ⟨w, hw, h⟩ := dispatch_cases h
          obtain rfl := Block.packet.inj hw
          exact .inr ⟨node, face, wire, rfl, h⟩

/-- A step is a sequence of moves that leave the older packet objects alone. -/
theorem step_moves {e : Event} {out : Output} (he : em.Enabled e)
    (h : em.step mode lib e = .ok (em', out)) :
    ReflTransGen (Move mode lib em.packets) em em' := by
  cases e with
  | appReceive node face clk raw blk => exact dispatch_moves (Nat.le_refl _) h
  | appClose node face =>
      refine onNode_moves (Nat.le_refl _) (by simp) (fun f hf => ?_) h
      obtain rfl := NodeEvent.removeFace.inj hf
      exact he
  | accept node => exact onNode_moves (Nat.le_refl _) (by simp) (by simp) h
  | cleanUp node now =>
      have hclean : em.onNode mode lib node (fun _ => 0) (.cleanUp now) = .ok (em', out) := h
      exact onNode_moves (Nat.le_refl _) (by simp) (by simp) hclean
  | run j clk raw drop =>
      refine .head (.unpost j) ?_
      obtain ⟨p, _, ⟨_, _, _, _, _, _, ht, _⟩ | ⟨node, face, w, _, h⟩⟩ := run_cases h
      · exact transmit_moves ht
      · have hk : em.packets ≤ { em with posted := em.posted.eraseIdx j }.packets :=
          Nat.le_refl _
        exact onNode_moves hk (by cases w <;> simp [arrival]) (by cases w <;> simp [arrival]) h
  | timer dev t => exact fire_moves h
  | tick n =>
      obtain ⟨rfl, _⟩ := Prod.mk.inj (Except.ok.inj h)
      exact .single (.tick n)

/-- What every move preserves, a step preserves. -/
theorem step_preserves {P : Emulator → Prop} {e : Event} {out : Output}
    (hmove : ∀ a b, P a → Move mode lib em.packets a b → P b) (hP : P em) (he : em.Enabled e)
    (h : em.step mode lib e = .ok (em', out)) : P em' := by
  have hmoves := step_moves he h
  clear h
  induction hmoves with
  | refl => exact hP
  | tail _ hm ih => exact hmove _ _ ih hm

/-! ## What a move does to nodes, devices and faces -/

/-- A node does something, and the other nodes are what they were. -/
theorem nodes_move (hm : Move mode lib k em em') :
    em'.nodeTable = em.nodeTable ∨
    ∃ id n n' e o, em.nodeTable.find id = some n ∧ n.step lib e = .ok (n', o) ∧
      (∀ f, e = .removeFace f → n.faceTable.find f = some .app) ∧
      em'.nodeTable = em.nodeTable.insert id n' := by
  cases hm with
  | node hn hs _ hclose => exact .inr ⟨_, _, _, _, _, hn, hs, hclose, rfl⟩
  | @face ref d n src hd hn _ _ =>
      exact .inr ⟨_, _, _, .addLinkFace src ref, _, hn, rfl, by simp, rfl⟩
  | object w _ => exact .inl rfl
  | address a _ _ => exact .inl rfl
  | startTx hd hs => exact .inl rfl
  | startRx hd hs => exact .inl rfl
  | fire hd hs => exact .inl rfl
  | dispatch w hd hf _ => exact .inl rfl
  | transmit link nodeId pkt => exact .inl rfl
  | unpost j => exact .inl rfl
  | tick n => exact .inl rfl

/-- What holds of every node, and is kept by what a node does, is kept by a
move. -/
theorem forall_nodes_move {I : Node → Prop} (h : ∀ id n, em.nodeTable.find id = some n → I n)
    (hnode : ∀ id n n' e o, em.nodeTable.find id = some n → n.step lib e = .ok (n', o) →
      (∀ f, e = .removeFace f → n.faceTable.find f = some .app) → I n')
    (hm : Move mode lib k em em') : ∀ id n, em'.nodeTable.find id = some n → I n := by
  rcases nodes_move hm with hsame | ⟨id, n, n', e, o, hn, hs, hclose, hnew⟩
  · rw [hsame]
    exact h
  · rw [hnew]
    exact FinMap.forall_insert h (hnode id n n' e o hn hs hclose)

theorem device_move {ref : DeviceRef} {d' : LinkDevice} (hm : Move mode lib k em em')
    (hd' : em'.deviceTable.find ref = some d') :
    ∃ d, em.deviceTable.find ref = some d ∧ d'.macAddr = d.macAddr ∧
      (d'.faces = d.faces ∨ ∃ n src, em.nodeTable.find ref.node = some n ∧
        em' = em.addFace ref d n src ∧ d'.faces = d.faces.insert src n.faceCounter) := by
  have hfixed : ∀ {ref₀ : DeviceRef} {d₀ d₁ : LinkDevice}, em.deviceTable.find ref₀ = some d₀ →
      d₀.Fixed d₁ → (em.setDevice ref₀ d₁).deviceTable.find ref = some d' →
      ∃ d, em.deviceTable.find ref = some d ∧ d'.macAddr = d.macAddr ∧ d'.faces = d.faces := by
    intro ref₀ d₀ d₁ hd₀ hfix hd'
    rcases FinMap.find_insert_cases hd' with ⟨rfl, rfl⟩ | ⟨_, hold⟩
    · exact ⟨d₀, hd₀, hfix.1, hfix.2.2⟩
    · exact ⟨d', hold, rfl, rfl⟩
  cases hm with
  | startTx hd hs =>
      obtain ⟨d, hd, hmac, hf⟩ := hfixed hd (LinkDevice.startTx_fixed hs) hd'
      exact ⟨d, hd, hmac, .inl hf⟩
  | startRx hd hs =>
      obtain ⟨d, hd, hmac, hf⟩ := hfixed hd (LinkDevice.startRx_fixed hs) hd'
      exact ⟨d, hd, hmac, .inl hf⟩
  | fire hd hs =>
      obtain ⟨d, hd, hmac, hf⟩ := hfixed hd (LinkDevice.fire_fixed hs) hd'
      exact ⟨d, hd, hmac, .inl hf⟩
  | @face ref₀ d n src hd hn _ _ =>
      rcases FinMap.find_insert_cases hd' with ⟨rfl, rfl⟩ | ⟨_, hold⟩
      · exact ⟨d, hd, rfl, .inr ⟨n, src, hn, rfl, rfl⟩⟩
      · exact ⟨d', hold, rfl, .inl rfl⟩
  | node hn hs _ _ => exact ⟨d', hd', rfl, .inl rfl⟩
  | object w _ => exact ⟨d', hd', rfl, .inl rfl⟩
  | address a _ _ => exact ⟨d', hd', rfl, .inl rfl⟩
  | dispatch w hd hf _ => exact ⟨d', hd', rfl, .inl rfl⟩
  | transmit link nodeId pkt => exact ⟨d', hd', rfl, .inl rfl⟩
  | unpost j => exact ⟨d', hd', rfl, .inl rfl⟩
  | tick n => exact ⟨d', hd', rfl, .inl rfl⟩

/-- A device has the faces it had, and one more if it was made now. -/
theorem faces_move {ref : DeviceRef} {d' : LinkDevice} {mac : MacAddr} {g : Int}
    (hm : Move mode lib k em em') (hd' : em'.deviceTable.find ref = some d')
    (hf' : d'.faces.find mac = some g) :
    (∃ d, em.deviceTable.find ref = some d ∧ d.faces.find mac = some g) ∨
    ∃ d n, em.nodeTable.find ref.node = some n ∧ em' = em.addFace ref d n mac ∧
      g = n.faceCounter := by
  obtain ⟨d, hd, _, hsame | ⟨n, src, hn, hface, hnew⟩⟩ := device_move hm hd'
  · exact .inl ⟨d, hd, hsame ▸ hf'⟩
  · rw [hnew] at hf'
    rcases FinMap.find_insert_cases hf' with ⟨rfl, hg⟩ | ⟨_, hold⟩
    · exact .inr ⟨d, n, hn, hface, hg⟩
    · exact .inl ⟨d, hd, hold⟩

/-- What is posted to be dispatched is on the face that a device has to the
source of some packet. -/
theorem posted_move {id : String} {g : Int} {w : Wire} (hm : Move mode lib k em em')
    (hmem : .dispatch id g w ∈ em'.posted) :
    .dispatch id g w ∈ em.posted ∨
    ∃ ref d i, em.deviceTable.find ref = some d ∧ d.faces.find (em.address i).src = some g ∧
      id = ref.node := by
  cases hm with
  | @dispatch ref d src face w' hd hf hsrc =>
      rcases List.mem_append.mp hmem with hold | hnew
      · exact .inl hold
      · obtain ⟨rfl, rfl, _⟩ := Posted.dispatch.inj (List.mem_singleton.mp hnew)
        obtain ⟨i, rfl⟩ := hsrc
        exact .inr ⟨ref, d, i, hd, hf, rfl⟩
  | transmit link nodeId pkt =>
      rcases List.mem_append.mp hmem with hold | hnew
      · exact .inl hold
      · cases List.mem_singleton.mp hnew
  | unpost j => exact .inl (List.mem_of_mem_eraseIdx hmem)
  | node hn hs _ _ => exact .inl hmem
  | object w' _ => exact .inl hmem
  | address a _ _ => exact .inl hmem
  | startTx hd hs => exact .inl hmem
  | startRx hd hs => exact .inl hmem
  | fire hd hs => exact .inl hmem
  | face hd hn _ _ => exact .inl hmem
  | tick n => exact .inl hmem

/-! ## What a step does to nodes -/

/-- What an event has a node do. -/
def nodeEvent (em : Emulator) : Event → Option (String × NodeEvent)
  | .appReceive id face clk _ (.packet w) => some (id, arrival clk face w)
  | .appReceive _ _ _ _ .malformed | .appReceive _ _ _ _ .unknown => none
  | .appClose id face => some (id, .removeFace face)
  | .accept id => some (id, .accept)
  | .cleanUp id now => some (id, .cleanUp now)
  | .run j clk _ _ =>
      match em.posted[j]? with
      | some (.dispatch id face w) => some (id, arrival clk face w)
      | some (.transmit _ _ _) | none => none
  | .timer .. | .tick _ => none

/-- Nodes are left alone, or given a link face. -/
def NodesGrow (em em' : Emulator) : Prop :=
  ∀ id, em'.nodeTable.find id = em.nodeTable.find id ∨
    ∃ n src ref, em.nodeTable.find id = some n ∧
      em'.nodeTable.find id = some (n.addLinkFace src ref).1

/-- Either a node has done something, and no other has, or each is what it was
but for a link face it may have been given. -/
theorem step_nodes {e : Event} {out : Output} (h : em.step mode lib e = .ok (em', out)) :
    (∃ id ne n n' o, em.nodeEvent e = some (id, ne) ∧ em.nodeTable.find id = some n ∧
      n.step lib ne = .ok (n', o) ∧ em'.nodeTable = em.nodeTable.insert id n' ∧
      out = o.elim .quiet (.forward id)) ∨
    ((∀ id fw, out ≠ .forward id fw) ∧ em.NodesGrow em') := by
  have hnode : ∀ (em₀ : Emulator) {id : String} {raw : Int → Nat} {ne : NodeEvent},
      em₀.nodeTable = em.nodeTable → em.nodeEvent e = some (id, ne) →
      em₀.onNode mode lib id raw ne = .ok (em', out) →
      ∃ id ne n n' o, em.nodeEvent e = some (id, ne) ∧ em.nodeTable.find id = some n ∧
        n.step lib ne = .ok (n', o) ∧ em'.nodeTable = em.nodeTable.insert id n' ∧
        out = o.elim .quiet (.forward id) := by
    intro em₀ id raw ne hsame hev h
    obtain ⟨n, n', o, hn, hs, ⟨rfl, rfl, rfl⟩ | ⟨fw, rfl, rfl, hf⟩⟩ := onNode_cases h
    · refine ⟨id, ne, n, n', none, hev, hsame ▸ hn, hs, ?_, rfl⟩
      rw [← hsame]
      rfl
    · refine ⟨id, ne, n, n', some fw, hev, hsame ▸ hn, hs, ?_, rfl⟩
      rw [(sendTo_onlyDevices hf).nodes, ← hsame]
      rfl
  cases e with
  | appReceive id face clk raw blk =>
      obtain ⟨w, hw, hact⟩ := dispatch_cases h
      subst hw
      exact .inl (hnode em rfl rfl hact)
  | appClose id face => exact .inl (hnode em rfl rfl h)
  | accept id => exact .inl (hnode em rfl rfl h)
  | cleanUp id now =>
      have hclean : em.onNode mode lib id (fun _ => 0) (.cleanUp now) = .ok (em', out) := h
      exact .inl (hnode em rfl rfl hclean)
  | run j clk raw drop =>
      obtain ⟨p, hp, ⟨link, nodeId, pkt, l, rfl, _, ht, rfl⟩ | ⟨id, face, w, rfl, h⟩⟩ :=
        run_cases h
      · refine .inr ⟨by simp, fun id => .inl ?_⟩
        rw [(transmit_onlyDevices ht).nodes]
      · refine .inl (hnode { em with posted := em.posted.eraseIdx j } rfl ?_ h)
        simp [nodeEvent, hp]
  | timer ref t =>
      obtain ⟨d, l, d', o, hd, _, hs, rfl, hrest⟩ := fire_cases h
      refine .inr ⟨by simp, fun id => ?_⟩
      obtain ⟨pkt, _, hr⟩ | ⟨_, _, rfl⟩ | ⟨_, rfl⟩ := hrest
      · obtain ⟨_, n, _, hn, ⟨_, rfl⟩ | ⟨_, _, rfl⟩ | ⟨_, rfl⟩⟩ := receive_cases hr
        · exact .inl rfl
        · exact .inl rfl
        · -- a face to the sender is made, and nothing else changes
          by_cases hid : id = ref.node
          · subst hid
            exact .inr ⟨n, _, ref, hn, FinMap.find_insert_self _ _ _⟩
          · exact .inl (FinMap.find_insert_ne hid)
      · exact .inl rfl
      · exact .inl rfl
  | tick n =>
      obtain ⟨rfl, rfl⟩ := Prod.mk.inj (Except.ok.inj h)
      exact .inr ⟨by simp, fun _ => .inl rfl⟩

/-- What holds of every node is kept by a step, if it is kept by what the event
has a node do, and by a new link face. -/
theorem forall_nodes_step {I : Node → Prop} {e : Event} {out : Output}
    (h : ∀ id n, em.nodeTable.find id = some n → I n)
    (hnode : ∀ id ne n n' o, em.nodeEvent e = some (id, ne) → em.nodeTable.find id = some n →
      n.step lib ne = .ok (n', o) → I n')
    (hface : ∀ id n src ref, em.nodeTable.find id = some n → I (n.addLinkFace src ref).1)
    (hs : em.step mode lib e = .ok (em', out)) :
    ∀ id n, em'.nodeTable.find id = some n → I n := by
  rcases step_nodes hs with ⟨id, ne, n, n', o, hev, hn, hstep, htab, _⟩ | ⟨_, hgrow⟩
  · rw [htab]
    exact FinMap.forall_insert h (hnode id ne n n' o hev hn hstep)
  · intro id m hm
    rcases hgrow id with hsame | ⟨n, src, ref, hn, hn'⟩
    · exact h id m (hsame ▸ hm)
    · rw [← Option.some.inj (hn'.symm.trans hm)]
      exact hface id n src ref hn

/-- Where a packet that a node handles came from: a client, or a dispatch that
some device posted. -/
def Arrives (em : Emulator) (id : String) (face : Int) : Prop :=
  em.Connected id face ∨ ∃ w, .dispatch id face w ∈ em.posted

/-- A node forwards only what it handles. -/
theorem step_forward {e : Event} {id : String} {fw : Forward} (he : em.Enabled e)
    (h : em.step mode lib e = .ok (em', .forward id fw)) :
    ∃ n n' clk f w, em.nodeTable.find id = some n ∧ em.Arrives id f ∧
      n.step lib (arrival clk f w) = .ok (n', some fw) := by
  have hnode : ∀ {em₀ : Emulator} {id₀ : String} {raw : Int → Nat} {ne : NodeEvent},
      em₀.onNode mode lib id₀ raw ne = .ok (em', .forward id fw) →
      id₀ = id ∧ ∃ n n', em₀.nodeTable.find id = some n ∧ n.step lib ne = .ok (n', some fw) := by
    intro em₀ id₀ raw ne h
    obtain ⟨n, n', o, hn, hs, ⟨_, _, ho⟩ | ⟨fw', rfl, ho, _⟩⟩ := onNode_cases h
    · cases ho
    · obtain ⟨rfl, rfl⟩ := Output.forward.inj ho
      exact ⟨rfl, n, n', hn, hs⟩
  cases e with
  | appReceive node face clk raw blk =>
      obtain ⟨w, _, h⟩ := dispatch_cases h
      obtain ⟨rfl, n, n', hn, hs⟩ := hnode h
      exact ⟨n, n', clk, face, w, hn, .inl he, hs⟩
  | appClose node face =>
      obtain ⟨_, n, n', _, hs⟩ := hnode h
      cases (Node.step_removeFace hs).2
  | accept node =>
      obtain ⟨_, n, n', _, hs⟩ := hnode h
      obtain ⟨_, _, _, ho⟩ := Node.step_accept hs
      cases ho
  | cleanUp node now =>
      have hclean : em.onNode mode lib node (fun _ => 0) (.cleanUp now) =
        .ok (em', .forward id fw) := h
      obtain ⟨_, n, n', _, hs⟩ := hnode hclean
      cases (Prod.mk.inj (Except.ok.inj hs)).2
  | run j clk raw drop =>
      obtain ⟨p, hp, ⟨_, _, _, _, _, _, _, ho⟩ | ⟨node, face, w, rfl, h⟩⟩ := run_cases h
      · cases ho
      · obtain ⟨rfl, n, n', hn, hs⟩ := hnode h
        exact ⟨n, n', clk, face, w, hn, .inr ⟨w, List.mem_of_getElem? hp⟩, hs⟩
  | timer dev t =>
      obtain ⟨_, _, _, _, _, _, _, ho, _⟩ := fire_cases h
      cases ho
  | tick n => cases (Prod.mk.inj (Except.ok.inj h)).2

end Emulator

end NdnEm
