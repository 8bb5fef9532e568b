import NdnEm.Proofs.DeviceStep
import NdnEm.Proofs.EmulatorStep

/-!
# The copies of one Interest on their way

An Interest with a given name and nonce is on its way at four kinds of place:
waiting in the queue of a device, posted to be transmitted, being received
whole, and posted to be dispatched. A copy goes through them in that order;
transmitting makes one for every neighbour, and a node that forwards makes
one for every face.

`Weights` gives a price to a copy at each place. The load is what all copies
on their way are worth, and `step_load` says what a step does to it: what goes
away from a place is what `leaves` counts, what comes to one is at most what
`enters` counts. Bounds on the number of copies and of steps are choices of
weights.
-/

namespace NdnEm

open Lib LinkDevice

/-- One for the Interest with that name and nonce, zero for any other packet. -/
def Wire.copy (m : Name) (k : UInt32) : Wire → Nat
  | .interest i => if i.name = m ∧ i.nonce = k then 1 else 0
  | .data _ => 0

theorem Wire.copy_le_one (m : Name) (k : UInt32) (w : Wire) : w.copy m k ≤ 1 := by
  cases w with
  | interest i =>
      show (if i.name = m ∧ i.nonce = k then 1 else 0) ≤ 1
      split <;> omega
  | data d => exact Nat.zero_le 1

/-- How many of the packets are copies. -/
def copies (m : Name) (k : UInt32) (ps : List Packet) : Nat :=
  (ps.map fun p => p.wire.copy m k).sum

@[simp] theorem copies_append (m : Name) (k : UInt32) (ps qs : List Packet) :
    copies m k (ps ++ qs) = copies m k ps + copies m k qs := by simp [copies]

@[simp] theorem copies_cons (m : Name) (k : UInt32) (p : Packet) (ps : List Packet) :
    copies m k (p :: ps) = p.wire.copy m k + copies m k ps := by simp [copies]

@[simp] theorem copies_nil (m : Name) (k : UInt32) : copies m k [] = 0 := rfl

/-- What the device has yet to hand to the link: a transmission keeps its
packet at the head of the queue to its end. -/
def LinkDevice.waiting (d : LinkDevice) : List Packet :=
  if d.state = .tx then d.txQueue.tail else d.txQueue

/-- What the device is receiving whole. -/
def LinkDevice.incoming (d : LinkDevice) : List Packet :=
  if d.state = .rx then d.pendingRx.toList else []

theorem LinkDevice.waiting_of_ne {d : LinkDevice} (h : d.state ≠ .tx) : d.waiting = d.txQueue :=
  if_neg h

theorem LinkDevice.waiting_of_tx {d : LinkDevice} (h : d.state = .tx) :
    d.waiting = d.txQueue.tail :=
  if_pos h

/-- The price of a copy, by the place it is at. -/
structure Weights where
  queued : DeviceRef → Nat
  sent : String → String → Nat
  heard : Nat
  posted : Nat

namespace Weights

variable (W : Weights) (m : Name) (k : UInt32)

def device (ref : DeviceRef) (d : LinkDevice) : Nat :=
  W.queued ref * copies m k d.waiting + W.heard * copies m k d.incoming

def handler : Posted → Nat
  | .transmit link nodeId pkt => W.sent link nodeId * pkt.wire.copy m k
  | .dispatch _ _ w => W.posted * w.copy m k

/-- What the copies on their way are worth. -/
def load (em : Emulator) : Nat :=
  em.deviceTable.sum (W.device m k) + (em.posted.map (W.handler m k)).sum

/-- What leaves a device. -/
def paid (ref : DeviceRef) : DeviceOut → Nat
  | .transmit p | .gaveUp p => W.queued ref * p.wire.copy m k
  | .received p => W.heard * p.wire.copy m k
  | .quiet | .enqueued _ | .finished _ => 0

variable {W m k} {mode : Rearm} {l : Link} {now : Int} {raw : Nat} {d d' : LinkDevice}
  {p : Packet} {o : DeviceOut} {ref : DeviceRef}

/-! ## The devices -/

theorem device_startTx (h : d.startTx mode l now raw p = some d') :
    W.device m k ref d' ≤ W.device m k ref d + W.queued ref * p.wire.copy m k := by
  obtain ⟨_, _, rfl⟩ := startTx_cases h
  have hwait : copies m k (LinkDevice.waiting { d with
      txQueue := d.txQueue ++ [p]
      csmaTimer := d.csmaTimer.arm mode (now + backoff raw minBE) (0, minBE) }) ≤
      copies m k d.waiting + p.wire.copy m k := by
    unfold waiting
    split
    · cases hq : d.txQueue with
      | nil => simp
      | cons q rest => simp
    · simp
  have hmul := Nat.mul_le_mul_left (W.queued ref) hwait
  rw [Nat.mul_add] at hmul
  have hinc : copies m k (LinkDevice.incoming { d with
      txQueue := d.txQueue ++ [p]
      csmaTimer := d.csmaTimer.arm mode (now + backoff raw minBE) (0, minBE) }) =
      copies m k d.incoming := rfl
  unfold device
  rw [hinc]
  omega

theorem device_startRx (h : d.startRx mode l now p = .ok d') :
    W.device m k ref d' ≤ W.device m k ref d + W.heard * p.wire.copy m k := by
  rcases startRx_cases h with ⟨_, rfl⟩ | ⟨hst, st, hst', hrx, rfl⟩
  · exact Nat.le_add_right _ _
  · have hnot : d.state ≠ .tx := by
      rcases hst with hst | hst | hst <;> simp [hst]
    have hnot' : st ≠ .tx := by
      rcases hst' with rfl | rfl <;> simp
    have hinc : copies m k (if st = .rx then (some p).toList else []) ≤ p.wire.copy m k := by
      split <;> simp
    have hmul := Nat.mul_le_mul_left W.heard hinc
    unfold device waiting incoming
    rw [if_neg hnot, if_neg hnot']
    show W.queued ref * copies m k d.txQueue +
      W.heard * copies m k (if st = .rx then (some p).toList else []) ≤ _
    omega

theorem device_serveNext (now : Int) (raw : Nat) (d : LinkDevice) :
    W.device m k ref (serveNext mode now raw d) = W.device m k ref d := by
  unfold serveNext
  split <;> rfl

theorem device_postRx {t : Timer Unit}
    (h : LinkDevice.postRx { d with rxTimer := t } = .ok (d', o)) :
    W.device m k ref d' + W.paid m k ref o ≤ W.device m k ref d := by
  obtain ⟨rfl, hcase⟩ := postRx_cases h
  have hne : d.state ≠ .tx := by
    rcases hcase with ⟨hst, _⟩ | ⟨hst | hst, _⟩
    · simp [show d.state = .rx from hst]
    · simp [show d.state = .rxCollide from hst]
    · simp [show d.state = .idle from hst]
  -- the queue is as it was, and nothing is being received any more
  have hafter : W.device m k ref { d with rxTimer := t, state := .idle } =
      W.queued ref * copies m k d.txQueue := Nat.add_zero _
  rw [hafter, device, waiting_of_ne hne]
  rcases hcase with ⟨hrx, p, hp, rfl⟩ | ⟨_, rfl⟩
  · have hinc : d.incoming = [p] := by
      rw [incoming, if_pos (show d.state = .rx from hrx), show d.pendingRx = some p from hp]
      rfl
    have hpaid : W.paid m k ref (.received p) = W.heard * p.wire.copy m k := rfl
    rw [hinc, copies_cons, copies_nil, Nat.add_zero, hpaid]
  · exact Nat.le_add_right _ _

theorem device_doCsma {t : Timer (Int × Int)} {nb be : Int}
    (h : LinkDevice.doCsma mode l now raw { d with csmaTimer := t } nb be = .ok (d', o)) :
    W.device m k ref d' + W.paid m k ref o ≤ W.device m k ref d := by
  obtain ⟨p, rest, hq, hcase⟩ := doCsma_cases h
  have hq : d.txQueue = p :: rest := hq
  -- the head of the queue goes, unless it was on the air before
  have hhead : d.state ≠ .tx → W.device m k ref d =
      W.queued ref * copies m k rest + W.queued ref * p.wire.copy m k +
        W.heard * copies m k d.incoming := by
    intro hne
    rw [device, waiting_of_ne hne, hq, copies_cons, Nat.mul_add]
    omega
  rcases hcase with ⟨hst, rfl, rfl⟩ | ⟨_, _, rfl, rfl⟩ | ⟨hhear, _, rfl, rfl⟩ | ⟨hst, rfl, rfl⟩
  · have hne : d.state ≠ .tx := by simp [show d.state = .idle from hst]
    have hafter : W.device m k ref { d with
        state := .tx
        csmaTimer := t.arm mode (now + l.txDelay p.getLength) (-1, -1) } =
        W.queued ref * copies m k d.txQueue.tail := Nat.add_zero _
    rw [hhead hne, hafter, hq, List.tail_cons]
    exact Nat.le_add_right _ _
  · exact Nat.le_refl _
  · have hne : d.state ≠ .tx := by
      rcases hhear with hst | hst
      · simp [show d.state = .rx from hst]
      · simp [show d.state = .rxCollide from hst]
    have hafter : W.device m k ref { d with csmaTimer := t, txQueue := rest } =
        W.queued ref * copies m k rest + W.heard * copies m k d.incoming := by
      have hwait : waiting { d with csmaTimer := t, txQueue := rest } = rest := waiting_of_ne hne
      rw [device, hwait]
      rfl
    rw [device_serveNext, hhead hne, hafter]
    show _ + W.queued ref * p.wire.copy m k ≤ _
    omega
  · have htx : d.state = .tx := hst
    have hwait : d.waiting = rest := by
      rw [waiting_of_tx htx, hq, List.tail_cons]
    have hafter : W.device m k ref { d with csmaTimer := t, txQueue := rest, state := .idle } =
        W.queued ref * copies m k rest := Nat.add_zero _
    rw [device_serveNext, hafter, device, hwait]
    exact Nat.le_add_right _ _

/-- A timer moves a copy on, or leaves the device's load as it was. -/
theorem device_fire {e : TimerEvent} (h : d.fire mode l now e = .ok (d', o)) :
    W.device m k ref d' + W.paid m k ref o ≤ W.device m k ref d := by
  rcases fire_cases h with ⟨_, rfl, rfl⟩ | ⟨_, rfl, rfl⟩ | ⟨t, _, hpost⟩ |
    ⟨raw, t, nb, be, _, hcsma⟩
  · exact Nat.le_refl _
  · exact Nat.le_refl _
  · exact device_postRx hpost
  · exact device_doCsma hcsma

end Weights

namespace Emulator

/-- The neighbours that hear a node on a link. -/
def fanOut (em : Emulator) (link nodeId : String) : Nat :=
  (em.linkTable.find link).elim 0 fun l => (l.neighbors nodeId).card

/-- The posted handler that an event runs. -/
def running (em : Emulator) : Event → Option Posted
  | .run j _ _ _ => em.posted[j]?
  | .appReceive .. | .appClose .. | .accept _ | .cleanUp .. | .timer .. | .tick _ => none

end Emulator

/-- The device of a link face. -/
def Node.deviceOf (n : Node) (g : Int) : Option DeviceRef :=
  match n.faceTable.find g with
  | some (.link _ ref) => some ref
  | some .app | none => none

/-- The devices of the link faces among those a node sends on. -/
def Emulator.outDevices (em : Emulator) (id : String) (faces : List Int) : List DeviceRef :=
  (em.nodeTable.find id).elim [] fun n => faces.filterMap n.deviceOf

namespace Weights

variable (W : Weights) (m : Name) (k : UInt32)

/-- What is seen to leave a device. -/
def seen : Output → Nat
  | .device ref o => W.paid m k ref o
  | .quiet | .forward _ _ => 0

/-- What goes away from some place. -/
def leaves (em : Emulator) (e : Event) (out : Output) : Nat :=
  (em.running e).elim 0 (W.handler m k) + W.seen m k out

/-- What the neighbours get of a transmission. -/
def heardBy (em : Emulator) (e : Event) : Nat :=
  match em.running e with
  | some (.transmit link nodeId pkt) => em.fanOut link nodeId * (W.heard * pkt.wire.copy m k)
  | some (.dispatch _ _ _) | none => 0

/-- What comes to some place. -/
def enters (em : Emulator) (e : Event) : Output → Nat
  | .device ref (.transmit p) =>
      ((em.deviceTable.find ref).elim 0 fun d => W.sent d.link ref.node) * p.wire.copy m k
  | .device _ (.received p) => W.posted * p.wire.copy m k
  | .device _ _ => 0
  | .forward id fw => ((em.outDevices id fw.faces).map W.queued).sum * fw.wire.copy m k
  | .quiet => W.heardBy m k em e

variable {W m k} {mode : Rearm} {lib : NdnCxx} {em em' : Emulator} {ref : DeviceRef}
  {d d' : LinkDevice} {p : Packet} {w : Wire} {out : Output}

/-! ## The handlers -/

theorem load_setDevice (hd : em.deviceTable.find ref = some d) (d' : LinkDevice) :
    W.load m k (em.setDevice ref d') + W.device m k ref d =
      W.load m k em + W.device m k ref d' := by
  have hsum := FinMap.sum_insert hd d' (W.device m k)
  unfold load
  show (em.deviceTable.insert ref d').sum _ + _ + _ = _
  show (em.deviceTable.insert ref d').sum _ + (em.posted.map (W.handler m k)).sum + _ = _
  omega

theorem load_post (h : Posted) :
    W.load m k (em.post h) = W.load m k em + W.handler m k h := by
  unfold load
  show _ + ((em.posted ++ [h]).map _).sum = _
  rw [List.map_append, List.sum_append, List.map_singleton, List.sum_singleton]
  show em.deviceTable.sum _ + _ = _
  omega

theorem load_unpost {j : Nat} {h : Posted} (hj : em.posted[j]? = some h) :
    W.load m k { em with posted := em.posted.eraseIdx j } + W.handler m k h = W.load m k em := by
  obtain ⟨hlt, hget⟩ := List.getElem?_eq_some_iff.mp hj
  have hperm : (em.posted[j] :: em.posted.eraseIdx j).Perm em.posted :=
    List.getElem_cons_eraseIdx_perm hlt
  have hsum := (hperm.map (W.handler m k)).sum_eq
  rw [List.map_cons, List.sum_cons, hget] at hsum
  show em.deviceTable.sum _ + ((em.posted.eraseIdx j).map (W.handler m k)).sum + _ =
    em.deviceTable.sum _ + (em.posted.map (W.handler m k)).sum
  omega

theorem load_receive (h : em.receive ref p = .ok em') :
    W.load m k em' ≤ W.load m k em + W.posted * p.wire.copy m k := by
  obtain ⟨d, n, hd, hn, ⟨_, rfl⟩ | ⟨face, hf, rfl⟩ | ⟨hf, rfl⟩⟩ := Emulator.receive_cases h
  · exact Nat.le_add_right _ _
  · rw [load_post]
    exact Nat.le_refl _
  · have hset := @load_setDevice W m k
      (em.setNode ref.node (n.addLinkFace (em.address p.id).src ref).1) ref d hd
      { d with
        faces := d.faces.insert (em.address p.id).src
          (n.addLinkFace (em.address p.id).src ref).2 }
    have hnode : W.load m k (em.setNode ref.node (n.addLinkFace (em.address p.id).src ref).1) =
        W.load m k em := rfl
    have hdev : W.device m k ref { d with
        faces := d.faces.insert (em.address p.id).src
          (n.addLinkFace (em.address p.id).src ref).2 } = W.device m k ref d := rfl
    rw [load_post]
    show W.load m k ((em.setNode ref.node _).setDevice ref _) + W.posted * p.wire.copy m k ≤ _
    omega

theorem load_sendTo {faceTable : FinMap Int Face} {raw : Int → Nat} {faces : List Int}
    {n : Node} (hn : n.faceTable = faceTable)
    (h : Emulator.sendTo mode faceTable raw p em faces = .ok em') :
    W.load m k em' ≤ W.load m k em +
      ((faces.filterMap n.deviceOf).map W.queued).sum * p.wire.copy m k := by
  induction faces generalizing em with
  | nil =>
      obtain rfl := Except.ok.inj h
      exact Nat.le_add_right _ _
  | cons g gs ih =>
      rw [Emulator.sendTo] at h
      split at h
      · next hg =>
          have hnone : n.deviceOf g = none := by simp [Node.deviceOf, hn, hg]
          rw [List.filterMap_cons_none hnone]
          exact ih h
      · next face hg =>
          split at h
          · cases h
          · next em₁ hs =>
              have hrest := ih h
              cases face with
              | app =>
                  obtain rfl := Except.ok.inj hs
                  have hnone : n.deviceOf g = none := by simp [Node.deviceOf, hn, hg]
                  rw [List.filterMap_cons_none hnone]
                  exact hrest
              | link mac ref =>
                  have hsome : n.deviceOf g = some ref := by simp [Node.deviceOf, hn, hg]
                  rw [List.filterMap_cons_some hsome, List.map_cons, List.sum_cons, Nat.add_mul]
                  have hone : W.load m k em₁ ≤ W.load m k em + W.queued ref * p.wire.copy m k := by
                    obtain rfl | ⟨d, l, d', hd, _, htx, rfl⟩ := Emulator.startTx_cases hs
                    · exact Nat.le_add_right _ _
                    · have hset := @load_setDevice W m k ((em.setDst p mac).setSrc p d.macAddr)
                        ref d hd d'
                      have hdev := @device_startTx W m k _ _ _ _ _ _ _ ref htx
                      have hsame : W.load m k ((em.setDst p mac).setSrc p d.macAddr) =
                        W.load m k em := rfl
                      omega
                  omega

theorem load_transmit {link : Link} {drop : String → Bool} {nodes : List String}
    (h : Emulator.transmit mode link drop p em nodes = .ok em') :
    W.load m k em' ≤ W.load m k em + nodes.length * (W.heard * p.wire.copy m k) := by
  induction nodes generalizing em with
  | nil =>
      obtain rfl := Except.ok.inj h
      exact Nat.le_add_right _ _
  | cons id rest ih =>
      rw [Emulator.transmit] at h
      rw [List.length_cons, Nat.add_one_mul]
      split at h
      · have hrest := ih h
        omega
      · split at h
        · cases h
        · next ref _ =>
            split at h
            · cases h
            · next d l hat =>
                split at h
                · cases h
                · next d' hrx =>
                    have hrest := ih h
                    have hset := @load_setDevice W m k em ref d (Emulator.attached_cases hat).1 d'
                    have hdev := @device_startRx W m k _ _ _ _ _ _ ref hrx
                    omega

/-- A node that sends does not change its faces. -/
theorem faceTable_of_sent {n n' : Node} {e : NodeEvent} {fw : Forward}
    (hs : n.step lib e = .ok (n', some fw)) : n'.faceTable = n.faceTable := by
  cases e with
  | interest clk f i => exact (Node.handleInterest_tables hs).1
  | data clk f d => exact (Node.handleData_tables (f := f) hs).1
  | removeFace f => cases (Node.step_removeFace hs).2
  | cleanUp now => cases (Prod.mk.inj (Except.ok.inj hs)).2
  | addLinkFace mac dev => cases (Prod.mk.inj (Except.ok.inj hs)).2
  | accept =>
      obtain ⟨_, _, _, ho⟩ := Node.step_accept hs
      cases ho

theorem load_onNode {id : String} {raw : Int → Nat} {e : NodeEvent}
    (h : em.onNode mode lib id raw e = .ok (em', out)) :
    (out = .quiet ∧ W.load m k em' = W.load m k em) ∨
    ∃ fw, out = .forward id fw ∧ W.load m k em' ≤ W.load m k em +
      ((em.outDevices id fw.faces).map W.queued).sum * fw.wire.copy m k := by
  obtain ⟨n, n', o, hn, hs, ⟨_, rfl, rfl⟩ | ⟨fw, rfl, rfl, hf⟩⟩ := Emulator.onNode_cases h
  · exact .inl ⟨rfl, rfl⟩
  · refine .inr ⟨fw, rfl, ?_⟩
    have hload : W.load m k em' ≤ W.load m k em +
        ((fw.faces.filterMap n.deviceOf).map W.queued).sum * fw.wire.copy m k :=
      load_sendTo (faceTable_of_sent hs).symm hf
    rwa [Emulator.outDevices, hn]

/-! ## A step -/

/-- **What a step does to the load.** -/
theorem step_load {e : Event} (h : em.step mode lib e = .ok (em', out)) :
    W.load m k em' + W.leaves m k em e out ≤ W.load m k em + W.enters m k em e out := by
  -- a node acts in `em₀`: the network, or what is left when its handler is taken out
  have hnode : ∀ (em₀ : Emulator) {id : String} {raw : Int → Nat} {ne : NodeEvent},
      em₀.nodeTable = em.nodeTable → em₀.onNode mode lib id raw ne = .ok (em', out) →
      W.leaves m k em e out = (em.running e).elim 0 (W.handler m k) ∧
        W.load m k em' ≤ W.load m k em₀ + W.enters m k em e out := by
    intro em₀ id raw ne hsame h
    obtain ⟨rfl, hload⟩ | ⟨fw, rfl, hload⟩ := @load_onNode W m k _ _ _ _ _ _ _ _ h
    · exact ⟨Nat.add_zero _, by omega⟩
    · refine ⟨Nat.add_zero _, ?_⟩
      rwa [Emulator.outDevices, hsame] at hload
  have hclient : ∀ {id : String} {raw : Int → Nat} {ne : NodeEvent}, em.running e = none →
      em.onNode mode lib id raw ne = .ok (em', out) →
      W.load m k em' + W.leaves m k em e out ≤ W.load m k em + W.enters m k em e out := by
    intro id raw ne hrun h
    obtain ⟨hleaves, hload⟩ := hnode em rfl h
    rw [hleaves, hrun]
    exact hload
  cases e with
  | appReceive node face clk raw blk =>
      obtain ⟨w, _, h⟩ := Emulator.dispatch_cases h
      exact hclient rfl h
  | appClose node face => exact hclient rfl h
  | accept node => exact hclient rfl h
  | cleanUp node now =>
      have hclean : em.onNode mode lib node (fun _ => 0) (.cleanUp now) = .ok (em', out) := h
      exact hclient rfl hclean
  | run j clk raw drop =>
      obtain ⟨hd, hj, ⟨link, nodeId, pkt, l, rfl, hl, ht, rfl⟩ | ⟨node, face, w, rfl, h⟩⟩ :=
        Emulator.run_cases h
      · have hpop := @load_unpost W m k _ _ _ hj
        have hload := @load_transmit W m k _ _ _ _ _ _ _ ht
        have hfan : em.fanOut link nodeId = (ascending (l.neighbors nodeId)).length := by
          rw [length_ascending, Emulator.fanOut, hl]
          rfl
        simp only [leaves, seen, enters, heardBy, Emulator.running, hj, Option.elim_some, hfan]
        omega
      · have hpop := @load_unpost W m k _ _ _ hj
        obtain ⟨hleaves, hload⟩ := hnode { em with posted := em.posted.eraseIdx j } rfl h
        have hrun : em.running (.run j clk raw drop) = some (.dispatch node face w) := hj
        rw [hrun, Option.elim_some] at hleaves
        omega
  | timer ref t =>
      obtain ⟨d, l, d', o, hd, _, hs, rfl, hrest⟩ := Emulator.fire_cases h
      have hset := @load_setDevice W m k em ref d hd d'
      have hdev := @device_fire W m k _ _ _ _ _ _ ref _ hs
      have hleaves : W.leaves m k em (.timer ref t) (.device ref o) = W.paid m k ref o := by
        simp [leaves, seen, Emulator.running]
      obtain ⟨pkt, rfl, hr⟩ | ⟨pkt, rfl, rfl⟩ | ⟨_, rfl⟩ := hrest
      · have hrec := @load_receive W m k _ _ _ _ hr
        simp only [enters]
        omega
      · rw [load_post]
        simp only [enters, hd, handler, Option.elim_some]
        omega
      · omega
  | tick n =>
      obtain ⟨rfl, rfl⟩ := Prod.mk.inj (Except.ok.inj h)
      exact Nat.le_refl _

end Weights

end NdnEm
