import Mathlib.Data.String.Basic
import Mathlib.Logic.Function.Basic
import NdnEm.Core.LinkDevice
import NdnEm.Core.Node

/-!
# The emulator

All nodes, links and devices in one process, around one event queue. A handler
runs to its end before another starts, and it may be the receipt of a block
from an application, a timer that fired, or something a handler posted: a
transmission, which gives a packet to every device that hears it, or the
dispatch of a received block on a face. What is posted runs later, in any
order.

The devices of the nodes are kept in one table here, by their node and id.
`m_dst` and `m_src` of the `Packet` objects are kept by the number of the
object, since a face and a device write them through a pointer and every queue
that holds the packet sees it.

Applications are on the other end of a stream socket, which hands blocks to the
emulator one at a time. What is sent to them leaves the emulator: an
`async_send` that is outstanding is no part of its state, and `HandleSend` no
event.
-/

namespace NdnEm

open Lib

/-- A handler given to `m_ioService.post`. -/
inductive Posted
  | transmit (link : String) (nodeId : String) (pkt : Packet)
  | dispatch (node : String) (face : Int) (wire : Wire)
deriving DecidableEq, Repr

structure Emulator where
  nodeTable : FinMap String Node
  linkTable : FinMap String Link
  deviceTable : FinMap DeviceRef LinkDevice
  /-- The addresses of the packet objects, by their number. -/
  address : Nat → Address
  /-- The number of packet objects made so far. -/
  packets : Nat
  posted : List Posted
  /-- The clock of the device timers, in microseconds. -/
  now : Int

/-- What a handler did, as far as it is seen from outside the node. -/
inductive Output
  | quiet
  /-- A node passed a packet to `Send`. -/
  | forward (node : String) (fw : Forward)
  | device (dev : DeviceRef) (o : DeviceOut)
deriving DecidableEq, Repr

namespace Emulator

/-- Before any configuration is read. -/
def empty : Emulator where
  nodeTable := ∅
  linkTable := ∅
  deviceTable := ∅
  address _ := ⟨0, 0⟩
  packets := 0
  posted := []
  now := 0

def setNode (em : Emulator) (id : String) (n : Node) : Emulator :=
  { em with nodeTable := em.nodeTable.insert id n }

def setDevice (em : Emulator) (ref : DeviceRef) (d : LinkDevice) : Emulator :=
  { em with deviceTable := em.deviceTable.insert ref d }

def setAddress (em : Emulator) (id : Nat) (a : Address) : Emulator :=
  { em with address := Function.update em.address id a }

def post (em : Emulator) (h : Posted) : Emulator := { em with posted := em.posted ++ [h] }

def setDst (em : Emulator) (pkt : Packet) (dst : MacAddr) : Emulator :=
  em.setAddress pkt.id { em.address pkt.id with dst := dst }

def setSrc (em : Emulator) (pkt : Packet) (src : MacAddr) : Emulator :=
  em.setAddress pkt.id { em.address pkt.id with src := src }

/-- A device and the link it is attached to. -/
def attached (em : Emulator) (ref : DeviceRef) : Except Fault (LinkDevice × Link) :=
  match em.deviceTable.find ref with
  | none => .error (.undefined "null device")
  | some d =>
      match em.linkTable.find d.link with
      | none => .error (.undefined "null m_link")
      | some l => .ok (d, l)

variable (mode : Rearm)

/-- `LinkDevice::StartTx`, with the write to the packet. -/
def startTx (em : Emulator) (ref : DeviceRef) (raw : Nat) (pkt : Packet) :
    Except Fault Emulator :=
  match em.attached ref with
  | .error f => .error f
  | .ok (d, l) =>
      match d.startTx mode l em.now raw pkt with
      | none => .ok em
      | some d' => .ok ((em.setSrc pkt d.macAddr).setDevice ref d')

/-- `Face::Send`: an application gets the bytes, a link face addresses the
packet and gives it to its device. -/
def send (em : Emulator) (raw : Nat) (pkt : Packet) : Face → Except Fault Emulator
  | .app => .ok em
  | .link remoteMac dev => (em.setDst pkt remoteMac).startTx mode dev raw pkt

/-- The loop of `ForwardToFaces`; `raw` is the backoff draw for each face. -/
def sendTo (faceTable : FinMap Int Face) (raw : Int → Nat) (pkt : Packet) :
    Emulator → List Int → Except Fault Emulator
  | em, [] => .ok em
  | em, g :: gs =>
      match faceTable.find g with
      | none => sendTo faceTable raw pkt em gs
      | some face =>
          match em.send mode (raw g) pkt face with
          | .error f => .error f
          | .ok em => sendTo faceTable raw pkt em gs

/-- A new packet object, whose addresses are zero. -/
def newPacket (em : Emulator) (w : Wire) : Emulator × Packet :=
  ({ em.setAddress em.packets ⟨0, 0⟩ with packets := em.packets + 1 }, ⟨em.packets, w⟩)

/-- A handler's one packet, on its way to all the faces it is sent to. -/
def forward (em : Emulator) (faceTable : FinMap Int Face) (raw : Int → Nat) (w : Wire)
    (faces : List Int) : Except Fault Emulator :=
  let (em, pkt) := em.newPacket w
  em.sendTo mode faceTable raw pkt faces

/-- Something happens to a node, and what it forwards is sent. -/
def onNode (lib : NdnCxx) (em : Emulator) (id : String) (raw : Int → Nat) (e : NodeEvent) :
    Except Fault (Emulator × Output) :=
  match em.nodeTable.find id with
  | none => .error (.undefined "null m_node")
  | some n =>
      match n.step lib e with
      | .error f => .error f
      | .ok (n', none) => .ok (em.setNode id n', .quiet)
      | .ok (n', some fw) =>
          match (em.setNode id n').forward mode n'.faceTable raw fw.wire fw.faces with
          | .error f => .error f
          | .ok em => .ok (em, .forward id fw)

/-- `Face::Dispatch`. -/
def dispatch (lib : NdnCxx) (em : Emulator) (id : String) (face : Int) (clk : Clock)
    (raw : Int → Nat) : Block → Except Fault (Emulator × Output)
  | .packet (.interest i) => em.onNode mode lib id raw (.interest clk face i)
  | .packet (.data d) => em.onNode mode lib id raw (.data clk face d)
  | .malformed => .error (.runtimeError "NDN packet decoding error")
  | .unknown => .error (.runtimeError "Unknown NDN packet type")

/-- `Link::Transmit`: the neighbours in the order of their ids, each of which
may lose the packet. -/
def transmit (link : Link) (drop : String → Bool) (pkt : Packet) :
    Emulator → List String → Except Fault Emulator
  | em, [] => .ok em
  | em, nodeId :: rest =>
      if drop nodeId then transmit link drop pkt em rest
      else
        match link.nodeTable.find nodeId with
        | none => .error (.undefined "null device")
        | some ref =>
            match em.attached ref with
            | .error f => .error f
            | .ok (d, l) =>
                match d.startRx mode l em.now pkt with
                | .error f => .error f
                | .ok d' => transmit link drop pkt (em.setDevice ref d') rest

/-- What `PostRx` does with a packet that was received: if it is for this
device, find the face of its sender or make one, and post the dispatch. -/
def receive (em : Emulator) (ref : DeviceRef) (pkt : Packet) : Except Fault Emulator :=
  match em.deviceTable.find ref, em.nodeTable.find ref.node with
  | some d, some n =>
      let dst := (em.address pkt.id).dst
      let src := (em.address pkt.id).src
      if dst = d.macAddr ∨ dst = broadcastMac then
        match d.faces.find src with
        | some face => .ok (em.post (.dispatch ref.node face pkt.wire))
        | none =>
            let (n, face) := n.addLinkFace src ref
            .ok (((em.setNode ref.node n).setDevice ref
              { d with faces := d.faces.insert src face }).post
                (.dispatch ref.node face pkt.wire))
      else .ok em
  | _, _ => .error (.undefined "null m_node")

/-- A timer of a device, with what its handler does outside the device. -/
def fire (em : Emulator) (ref : DeviceRef) (e : LinkDevice.TimerEvent) :
    Except Fault (Emulator × Output) :=
  match em.attached ref with
  | .error f => .error f
  | .ok (d, l) =>
      match d.fire mode l em.now e with
      | .error f => .error f
      | .ok (d', o) =>
          let em := em.setDevice ref d'
          match o with
          | .received pkt => (em.receive ref pkt).map fun em => (em, .device ref o)
          | .transmit pkt => .ok (em.post (.transmit d.link ref.node pkt), .device ref o)
          | .quiet | .enqueued _ | .finished _ | .gaveUp _ => .ok (em, .device ref o)

end Emulator

/-! ## Everything that can happen in a network -/

inductive Event
  /-- A client of the node sends a block. -/
  | appReceive (node : String) (face : Int) (clk : Clock) (raw : Int → Nat) (blk : Block)
  /-- A client's connection fails. -/
  | appClose (node : String) (face : Int)
  | accept (node : String)
  | cleanUp (node : String) (now : Int)
  /-- The posted handler of that index runs. -/
  | run (k : Nat) (clk : Clock) (raw : Int → Nat) (drop : String → Bool)
  | timer (dev : DeviceRef) (e : LinkDevice.TimerEvent)
  | tick (n : Nat)

/-- The readings of the clock that a handler takes. -/
def Event.clock : Event → Option Clock
  | .appReceive _ _ clk _ _ | .run _ clk _ _ => some clk
  | .appClose .. | .accept _ | .cleanUp .. | .timer .. | .tick _ => none

namespace Emulator

variable (mode : Rearm) (lib : NdnCxx)

def runPosted (em : Emulator) (clk : Clock) (raw : Int → Nat) (drop : String → Bool) :
    Posted → Except Fault (Emulator × Output)
  | .transmit link nodeId pkt =>
      match em.linkTable.find link with
      | none => .error (.undefined "null m_link")
      | some l =>
          (transmit mode l drop pkt em (ascending (l.neighbors nodeId))).map fun em =>
            (em, .quiet)
  | .dispatch node face wire => em.dispatch mode lib node face clk raw (.packet wire)

def step (em : Emulator) : Event → Except Fault (Emulator × Output)
  | .appReceive node face clk raw blk => em.dispatch mode lib node face clk raw blk
  | .appClose node face => em.onNode mode lib node (fun _ => 0) (.removeFace face)
  | .accept node => em.onNode mode lib node (fun _ => 0) .accept
  | .cleanUp node now => em.onNode mode lib node (fun _ => 0) (.cleanUp now)
  | .run k clk raw drop =>
      match em.posted[k]? with
      | none => .error (.undefined "nothing is posted")
      | some h =>
          runPosted mode lib { em with posted := em.posted.eraseIdx k } clk raw drop h
  | .timer dev e => em.fire mode dev e
  | .tick n => .ok ({ em with now := em.now + n }, .quiet)

/-- A client is connected on that face of the node. -/
def Connected (em : Emulator) (node : String) (face : Int) : Prop :=
  ∃ n ∈ em.nodeTable.find node, n.faceTable.find face = some .app

def Enabled (em : Emulator) : Event → Prop
  | .appReceive node face _ _ _ => em.Connected node face
  | .appClose node face => em.Connected node face
  | .accept node => ∃ n ∈ em.nodeTable.find node, n.client.isSome
  | .cleanUp node _ => (em.nodeTable.find node).isSome
  | .run k _ _ _ => k < em.posted.length
  | .timer dev e => ∃ d ∈ em.deviceTable.find dev, d.CanFire em.now e
  | .tick _ => True

instance (em : Emulator) (e : Event) : Decidable (em.Enabled e) :=
  match e with
  | .appReceive _ _ _ _ _ | .appClose _ _ =>
      inferInstanceAs (Decidable (∃ _ ∈ _, _))
  | .accept _ => inferInstanceAs (Decidable (∃ _ ∈ _, _))
  | .cleanUp _ _ => inferInstanceAs (Decidable (_ = _))
  | .run _ _ _ _ => inferInstanceAs (Decidable (_ < _))
  | .timer _ _ => inferInstanceAs (Decidable (∃ _ ∈ _, _))
  | .tick _ => isTrue trivial

/-- The runs of a network: any of its events, in any order. -/
def system : System Emulator Event Output Fault where
  Enabled := Enabled
  step := step mode lib

instance (em : Emulator) (e : Event) : Decidable ((system mode lib).Enabled em e) :=
  inferInstanceAs (Decidable (em.Enabled e))

end Emulator

end NdnEm
