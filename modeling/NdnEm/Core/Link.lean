import NdnEm.Core.Packet
import NdnEm.Lib.FinMap

/-!
# The link

A shared medium. `m_nodeTable` says which device speaks for a node on the
link, `m_linkMatrix` which nodes hear which.

Two things are left to the environment. The time a packet is on the air is
computed from the rate of the link in floating point; the link carries that
function of the length as it is. And whether a copy is lost is a draw of the
connection's generator, which comes with the event that takes it.
-/

namespace NdnEm

open Lib

/-- A `shared_ptr<LinkDevice>`: the device of that id on that node. -/
structure DeviceRef where
  node : String
  dev : String
deriving DecidableEq, Repr

structure Link where
  id : String
  /-- The microseconds a packet of this length is on the air. -/
  txDelay : Nat → Int
  mtu : Nat
  nodeTable : FinMap String DeviceRef
  /-- For each sender, the nodes it has a connection to. -/
  linkMatrix : FinMap String (Finset String)

namespace Link

def new (id : String) (txDelay : Nat → Int) (mtu : Nat) : Link := ⟨id, txDelay, mtu, ∅, ∅⟩

def addNodeDevice (l : Link) (nodeId : String) (dev : DeviceRef) : Link :=
  { l with nodeTable := l.nodeTable.insert nodeId dev }

def getNodeDevice (l : Link) (nodeId : String) : Except Fault DeviceRef :=
  match l.nodeTable.find nodeId with
  | none => .error (.runtimeError
      ("[Link::GetNodeDevice] unkown node " ++ nodeId ++ " on link " ++ l.id))
  | some dev => .ok dev

/-- The nodes that hear a sender: `m_linkMatrix[nodeId]`, where `operator[]`
answers no neighbours for a sender without connections. -/
def neighbors (l : Link) (nodeId : String) : Finset String :=
  (l.linkMatrix.find nodeId).getD ∅

def addConnection (l : Link) (src dst : String) : Except Fault Link :=
  if src = dst then
    .error (.runtimeError ("[Link::AddConnection] src & dst equal to " ++ src))
  else if (l.nodeTable.find src).isNone then
    .error (.runtimeError
      ("[Link::AddConnection] unknown node " ++ src ++ " on link " ++ l.id))
  else if (l.nodeTable.find dst).isNone then
    .error (.runtimeError
      ("[LinkAddConnection] unknown node " ++ dst ++ " on link " ++ l.id))
  else
    .ok { l with linkMatrix := l.linkMatrix.insert src (insert dst (l.neighbors src)) }

end Link

end NdnEm
