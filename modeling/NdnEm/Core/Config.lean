import NdnEm.Core.Emulator

/-!
# Reading a configuration

The configuration as the property tree yields it once every required element
is there and of its type, and the three passes of `ReadNetworkConfig` over it:
links, nodes with their devices, then routes, then connections. What a pass
refuses is an exception, and the emulator does not start.

A `TxRate` stands for the function from packet lengths to times on the air
that the devices compute from it. Socket paths are left out, and so are loss
rates: whether a copy is lost is drawn when it is sent.
-/

namespace NdnEm

open Lib

structure LinkConfig where
  id : String
  txDelay : Nat → Int
  mtu : Option Int

structure DeviceConfig where
  deviceId : String
  linkId : String
deriving DecidableEq, Repr

structure RouteConfig where
  pfx : Name
  interface : String
  nexthop : Option String
deriving DecidableEq, Repr

structure NodeConfig where
  id : String
  cacheLimit : Option Int
  devices : List DeviceConfig
  routes : List RouteConfig
deriving DecidableEq, Repr

structure ConnectionConfig where
  src : String
  dst : String
deriving DecidableEq, Repr

structure MatrixConfig where
  linkId : String
  connections : List ConnectionConfig
deriving DecidableEq, Repr

structure Config where
  links : List LinkConfig
  nodes : List NodeConfig
  matrices : List MatrixConfig

namespace Emulator

/-- `dev->AddBroadcastFace ()`. -/
def addBroadcastFace (em : Emulator) (n : Node) (ref : DeviceRef) (d : LinkDevice) :
    Emulator × Node :=
  let (n, face) := n.addLinkFace broadcastMac ref
  (em.setDevice ref { d with faces := d.faces.insert broadcastMac face }, n)

/-- `Node::AddDevice`. The node is still under construction, so it is passed
along. -/
def addDevice (em : Emulator) (n : Node) (devId : String) (macAddr : MacAddr) (link : String) :
    Except Fault (Emulator × Node) :=
  match em.deviceTable.find ⟨n.id, devId⟩ with
  | some _ => .error (.runtimeError
      ("[Node::AddDevice] duplicate device id " ++ devId ++ " on node " ++ n.id))
  | none => .ok (em.addBroadcastFace n ⟨n.id, devId⟩ (LinkDevice.new macAddr link 5))

/-- `Node::AddRoute`. A face that is made here is not in the device's own face
map. -/
def addRoute (em : Emulator) (n : Node) (pfx : Name) (devId : String) (nexthop : MacAddr) :
    Except Fault Node :=
  match em.deviceTable.find ⟨n.id, devId⟩ with
  | none => .error (.runtimeError ("[Node::AddRoute] (" ++ n.id ++ ") dev " ++ devId ++
      " doesn't exist in local device table"))
  | some d =>
      let (n, face) :=
        match d.faces.find nexthop with
        | some face => (n, face)
        | none => n.addLinkFace nexthop ⟨n.id, devId⟩
      .ok { n with fib := n.fib.addRoute pfx face }

/-! ## The links -/

def readLink (em : Emulator) (c : LinkConfig) : Except Fault Emulator :=
  match em.linkTable.find c.id with
  | some _ => .error (.runtimeError
      ("[Emulator::ReadNetworkConfig] duplicate link id " ++ c.id))
  | none =>
      let mtu := toSize (c.mtu.getD 8800)
      .ok { em with linkTable := em.linkTable.insert c.id (Link.new c.id c.txDelay mtu) }

/-! ## The nodes and their devices -/

/-- The devices of a node, with the next MAC address to assign. -/
def readDevices (n : Node) (mac : MacAddr) :
    Emulator → List DeviceConfig → Except Fault (Emulator × Node × MacAddr)
  | em, [] => .ok (em, n, mac)
  | em, c :: cs =>
      match em.linkTable.find c.linkId with
      | none => .error (.runtimeError ("[Emulator::ReadNetworkConfig] unkown link " ++
          c.linkId ++ " on node " ++ n.id))
      | some l =>
          match em.addDevice n c.deviceId mac c.linkId with
          | .error f => .error f
          | .ok (em, n) =>
              let l := l.addNodeDevice n.id ⟨n.id, c.deviceId⟩
              readDevices n (mac + 1)
                { em with linkTable := em.linkTable.insert c.linkId l } cs

def readNode (em : Emulator) (mac : MacAddr) (c : NodeConfig) :
    Except Fault (Emulator × MacAddr) :=
  match em.nodeTable.find c.id with
  | some _ => .error (.runtimeError
      ("[Emulator::ReadNetworkConfig] duplicate node id " ++ c.id))
  | none =>
      -- the limit is given in KB, and shifted as an int
      let limit := toInt ((c.cacheLimit.getD 100) * 2 ^ 10)
      match readDevices (Node.new c.id limit) mac em c.devices with
      | .error f => .error f
      | .ok (em, n, mac) => .ok (em.setNode c.id n, mac)

def readNodes : Emulator → MacAddr → List NodeConfig → Except Fault Emulator
  | em, _, [] => .ok em
  | em, mac, c :: cs =>
      match em.readNode mac c with
      | .error f => .error f
      | .ok (em, mac) => readNodes em mac cs

/-! ## The routes -/

/-- The next hop of a route: the MAC address of the device that the named node
has on the interface's link, or broadcast by default. -/
def resolveNexthop (em : Emulator) (nodeId : String) (r : RouteConfig) :
    Except Fault MacAddr :=
  match r.nexthop with
  | none => .ok broadcastMac
  | some neighbor =>
      match em.deviceTable.find ⟨nodeId, r.interface⟩ with
      | none => .error (.runtimeError ("[Node::GetDevice] device " ++ r.interface ++
          " doesn't exist on node " ++ nodeId))
      | some d =>
          match em.linkTable.find d.link with
          | none => .error (.undefined "null m_link")
          | some l =>
              match l.getNodeDevice neighbor with
              | .error f => .error f
              | .ok ref =>
                  match em.deviceTable.find ref with
                  | none => .error (.undefined "null device")
                  | some d' => .ok d'.macAddr

def readRoute (em : Emulator) (nodeId : String) (r : RouteConfig) : Except Fault Emulator :=
  match em.resolveNexthop nodeId r with
  | .error f => .error f
  | .ok nexthop =>
      match em.nodeTable.find nodeId with
      | none => .error (.undefined "null node")
      | some n =>
          match em.addRoute n r.pfx r.interface nexthop with
          | .error f => .error f
          | .ok n => .ok (em.setNode nodeId n)

/-! ## The connections -/

def readConnections (link : String) : Emulator → List ConnectionConfig → Except Fault Emulator
  | em, [] => .ok em
  | em, c :: cs =>
      match em.linkTable.find link with
      | none => .error (.runtimeError
          ("[Emulator::ReadNetworkConfig] unkown matrix link id " ++ link))
      | some l =>
          match l.addConnection c.src c.dst with
          | .error f => .error f
          | .ok l => readConnections link { em with linkTable := em.linkTable.insert link l } cs

def readMatrix (em : Emulator) (c : MatrixConfig) : Except Fault Emulator :=
  match em.linkTable.find c.linkId with
  | none => .error (.runtimeError
      ("[Emulator::ReadNetworkConfig] unkown matrix link id " ++ c.linkId))
  | some _ => readConnections c.linkId em c.connections

/-! ## The whole configuration -/

/-- A pass over a list that stops at the first exception. -/
def readAll {α : Type} (read : Emulator → α → Except Fault Emulator) :
    Emulator → List α → Except Fault Emulator
  | em, [] => .ok em
  | em, c :: cs =>
      match read em c with
      | .error f => .error f
      | .ok em => readAll read em cs

/-- The routes of all nodes, each with the node it belongs to. -/
def routes (nodes : List NodeConfig) : List (String × RouteConfig) :=
  nodes.flatMap fun c => c.routes.map fun r => (c.id, r)

/-- The links, and the nodes with their devices. -/
def readTopology (c : Config) : Except Fault Emulator :=
  match readAll readLink empty c.links with
  | .error f => .error f
  | .ok em => readNodes em 1 c.nodes

def readNetworkConfig (c : Config) : Except Fault Emulator :=
  match readTopology c with
  | .error f => .error f
  | .ok em =>
      match readAll (fun em x => em.readRoute x.1 x.2) em (routes c.nodes) with
      | .error f => .error f
      | .ok em => readAll readMatrix em c.matrices

/-- Start every node; the event loop is what runs from here. -/
def start (em : Emulator) : Emulator :=
  { em with nodeTable := em.nodeTable.filterMap fun _ n => some n.start }

end Emulator

end NdnEm
