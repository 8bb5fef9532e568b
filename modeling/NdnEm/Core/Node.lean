import NdnEm.Core.CacheManager
import NdnEm.Core.FibManager
import NdnEm.Core.Link
import NdnEm.Core.Pit
import NdnEm.Lib.Run

/-!
# The node

The forwarding half of the emulator: face table, PIT, FIB, content store and
the fib manager, and the two handlers every packet goes through.

A handler makes at most one `Packet` object and passes it to `Send` on a list
of faces, in the order of their ids. Sending reads and writes nothing the
handler looks at, so the handlers below answer that list instead of doing the
sends; the devices come in one layer up.

A handler reads the clock up to four times. `Clock` holds the readings, in the
order the code takes them.

The face counter is an `int`. It is not wrapped here: a run that creates
`2 ^ 31` faces overflows it and is outside the model.
-/

namespace NdnEm

open Lib

inductive Face
  | app
  | link (remoteMac : MacAddr) (device : DeviceRef)
deriving DecidableEq, Repr

/-- The clock readings of one handler, for `FindMatchingData`, `AddInterest`,
`ConsumeInterestWithDataName` and `Insert`. -/
structure Clock where
  find : Int
  add : Int
  consume : Int
  insert : Int
  ordered : find ≤ add ∧ add ≤ consume ∧ consume ≤ insert

/-- A clock that does not move during the handler. -/
def Clock.still (t : Int) : Clock := ⟨t, t, t, t, by omega⟩

structure Node where
  id : String
  faceCounter : Int
  faceTable : FinMap Int Face
  pit : Pit
  fib : Fib
  /-- Null until the node is started. -/
  fibManager : Option FibManager
  cacheManager : CacheManager
  /-- The `AppFace` the acceptor is waiting to connect. -/
  client : Option Int

/-- What a handler passes to `Send`: one packet, and the faces it goes to. -/
inductive Forward
  | cached (d : Data) (faces : List Int)
  | interest (i : Interest) (faces : List Int)
  | data (d : Data) (faces : List Int)
deriving DecidableEq, Repr

def Forward.wire : Forward → Wire
  | .cached d _ => .data d
  | .interest i _ => .interest i
  | .data d _ => .data d

def Forward.faces : Forward → List Int
  | .cached _ fs => fs
  | .interest _ fs => fs
  | .data _ fs => fs

namespace Node

/-- The constructor; face id 0 is reserved for the fib manager. -/
def new (id : String) (cacheLimit : Int) : Node where
  id := id
  faceCounter := 1
  faceTable := ∅
  pit := Pit.empty
  fib := Fib.empty
  fibManager := none
  cacheManager := CacheManager.new cacheLimit
  client := none

/-- Set up the fib manager and the face of the first client. -/
def start (n : Node) : Node :=
  { n with
    fib := n.fib.addRoute ribPrefix 0
    fibManager := some ⟨0, ribPrefix⟩
    client := some n.faceCounter
    faceCounter := n.faceCounter + 1 }

/-- The connected client gets its entry, and a face is made for the next. -/
def handleAccept (n : Node) (face : Int) : Node :=
  { n with
    client := some n.faceCounter
    faceCounter := n.faceCounter + 1
    faceTable := n.faceTable.insert face .app }

def addLinkFace (n : Node) (remoteMac : MacAddr) (dev : DeviceRef) : Node × Int :=
  ({ n with
     faceCounter := n.faceCounter + 1
     faceTable := n.faceTable.insert n.faceCounter (.link remoteMac dev) },
   n.faceCounter)

/-- The face that `Send` is called on, if it still exists. -/
def forwardToFace (n : Node) (outId : Int) : List Int :=
  if outId ∈ n.faceTable.keys then [outId] else []

def forwardToFaces (n : Node) (out : Finset Int) : List Int :=
  (ascending out).flatMap n.forwardToFace

def handleData (n : Node) (clk : Clock) (_faceId : Int) (d : Data) :
    Except Fault (Node × Option Forward) :=
  let (pit, outList) := n.pit.consumeInterestWithDataName clk.consume d.name ∅
  let n := { n with pit := pit }
  if outList = ∅ then .ok (n, none)
  else
    -- cache the data only when there is a pending interest for it
    match n.cacheManager.insert clk.insert d with
    | .error f => .error f
    | .ok cache =>
        .ok ({ n with cacheManager := cache }, some (.data d (n.forwardToFaces outList)))

/-- `FibManager::SendResponse`: the response re-enters the node as Data. -/
def sendResponse (lib : NdnCxx) (n : Node) (clk : Clock) (name : Name)
    (response : ControlResponse) : Except Fault (Node × Option Forward) :=
  let content := lib.encodeResponse response
  n.handleData clk 0 ⟨name, lib.defaultFreshness, content, lib.signedSize name content⟩

/-- `FibManager::ProcessCommand`, through the node's pointer to its manager.
Component indexing is unchecked: an index past the end means nothing. -/
def processCommand (lib : NdnCxx) (n : Node) (clk : Clock) (faceId : Int)
    (request : Interest) : Except Fault (Node × Option Forward) :=
  match n.fibManager with
  | none => .error (.undefined "null m_fibManager")
  | some m =>
      let command := request.name
      match command[m.fibCmdPrefix.length]?, command[m.fibCmdPrefix.length + 1]? with
      | some verb, some parameterComponent =>
          if verb = component "register" then
            match FibManager.extractParameters lib parameterComponent with
            -- an invalid command is ignored
            | none => .ok (n, none)
            | some parameters =>
                let parameters :=
                  if parameters.faceId = none ∨ parameters.faceId = some 0 then
                    { parameters with faceId := some (UInt64.ofNat (toSize faceId)) }
                  else parameters
                match FibManager.addNextHop lib n.fib parameters with
                | .error f => .error f
                | .ok (fib, response) =>
                    sendResponse lib { n with fib := fib } clk command response
          else .ok (n, none)
      | _, _ => .error (.undefined "name component out of range")

def handleInterest (lib : NdnCxx) (n : Node) (clk : Clock) (faceId : Int) (i : Interest) :
    Except Fault (Node × Option Forward) :=
  match n.cacheManager.findMatchingData clk.find i with
  | some d => .ok (n, some (.cached d (n.forwardToFace faceId)))
  | none =>
      let (added, pit) := n.pit.addInterest clk.add faceId i
      let n := { n with pit := pit }
      if added then
        -- do not forward back to the incoming face
        let outList := (n.fib.lookUp i.name ∅).erase faceId
        if outList = ∅ then .ok (n, none)
        else if 0 ∈ outList then n.processCommand lib clk faceId i
        else .ok (n, some (.interest i (n.forwardToFaces outList)))
      else .ok (n, none)

def removeFace (n : Node) (faceId : Int) : Except Fault Node :=
  match n.fibManager with
  | none => .error (.undefined "null m_fibManager")
  | some _ =>
      .ok { n with faceTable := n.faceTable.erase faceId, fib := n.fib.cleanUp faceId }

end Node

/-! ## Everything that can happen to a node

A packet is dispatched on a face, a client connects or disconnects, a device
asks for a face, the cleanup timer of the PIT fires. Register commands are
Interests like any other. -/

inductive NodeEvent
  | interest (clk : Clock) (faceId : Int) (i : Interest)
  | data (clk : Clock) (faceId : Int) (d : Data)
  | removeFace (faceId : Int)
  | cleanUp (now : Int)
  | addLinkFace (remoteMac : MacAddr) (dev : DeviceRef)
  | accept

/-- The clock readings of an event, in order. -/
def NodeEvent.readings : NodeEvent → List Int
  | .interest clk _ _ => [clk.find, clk.add, clk.consume, clk.insert]
  | .data clk _ _ => [clk.consume, clk.insert]
  | .cleanUp now => [now]
  | .removeFace _ | .addLinkFace _ _ | .accept => []

namespace Node

def step (lib : NdnCxx) (n : Node) : NodeEvent → Except Fault (Node × Option Forward)
  | .interest clk f i => n.handleInterest lib clk f i
  | .data clk f d => n.handleData clk f d
  | .removeFace f => (n.removeFace f).map fun n' => (n', none)
  | .cleanUp now => .ok ({ n with pit := n.pit.cleanUp now }, none)
  | .addLinkFace mac dev => .ok ((n.addLinkFace mac dev).1, none)
  | .accept =>
      match n.client with
      | some face => .ok (n.handleAccept face, none)
      | none => .error (.undefined "no outstanding accept")

/-- The runs of a node: any of its events, in any order. -/
def system (lib : NdnCxx) : System Node NodeEvent (Option Forward) Fault where
  Enabled n e := e = .accept → n.client.isSome
  step := step lib

instance (lib : NdnCxx) (n : Node) (e : NodeEvent) : Decidable ((system lib).Enabled n e) :=
  match e with
  | .accept => decidable_of_iff (n.client.isSome = true) ⟨fun h _ => h, fun h => h rfl⟩
  | .interest .. | .data .. | .removeFace _ | .cleanUp _ | .addLinkFace .. =>
      isTrue fun h => by cases h

/-- Events, each with what it passed to `Send`. -/
abbrev Trace := List (NodeEvent × Option Forward)

/-- The clock never goes back along a trace. -/
def ClockForward (tr : Trace) : Prop :=
  (tr.flatMap fun x => x.1.readings).Pairwise (· ≤ ·)

instance (tr : Trace) : Decidable (ClockForward tr) :=
  inferInstanceAs (Decidable (List.Pairwise _ _))

end Node

end NdnEm
