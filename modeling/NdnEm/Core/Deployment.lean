import NdnEm.Core.Emulator
import NdnEm.Core.Wsn

/-!
# The sensor network, deployed

The sensor and the repository as what they are: clients of two nodes of the
emulated network, among other clients. What an application puts waits in its
socket until the node receives it, and what the node sends it is all that it is
given; its library may call a handler for a packet late, or more than once. The
other clients send what they like, as long as it is not meant for the two and
does not pretend to come from them: users' requests, register commands, and
traffic of their own.
-/

namespace NdnEm

open Lib

/-- A client of a node, by its face. -/
structure Client where
  node : String
  face : Int
deriving DecidableEq, Repr

/-- An application's socket: what it has put and the node has not received, and
what the node has sent it. -/
structure Socket where
  outgoing : List Wire
  incoming : List Wire

/-- The packet that is received from a client. -/
def Event.takes (c : Client) : Event → Option Wire
  | .appReceive id face _ _ (.packet w) => if ⟨id, face⟩ = c then some w else none
  | _ => none

/-- The packet that is sent to a client. -/
def Output.gives (c : Client) : Output → Option Wire
  | .forward id fw => if id = c.node ∧ c.face ∈ fw.faces then some fw.wire else none
  | .quiet | .device _ _ => none

namespace Socket

def put (s : Socket) (w : Option Wire) : Socket := { s with outgoing := s.outgoing ++ w.toList }

/-- The client's end of what the network does. -/
def serve (s : Socket) (c : Client) (e : Event) (o : Output) : Socket where
  outgoing := if e.takes c = s.outgoing.head? then s.outgoing.tail else s.outgoing
  incoming := s.incoming ++ (o.gives c).toList

end Socket

def Wire.asInterest : Wire → Option Interest
  | .interest i => some i
  | .data _ => none

def Wire.asData : Wire → Option Data
  | .interest _ => none
  | .data d => some d

/-- A packet that is not for the two applications, nor could be taken for theirs. -/
def Wire.Foreign : Wire → Prop
  | .interest i =>
      ¬ thermometerPrefix <+: i.name ∧ ¬ pushPrefix <+: i.name ∧ ¬ notifyPrefix <+: i.name
  | .data d => ¬ readPrefix <+: d.name ∧ ¬ dataPrefix <+: d.name

instance (w : Wire) : Decidable w.Foreign :=
  match w with
  | .interest _ | .data _ => inferInstanceAs (Decidable (_ ∧ _))

/-- Where the two applications are connected. -/
structure Sites where
  sensor : Client
  repo : Client

structure Deployment where
  em : Emulator
  wsn : Wsn
  sensor : Socket
  repo : Socket

inductive DeploymentEvent
  | network (e : Event)
  | application (e : WsnEvent)

inductive DeploymentOut
  | network (o : Output)
  | application (o : Option Wire)

/-- It happens at the sensor, and not at the repository. -/
def WsnEvent.atSensor : WsnEvent → Bool
  | .startSensor | .newReading | .push _ _ | .notify _ | .readInterest _ _ => true
  | .startRepo | .poll _ | .pushInterest _ | .notifyInterest _ _ | .data _ _ | .timeout _
  | .userInterest _ => false

namespace Deployment

/-- The network has been started, and the applications have not. -/
def new (em : Emulator) : Deployment := ⟨em, .new, ⟨[], []⟩, ⟨[], []⟩⟩

/-- What was put goes into the socket of the application that put it. -/
def put (d : Deployment) (e : WsnEvent) (o : Option Wire) : Deployment :=
  if e.atSensor then { d with sensor := d.sensor.put o } else { d with repo := d.repo.put o }

def step (mode : Rearm) (lib : NdnCxx) (app : AppCxx) (sites : Sites) (d : Deployment) :
    DeploymentEvent → Except Fault (Deployment × DeploymentOut)
  | .network e =>
      match d.em.step mode lib e with
      | .error f => .error f
      | .ok (em, o) =>
          .ok (⟨em, d.wsn, d.sensor.serve sites.sensor e o, d.repo.serve sites.repo e o⟩,
            .network o)
  | .application e =>
      match d.wsn.step app e with
      | .error f => .error f
      | .ok (w, o) => .ok (({ d with wsn := w }).put e o, .application o)

/-- What a client may bring: a packet of no concern, or the next one that the
application there has put. -/
def Brings (sites : Sites) (d : Deployment) : Event → Prop
  | .appReceive id face _ _ (.packet w) => w.Foreign ∨
      (⟨id, face⟩ = sites.sensor ∧ d.sensor.outgoing.head? = some w) ∨
      (⟨id, face⟩ = sites.repo ∧ d.repo.outgoing.head? = some w)
  | _ => True

/-- The applications, if what was put were what the node has sent the one that
the event is about. -/
def given (d : Deployment) (e : WsnEvent) : Wsn :=
  let incoming := if e.atSensor then d.sensor.incoming else d.repo.incoming
  { d.wsn with
    interests := incoming.filterMap Wire.asInterest
    datas := incoming.filterMap Wire.asData }

def Enabled (sites : Sites) (sm rm : OptMode) (d : Deployment) : DeploymentEvent → Prop
  | .network e => d.em.Enabled e ∧ d.Brings sites e
  | .application e => (d.given e).Enabled sm rm e

def system (mode : Rearm) (lib : NdnCxx) (app : AppCxx) (sites : Sites) (sm rm : OptMode) :
    System Deployment DeploymentEvent DeploymentOut Fault where
  Enabled := Enabled sites sm rm
  step := step mode lib app sites

instance (sites : Sites) (d : Deployment) (e : Event) : Decidable (d.Brings sites e) :=
  match e with
  | .appReceive _ _ _ _ blk =>
      match blk with
      | .packet _ => inferInstanceAs (Decidable (_ ∨ _ ∨ _))
      | .malformed | .unknown => isTrue trivial
  | .appClose _ _ | .accept _ | .cleanUp _ _ | .run _ _ _ _ | .timer _ _ | .tick _ =>
      isTrue trivial

instance (mode : Rearm) (lib : NdnCxx) (app : AppCxx) (sites : Sites) (sm rm : OptMode)
    (d : Deployment) (e : DeploymentEvent) :
    Decidable ((system mode lib app sites sm rm).Enabled d e) :=
  match e with
  | .network _ => inferInstanceAs (Decidable (_ ∧ _))
  | .application e => inferInstanceAs (Decidable ((d.given e).Enabled sm rm e))

end Deployment

end NdnEm
