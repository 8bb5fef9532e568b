import NdnEm.Core.Link
import NdnEm.Lib.Run
import NdnEm.Lib.Timer

/-!
# The link device

A radio with a transmit queue, one PHY state and two timers. The receive timer
ends the reception that `StartRx` began. The csma timer does two jobs: it ends
a backoff, and it ends a transmission; `DoCsma` tells them apart by the state
it finds, not by the arguments it was armed with.

`PostRx` goes on to the face of the packet's sender, and `StartTx` writes the
source address of the packet. Both reach outside the device and are completed
one layer up; here they answer the packet received, and whether the packet was
accepted.

A backoff is drawn from `0 .. 2 ^ BE - 1`. The raw draw comes with the event.
-/

namespace NdnEm

open Lib

inductive PhyState
  | idle
  | tx
  | rx
  | rxCollide
  | sleep
  | failure
deriving DecidableEq, Repr

def phyStateToString : PhyState → String
  | .idle => "IDLE"
  | .tx => "TX"
  | .rx => "RX"
  | .rxCollide => "RX_COLLIDE"
  | .sleep => "SLEEP"
  | .failure => "FAILURE"

structure LinkDevice where
  macAddr : MacAddr
  /-- The link the device is attached to, by id. -/
  link : String
  rxTimer : Timer Unit
  /-- Carries `NB` and `BE`. -/
  csmaTimer : Timer (Int × Int)
  state : PhyState
  pendingRx : Option Packet
  txQueue : List Packet
  txQueueLimit : Nat
  /-- The id of the link face to each remote MAC. -/
  faces : FinMap MacAddr Int

/-- What a callback of the device did, to its packets. -/
inductive DeviceOut
  | quiet
  | enqueued (p : Packet)
  | received (p : Packet)
  | transmit (p : Packet)
  | finished (p : Packet)
  | gaveUp (p : Packet)
deriving DecidableEq, Repr

namespace LinkDevice

/-- In microseconds. -/
def symbolTime : Int := 16
def backoffPeriod : Int := 20 * symbolTime
def minBE : Int := 3
def maxBE : Int := 5
def maxCsmaBackoffs : Int := 4

def new (macAddr : MacAddr) (link : String) (txLimit : Nat) : LinkDevice where
  macAddr := macAddr
  link := link
  rxTimer := .unarmed
  csmaTimer := .unarmed
  state := .idle
  pendingRx := none
  txQueue := []
  txQueueLimit := txLimit
  faces := ∅

/-- `rand (m_engine) * BACKOFF_PERIOD`. -/
def backoff (raw : Nat) (be : Int) : Int := (raw % 2 ^ be.toNat : Nat) * backoffPeriod

variable (mode : Rearm) (l : Link) (now : Int)

def startRx (d : LinkDevice) (p : Packet) : Except Fault LinkDevice :=
  match d.state with
  | .idle =>
      .ok { d with
        state := .rx
        pendingRx := some p
        rxTimer := d.rxTimer.arm mode (now + l.txDelay p.getLength) () }
  | .rx | .rxCollide =>
      .ok { d with
        state := .rxCollide
        pendingRx := some p
        rxTimer := d.rxTimer.arm mode (now + l.txDelay p.getLength) () }
  -- collision will happen at other nodes on the link
  | .tx => .ok d
  | .sleep | .failure =>
      .error (.runtimeError
        ("[LinkDevice::StartRx] illegal state: " ++ phyStateToString d.state))

def postRx (d : LinkDevice) : Except Fault (LinkDevice × DeviceOut) :=
  match d.state with
  | .rx =>
      match d.pendingRx with
      | none => .error (.undefined "null m_pendingRx")
      | some p => .ok ({ d with state := .idle }, .received p)
  | .rxCollide => .ok ({ d with state := .idle }, .quiet)
  -- a handler that should have been cancelled
  | .idle => .ok ({ d with state := .idle }, .quiet)
  | .tx | .sleep | .failure =>
      .error (.runtimeError
        ("[LinkDevice::PostRx] illegal state: " ++ phyStateToString d.state))

def startCsma (raw : Nat) (d : LinkDevice) : LinkDevice :=
  { d with csmaTimer := d.csmaTimer.arm mode (now + backoff raw minBE) (0, minBE) }

/-- None when the packet is dropped, for its length or for lack of room. -/
def startTx (raw : Nat) (d : LinkDevice) (p : Packet) : Option LinkDevice :=
  if p.getLength > l.mtu then none
  else if d.txQueue.length < d.txQueueLimit then
    some (startCsma mode now raw { d with txQueue := d.txQueue ++ [p] })
  else none

def doCsma (raw : Nat) (d : LinkDevice) (nb be : Int) :
    Except Fault (LinkDevice × DeviceOut) :=
  match d.txQueue with
  | [] => .error (.assertion "m_txQueue.size () >= 1")
  | p :: rest =>
      match d.state with
      | .idle =>
          .ok ({ d with
            state := .tx
            csmaTimer := d.csmaTimer.arm mode (now + l.txDelay p.getLength) (-1, -1) },
            .transmit p)
      | .rx | .rxCollide =>
          let nb := nb + 1
          if nb > maxCsmaBackoffs then
            -- the state is left as it is: the receive path will reset it
            let d := { d with txQueue := rest }
            .ok (if rest.length ≠ 0 then startCsma mode now raw d else d, .gaveUp p)
          else
            let be := if be + 1 > maxBE then maxBE else be + 1
            .ok ({ d with csmaTimer := d.csmaTimer.arm mode (now + backoff raw be) (nb, be) },
              .quiet)
      | .tx =>
          let d := { d with txQueue := rest, state := .idle }
          .ok (if rest.length ≠ 0 then startCsma mode now raw d else d, .finished p)
      | .sleep | .failure =>
          .error (.runtimeError
            ("[LinkDevice::DoCsma] illegal state: " ++ phyStateToString d.state))

/-! ## The device on its own

Its two timers, with the handlers that are queued for them, and the calls from
outside at any time. -/

inductive TimerEvent
  | rxExpire
  | postRx
  | postRxLate (k : Nat)
  | csmaExpire
  | doCsma (raw : Nat)
  | doCsmaLate (k : Nat) (raw : Nat)
deriving DecidableEq, Repr

/-- A wait expires when it is due, and handlers run when they are queued. -/
def CanFire (d : LinkDevice) : TimerEvent → Prop
  | .rxExpire => d.rxTimer.Due now
  | .postRx => d.rxTimer.ready.isSome
  | .postRxLate k => k < d.rxTimer.late.length
  | .csmaExpire => d.csmaTimer.Due now
  | .doCsma _ => d.csmaTimer.ready.isSome
  | .doCsmaLate k _ => k < d.csmaTimer.late.length

def fire (d : LinkDevice) : TimerEvent → Except Fault (LinkDevice × DeviceOut)
  | .rxExpire => .ok ({ d with rxTimer := d.rxTimer.expire }, .quiet)
  | .postRx => postRx { d with rxTimer := d.rxTimer.take }
  | .postRxLate k => postRx { d with rxTimer := d.rxTimer.takeLate k }
  | .csmaExpire => .ok ({ d with csmaTimer := d.csmaTimer.expire }, .quiet)
  | .doCsma raw =>
      match d.csmaTimer.ready with
      | none => .error (.undefined "no csma handler is queued")
      | some (nb, be) =>
          doCsma mode l now raw { d with csmaTimer := d.csmaTimer.take } nb be
  | .doCsmaLate k raw =>
      match d.csmaTimer.late[k]? with
      | none => .error (.undefined "no csma handler is queued")
      | some (nb, be) =>
          doCsma mode l now raw { d with csmaTimer := d.csmaTimer.takeLate k } nb be

instance (d : LinkDevice) (e : TimerEvent) : Decidable (d.CanFire now e) :=
  match e with
  | .rxExpire => inferInstanceAs (Decidable (d.rxTimer.Due now))
  | .postRx => inferInstanceAs (Decidable (d.rxTimer.ready.isSome = true))
  | .postRxLate k => inferInstanceAs (Decidable (k < d.rxTimer.late.length))
  | .csmaExpire => inferInstanceAs (Decidable (d.csmaTimer.Due now))
  | .doCsma _ => inferInstanceAs (Decidable (d.csmaTimer.ready.isSome = true))
  | .doCsmaLate k _ => inferInstanceAs (Decidable (k < d.csmaTimer.late.length))

end LinkDevice

/-- A device and the clock its timers read. -/
structure Timed where
  dev : LinkDevice
  now : Int

inductive DeviceEvent
  | startTx (p : Packet) (raw : Nat)
  | startRx (p : Packet)
  | timer (e : LinkDevice.TimerEvent)
  | tick (n : Nat)
deriving DecidableEq, Repr

namespace Timed

variable (mode : Rearm) (l : Link)

def step (s : Timed) : DeviceEvent → Except Fault (Timed × DeviceOut)
  | .startTx p raw =>
      match s.dev.startTx mode l s.now raw p with
      | some d => .ok ({ s with dev := d }, .enqueued p)
      | none => .ok (s, .quiet)
  | .startRx p => (s.dev.startRx mode l s.now p).map fun d => ({ s with dev := d }, .quiet)
  | .timer e => (s.dev.fire mode l s.now e).map fun r => ({ s with dev := r.1 }, r.2)
  | .tick n => .ok ({ s with now := s.now + n }, .quiet)

def Enabled (s : Timed) : DeviceEvent → Prop
  | .timer e => s.dev.CanFire s.now e
  | .startTx .. | .startRx _ | .tick _ => True

instance (s : Timed) (e : DeviceEvent) : Decidable (s.Enabled e) :=
  match e with
  | .timer e => inferInstanceAs (Decidable (s.dev.CanFire s.now e))
  | .startTx .. | .startRx _ | .tick _ => isTrue trivial

/-- The runs of a device on a link: calls, callbacks and the passing of time,
in any order. -/
def system : System Timed DeviceEvent DeviceOut Fault where
  Enabled := Enabled
  step := step mode l

end Timed

end NdnEm
