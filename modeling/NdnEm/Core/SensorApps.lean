import NdnEm.Core.Node

/-!
# The sensor and its repository

Two applications that talk over the emulated network: a sensor with a numbered
reading, and a repository that stores what it gets of it under names of its
own. A reading is either polled, as the content of a Data, or pushed, as a
component of an Interest's name.

Encoding, number parsing and signing belong to the libraries and come in as a
record of functions. The bytes of a reading are the memory of a `SensorInfo`;
the clock fills half of it, so a handler is given them.
-/

namespace NdnEm

open Lib

/-- A TLV block: its type, its value, and the bytes of the whole. -/
structure TlvBlock where
  type : Nat
  value : List UInt8
  wire : List UInt8
deriving DecidableEq, Repr

def tlvNameComponent : Nat := 8
def tlvContent : Nat := 21

/-- What the applications call of their libraries. -/
structure AppCxx where
  toUri : Component → String
  /-- `boost::lexical_cast<int>`; `none` is a `bad_lexical_cast`. -/
  lexicalCastInt : String → Option Int
  /-- `boost::lexical_cast<std::string>`, of an `int`. -/
  lexicalCastString : Int → String
  /-- The wire of a block, from its type and its value. -/
  encode : Nat → List UInt8 → List UInt8
  /-- The size of an Interest on the wire. -/
  interestSize : Name → Nat
  /-- The size of a Data on the wire, once it is signed. -/
  signedSize : Name → List UInt8 → Nat

namespace AppCxx

def wireEncode (lib : AppCxx) (c : Component) : TlvBlock :=
  ⟨tlvNameComponent, c, lib.encode tlvNameComponent c⟩

def getContent (lib : AppCxx) (d : Data) : TlvBlock :=
  ⟨tlvContent, d.content, lib.encode tlvContent d.content⟩

/-- The bytes `Data::setContent` makes the content: a Content block is used as
it is, and any other is wrapped in one. -/
def setContent (b : TlvBlock) : List UInt8 :=
  if b.type = tlvContent then b.value else b.wire

/-- A signed Data. -/
def makeData (lib : AppCxx) (name : Name) (freshnessPeriod : Int) (content : List UInt8) : Data :=
  ⟨name, freshnessPeriod, content, lib.signedSize name content⟩

def makeInterest (lib : AppCxx) (name : Name) (nonce : UInt32) : Interest :=
  ⟨name, nonce, 2000, true, lib.interestSize name⟩

/-- The component a number is written as. -/
def number (lib : AppCxx) (n : Int) : Component := component (lib.lexicalCastString n)

/-- The number a component is read as. -/
def readNumber (lib : AppCxx) (c : Component) : Option Int := lib.lexicalCastInt (lib.toUri c)

end AppCxx

/-- The exception a component that is no number ends in. -/
def badLexicalCast : Fault := .runtimeError "bad lexical cast"

/-- An `int` that is incremented must not be the last one. -/
def increment (n : Int) : Except Fault Int :=
  if n + 1 < 2 ^ 31 then .ok (n + 1) else .error (.undefined "signed integer overflow")

/-- `/wsn/thermometer/read`. -/
def readPrefix : Name := [component "wsn", component "thermometer", component "read"]

/-- `/wsn/data/temperature`. -/
def dataPrefix : Name := [component "wsn", component "data", component "temperature"]

/-- `/wsn/repo/push`. -/
def pushPrefix : Name := [component "wsn", component "repo", component "push"]

/-- `/wsn/repo/notify`. -/
def notifyPrefix : Name := [component "wsn", component "repo", component "notify"]

/-! ## The sensor -/

structure Sensor where
  sequence : Int
deriving DecidableEq, Repr

namespace Sensor

/-- The Data that answers an Interest, if the Interest is not discarded. -/
def handleInterest (lib : AppCxx) (s : Sensor) (info : List UInt8) (i : Interest) :
    Except Fault (Option Data) :=
  match i.name with
  | [_, _, _] =>
      .ok (some (lib.makeData (i.name ++ [lib.number s.sequence]) 5000 info))
  | [_, _, _, seq] =>
      match lib.readNumber seq with
      | none => .error badLexicalCast
      | some seqNum =>
          -- out of sync
          if seqNum ≠ s.sequence then .ok none
          else .ok (some (lib.makeData i.name 5000 info))
  | _ => .ok (some (lib.makeData i.name 5000 info))

def schedulePush (lib : AppCxx) (s : Sensor) (info : List UInt8) (nonce : UInt32) : Interest :=
  lib.makeInterest (pushPrefix ++ [lib.number s.sequence, info]) nonce

def scheduleNotify (lib : AppCxx) (s : Sensor) (nonce : UInt32) : Interest :=
  lib.makeInterest (notifyPrefix ++ [lib.number s.sequence]) nonce

end Sensor

/-! ## The repository -/

structure Repo where
  store : FinMap Int Data
  sequence : Int

namespace Repo

def new : Repo := ⟨∅, -1⟩

/-- The Data a reading is stored as. -/
def repoData (lib : AppCxx) (seq : Component) (content : TlvBlock) : Data :=
  lib.makeData (dataPrefix ++ [seq]) 5000 (AppCxx.setContent content)

/-- What is done with a reading, polled or pushed: the repository after it, and
whether it was new. -/
def storeReading (lib : AppCxx) (r : Repo) (seq : Component) (content : TlvBlock) :
    Except Fault (Repo × Bool) :=
  match lib.readNumber seq with
  | none => .error badLexicalCast
  | some seqNum =>
      if seqNum ∈ r.store.keys then .ok (r, false)
      else
        let store := r.store.insert seqNum (repoData lib seq content)
        -- the Data is in the store before the number overflows
        match increment seqNum with
        | .error f => .error f
        | .ok next => .ok (⟨store, next⟩, true)

def handleData (lib : AppCxx) (r : Repo) (d : Data) : Except Fault Repo :=
  match d.name with
  | [_, _, _, seq] => (r.storeReading lib seq (lib.getContent d)).map (·.1)
  | _ => .error (.assertion "dName.size () == 4")

/-- The repository, and the acknowledgement of a reading that is new. -/
def handlePushInterest (lib : AppCxx) (r : Repo) (i : Interest) :
    Except Fault (Repo × Option Data) :=
  match i.name with
  | [_, _, _, seq, value] =>
      let info := lib.wireEncode value
      (r.storeReading lib seq info).map fun (r', stored) =>
        (r', if stored then
          some (lib.makeData (i.name ++ [component "ack"]) 100 (AppCxx.setContent info))
        else none)
  | _ => .error (.assertion "iName.size () == 5")

def handleTimeout (r : Repo) : Repo := { r with sequence := -1 }

/-- The Interest that a notification is followed by. -/
def handleNotifyInterest (lib : AppCxx) (nonce : UInt32) (i : Interest) : Except Fault Interest :=
  match i.name with
  | [_, _, _, seq] => .ok (lib.makeInterest (readPrefix ++ [seq]) nonce)
  | _ => .error (.assertion "iName.size () == 4")

def pollData (lib : AppCxx) (r : Repo) (nonce : UInt32) : Interest :=
  if r.sequence ≠ -1 then lib.makeInterest (readPrefix ++ [lib.number r.sequence]) nonce
  else lib.makeInterest readPrefix nonce

/-- `m_store.rbegin ()`: the Data under the greatest key. -/
def last (r : Repo) : Option Data := (ascending r.store.keys).getLast?.bind r.store.find

/-- The Data that is put. -/
def handleUserInterest (lib : AppCxx) (r : Repo) (i : Interest) : Except Fault Data :=
  match i.name with
  | [_, _, _, seq] =>
      match lib.readNumber seq with
      | none => .error badLexicalCast
      | some seqNum =>
          match r.store.find seqNum with
          -- the pointer is still null
          | none => .error (.undefined "null shared_ptr<Data>")
          | some d => .ok d
  | _ =>
      match r.last with
      | none => .error (.undefined "rbegin () of an empty map")
      | some d => .ok d

end Repo

/-! ## Runs of the repository -/

inductive RepoEvent
  | data (d : Data)
  | pushInterest (i : Interest)
  | timeout

namespace Repo

/-- The repository after an event, and what it put. -/
def step (lib : AppCxx) (r : Repo) : RepoEvent → Except Fault (Repo × Option Data)
  | .data d => (r.handleData lib d).map fun r' => (r', none)
  | .pushInterest i => r.handlePushInterest lib i
  | .timeout => .ok (r.handleTimeout, none)

def system (lib : AppCxx) : System Repo RepoEvent (Option Data) Fault where
  Enabled _ _ := True
  step := step lib

end Repo

end NdnEm
