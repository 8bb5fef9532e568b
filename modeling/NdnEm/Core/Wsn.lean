import NdnEm.Core.SensorApps

/-!
# The sensor network

One sensor and one repository, each started in a mode of its own, and the
users who ask the repository for readings. What the two put goes into the
network, and the network is no better than the emulator: a packet may be lost,
come late, come out of order and come again, so an application may be given
any packet that was ever put, or may wait for it in vain. An Interest comes to
a handler that has its prefix; a Data comes to whoever has expressed an
Interest for it and has not been called back for that one.

A timer that runs `Schedule…` sets itself again at once, so after the start
there is always one wait left and the handler may run at any time. What the
clock says is part of the event.
-/

namespace NdnEm

open Lib

/-- `OptMode`. -/
inductive OptMode
  | poll
  | push
  | notify
deriving DecidableEq, Repr

/-- `/wsn/thermometer`. -/
def thermometerPrefix : Name := [component "wsn", component "thermometer"]

namespace Sensor

def new : Sensor := ⟨0⟩

def scheduleNewReading (s : Sensor) : Except Fault Sensor :=
  (increment s.sequence).map Sensor.mk

end Sensor

/-- The two applications, and what is on its way. -/
structure Wsn where
  sensor : Sensor
  repo : Repo
  /-- `Sensor::Start` was called. -/
  sensing : Bool
  /-- `Repo::Start` was called. -/
  storing : Bool
  /-- The Interests that were put. -/
  interests : List Interest
  /-- The Data that was put. -/
  datas : List Data
  /-- The Interests the repository waits to be called back for. -/
  asked : List Interest

inductive WsnEvent
  | startSensor
  | startRepo
  | newReading
  | push (info : List UInt8) (nonce : UInt32)
  | notify (nonce : UInt32)
  /-- The sensor is given an Interest. -/
  | readInterest (i : Interest) (info : List UInt8)
  | poll (nonce : UInt32)
  | pushInterest (i : Interest)
  | notifyInterest (i : Interest) (nonce : UInt32)
  /-- The repository is called back, for an Interest, with a Data. -/
  | data (i : Interest) (d : Data)
  | timeout (i : Interest)
  | userInterest (i : Interest)

namespace Wsn

def new : Wsn := ⟨.new, .new, false, false, [], [], []⟩

/-- An Interest is expressed. -/
def express (w : Wsn) (i : Interest) : Wsn := { w with interests := i :: w.interests }

/-- The repository expresses an Interest. -/
def ask (w : Wsn) (i : Interest) : Wsn := { w.express i with asked := i :: w.asked }

/-- `m_face.put`, of what a handler makes if it makes anything. -/
def put (w : Wsn) : Option Data → Wsn
  | none => w
  | some d => { w with datas := d :: w.datas }

/-- The state after an event, and the packet that was put. -/
def step (lib : AppCxx) (w : Wsn) : WsnEvent → Except Fault (Wsn × Option Wire)
  | .startSensor =>
      w.sensor.scheduleNewReading.map fun s => ({ w with sensor := s, sensing := true }, none)
  | .startRepo => .ok ({ w with storing := true }, none)
  | .newReading => w.sensor.scheduleNewReading.map fun s => ({ w with sensor := s }, none)
  | .push info nonce =>
      let i := w.sensor.schedulePush lib info nonce
      .ok (w.express i, some (.interest i))
  | .notify nonce =>
      let i := w.sensor.scheduleNotify lib nonce
      .ok (w.express i, some (.interest i))
  | .readInterest i info =>
      (w.sensor.handleInterest lib info i).map fun d => (w.put d, d.map .data)
  | .poll nonce =>
      let i := w.repo.pollData lib nonce
      .ok (w.ask i, some (.interest i))
  | .pushInterest i =>
      (w.repo.handlePushInterest lib i).map fun (r, d) =>
        ({ w with repo := r }.put d, d.map .data)
  | .notifyInterest i nonce =>
      (Repo.handleNotifyInterest lib nonce i).map fun i => (w.ask i, some (.interest i))
  | .data i d =>
      (w.repo.handleData lib d).map fun r =>
        ({ w with repo := r, asked := w.asked.erase i }, none)
  | .timeout i =>
      .ok ({ w with repo := w.repo.handleTimeout, asked := w.asked.erase i }, none)
  | .userInterest i =>
      (w.repo.handleUserInterest lib i).map fun d => (w.put (some d), some (.data d))

/-- When an event can happen, with the sensor in mode `sm` and the repository in
mode `rm`. -/
def Enabled (sm rm : OptMode) (w : Wsn) : WsnEvent → Prop
  | .startSensor => w.sensing = false
  | .startRepo => w.storing = false
  | .newReading => w.sensing = true
  | .push _ _ => w.sensing = true ∧ sm = .push
  | .notify _ => w.sensing = true ∧ sm = .notify
  | .readInterest i _ => w.sensing = true ∧ i ∈ w.interests ∧ thermometerPrefix <+: i.name
  | .poll _ => w.storing = true ∧ rm = .poll
  | .pushInterest i => w.storing = true ∧ rm = .push ∧ i ∈ w.interests ∧ pushPrefix <+: i.name
  | .notifyInterest i _ =>
      w.storing = true ∧ rm = .notify ∧ i ∈ w.interests ∧ notifyPrefix <+: i.name
  | .data i d => i ∈ w.asked ∧ d ∈ w.datas ∧ i.name <+: d.name
  | .timeout i => i ∈ w.asked
  | .userInterest i => w.storing = true ∧ dataPrefix <+: i.name

instance (sm rm : OptMode) (w : Wsn) (e : WsnEvent) : Decidable (w.Enabled sm rm e) :=
  match e with
  | .startSensor | .startRepo | .newReading => inferInstanceAs (Decidable (_ = _))
  | .push _ _ | .notify _ | .poll _ | .userInterest _ => inferInstanceAs (Decidable (_ ∧ _))
  | .readInterest _ _ | .data _ _ => inferInstanceAs (Decidable (_ ∧ _ ∧ _))
  | .pushInterest _ | .notifyInterest _ _ => inferInstanceAs (Decidable (_ ∧ _ ∧ _ ∧ _))
  | .timeout _ => inferInstanceAs (Decidable (_ ∈ _))

def system (lib : AppCxx) (sm rm : OptMode) : System Wsn WsnEvent (Option Wire) Fault where
  Enabled := Enabled sm rm
  step := step lib

instance (lib : AppCxx) (sm rm : OptMode) (w : Wsn) (e : WsnEvent) :
    Decidable ((system lib sm rm).Enabled w e) :=
  inferInstanceAs (Decidable (w.Enabled sm rm e))

end Wsn

end NdnEm
