import NdnEm.Core.Config

/-!
# The cleanup timers

The table of pending Interests has a timer that a node arms when it starts. Its
handler drops what has expired and arms the timer again, so that nobody else
ever has to. Here these timers stand beside the emulator, whose own cleanup
event comes at any time: a cleanup now runs when its timer has fired, and not
otherwise.

The timers and the expiries of the records go by the same wall clock. `clock` is
its latest reading, and no handler reads an earlier one. A handler takes its
time: the cleanup is computed at one reading, and the timer is armed by a later
one.

`CleanUp` returns at once when it is called with an error, which is what a wait
gets that was cancelled. Waits are cancelled when their timer is armed again,
and this one is armed again only by the handler it has just called.
-/

namespace NdnEm

open Lib

/-- A network with the `m_cleanupTimer` of each node's table. -/
structure Upkeep where
  em : Emulator
  cleanupTimer : FinMap String (Timer Unit)
  clock : Int

namespace Pit

/-- `m_cleanupInterval`, in milliseconds. -/
def cleanupInterval : Int := 10000

/-- `ScheduleCleanUp`, at that reading of the clock. -/
def scheduleCleanUp (mode : Rearm) (t : Timer Unit) (now : Int) : Timer Unit :=
  t.arm mode (now + cleanupInterval) ()

end Pit

inductive UpkeepEvent
  /-- A handler of the emulator that is not a cleanup. -/
  | handler (e : Event)
  /-- Time passes, up to that reading. -/
  | pass (later : Int)
  /-- The timer of that node fires. -/
  | expire (node : String)
  /-- The cleanup of that node is computed at one reading of the clock, and the
  next one is scheduled by another. -/
  | cleanUp (node : String) (now next : Int)

def Event.isCleanUp : Event → Bool
  | .cleanUp .. => true
  | .appReceive .. | .appClose .. | .accept _ | .run .. | .timer .. | .tick _ => false

/-- The latest reading when the event is over. -/
def UpkeepEvent.ends (clock : Int) : UpkeepEvent → Int
  | .handler e => e.clock.elim clock (·.insert)
  | .pass later => later
  | .expire _ => clock
  | .cleanUp _ _ next => next

namespace Upkeep

variable (mode : Rearm) (lib : NdnCxx)

/-- `Emulator::Start`: each node arms its timer, at its own reading. -/
def start (em : Emulator) (reading : String → Int) (now : Int) : Upkeep where
  em := em.start
  cleanupTimer := em.nodeTable.filterMap fun id _ =>
    some (Pit.scheduleCleanUp mode .unarmed (reading id))
  clock := now

def Enabled (s : Upkeep) : UpkeepEvent → Prop
  | .handler e =>
      s.em.Enabled e ∧ e.isCleanUp = false ∧ ∀ clk ∈ e.clock, s.clock ≤ clk.find
  | .pass later => s.clock ≤ later
  | .expire id => ∃ t ∈ s.cleanupTimer.find id, t.Due s.clock
  | .cleanUp id now next =>
      s.clock ≤ now ∧ now ≤ next ∧ ∃ t ∈ s.cleanupTimer.find id, t.ready = some ()

instance (s : Upkeep) (e : UpkeepEvent) : Decidable (s.Enabled e) :=
  match e with
  | .handler _ => inferInstanceAs (Decidable (_ ∧ _ ∧ ∀ _ ∈ _, _))
  | .pass _ => inferInstanceAs (Decidable (_ ≤ _))
  | .expire _ => inferInstanceAs (Decidable (∃ _ ∈ _, _))
  | .cleanUp _ _ _ => inferInstanceAs (Decidable (_ ∧ _ ∧ ∃ _ ∈ _, _))

def step (s : Upkeep) (e : UpkeepEvent) : Except Fault (Upkeep × Output) :=
  match e with
  | .handler ev =>
      (s.em.step mode lib ev).map fun (em, o) => ({ s with em := em, clock := e.ends s.clock }, o)
  | .pass _ => .ok ({ s with clock := e.ends s.clock }, .quiet)
  | .expire id =>
      match s.cleanupTimer.find id with
      | none => .error (.undefined "null m_cleanupTimer")
      | some t => .ok ({ s with cleanupTimer := s.cleanupTimer.insert id t.expire }, .quiet)
  | .cleanUp id now next =>
      match s.cleanupTimer.find id with
      | none => .error (.undefined "null m_cleanupTimer")
      | some t =>
          (s.em.step mode lib (.cleanUp id now)).map fun (em, o) =>
            ({ em := em
               cleanupTimer := s.cleanupTimer.insert id (Pit.scheduleCleanUp mode t.take next)
               clock := e.ends s.clock }, o)

/-- The runs of a network whose cleanups are timed. -/
def system : System Upkeep UpkeepEvent Output Fault where
  Enabled := Enabled
  step := step mode lib

/-- When the event is over, no timer is overdue by more than `slack`. -/
def Prompt (slack : Int) (s : Upkeep) (e : UpkeepEvent) : Prop :=
  ∀ id ∈ s.cleanupTimer.keys, ∀ t ∈ s.cleanupTimer.find id, ∀ w ∈ t.wait,
    e.ends s.clock ≤ w.expiry + slack

instance (slack : Int) (s : Upkeep) (e : UpkeepEvent) : Decidable (Prompt slack s e) :=
  inferInstanceAs (Decidable (∀ _ ∈ _, ∀ _ ∈ _, ∀ _ ∈ _, _))

instance (s : Upkeep) (e : UpkeepEvent) : Decidable ((system mode lib).Enabled s e) :=
  inferInstanceAs (Decidable (s.Enabled e))

instance (slack : Int) (s : Upkeep) (e : UpkeepEvent) :
    Decidable (((system mode lib).restrict (Prompt slack)).Enabled s e) :=
  inferInstanceAs (Decidable (s.Enabled e ∧ Prompt slack s e))

end Upkeep

end NdnEm
