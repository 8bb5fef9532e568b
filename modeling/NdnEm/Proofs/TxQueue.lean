import NdnEm.Lib.Line
import NdnEm.Proofs.DeviceStep

/-!
# The transmit queue is a waiting line

A packet joins at the back when `StartTx` accepts it. What happens at the
front is decided by the PHY state alone: an idle device puts the head on the
air, a device in TX removes it as sent, and a device that hears something
removes it once its backoffs are used up. Since only `DoCsma` enters TX or
leaves it, the head has been handed to the link exactly while the state is TX,
whichever handlers run and however late.

So the queue is a line whose server is busy in TX, and it conserves what lines
conserve.
-/

namespace NdnEm

open Lib

/-- What a callback did to the transmit queue. -/
def DeviceOut.turn : DeviceOut → Line.Turn Packet
  | .enqueued p => .arrive p
  | .transmit p => .start p
  | .finished p => .finish p
  | .gaveUp p => .giveUp p
  | .quiet => .other
  | .received _ => .other

namespace LinkDevice

variable {mode : Rearm} {l : Link} {now : Int} {raw : Nat} {d d' : LinkDevice}
  {p : Packet} {o : DeviceOut} {nb be : Int}

/-- The transmit queue, with the transmitter as its server. -/
def line (d : LinkDevice) : Line Packet := ⟨d.txQueue, d.state = .tx⟩

theorem line_of_tx (h : d.state = .tx) : d.line = ⟨d.txQueue, true⟩ := by
  unfold line
  rw [h]
  rfl

theorem line_of_ne (h : d.state ≠ .tx) : d.line = ⟨d.txQueue, false⟩ := by
  unfold line
  rw [decide_eq_false h]

theorem Hearing.ne_tx (h : d.Hearing) : d.state ≠ .tx := by
  intro htx
  rcases h with hrx | hrx
  · rw [htx] at hrx
    cases hrx
  · rw [htx] at hrx
    cases hrx

theorem startTx_line (h : d.startTx mode l now raw p = some d') :
    d.line.Step (.arrive p) d'.line ∧ d'.txQueue.length ≤ d.txQueueLimit ∧
      d'.txQueueLimit = d.txQueueLimit := by
  obtain ⟨_, hroom, rfl⟩ := startTx_cases h
  refine ⟨.arrive d.line p, ?_, rfl⟩
  show (d.txQueue ++ [p]).length ≤ d.txQueueLimit
  rw [List.length_append, List.length_singleton]
  omega

/-- What the receive path does to the state, the queue does not notice. -/
theorem line_eq (hq : d'.txQueue = d.txQueue) (htx : d'.state = .tx ↔ d.state = .tx) :
    d'.line = d.line := by
  unfold line
  rw [hq, decide_eq_decide.mpr htx]

theorem startRx_line (h : d.startRx mode l now p = .ok d') :
    d'.line = d.line ∧ d'.txQueueLimit = d.txQueueLimit := by
  rcases startRx_cases h with ⟨_, rfl⟩ | ⟨hst, st, hrx, _, rfl⟩
  · exact ⟨rfl, rfl⟩
  · refine ⟨line_eq rfl (iff_of_false ?_ ?_), rfl⟩
    · rcases hrx with hrx | hrx <;> simp [hrx]
    · rcases hst with hidle | hhear
      · simp [hidle]
      · exact hhear.ne_tx

theorem postRx_line (h : d.postRx = .ok (d', o)) :
    d'.line = d.line ∧ o.turn = .other ∧ d'.txQueueLimit = d.txQueueLimit := by
  obtain ⟨rfl, hcase⟩ := postRx_cases h
  have hnot : d.state ≠ .tx := by
    rcases hcase with ⟨hrx, _⟩ | ⟨hrx | hidle, _⟩
    · simp [hrx]
    · simp [hrx]
    · simp [hidle]
  refine ⟨line_eq rfl (iff_of_false (by simp) hnot), ?_, rfl⟩
  rcases hcase with ⟨_, q, _, rfl⟩ | ⟨_, rfl⟩
  · rfl
  · rfl

theorem serveNext_line : (serveNext mode now raw d).line = d.line :=
  line_eq serveNext_txQueue (by rw [serveNext_state])

theorem serveNext_limit : (serveNext mode now raw d).txQueueLimit = d.txQueueLimit := by
  unfold serveNext
  split <;> rfl

/-- `DoCsma` serves the head of the line, whatever handler calls it. -/
theorem doCsma_line (h : d.doCsma mode l now raw nb be = .ok (d', o)) :
    d.line.Step o.turn d'.line ∧ d'.txQueue.length ≤ d.txQueue.length ∧
      d'.txQueueLimit = d.txQueueLimit := by
  obtain ⟨p, rest, hq, hcase⟩ := doCsma_cases h
  have hrest : rest.length ≤ d.txQueue.length := by
    rw [hq, List.length_cons]
    omega
  rcases hcase with ⟨hidle, rfl, rfl⟩ | ⟨_, _, rfl, rfl⟩ | ⟨hhear, _, rfl, rfl⟩ | ⟨htx, rfl, rfl⟩
  · refine ⟨?_, Nat.le_refl _, rfl⟩
    rw [line_of_ne (by simp [hidle]), line_of_tx rfl, hq]
    exact .start p rest
  · exact ⟨.other d.line, Nat.le_refl _, rfl⟩
  · rw [serveNext_line, serveNext_txQueue, serveNext_limit]
    refine ⟨?_, hrest, rfl⟩
    have hnext : line { d with txQueue := rest } = ⟨rest, false⟩ := line_of_ne hhear.ne_tx
    rw [line_of_ne hhear.ne_tx, hnext, hq]
    exact .giveUp p rest
  · rw [serveNext_line, serveNext_txQueue, serveNext_limit]
    refine ⟨?_, hrest, rfl⟩
    have hnext : line { d with txQueue := rest, state := .idle } = ⟨rest, false⟩ :=
      line_of_ne (by simp)
    rw [line_of_tx htx, hnext, hq]
    exact .finish p rest

theorem fire_line {e : TimerEvent} (h : d.fire mode l now e = .ok (d', o)) :
    d.line.Step o.turn d'.line ∧ d'.txQueue.length ≤ d.txQueue.length ∧
      d'.txQueueLimit = d.txQueueLimit := by
  rcases fire_cases h with ⟨_, rfl, rfl⟩ | ⟨_, rfl, rfl⟩ | ⟨t, _, hpost⟩ |
    ⟨raw, t, nb, be, _, hcsma⟩
  · exact ⟨.other d.line, Nat.le_refl _, rfl⟩
  · exact ⟨.other d.line, Nat.le_refl _, rfl⟩
  · obtain ⟨hline, hturn, hlimit⟩ := postRx_line hpost
    have hsame : d'.line = d.line := hline
    have hqueue : d'.txQueue = d.txQueue := congrArg Line.waiting hsame
    rw [hsame, hturn, hqueue]
    exact ⟨.other d.line, Nat.le_refl _, hlimit⟩
  · have hline := doCsma_line hcsma
    exact hline

end LinkDevice

namespace Timed

open LinkDevice

variable {mode : Rearm} {l : Link} {s s' : Timed} {e : DeviceEvent} {o : DeviceOut}
  {tr : List (DeviceEvent × DeviceOut)}

theorem step_line (h : s.step mode l e = .ok (s', o))
    (hlen : s.dev.txQueue.length ≤ s.dev.txQueueLimit) :
    s.dev.line.Step o.turn s'.dev.line ∧ s'.dev.txQueue.length ≤ s.dev.txQueueLimit ∧
      s'.dev.txQueueLimit = s.dev.txQueueLimit := by
  cases e with
  | startTx p raw =>
      rcases step_startTx h with ⟨d, hd, rfl, rfl⟩ | ⟨_, rfl, rfl⟩
      · exact startTx_line hd
      · exact ⟨.other _, hlen, rfl⟩
  | startRx p =>
      obtain ⟨hrx, _, rfl⟩ := step_startRx h
      obtain ⟨hline, hlimit⟩ := startRx_line hrx
      have hqueue : s'.dev.txQueue = s.dev.txQueue := congrArg Line.waiting hline
      rw [hline, hqueue]
      exact ⟨.other _, hlen, hlimit⟩
  | timer t =>
      obtain ⟨hstep, hle, hlimit⟩ := fire_line (step_timer h).1
      exact ⟨hstep, Nat.le_trans hle hlen, hlimit⟩
  | tick n =>
      obtain ⟨rfl, rfl⟩ := Prod.mk.inj (Except.ok.inj h)
      exact ⟨.other _, hlen, rfl⟩

theorem run_line (hnew : s.dev.Fresh) (h : (system mode l).Run s tr s') :
    Line.Serves (tr.map fun x => x.2.turn) s'.dev.line ∧
      s'.dev.txQueue.length ≤ s'.dev.txQueueLimit ∧
      s'.dev.txQueueLimit = s.dev.txQueueLimit := by
  induction h with
  | nil =>
      have hline : s.dev.line = ⟨[], false⟩ := by
        rw [line_of_ne (by simp [hnew.1]), hnew.2.1]
      rw [hline, hnew.2.1]
      exact ⟨.nil, Nat.zero_le _, rfl⟩
  | snoc _ _ hstep ih =>
      obtain ⟨hserves, hlen, hlimit⟩ := ih
      obtain ⟨hline, hlen', hlimit'⟩ := step_line hstep hlen
      rw [List.map_append]
      exact ⟨hserves.snoc hline, hlimit' ▸ hlen', hlimit'.trans hlimit⟩

/-- **The transmit queue conserves its packets.** In every run of a device,
however late its handlers run, the accepted packets are those that left the
queue and then those in it. Of those that left, the ones that were sent were
handed to the link exactly once, in the order of acceptance, and the others
never; of those in the queue the head was handed over exactly when the device
is in TX, and no other was. The queue stays within its limit. -/
theorem queue_conserved (hnew : s.dev.Fresh) (h : (system mode l).Run s tr s') :
    Line.Conserved (tr.map fun x => x.2.turn) s'.dev.line ∧
      s'.dev.txQueue.length ≤ s.dev.txQueueLimit := by
  obtain ⟨hserves, hlen, hlimit⟩ := run_line hnew h
  exact ⟨hserves.conserved, hlimit ▸ hlen⟩

/-- A csma handler is queued when a second packet is accepted, so it runs late
and sends the first; the handler of the new wait ends that transmission. -/
def staleRun : List (DeviceEvent × DeviceOut) :=
  [(.startTx (sample 0 100) 0, .enqueued (sample 0 100)), (.timer .csmaExpire, .quiet),
   (.startTx (sample 1 60) 0, .enqueued (sample 1 60)),
   (.timer (.doCsmaLate 0 0), .transmit (sample 0 100)), (.tick 101, .quiet),
   (.timer .csmaExpire, .quiet), (.timer (.doCsma 0), .finished (sample 0 100))]

theorem queue_conserved_stale : ∃ s, (system .late slowLink).Run ⟨slowDevice, 0⟩ staleRun s ∧
    Line.Conserved (staleRun.map fun x => x.2.turn) s.dev.line ∧ s.dev.txQueue.length ≤ 5 := by
  obtain ⟨s, hs⟩ : ∃ s, (system .late slowLink).Run ⟨slowDevice, 0⟩ staleRun s :=
    ⟨_, System.run_of_exec (show (system .late slowLink).exec ⟨slowDevice, 0⟩
      (staleRun.map (·.1)) = some (staleRun, _) from rfl)⟩
  exact ⟨s, hs, queue_conserved slowDevice_fresh hs⟩

end Timed

end NdnEm
