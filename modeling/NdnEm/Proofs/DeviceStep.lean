import NdnEm.Core.LinkDevice

/-!
# What a device's callbacks can do

The inversions of the five functions of the device, and the invariants read
off them. `Live` holds whatever the timers do: a reception has its timer and
its packet, a waiting packet has its csma wait, and a transmission has its
packet. `Agree` adds the converses, that no timer runs without a cause, and
those need the late handlers to behave.
-/

namespace NdnEm

open Lib

namespace LinkDevice

variable {mode : Rearm} {l : Link} {now : Int} {raw : Nat} {d d' : LinkDevice}
  {p : Packet} {o : DeviceOut} {nb be : Int}

/-- The device is receiving, whole or in collision. -/
def Hearing (d : LinkDevice) : Prop := d.state = .rx ∨ d.state = .rxCollide

theorem startTx_cases (h : d.startTx mode l now raw p = some d') :
    p.getLength ≤ l.mtu ∧ d.txQueue.length < d.txQueueLimit ∧
      d' = { d with
        txQueue := d.txQueue ++ [p]
        csmaTimer := d.csmaTimer.arm mode (now + backoff raw minBE) (0, minBE) } := by
  unfold startTx at h
  split at h
  · cases h
  · next hmtu =>
      split at h
      · next hroom => exact ⟨by omega, hroom, (Option.some.inj h).symm⟩
      · cases h

theorem startRx_cases (h : d.startRx mode l now p = .ok d') :
    (d.state = .tx ∧ d' = d) ∨
    ((d.state = .idle ∨ d.Hearing) ∧ ∃ st, (st = .rx ∨ st = .rxCollide) ∧
      (st = .rx ↔ d.state = .idle) ∧
      d' = { d with
        state := st
        pendingRx := some p
        rxTimer := d.rxTimer.arm mode (now + l.txDelay p.getLength) () }) := by
  unfold startRx at h
  split at h
  · next hst =>
      exact .inr ⟨.inl hst, .rx, .inl rfl, by simp [hst], (Except.ok.inj h).symm⟩
  · next hst =>
      exact .inr ⟨.inr (.inl hst), .rxCollide, .inr rfl, by simp [hst],
        (Except.ok.inj h).symm⟩
  · next hst =>
      exact .inr ⟨.inr (.inr hst), .rxCollide, .inr rfl, by simp [hst],
        (Except.ok.inj h).symm⟩
  · next hst => exact .inl ⟨hst, (Except.ok.inj h).symm⟩
  · cases h
  · cases h

theorem postRx_cases (h : d.postRx = .ok (d', o)) :
    d' = { d with state := .idle } ∧
    ((d.state = .rx ∧ ∃ p, d.pendingRx = some p ∧ o = .received p) ∨
      (d.state = .rxCollide ∨ d.state = .idle) ∧ o = .quiet) := by
  unfold postRx at h
  split at h
  · next hst =>
      split at h
      · cases h
      · next p hp =>
          obtain ⟨rfl, rfl⟩ : _ = d' ∧ _ = o := by simpa using h
          exact ⟨rfl, .inl ⟨hst, p, hp, rfl⟩⟩
  · next hst =>
      obtain ⟨rfl, rfl⟩ : _ = d' ∧ _ = o := by simpa using h
      exact ⟨rfl, .inr ⟨.inl hst, rfl⟩⟩
  · next hst =>
      obtain ⟨rfl, rfl⟩ : _ = d' ∧ _ = o := by simpa using h
      exact ⟨rfl, .inr ⟨.inr hst, rfl⟩⟩
  · cases h
  · cases h
  · cases h

/-- After the head of the queue is gone: serve the next packet, if any. -/
def serveNext (mode : Rearm) (now : Int) (raw : Nat) (d : LinkDevice) : LinkDevice :=
  if d.txQueue.length ≠ 0 then startCsma mode now raw d else d

/-- The exponent of the next backoff. -/
def nextBE (be : Int) : Int := if be + 1 > maxBE then maxBE else be + 1

theorem doCsma_hearing {rest : List Packet} (hst : d.Hearing) (hq : d.txQueue = p :: rest) :
    d.doCsma mode l now raw nb be =
      if nb + 1 > maxCsmaBackoffs then
        .ok (serveNext mode now raw { d with txQueue := rest }, .gaveUp p)
      else
        .ok ({ d with
          csmaTimer := d.csmaTimer.arm mode (now + backoff raw (nextBE be)) (nb + 1, nextBE be) },
          .quiet) := by
  unfold doCsma
  rcases hst with hst | hst <;> rw [hq, hst] <;> rfl

theorem doCsma_cases (h : d.doCsma mode l now raw nb be = .ok (d', o)) :
    ∃ p rest, d.txQueue = p :: rest ∧
      ((d.state = .idle ∧ o = .transmit p ∧ d' = { d with
          state := .tx
          csmaTimer := d.csmaTimer.arm mode (now + l.txDelay p.getLength) (-1, -1) }) ∨
       (d.Hearing ∧ nb + 1 ≤ maxCsmaBackoffs ∧ o = .quiet ∧ d' = { d with
          csmaTimer := d.csmaTimer.arm mode (now + backoff raw (nextBE be)) (nb + 1, nextBE be) }) ∨
       (d.Hearing ∧ maxCsmaBackoffs < nb + 1 ∧ o = .gaveUp p ∧
          d' = serveNext mode now raw { d with txQueue := rest }) ∨
       (d.state = .tx ∧ o = .finished p ∧
          d' = serveNext mode now raw { d with txQueue := rest, state := .idle })) := by
  cases hq : d.txQueue with
  | nil =>
      unfold doCsma at h
      rw [hq] at h
      cases h
  | cons p rest =>
      refine ⟨p, rest, rfl, ?_⟩
      by_cases hst : d.Hearing
      · rw [doCsma_hearing hst hq] at h
        split at h
        · next hmax =>
            obtain ⟨rfl, rfl⟩ := Prod.mk.inj (Except.ok.inj h)
            exact .inr (.inr (.inl ⟨hst, hmax, rfl, rfl⟩))
        · next hmax =>
            obtain ⟨rfl, rfl⟩ := Prod.mk.inj (Except.ok.inj h)
            exact .inr (.inl ⟨hst, by omega, rfl, by rw [hq]⟩)
      · unfold doCsma at h
        rw [hq] at h
        simp only [] at h
        split at h
        · next hidle =>
            obtain ⟨rfl, rfl⟩ := Prod.mk.inj (Except.ok.inj h)
            exact .inl ⟨hidle, rfl, rfl⟩
        · next hrx => exact absurd (.inl hrx) hst
        · next hrx => exact absurd (.inr hrx) hst
        · next htx =>
            obtain ⟨rfl, rfl⟩ := Prod.mk.inj (Except.ok.inj h)
            exact .inr (.inr (.inr ⟨htx, rfl, rfl⟩))
        · cases h
        · cases h

theorem serveNext_txQueue : (serveNext mode now raw d).txQueue = d.txQueue := by
  unfold serveNext
  split <;> rfl

theorem serveNext_state : (serveNext mode now raw d).state = d.state := by
  unfold serveNext
  split <;> rfl

theorem serveNext_rx : (serveNext mode now raw d).rxTimer = d.rxTimer ∧
    (serveNext mode now raw d).pendingRx = d.pendingRx := by
  unfold serveNext
  split <;> exact ⟨rfl, rfl⟩

theorem serveNext_armed (h : d.txQueue ≠ []) : (serveNext mode now raw d).csmaTimer.Armed := by
  unfold serveNext
  rw [if_pos (by simpa using h)]
  exact Timer.armed_arm ..

theorem serveNext_nil (h : d.txQueue = []) : serveNext mode now raw d = d := by
  unfold serveNext
  rw [if_neg (by simp [h])]

/-- A handler of the receive timer runs, and this is left of the timer. -/
inductive RxRun (d : LinkDevice) : TimerEvent → Timer Unit → Prop
  | wait : RxRun d .postRx d.rxTimer.take
  | late (k : Nat) : RxRun d (.postRxLate k) (d.rxTimer.takeLate k)

/-- A handler of the csma timer runs, with a draw and the arguments its wait
was armed with. -/
inductive CsmaRun (d : LinkDevice) : TimerEvent → Nat → Timer (Int × Int) → Int → Int → Prop
  | wait {raw : Nat} {nb be : Int} (h : d.csmaTimer.ready = some (nb, be)) :
      CsmaRun d (.doCsma raw) raw d.csmaTimer.take nb be
  | late {k raw : Nat} {nb be : Int} (h : d.csmaTimer.late[k]? = some (nb, be)) :
      CsmaRun d (.doCsmaLate k raw) raw (d.csmaTimer.takeLate k) nb be

/-- A wait expires, or a handler runs. -/
theorem fire_cases {e : TimerEvent} (h : d.fire mode l now e = .ok (d', o)) :
    (e = .rxExpire ∧ d' = { d with rxTimer := d.rxTimer.expire } ∧ o = .quiet) ∨
    (e = .csmaExpire ∧ d' = { d with csmaTimer := d.csmaTimer.expire } ∧ o = .quiet) ∨
    (∃ t, d.RxRun e t ∧ postRx { d with rxTimer := t } = .ok (d', o)) ∨
    (∃ raw t nb be, d.CsmaRun e raw t nb be ∧
      doCsma mode l now raw { d with csmaTimer := t } nb be = .ok (d', o)) := by
  cases e with
  | rxExpire =>
      obtain ⟨rfl, rfl⟩ := Prod.mk.inj (Except.ok.inj h)
      exact .inl ⟨rfl, rfl, rfl⟩
  | postRx => exact .inr (.inr (.inl ⟨_, .wait, h⟩))
  | postRxLate k => exact .inr (.inr (.inl ⟨_, .late k, h⟩))
  | csmaExpire =>
      obtain ⟨rfl, rfl⟩ := Prod.mk.inj (Except.ok.inj h)
      exact .inr (.inl ⟨rfl, rfl, rfl⟩)
  | doCsma raw =>
      simp only [fire] at h
      split at h
      · cases h
      · next hready => exact .inr (.inr (.inr ⟨_, _, _, _, .wait hready, h⟩))
  | doCsmaLate k raw =>
      simp only [fire] at h
      split at h
      · cases h
      · next hlate => exact .inr (.inr (.inr ⟨_, _, _, _, .late hlate, h⟩))

/-- No callback changes what a device is, or the faces it has. -/
def Fixed (d d' : LinkDevice) : Prop :=
  d'.macAddr = d.macAddr ∧ d'.link = d.link ∧ d'.faces = d.faces

theorem startTx_fixed (h : d.startTx mode l now raw p = some d') : d.Fixed d' := by
  obtain ⟨_, _, rfl⟩ := startTx_cases h
  exact ⟨rfl, rfl, rfl⟩

theorem startRx_fixed (h : d.startRx mode l now p = .ok d') : d.Fixed d' := by
  rcases startRx_cases h with ⟨_, rfl⟩ | ⟨_, st, _, _, rfl⟩ <;> exact ⟨rfl, rfl, rfl⟩

theorem serveNext_fixed : d.Fixed (serveNext mode now raw d) := by
  unfold serveNext
  split <;> exact ⟨rfl, rfl, rfl⟩

theorem doCsma_fixed (h : d.doCsma mode l now raw nb be = .ok (d', o)) : d.Fixed d' := by
  obtain ⟨p, rest, _, hcase⟩ := doCsma_cases h
  rcases hcase with ⟨_, _, rfl⟩ | ⟨_, _, _, rfl⟩ | ⟨_, _, _, rfl⟩ | ⟨_, _, rfl⟩
  · exact ⟨rfl, rfl, rfl⟩
  · exact ⟨rfl, rfl, rfl⟩
  · exact serveNext_fixed (d := { d with txQueue := rest })
  · exact serveNext_fixed (d := { d with txQueue := rest, state := .idle })

theorem fire_fixed {e : TimerEvent} (h : d.fire mode l now e = .ok (d', o)) : d.Fixed d' := by
  rcases fire_cases h with ⟨_, rfl, _⟩ | ⟨_, rfl, _⟩ | ⟨t, _, hpost⟩ | ⟨raw, t, nb, be, _, hcsma⟩
  · exact ⟨rfl, rfl, rfl⟩
  · exact ⟨rfl, rfl, rfl⟩
  · obtain ⟨rfl, _⟩ := postRx_cases hpost
    exact ⟨rfl, rfl, rfl⟩
  · have hfix := doCsma_fixed hcsma
    exact hfix

/-! ## The invariants -/

/-- What holds in every reachable state: nobody waits for a callback that is
not coming. -/
structure Live (d : LinkDevice) : Prop where
  awake : d.state ≠ .sleep ∧ d.state ≠ .failure
  pending : d.state = .rx → d.pendingRx.isSome
  hears : d.Hearing → d.rxTimer.Armed
  serves : d.txQueue ≠ [] → d.csmaTimer.Armed
  sends : d.state = .tx → d.txQueue ≠ []

theorem live_new (mac : MacAddr) (link : String) (limit : Nat) : Live (new mac link limit) := by
  constructor <;> simp [new, Hearing]

theorem Live.startTx (hd : d.Live) (h : d.startTx mode l now raw p = some d') : d'.Live := by
  obtain ⟨_, _, rfl⟩ := startTx_cases h
  exact ⟨hd.awake, hd.pending, hd.hears, fun _ => Timer.armed_arm .., fun _ => by simp⟩

theorem Live.startRx (hd : d.Live) (h : d.startRx mode l now p = .ok d') : d'.Live := by
  rcases startRx_cases h with ⟨_, rfl⟩ | ⟨_, st, hst, _, rfl⟩
  · exact hd
  · refine ⟨?_, fun _ => rfl, fun _ => Timer.armed_arm .., hd.serves, ?_⟩
    · rcases hst with rfl | rfl <;> simp
    · rcases hst with rfl | rfl <;> simp

/-- A reception that ends leaves nothing behind. -/
theorem Live.postRx {t : Timer Unit} (hd : d.Live)
    (h : postRx { d with rxTimer := t } = .ok (d', o)) : d'.Live := by
  obtain ⟨rfl, _⟩ := postRx_cases h
  exact ⟨by simp, by simp, by simp [Hearing], hd.serves, by simp⟩

/-- Whatever handler calls it, `DoCsma` leaves a wait behind for what is left
in the queue. -/
theorem Live.doCsma {t : Timer (Int × Int)} (hd : d.Live)
    (h : doCsma mode l now raw { d with csmaTimer := t } nb be = .ok (d', o)) : d'.Live := by
  have hnext : ∀ {st : PhyState} {rest : List Packet},
      st = .idle ∨ (st = d.state ∧ d.Hearing) →
      Live (serveNext mode now raw { d with txQueue := rest, csmaTimer := t, state := st }) := by
    intro st rest hst
    have hstate : st = .idle ∨ st = .rx ∨ st = .rxCollide := by
      rcases hst with rfl | ⟨rfl, hrx | hrx⟩
      · exact .inl rfl
      · exact .inr (.inl hrx)
      · exact .inr (.inr hrx)
    have hold : st ≠ .idle → st = d.state := fun hne =>
      (hst.resolve_left hne).1
    refine ⟨?_, ?_, ?_, fun hq => serveNext_armed (serveNext_txQueue ▸ hq), ?_⟩
    · rw [serveNext_state]
      rcases hstate with rfl | rfl | rfl <;> simp
    · rw [serveNext_state, serveNext_rx.2]
      intro hrx
      exact hd.pending ((hold (by simp [show st = .rx from hrx])).symm.trans hrx)
    · rw [serveNext_rx.1]
      intro hhear
      rw [Hearing, serveNext_state] at hhear
      refine hd.hears ?_
      rcases hhear with hrx | hrx
      · exact .inl ((hold (by simp [show st = .rx from hrx])).symm.trans hrx)
      · exact .inr ((hold (by simp [show st = .rxCollide from hrx])).symm.trans hrx)
    · rw [serveNext_state]
      intro htx
      rcases hstate with rfl | rfl | rfl <;> simp at htx
  obtain ⟨p, rest, hq, hcase⟩ := doCsma_cases h
  rcases hcase with ⟨hidle, _, rfl⟩ | ⟨_, _, _, rfl⟩ | ⟨hhear, _, _, rfl⟩ | ⟨_, _, rfl⟩
  · refine ⟨by simp, by simp, by simp [Hearing], fun _ => Timer.armed_arm .., fun _ => ?_⟩
    show d.txQueue ≠ []
    rw [show d.txQueue = p :: rest from hq]
    simp
  · exact ⟨hd.awake, hd.pending, hd.hears, fun _ => Timer.armed_arm .., hd.sends⟩
  · exact hnext (.inr ⟨rfl, hhear⟩)
  · exact hnext (.inl rfl)

theorem Live.fire {e : TimerEvent} (hd : d.Live) (h : d.fire mode l now e = .ok (d', o)) :
    d'.Live := by
  rcases fire_cases h with ⟨_, rfl, _⟩ | ⟨_, rfl, _⟩ | ⟨t, _, hpost⟩ | ⟨raw, t, nb, be, _, hcsma⟩
  · exact ⟨hd.awake, hd.pending, fun hh => (Timer.armed_expire _).mpr (hd.hears hh), hd.serves,
      hd.sends⟩
  · exact ⟨hd.awake, hd.pending, hd.hears, fun hq => (Timer.armed_expire _).mpr (hd.serves hq),
      hd.sends⟩
  · exact hd.postRx hpost
  · exact hd.doCsma hcsma

/-- `Live`, and no timer runs without a cause. -/
structure Agree (d : LinkDevice) : Prop extends Live d where
  rx_cause : d.rxTimer.Armed → d.Hearing
  csma_cause : d.csmaTimer.Armed → d.txQueue ≠ []

/-- A device as it is constructed, whatever faces it was given since. -/
def Fresh (d : LinkDevice) : Prop :=
  d.state = .idle ∧ d.txQueue = [] ∧ d.rxTimer = .unarmed ∧ d.csmaTimer = .unarmed

theorem Fresh.agree (hd : d.Fresh) : d.Agree := by
  obtain ⟨hst, hq, hrx, hcsma⟩ := hd
  constructor
  · constructor <;> simp [hst, hq, Hearing]
  · simp [hrx]
  · simp [hcsma]

theorem Agree.startTx (hd : d.Agree) (h : d.startTx mode l now raw p = some d') : d'.Agree := by
  refine ⟨hd.toLive.startTx h, ?_, ?_⟩
  · obtain ⟨_, _, rfl⟩ := startTx_cases h
    exact hd.rx_cause
  · obtain ⟨_, _, rfl⟩ := startTx_cases h
    simp

theorem Agree.startRx (hd : d.Agree) (h : d.startRx mode l now p = .ok d') : d'.Agree := by
  refine ⟨hd.toLive.startRx h, ?_, ?_⟩
  · rcases startRx_cases h with ⟨_, rfl⟩ | ⟨_, st, hst, _, rfl⟩
    · exact hd.rx_cause
    · exact fun _ => hst
  · rcases startRx_cases h with ⟨_, rfl⟩ | ⟨_, st, _, _, rfl⟩
    · exact hd.csma_cause
    · exact hd.csma_cause

/-- The handler would leave the queue empty: it removes its head, by the end
of a transmission or the last backoff, and there is no other packet. -/
def TakesLast (d : LinkDevice) (nb : Int) : Prop :=
  d.txQueue.length ≤ 1 ∧ (d.state = .tx ∨ d.Hearing ∧ maxCsmaBackoffs < nb + 1)

/-- `DoCsma` keeps the timers honest if it was called by the wait it consumed,
or if it does not empty the queue. -/
theorem Agree.doCsma {t : Timer (Int × Int)} (hd : d.Agree)
    (ht : t.Armed → ¬ d.TakesLast nb)
    (h : doCsma mode l now raw { d with csmaTimer := t } nb be = .ok (d', o)) : d'.Agree := by
  have hnext : ∀ {st : PhyState} {p : Packet} {rest : List Packet}, d.txQueue = p :: rest →
      (d.state = .tx ∨ d.Hearing ∧ maxCsmaBackoffs < nb + 1) →
      (serveNext mode now raw
        { d with txQueue := rest, csmaTimer := t, state := st }).csmaTimer.Armed →
      rest ≠ [] := by
    rintro st p rest hq hpop harm rfl
    rw [serveNext_nil rfl] at harm
    exact ht harm ⟨by simp [hq], hpop⟩
  refine ⟨hd.toLive.doCsma h, ?_, ?_⟩
  · obtain ⟨p, rest, hq, hcase⟩ := doCsma_cases h
    rcases hcase with ⟨hidle, _, rfl⟩ | ⟨_, _, _, rfl⟩ | ⟨hhear, _, _, rfl⟩ | ⟨htx, _, rfl⟩
    · intro harm
      rcases hd.rx_cause harm with hrx | hrx <;> cases hidle.symm.trans hrx
    · exact hd.rx_cause
    · intro _
      rw [Hearing, serveNext_state]
      exact hhear
    · rw [serveNext_rx.1]
      intro harm
      rcases hd.rx_cause harm with hrx | hrx <;> cases htx.symm.trans hrx
  · obtain ⟨p, rest, hq, hcase⟩ := doCsma_cases h
    have hne : d.txQueue ≠ [] := by
      rw [show d.txQueue = p :: rest from hq]
      simp
    rcases hcase with ⟨_, _, rfl⟩ | ⟨_, _, _, rfl⟩ | ⟨hhear, hmax, _, rfl⟩ | ⟨htx, _, rfl⟩
    · exact fun _ => hne
    · exact fun _ => hne
    · intro harm
      rw [serveNext_txQueue]
      exact hnext hq (.inr ⟨hhear, hmax⟩) harm
    · intro harm
      rw [serveNext_txQueue]
      exact hnext hq (.inl htx) harm

/-- A late handler does no harm: one of the receive timer finds the device
idle, one of the csma timer finds a packet and does not take the last one. -/
def Harmless (d : LinkDevice) : TimerEvent → Prop
  | .postRxLate _ => d.state = .idle
  | .doCsmaLate k _ =>
      d.txQueue ≠ [] ∧ ∀ args ∈ d.csmaTimer.late[k]?, ¬ d.TakesLast args.1
  | .rxExpire | .postRx | .csmaExpire | .doCsma _ => True

instance (d : LinkDevice) : Decidable d.Hearing := inferInstanceAs (Decidable (_ ∨ _))

instance (d : LinkDevice) (nb : Int) : Decidable (d.TakesLast nb) :=
  inferInstanceAs (Decidable (_ ∧ _))

instance (d : LinkDevice) (e : TimerEvent) : Decidable (d.Harmless e) :=
  match e with
  | .postRxLate _ => inferInstanceAs (Decidable (d.state = .idle))
  | .doCsmaLate _ _ => inferInstanceAs (Decidable (_ ∧ _))
  | .rxExpire | .postRx | .csmaExpire | .doCsma _ => isTrue trivial

theorem Agree.fire {e : TimerEvent} (hd : d.Agree) (he : d.Harmless e)
    (h : d.fire mode l now e = .ok (d', o)) : d'.Agree := by
  have hlive := hd.toLive.fire h
  rcases fire_cases h with ⟨_, rfl, _⟩ | ⟨_, rfl, _⟩ | ⟨t, hrun, hpost⟩ |
    ⟨raw, t, nb, be, hrun, hcsma⟩
  · exact ⟨hlive, fun harm => hd.rx_cause ((Timer.armed_expire _).mp harm), hd.csma_cause⟩
  · exact ⟨hlive, hd.rx_cause, fun harm => hd.csma_cause ((Timer.armed_expire _).mp harm)⟩
  · obtain ⟨rfl, _⟩ := postRx_cases hpost
    refine ⟨hlive, ?_, hd.csma_cause⟩
    intro harm
    cases hrun with
    | wait => exact absurd harm (Timer.armed_take _)
    | late k =>
        -- the wait that is left has a cause, and the device is idle
        have hidle : d.state = .idle := he
        rcases hd.rx_cause harm with hrx | hrx <;> cases hidle.symm.trans hrx
  · refine hd.doCsma ?_ hcsma
    intro harm
    cases hrun with
    | wait _ => exact absurd harm (Timer.armed_take _)
    | late hlate => exact he.2 _ hlate

end LinkDevice

namespace Timed

open LinkDevice

variable {mode : Rearm} {l : Link} {s s' : Timed} {e : DeviceEvent} {o : DeviceOut}

/-- Late handlers among the events are harmless. -/
def Harmless (s : Timed) : DeviceEvent → Prop
  | .timer e => s.dev.Harmless e
  | .startTx .. | .startRx _ | .tick _ => True

theorem step_timer {t : TimerEvent} (h : s.step mode l (.timer t) = .ok (s', o)) :
    s.dev.fire mode l s.now t = .ok (s'.dev, o) ∧ s'.now = s.now := by
  simp only [step] at h
  obtain ⟨r, hf, heq⟩ := ok_of_map h
  obtain ⟨rfl, rfl⟩ := Prod.mk.inj heq
  exact ⟨hf, rfl⟩

theorem step_startRx {p : Packet} (h : s.step mode l (.startRx p) = .ok (s', o)) :
    s.dev.startRx mode l s.now p = .ok s'.dev ∧ s'.now = s.now ∧ o = .quiet := by
  simp only [step] at h
  obtain ⟨d, hf, heq⟩ := ok_of_map h
  obtain ⟨rfl, rfl⟩ := Prod.mk.inj heq
  exact ⟨hf, rfl, rfl⟩

theorem step_startTx {p : Packet} {raw : Nat} (h : s.step mode l (.startTx p raw) = .ok (s', o)) :
    (∃ d, s.dev.startTx mode l s.now raw p = some d ∧ s' = { s with dev := d } ∧
      o = .enqueued p) ∨
    (s.dev.startTx mode l s.now raw p = none ∧ s' = s ∧ o = .quiet) := by
  simp only [step] at h
  split at h
  · next d hd =>
      obtain ⟨rfl, rfl⟩ := Prod.mk.inj (Except.ok.inj h)
      exact .inl ⟨d, hd, rfl, rfl⟩
  · next hd =>
      obtain ⟨rfl, rfl⟩ := Prod.mk.inj (Except.ok.inj h)
      exact .inr ⟨hd, rfl, rfl⟩

theorem agree_step (hs : s.dev.Agree) (he : s.Harmless e) (h : s.step mode l e = .ok (s', o)) :
    s'.dev.Agree := by
  cases e with
  | startTx p raw =>
      rcases step_startTx h with ⟨d, hd, rfl, _⟩ | ⟨_, rfl, _⟩
      · exact hs.startTx hd
      · exact hs
  | startRx p => exact hs.startRx (step_startRx h).1
  | timer t => exact hs.fire he (step_timer h).1
  | tick n =>
      obtain ⟨rfl, _⟩ := Prod.mk.inj (Except.ok.inj h)
      exact hs

instance (s : Timed) (e : DeviceEvent) : Decidable ((system mode l).Enabled s e) :=
  inferInstanceAs (Decidable (s.Enabled e))

/-- A link that is a microsecond on the air for each byte, and one more. -/
def slowLink : Link := Link.new "l0" (fun len => len + 1) 8800

def slowDevice : LinkDevice := LinkDevice.new 1 "l0" 5

def sample (id : Nat) (size : Nat) : Packet := ⟨id, .interest ⟨[[1]], 7, 4000, false, size⟩⟩

theorem slowDevice_fresh : slowDevice.Fresh := ⟨rfl, rfl, rfl, rfl⟩

end Timed

end NdnEm
