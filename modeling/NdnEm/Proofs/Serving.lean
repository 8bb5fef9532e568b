import NdnEm.Proofs.ConfigStep
import NdnEm.Proofs.DeviceStep
import NdnEm.Proofs.EmulatorStep

/-!
# A packet in a queue can be served

In a reachable network every device is `Live` and hangs on a node and a link
that exist. That is enough to take any packet out of its queue: let the device
finish what it is doing, then let its csma timer fire, and again, until the
packet is at the head. No other event is needed, so the run that hands the
packet to the link exists from every reachable state.
-/

namespace NdnEm

open Lib LinkDevice

namespace Emulator

variable {mode : Rearm} {lib : NdnCxx} {em em' : Emulator} {ref : DeviceRef}
  {d d' : LinkDevice} {l : Link} {o : DeviceOut} {p : Packet} {rest : List Packet}

/-- Every device is live and has its node and its link. -/
structure Wired (em : Emulator) : Prop where
  live : ∀ ref d, em.deviceTable.find ref = some d → d.Live
  node : ∀ ref d, em.deviceTable.find ref = some d → (em.nodeTable.find ref.node).isSome
  link : ∀ ref d, em.deviceTable.find ref = some d → (em.linkTable.find d.link).isSome

theorem Wired.setNode (h : em.Wired) (id : String) (n : Node) : (em.setNode id n).Wired := by
  refine ⟨h.live, fun ref d hd => ?_, h.link⟩
  have hold := h.node ref d hd
  by_cases hid : ref.node = id
  · simp [Emulator.setNode, hid]
  · simpa [Emulator.setNode, hid] using hold

theorem Wired.setDevice (h : em.Wired) (hd : em.deviceTable.find ref = some d)
    (hlive : d'.Live) (hlink : d'.link = d.link) : (em.setDevice ref d').Wired := by
  refine ⟨FinMap.forall_insert h.live hlive, FinMap.forall_insert h.node (h.node _ _ hd),
    FinMap.forall_insert h.link ?_⟩
  rw [hlink]
  exact h.link _ _ hd

theorem wired_move {k : Nat} (h : em.Wired) (hm : Move mode lib k em em') : em'.Wired := by
  cases hm with
  | node hn hs _ _ => exact h.setNode _ _
  | object w _ => exact ⟨h.live, h.node, h.link⟩
  | address a _ _ => exact ⟨h.live, h.node, h.link⟩
  | startTx hd hs => exact h.setDevice hd ((h.live _ _ hd).startTx hs) (startTx_fixed hs).2.1
  | startRx hd hs => exact h.setDevice hd ((h.live _ _ hd).startRx hs) (startRx_fixed hs).2.1
  | fire hd hs => exact h.setDevice hd ((h.live _ _ hd).fire hs) (fire_fixed hs).2.1
  | @face ref d n src hd hn _ _ =>
      have hlive := h.live _ _ hd
      exact (h.setNode ref.node _).setDevice hd
        ⟨hlive.awake, hlive.pending, hlive.hears, hlive.serves, hlive.sends⟩ rfl
  | dispatch w hd hf _ => exact ⟨h.live, h.node, h.link⟩
  | transmit link nodeId pkt => exact ⟨h.live, h.node, h.link⟩
  | unpost j => exact ⟨h.live, h.node, h.link⟩
  | tick n => exact ⟨h.live, h.node, h.link⟩

theorem wired_moves {k : Nat} (h : em.Wired)
    (hm : Relation.ReflTransGen (Move mode lib k) em em') : em'.Wired := by
  induction hm with
  | refl => exact h
  | tail _ hm ih => exact wired_move ih hm

theorem wired_run {tr : List (Event × Output)} (h : em.Wired)
    (hrun : (system mode lib).Run em tr em') : em'.Wired :=
  hrun.invariant (fun _ _ _ _ ha he hs => step_preserves (fun _ _ => wired_move) ha he hs) h

/-- A configuration that is accepted wires its devices. -/
theorem wired_config {c : Config} (h : readNetworkConfig c = .ok em) : em.Wired := by
  obtain ⟨em₁, em₂, h₁, h₂, h₃⟩ := readNetworkConfig_cases h
  have hlinks : ∀ (a : Emulator) id l, a.Wired → (a.setLink id l).Wired := by
    intro a id l h
    refine ⟨h.live, h.node, fun ref d hd => ?_⟩
    have hold := h.link ref d hd
    by_cases hid : d.link = id
    · simp [setLink, hid]
    · simpa [setLink, hid] using hold
  have htop : em₁.Wired := by
    -- the node of the devices that are being read is not in the table yet
    refine readTopology_induct (P := Wired) (Q := fun a n =>
      ∀ m : Node, m.id = n.id → (a.setNode n.id m).Wired) ?_ hlinks ?_ ?_ ?_ ?_ h₁
    · exact ⟨by simp [empty], by simp [empty], by simp [empty]⟩
    · exact fun a n id l h m hm => hlinks _ _ _ (h m hm)
    · exact fun a id limit h _ m _ => h.setNode _ _
    · intro a n dev mac link h _ hl m hm
      have hold := h m hm
      have hnew := live_new mac link 5
      refine ⟨FinMap.forall_insert hold.live ?_, FinMap.forall_insert hold.node ?_,
        FinMap.forall_insert hold.link hl⟩
      · exact ⟨hnew.awake, hnew.pending, hnew.hears, hnew.serves, hnew.sends⟩
      · simp [Emulator.setNode, addBroadcastFace, Node.addLinkFace]
    · exact fun a n h => h n rfl
  have hroutes : em₂.Wired := by
    refine readAll_preserves (fun a x b _ ha hread => ?_) htop h₂
    obtain ⟨_, _, _, _, _, _, rfl⟩ := readRoute_cases hread
    exact ha.setNode _ _
  exact readAll_preserves (fun a x b _ ha hread => readMatrix_preserves hlinks ha hread)
    hroutes h₃

theorem Wired.start (h : em.Wired) : em.start.Wired := by
  refine ⟨h.live, fun ref d hd => ?_, h.link⟩
  obtain ⟨n, hn⟩ := Option.isSome_iff_exists.mp (h.node ref d hd)
  rw [Emulator.start, FinMap.find_filterMap, hn]
  rfl

/-! ## Letting a device go on -/

theorem Wired.attached (h : em.Wired) (hd : em.deviceTable.find ref = some d) :
    ∃ l, em.attached ref = .ok (d, l) := by
  obtain ⟨l, hl⟩ := Option.isSome_iff_exists.mp (h.link ref d hd)
  exact ⟨l, by simp [Emulator.attached, hd, hl]⟩

theorem step_timer_device {e : TimerEvent} (hat : em.attached ref = .ok (d, l))
    (hs : d.fire mode l em.now e = .ok (d', o))
    (ho : ∀ pkt, o ≠ .received pkt ∧ o ≠ .transmit pkt) :
    em.step mode lib (.timer ref e) = .ok (em.setDevice ref d', .device ref o) := by
  simp only [step, Emulator.fire, hat, hs]
  cases o with
  | received pkt => exact absurd rfl (ho pkt).1
  | transmit pkt => exact absurd rfl (ho pkt).2
  | quiet => rfl
  | enqueued pkt => rfl
  | finished pkt => rfl
  | gaveUp pkt => rfl

/-- A run goes on with a handler that stays inside the device. -/
theorem run_timer_device {e : TimerEvent} {tr : List (Event × Output)} (h : em.Wired)
    (hrun : (system mode lib).Run em tr em') (hd : em'.deviceTable.find ref = some d)
    (hcan : d.CanFire em'.now e) (hs : ∀ l, d.fire mode l em'.now e = .ok (d', o))
    (ho : ∀ pkt, o ≠ .received pkt ∧ o ≠ .transmit pkt) :
    (system mode lib).Run em (tr ++ [(.timer ref e, .device ref o)]) (em'.setDevice ref d') := by
  obtain ⟨l, hat⟩ := (wired_run h hrun).attached hd
  have hen : (system mode lib).Enabled em' (.timer ref e) := ⟨d, hd, hcan⟩
  exact hrun.snoc hen (@step_timer_device mode lib _ _ _ _ _ _ _ hat (hs l) ho)

theorem setDevice_find : (em.setDevice ref d).deviceTable.find ref = some d :=
  FinMap.find_insert_self _ _ _

/-- Let the clock reach the expiry of a wait. -/
theorem tick_to {κ : Type} {t : Timer κ} {w : Wait κ} (hw : t.wait = some w)
    (hq : ¬ w.queued = true) :
    ∃ em' : Emulator, (system mode lib).Run em [(.tick (w.expiry - em.now).toNat, .quiet)] em' ∧
      em'.deviceTable = em.deviceTable ∧ t.Due em'.now := by
  refine ⟨{ em with now := em.now + (w.expiry - em.now).toNat }, .single trivial rfl, rfl,
    w, hw, ?_, by simpa using hq⟩
  show w.expiry ≤ em.now + (w.expiry - em.now).toNat
  omega

/-- The wait of an armed csma timer comes to its end, and its handler is queued. -/
theorem csma_ready (h : em.Wired) (hd : em.deviceTable.find ref = some d)
    (harm : d.csmaTimer.Armed) :
    ∃ tr em₁ d₁ nb be, (system mode lib).Run em tr em₁ ∧
      em₁.deviceTable.find ref = some d₁ ∧ d₁.csmaTimer.ready = some (nb, be) ∧
      d₁.state = d.state ∧ d₁.txQueue = d.txQueue := by
  obtain ⟨w, hw⟩ := Timer.armed_iff.mp harm
  by_cases hq : w.queued = true
  · exact ⟨[], em, d, w.args.1, w.args.2, .nil em, hd,
      Timer.ready_eq_some.mpr ⟨w, hw, hq, rfl⟩, rfl, rfl⟩
  · obtain ⟨em₁, htick, hdev, hdue⟩ := @tick_to mode lib em _ _ _ hw hq
    have hd₁ : em₁.deviceTable.find ref = some d := hdev ▸ hd
    have hrun := @run_timer_device mode lib _ _ _ _ _ .quiet .csmaExpire _ h htick hd₁ hdue
      (fun _ => rfl) (by simp)
    refine ⟨_, _, _, w.args.1, w.args.2, hrun, setDevice_find, ?_, rfl, rfl⟩
    exact Timer.ready_eq_some.mpr ⟨{ w with queued := true }, by simp [Timer.expire, hw], rfl, rfl⟩

theorem rx_ready (h : em.Wired) (hd : em.deviceTable.find ref = some d)
    (harm : d.rxTimer.Armed) :
    ∃ tr em₁ d₁, (system mode lib).Run em tr em₁ ∧
      em₁.deviceTable.find ref = some d₁ ∧ d₁.rxTimer.ready.isSome ∧
      d₁.state = d.state ∧ d₁.txQueue = d.txQueue := by
  obtain ⟨w, hw⟩ := Timer.armed_iff.mp harm
  by_cases hq : w.queued = true
  · refine ⟨[], em, d, .nil em, hd, ?_, rfl, rfl⟩
    rw [Timer.ready_eq_some.mpr ⟨w, hw, hq, rfl⟩]
    rfl
  · obtain ⟨em₁, htick, hdev, hdue⟩ := @tick_to mode lib em _ _ _ hw hq
    have hd₁ : em₁.deviceTable.find ref = some d := hdev ▸ hd
    have hrun := @run_timer_device mode lib _ _ _ _ _ .quiet .rxExpire _ h htick hd₁ hdue
      (fun _ => rfl) (by simp)
    refine ⟨_, _, _, hrun, setDevice_find, ?_, rfl, rfl⟩
    have hready : d.rxTimer.expire.ready = some w.args :=
      Timer.ready_eq_some.mpr ⟨{ w with queued := true }, by simp [Timer.expire, hw], rfl, rfl⟩
    show d.rxTimer.expire.ready.isSome = true
    rw [hready]
    rfl

theorem fire_postRx {pkt : Packet} (hst : d.state = .rx) (hpkt : d.pendingRx = some pkt)
    (now : Int) : d.fire mode l now .postRx =
      .ok ({ d with rxTimer := d.rxTimer.take, state := .idle }, .received pkt) := by
  simp only [LinkDevice.fire, postRx, hst]
  split
  · next hnone => cases hpkt.symm.trans hnone
  · next q hq =>
      obtain rfl : q = pkt := Option.some.inj (hq.symm.trans hpkt)
      rfl

/-- A device that hears something comes to rest, with its queue as it was. -/
theorem rest_of_hearing (h : em.Wired) (hd : em.deviceTable.find ref = some d)
    (hst : d.Hearing) :
    ∃ tr em₁ d₁, (system mode lib).Run em tr em₁ ∧ em₁.deviceTable.find ref = some d₁ ∧
      d₁.state = .idle ∧ d₁.txQueue = d.txQueue := by
  obtain ⟨tr, em₁, d₁, hrun, hd₁, hready, hstate, hqueue⟩ :=
    @rx_ready mode lib _ _ _ h hd ((h.live _ _ hd).hears hst)
  have hw₁ := wired_run h hrun
  rcases hst with hrx | hcol
  · -- the packet is received, whoever it is for
    obtain ⟨pkt, hpkt⟩ := Option.isSome_iff_exists.mp
      ((hw₁.live _ _ hd₁).pending (hstate.trans hrx))
    obtain ⟨l, hat⟩ := hw₁.attached hd₁
    obtain ⟨n, hn⟩ := Option.isSome_iff_exists.mp (hw₁.node _ _ hd₁)
    have hcan : (system mode lib).Enabled em₁ (.timer ref .postRx) := ⟨d₁, hd₁, hready⟩
    have hfire := @fire_postRx mode _ l _ (hstate.trans hrx) hpkt em₁.now
    obtain ⟨em₂, hrec⟩ : ∃ em₂, (em₁.setDevice ref
        { d₁ with rxTimer := d₁.rxTimer.take, state := .idle }).receive ref pkt = .ok em₂ := by
      unfold receive
      rw [setDevice_find, show (em₁.setDevice ref _).nodeTable.find ref.node = some n from hn]
      simp only []
      split
      · split <;> exact ⟨_, rfl⟩
      · exact ⟨_, rfl⟩
    have hstep : (system mode lib).step em₁ (.timer ref .postRx) =
        .ok (em₂, .device ref (.received pkt)) := by
      show em₁.fire mode ref .postRx = _
      simp only [Emulator.fire, hat, hfire, hrec]
      rfl
    have hrun₂ := hrun.snoc hcan hstep
    obtain ⟨d₃, n', hd₃, _, ⟨_, rfl⟩ | ⟨face, _, rfl⟩ | ⟨_, rfl⟩⟩ := receive_cases hrec
    · exact ⟨_, _, _, hrun₂, setDevice_find, rfl, hqueue⟩
    · exact ⟨_, _, _, hrun₂, setDevice_find, rfl, hqueue⟩
    · obtain rfl := Option.some.inj (setDevice_find.symm.trans hd₃)
      exact ⟨_, _, _, hrun₂, setDevice_find, rfl, hqueue⟩
  · have hfire : ∀ l, d₁.fire mode l em₁.now .postRx =
        .ok ({ d₁ with rxTimer := d₁.rxTimer.take, state := .idle }, .quiet) := by
      intro l
      simp only [LinkDevice.fire, postRx, hstate.trans hcol]
    have hrun₂ := @run_timer_device mode lib _ _ _ _ _ _ .postRx _ h hrun hd₁ hready hfire
      (by simp)
    exact ⟨_, _, _, hrun₂, setDevice_find, rfl, hqueue⟩

/-- A transmission comes to its end. -/
theorem rest_of_transmitting (h : em.Wired) (hd : em.deviceTable.find ref = some d)
    (hst : d.state = .tx) (hq : d.txQueue = p :: rest) :
    ∃ tr em₁ d₁, (system mode lib).Run em tr em₁ ∧ em₁.deviceTable.find ref = some d₁ ∧
      d₁.state = .idle ∧ d₁.txQueue = rest := by
  obtain ⟨tr, em₁, d₁, nb, be, hrun, hd₁, hready, hstate, hqueue⟩ :=
    @csma_ready mode lib _ _ _ h hd ((h.live _ _ hd).serves (by rw [hq]; simp))
  have hcan : d₁.CanFire em₁.now (.doCsma 0) := by
    show d₁.csmaTimer.ready.isSome = true
    rw [hready]
    rfl
  have hfire : ∀ l, d₁.fire mode l em₁.now (.doCsma 0) = .ok (serveNext mode em₁.now 0
      { d₁ with csmaTimer := d₁.csmaTimer.take, txQueue := rest, state := .idle },
      .finished p) := by
    intro l
    simp only [LinkDevice.fire, hready, doCsma, hqueue.trans hq, hstate.trans hst]
    rfl
  have hrun₂ := @run_timer_device mode lib _ _ _ _ _ _ _ _ h hrun hd₁ hcan hfire (by simp)
  refine ⟨_, _, _, hrun₂, setDevice_find, ?_, ?_⟩
  · rw [serveNext_state]
  · rw [serveNext_txQueue]

/-- An idle device hands the head of its queue to the link. -/
theorem hands_over_head (h : em.Wired) (hd : em.deviceTable.find ref = some d)
    (hst : d.state = .idle) (hq : d.txQueue = p :: rest) :
    ∃ tr e em₂ d₂, (system mode lib).Run em (tr ++ [(.timer ref e, .device ref (.transmit p))]) em₂ ∧
      em₂.deviceTable.find ref = some d₂ ∧ d₂.state = .tx ∧ d₂.txQueue = p :: rest := by
  obtain ⟨tr, em₁, d₁, nb, be, hrun, hd₁, hready, hstate, hqueue⟩ :=
    @csma_ready mode lib _ _ _ h hd ((h.live _ _ hd).serves (by rw [hq]; simp))
  obtain ⟨l, hat⟩ := (wired_run h hrun).attached hd₁
  have hcan : (system mode lib).Enabled em₁ (.timer ref (.doCsma 0)) := by
    refine ⟨d₁, hd₁, ?_⟩
    show d₁.csmaTimer.ready.isSome = true
    rw [hready]
    rfl
  let d₂ : LinkDevice := { d₁ with
    state := .tx
    csmaTimer := d₁.csmaTimer.take.arm mode (em₁.now + l.txDelay p.getLength) (-1, -1) }
  have hfire : d₁.fire mode l em₁.now (.doCsma 0) = .ok (d₂, .transmit p) := by
    simp only [LinkDevice.fire, hready, doCsma, hqueue.trans hq, hstate.trans hst]
    rw [← hq, ← hqueue]
  have hstep : (system mode lib).step em₁ (.timer ref (.doCsma 0)) =
      .ok ((em₁.setDevice ref d₂).post (.transmit d₁.link ref.node p),
        .device ref (.transmit p)) := by
    show em₁.fire mode ref (.doCsma 0) = _
    simp only [Emulator.fire, hat, hfire]
  exact ⟨tr, .doCsma 0, _, d₂, hrun.snoc hcan hstep, setDevice_find, rfl, hqueue.trans hq⟩

/-- There is a run in which the device hands `p` to the link. -/
def HandsOver (mode : Rearm) (lib : NdnCxx) (em : Emulator) (ref : DeviceRef) (p : Packet) :
    Prop :=
  ∃ tr e em₁, (system mode lib).Run em (tr ++ [(.timer ref e, .device ref (.transmit p))]) em₁

theorem HandsOver.after {tr : List (Event × Output)} (hrun : (system mode lib).Run em tr em')
    (h : HandsOver mode lib em' ref p) : HandsOver mode lib em ref p := by
  obtain ⟨tr₁, e, em₁, hrun₁⟩ := h
  exact ⟨tr ++ tr₁, e, em₁, by simpa using hrun.append hrun₁⟩

/-- An idle device comes to the packet at any place of its queue: it serves
those before it, one after the other. -/
theorem handsOver_of_idle {j : Nat} (h : em.Wired) (hd : em.deviceTable.find ref = some d)
    (hst : d.state = .idle) (hj : d.txQueue[j]? = some p) : HandsOver mode lib em ref p := by
  induction j generalizing em d with
  | zero =>
      cases hq : d.txQueue with
      | nil => simp [hq] at hj
      | cons q rest =>
          obtain rfl : q = p := by simpa [hq] using hj
          obtain ⟨tr, e, em₂, _, hrun, _⟩ := @hands_over_head mode lib _ _ _ _ _ h hd hst hq
          exact ⟨tr, e, em₂, hrun⟩
  | succ j ih =>
      cases hq : d.txQueue with
      | nil => simp [hq] at hj
      | cons q rest =>
          obtain ⟨tr, e, em₂, d₂, hrun, hd₂, hst₂, hq₂⟩ :=
            @hands_over_head mode lib _ _ _ _ _ h hd hst hq
          obtain ⟨tr₃, em₃, d₃, hrun₃, hd₃, hst₃, hq₃⟩ :=
            @rest_of_transmitting mode lib _ _ _ _ _ (wired_run h hrun) hd₂ hst₂ hq₂
          have hrest : d₃.txQueue[j]? = some p := by
            rw [hq₃]
            simpa [hq] using hj
          have hrun' := hrun.append hrun₃
          exact (ih (wired_run h hrun') hd₃ hst₃ hrest).after hrun'

/-- **Any packet in a queue can be served**, unless it is on the air already. -/
theorem handsOver {j : Nat} (h : em.Wired) (hd : em.deviceTable.find ref = some d)
    (hj : d.txQueue[j]? = some p) (htx : d.state = .tx → 1 ≤ j) :
    HandsOver mode lib em ref p := by
  have hlive := h.live _ _ hd
  cases hst : d.state with
  | idle => exact handsOver_of_idle h hd hst hj
  | tx =>
      cases hq : d.txQueue with
      | nil => simp [hq] at hj
      | cons q rest =>
          obtain ⟨tr, em₁, d₁, hrun, hd₁, hst₁, hq₁⟩ :=
            @rest_of_transmitting mode lib _ _ _ _ _ h hd hst hq
          obtain ⟨i, rfl⟩ : ∃ i, j = i + 1 := ⟨j - 1, by have := htx hst; omega⟩
          have hi : d₁.txQueue[i]? = some p := by
            rw [hq₁]
            simpa [hq] using hj
          exact (handsOver_of_idle (wired_run h hrun) hd₁ hst₁ hi).after hrun
  | rx =>
      obtain ⟨tr, em₁, d₁, hrun, hd₁, hst₁, hq₁⟩ :=
        @rest_of_hearing mode lib _ _ _ h hd (.inl hst)
      exact (handsOver_of_idle (wired_run h hrun) hd₁ hst₁ (hq₁ ▸ hj)).after hrun
  | rxCollide =>
      obtain ⟨tr, em₁, d₁, hrun, hd₁, hst₁, hq₁⟩ :=
        @rest_of_hearing mode lib _ _ _ h hd (.inr hst)
      exact (handsOver_of_idle (wired_run h hrun) hd₁ hst₁ (hq₁ ▸ hj)).after hrun
  | sleep => exact absurd hst hlive.awake.1
  | failure => exact absurd hst hlive.awake.2

end Emulator

end NdnEm
