import NdnEm.Lib.Simulation
import NdnEm.Proofs.Topology
import NdnEm.Proofs.NodeView
import NdnEm.Proofs.Serving

/-!
# The network as one of its devices lives it

A device knows nothing of nodes and faces. What the network does to it is a run
of the device alone on its link: the network decides when packets are given to
it to send, when others are heard and how time passes, and the two timers do
the rest. The faces that the network keeps in a device are nothing to it.

The device sees the same timers fire, and the same time pass, as the network
shows. And it hears a packet at most as often as that packet is transmitted by
nodes that have a connection to it.
-/

namespace NdnEm

open Lib

namespace LinkDevice

variable {mode : Rearm} {l : Link} {now : Int} {raw : Nat} {d d' : LinkDevice} {p : Packet}
  {o : DeviceOut}

/-- A device without its faces. -/
def bare (d : LinkDevice) : LinkDevice := { d with faces := ∅ }

theorem startTx_bare : d.bare.startTx mode l now raw p = (d.startTx mode l now raw p).map bare := by
  unfold startTx
  split
  · rfl
  · by_cases hroom : d.txQueue.length < d.txQueueLimit
    · rw [if_pos hroom, if_pos (show d.bare.txQueue.length < d.bare.txQueueLimit from hroom)]
      rfl
    · rw [if_neg hroom, if_neg (show ¬ d.bare.txQueue.length < d.bare.txQueueLimit from hroom)]
      rfl

theorem startRx_bare : d.bare.startRx mode l now p = (d.startRx mode l now p).map bare := by
  cases hst : d.state <;> simp [startRx, bare, hst, Except.map]

theorem postRx_bare : d.bare.postRx = d.postRx.map fun r => (r.1.bare, r.2) := by
  cases hst : d.state with
  | rx => cases hp : d.pendingRx <;> simp [postRx, bare, hst, hp, Except.map]
  | _ => simp [postRx, bare, hst, Except.map]

theorem doCsma_bare {nb be : Int} : d.bare.doCsma mode l now raw nb be =
    (d.doCsma mode l now raw nb be).map fun r => (r.1.bare, r.2) := by
  cases hq : d.txQueue with
  | nil => simp [doCsma, bare, hq, Except.map]
  | cons q rest =>
      cases hst : d.state with
      | sleep => simp [doCsma, bare, hq, hst, Except.map]
      | failure => simp [doCsma, bare, hq, hst, Except.map]
      | idle => simp [doCsma, bare, hq, hst, Except.map]
      | tx => by_cases hr : rest = [] <;> simp [doCsma, bare, hq, hst, Except.map, startCsma, hr]
      | rx =>
          by_cases hnb : nb + 1 > maxCsmaBackoffs <;> by_cases hr : rest = [] <;>
            simp [doCsma, bare, hq, hst, Except.map, startCsma, hr, hnb]
      | rxCollide =>
          by_cases hnb : nb + 1 > maxCsmaBackoffs <;> by_cases hr : rest = [] <;>
            simp [doCsma, bare, hq, hst, Except.map, startCsma, hr, hnb]

/-- The callbacks read and write no face. -/
theorem fire_bare {e : TimerEvent} : d.bare.fire mode l now e =
    (d.fire mode l now e).map fun r => (r.1.bare, r.2) := by
  cases e with
  | rxExpire => rfl
  | csmaExpire => rfl
  | postRx => exact postRx_bare (d := { d with rxTimer := d.rxTimer.take })
  | postRxLate k => exact postRx_bare (d := { d with rxTimer := d.rxTimer.takeLate k })
  | doCsma raw =>
      cases hready : d.csmaTimer.ready with
      | none => simp [fire, bare, hready, Except.map]
      | some args =>
          have hbare : ({ d with csmaTimer := d.csmaTimer.take } : LinkDevice).bare.doCsma mode l
            now raw args.1 args.2 = _ := doCsma_bare
          simpa [fire, bare, hready] using hbare
  | doCsmaLate k raw =>
      cases hlate : d.csmaTimer.late[k]? with
      | none => simp [fire, bare, hlate, Except.map]
      | some args =>
          have hbare : ({ d with csmaTimer := d.csmaTimer.takeLate k } : LinkDevice).bare.doCsma
            mode l now raw args.1 args.2 = _ := doCsma_bare
          simpa [fire, bare, hlate] using hbare

end LinkDevice

namespace Emulator

variable {mode : Rearm} {lib : NdnCxx} {em em₁ em' : Emulator} {ref : DeviceRef} {l : Link}
  {d d' : LinkDevice} {seg seg' : List (DeviceEvent × DeviceOut)} {out : Output}

/-- From the one state of the network to the other, the device took those steps
on its link. -/
def Stretch (mode : Rearm) (l : Link) (ref : DeviceRef) (em em' : Emulator)
    (seg : List (DeviceEvent × DeviceOut)) : Prop :=
  ∃ d d', em.attached ref = .ok (d, l) ∧ em'.attached ref = .ok (d', l) ∧
    (Timed.system mode l).Run ⟨d.bare, em.now⟩ seg ⟨d'.bare, em'.now⟩

theorem attached_of_find {l : Link} (hd : em.deviceTable.find ref = some d)
    (hl : em.linkTable.find d.link = some l) : em.attached ref = .ok (d, l) := by
  simp [attached, hd, hl]

theorem attached_setDevice (hat : em.attached ref = .ok (d, l)) (hlink : d'.link = d.link) :
    (em.setDevice ref d').attached ref = .ok (d', l) := by
  obtain ⟨_, hl⟩ := attached_cases hat
  exact attached_of_find (FinMap.find_insert_self _ _ _) (hlink ▸ hl)

theorem attached_setDevice_ne {ref' : DeviceRef} (hne : ref ≠ ref') :
    (em.setDevice ref' d').attached ref = em.attached ref := by
  unfold attached
  rw [show (em.setDevice ref' d').deviceTable.find ref = em.deviceTable.find ref from
    FinMap.find_insert_ne hne]
  rfl

namespace Stretch

theorem rest (hat : em.attached ref = .ok (d, l)) (hsame : em'.attached ref = em.attached ref)
    (hnow : em'.now = em.now) : Stretch mode l ref em em' [] :=
  ⟨d, d, hat, hsame.trans hat, hnow ▸ .nil _⟩

theorem trans (h : Stretch mode l ref em em₁ seg) (h' : Stretch mode l ref em₁ em' seg') :
    Stretch mode l ref em em' (seg ++ seg') := by
  obtain ⟨d, d₁, hat, hat₁, hrun⟩ := h
  obtain ⟨d₁', d', hat₁', hat', hrun'⟩ := h'
  obtain ⟨rfl, _⟩ := Prod.mk.inj (Except.ok.inj (hat₁.symm.trans hat₁'))
  exact ⟨d, d', hat, hat', hrun.append hrun'⟩

theorem single {e : DeviceEvent} {o : DeviceOut} (hat : em.attached ref = .ok (d, l))
    (hlink : d'.link = d.link) (he : Timed.Enabled ⟨d.bare, em.now⟩ e)
    (hs : Timed.step mode l ⟨d.bare, em.now⟩ e = .ok (⟨d'.bare, em.now⟩, o)) :
    Stretch mode l ref em (em.setDevice ref d') [(e, o)] :=
  ⟨d, d', hat, attached_setDevice hat hlink, .single he hs⟩

/-- What stays with another device is a rest. -/
theorem elsewhere {ref' : DeviceRef} (hat : em.attached ref = .ok (d, l)) (hne : ref ≠ ref') :
    Stretch mode l ref em (em.setDevice ref' d') [] :=
  rest hat (attached_setDevice_ne hne) rfl

end Stretch

theorem send_stretch {face : Face} {raw : Nat} {pkt : Packet} (hat : em.attached ref = .ok (d, l))
    (h : em.send mode raw pkt face = .ok em') :
    ∃ seg, Stretch mode l ref em em' seg ∧ ∀ x ∈ seg, x.1 = .startTx pkt raw := by
  cases face with
  | app =>
      obtain rfl := Except.ok.inj h
      exact ⟨[], .rest hat rfl rfl, by simp⟩
  | link mac ref' =>
      rcases startTx_cases h with rfl | ⟨d₀, l₀, d', hd, hl, hs, rfl⟩
      · exact ⟨[], .rest hat rfl rfl, by simp⟩
      · by_cases href : ref = ref'
        · subst href
          obtain ⟨rfl, rfl⟩ := Prod.mk.inj (Except.ok.inj (hat.symm.trans (attached_of_find hd hl)))
          refine ⟨[(.startTx pkt raw, .enqueued pkt)], ?_, by simp⟩
          have hat' : ((em.setDst pkt mac).setSrc pkt d.macAddr).attached ref = .ok (d, l) := hat
          refine Stretch.single hat' (LinkDevice.startTx_fixed hs).2.1 trivial ?_
          have hbare : d.bare.startTx mode l em.now raw pkt =
            (d.startTx mode l em.now raw pkt).map LinkDevice.bare := LinkDevice.startTx_bare
          rw [show d.startTx mode l em.now raw pkt = some d' from hs] at hbare
          simp only [Timed.step, hbare, Option.map_some]
        · have hat' : ((em.setDst pkt mac).setSrc pkt d₀.macAddr).attached ref = .ok (d, l) := hat
          have hrest : Stretch mode l ref ((em.setDst pkt mac).setSrc pkt d₀.macAddr)
            (((em.setDst pkt mac).setSrc pkt d₀.macAddr).setDevice ref' d') [] :=
            .elsewhere hat' href
          exact ⟨[], hrest, by simp⟩

theorem sendTo_stretch {faceTable : FinMap Int Face} {raw : Int → Nat} {pkt : Packet}
    {faces : List Int} (hat : em.attached ref = .ok (d, l))
    (h : sendTo mode faceTable raw pkt em faces = .ok em') :
    ∃ seg, Stretch mode l ref em em' seg ∧ ∀ x ∈ seg, ∃ raw, x.1 = .startTx pkt raw := by
  induction faces generalizing em d with
  | nil =>
      obtain rfl := Except.ok.inj h
      exact ⟨[], .rest hat rfl rfl, by simp⟩
  | cons g gs ih =>
      rw [sendTo] at h
      split at h
      · exact ih hat h
      · split at h
        · cases h
        · next em₁ hs =>
            obtain ⟨seg, hseg, hall⟩ := send_stretch hat hs
            obtain ⟨_, d₁, _, hat₁, _⟩ := id hseg
            obtain ⟨seg', hseg', hall'⟩ := ih hat₁ h
            refine ⟨seg ++ seg', hseg.trans hseg', ?_⟩
            intro x hx
            rcases List.mem_append.mp hx with hx | hx
            · exact ⟨_, hall x hx⟩
            · exact hall' x hx

theorem onNode_stretch {id : String} {raw : Int → Nat} {e : NodeEvent}
    (hat : em.attached ref = .ok (d, l)) (h : em.onNode mode lib id raw e = .ok (em', out)) :
    ∃ seg, Stretch mode l ref em em' seg ∧ ∀ x ∈ seg, ∃ p raw, x.1 = .startTx p raw := by
  obtain ⟨n, n', o, hn, hs, ⟨_, rfl, _⟩ | ⟨fw, _, _, hf⟩⟩ := onNode_cases h
  · exact ⟨[], .rest hat rfl rfl, by simp⟩
  · have hat' : ((em.setNode id n').newPacket fw.wire).1.attached ref = .ok (d, l) := hat
    obtain ⟨seg, ⟨d₀, d', hat₀, hd', hrun⟩, hall⟩ := sendTo_stretch hat' hf
    exact ⟨seg, ⟨d₀, d', hat₀, hd', hrun⟩, fun x hx => ⟨_, hall x hx⟩⟩

/-- How often a list of neighbours comes to the device. -/
def timesNamed (link : Link) (ref : DeviceRef) (nodes : List String) : Nat :=
  nodes.countP fun b => link.nodeTable.find b = some ref

theorem transmit_stretch {link : Link} {drop : String → Bool} {pkt : Packet}
    {nodes : List String} (hat : em.attached ref = .ok (d, l))
    (h : transmit mode link drop pkt em nodes = .ok em') :
    ∃ seg, Stretch mode l ref em em' seg ∧ (∀ x ∈ seg, x.1 = .startRx pkt) ∧
      seg.length ≤ timesNamed link ref nodes := by
  induction nodes generalizing em d with
  | nil =>
      obtain rfl := Except.ok.inj h
      exact ⟨[], .rest hat rfl rfl, by simp, Nat.zero_le _⟩
  | cons b rest ih =>
      have hmore : timesNamed link ref rest ≤ timesNamed link ref (b :: rest) := by
        unfold timesNamed
        rw [List.countP_cons]
        omega
      rw [transmit] at h
      split at h
      · obtain ⟨seg, hseg, hall, hlen⟩ := ih hat h
        exact ⟨seg, hseg, hall, hlen.trans hmore⟩
      · split at h
        · cases h
        · next ref' hb =>
            split at h
            · cases h
            · next d₀ l₀ hat₀ =>
                split at h
                · cases h
                · next d' hrx =>
                    by_cases href : ref = ref'
                    · subst href
                      obtain ⟨rfl, rfl⟩ := Prod.mk.inj (Except.ok.inj (hat.symm.trans hat₀))
                      have hlink := (LinkDevice.startRx_fixed hrx).2.1
                      have hstep : Timed.step mode l ⟨d.bare, em.now⟩ (.startRx pkt) =
                          .ok (⟨d'.bare, em.now⟩, .quiet) := by
                        simp only [Timed.step, LinkDevice.startRx_bare, hrx]
                        rfl
                      have hen : Timed.Enabled ⟨d.bare, em.now⟩ (.startRx pkt) := trivial
                      obtain ⟨seg, hseg, hall, hlen⟩ := ih (attached_setDevice hat hlink) h
                      refine ⟨(.startRx pkt, .quiet) :: seg,
                        (Stretch.single hat hlink hen hstep).trans hseg, ?_, ?_⟩
                      · intro x hx
                        rcases List.mem_cons.mp hx with rfl | hx
                        · rfl
                        · exact hall x hx
                      · unfold timesNamed at hlen ⊢
                        rw [List.countP_cons_of_pos (by simp [hb]), List.length_cons]
                        omega
                    · have hat' : (em.setDevice ref' d').attached ref = .ok (d, l) :=
                        (attached_setDevice_ne href).trans hat
                      obtain ⟨seg, hseg, hall, hlen⟩ := ih hat' h
                      exact ⟨seg, (Stretch.elsewhere hat href).trans hseg, hall,
                        hlen.trans hmore⟩

/-- What comes of a reception is not in the device, but for a face. -/
theorem receive_stretch {ref' : DeviceRef} {pkt : Packet} (hat : em.attached ref = .ok (d, l))
    (h : em.receive ref' pkt = .ok em') : Stretch mode l ref em em' [] := by
  obtain ⟨d₀, n, hd, hn, ⟨_, rfl⟩ | ⟨face, hf, rfl⟩ | ⟨hf, rfl⟩⟩ := receive_cases h
  · exact .rest hat rfl rfl
  · exact .rest hat rfl rfl
  · by_cases href : ref = ref'
    · subst href
      obtain ⟨hd', hl⟩ := attached_cases hat
      obtain rfl : d = d₀ := Option.some.inj (hd'.symm.trans hd)
      exact ⟨d, _, hat, attached_of_find (FinMap.find_insert_self _ _ _) hl, .nil _⟩
    · have hne : (em.setNode ref'.node
          (n.addLinkFace (em.address pkt.id).src ref').1).attached ref = .ok (d, l) := hat
      exact ⟨d, d, hat, (attached_setDevice_ne href).trans hne, .nil _⟩

theorem fire_stretch {ref' : DeviceRef} {e : LinkDevice.TimerEvent}
    (hat : em.attached ref = .ok (d, l)) (he : em.Enabled (.timer ref' e))
    (h : em.fire mode ref' e = .ok (em', out)) :
    ∃ o, out = .device ref' o ∧
      Stretch mode l ref em em' (if ref' = ref then [(.timer e, o)] else []) := by
  obtain ⟨d₀, l₀, d', o, hd, hl, hs, rfl, hrest⟩ := fire_cases h
  refine ⟨o, rfl, ?_⟩
  have hfire : Stretch mode l ref em (em.setDevice ref' d')
      (if ref' = ref then [(.timer e, o)] else []) := by
    split
    · next href =>
        subst href
        obtain ⟨rfl, rfl⟩ := Prod.mk.inj (Except.ok.inj (hat.symm.trans (attached_of_find hd hl)))
        obtain ⟨d₁, hd₁, hcan⟩ := he
        obtain rfl : d = d₁ := Option.some.inj (hd.symm.trans hd₁)
        have hen : Timed.Enabled ⟨d.bare, em.now⟩ (.timer e) := by
          cases e <;> exact hcan
        refine .single hat (LinkDevice.fire_fixed hs).2.1 hen ?_
        simp only [Timed.step, LinkDevice.fire_bare, hs]
        rfl
    · next href => exact .elsewhere hat (Ne.symm href)
  obtain ⟨d₁, d₂, hd₁, hat', hrun⟩ := id hfire
  rcases hrest with ⟨pkt, _, hr⟩ | ⟨pkt, _, rfl⟩ | ⟨_, rfl⟩
  · have hboth := hfire.trans (receive_stretch hat' hr)
    rwa [List.append_nil] at hboth
  · exact ⟨d₁, d₂, hd₁, hat', hrun⟩
  · exact hfire

/-! ## What the device hears -/

/-- A transmission of that node on that link comes to the device. -/
def InEarshot (em : Emulator) (ref : DeviceRef) (link nodeId : String) : Prop :=
  ∃ l ∈ em.linkTable.find link, ref.node ∈ l.neighbors nodeId ∧
    l.nodeTable.find ref.node = some ref

instance (em : Emulator) (ref : DeviceRef) (link nodeId : String) :
    Decidable (em.InEarshot ref link nodeId) := inferInstanceAs (Decidable (∃ _ ∈ _, _))

/-- A transmission of that packet to the device is waiting to be carried out. -/
def waitsFor (em : Emulator) (ref : DeviceRef) (p : Packet) : Posted → Bool
  | .transmit link nodeId q => q = p ∧ em.InEarshot ref link nodeId
  | .dispatch .. => false

/-- The packet is transmitted, so that the device hears it. -/
def sentTowards (em : Emulator) (ref : DeviceRef) (p : Packet) (x : Event × Output) : Bool :=
  match x.2 with
  | .device src (.transmit q) =>
      q = p ∧ ∃ d ∈ em.deviceTable.find src, em.InEarshot ref d.link src.node
  | .device _ _ | .quiet | .forward _ _ => false

/-- The device is given the packet by the link. -/
def isHeard (p : Packet) (x : DeviceEvent × DeviceOut) : Bool := x.1 = .startRx p

theorem timesNamed_le {link : String} {nodeId : String} (hl : em.linkTable.find link = some l)
    (hent : ∀ b, l.nodeTable.find b = some ref → ref.node = b) :
    timesNamed l ref (ascending (l.neighbors nodeId)) ≤
      if em.InEarshot ref link nodeId then 1 else 0 := by
  have hle : timesNamed l ref (ascending (l.neighbors nodeId)) ≤
      (ascending (l.neighbors nodeId)).count ref.node := by
    unfold timesNamed List.count
    refine List.countP_mono_left fun b _ hb => ?_
    simpa using (hent b (by simpa using hb)).symm
  split
  · exact hle.trans (List.nodup_iff_count_le_one.mp (ascending_nodup _) _)
  · next hno =>
      rw [timesNamed, Nat.le_zero, List.countP_eq_zero]
      intro b hb hfind
      obtain rfl := hent b (by simpa using hfind)
      exact hno ⟨l, hl, mem_ascending.mp hb, by simpa using hfind⟩

theorem countP_eraseIdx {α : Type} {P : α → Bool} {xs : List α} {j : Nat} {x : α}
    (hj : xs[j]? = some x) : (xs.eraseIdx j).countP P + (if P x then 1 else 0) = xs.countP P := by
  obtain ⟨hlt, rfl⟩ := List.getElem?_eq_some_iff.mp hj
  have hperm := (List.getElem_cons_eraseIdx_perm hlt).countP_eq P
  rw [List.countP_cons] at hperm
  exact hperm

theorem onNode_posted {id : String} {raw : Int → Nat} {e : NodeEvent}
    (h : em.onNode mode lib id raw e = .ok (em', out)) : em'.posted = em.posted := by
  obtain ⟨n, n', o, _, _, ⟨_, rfl, _⟩ | ⟨fw, _, _, hf⟩⟩ := onNode_cases h
  · rfl
  · exact (sendTo_onlyDevices hf).posted

theorem fire_posted {ref' : DeviceRef} {e : LinkDevice.TimerEvent} {p : Packet}
    (h : em.fire mode ref' e = .ok (em', out)) :
    em'.posted.countP (em.waitsFor ref p) ≤ em.posted.countP (em.waitsFor ref p) +
      if em.sentTowards ref p (.timer ref' e, out) then 1 else 0 := by
  obtain ⟨d₀, l₀, d', o, hd, hl, hs, rfl, hrest⟩ := fire_cases h
  rcases hrest with ⟨pkt, _, hr⟩ | ⟨pkt, rfl, rfl⟩ | ⟨_, rfl⟩
  · have hpost : em'.posted.countP (em.waitsFor ref p) = em.posted.countP (em.waitsFor ref p) := by
      obtain ⟨_, _, _, _, ⟨_, rfl⟩ | ⟨_, _, rfl⟩ | ⟨_, rfl⟩⟩ := receive_cases hr
      · rfl
      · show (em.posted ++ [_]).countP _ = _
        rw [List.countP_append, List.countP_singleton]
        rfl
      · show (em.posted ++ [_]).countP _ = _
        rw [List.countP_append, List.countP_singleton]
        rfl
    omega
  · have hwait : em.waitsFor ref p (.transmit d₀.link ref'.node pkt) =
        em.sentTowards ref p (.timer ref' e, .device ref' (.transmit pkt)) := by
      simp [waitsFor, sentTowards, hd]
    show (em.posted ++ [_]).countP _ ≤ _
    rw [List.countP_append, List.countP_singleton, hwait]
  · exact Nat.le_add_right _ _

/-- What the device does by itself: its timers, and time. -/
def isOwn (x : DeviceEvent × DeviceOut) : Bool :=
  match x.1 with
  | .timer _ | .tick _ => true
  | .startTx .. | .startRx _ => false

/-- What the network shows of that. -/
def ownOf (ref : DeviceRef) (x : Event × Output) : Option (DeviceEvent × DeviceOut) :=
  match x.1, x.2 with
  | .timer _ e, .device ref' o => if ref' = ref then some (.timer e, o) else none
  | .tick n, _ => some (.tick n, .quiet)
  | _, _ => none

/-- Calls of `StartTx` are not the device's own, and nothing is heard. -/
theorem sends_only {p : Packet} (h : ∀ x ∈ seg, ∃ q raw, x.1 = .startTx q raw) :
    seg.filter isOwn = [] ∧ seg.countP (isHeard p) = 0 := by
  refine ⟨List.filter_eq_nil_iff.mpr ?_, List.countP_eq_zero.mpr ?_⟩
  · intro x hx
    obtain ⟨q, raw, hq⟩ := h x hx
    simp [isOwn, hq]
  · intro x hx
    obtain ⟨q, raw, hq⟩ := h x hx
    simp [isHeard, hq]

/-- One step of the network, as the device lives it. -/
theorem step_stretch {e : Event} (hat : em.attached ref = .ok (d, l))
    (hent : ∀ id l b, em.linkTable.find id = some l → l.nodeTable.find b = some ref →
      ref.node = b) (he : em.Enabled e) (h : em.step mode lib e = .ok (em', out)) :
    ∃ seg, Stretch mode l ref em em' seg ∧ seg.filter isOwn = (ownOf ref (e, out)).toList ∧
      ∀ p, seg.countP (isHeard p) + em'.posted.countP (em.waitsFor ref p) ≤
        em.posted.countP (em.waitsFor ref p) + if em.sentTowards ref p (e, out) then 1 else 0 := by
  have hnode : ∀ {id : String} {raw : Int → Nat} {ne : NodeEvent},
      em.onNode mode lib id raw ne = .ok (em', out) → ownOf ref (e, out) = none →
      ∃ seg, Stretch mode l ref em em' seg ∧ seg.filter isOwn = (ownOf ref (e, out)).toList ∧
        ∀ p, seg.countP (isHeard p) + em'.posted.countP (em.waitsFor ref p) ≤
          em.posted.countP (em.waitsFor ref p) +
            if em.sentTowards ref p (e, out) then 1 else 0 := by
    intro id raw ne h hown
    obtain ⟨seg, hseg, hall⟩ := onNode_stretch hat h
    refine ⟨seg, hseg, ?_, fun p => ?_⟩
    · rw [hown, (sends_only (p := ⟨0, .interest ⟨[], 0, 0, false, 0⟩⟩) hall).1]
      rfl
    · rw [(sends_only hall).2, onNode_posted h]
      omega
  cases e with
  | appReceive id face clk raw blk =>
      obtain ⟨w, hw, hact⟩ := dispatch_cases h
      subst hw
      exact hnode hact rfl
  | appClose id face => exact hnode h rfl
  | accept id => exact hnode h rfl
  | cleanUp id now =>
      have hclean : em.onNode mode lib id (fun _ => 0) (.cleanUp now) = .ok (em', out) := h
      exact hnode hclean rfl
  | run j clk raw drop =>
      obtain ⟨q, hq, ⟨link, nodeId, pkt, l', rfl, hl', ht, rfl⟩ | ⟨id, face, w, rfl, h⟩⟩ :=
        run_cases h
      · have hat' : ({ em with posted := em.posted.eraseIdx j } : Emulator).attached ref =
            .ok (d, l) := hat
        obtain ⟨seg, ⟨d₁, d₂, hd₁, hd₂, hrun⟩, hall, hlen⟩ := transmit_stretch hat' ht
        refine ⟨seg, ⟨d₁, d₂, hd₁, hd₂, hrun⟩, ?_, fun p => ?_⟩
        · refine List.filter_eq_nil_iff.mpr fun x hx => ?_
          simp [isOwn, hall x hx]
        · have herase := countP_eraseIdx (P := em.waitsFor ref p) hq
          have hone : timesNamed l' ref (ascending (l'.neighbors nodeId)) ≤
              if em.InEarshot ref link nodeId then 1 else 0 :=
            timesNamed_le hl' fun b => hent link l' b hl'
          have hnamed := hlen.trans hone
          rw [(transmit_onlyDevices ht).posted]
          show _ + (em.posted.eraseIdx j).countP _ ≤ _
          by_cases hp : pkt = p
          · have hle : seg.countP (isHeard p) ≤ if em.InEarshot ref link nodeId then 1 else 0 :=
              List.countP_le_length.trans hnamed
            simp only [waitsFor, hp, true_and, decide_eq_true_eq] at herase
            omega
          · have hzero : seg.countP (isHeard p) = 0 := by
              refine List.countP_eq_zero.mpr fun x hx => ?_
              simp [isHeard, hall x hx, hp]
            omega
      · have hat' : ({ em with posted := em.posted.eraseIdx j } : Emulator).attached ref =
            .ok (d, l) := hat
        obtain ⟨seg, ⟨d₁, d₂, hd₁, hd₂, hrun⟩, hall⟩ := onNode_stretch hat' h
        refine ⟨seg, ⟨d₁, d₂, hd₁, hd₂, hrun⟩, ?_, fun p => ?_⟩
        · exact (sends_only (p := ⟨0, w⟩) hall).1
        · have herase := countP_eraseIdx (P := em.waitsFor ref p) hq
          rw [(sends_only hall).2, onNode_posted h]
          show _ + (em.posted.eraseIdx j).countP _ ≤ _
          omega
  | timer ref' t =>
      obtain ⟨o, rfl, hseg⟩ := fire_stretch hat he h
      refine ⟨_, hseg, ?_, fun p => ?_⟩
      · simp only [ownOf]
        split <;> rfl
      · have hzero : (if ref' = ref then [(DeviceEvent.timer t, o)] else []).countP (isHeard p) =
            0 := by
          split <;> simp [isHeard]
        rw [hzero, Nat.zero_add]
        exact fire_posted h
  | tick n =>
      obtain ⟨rfl, rfl⟩ := Prod.mk.inj (Except.ok.inj h)
      refine ⟨[(.tick n, .quiet)], ⟨d, d, hat, hat, .single trivial rfl⟩, rfl, fun p => ?_⟩
      simp [isHeard]

/-! ## The view -/

/-- What a run of the network and a run of one of its devices have in common. -/
structure DeviceView (em₀ : Emulator) (ref : DeviceRef) (l : Link) (tr : List (Event × Output))
    (em : Emulator) (dtr : List (DeviceEvent × DeviceOut)) (t : Timed) : Prop where
  device : ∃ d, em.attached ref = .ok (d, l) ∧ t = ⟨d.bare, em.now⟩
  own : dtr.filter isOwn = tr.filterMap (ownOf ref)
  heard : ∀ p, dtr.countP (isHeard p) + em.posted.countP (em₀.waitsFor ref p) ≤
    tr.countP (em₀.sentTowards ref p)

variable {em₀ : Emulator} {c : Config} {tr : List (Event × Output)}

theorem inEarshot_same (h : SameTopology em₀ em) : em.InEarshot = em₀.InEarshot := by
  funext ref link nodeId
  rw [InEarshot, InEarshot, h.links]

theorem waitsFor_same (h : SameTopology em₀ em) : em.waitsFor = em₀.waitsFor := by
  funext ref p q
  cases q with
  | transmit link nodeId pkt => simp only [waitsFor, inEarshot_same h]
  | dispatch id face w => rfl

theorem sentTowards_same (h : SameTopology em₀ em) : em.sentTowards = em₀.sentTowards := by
  funext ref p x
  have hlink : ∀ src, (∃ d ∈ em.deviceTable.find src, em₀.InEarshot ref d.link src.node) ↔
      ∃ d ∈ em₀.deviceTable.find src, em₀.InEarshot ref d.link src.node := by
    intro src
    have hmap := h.devices src
    constructor
    · intro hex
      obtain ⟨d, hd, hear⟩ := hex
      rw [show em.deviceTable.find src = some d from hd, Option.map_some] at hmap
      obtain ⟨d', hd', hlink⟩ := Option.map_eq_some_iff.mp hmap.symm
      exact ⟨d', hd', hlink ▸ hear⟩
    · intro hex
      obtain ⟨d, hd, hear⟩ := hex
      rw [show em₀.deviceTable.find src = some d from hd, Option.map_some] at hmap
      obtain ⟨d', hd', hlink⟩ := Option.map_eq_some_iff.mp hmap
      exact ⟨d', hd', hlink ▸ hear⟩
  obtain ⟨e, out⟩ := x
  cases out with
  | quiet => rfl
  | forward id fw => rfl
  | device src o =>
      cases o with
      | transmit q =>
          simp only [sentTowards, inEarshot_same h]
          exact decide_eq_decide.mpr (and_congr_right fun _ => hlink src)
      | _ => rfl

/-- **A device of the network is a device.** Every run of the network is, for
each of its devices, a run of that device alone on its link. -/
theorem runs_as_device {d : LinkDevice} (hc : readNetworkConfig c = .ok em₀)
    (hat : em₀.start.attached ref = .ok (d, l)) (hrun : (system mode lib).Run em₀.start tr em) :
    System.Seen (Timed.system mode l) ⟨d.bare, em₀.start.now⟩ (DeviceView em₀.start ref l)
      tr em := by
  have hstart : DeviceView em₀.start ref l [] em₀.start [] ⟨d.bare, em₀.start.now⟩ := by
    refine ⟨⟨d, hat, rfl⟩, rfl, fun p => ?_⟩
    rw [(blank_config hc).start.posted]
    exact Nat.le_refl _
  refine System.Run.seen ?_ hstart hrun
  intro tr s dtr t e s' o hrun _ hview he hs
  have hsame := sameTopology_run hrun
  have hlaid : s.Laid c :=
    hrun.invariant (fun _ _ _ _ ha he hs => laid_step ha he hs) (laid_start hc)
  obtain ⟨d₁, hat₁, rfl⟩ := hview.device
  obtain ⟨seg, ⟨d₂, d₃, hat₂, hat₃, hseg⟩, hown, hheard⟩ := step_stretch hat₁
    (fun id l b hl hb => (hlaid.charted.entered id l b ref hl hb).1) he hs
  obtain ⟨rfl, _⟩ := Prod.mk.inj (Except.ok.inj (hat₁.symm.trans hat₂))
  refine ⟨seg, _, hseg, ⟨d₃, hat₃, rfl⟩, ?_, fun p => ?_⟩
  · rw [List.filter_append, List.filterMap_append, hview.own, hown]
    cases hx : ownOf ref (e, o) <;> simp [hx]
  · have hold := hview.heard p
    have hstep := hheard p
    rw [waitsFor_same hsame, sentTowards_same hsame] at hstep
    rw [List.countP_append, List.countP_append, List.countP_singleton]
    omega

end Emulator

/-! ## Nothing is received twice -/

namespace Timed

variable {mode : Rearm} {l : Link} {s s' : Timed} {e : DeviceEvent} {o : DeviceOut} {p : Packet}
  {tr : List (DeviceEvent × DeviceOut)}

/-- The packet is received. -/
def isReceived (p : Packet) (x : DeviceEvent × DeviceOut) : Bool := x.2 = .received p

/-- The packet will be received, if nothing collides with it. -/
def arriving (p : Packet) (d : LinkDevice) : Nat :=
  if d.state = .rx ∧ d.pendingRx = some p then 1 else 0

theorem arriving_of_ne {d : LinkDevice} (h : d.state ≠ .rx) : arriving p d = 0 :=
  if_neg fun hboth => h hboth.1

theorem arriving_serveNext {now : Int} {raw : Nat} {d : LinkDevice} :
    arriving p (LinkDevice.serveNext mode now raw d) = arriving p d := by
  unfold arriving
  rw [LinkDevice.serveNext_state, LinkDevice.serveNext_rx.2]

/-- A reception is heard when it begins, and is over when it is received. -/
theorem received_step (h : s.step mode l e = .ok (s', o)) :
    arriving p s'.dev + (if isReceived p (e, o) then 1 else 0) ≤
      arriving p s.dev + if Emulator.isHeard p (e, o) then 1 else 0 := by
  cases e with
  | startTx q raw =>
      rcases step_startTx h with ⟨d, hd, rfl, rfl⟩ | ⟨_, rfl, rfl⟩
      · obtain ⟨_, _, rfl⟩ := LinkDevice.startTx_cases hd
        simp [arriving, isReceived]
      · simp [isReceived]
  | startRx q =>
      obtain ⟨hrx, _, rfl⟩ := step_startRx h
      rcases LinkDevice.startRx_cases hrx with ⟨_, hd⟩ | ⟨_, st, _, _, hd⟩
      · rw [hd]
        simp [isReceived]
      · rw [hd]
        by_cases hq : q = p
        · simp only [arriving, isReceived, Emulator.isHeard, hq]
          split <;> simp
        · simp [arriving, isReceived, hq]
  | tick n =>
      obtain ⟨rfl, rfl⟩ := Prod.mk.inj (Except.ok.inj h)
      simp [isReceived]
  | timer t =>
      obtain ⟨hf, _⟩ := step_timer h
      have hheard : Emulator.isHeard p (.timer t, o) = false := by simp [Emulator.isHeard]
      rw [hheard]
      rcases LinkDevice.fire_cases hf with ⟨_, hd, rfl⟩ | ⟨_, hd, rfl⟩ | ⟨u, _, hpost⟩ |
        ⟨raw, u, nb, be, _, hcsma⟩
      · rw [hd]
        simp [arriving, isReceived]
      · rw [hd]
        simp [arriving, isReceived]
      · obtain ⟨hd, ⟨hst, q, hq, rfl⟩ | ⟨_, rfl⟩⟩ := LinkDevice.postRx_cases hpost
        · have hst : s.dev.state = .rx := hst
          have hq : s.dev.pendingRx = some q := hq
          rw [hd, arriving_of_ne (by simp)]
          simp [arriving, isReceived, hst, hq]
        · rw [hd, arriving_of_ne (by simp)]
          simp [isReceived]
      · obtain ⟨q, rest, _, hcase⟩ := LinkDevice.doCsma_cases hcsma
        rcases hcase with ⟨_, rfl, hd⟩ | ⟨_, _, rfl, hd⟩ | ⟨_, _, rfl, hd⟩ | ⟨_, rfl, hd⟩
        · rw [hd, arriving_of_ne (by simp)]
          simp [isReceived]
        · rw [hd]
          simp [arriving, isReceived]
        · rw [hd, arriving_serveNext]
          simp [arriving, isReceived]
        · rw [hd, arriving_serveNext, arriving_of_ne (by simp)]
          simp [isReceived]

/-- A packet is received as often as it is heard, at most. -/
theorem received_le_heard (h : (system mode l).Run s tr s') (hidle : s.dev.state ≠ .rx) :
    tr.countP (isReceived p) + arriving p s'.dev ≤ tr.countP (Emulator.isHeard p) := by
  induction h with
  | nil => simp [arriving_of_ne hidle]
  | snoc _ _ hs ih =>
      have hstep := received_step (p := p) hs
      rw [List.countP_append, List.countP_append, List.countP_singleton, List.countP_singleton]
      omega

/-- Only a timer of the device ends a reception. -/
theorem isOwn_of_received (h : s.step mode l e = .ok (s', o)) (ho : isReceived p (e, o)) :
    Emulator.isOwn (e, o) := by
  have ho : o = .received p := by simpa [isReceived] using ho
  cases e with
  | startTx q raw => rcases step_startTx h with ⟨_, _, _, rfl⟩ | ⟨_, _, rfl⟩ <;> cases ho
  | startRx q =>
      obtain ⟨_, _, rfl⟩ := step_startRx h
      cases ho
  | timer t => rfl
  | tick n => rfl

end Timed

namespace Emulator

variable {mode : Rearm} {lib : NdnCxx} {em em₀ : Emulator} {c : Config} {ref : DeviceRef}
  {p : Packet} {tr : List (Event × Output)}

/-- The device is shown to receive the packet. -/
def receivedAt (ref : DeviceRef) (p : Packet) (x : Event × Output) : Bool :=
  x.2 = .device ref (.received p)

/-- A timer of a device shows what that device did. -/
theorem step_device {e : Event} {o : DeviceOut} {em' : Emulator}
    (h : em.step mode lib e = .ok (em', .device ref o)) : ∃ t, e = .timer ref t := by
  have hnode : ∀ {em₁ : Emulator} {id : String} {raw : Int → Nat} {ne : NodeEvent},
      em₁.onNode mode lib id raw ne ≠ .ok (em', .device ref o) := by
    intro em₁ id raw ne hact
    obtain ⟨_, _, _, _, _, ⟨_, _, ho⟩ | ⟨_, _, ho, _⟩⟩ := onNode_cases hact <;> cases ho
  cases e with
  | appReceive id face clk raw blk =>
      obtain ⟨_, _, hact⟩ := dispatch_cases h
      exact absurd hact hnode
  | appClose id face => exact absurd h hnode
  | accept id => exact absurd h hnode
  | cleanUp id now =>
      have hclean : em.onNode mode lib id (fun _ => 0) (.cleanUp now) =
        .ok (em', .device ref o) := h
      exact absurd hclean hnode
  | run j clk raw drop =>
      obtain ⟨_, _, ⟨_, _, _, _, _, _, _, ho⟩ | ⟨_, _, _, _, hact⟩⟩ := run_cases h
      · cases ho
      · exact absurd hact hnode
  | timer ref' t =>
      obtain ⟨_, _, _, _, _, _, _, ho, _⟩ := fire_cases h
      obtain ⟨rfl, _⟩ := Output.device.inj ho
      exact ⟨t, rfl⟩
  | tick n => cases (Prod.mk.inj (Except.ok.inj h)).2

/-- What the network shows a device to receive is what the device receives. -/
theorem countP_received {l : Link} {dtr : List (DeviceEvent × DeviceOut)} {t t' : Timed}
    (hrun : (system mode lib).Run em₀ tr em) (hown : dtr.filter isOwn = tr.filterMap (ownOf ref))
    (hdev : (Timed.system mode l).Run t dtr t') :
    tr.countP (receivedAt ref p) = dtr.countP (Timed.isReceived p) := by
  have htimer : ∀ x ∈ tr, ∀ o, x.2 = .device ref o → ∃ e, x.1 = .timer ref e :=
    hrun.observes (I := fun _ => True)
      (P := fun e out => ∀ o, out = .device ref o → ∃ t, e = .timer ref t)
      (fun _ _ _ _ _ _ hs => ⟨trivial, fun o ho => step_device (ho ▸ hs)⟩) trivial
  have hended : ∀ x ∈ dtr, Timed.isReceived p x → isOwn x :=
    hdev.observes (I := fun _ => True) (P := fun e o => Timed.isReceived p (e, o) → isOwn (e, o))
      (fun _ _ _ _ _ _ hs => ⟨trivial, fun ho => Timed.isOwn_of_received hs ho⟩) trivial
  have hdtr : (dtr.filter isOwn).countP (Timed.isReceived p) =
      dtr.countP (Timed.isReceived p) := by
    rw [List.countP_filter]
    refine List.countP_congr fun x hx => ?_
    have hx' := hended x hx
    simpa using hx'
  rw [← hdtr, hown, List.countP_filterMap]
  refine List.countP_congr fun x hx => ?_
  obtain ⟨e, out⟩ := x
  constructor
  · intro hrec
    have hout : out = .device ref (.received p) := by simpa [receivedAt] using hrec
    obtain ⟨t, he⟩ := htimer _ hx _ hout
    obtain rfl : e = .timer ref t := he
    simp [hout, ownOf, Timed.isReceived]
  · intro hrec
    cases e with
    | timer ref' t =>
        cases out with
        | device ref'' o =>
            by_cases href : ref'' = ref
            · simpa [ownOf, href, Timed.isReceived, receivedAt] using hrec
            · simp [ownOf, href] at hrec
        | quiet => simp [ownOf] at hrec
        | forward id fw => simp [ownOf] at hrec
    | tick n => simp [ownOf, Timed.isReceived] at hrec
    | _ => simp [ownOf] at hrec

/-- **The radio repeats nothing.** However late its timers are, a device
receives a packet at most as often as the packet was transmitted towards it,
and what is transmitted towards it comes from a node that is connected to its
own. -/
theorem received_at_most_once (hc : readNetworkConfig c = .ok em₀)
    (hd : (em₀.deviceTable.find ref).isSome) (hrun : (system mode lib).Run em₀.start tr em)
    (p : Packet) :
    tr.countP (receivedAt ref p) ≤ tr.countP (em₀.sentTowards ref p) ∧
    ∀ x ∈ tr, em₀.sentTowards ref p x →
      ∃ src, x.2 = .device src (.transmit p) ∧ c.Connects src.node ref.node := by
  obtain ⟨d, hd⟩ := Option.isSome_iff_exists.mp hd
  obtain ⟨l, hat⟩ := (wired_config hc).start.attached hd
  obtain ⟨dtr, t, hdev, hview⟩ := runs_as_device hc hat hrun
  obtain ⟨_, _, _, hblank⟩ := (blank_config hc).devices ref d hd
  have hidle : d.bare.state ≠ .rx := by
    rw [hblank]
    simp [LinkDevice.bare, LinkDevice.new]
  refine ⟨?_, ?_⟩
  · have hheard := Timed.received_le_heard (p := p) hdev hidle
    have hsent := hview.heard p
    rw [countP_received hrun hview.own hdev]
    have hstart : em₀.start.sentTowards ref p = em₀.sentTowards ref p := rfl
    rw [hstart] at hsent
    omega
  · intro x _ hx
    obtain ⟨e, out⟩ := x
    unfold sentTowards at hx
    split at hx
    · next src q hout =>
        obtain ⟨rfl, ds, hds, ls, hls, hnear, _⟩ := of_decide_eq_true hx
        exact ⟨src, hout, ((charted_config hc).neighbors _ ls _ _ hls hnear).1⟩
    · cases hx
    · cases hx
    · cases hx

/-- The second node of the pair transmits, and the first one receives. -/
theorem received_at_most_once_pair : ∃ em em', readNetworkConfig pairConfig = .ok em ∧
    (system .late Node.noCommands).Run em.start floodRun em' ∧
    floodRun.countP (receivedAt ⟨"n0", "wn0"⟩ ⟨0, .interest floodInterest⟩) ≤
      floodRun.countP (em.sentTowards ⟨"n0", "wn0"⟩ ⟨0, .interest floodInterest⟩) ∧
    ∀ x ∈ floodRun, em.sentTowards ⟨"n0", "wn0"⟩ ⟨0, .interest floodInterest⟩ x →
      ∃ src, x.2 = .device src (.transmit ⟨0, .interest floodInterest⟩) ∧
        pairConfig.Connects src.node "n0" := by
  obtain ⟨em, hc, hd, em', hrun⟩ : ∃ em, readNetworkConfig pairConfig = .ok em ∧
      (em.deviceTable.find ⟨"n0", "wn0"⟩).isSome ∧
      ∃ em', (system .late Node.noCommands).Run em.start floodRun em' :=
    ⟨_, rfl, rfl, _, System.run_of_exec (show (system .late Node.noCommands).exec _
      (floodRun.map (·.1)) = some (floodRun, _) from rfl)⟩
  have honce := received_at_most_once hc hd hrun ⟨0, .interest floodInterest⟩
  exact ⟨em, em', hc, hrun, honce⟩

/-- **The network refines its parts.** Every run of a network is a run of each
node by itself and a run of each device by itself, which see of the network what
the views say. -/
theorem refines_parts (hc : readNetworkConfig c = .ok em₀)
    (hrun : (system mode lib).Run em₀.start tr em) :
    (∀ id n, em₀.start.nodeTable.find id = some n →
      System.Seen (Node.system lib) n (NodeView id) tr em) ∧
    ∀ ref d l, em₀.start.attached ref = .ok (d, l) →
      System.Seen (Timed.system mode l) ⟨d.bare, em₀.start.now⟩ (DeviceView em₀.start ref l)
        tr em :=
  ⟨fun _ _ hn => runs_as_node hc hn hrun, fun _ _ _ hat => runs_as_device hc hat hrun⟩

theorem refines_parts_pair : ∃ em em', readNetworkConfig pairConfig = .ok em ∧
    (system .late Node.noCommands).Run em.start floodRun em' ∧
    (∀ id n, em.start.nodeTable.find id = some n →
      System.Seen (Node.system Node.noCommands) n (NodeView id) floodRun em') ∧
    ∀ ref d l, em.start.attached ref = .ok (d, l) →
      System.Seen (Timed.system .late l) ⟨d.bare, em.start.now⟩ (DeviceView em.start ref l)
        floodRun em' := by
  obtain ⟨em, hc, em', hrun⟩ : ∃ em, readNetworkConfig pairConfig = .ok em ∧
      ∃ em', (system .late Node.noCommands).Run em.start floodRun em' :=
    ⟨_, rfl, _, System.run_of_exec (show (system .late Node.noCommands).exec _
      (floodRun.map (·.1)) = some (floodRun, _) from rfl)⟩
  exact ⟨em, em', hc, hrun, refines_parts hc hrun⟩

end Emulator

end NdnEm
