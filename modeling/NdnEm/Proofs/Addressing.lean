import NdnEm.Proofs.Forwarding
import NdnEm.Proofs.Serving

/-!
# Whose addresses a copy is sent with

`ForwardToFaces` passes one `Packet` object to every face of the list, in
order. A link face writes its remote MAC into the object whether or not its
device takes the packet, and a device that takes it writes its own MAC, so the
object ends up with the destination of the last link face and the source of
the last device that took it. The copies are pointers to that object, in the
queues of the devices, and nothing writes it after the loop: they are all sent
with the addresses the loop left.

Which devices take the packet is decided by what the network looked like when
the loop began: a packet within the MTU is taken while the device has room for
it and for the copies of the turns before.
-/

namespace NdnEm

open Lib LinkDevice Relation

/-- A turn of the loop over the faces that sends on a link face. -/
structure Turn (n : Node) (faces : List Int) where
  pos : Nat
  face : Int
  remoteMac : MacAddr
  dev : DeviceRef
  order : faces[pos]? = some face
  link : n.faceTable.find face = some (.link remoteMac dev)

theorem Turn.eq_of_pos {n : Node} {faces : List Int} {t u : Turn n faces} (h : t.pos = u.pos) :
    t = u := by
  obtain ⟨pos, face, mac, dev, hface, hlink⟩ := t
  obtain ⟨pos', face', mac', dev', hface', hlink'⟩ := u
  obtain rfl : pos = pos' := h
  obtain rfl := Option.some.inj (hface.symm.trans hface')
  obtain ⟨rfl, rfl⟩ := Face.link.inj (Option.some.inj (hlink.symm.trans hlink'))
  rfl

theorem Turn.lt_length {n : Node} {faces : List Int} (t : Turn n faces) :
    t.pos < faces.length :=
  (List.getElem?_eq_some_iff.mp t.order).1

/-- The face is a link face on that device. -/
def Node.sendsTo (n : Node) (dev : DeviceRef) (g : Int) : Bool :=
  match n.faceTable.find g with
  | some (.link _ ref) => ref = dev
  | some .app | none => false

namespace Emulator

def macOf (em : Emulator) (ref : DeviceRef) : Option MacAddr :=
  (em.deviceTable.find ref).map (·.macAddr)

section Property

variable (mode : Rearm) (em : Emulator) (n : Node) (raw : Int → Nat) (w : Wire)
  (faces : List Int)

/-- The network after that many turns of the loop. -/
def afterTurns (i : Nat) : Except Fault Emulator :=
  (em.newPacket w).1.sendTo mode n.faceTable raw (em.newPacket w).2 (faces.take i)

variable {n faces}

/-- `StartTx` of the face's device takes the packet, when its turn comes. -/
def Accepts (t : Turn n faces) : Prop :=
  ∃ em₁ d l, em.afterTurns mode n raw w faces t.pos = .ok em₁ ∧
    em₁.attached t.dev = .ok (d, l) ∧
    (d.startTx mode l em₁.now (raw t.face) (em.newPacket w).2).isSome

/-- The remote MAC of the face, and the MAC of its device. -/
def Addressed (t : Turn n faces) (a : Address) : Prop :=
  a.dst = t.remoteMac ∧ em.macOf t.dev = some a.src

variable (n faces)

/-- Every copy a device took is handed to the link with the addresses of the
face it was sent on. A copy is known by its object, which is new; where two
faces of one device take it, what holds of its copies has to hold for both. -/
def CopiesAddressed (lib : NdnCxx) (em' : Emulator) : Prop :=
  ∀ t : Turn n faces, em.Accepts mode raw w t →
    ∀ tr em₁, (system mode lib).Run em' tr em₁ →
      ∀ e, (.timer t.dev e, .device t.dev (.transmit (em.newPacket w).2)) ∈ tr →
        em.Addressed t (em₁.address em.packets)

/-- No later send of the loop changes the addresses of a copy that was taken. -/
def NeverReaddressed : Prop :=
  ∀ t : Turn n faces, em.Accepts mode raw w t →
    ∀ i em₁, t.pos < i → em.afterTurns mode n raw w faces i = .ok em₁ →
      em.Addressed t (em₁.address em.packets)

variable {n faces}

/-- Before the loop: the packet fits the link, and the device has room for it
after the copies of the turns before. -/
def Room (t : Turn n faces) : Prop :=
  ∃ d l, em.attached t.dev = .ok (d, l) ∧ w.size ≤ l.mtu ∧
    d.txQueue.length + (faces.take t.pos).countP (n.sendsTo t.dev) < d.txQueueLimit

variable (n faces)

/-- The last link face of the list has the remote MAC of every face that has
room, and the devices of those faces have one MAC. -/
def LastSpeaksForAll : Prop :=
  ∀ t u : Turn n faces, em.Room w t →
    ((∀ v : Turn n faces, v.pos ≤ u.pos) → u.remoteMac = t.remoteMac) ∧
    (em.Room w u → em.macOf u.dev = em.macOf t.dev)

/-- No link face after one that has room has another remote MAC, and none that
has room itself has a device with another MAC. -/
def NoOtherAddress : Prop :=
  ∀ t u : Turn n faces, em.Room w t → t.pos < u.pos →
    u.remoteMac = t.remoteMac ∧ (em.Room w u → em.macOf u.dev = em.macOf t.dev)

end Property

variable {mode : Rearm} {lib : NdnCxx} {em em' em₁ : Emulator} {n : Node} {raw : Int → Nat}
  {w : Wire} {faces : List Int} {p : Packet} {ref : DeviceRef} {d d' : LinkDevice} {l : Link}

/-! ## One turn -/

theorem sendTo_append {faceTable : FinMap Int Face} {fs gs : List Int} :
    sendTo mode faceTable raw p em (fs ++ gs) =
      (sendTo mode faceTable raw p em fs).bind fun a => sendTo mode faceTable raw p a gs := by
  induction fs generalizing em with
  | nil => rfl
  | cons g fs ih =>
      rw [List.cons_append, sendTo, sendTo]
      split
      · exact ih
      · split
        · rfl
        · exact ih

theorem startTx_isSome {r : Nat} {now : Int} :
    (d.startTx mode l now r p).isSome ↔
      p.getLength ≤ l.mtu ∧ d.txQueue.length < d.txQueueLimit := by
  unfold LinkDevice.startTx
  split
  · simp; omega
  · split
    · simp; omega
    · simp; omega

/-- What a turn does: nothing, or a write to the packet, with a copy for the
device if it takes one. -/
theorem turn_cases {g : Int} (h : sendTo mode n.faceTable raw p em [g] = .ok em') :
    ((∀ mac ref, n.faceTable.find g ≠ some (.link mac ref)) ∧ em' = em) ∨
    ∃ mac ref d l, n.faceTable.find g = some (.link mac ref) ∧ em.attached ref = .ok (d, l) ∧
      ((d.startTx mode l em.now (raw g) p = none ∧ em' = em.setDst p mac) ∨
        ∃ d', d.startTx mode l em.now (raw g) p = some d' ∧
          em' = ((em.setDst p mac).setSrc p d.macAddr).setDevice ref d') := by
  rw [sendTo] at h
  split at h
  · next hg =>
      obtain rfl := Except.ok.inj h
      exact .inl ⟨by simp [hg], rfl⟩
  · next face hg =>
      split at h
      · cases h
      · next em₁ hs =>
          obtain rfl : em₁ = em' := Except.ok.inj h
          cases face with
          | app =>
              obtain rfl : em = em₁ := Except.ok.inj hs
              exact .inl ⟨by simp [hg], rfl⟩
          | link mac ref =>
              refine .inr ⟨mac, ref, ?_⟩
              have htx : (em.setDst p mac).startTx mode ref (raw g) p = .ok em₁ := hs
              unfold startTx at htx
              split at htx
              · cases htx
              · next d l hat =>
                  refine ⟨d, l, hg, hat, ?_⟩
                  split at htx
                  · next hno => exact .inl ⟨hno, (Except.ok.inj htx).symm⟩
                  · next d' hyes => exact .inr ⟨d', hyes, (Except.ok.inj htx).symm⟩

/-! ## What the loop has done after some turns -/

/-- How often a device takes a packet that it is offered `c` times. -/
def taken (em : Emulator) (p : Packet) (d : LinkDevice) (c : Nat) : Nat :=
  match em.linkTable.find d.link with
  | some l => if p.getLength ≤ l.mtu then min c (d.txQueueLimit - d.txQueue.length) else 0
  | none => 0

/-- The device with that many more copies of the packet in its queue. -/
structure Grown (p : Packet) (k : Nat) (d d' : LinkDevice) : Prop where
  mac : d'.macAddr = d.macAddr
  link : d'.link = d.link
  state : d'.state = d.state
  limit : d'.txQueueLimit = d.txQueueLimit
  queue : d'.txQueue = d.txQueue ++ List.replicate k p

theorem Grown.refl (p : Packet) (d : LinkDevice) : Grown p 0 d d :=
  ⟨rfl, rfl, rfl, rfl, by simp⟩

/-- The loop over `done` leads from `em` to `em'`. -/
structure Sent (n : Node) (p : Packet) (done : List Int) (em em' : Emulator) : Prop
    extends em.OnlyDevices em' where
  devices : ∀ ref, (em.deviceTable.find ref = none ∧ em'.deviceTable.find ref = none) ∨
    ∃ d d', em.deviceTable.find ref = some d ∧ em'.deviceTable.find ref = some d' ∧
      Grown p (em.taken p d (done.countP (n.sendsTo ref))) d d'

theorem Sent.refl : Sent n p [] em em := by
  refine ⟨⟨rfl, rfl, rfl, rfl⟩, fun ref => ?_⟩
  cases hd : em.deviceTable.find ref with
  | none => exact .inl ⟨rfl, rfl⟩
  | some d =>
      have hzero : em.taken p d 0 = 0 := by
        unfold taken
        split <;> simp
      exact .inr ⟨d, d, rfl, rfl, by rw [List.countP_nil, hzero]; exact .refl p d⟩

theorem Sent.attached {done : List Int} (h : Sent n p done em em')
    (hat : em'.attached ref = .ok (d', l)) :
    ∃ d, em.attached ref = .ok (d, l) ∧
      Grown p (em.taken p d (done.countP (n.sendsTo ref))) d d' := by
  obtain ⟨hd', hl⟩ := attached_cases hat
  obtain ⟨_, hnone⟩ | ⟨d, d₁, hd, hd₁, hg⟩ := h.devices ref
  · cases hd'.symm.trans hnone
  · obtain rfl := Option.some.inj (hd'.symm.trans hd₁)
    rw [h.links, hg.link] at hl
    exact ⟨d, by simp [Emulator.attached, hd, hl], hg⟩

/-- A device takes the packet at its next turn exactly when it has room for it
after what it has taken so far. -/
theorem Sent.takes {done : List Int} {r : Nat} {now : Int}
    (hg : Grown p (em.taken p d (done.countP (n.sendsTo ref))) d d')
    (hat : em.attached ref = .ok (d, l)) :
    (d'.startTx mode l now r p).isSome ↔
      p.getLength ≤ l.mtu ∧
        d.txQueue.length + done.countP (n.sendsTo ref) < d.txQueueLimit := by
  rw [startTx_isSome, hg.queue, hg.limit, List.length_append, List.length_replicate]
  simp only [taken, (attached_cases hat).2]
  split <;> omega

/-- One more offer is taken when there is room for it, -/
theorem taken_succ {c : Nat} (hl : em.linkTable.find d.link = some l)
    (hfit : p.getLength ≤ l.mtu) (hroom : d.txQueue.length + c < d.txQueueLimit) :
    em.taken p d (c + 1) = em.taken p d c + 1 := by
  simp only [taken, hl, if_pos hfit]
  omega

/-- and changes nothing when there is none. -/
theorem taken_full {c : Nat} (hl : em.linkTable.find d.link = some l)
    (hfull : ¬ (p.getLength ≤ l.mtu ∧ d.txQueue.length + c < d.txQueueLimit)) :
    em.taken p d (c + 1) = em.taken p d c := by
  simp only [taken, hl]
  split
  · omega
  · rfl

theorem Sent.turn {done : List Int} {g : Int} (h : Sent n p done em em₁)
    (hs : sendTo mode n.faceTable raw p em₁ [g] = .ok em') : Sent n p (done ++ [g]) em em' := by
  have honly := h.toOnlyDevices.trans (sendTo_onlyDevices hs)
  have hcount : ∀ ref, (done ++ [g]).countP (n.sendsTo ref) =
      done.countP (n.sendsTo ref) + if n.sendsTo ref g then 1 else 0 := by
    intro ref
    rw [List.countP_append, List.countP_singleton]
  obtain ⟨hno, rfl⟩ | ⟨mac, dev, d₁, l, hg, hat, hcase⟩ := turn_cases hs
  · refine ⟨honly, fun ref => ?_⟩
    have hnot : n.sendsTo ref g = false := by
      unfold Node.sendsTo
      split
      · next hg => exact absurd hg (hno _ _)
      · rfl
      · rfl
    rw [hcount, hnot]
    exact h.devices ref
  · have hsends : ∀ ref, n.sendsTo ref g = decide (dev = ref) := by
      intro ref
      simp [Node.sendsTo, hg]
    obtain ⟨d, hat₀, hgrown⟩ := h.attached hat
    obtain ⟨hd, hl⟩ := attached_cases hat₀
    have htakes := @Sent.takes mode em n p dev d d₁ l done (raw g) em₁.now hgrown hat₀
    rcases hcase with ⟨hnone, rfl⟩ | ⟨d₂, hsome, rfl⟩
    · refine ⟨honly, fun ref => ?_⟩
      rw [hcount, hsends]
      by_cases href : dev = ref
      · subst href
        refine .inr ⟨d, d₁, hd, (attached_cases hat).1, ?_⟩
        rw [hnone] at htakes
        have hfull := taken_full hl fun hroom => by simpa using htakes.mpr hroom
        simpa [hfull] using hgrown
      · rw [if_neg (by simpa using href)]
        exact h.devices ref
    · obtain ⟨hfit, hroom⟩ := htakes.mp (by rw [hsome]; rfl)
      obtain ⟨_, _, rfl⟩ := LinkDevice.startTx_cases hsome
      refine ⟨honly, fun ref => ?_⟩
      rw [hcount, hsends]
      by_cases href : dev = ref
      · subst href
        refine .inr ⟨d, _, hd, setDevice_find, ?_⟩
        rw [show (if decide (dev = dev) = true then 1 else 0) = 1 by simp,
          taken_succ hl hfit hroom]
        refine ⟨hgrown.mac, hgrown.link, hgrown.state, hgrown.limit, ?_⟩
        show d₁.txQueue ++ [p] = _
        rw [hgrown.queue, List.append_assoc, List.replicate_succ']
      · have hother : (((em₁.setDst p mac).setSrc p d₁.macAddr).setDevice dev
            { d₁ with
              txQueue := d₁.txQueue ++ [p]
              csmaTimer := d₁.csmaTimer.arm mode (em₁.now + backoff (raw g) minBE) (0, minBE)
            }).deviceTable.find ref = em₁.deviceTable.find ref :=
          FinMap.find_insert_ne fun h => href h.symm
        rw [hother, if_neg (by simpa using href)]
        exact h.devices ref

theorem sent_of_sendTo {fs : List Int} (h : sendTo mode n.faceTable raw p em fs = .ok em') :
    Sent n p fs em em' := by
  induction fs using List.reverseRecOn generalizing em' with
  | nil =>
      obtain rfl : em = em' := Except.ok.inj h
      exact .refl
  | append_singleton fs g ih =>
      rw [sendTo_append] at h
      cases hfs : sendTo mode n.faceTable raw p em fs with
      | error f => simp [hfs, Except.bind] at h
      | ok em₁ =>
          rw [hfs] at h
          exact (ih hfs).turn h

/-- Nothing writes a packet object after the handler that made it. -/
theorem address_run {k : Nat} {tr : List (Event × Output)} (hk : k < em.packets)
    (hrun : (system mode lib).Run em tr em₁) : em₁.address k = em.address k := by
  have hkeep : em₁.address k = em.address k ∧ k < em₁.packets := by
    refine hrun.invariant (I := fun a => a.address k = em.address k ∧ k < a.packets) ?_ ⟨rfl, hk⟩
    intro a e b o ha he hs
    have hlt := ha.2
    refine step_preserves (P := fun a => a.address k = em.address k ∧ k < a.packets)
      (fun x y hx hm => ?_) ha he hs
    cases hm with
    | object w h =>
        have hne : k ≠ x.packets := Nat.ne_of_lt hx.2
        refine ⟨?_, Nat.lt_succ_of_lt hx.2⟩
        rw [← hx.1]
        exact Function.update_of_ne hne _ _
    | @address id addr h =>
        have hne : k ≠ id := by omega
        refine ⟨?_, hx.2⟩
        rw [← hx.1]
        exact Function.update_of_ne hne _ _
    | node => exact hx
    | startTx => exact hx
    | startRx => exact hx
    | fire => exact hx
    | face => exact hx
    | dispatch => exact hx
    | transmit => exact hx
    | unpost => exact hx
    | tick => exact hx
  exact hkeep.1

/-! ## The turns, by their place in the list -/

section Turns

variable (hend : (em.newPacket w).1.sendTo mode n.faceTable raw (em.newPacket w).2 faces = .ok em')

include hend

theorem afterTurns_ok (i : Nat) : ∃ a, em.afterTurns mode n raw w faces i = .ok a := by
  rw [← List.take_append_drop i faces, sendTo_append] at hend
  cases h : em.afterTurns mode n raw w faces i with
  | error f =>
      rw [show (em.newPacket w).1.sendTo mode n.faceTable raw (em.newPacket w).2 (faces.take i) =
        .error f from h] at hend
      cases hend
  | ok a => exact ⟨a, rfl⟩

theorem afterTurns_length {i : Nat} (hi : faces.length ≤ i) :
    em.afterTurns mode n raw w faces i = .ok em' := by
  rw [afterTurns, List.take_of_length_le hi, hend]

theorem accepts_iff (t : Turn n faces) : em.Accepts mode raw w t ↔ em.Room w t := by
  obtain ⟨a, ha⟩ := afterTurns_ok hend t.pos
  have hsent := sent_of_sendTo ha
  constructor
  · rintro ⟨a', d', l, ha', hat, hsome⟩
    obtain rfl : a = a' := Except.ok.inj (ha.symm.trans ha')
    obtain ⟨d, hat₀, hgrown⟩ := hsent.attached hat
    obtain ⟨hfit, hroom⟩ := (Sent.takes hgrown hat₀).mp hsome
    exact ⟨d, l, hat₀, hfit, hroom⟩
  · rintro ⟨d, l, hat, hfit, hroom⟩
    obtain ⟨hd, hl⟩ := attached_cases hat
    obtain ⟨hnone, _⟩ | ⟨d₀, d', hd₀, hd', hgrown⟩ := hsent.devices t.dev
    · cases hnone.symm.trans hd
    · obtain rfl := Option.some.inj (hd₀.symm.trans hd)
      refine ⟨a, d', l, ha, ?_, (Sent.takes hgrown hat).mpr ⟨hfit, hroom⟩⟩
      have hl' : a.linkTable.find d'.link = some l := by rw [hsent.links, hgrown.link]; exact hl
      simp [Emulator.attached, hd', hl']

/-- What the turn at place `i` does to the packet's addresses. -/
theorem turn_address {i : Nat} {a b : Emulator}
    (ha : em.afterTurns mode n raw w faces i = .ok a)
    (hb : em.afterTurns mode n raw w faces (i + 1) = .ok b) :
    ((∀ u : Turn n faces, u.pos ≠ i) ∧ b.address em.packets = a.address em.packets) ∨
    ∃ u : Turn n faces, u.pos = i ∧ (b.address em.packets).dst = u.remoteMac ∧
      (em.Room w u → em.macOf u.dev = some (b.address em.packets).src) ∧
      (¬ em.Room w u → (b.address em.packets).src = (a.address em.packets).src) := by
  cases hi : faces[i]? with
  | none =>
      refine .inl ⟨fun u hu => ?_, ?_⟩
      · rw [← hu, u.order] at hi
        cases hi
      · have hle : faces.length ≤ i := List.getElem?_eq_none_iff.mp hi
        obtain rfl := Except.ok.inj (ha.symm.trans (afterTurns_length hend hle))
        obtain rfl := Except.ok.inj (hb.symm.trans (afterTurns_length hend (by omega)))
        rfl
  | some g =>
      have hturn : sendTo mode n.faceTable raw (em.newPacket w).2 a [g] = .ok b := by
        rw [afterTurns, List.take_add_one, hi, Option.toList_some, sendTo_append] at hb
        rw [show (em.newPacket w).1.sendTo mode n.faceTable raw (em.newPacket w).2
          (faces.take i) = .ok a from ha] at hb
        exact hb
      obtain ⟨hno, rfl⟩ | ⟨mac, dev, d₁, l, hg, hat, hcase⟩ := turn_cases hturn
      · refine .inl ⟨fun u hu => hno u.remoteMac u.dev ?_, rfl⟩
        have hface : some g = some u.face := hi.symm.trans (hu ▸ u.order)
        rw [Option.some.inj hface, u.link]
      · let u : Turn n faces := ⟨i, g, mac, dev, hi, hg⟩
        have hroom : (d₁.startTx mode l a.now (raw g) (em.newPacket w).2).isSome ↔
            em.Room w u := by
          rw [← accepts_iff hend u]
          constructor
          · exact fun hsome => ⟨a, d₁, l, ha, hat, hsome⟩
          · rintro ⟨a', d', l', ha', hat', hsome⟩
            obtain rfl : a = a' := Except.ok.inj (ha.symm.trans ha')
            obtain ⟨rfl, rfl⟩ := Prod.mk.inj (Except.ok.inj (hat.symm.trans hat'))
            exact hsome
        obtain ⟨d, hat₀, hgrown⟩ := (sent_of_sendTo ha).attached hat
        have hmac : em.macOf dev = some d₁.macAddr := by
          have hd : em.deviceTable.find dev = some d := (attached_cases hat₀).1
          rw [macOf, hd, Option.map_some, hgrown.mac]
        refine .inr ⟨u, rfl, ?_⟩
        rcases hcase with ⟨hnone, rfl⟩ | ⟨d₂, hsome, rfl⟩
        · rw [hnone] at hroom
          refine ⟨?_, fun hyes => absurd (hroom.mpr hyes) (by simp), fun _ => ?_⟩
          · simp [setDst, setAddress, newPacket, u]
          · simp [setDst, setAddress, newPacket]
        · rw [hsome] at hroom
          refine ⟨?_, fun _ => ?_, fun hno => absurd (hroom.mp rfl) hno⟩
          · simp [setDst, setSrc, setDevice, setAddress, newPacket, u]
          · rw [hmac]
            simp [setSrc, setDevice, setAddress, newPacket]

/-- The destination is that of the last link face so far, and the source that
of some device that took the packet. -/
theorem afterTurns_address {i : Nat} {a : Emulator}
    (ha : em.afterTurns mode n raw w faces i = .ok a) :
    ((∃ u : Turn n faces, u.pos < i) → ∃ v : Turn n faces,
      (∀ u : Turn n faces, u.pos < i → u.pos ≤ v.pos) ∧
      (a.address em.packets).dst = v.remoteMac) ∧
    ∀ t : Turn n faces, t.pos < i → em.Room w t → ∃ u : Turn n faces, em.Room w u ∧
      em.macOf u.dev = some (a.address em.packets).src := by
  induction i generalizing a with
  | zero => exact ⟨fun ⟨u, hu⟩ => absurd hu (by omega), fun t ht => absurd ht (by omega)⟩
  | succ i ih =>
      obtain ⟨a₀, ha₀⟩ := afterTurns_ok hend i
      obtain ⟨hdst, hsrc⟩ := ih ha₀
      obtain ⟨hno, haddr⟩ | ⟨u₀, rfl, hmac, hyes, hnot⟩ := turn_address hend ha₀ ha
      · have hbefore : ∀ u : Turn n faces, u.pos < i + 1 → u.pos < i := by
          intro u hu
          have := hno u
          omega
        rw [haddr]
        refine ⟨fun ⟨u, hu⟩ => ?_, fun t ht => hsrc t (hbefore t ht)⟩
        obtain ⟨v, hv, hmac⟩ := hdst ⟨u, hbefore u hu⟩
        exact ⟨v, fun u hu => hv u (hbefore u hu), hmac⟩
      · refine ⟨fun _ => ⟨u₀, fun u hu => by omega, hmac⟩, fun t ht hroom => ?_⟩
        by_cases hroom₀ : em.Room w u₀
        · exact ⟨u₀, hroom₀, hyes hroom₀⟩
        · have hne : t.pos ≠ u₀.pos := fun hpos => hroom₀ (Turn.eq_of_pos hpos ▸ hroom)
          rw [hnot hroom₀]
          exact hsrc t (by omega) hroom

/-- Without another address in the way, a copy keeps its own. -/
theorem keeps_address (hother : em.NoOtherAddress n w faces) {t : Turn n faces}
    (hroom : em.Room w t) {i : Nat} (hi : t.pos < i) {a : Emulator}
    (ha : em.afterTurns mode n raw w faces i = .ok a) :
    em.Addressed t (a.address em.packets) := by
  induction i, hi using Nat.le_induction generalizing a with
  | base =>
      obtain ⟨a₀, ha₀⟩ := afterTurns_ok hend t.pos
      obtain ⟨hno, _⟩ | ⟨u, hu, hmac, hyes, _⟩ := turn_address hend ha₀ ha
      · exact absurd rfl (hno t)
      · obtain rfl := Turn.eq_of_pos hu
        exact ⟨hmac, hyes hroom⟩
  | succ i hi ih =>
      obtain ⟨a₀, ha₀⟩ := afterTurns_ok hend i
      have hold := ih ha₀
      obtain ⟨_, haddr⟩ | ⟨u, hu, hmac, hyes, hnot⟩ := turn_address hend ha₀ ha
      · rwa [haddr]
      · obtain ⟨hsame, hsrc⟩ := hother t u hroom (by omega)
        refine ⟨hmac.trans hsame, ?_⟩
        by_cases hroom' : em.Room w u
        · rw [← hsrc hroom', hyes hroom']
        · rw [hnot hroom']
          exact hold.2

/-! ## After the loop -/

theorem address_later {tr : List (Event × Output)} (hrun : (system mode lib).Run em' tr em₁) :
    em₁.address em.packets = em'.address em.packets := by
  have hlt : em.packets < em'.packets := by
    rw [(sent_of_sendTo hend).packets]
    exact Nat.lt_succ_self em.packets
  exact address_run hlt hrun

/-- Every copy that was taken can come to be handed over. -/
theorem handsOver_of_room (hw : em.Wired) {t : Turn n faces} (hroom : em.Room w t) :
    HandsOver mode lib em' t.dev (em.newPacket w).2 := by
  obtain ⟨d, l, hat, hfit, hlt⟩ := hroom
  obtain ⟨hd, hl⟩ := attached_cases hat
  have hwired : em'.Wired := by
    have hmoves := @forward_moves mode lib em em' em.packets _ _ _ _ (Nat.le_refl _) hend
    exact wired_moves hw hmoves
  obtain ⟨hnone, _⟩ | ⟨d₀, d', hd₀, hd', hgrown⟩ := (sent_of_sendTo hend).devices t.dev
  · cases hnone.symm.trans hd
  · obtain rfl := Option.some.inj (hd₀.symm.trans hd)
    have hpos : 0 < faces.countP (n.sendsTo t.dev) :=
      List.countP_pos_iff.mpr ⟨t.face, List.mem_of_getElem? t.order, by
        simp [Node.sendsTo, t.link]⟩
    have htaken : 0 < (em.newPacket w).1.taken (em.newPacket w).2 d₀
        (faces.countP (n.sendsTo t.dev)) := by
      have hl' : (em.newPacket w).1.linkTable.find d₀.link = some l := hl
      have hfit' : (em.newPacket w).2.getLength ≤ l.mtu := hfit
      simp only [taken, hl', if_pos hfit']
      omega
    have hhead : d'.txQueue[d₀.txQueue.length]? = some (em.newPacket w).2 := by
      rw [hgrown.queue, List.getElem?_append_right (Nat.le_refl _), Nat.sub_self,
        List.getElem?_replicate_of_lt htaken]
    refine handsOver hwired hd' hhead fun htx => ?_
    have hne := (hw.live _ _ hd).sends (hgrown.state.symm.trans htx)
    exact List.length_pos_iff.mpr hne

theorem copies_addressed_iff (hw : em.Wired) :
    em.CopiesAddressed mode n raw w faces lib em' ↔ em.LastSpeaksForAll n w faces := by
  obtain ⟨hdst, hsrc⟩ := afterTurns_address hend (afterTurns_length hend (Nat.le_refl _))
  constructor
  · intro hcopies
    have hfinal : ∀ t : Turn n faces, em.Room w t → em.Addressed t (em'.address em.packets) := by
      intro t hroom
      obtain ⟨tr, e, em₁, hrun⟩ := @handsOver_of_room mode lib _ _ _ _ _ _ hend hw t hroom
      rw [← address_later hend hrun]
      exact hcopies t ((accepts_iff hend t).mpr hroom) _ _ hrun e (by simp)
    intro t u hroom
    refine ⟨fun hlast => ?_, fun hroom' => ?_⟩
    · obtain ⟨v, hv, hmac⟩ := hdst ⟨u, u.lt_length⟩
      obtain rfl := Turn.eq_of_pos (Nat.le_antisymm (hlast v) (hv u u.lt_length))
      exact hmac.symm.trans (hfinal t hroom).1
    · exact (hfinal u hroom').2.trans (hfinal t hroom).2.symm
  · intro hlast t hacc tr em₁ hrun e _
    have hroom := (accepts_iff hend t).mp hacc
    obtain ⟨v, hv, hmac⟩ := hdst ⟨t, t.lt_length⟩
    obtain ⟨u, hroom', hown⟩ := hsrc t t.lt_length hroom
    rw [address_later hend hrun]
    refine ⟨hmac.trans ((hlast t v hroom).1 fun u => hv u u.lt_length), ?_⟩
    rw [← (hlast t u hroom).2 hroom', hown]

theorem never_readdressed_iff :
    (em.CopiesAddressed mode n raw w faces lib em' ∧ em.NeverReaddressed mode n raw w faces) ↔
      em.NoOtherAddress n w faces := by
  constructor
  · rintro ⟨_, hnever⟩ t u hroom hlt
    have hacc := (accepts_iff hend t).mpr hroom
    obtain ⟨a, ha⟩ := afterTurns_ok hend u.pos
    obtain ⟨b, hb⟩ := afterTurns_ok hend (u.pos + 1)
    have haddr := hnever t hacc _ _ (by omega) hb
    obtain ⟨hno, _⟩ | ⟨v, hv, hmac, hyes, _⟩ := turn_address hend ha hb
    · exact absurd rfl (hno u)
    · obtain rfl := Turn.eq_of_pos hv
      exact ⟨hmac.symm.trans haddr.1, fun hroom' => (hyes hroom').trans haddr.2.symm⟩
  · intro hother
    refine ⟨fun t hacc tr em₁ hrun e _ => ?_, fun t hacc i a hi ha => ?_⟩
    · have hroom := (accepts_iff hend t).mp hacc
      rw [address_later hend hrun]
      exact keeps_address hend hother hroom t.lt_length
        (afterTurns_length hend (Nat.le_refl _))
    · exact keeps_address hend hother ((accepts_iff hend t).mp hacc) hi ha

end Turns

/-- **Per-hop addressing**, as far as it goes: the copies of a packet are sent
with the addresses of the faces they were accepted on exactly when the last
link face speaks for all of them; and no send of the loop touches the
addresses of another's copy exactly when there is no other address. -/
theorem per_hop_addressing {c : Config} {em₀ : Emulator} (hc : readNetworkConfig c = .ok em₀)
    {tr : List (Event × Output)} (hrun : (system mode lib).Run em₀.start tr em) (id : String)
    (n : Node) (w : Wire) (out : Finset Int)
    (hf : (em.setNode id n).forward mode n.faceTable raw w (n.forwardToFaces out) = .ok em') :
    ((em.setNode id n).CopiesAddressed mode n raw w (n.forwardToFaces out) lib em' ↔
      (em.setNode id n).LastSpeaksForAll n w (n.forwardToFaces out)) ∧
    ((em.setNode id n).CopiesAddressed mode n raw w (n.forwardToFaces out) lib em' ∧
        (em.setNode id n).NeverReaddressed mode n raw w (n.forwardToFaces out) ↔
      (em.setNode id n).NoOtherAddress n w (n.forwardToFaces out)) := by
  have hw : (em.setNode id n).Wired := (wired_run (wired_config hc).start hrun).setNode id n
  exact ⟨copies_addressed_iff hf hw, never_readdressed_iff hf⟩

/-- A node between two links, with a route over each. -/
def twoLinksConfig : Config where
  links := [⟨"l0", fun len => len + 1, none⟩, ⟨"l1", fun len => len + 1, none⟩]
  nodes := [⟨"n0", none, [⟨"wn0", "l0"⟩, ⟨"wn1", "l1"⟩],
      [⟨[], "wn0", none⟩, ⟨[], "wn1", none⟩]⟩,
    ⟨"n1", none, [⟨"wn0", "l0"⟩], [⟨[], "wn0", none⟩]⟩]
  matrices := [⟨"l0", [⟨"n0", "n1"⟩, ⟨"n1", "n0"⟩]⟩]

def askedInterest : Interest := ⟨[[1]], 7, 4000, false, 40⟩

theorem per_hop_addressing_two_links : ∃ em n em', readNetworkConfig twoLinksConfig = .ok em ∧
    (em.start.setNode "n0" n).forward .late n.faceTable (fun _ => 0) (.interest askedInterest)
      (n.forwardToFaces {1, 2}) = .ok em' ∧
    ((em.start.setNode "n0" n).CopiesAddressed .late n (fun _ => 0) (.interest askedInterest)
        (n.forwardToFaces {1, 2}) Node.noCommands em' ↔
      (em.start.setNode "n0" n).LastSpeaksForAll n (.interest askedInterest)
        (n.forwardToFaces {1, 2})) := by
  obtain ⟨em, n, em', hc, hn, hf⟩ : ∃ em n em', readNetworkConfig twoLinksConfig = .ok em ∧
      em.start.nodeTable.find "n0" = some n ∧
      (em.start.setNode "n0" n).forward .late n.faceTable (fun _ => 0) (.interest askedInterest)
        (n.forwardToFaces {1, 2}) = .ok em' := ⟨_, _, _, rfl, rfl, rfl⟩
  exact ⟨em, n, em', hc, hf, (per_hop_addressing hc (.nil _) "n0" n _ {1, 2} hf).1⟩

/-- The first device's backoff ends, and it hands its copy over. -/
def handOverRun : List (Event × Output) :=
  let wn0 : DeviceRef := ⟨"n0", "wn0"⟩
  [(.timer wn0 .csmaExpire, .device wn0 .quiet),
   (.timer wn0 (.doCsma 0), .device wn0 (.transmit ⟨0, .interest askedInterest⟩))]

/-- A client of the node between asks for something. The copy on the first
link is handed over with the MAC of the second link's device as its source. -/
theorem wrong_source : ∃ em a n n' em', readNetworkConfig twoLinksConfig = .ok em ∧
    (system .late Node.noCommands).Run em.start [(.accept "n0", .quiet)] a ∧
    a.nodeTable.find "n0" = some n ∧
    n.handleInterest Node.noCommands (Clock.still 0) 3 askedInterest =
      .ok (n', some (.interest askedInterest (n'.forwardToFaces {1, 2}))) ∧
    (a.setNode "n0" n').forward .late n'.faceTable (fun _ => 0) (.interest askedInterest)
      (n'.forwardToFaces {1, 2}) = .ok em' ∧
    ¬ (a.setNode "n0" n').CopiesAddressed .late n' (fun _ => 0) (.interest askedInterest)
      (n'.forwardToFaces {1, 2}) Node.noCommands em' := by
  obtain ⟨em, a, n, n', em', em₁, d, l, hc, hrun, hn, hstep, hf, hover, hnew, hlink, horder, hat,
      hsome, hmac, hsrc⟩ : ∃ em a n n' em' em₁ d l, readNetworkConfig twoLinksConfig = .ok em ∧
      (system .late Node.noCommands).Run em.start [(.accept "n0", .quiet)] a ∧
      a.nodeTable.find "n0" = some n ∧
      n.handleInterest Node.noCommands (Clock.still 0) 3 askedInterest =
        .ok (n', some (.interest askedInterest (n'.forwardToFaces {1, 2}))) ∧
      (a.setNode "n0" n').forward .late n'.faceTable (fun _ => 0) (.interest askedInterest)
        (n'.forwardToFaces {1, 2}) = .ok em' ∧
      (system .late Node.noCommands).Run em' handOverRun em₁ ∧ a.packets = 0 ∧
      n'.faceTable.find 1 = some (.link broadcastMac ⟨"n0", "wn0"⟩) ∧
      (n'.forwardToFaces {1, 2})[0]? = some 1 ∧ a.attached ⟨"n0", "wn0"⟩ = .ok (d, l) ∧
      (d.startTx .late l a.now 0 ⟨0, .interest askedInterest⟩).isSome ∧
      a.macOf ⟨"n0", "wn0"⟩ = some 1 ∧ (em₁.address 0).src = 2 :=
    ⟨_, _, _, _, _, _, _, _, rfl,
      System.run_of_exec (show (system .late Node.noCommands).exec _ [.accept "n0"] =
        some ([(.accept "n0", .quiet)], _) from rfl),
      rfl, rfl, rfl,
      System.run_of_exec (show (system .late Node.noCommands).exec _ (handOverRun.map (·.1)) =
        some (handOverRun, _) from rfl),
      rfl, rfl, rfl, rfl, rfl, rfl, rfl⟩
  refine ⟨em, a, n, n', em', hc, hrun, hn, hstep, hf, fun h => ?_⟩
  let t : Turn n' (n'.forwardToFaces {1, 2}) :=
    ⟨0, 1, broadcastMac, ⟨"n0", "wn0"⟩, horder, hlink⟩
  have hpkt : ((a.setNode "n0" n').newPacket (.interest askedInterest)).2 =
      ⟨0, .interest askedInterest⟩ := by
    show (⟨a.packets, _⟩ : Packet) = _
    rw [hnew]
  have hacc : (a.setNode "n0" n').Accepts .late (fun _ => 0) (.interest askedInterest) t := by
    refine ⟨_, d, l, rfl, hat, ?_⟩
    rw [hpkt]
    exact hsome
  have haddr := (h t hacc handOverRun em₁ hover (.doCsma 0) (by rw [hpkt]; simp [handOverRun, t])).2
  have hone : a.macOf ⟨"n0", "wn0"⟩ = some (em₁.address a.packets).src := haddr
  rw [hmac, hnew, hsrc] at hone
  cases hone

end Emulator

end NdnEm
