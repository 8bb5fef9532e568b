import NdnEm.Proofs.Crashes

/-!
# A packet can get through

What the other files say of a network is what it never does. This one shows a
schedule by which it does something: a packet that a node has just passed to
`Send` on a link face is transmitted, heard by one neighbour and dispatched
there, on a face that leads back.

The schedule draws the backoff as zero, lets every other neighbour lose the
packet and leaves alone all that goes on elsewhere: handlers may run late, and in
any order. So it is enough that the two devices rest, with nothing to send and
nothing in the air, and that the loss rates allow it. The network may have
anything posted and any timer running besides. The time it takes is the time on
the air.

The clock that the tables go by is not the clock of the device timers, and has
a unit of its own. In these runs the one is any function of the other, and no
handler takes time.
-/

namespace NdnEm

open Lib

/-- The time that a packet of that size is on the air, for a device that waits
for its end. -/
def Link.airtime (l : Link) (size : Nat) : Nat := (l.txDelay size).toNat

theorem Link.le_airtime (l : Link) (size : Nat) : l.txDelay size ≤ l.airtime size :=
  Int.self_le_toNat _

namespace LinkDevice

variable {mode : Rearm} {l : Link} {now later expiry : Int} {d d' : LinkDevice} {p : Packet}
  {rest : List Packet}

/-- The device has nothing to do. -/
structure Rests (d : LinkDevice) : Prop where
  state : d.state = .idle
  queue : d.txQueue = []

/-- The backoff of the device's first packet is over. -/
structure Contends (d : LinkDevice) (p : Packet) (rest : List Packet) (now : Int) : Prop where
  state : d.state = .idle
  queue : d.txQueue = p :: rest
  wait : ∃ expiry ≤ now, d.csmaTimer.wait = some ⟨expiry, (0, minBE), false⟩

/-- The device neither sends nor receives, and its first packet, if there is
one, may be sent. -/
structure Ready (d : LinkDevice) (now : Int) : Prop where
  state : d.state = .idle
  wait : d.txQueue ≠ [] → ∃ expiry ≤ now, d.csmaTimer.wait = some ⟨expiry, (0, minBE), false⟩

/-- The device has its first packet in the air. -/
structure Sends (d : LinkDevice) (p : Packet) (rest : List Packet) (expiry : Int) : Prop where
  state : d.state = .tx
  queue : d.txQueue = p :: rest
  wait : d.csmaTimer.wait = some ⟨expiry, (-1, -1), false⟩

/-- The device hears one packet. -/
structure Hears (d : LinkDevice) (p : Packet) (expiry : Int) : Prop where
  state : d.state = .rx
  queue : d.txQueue = []
  pending : d.pendingRx = some p
  wait : d.rxTimer.wait = some ⟨expiry, (), false⟩

/-- All that lasts of a device is the same. -/
structure Alike (d d' : LinkDevice) : Prop where
  macAddr : d'.macAddr = d.macAddr
  link : d'.link = d.link
  limit : d'.txQueueLimit = d.txQueueLimit

theorem Alike.refl (d : LinkDevice) : d.Alike d := ⟨rfl, rfl, rfl⟩

theorem Alike.trans {d₁ d₂ : LinkDevice} (h : d.Alike d₁) (h' : d₁.Alike d₂) : d.Alike d₂ :=
  ⟨h'.macAddr.trans h.macAddr, h'.link.trans h.link, h'.limit.trans h.limit⟩

theorem backoff_zero (be : Int) : backoff 0 be = 0 := by
  rw [backoff, Nat.zero_mod]
  rfl

theorem Rests.ready (h : d.Rests) (now : Int) : d.Ready now :=
  ⟨h.state, fun hne => absurd h.queue hne⟩

theorem Ready.mono (h : d.Ready now) (hle : now ≤ later) : d.Ready later := by
  refine ⟨h.state, ?_⟩
  intro hne
  obtain ⟨expiry, hexp, hw⟩ := h.wait hne
  exact ⟨expiry, hexp.trans hle, hw⟩

theorem Ready.contends (h : d.Ready now) (hq : d.txQueue = p :: rest) : d.Contends p rest now :=
  ⟨h.state, hq, h.wait (by rw [hq]; exact List.cons_ne_nil p rest)⟩

/-- A device that is ready stays so when it is given a packet with no backoff. -/
theorem Ready.startTx (h : d.Ready now) (htx : d.startTx mode l now 0 p = some d') :
    d'.Ready now ∧ d'.txQueue = d.txQueue ++ [p] ∧ d.Alike d' := by
  obtain ⟨_, _, rfl⟩ := startTx_cases htx
  refine ⟨⟨h.state, fun _ => ⟨now + backoff 0 minBE, ?_, rfl⟩⟩, rfl, ⟨rfl, rfl, rfl⟩⟩
  rw [backoff_zero]
  omega

theorem Rests.startTx (h : d.Rests) (hlen : p.getLength ≤ l.mtu) (hroom : 0 < d.txQueueLimit)
    (mode : Rearm) (now : Int) :
    ∃ d', d.startTx mode l now 0 p = some d' ∧ d'.Contends p [] now ∧ d.Alike d' := by
  obtain ⟨d', htx⟩ : ∃ d', d.startTx mode l now 0 p = some d' := by
    unfold LinkDevice.startTx
    rw [if_neg (by omega), if_pos (by rw [h.queue]; exact hroom)]
    exact ⟨_, rfl⟩
  obtain ⟨hready, hq, halike⟩ := (h.ready now).startTx htx
  rw [h.queue] at hq
  exact ⟨d', htx, hready.contends hq, halike⟩

/-- The backoff is over, and the medium is free. -/
theorem Contends.doCsma (h : d.Contends p rest expiry) (mode : Rearm) (l : Link) (now : Int) :
    ∃ d', { d with csmaTimer := d.csmaTimer.expire }.fire mode l now (.doCsma 0) =
        .ok (d', .transmit p) ∧
      d'.Sends p rest (now + l.txDelay p.getLength) ∧ d.Alike d' := by
  obtain ⟨_, _, hw⟩ := h.wait
  have hready : d.csmaTimer.expire.ready = some (0, minBE) :=
    Timer.ready_eq_some.mpr ⟨_, Timer.wait_expire hw, rfl, rfl⟩
  simp only [fire, hready, LinkDevice.doCsma, h.queue, h.state]
  exact ⟨_, rfl, ⟨rfl, rfl, rfl⟩, ⟨rfl, rfl, rfl⟩⟩

/-- The transmission is over, and the backoff of the next packet is too. -/
theorem Sends.doCsma (h : d.Sends p rest expiry) (mode : Rearm) (l : Link) (now : Int) :
    ∃ d', { d with csmaTimer := d.csmaTimer.expire }.fire mode l now (.doCsma 0) =
        .ok (d', .finished p) ∧ d'.Ready now ∧ d'.txQueue = rest ∧ d.Alike d' := by
  have hready : d.csmaTimer.expire.ready = some (-1, -1) :=
    Timer.ready_eq_some.mpr ⟨_, Timer.wait_expire h.wait, rfl, rfl⟩
  simp only [fire, hready, LinkDevice.doCsma, h.queue, h.state]
  split
  · refine ⟨_, rfl, ⟨rfl, fun _ => ⟨now + backoff 0 minBE, ?_, rfl⟩⟩, rfl, ⟨rfl, rfl, rfl⟩⟩
    rw [backoff_zero]
    omega
  · next hlen =>
      have hnil : rest = [] := List.length_eq_zero_iff.mp (not_not.mp hlen)
      exact ⟨_, rfl, ⟨rfl, fun hne => absurd hnil hne⟩, rfl, ⟨rfl, rfl, rfl⟩⟩

theorem Rests.startRx (h : d.Rests) (mode : Rearm) (l : Link) (now : Int) (p : Packet) :
    ∃ d', d.startRx mode l now p = .ok d' ∧ d'.Hears p (now + l.txDelay p.getLength) ∧
      d.Alike d' ∧ d'.faces = d.faces := by
  simp only [LinkDevice.startRx, h.state]
  exact ⟨_, rfl, ⟨rfl, h.queue, rfl, rfl⟩, ⟨rfl, rfl, rfl⟩, rfl⟩

/-- The reception is over, and nothing has come in between. -/
theorem Hears.postRx (h : d.Hears p expiry) (mode : Rearm) (l : Link) (now : Int) :
    ∃ d', { d with rxTimer := d.rxTimer.expire }.fire mode l now .postRx = .ok (d', .received p) ∧
      d'.Rests ∧ d.Alike d' ∧ d'.faces = d.faces := by
  simp only [fire, LinkDevice.postRx, h.state, h.pending]
  exact ⟨_, rfl, ⟨rfl, h.queue⟩, ⟨rfl, rfl, rfl⟩, rfl⟩

end LinkDevice

/-- What the emulator does by itself, without its clients. -/
def Event.Internal : Event → Prop
  | .run .. | .timer .. | .tick _ => True
  | .appReceive .. | .appClose .. | .accept _ | .cleanUp .. => False

/-- What the draw for a copy can come to, on a link, from a node to a node: with
a loss rate of 0 no copy is lost, with one of 1 all are. -/
abbrev Draws := String → String → String → Bool → Prop

/-- The copies of one transmission can be lost in that way. -/
def Draws.Allow (draws : Draws) (link : String) (l : Link) (a : String) (drop : String → Bool) :
    Prop :=
  ∀ b ∈ l.neighbors a, draws link a b (drop b)

namespace Emulator

/-- The draws that the event takes are possible. -/
def Drawn (draws : Draws) (em : Emulator) : Event → Prop
  | .run k _ _ drop => ∀ link a p, em.posted[k]? = some (.transmit link a p) →
      ∀ l, em.linkTable.find link = some l → draws.Allow link l a drop
  | .appReceive .. | .appClose .. | .accept _ | .cleanUp .. | .timer .. | .tick _ => True

/-- The runs in which of the clients only `P` comes, handlers take no time, the
clock reads what it does at the time of the device timers, and copies are lost
as they can be. -/
def works (mode : Rearm) (lib : NdnCxx) (wall : Int → Int) (draws : Draws) (P : Event → Prop) :
    System Emulator Event Output Fault :=
  (system mode lib).restrict fun em e =>
    (e.Internal ∨ P e) ∧ (∀ clk ∈ e.clock, clk = Clock.still (wall em.now)) ∧ em.Drawn draws e

variable {mode : Rearm} {lib : NdnCxx} {wall : Int → Int} {draws : Draws} {P : Event → Prop}
  {em em' : Emulator} {ref : DeviceRef} {d d' : LinkDevice} {l : Link} {p : Packet}

theorem works_timer {e : LinkDevice.TimerEvent} (h : em.Enabled (.timer ref e)) :
    (works mode lib wall draws P).Enabled em (.timer ref e) := by
  refine ⟨h, .inl trivial, ?_, trivial⟩
  intro clk hclk
  cases hclk

theorem works_run {k : Nat} {raw : Int → Nat} {drop : String → Bool} (h : k < em.posted.length)
    (hdrawn : em.Drawn draws (.run k (Clock.still (wall em.now)) raw drop)) :
    (works mode lib wall draws P).Enabled em (.run k (Clock.still (wall em.now)) raw drop) := by
  refine ⟨h, .inl trivial, ?_, hdrawn⟩
  intro clk hclk
  exact (Option.some.inj hclk).symm

/-! ## The steps of the schedules -/

theorem setDevice_setDevice (em : Emulator) (ref : DeviceRef) (d d' : LinkDevice) :
    (em.setDevice ref d).setDevice ref d' = em.setDevice ref d' := by
  unfold setDevice
  rw [FinMap.insert_insert]

/-- A timer's handler that does nothing outside the device. -/
theorem fire_inside {e : LinkDevice.TimerEvent} {o : DeviceOut}
    (hd : em.deviceTable.find ref = some d) (hl : em.linkTable.find d.link = some l)
    (hf : d.fire mode l em.now e = .ok (d', o)) (hr : ∀ p, o ≠ .received p)
    (ht : ∀ p, o ≠ .transmit p) :
    em.step mode lib (.timer ref e) = .ok (em.setDevice ref d', .device ref o) := by
  show em.fire mode ref e = _
  unfold fire
  rw [attached_of_find hd hl]
  simp only [hf]
  cases o with
  | received p => exact absurd rfl (hr p)
  | transmit p => exact absurd rfl (ht p)
  | quiet => rfl
  | enqueued p => rfl
  | finished p => rfl
  | gaveUp p => rfl

theorem fire_transmit {e : LinkDevice.TimerEvent} (hd : em.deviceTable.find ref = some d)
    (hl : em.linkTable.find d.link = some l)
    (hf : d.fire mode l em.now e = .ok (d', .transmit p)) :
    em.step mode lib (.timer ref e) = .ok
      ((em.setDevice ref d').post (.transmit d.link ref.node p), .device ref (.transmit p)) := by
  show em.fire mode ref e = _
  unfold fire
  rw [attached_of_find hd hl]
  simp only [hf]

theorem fire_received {e : LinkDevice.TimerEvent} (hd : em.deviceTable.find ref = some d)
    (hl : em.linkTable.find d.link = some l)
    (hf : d.fire mode l em.now e = .ok (d', .received p))
    (hr : (em.setDevice ref d').receive ref p = .ok em') :
    em.step mode lib (.timer ref e) = .ok (em', .device ref (.received p)) := by
  show em.fire mode ref e = _
  unfold fire
  rw [attached_of_find hd hl]
  simp only [hf, hr]
  rfl

/-- Time passes. -/
def later (em : Emulator) (n : Nat) : Emulator := { em with now := em.now + n }

theorem run_tick (em : Emulator) (n : Nat) :
    (works mode lib wall draws P).Run em [(.tick n, .quiet)] (em.later n) := by
  refine .single ⟨trivial, .inl trivial, ?_, trivial⟩ rfl
  intro clk hclk
  cases hclk

/-- A wait of the csma timer that is due is queued, and its handler may run. -/
theorem csma_expires {expiry : Int} {args : Int × Int} (hd : em.deviceTable.find ref = some d)
    (hl : em.linkTable.find d.link = some l)
    (hw : d.csmaTimer.wait = some ⟨expiry, args, false⟩) (hle : expiry ≤ em.now) :
    ∃ em₁, (works mode lib wall draws P).Run em [(.timer ref .csmaExpire, .device ref .quiet)] em₁ ∧
      em₁ = em.setDevice ref { d with csmaTimer := d.csmaTimer.expire } ∧
      (works mode lib wall draws P).Enabled em₁ (.timer ref (.doCsma 0)) := by
  have hfire : d.fire mode l em.now .csmaExpire =
      .ok ({ d with csmaTimer := d.csmaTimer.expire }, .quiet) := rfl
  have hstep := @fire_inside mode lib em ref d _ l _ _ hd hl hfire (by simp) (by simp)
  refine ⟨_, .single (works_timer ⟨d, hd, _, hw, hle, rfl⟩) hstep, rfl,
    works_timer ⟨_, FinMap.find_insert_self _ _ _, ?_⟩⟩
  show (Timer.ready _).isSome
  rw [Timer.ready_eq_some.mpr ⟨_, Timer.wait_expire hw, rfl, rfl⟩]
  rfl

theorem rx_expires {expiry : Int} (hd : em.deviceTable.find ref = some d)
    (hl : em.linkTable.find d.link = some l)
    (hw : d.rxTimer.wait = some ⟨expiry, (), false⟩) (hle : expiry ≤ em.now) :
    ∃ em₁, (works mode lib wall draws P).Run em [(.timer ref .rxExpire, .device ref .quiet)] em₁ ∧
      em₁ = em.setDevice ref { d with rxTimer := d.rxTimer.expire } ∧
      (works mode lib wall draws P).Enabled em₁ (.timer ref .postRx) := by
  have hfire : d.fire mode l em.now .rxExpire =
      .ok ({ d with rxTimer := d.rxTimer.expire }, .quiet) := rfl
  have hstep := @fire_inside mode lib em ref d _ l _ _ hd hl hfire (by simp) (by simp)
  refine ⟨_, .single (works_timer ⟨d, hd, _, hw, hle, rfl⟩) hstep, rfl,
    works_timer ⟨_, FinMap.find_insert_self _ _ _, ?_⟩⟩
  show (Timer.ready _).isSome
  rw [Timer.ready_eq_some.mpr ⟨_, Timer.wait_expire hw, rfl, rfl⟩]
  rfl

/-- A device whose backoff is over starts to transmit. -/
theorem run_contends {rest : List Packet} (hd : em.deviceTable.find ref = some d)
    (hl : em.linkTable.find d.link = some l) (h : d.Contends p rest em.now) :
    ∃ tr d', (works mode lib wall draws P).Run em tr
        ((em.setDevice ref d').post (.transmit d.link ref.node p)) ∧
      d'.Sends p rest (em.now + l.txDelay p.getLength) ∧ d.Alike d' := by
  obtain ⟨expiry, hle, hw⟩ := h.wait
  obtain ⟨d', hfire, hsends, halike⟩ := h.doCsma mode l em.now
  obtain ⟨em₁, hrun, rfl, henabled⟩ :=
    @csma_expires mode lib wall draws P em ref d l _ _ hd hl hw hle
  have hstep := @fire_transmit mode lib
    (em.setDevice ref { d with csmaTimer := d.csmaTimer.expire }) ref _ d' l p _
    (FinMap.find_insert_self _ _ _) hl hfire
  rw [setDevice_setDevice] at hstep
  exact ⟨_, d', hrun.snoc henabled hstep, hsends, halike⟩

/-- A device whose transmission is over goes on to its next packet. -/
theorem run_sends {rest : List Packet} {expiry : Int} (hd : em.deviceTable.find ref = some d)
    (hl : em.linkTable.find d.link = some l) (h : d.Sends p rest expiry) (hle : expiry ≤ em.now) :
    ∃ tr d', (works mode lib wall draws P).Run em tr (em.setDevice ref d') ∧ d'.Ready em.now ∧
      d'.txQueue = rest ∧ d.Alike d' := by
  obtain ⟨d', hfire, hready, hq, halike⟩ := h.doCsma mode l em.now
  obtain ⟨em₁, hrun, rfl, henabled⟩ :=
    @csma_expires mode lib wall draws P em ref d l _ _ hd hl h.wait hle
  have hstep := @fire_inside mode lib
    (em.setDevice ref { d with csmaTimer := d.csmaTimer.expire }) ref _ d' l _ _
    (FinMap.find_insert_self _ _ _) hl hfire (by simp) (by simp)
  rw [setDevice_setDevice] at hstep
  exact ⟨_, d', hrun.snoc henabled hstep, hready, hq, halike⟩

/-! ## In the air -/

/-- The one node that does not lose the packet has `StartRx` called. -/
theorem transmit_only {drop : String → Bool} {b : String} {refb : DeviceRef} {lb : Link}
    {ids : List String} (hnodup : ids.Nodup) (hb : b ∈ ids) (hdrop : ∀ x, drop x = !(x == b))
    (hin : l.nodeTable.find b = some refb) (hat : em.attached refb = .ok (d, lb))
    (hrx : d.startRx mode lb em.now p = .ok d') :
    transmit mode l drop p em ids = .ok (em.setDevice refb d') := by
  have honly : ids.filter (fun x => !drop x) = [b] := by
    have hsame : (fun x => !drop x) = fun x => x == b := by
      funext x
      rw [hdrop, Bool.not_not]
    rw [hsame, List.filter_beq, List.count_eq_one_of_mem hnodup hb]
    rfl
  rw [transmit_eq, honly, List.map_singleton, List.foldlM_cons, hin]
  simp only [startRxOn, hat, hrx]
  rfl

section Last

variable {hs : List Posted} {h : Posted}

theorem get_last (hposted : em.posted = hs ++ [h]) : em.posted[hs.length]? = some h := by
  rw [hposted, List.getElem?_append_right (Nat.le_refl _), Nat.sub_self]
  rfl

theorem erase_last (hposted : em.posted = hs ++ [h]) : em.posted.eraseIdx hs.length = hs := by
  rw [hposted, List.eraseIdx_append_of_length_le (Nat.le_refl _), Nat.sub_self]
  exact List.append_nil hs

theorem lt_last (hposted : em.posted = hs ++ [h]) : hs.length < em.posted.length := by
  rw [hposted, List.length_append]
  exact Nat.lt_succ_self hs.length

/-- A posted transmission can be drawn for. -/
theorem drawn_last {clk : Clock} {raw : Int → Nat} {drop : String → Bool} {link a : String}
    (hposted : em.posted = hs ++ [.transmit link a p]) (hl : em.linkTable.find link = some l)
    (hallow : draws.Allow link l a drop) : em.Drawn draws (.run hs.length clk raw drop) := by
  intro link' a' p' hget l' hl'
  rw [get_last hposted] at hget
  obtain ⟨rfl, rfl, rfl⟩ := Posted.transmit.inj (Option.some.inj hget)
  obtain rfl := Option.some.inj (hl.symm.trans hl')
  exact hallow

/-- A posted transmission is heard by a neighbour that rests. -/
theorem run_transmit {link a b : String} {refb : DeviceRef} {lb : Link}
    (hposted : em.posted = hs ++ [.transmit link a p]) (hl : em.linkTable.find link = some l)
    (hallow : draws.Allow link l a fun x => !(x == b)) (hb : b ∈ l.neighbors a)
    (hin : l.nodeTable.find b = some refb) (hd : em.deviceTable.find refb = some d)
    (hlb : em.linkTable.find d.link = some lb)
    (h : d.Rests) :
    ∃ tr d',
      (works mode lib wall draws P).Run em tr
        (({ em with posted := hs } : Emulator).setDevice refb d') ∧
      d'.Hears p (em.now + lb.txDelay p.getLength) ∧ d.Alike d' ∧ d'.faces = d.faces := by
  obtain ⟨d', hrx, hhears, halike, hfaces⟩ := h.startRx mode lb em.now p
  refine ⟨[(.run hs.length (Clock.still (wall em.now)) (fun _ => 0) fun x => !(x == b), .quiet)],
    d', .single (works_run (lt_last hposted) (drawn_last hposted hl hallow)) ?_, hhears, halike,
    hfaces⟩
  have hat : ({ em with posted := hs } : Emulator).attached refb = .ok (d, lb) :=
    attached_of_find hd hlb
  have htransmit : transmit mode l (fun x => !(x == b)) p { em with posted := hs }
      (ascending (l.neighbors a)) = .ok (({ em with posted := hs } : Emulator).setDevice refb d') :=
    transmit_only (ascending_nodup (l.neighbors a)) (mem_ascending.mpr hb) (fun _ => rfl) hin hat
      hrx
  show em.step mode lib (.run _ _ _ _) = _
  simp only [step, get_last hposted, erase_last hposted, runPosted, hl, htransmit]
  rfl

end Last

/-- What a reception leaves: a rested device, and a posted dispatch on a face
that leads back to the sender. -/
structure Received (em em' : Emulator) (ref : DeviceRef) (d : LinkDevice) (n : Node) (p : Packet)
    (face : Int) : Prop where
  posted : em'.posted = em.posted ++ [.dispatch ref.node face p.wire]
  back : em'.LinkFaceAt ref.node face (em.address p.id).src ref
  now : em'.now = em.now
  links : em'.linkTable = em.linkTable
  devices : ∃ d', em'.deviceTable = em.deviceTable.insert ref d' ∧ d'.Rests ∧ d.Alike d'
  nodes : em'.nodeTable = em.nodeTable ∨
    em'.nodeTable = em.nodeTable.insert ref.node (n.addLinkFace (em.address p.id).src ref).1

/-- A packet that is for the device has a face found for it, or made. -/
theorem received {d₀ : LinkDevice} {n : Node} (hground : em.Grounded)
    (hd : em.deviceTable.find ref = some d) (hrests : d₀.Rests) (halike : d.Alike d₀)
    (hfaces : d₀.faces = d.faces) (hn : em.nodeTable.find ref.node = some n)
    (hdst : (em.address p.id).dst = d.macAddr ∨ (em.address p.id).dst = broadcastMac) :
    ∃ em' face, (em.setDevice ref d₀).receive ref p = .ok em' ∧ em.Received em' ref d n p face := by
  have hfind : (em.setDevice ref d₀).deviceTable.find ref = some d₀ :=
    FinMap.find_insert_self _ _ _
  have hdst' : (em.address p.id).dst = d₀.macAddr ∨ (em.address p.id).dst = broadcastMac := by
    rw [halike.macAddr]
    exact hdst
  unfold receive
  rw [hfind]
  simp only [show (em.setDevice ref d₀).nodeTable.find ref.node = some n from hn,
    show (em.setDevice ref d₀).address = em.address from rfl]
  rw [if_pos hdst']
  cases hf : d₀.faces.find (em.address p.id).src with
  | some face =>
      refine ⟨_, face, rfl, rfl, ?_, rfl, rfl, ⟨d₀, rfl, hrests, halike⟩, .inl rfl⟩
      exact hground.devices ref d _ face hd (hfaces ▸ hf)
  | none =>
      refine ⟨_, n.faceCounter, rfl, rfl, ?_, rfl, rfl, ?_, .inr rfl⟩
      · exact ⟨_, FinMap.find_insert_self _ _ _, FinMap.find_insert_self _ _ _⟩
      · refine ⟨{ d₀ with faces := d₀.faces.insert (em.address p.id).src n.faceCounter }, ?_,
          ⟨hrests.state, hrests.queue⟩, ⟨halike.macAddr, halike.link, halike.limit⟩⟩
        exact congrArg deviceTable (setDevice_setDevice em ref d₀ _)

/-- A device that has heard a packet to its end gives it to its node. -/
theorem run_hears {expiry : Int} {n : Node} (hground : em.Grounded)
    (hd : em.deviceTable.find ref = some d) (hl : em.linkTable.find d.link = some l)
    (h : d.Hears p expiry) (hle : expiry ≤ em.now) (hn : em.nodeTable.find ref.node = some n)
    (hdst : (em.address p.id).dst = d.macAddr ∨ (em.address p.id).dst = broadcastMac) :
    ∃ tr em' face, (works mode lib wall draws P).Run em tr em' ∧
      em.Received em' ref d n p face := by
  obtain ⟨d₀, hfire, hrests, halike, hfaces⟩ := h.postRx mode l em.now
  obtain ⟨em₁, hrun, rfl, henabled⟩ :=
    @rx_expires mode lib wall draws P em ref d l _ hd hl h.wait hle
  obtain ⟨em', face, hreceive, hgot⟩ := received hground hd hrests halike hfaces hn hdst
  have hstep := @fire_received mode lib
    (em.setDevice ref { d with rxTimer := d.rxTimer.expire }) em' ref _ d₀ l p _
    (FinMap.find_insert_self _ _ _) hl hfire (by rw [setDevice_setDevice]; exact hreceive)
  exact ⟨_, em', face, hrun.snoc henabled hstep, hgot⟩

/-! ## From `Send` to the dispatch -/

theorem startTx_takes {r : Nat} (hat : em.attached ref = .ok (d, l))
    (htx : d.startTx mode l em.now r p = some d') :
    em.startTx mode ref r p = .ok ((em.setSrc p d.macAddr).setDevice ref d') := by
  unfold startTx
  rw [hat]
  simp only [htx]

section Carry

variable {w : Wire} {g : Int} {mac : MacAddr} {faceTable : FinMap Int Face}
  {refb : DeviceRef} {db : LinkDevice} {n : Node}

/-- A packet that is passed to `Send` on one link face stands in the queue of
its device, with its addresses. -/
theorem forward_link (hg : faceTable.find g = some (.link mac ref))
    (hd : em.deviceTable.find ref = some d) (hl : em.linkTable.find d.link = some l)
    (hrests : d.Rests) (hroom : 0 < d.txQueueLimit) (hfits : w.size ≤ l.mtu) (mode : Rearm) :
    ∃ em' d', em.forward mode faceTable (fun _ => 0) w [g] = .ok em' ∧
      d'.Contends ⟨em.packets, w⟩ [] em.now ∧ d.Alike d' ∧
      em'.deviceTable = em.deviceTable.insert ref d' ∧
      em'.address em.packets = ⟨mac, d.macAddr⟩ ∧ em'.posted = em.posted ∧
      em'.nodeTable = em.nodeTable ∧ em'.linkTable = em.linkTable ∧ em'.now = em.now := by
  have hlen : (⟨em.packets, w⟩ : Packet).getLength ≤ l.mtu := hfits
  obtain ⟨d', htx, hcontends, halike⟩ := hrests.startTx hlen hroom mode em.now
  have hsend : (em.newPacket w).1.send mode 0 (em.newPacket w).2 (.link mac ref) =
      .ok ((((em.newPacket w).1.setDst (em.newPacket w).2 mac).setSrc (em.newPacket w).2
        d.macAddr).setDevice ref d') := by
    have hat : ((em.newPacket w).1.setDst (em.newPacket w).2 mac).attached ref = .ok (d, l) :=
      attached_of_find hd hl
    exact startTx_takes hat htx
  refine ⟨(((em.newPacket w).1.setDst (em.newPacket w).2 mac).setSrc (em.newPacket w).2
    d.macAddr).setDevice ref d', d', ?_, hcontends, halike, rfl, ?_, rfl, rfl, rfl, rfl⟩
  · unfold forward
    simp only [sendTo, hg, hsend]
  · simp [setDst, setSrc, setDevice, setAddress, newPacket]

/-- What was sent on a link face has come to the neighbour, and the two devices
rest again. -/
structure Carried (em em' : Emulator) (ref refb : DeviceRef) (d db : LinkDevice) (nb : Node)
    (w : Wire) (face : Int) (wait : Nat) : Prop where
  posted : em'.posted = em.posted ++ [.dispatch refb.node face w]
  back : em'.LinkFaceAt refb.node face d.macAddr refb
  now : em'.now = em.now + wait
  links : em'.linkTable = em.linkTable
  sender : ∃ d', em'.deviceTable.find ref = some d' ∧ d'.Rests ∧ d.Alike d'
  receiver : ∃ d', em'.deviceTable.find refb = some d' ∧ d'.Rests ∧ db.Alike d'
  others : ∀ r, r ≠ ref → r ≠ refb → em'.deviceTable.find r = em.deviceTable.find r
  nodes : em'.nodeTable = em.nodeTable ∨
    em'.nodeTable = em.nodeTable.insert refb.node (nb.addLinkFace d.macAddr refb).1

/-- **A packet can get through.** There is a schedule by which a packet that
was passed to `Send` on a link face is dispatched at a neighbour, when it has
been on the air. -/
theorem carry {em₂ : Emulator} {nb : Node} (hground : em₂.Grounded)
    (hforward : em.forward mode faceTable (fun _ => 0) w [g] = .ok em₂)
    (hg : faceTable.find g = some (.link mac ref)) (hd : em.deviceTable.find ref = some d)
    (hl : em.linkTable.find d.link = some l) (hrests : d.Rests) (hroom : 0 < d.txQueueLimit)
    (hfits : w.size ≤ l.mtu) (hallow : draws.Allow d.link l ref.node fun x => !(x == refb.node))
    (hb : refb.node ∈ l.neighbors ref.node) (hin : l.nodeTable.find refb.node = some refb)
    (hne : refb ≠ ref) (hdb : em.deviceTable.find refb = some db) (hsame : db.link = d.link)
    (hrestsb : db.Rests) (hdst : mac = db.macAddr ∨ mac = broadcastMac)
    (hnb : em.nodeTable.find refb.node = some nb) :
    ∃ tr em' face, (works mode lib wall draws P).Run em₂ tr em' ∧
      em.Carried em' ref refb d db nb w face (l.airtime w.size) := by
  obtain ⟨em₂', d₁, hfwd, hcontends, halike₁, hdevs, haddr, hposted, hnodes, hlinks, hnow⟩ :=
    forward_link hg hd hl hrests hroom hfits mode
  obtain rfl := Except.ok.inj (hfwd.symm.trans hforward)
  have hair : l.txDelay (⟨em.packets, w⟩ : Packet).getLength ≤ l.airtime w.size := l.le_airtime _
  -- the device transmits
  have hd₁ : em₂'.deviceTable.find ref = some d₁ := by rw [hdevs, FinMap.find_insert_self]
  have hl₁ : em₂'.linkTable.find d₁.link = some l := by rw [hlinks, halike₁.link]; exact hl
  rw [← hnow] at hcontends
  obtain ⟨tr₁, d₂, hrun₁, hsends, halike₂⟩ :=
    @run_contends mode lib wall draws P em₂' ref d₁ l _ _ hd₁ hl₁ hcontends
  -- the neighbour hears it
  have hposted₁ : ((em₂'.setDevice ref d₂).post
      (.transmit d₁.link ref.node ⟨em.packets, w⟩)).posted =
        em.posted ++ [.transmit d₁.link ref.node ⟨em.packets, w⟩] := by
    rw [← hposted]
    rfl
  have hdb₁ : (em₂'.deviceTable.insert ref d₂).find refb = some db := by
    rw [FinMap.find_insert_ne hne, hdevs, FinMap.find_insert_ne hne]
    exact hdb
  have hlb : em₂'.linkTable.find db.link = some l := by rw [hlinks, hsame]; exact hl
  obtain ⟨tr₂, db₁, hrun₂, hhears, halikeb, _⟩ :=
    @run_transmit mode lib wall draws P _ db l _ em.posted _ _ _ refb l hposted₁ hl₁
      (halike₁.link ▸ hallow) hb hin hdb₁ hlb hrestsb
  have hrun₃ := @run_tick mode lib wall draws P ((({ ((em₂'.setDevice ref d₂).post
    (.transmit d₁.link ref.node ⟨em.packets, w⟩)) with posted := em.posted } :
      Emulator).setDevice refb db₁)) (l.airtime w.size)
  -- it has heard all of it, and gives it to its node
  have hground₃ := grounded_run hground ((hrun₁.append hrun₂).append hrun₃).of_restrict
  have hlb₁ : em₂'.linkTable.find db₁.link = some l := by rw [halikeb.link]; exact hlb
  have hnb₁ : em₂'.nodeTable.find refb.node = some nb := by rw [hnodes]; exact hnb
  have hdst₁ : (em₂'.address em.packets).dst = db₁.macAddr ∨
      (em₂'.address em.packets).dst = broadcastMac := by
    rw [haddr, halikeb.macAddr]
    exact hdst
  obtain ⟨tr₄, em₄, face, hrun₄, hgot⟩ := @run_hears mode lib wall draws P _ refb db₁ l _ _ nb
    hground₃ (FinMap.find_insert_self _ _ _) hlb₁ hhears (Int.add_le_add_left hair em₂'.now) hnb₁
    hdst₁
  have hsrc : (em₂'.address em.packets).src = d.macAddr := by rw [haddr]
  obtain ⟨db₂, hdevs₄, hrestsb₂, halikeb₂⟩ := hgot.devices
  have hother : ∀ r, r ≠ refb →
      em₄.deviceTable.find r = (em₂'.deviceTable.insert ref d₂).find r := by
    intro r hr
    rw [hdevs₄, FinMap.find_insert_ne hr]
    exact FinMap.find_insert_ne hr
  -- the sender is done
  have hd₂ : em₄.deviceTable.find ref = some d₂ := by
    rw [hother ref hne.symm, FinMap.find_insert_self]
  have hl₂ : em₄.linkTable.find d₂.link = some l := by
    rw [hgot.links, halike₂.link]
    exact hl₁
  have hnow₄ : em₄.now = em₂'.now + l.airtime w.size := hgot.now
  obtain ⟨tr₅, d₃, hrun₅, hready₃, hq₃, halike₃⟩ := @run_sends mode lib wall draws P em₄ ref d₂ l _
    _ _ hd₂ hl₂ hsends (by rw [hnow₄]; exact Int.add_le_add_left hair em₂'.now)
  refine ⟨_, _, face, (((hrun₁.append hrun₂).append hrun₃).append hrun₄).append hrun₅,
    ?_, ?_, ?_, ?_, ?_, ?_, ?_, ?_⟩
  · exact hgot.posted
  · exact hsrc ▸ hgot.back
  · rw [← hnow]
    exact hnow₄
  · exact hgot.links.trans hlinks
  · exact ⟨d₃, FinMap.find_insert_self _ _ _, ⟨hready₃.state, hq₃⟩,
      (halike₁.trans halike₂).trans halike₃⟩
  · refine ⟨db₂, ?_, hrestsb₂, halikeb.trans halikeb₂⟩
    show (em₄.deviceTable.insert ref d₃).find refb = some db₂
    rw [FinMap.find_insert_ne hne, hdevs₄, FinMap.find_insert_self]
  · intro r hr hrb
    show (em₄.deviceTable.insert ref d₃).find r = _
    rw [FinMap.find_insert_ne hr, hother r hrb, FinMap.find_insert_ne hr, hdevs,
      FinMap.find_insert_ne hr]
  · rw [← hnodes, ← hsrc]
    exact hgot.nodes

end Carry

end Emulator

end NdnEm
