import NdnEm.Proofs.CacheAccount
import NdnEm.Proofs.CacheLimit
import NdnEm.Proofs.Commands
import NdnEm.Proofs.DeviceView
import NdnEm.Proofs.Outstanding

/-!
# What can end a run

The handlers are full of ways to end the emulator: assertions, exceptions that
nothing catches, pointers that may be null, iterators and indexes that may be
out of range. With ideal timers and content stores whose limit is not negative
all but two of them are out of reach: a client can send a block that does not
decode, and an Interest under the manager's routes can have too few components
for a command.

That is an equivalence, state by state. A node that has its manager and keeps
account of its store fails at nothing else; the tables that the configuration
has set up answer every lookup of a loop over faces or neighbours; and a device
fails at nothing, since by itself it does not.

The handlers meant are those of the network, from `Face::Dispatch` on. What goes
wrong between an `AppFace` and its socket is not among them: a packet that does
not fit the receive buffer, and an `async_send` that is outstanding when its
face is removed, whose handler finds the face gone.
-/

namespace NdnEm

open Lib

/-- A request that is valid has a name. -/
def NdnCxx.NamesRoutes (lib : NdnCxx) : Prop :=
  ∀ p, lib.validateRequest p = true → p.name.isSome

/-! ## A node -/

namespace Node

variable {lib : NdnCxx} {n n' : Node} {clk : Clock} {f : Int} {i : Interest} {d : Data}
  {o : Option Forward} {e : NodeEvent}

/-- The node has its manager, and a store that keeps account of what it holds. -/
structure Sturdy (n : Node) : Prop where
  manager : n.fibManager = some ⟨0, ribPrefix⟩
  store : ∃ limit, 0 ≤ limit ∧ limit < 2 ^ 31 ∧ CacheManager.Accounted limit n.cacheManager

theorem Sturdy.of_same (h : n.Sturdy) (hm : n'.fibManager = n.fibManager)
    (hc : n'.cacheManager = n.cacheManager) : n'.Sturdy :=
  ⟨hm.trans h.manager, hc ▸ h.store⟩

theorem Sturdy.insert (h : n.Sturdy) (now : Int) (d : Data) :
    ∃ c, n.cacheManager.insert now d = .ok c ∧ (n.withCache c).Sturdy := by
  obtain ⟨limit, hlo, hhi, hacc⟩ := h.store
  obtain ⟨c, hc, hacc'⟩ := hacc.insert hlo hhi now d
  exact ⟨c, hc, h.manager, limit, hlo, hhi, hacc'⟩

theorem handleData_sturdy (h : n.Sturdy) (hs : n.handleData clk f d = .ok (n', o)) :
    n'.Sturdy := by
  rcases handleData_cases hs with ⟨_, rfl, _⟩ | ⟨_, c, hc, rfl, _⟩
  · exact h.of_same rfl rfl
  · obtain ⟨c', hc', hsturdy⟩ := h.insert clk.insert d
    obtain rfl := Except.ok.inj (hc.symm.trans hc')
    exact hsturdy.of_same rfl rfl

theorem handleInterest_sturdy (h : n.Sturdy) (hs : n.handleInterest lib clk f i = .ok (n', o)) :
    n'.Sturdy := by
  rcases handleInterest_cases hs with ⟨_, _, rfl, _⟩ | ⟨_, ⟨_, rfl, _⟩ | ⟨_, _, rfl, _⟩ |
    ⟨_, _, hcmd⟩ | ⟨_, _, _, rfl, _⟩⟩
  · exact h
  · exact h.of_same rfl rfl
  · exact h.of_same rfl rfl
  · have hpit : (n.withPit (n.pit.addInterest clk.add f i).2).Sturdy := h.of_same rfl rfl
    rcases processCommand_cases hcmd with ⟨rfl, _⟩ | ⟨fib, r, _, hsend⟩
    · exact hpit
    · have hfib : ((n.withPit (n.pit.addInterest clk.add f i).2).withFib fib).Sturdy :=
        hpit.of_same rfl rfl
      exact handleData_sturdy (f := 0) hfib hsend
  · exact h.of_same rfl rfl

theorem sturdy_step (h : n.Sturdy) (hs : n.step lib e = .ok (n', o)) : n'.Sturdy := by
  cases e with
  | interest clk f i => exact handleInterest_sturdy h hs
  | data clk f d => exact handleData_sturdy (f := f) h hs
  | removeFace f =>
      rw [removeFace_cases (step_removeFace hs).1]
      exact h.of_same rfl rfl
  | cleanUp now =>
      obtain ⟨rfl, _⟩ := Prod.mk.inj (Except.ok.inj hs)
      exact h.of_same rfl rfl
  | addLinkFace mac dev =>
      obtain ⟨rfl, _⟩ := Prod.mk.inj (Except.ok.inj hs)
      exact h.of_same rfl rfl
  | accept =>
      obtain ⟨face, _, rfl, _⟩ := step_accept hs
      exact h.of_same rfl rfl

/-- Data is always handled. -/
theorem Sturdy.handleData (h : n.Sturdy) (clk : Clock) (f : Int) (d : Data) :
    ∃ r, n.handleData clk f d = .ok r := by
  unfold Node.handleData
  simp only []
  split
  · exact ⟨_, rfl⟩
  · obtain ⟨c, hc, _⟩ := h.insert clk.insert d
    rw [show ({ n with pit := (n.pit.consumeInterestWithDataName clk.consume d.name ∅).1 } :
      Node).cacheManager.insert clk.insert d = .ok c from hc]
    exact ⟨_, rfl⟩

/-- A route is added, or refused, without an assertion. -/
theorem addNextHop_total (hlib : lib.KeepsFields) (hname : lib.NamesRoutes) {fib : Fib}
    {p : ControlParameters} (hface : p.faceId.isSome) :
    ∃ r, FibManager.addNextHop lib fib p = .ok r := by
  unfold FibManager.addNextHop FibManager.validateParameters
  by_cases hvalid : lib.validateRequest p = true
  · obtain ⟨m, hm⟩ := Option.isSome_iff_exists.mp (hname p hvalid)
    obtain ⟨x, hx⟩ := Option.isSome_iff_exists.mp hface
    rw [if_pos hvalid]
    simp only [(hlib.name p).trans hm, hlib.faceId p x hx]
    exact ⟨_, rfl⟩
  · rw [if_neg hvalid]
    exact ⟨_, rfl⟩

theorem orRequester_isSome (p : ControlParameters) (f : Int) : (p.orRequester f).faceId.isSome := by
  unfold ControlParameters.orRequester
  split
  · rfl
  · next hnot =>
      rw [not_or] at hnot
      exact Option.isSome_iff_ne_none.mpr hnot.1

/-- A command with enough components is always handled. -/
theorem Sturdy.processCommand (hlib : lib.KeepsFields) (hname : lib.NamesRoutes) (h : n.Sturdy)
    (hlen : 5 ≤ i.name.length) : ∃ r, n.processCommand lib clk f i = .ok r := by
  have hthree : ribPrefix.length = 3 := rfl
  have hverb : ribPrefix.length < i.name.length := by omega
  have hparams : ribPrefix.length + 1 < i.name.length := by omega
  simp only [Node.processCommand, h.manager, List.getElem?_eq_getElem hverb,
    List.getElem?_eq_getElem hparams]
  split
  · split
    · exact ⟨_, rfl⟩
    · next params hparams' =>
        obtain ⟨⟨fib, r⟩, hnext⟩ : ∃ r, FibManager.addNextHop lib n.fib (params.orRequester f) =
            .ok r := addNextHop_total hlib hname (orRequester_isSome params f)
        rw [show FibManager.addNextHop lib n.fib (if params.faceId = none ∨ params.faceId = some 0
          then { params with faceId := some (UInt64.ofNat (toSize f)) } else params) =
          .ok (fib, r) from hnext]
        have hfib : Sturdy { n with fib := fib, fibManager := some ⟨0, ribPrefix⟩ } :=
          ⟨rfl, h.store⟩
        exact hfib.handleData clk 0 _
  · exact ⟨_, rfl⟩

/-- The Interest is for the manager, and too short to be a command. -/
def Stops (n : Node) (clk : Clock) (f : Int) (i : Interest) : Prop :=
  n.Passes clk f i ∧ i.name.length < 5

theorem Sturdy.handleInterest_iff (hlib : lib.KeepsFields) (hname : lib.NamesRoutes)
    (h : n.Sturdy) : (∃ r, n.handleInterest lib clk f i = .ok r) ↔ ¬ n.Stops clk f i := by
  have hpit : (n.withPit (n.pit.addInterest clk.add f i).2).Sturdy := h.of_same rfl rfl
  by_cases hpass : n.Passes clk f i
  · rw [handleInterest_of_passes hpass]
    constructor
    · intro hok hstops
      obtain ⟨r, hr⟩ := hok
      have hout : ¬ (n.withPit (n.pit.addInterest clk.add f i).2).ReadsInside i := by
        intro hin
        have hlt := (hin _ hpit.manager).2
        have hthree : ribPrefix.length = 3 := rfl
        have hshort := hstops.2
        simp only [] at hlt
        omega
      have herr : (n.withPit (n.pit.addInterest clk.add f i).2).processCommand lib clk f i =
          .error (.undefined "name component out of range") :=
        processCommand_outside (Option.isSome_iff_exists.mpr ⟨_, hpit.manager⟩) hout
      cases hr.symm.trans herr
    · intro hno
      have hlen : 5 ≤ i.name.length := by
        by_contra hlt
        exact hno ⟨hpass, by omega⟩
      exact hpit.processCommand hlib hname hlen
  · refine ⟨fun _ hstops => hpass hstops.1, fun _ => ?_⟩
    unfold Node.handleInterest
    split
    · exact ⟨_, rfl⟩
    · next hmiss =>
        simp only []
        split
        · next hnew =>
            split
            · exact ⟨_, rfl⟩
            · split
              · next hzero => exact absurd ⟨hmiss, hnew, hzero⟩ hpass
              · exact ⟨_, rfl⟩
        · exact ⟨_, rfl⟩

/-- An Interest that the event brings stops the node. -/
def StoppedBy (n : Node) (e : NodeEvent) : Prop :=
  ∃ clk f i, e = .interest clk f i ∧ n.Stops clk f i

/-- What can happen to a node succeeds, unless it stops the node. -/
theorem Sturdy.step_iff (hlib : lib.KeepsFields) (hname : lib.NamesRoutes) (h : n.Sturdy)
    (hclient : e = .accept → n.client.isSome) : (∃ r, n.step lib e = .ok r) ↔ ¬ n.StoppedBy e := by
  have hother : (∀ clk f i, e ≠ .interest clk f i) → ¬ n.StoppedBy e := by
    intro hne hstop
    obtain ⟨clk, f, i, he, _⟩ := hstop
    exact hne clk f i he
  cases e with
  | interest clk f i =>
      rw [show n.step lib (.interest clk f i) = n.handleInterest lib clk f i from rfl,
        h.handleInterest_iff hlib hname]
      refine not_congr ⟨fun hstops => ⟨clk, f, i, rfl, hstops⟩, fun hstop => ?_⟩
      obtain ⟨_, _, _, he, hstops⟩ := hstop
      obtain ⟨rfl, rfl, rfl⟩ := NodeEvent.interest.inj he
      exact hstops
  | data clk f d => exact iff_of_true (h.handleData clk f d) (hother (by simp))
  | removeFace f =>
      refine iff_of_true ?_ (hother (by simp))
      simp [step, removeFace, h.manager, Except.map]
  | cleanUp now => exact iff_of_true ⟨_, rfl⟩ (hother (by simp))
  | addLinkFace mac dev => exact iff_of_true ⟨_, rfl⟩ (hother (by simp))
  | accept =>
      refine iff_of_true ?_ (hother (by simp))
      obtain ⟨face, hface⟩ := Option.isSome_iff_exists.mp (hclient rfl)
      simp [step, hface]

end Node

/-! ## The network -/

namespace Emulator

variable {mode : Rearm} {lib : NdnCxx} {em em₁ em' : Emulator} {ref : DeviceRef} {c : Config}
  {pkt : Packet}

/-- The device is there, with its link. -/
def Present (em : Emulator) (ref : DeviceRef) : Prop := ∃ d l, em.attached ref = .ok (d, l)

theorem Wired.present (h : em.Wired) (href : (em.deviceTable.find ref).isSome) :
    em.Present ref := by
  obtain ⟨d, hd⟩ := Option.isSome_iff_exists.mp href
  obtain ⟨l, hat⟩ := h.attached hd
  exact ⟨d, l, hat⟩

theorem Present.setDevice {ref' : DeviceRef} {d d' : LinkDevice} {l : Link} (h : em.Present ref)
    (hat : em.attached ref' = .ok (d, l)) (hlink : d'.link = d.link) :
    (em.setDevice ref' d').Present ref := by
  by_cases href : ref = ref'
  · subst href
    exact ⟨d', l, attached_setDevice hat hlink⟩
  · obtain ⟨d₀, l₀, h⟩ := h
    exact ⟨d₀, l₀, (attached_setDevice_ne href).trans h⟩

theorem startTx_total {raw : Nat} (h : em.Present ref) :
    ∃ em', em.startTx mode ref raw pkt = .ok em' := by
  obtain ⟨d, l, hat⟩ := h
  unfold startTx
  rw [hat]
  simp only []
  split <;> exact ⟨_, rfl⟩

theorem Present.startTx {ref' : DeviceRef} {raw : Nat} (h : em.Present ref)
    (hs : em.startTx mode ref' raw pkt = .ok em') : em'.Present ref := by
  rcases startTx_cases hs with rfl | ⟨d, l, d', hd, hl, hdev, rfl⟩
  · exact h
  · have hat : (em.setSrc pkt d.macAddr).attached ref' = .ok (d, l) := attached_of_find hd hl
    have hsrc : (em.setSrc pkt d.macAddr).Present ref := h
    exact hsrc.setDevice hat (LinkDevice.startTx_fixed hdev).2.1

/-- A packet is sent on all its faces, if their devices are there. -/
theorem sendTo_total {faceTable : FinMap Int Face} {raw : Int → Nat} {faces : List Int}
    (h : ∀ g mac ref, faceTable.find g = some (.link mac ref) → em.Present ref) :
    ∃ em', sendTo mode faceTable raw pkt em faces = .ok em' := by
  induction faces generalizing em with
  | nil => exact ⟨em, rfl⟩
  | cons g gs ih =>
      rw [sendTo]
      cases hg : faceTable.find g with
      | none => exact ih h
      | some face =>
          cases face with
          | app => exact ih h
          | link mac ref =>
              have hdst : (em.setDst pkt mac).Present ref := h g mac ref hg
              obtain ⟨em₁, hs⟩ : ∃ em₁, (em.setDst pkt mac).startTx mode ref (raw g) pkt = .ok em₁ :=
                startTx_total hdst
              simp only [send, hs]
              refine ih fun g' mac' ref' hg' => ?_
              have hbefore : (em.setDst pkt mac).Present ref' := h g' mac' ref' hg'
              exact hbefore.startTx hs

/-- The devices of link faces are there. -/
theorem present_of_face {id : String} {n : Node} {g : Int} {mac : MacAddr} (hw : em.Wired)
    (hh : em.Housed) (hn : em.nodeTable.find id = some n)
    (hg : n.faceTable.find g = some (.link mac ref)) : em.Present ref :=
  hw.present (hh id n hn g mac ref hg).2

/-- A node does what happens to it, and sends what comes of it, unless that
stops it. -/
theorem onNode_iff {id : String} {raw : Int → Nat} {ne : NodeEvent} {n : Node}
    (hlib : lib.KeepsFields) (hname : lib.NamesRoutes) (hw : em.Wired) (hh : em.Housed)
    (hn : em.nodeTable.find id = some n) (hsturdy : n.Sturdy)
    (hclient : ne = .accept → n.client.isSome) :
    (∃ r, em.onNode mode lib id raw ne = .ok r) ↔ ¬ n.StoppedBy ne := by
  rw [← hsturdy.step_iff hlib hname hclient]
  constructor
  · intro hok
    obtain ⟨⟨em', out⟩, h⟩ := hok
    obtain ⟨m, n', o, hm, hs, _⟩ := onNode_cases h
    obtain rfl : n = m := Option.some.inj (hn.symm.trans hm)
    exact ⟨_, hs⟩
  · intro hok
    obtain ⟨⟨n', o⟩, hs⟩ := hok
    simp only [onNode, hn, hs]
    cases o with
    | none => exact ⟨_, rfl⟩
    | some fw =>
        have hfaces : ∀ g mac ref, n'.faceTable.find g = some (.link mac ref) →
            ((em.setNode id n').newPacket fw.wire).1.Present ref := by
          intro g mac ref hg
          rw [Weights.faceTable_of_sent hs] at hg
          have hpresent : em.Present ref := present_of_face hw hh hn hg
          exact hpresent
        obtain ⟨em', hsent⟩ : ∃ em', sendTo mode n'.faceTable raw
            ((em.setNode id n').newPacket fw.wire).2 ((em.setNode id n').newPacket fw.wire).1
            fw.faces = .ok em' := sendTo_total hfaces
        simp only [forward, hsent]
        exact ⟨_, rfl⟩

/-- Every neighbour hears a transmission, if its device is there. -/
theorem transmit_total {link : Link} {drop : String → Bool} {nodes : List String} (hw : em.Wired)
    (h : ∀ b ∈ nodes, ∃ ref, link.nodeTable.find b = some ref ∧
      (em.deviceTable.find ref).isSome) :
    ∃ em', transmit mode link drop pkt em nodes = .ok em' := by
  induction nodes generalizing em with
  | nil => exact ⟨em, rfl⟩
  | cons b rest ih =>
      rw [transmit]
      split
      · exact ih hw fun b' hb' => h b' (List.mem_cons_of_mem _ hb')
      · obtain ⟨ref, hb, hsome⟩ := h b List.mem_cons_self
        obtain ⟨d, hd⟩ := Option.isSome_iff_exists.mp hsome
        obtain ⟨l, hat⟩ := hw.attached hd
        have hlive := hw.live ref d hd
        obtain ⟨d', hrx⟩ : ∃ d', d.startRx mode l em.now pkt = .ok d' := by
          unfold LinkDevice.startRx
          split
          · exact ⟨_, rfl⟩
          · exact ⟨_, rfl⟩
          · exact ⟨_, rfl⟩
          · exact ⟨_, rfl⟩
          · next hst => exact absurd hst hlive.awake.1
          · next hst => exact absurd hst hlive.awake.2
        simp only [hb, hat, hrx]
        refine ih (hw.setDevice hd (hlive.startRx hrx) (LinkDevice.startRx_fixed hrx).2.1) ?_
        intro b' hb'
        obtain ⟨ref', hfind, hsome'⟩ := h b' (List.mem_cons_of_mem _ hb')
        exact ⟨ref', hfind, isSome_setDevice d' hsome'⟩

/-- What was received goes to a node that is there. -/
theorem receive_total (hd : (em.deviceTable.find ref).isSome)
    (hn : (em.nodeTable.find ref.node).isSome) : ∃ em', em.receive ref pkt = .ok em' := by
  obtain ⟨d, hd⟩ := Option.isSome_iff_exists.mp hd
  obtain ⟨n, hn⟩ := Option.isSome_iff_exists.mp hn
  unfold receive
  simp only [hd, hn]
  split
  · split <;> exact ⟨_, rfl⟩
  · exact ⟨_, rfl⟩

/-- A timer of the device fires without a fault, if it does on the device. -/
theorem fire_total {e : LinkDevice.TimerEvent} {d : LinkDevice} {l : Link} (hw : em.Wired)
    (hat : em.attached ref = .ok (d, l)) (hfire : ∃ r, d.fire mode l em.now e = .ok r) :
    ∃ r, em.fire mode ref e = .ok r := by
  obtain ⟨⟨d', o⟩, hfire⟩ := hfire
  obtain ⟨hd, _⟩ := attached_cases hat
  unfold fire
  simp only [hat, hfire]
  cases o with
  | received pkt =>
      have hsome : ((em.setDevice ref d').deviceTable.find ref).isSome := by
        rw [setDevice, FinMap.find_insert_self]
        rfl
      obtain ⟨em', hr⟩ : ∃ em', (em.setDevice ref d').receive ref pkt = .ok em' :=
        receive_total hsome (hw.node ref d hd)
      simp only [hr]
      exact ⟨_, rfl⟩
  | transmit pkt => exact ⟨_, rfl⟩
  | quiet => exact ⟨_, rfl⟩
  | enqueued pkt => exact ⟨_, rfl⟩
  | finished pkt => exact ⟨_, rfl⟩
  | gaveUp pkt => exact ⟨_, rfl⟩

/-! ## Every reachable state -/

variable {e : Event} {out : Output} {em₀ : Emulator} {tr : List (Event × Output)}

/-- The transmissions that are posted are on links that there are. -/
def LinksKnown (em : Emulator) : Prop :=
  ∀ link nodeId pkt, .transmit link nodeId pkt ∈ em.posted → (em.linkTable.find link).isSome

theorem LinksKnown.of_same (h : em.LinksKnown) (hp : ∀ x ∈ em'.posted, x ∈ em.posted)
    (hl : em'.linkTable = em.linkTable) : em'.LinksKnown := by
  intro link nodeId pkt hmem
  rw [hl]
  exact h link nodeId pkt (hp _ hmem)

theorem LinksKnown.post (h : em.LinksKnown) {q : Posted}
    (hq : ∀ link nodeId pkt, q = .transmit link nodeId pkt → (em.linkTable.find link).isSome) :
    (em.post q).LinksKnown := by
  intro link nodeId pkt hmem
  rcases List.mem_append.mp hmem with hold | hnew
  · exact h link nodeId pkt hold
  · exact hq link nodeId pkt (List.mem_singleton.mp hnew).symm

theorem linksKnown_onNode {id : String} {raw : Int → Nat} {ne : NodeEvent} (h : em.LinksKnown)
    (hs : em.onNode mode lib id raw ne = .ok (em', out)) : em'.LinksKnown := by
  obtain ⟨n, n', o, _, _, ⟨_, rfl, _⟩ | ⟨fw, _, _, hf⟩⟩ := onNode_cases hs
  · exact h
  · have honly := sendTo_onlyDevices hf
    exact h.of_same (fun x hx => honly.posted ▸ hx) honly.links

theorem linksKnown_step (h : em.LinksKnown) (hs : em.step mode lib e = .ok (em', out)) :
    em'.LinksKnown := by
  have hunpost : ∀ j, ({ em with posted := em.posted.eraseIdx j } : Emulator).LinksKnown :=
    fun j => h.of_same (fun x hx => List.mem_of_mem_eraseIdx hx) rfl
  cases e with
  | appReceive id face clk raw blk =>
      obtain ⟨_, _, hact⟩ := dispatch_cases hs
      exact linksKnown_onNode h hact
  | appClose id face => exact linksKnown_onNode h hs
  | accept id => exact linksKnown_onNode h hs
  | cleanUp id now =>
      have hclean : em.onNode mode lib id (fun _ => 0) (.cleanUp now) = .ok (em', out) := hs
      exact linksKnown_onNode h hclean
  | run j clk raw drop =>
      obtain ⟨_, _, ⟨_, _, _, _, _, _, ht, _⟩ | ⟨_, _, _, _, hact⟩⟩ := run_cases hs
      · have honly := transmit_onlyDevices ht
        exact (hunpost j).of_same (fun x hx => honly.posted ▸ hx) honly.links
      · exact linksKnown_onNode (hunpost j) hact
  | timer ref t =>
      obtain ⟨d, l, d', o, hd, hl, _, _, hrest⟩ := fire_cases hs
      have hdev : (em.setDevice ref d').LinksKnown := h
      rcases hrest with ⟨pkt, _, hr⟩ | ⟨pkt, _, rfl⟩ | ⟨_, rfl⟩
      · obtain ⟨d₁, n, _, _, ⟨_, rfl⟩ | ⟨_, _, rfl⟩ | ⟨_, rfl⟩⟩ := receive_cases hr
        · exact hdev
        · exact hdev.post (by simp)
        · have hface : ((em.setDevice ref d').addFace ref d₁ n
              ((em.setDevice ref d').address pkt.id).src).LinksKnown := hdev
          exact hface.post (by simp)
      · refine hdev.post fun link nodeId q hq => ?_
        obtain ⟨rfl, _⟩ := Posted.transmit.inj hq
        have hlink : em.linkTable.find d.link = some l := hl
        show (em.linkTable.find d.link).isSome
        rw [hlink]
        rfl
      · exact hdev
  | tick n =>
      obtain ⟨rfl, _⟩ := Prod.mk.inj (Except.ok.inj hs)
      exact h

/-- What keeps every handler from failing, but for the clients. -/
structure Steady (c : Config) (em : Emulator) : Prop where
  wired : em.Wired
  laid : em.Laid c
  grounded : em.Grounded
  links : em.LinksKnown
  sturdy : ∀ id n, em.nodeTable.find id = some n → n.Sturdy

theorem steady_step (h : em.Steady c) (he : em.Enabled e)
    (hs : em.step mode lib e = .ok (em', out)) : em'.Steady c := by
  refine ⟨step_preserves (fun _ _ => wired_move) h.wired he hs, laid_step h.laid he hs,
    step_preserves (fun _ _ => grounded_move) h.grounded he hs, linksKnown_step h.links hs, ?_⟩
  refine forall_nodes_step h.sturdy ?_ ?_ hs
  · intro id ne n n' o _ hn hstep
    exact Node.sturdy_step (h.sturdy id n hn) hstep
  · intro id n src ref hn
    exact (h.sturdy id n hn).of_same rfl rfl

/-- Every content store is configured with a limit that is not negative, as the
`int` it becomes. -/
def LimitsNonneg (c : Config) : Prop := ∀ nc ∈ c.nodes, 0 ≤ toInt (nc.cacheSize * 2 ^ 10)

/-- Every node is one of the configuration. -/
def Listed (nodes : List NodeConfig) (em : Emulator) : Prop :=
  ∀ id n, em.nodeTable.find id = some n → ∃ nc ∈ nodes, nc.id = id

theorem readNodes_listed {nodes all : List NodeConfig} {mac : MacAddr} (hall : ∀ nc ∈ nodes, nc ∈ all)
    (h : em.Listed all) (hread : readNodes em mac nodes = .ok em') : em'.Listed all := by
  induction nodes generalizing em mac with
  | nil =>
      obtain rfl := Except.ok.inj hread
      exact h
  | cons nc rest ih =>
      rw [readNodes] at hread
      split at hread
      · cases hread
      · next em₁ mac₁ hnode =>
          obtain ⟨_, n, htab, _⟩ := readNode_store hnode
          refine ih (fun c hc => hall c (List.mem_cons_of_mem _ hc)) ?_ hread
          intro id m hm
          rw [htab] at hm
          rcases FinMap.find_insert_cases hm with ⟨rfl, _⟩ | ⟨_, hold⟩
          · exact ⟨nc, hall nc List.mem_cons_self, rfl⟩
          · exact h id m hold

theorem listed_config (hc : readNetworkConfig c = .ok em) : em.Listed c.nodes := by
  obtain ⟨em₁, em₂, h₁, h₂, h₃⟩ := readNetworkConfig_cases hc
  have htop : em₁.Listed c.nodes := by
    unfold readTopology at h₁
    split at h₁
    · cases h₁
    · next em₀ hlinks =>
        refine readNodes_listed (fun _ h => h) ?_ h₁
        have hempty : empty.Listed c.nodes := by
          intro id n hn
          cases hn
        refine readAll_preserves (fun a l b _ ha hread => ?_) hempty hlinks
        unfold readLink at hread
        split at hread
        · cases hread
        · obtain rfl := Except.ok.inj hread
          exact ha
  have hroutes : em₂.Listed c.nodes := by
    refine readAll_preserves (fun a x b _ ha hread => ?_) htop h₂
    obtain ⟨_, n, n', _, hn, _, rfl⟩ := readRoute_cases hread
    intro id m hm
    rcases FinMap.find_insert_cases hm with ⟨rfl, _⟩ | ⟨_, hold⟩
    · exact ha _ n hn
    · exact ha id m hold
  exact readAll_preserves (fun a x b _ ha hread => readMatrix_preserves
    (fun a id l h => h) ha hread) hroutes h₃

theorem sturdy_start (hc : readNetworkConfig c = .ok em) (hlimits : LimitsNonneg c) :
    ∀ id n, em.start.nodeTable.find id = some n → n.Sturdy := by
  intro id n hn
  obtain ⟨m, hm, heq⟩ := FinMap.find_filterMap_eq_some.mp hn
  obtain rfl := Option.some.inj heq
  obtain ⟨nc, hnc, rfl⟩ := listed_config hc id m hm
  obtain ⟨m', hm', hstore⟩ := stores_config hc nc hnc
  obtain rfl : m = m' := Option.some.inj (hm.symm.trans hm')
  have hlo := hlimits nc hnc
  have hhi := toInt_lt (nc.cacheSize * 2 ^ 10)
  refine ⟨rfl, toInt (nc.cacheSize * 2 ^ 10), hlo, hhi, ?_⟩
  show CacheManager.Accounted _ m.cacheManager
  rw [hstore]
  exact ⟨rfl, rfl, hlo⟩

theorem steady_start (hc : readNetworkConfig c = .ok em) (hlimits : LimitsNonneg c) :
    em.start.Steady c := by
  refine ⟨(wired_config hc).start, laid_start hc, grounded_start (grounded_config hc), ?_,
    sturdy_start hc hlimits⟩
  intro link nodeId pkt hmem
  rw [(blank_config hc).start.posted] at hmem
  cases hmem

/-- A client sends what is no packet, or a node is given a command that is too
short for its manager. -/
def Breaks (em : Emulator) (e : Event) : Prop :=
  (∃ id f clk raw blk, e = .appReceive id f clk raw blk ∧ ∀ w, blk ≠ .packet w) ∨
    ∃ id ne n, em.nodeEvent e = some (id, ne) ∧ em.nodeTable.find id = some n ∧ n.StoppedBy ne

/-- What a node is given to do is done, unless it stops the node. -/
theorem step_node_iff {id : String} {ne : NodeEvent} {n : Node}
    (hlib : lib.KeepsFields) (hname : lib.NamesRoutes) (h : em.Steady c)
    (hev : em.nodeEvent e = some (id, ne)) (hn : em.nodeTable.find id = some n)
    (hclient : ne = .accept → n.client.isSome)
    (hblk : ∀ id f clk raw blk, e = .appReceive id f clk raw blk → ∃ w, blk = .packet w)
    (hsame : ∃ (em₁ : Emulator) (raw : Int → Nat), em₁.Wired ∧ em₁.Housed ∧ em₁.nodeTable = em.nodeTable ∧
      em.step mode lib e = em₁.onNode mode lib id raw ne) :
    (∃ r, em.step mode lib e = .ok r) ↔ ¬ em.Breaks e := by
  obtain ⟨em₁, raw, hw, hh, htab, hstep⟩ := hsame
  rw [hstep, onNode_iff hlib hname hw hh (htab ▸ hn) (h.sturdy id n hn) hclient]
  refine not_congr ⟨fun hstop => .inr ⟨id, ne, n, hev, hn, hstop⟩, fun hbreaks => ?_⟩
  rcases hbreaks with ⟨id', f, clk, raw', blk, he, hno⟩ | ⟨id', ne', n', hev', hn', hstop⟩
  · obtain ⟨w, hw⟩ := hblk _ _ _ _ _ he
    exact absurd hw (hno w)
  · obtain ⟨rfl, rfl⟩ := Prod.mk.inj (Option.some.inj (hev.symm.trans hev'))
    obtain rfl : n = n' := Option.some.inj (hn.symm.trans hn')
    exact hstop

/-- With ideal timers, state, queue and timers of every device of the network
agree at all times. -/
theorem ideal_device {d : LinkDevice} (hc : readNetworkConfig c = .ok em₀)
    (hrun : (system .ideal lib).Run em₀.start tr em) (hd : em.deviceTable.find ref = some d) :
    ∃ l, em.attached ref = .ok (d, l) ∧ Timed.Ideal ⟨d.bare, em.now⟩ := by
  have hmap := (sameTopology_run hrun).devices ref
  rw [hd, Option.map_some] at hmap
  obtain ⟨d₀, hd₀, _⟩ := Option.map_eq_some_iff.mp hmap.symm
  obtain ⟨l, hat₀⟩ := (wired_config hc).start.attached hd₀
  obtain ⟨dtr, t, hdev, hview⟩ := runs_as_device hc hat₀ hrun
  obtain ⟨d', hat, rfl⟩ := hview.device
  obtain rfl : d = d' := Option.some.inj (hd.symm.trans (attached_cases hat).1)
  refine ⟨l, hat, ?_⟩
  obtain ⟨_, _, _, rfl⟩ := (blank_config hc).devices ref d₀ hd₀
  exact hdev.invariant (I := Timed.Ideal) (fun _ _ _ _ ha he hs => Timed.ideal_step ha he hs)
    (Timed.ideal_of_fresh ⟨rfl, rfl, rfl, rfl⟩)

/-- A timer of a device always succeeds. -/
theorem timer_total {t : LinkDevice.TimerEvent} (hc : readNetworkConfig c = .ok em₀)
    (hrun : (system .ideal lib).Run em₀.start tr em) (hw : em.Wired)
    (he : em.Enabled (.timer ref t)) : ∃ r, em.step .ideal lib (.timer ref t) = .ok r := by
  obtain ⟨d, hd, hcan⟩ := he
  obtain ⟨l, hat, hideal⟩ := ideal_device hc hrun hd
  refine fire_total hw hat ?_
  have hen : Timed.Enabled ⟨d.bare, em.now⟩ (.timer t) := by
    cases t <;> exact hcan
  obtain ⟨o, s₁, hs⟩ := Timed.timer_runs (l := l) hideal hen
  obtain ⟨hf, _⟩ := Timed.step_timer hs
  rw [LinkDevice.fire_bare] at hf
  obtain ⟨r, hr, _⟩ := ok_of_map hf
  exact ⟨r, hr⟩

theorem not_breaks (hev : em.nodeEvent e = none)
    (hblk : ∀ id f clk raw blk, e ≠ .appReceive id f clk raw blk) : ¬ em.Breaks e := by
  intro hbreaks
  rcases hbreaks with ⟨id, f, clk, raw, blk, he, _⟩ | ⟨id, ne, n, hev', _⟩
  · exact hblk _ _ _ _ _ he
  · cases hev.symm.trans hev'

/-- An event that can happen is handled to its end unless it breaks. -/
theorem step_total_iff (hlib : lib.KeepsFields) (hname : lib.NamesRoutes)
    (hc : readNetworkConfig c = .ok em₀) (hrun : (system .ideal lib).Run em₀.start tr em)
    (h : em.Steady c) (he : em.Enabled e) :
    (∃ r, em.step .ideal lib e = .ok r) ↔ ¬ em.Breaks e := by
  have hh := h.laid.housed
  cases e with
  | appReceive id f clk raw blk =>
      obtain ⟨n, hn, _⟩ := he
      cases blk with
      | packet w =>
          have hev : em.nodeEvent (.appReceive id f clk raw (.packet w)) =
            some (id, arrival clk f w) := rfl
          refine step_node_iff hlib hname h hev hn (by cases w <;> simp [arrival]) ?_
            ⟨em, raw, h.wired, hh, rfl, by cases w <;> rfl⟩
          intro _ _ _ _ blk heq
          obtain ⟨_, _, _, _, rfl⟩ := Event.appReceive.inj heq
          exact ⟨w, rfl⟩
      | malformed =>
          refine iff_of_false ?_ (fun hno => hno (.inl ⟨id, f, clk, raw, _, rfl, by simp⟩))
          intro hok
          obtain ⟨r, hr⟩ := hok
          cases hr
      | unknown =>
          refine iff_of_false ?_ (fun hno => hno (.inl ⟨id, f, clk, raw, _, rfl, by simp⟩))
          intro hok
          obtain ⟨r, hr⟩ := hok
          cases hr
  | appClose id f =>
      obtain ⟨n, hn, _⟩ := he
      exact step_node_iff hlib hname h rfl hn (by simp) (by simp) ⟨em, _, h.wired, hh, rfl, rfl⟩
  | accept id =>
      obtain ⟨n, hn, hclient⟩ := he
      exact step_node_iff hlib hname h rfl hn (fun _ => hclient) (by simp)
        ⟨em, _, h.wired, hh, rfl, rfl⟩
  | cleanUp id now =>
      obtain ⟨n, hn⟩ := Option.isSome_iff_exists.mp he
      have hclean : em.step .ideal lib (.cleanUp id now) =
        em.onNode .ideal lib id (fun _ => 0) (.cleanUp now) := rfl
      exact step_node_iff hlib hname h rfl hn (by simp) (by simp) ⟨em, _, h.wired, hh, rfl, hclean⟩
  | run j clk raw drop =>
      have hj : em.posted[j]? = some em.posted[j] := List.getElem?_eq_getElem he
      have hmem := List.mem_of_getElem? hj
      cases hq : em.posted[j] with
      | transmit link nodeId pkt =>
          rw [hq] at hj hmem
          obtain ⟨l, hl⟩ := Option.isSome_iff_exists.mp (h.links link nodeId pkt hmem)
          refine iff_of_true ?_ (not_breaks (by simp [nodeEvent, hj]) (by simp))
          have hw : ({ em with posted := em.posted.eraseIdx j } : Emulator).Wired :=
            ⟨h.wired.live, h.wired.node, h.wired.link⟩
          obtain ⟨em', ht⟩ : ∃ em', transmit .ideal l drop pkt
              { em with posted := em.posted.eraseIdx j } (ascending (l.neighbors nodeId)) =
                .ok em' := by
            refine transmit_total hw fun b hb => ?_
            have hsome := (h.laid.charted.neighbors link l nodeId b hl (mem_ascending.mp hb)).2
            obtain ⟨ref, href⟩ := Option.isSome_iff_exists.mp hsome
            exact ⟨ref, href, (h.laid.charted.entered link l b ref hl href).2⟩
          simp only [step, hj, runPosted, hl, ht]
          exact ⟨_, rfl⟩
      | dispatch id g w =>
          rw [hq] at hj hmem
          obtain ⟨mac, ref, n, hn, _⟩ := h.grounded.posted id g w hmem
          have hev : em.nodeEvent (.run j clk raw drop) = some (id, arrival clk g w) := by
            simp [nodeEvent, hj]
          refine step_node_iff hlib hname h hev hn (by cases w <;> simp [arrival]) (by simp)
            ⟨{ em with posted := em.posted.eraseIdx j }, raw,
              ⟨h.wired.live, h.wired.node, h.wired.link⟩, hh, rfl, ?_⟩
          simp only [step, hj, runPosted]
          cases w <;> rfl
  | timer ref t =>
      exact iff_of_true (timer_total hc hrun h.wired he) (not_breaks rfl (by simp))
  | tick n => exact iff_of_true ⟨_, rfl⟩ (not_breaks rfl (by simp))

/-- **What ends a run of the network.** With ideal timers and content stores that
are not configured below nothing, an event that can happen in a reachable state
ends the run exactly when a client sends what is no packet, or a node is given
an Interest for its manager whose name has fewer than five components. -/
theorem crashes_iff (hlib : lib.KeepsFields) (hname : lib.NamesRoutes)
    (hc : readNetworkConfig c = .ok em₀) (hlimits : LimitsNonneg c)
    (hrun : (system .ideal lib).Run em₀.start tr em) (he : em.Enabled e) :
    (∃ f, em.step .ideal lib e = .error f) ↔ em.Breaks e := by
  have hsteady : em.Steady c :=
    hrun.invariant (fun _ _ _ _ ha he hs => steady_step ha he hs) (steady_start hc hlimits)
  have htotal := step_total_iff hlib hname hc hrun hsteady he
  constructor
  · intro hfault
    obtain ⟨f, hf⟩ := hfault
    by_contra hno
    obtain ⟨r, hr⟩ := htotal.mpr hno
    cases hf.symm.trans hr
  · intro hbreaks
    cases hs : em.step .ideal lib e with
    | error f => exact ⟨f, rfl⟩
    | ok r => exact absurd hbreaks (htotal.mp ⟨r, hs⟩)

/-- Commands of which the valid ones have a name. -/
def namedCommands : NdnCxx := { byteCommands with validateRequest := fun p => p.name.isSome }

/-- The client that is connected sends an Interest for the manager's own prefix. -/
def shortCommand : Event :=
  .appReceive "n0" 2 (Clock.still 0) (fun _ => 0) (.packet (.interest ⟨ribPrefix, 1, 4000, false, 40⟩))

theorem crashes_iff_short : ∃ em em', readNetworkConfig pairConfig = .ok em ∧
    (system .ideal namedCommands).Run em.start connectRun em' ∧ em'.Enabled shortCommand ∧
    ((∃ f, em'.step .ideal namedCommands shortCommand = .error f) ↔ em'.Breaks shortCommand) := by
  obtain ⟨em, em', hc, hrun, he⟩ : ∃ em em', readNetworkConfig pairConfig = .ok em ∧
      (system .ideal namedCommands).Run em.start connectRun em' ∧ em'.Enabled shortCommand :=
    ⟨_, _, rfl, .single ⟨_, rfl, rfl⟩ rfl, _, rfl, rfl⟩
  have hlimits : LimitsNonneg pairConfig := by
    unfold LimitsNonneg
    decide
  exact ⟨em, em', hc, hrun, he,
    crashes_iff ⟨fun _ => rfl, fun _ _ h => h⟩ (fun _ h => h) hc hlimits hrun he⟩

end Emulator

end NdnEm
