import NdnEm.Proofs.Unheard

/-!
# Paths

A path is a sequence of nodes that have a route for a name over one device,
which the next node hears and is heard by; it ends at a node that has the Data
in its store, or a route to an application. It has a time, as an Interest must
not expire on any of its nodes before the Data is back. All of that is spent on
the air, and with the application that answers: its node may send the Interest
on to others besides, and the application is given the time until its devices
are done with that.

A path is there as long as what happens leaves alone its nodes and devices. So
this file also says what it is to leave them alone.
-/

namespace NdnEm

open Lib

namespace Node

variable {lib : NdnCxx} {n n' : Node} {f g : Int} {i : Interest} {dat : Data} {t : Int}

/-- The node knows nothing yet of what the Data answers. -/
structure Fresh (n : Node) (i : Interest) (dat : Data) (t : Int) : Prop where
  cache : n.cacheManager.findMatchingData t i = none
  records : ∀ m k, m <+: dat.name → n.pit.record m k = none

theorem Fresh.of_same (h : n.Fresh i dat t)
    (hsame : n'.pit = n.pit ∧ n'.cacheManager = n.cacheManager) : n'.Fresh i dat t := by
  refine ⟨?_, ?_⟩
  · rw [hsame.2]
    exact h.cache
  · rw [hsame.1]
    exact h.records

/-- The one record that the Data answers is that of the Interest, which came in
on that face. -/
def Awaits (n : Node) (i : Interest) (dat : Data) (f expire : Int) : Prop :=
  ∀ m k r, m <+: dat.name → (n.pit.record m k = some r ↔
    (m = i.name ∧ k = i.nonce) ∧ r = ⟨f, expire⟩)

theorem Awaits.of_same {expire : Int} (h : n.Awaits i dat f expire) (hsame : n'.pit = n.pit) :
    n'.Awaits i dat f expire := by
  intro m k r hm
  rw [hsame]
  exact h m k r hm

/-- An Interest that is new is recorded and forwarded on the node's routes. -/
theorem Fresh.handleInterest (h : n.Fresh i dat t) (hname : i.name <+: dat.name)
    (hroute : g ∈ n.fib.lookUp i.name ∅) (hne : g ≠ f) (h0 : 0 ∉ n.fib.lookUp i.name ∅) :
    n.handleInterest lib (Clock.still t) f i =
      .ok (n.withPit (n.pit.addInterest t f i).2,
        some (.interest i (n.forwardToFaces ((n.fib.lookUp i.name ∅).erase f)))) := by
  have hout : g ∈ (n.fib.lookUp i.name ∅).erase f := Finset.mem_erase.mpr ⟨hne, hroute⟩
  have h0' : 0 ∉ (n.fib.lookUp i.name ∅).erase f := fun hmem => h0 (Finset.mem_of_mem_erase hmem)
  have hnew : n.cacheManager.findMatchingData (Clock.still t).find i = none := h.cache
  rw [handleInterest_of_new hnew (h.records _ _ hname)]
  dsimp only
  rw [if_neg (Finset.ne_empty_of_mem hout), if_neg h0']
  rfl

theorem Fresh.awaits (h : n.Fresh i dat t) (hname : i.name <+: dat.name) :
    (n.withPit (n.pit.addInterest t f i).2).Awaits i dat f (t + i.interestLifetime) := by
  intro m k r hm
  rw [withPit_pit, Pit.record_addInterest_of_none (h.records _ _ hname)]
  split
  · next hmk => simp [hmk, eq_comm]
  · next hmk => simp [hmk, h.records m k hm]

/-- Data that one record awaits is forwarded on its face. -/
theorem Awaits.handleData {expire : Int} (h : n.Awaits i dat f expire)
    (hname : i.name <+: dat.name) (hlife : t < expire) (hf : f ∈ n.faceTable.keys)
    (hsturdy : n.Sturdy) (f' : Int) :
    ∃ n', n.handleData (Clock.still t) f' dat = .ok (n', some (.data dat [f])) ∧
      n'.faceTable = n.faceTable ∧ n'.fib = n.fib := by
  have hout : (n.pit.consumeInterestWithDataName t dat.name ∅).2 = {f} := by
    ext x
    rw [Pit.mem_consume, Finset.mem_singleton]
    constructor
    · intro hx
      rcases hx with hx | ⟨m, k, r, hm, hr, _, rfl⟩
      · cases hx
      · obtain ⟨_, rfl⟩ := (h m k r hm).mp hr
        rfl
    · intro hx
      refine .inr ⟨i.name, i.nonce, ⟨f, expire⟩, hname, ?_, hlife, hx.symm⟩
      exact (h _ _ _ hname).mpr ⟨⟨rfl, rfl⟩, rfl⟩
  obtain ⟨⟨n', o⟩, hok⟩ := hsturdy.handleData (Clock.still t) f' dat
  rcases handleData_cases hok with ⟨hempty, _⟩ | ⟨_, c, _, rfl, rfl⟩
  · exact absurd (hout.symm.trans hempty) (Finset.singleton_ne_empty f)
  · refine ⟨(n.withPit (n.pit.consumeInterestWithDataName t dat.name ∅).1).withCache c, ?_, rfl,
      rfl⟩
    have hfaces : n.forwardToFaces (n.pit.consumeInterestWithDataName t dat.name ∅).2 = [f] := by
      rw [hout, forwardToFaces, ascending_singleton, List.flatMap_singleton, forwardToFace,
        if_pos hf]
    rw [hok, ← hfaces]
    rfl

/-- The routes of a node are the same, and its faces are still there. -/
structure Retains (n n' : Node) : Prop where
  fib : n'.fib = n.fib
  faces : ∀ g face, n.faceTable.find g = some face → n'.faceTable.find g = some face

theorem Retains.refl (n : Node) : n.Retains n := ⟨rfl, fun _ _ h => h⟩

theorem Retains.trans {n₁ n₂ : Node} (h : n.Retains n₁) (h' : n₁.Retains n₂) : n.Retains n₂ :=
  ⟨h'.fib.trans h.fib, fun g face hg => h'.faces g face (h.faces g face hg)⟩

/-- A face that was there is the face it was. -/
theorem Retains.find_eq (h : n.Retains n') (hg : g ∈ n.faceTable.keys) :
    n'.faceTable.find g = n.faceTable.find g := by
  obtain ⟨face, hface⟩ := Option.isSome_iff_exists.mp ((n.faceTable.mem_keys g).mp hg)
  rw [hface, h.faces g face hface]

theorem Retains.keys_subset (h : n.Retains n') : n.faceTable.keys ⊆ n'.faceTable.keys := by
  intro g hg
  rw [n'.faceTable.mem_keys, h.find_eq hg]
  exact (n.faceTable.mem_keys g).mp hg

/-- A node that has not seen the Interest has routes for it, to faces that
exist, and one of them is to that face. -/
structure Onward (n : Node) (i : Interest) (dat : Data) (t g : Int) : Prop where
  fresh : n.Fresh i dat t
  route : g ∈ n.fib.lookUp i.name ∅
  faces : n.fib.lookUp i.name ∅ ⊆ n.faceTable.keys

theorem Onward.of_same (h : n.Onward i dat t g) (hkeep : n.Retains n')
    (hsame : n'.pit = n.pit ∧ n'.cacheManager = n.cacheManager) : n'.Onward i dat t g := by
  refine ⟨h.fresh.of_same hsame, ?_, ?_⟩
  · rw [hkeep.fib]
    exact h.route
  · rw [hkeep.fib]
    exact h.faces.trans hkeep.keys_subset

theorem Counted.retains (h : n.Counted) (mac : MacAddr) (ref : DeviceRef) :
    n.Retains (n.addLinkFace mac ref).1 := by
  refine ⟨rfl, ?_⟩
  intro g face hg
  refine (FinMap.find_insert_ne ?_).trans hg
  have hlt := h.table g (FinMap.mem_keys_of_find hg)
  omega

end Node

namespace Emulator

variable {mode : Rearm} {lib : NdnCxx} {wall : Int → Int} {draws : Draws} {P : Event → Prop}
  {em em' em₁ em₂ : Emulator} {c : Config} {i : Interest} {dat : Data} {t t' : Int}
  {visited : List String} {a z : String} {f : Int}

/-! ## What is left alone -/

/-- Apart from the visited nodes, which keep their routes and faces, nothing has
changed but for new link faces, and devices that rested rest. -/
structure Spares (em : Emulator) (visited : List String) (em' : Emulator) : Prop where
  links : em'.linkTable = em.linkTable
  nodes : ∀ id n, em.nodeTable.find id = some n → ∃ n', em'.nodeTable.find id = some n' ∧
    n.Retains n' ∧ (id ∉ visited → n'.pit = n.pit ∧ n'.cacheManager = n.cacheManager)
  devices : ∀ ref d, em.deviceTable.find ref = some d → ∃ d', em'.deviceTable.find ref = some d' ∧
    d.Alike d' ∧ (d.Rests → d'.Rests)
  absent : ∀ ref, em.deviceTable.find ref = none → em'.deviceTable.find ref = none

theorem Spares.trans (h : em.Spares visited em₁) (h' : em₁.Spares visited em₂) :
    em.Spares visited em₂ := by
  refine ⟨h'.links.trans h.links, ?_, ?_, fun ref hn => h'.absent ref (h.absent ref hn)⟩
  · intro id n hn
    obtain ⟨n₁, hn₁, hkeep₁, hsame₁⟩ := h.nodes id n hn
    obtain ⟨n₂, hn₂, hkeep₂, hsame₂⟩ := h'.nodes id n₁ hn₁
    refine ⟨n₂, hn₂, hkeep₁.trans hkeep₂, ?_⟩
    intro hid
    exact ⟨(hsame₂ hid).1.trans (hsame₁ hid).1, (hsame₂ hid).2.trans (hsame₁ hid).2⟩
  · intro ref d hd
    obtain ⟨d₁, hd₁, halike₁, hrests₁⟩ := h.devices ref d hd
    obtain ⟨d₂, hd₂, halike₂, hrests₂⟩ := h'.devices ref d₁ hd₁
    exact ⟨d₂, hd₂, halike₁.trans halike₂, fun hd => hrests₂ (hrests₁ hd)⟩

theorem Spares.mono {more : List String} (h : em.Spares visited em')
    (hsub : ∀ x ∈ visited, x ∈ more) : em.Spares more em' := by
  refine ⟨h.links, ?_, h.devices, h.absent⟩
  intro id n hn
  obtain ⟨n', hn', hkeep, hsame⟩ := h.nodes id n hn
  exact ⟨n', hn', hkeep, fun hid => hsame fun hmem => hid (hsub id hmem)⟩

/-- A node has handled something. -/
theorem Spares.setNode {n n' : Node} (hn : em.nodeTable.find a = some n) (h : n.Retains n')
    (hs : List Posted) :
    em.Spares [a] (({ em with posted := hs } : Emulator).setNode a n') := by
  refine ⟨rfl, ?_, fun _ d hd => ⟨d, hd, .refl d, id⟩, fun _ h => h⟩
  intro id m hm
  by_cases hid : id = a
  · subst hid
    obtain rfl := Option.some.inj (hn.symm.trans hm)
    exact ⟨n', FinMap.find_insert_self _ _ _, h, fun hout => absurd List.mem_cons_self hout⟩
  · exact ⟨m, (FinMap.find_insert_ne hid).trans hm, .refl m, fun _ => ⟨rfl, rfl⟩⟩

/-- A packet has come from one device to another. -/
theorem Carried.spares {ref refb : DeviceRef} {d db : LinkDevice} {nb : Node} {w : Wire}
    {face : Int} {wait : Nat} (h : em.Carried em' ref refb d db nb w face wait)
    (hd : em.deviceTable.find ref = some d) (hdb : em.deviceTable.find refb = some db)
    (hnb : em.nodeTable.find refb.node = some nb) (hcount : nb.Counted) :
    em.Spares visited em' := by
  refine ⟨h.links, ?_, ?_, ?_⟩
  · intro id n hn
    rcases h.nodes with hsame | hnew
    · exact ⟨n, hsame ▸ hn, .refl n, fun _ => ⟨rfl, rfl⟩⟩
    · by_cases hid : id = refb.node
      · subst hid
        obtain rfl := Option.some.inj (hnb.symm.trans hn)
        refine ⟨_, ?_, hcount.retains d.macAddr refb, fun _ => ⟨rfl, rfl⟩⟩
        rw [hnew, FinMap.find_insert_self]
      · refine ⟨n, ?_, .refl n, fun _ => ⟨rfl, rfl⟩⟩
        rw [hnew, FinMap.find_insert_ne hid]
        exact hn
  · intro r d₀ hd₀
    by_cases hr : r = ref
    · subst hr
      obtain rfl := Option.some.inj (hd.symm.trans hd₀)
      obtain ⟨d', hd', hrests, halike⟩ := h.sender
      exact ⟨d', hd', halike, fun _ => hrests⟩
    · by_cases hrb : r = refb
      · subst hrb
        obtain rfl := Option.some.inj (hdb.symm.trans hd₀)
        obtain ⟨d', hd', hrests, halike⟩ := h.receiver
        exact ⟨d', hd', halike, fun _ => hrests⟩
      · exact ⟨d₀, (h.others r hr hrb).trans hd₀, .refl d₀, id⟩
  · intro r hnone
    refine (h.others r ?_ ?_).trans hnone
    · intro hr
      cases (hr ▸ hnone).symm.trans hd
    · intro hr
      cases (hr ▸ hnone).symm.trans hdb

theorem Spares.airtime (h : em.Spares visited em') (ref : DeviceRef) (size : Nat) :
    em'.airtime ref size = em.airtime ref size := by
  refine airtime_congr h.links ?_ (h.absent ref) size
  intro d hd
  obtain ⟨d', hd', halike, _⟩ := h.devices ref d hd
  exact ⟨d', hd', halike⟩

/-- The devices that rest. -/
theorem resting (em : Emulator) : ∃ s : Finset DeviceRef,
    ∀ ref, ref ∈ s ↔ ∃ d, em.deviceTable.find ref = some d ∧ d.Rests := by
  classical
  refine ⟨em.deviceTable.keys.filter fun ref => ∃ d, em.deviceTable.find ref = some d ∧ d.Rests, ?_⟩
  intro ref
  rw [Finset.mem_filter]
  refine ⟨fun h => h.2, fun h => ⟨?_, h⟩⟩
  obtain ⟨d, hd, _⟩ := h
  exact FinMap.mem_keys_of_find hd

/-- All that hear the device can lose what it sends. -/
def Unheard (em : Emulator) (draws : Draws) (ref : DeviceRef) : Prop :=
  ∀ d l, em.deviceTable.find ref = some d → em.linkTable.find d.link = some l →
    draws.Allow d.link l ref.node fun _ => true

theorem Spares.unheard {ref : DeviceRef} (h : em.Spares visited em')
    (hlost : em.Unheard draws ref) : em'.Unheard draws ref := by
  intro d' l hd' hl
  cases hd : em.deviceTable.find ref with
  | none => cases hd'.symm.trans (h.absent ref hd)
  | some d =>
      obtain ⟨d₁, hd₁, halike, _⟩ := h.devices ref d hd
      obtain rfl := Option.some.inj (hd₁.symm.trans hd')
      rw [h.links, halike.link] at hl
      rw [halike.link]
      exact hlost d l hd hl

/-- A packet is sent on some faces, to nobody: the devices that rested rest
again when it has been on the air for each. -/
theorem run_unheard {faceTable : FinMap Int Face} {w : Wire} {faces : List Int}
    (hsent : em.forward mode faceTable (fun _ => 0) w faces = .ok em₂) (hwired : em₂.Wired)
    (hlost : ∀ k ∈ faces, ∀ mac ref, faceTable.find k = some (.link mac ref) →
      em.Unheard draws ref) :
    ∃ tr em₃, (works mode lib wall draws P).Run em₂ tr em₃ ∧ em.Spares [] em₃ ∧
      em₃.posted = em.posted ∧ em₃.nodeTable = em.nodeTable ∧
      em₃.now ≤ em.now + ((faces.map (em.faceAirtime faceTable w.size)).sum : Nat) := by
  obtain ⟨s, hs⟩ := resting em
  have hsend : sendTo mode faceTable (fun _ => 0) (em.newPacket w).2 (em.newPacket w).1 faces =
    .ok em₂ := hsent
  obtain ⟨hload, hle⟩ := sendTo_loads hsend s
  have hready : ∀ ref ∈ s, ∃ d l, em₂.deviceTable.find ref = some d ∧
      em₂.linkTable.find d.link = some l ∧ d.Ready em₂.now ∧
      (d.txQueue ≠ [] → draws.Allow d.link l ref.node fun _ => true) := by
    intro ref href
    obtain ⟨d, hd, hrests⟩ := (hs ref).mp href
    obtain ⟨d₂, hd₂, halike, hready⟩ := hload.devices ref d hd
    obtain ⟨l, hat⟩ := hwired.attached hd₂
    have hl₂ := (attached_cases hat).2
    refine ⟨d₂, l, hd₂, hl₂, ?_, ?_⟩
    · rw [hload.now]
      exact hready (hrests.ready _)
    · -- a device that has something to send was sent it on one of the faces
      intro hqueue
      have hface : ∃ k ∈ faces, ∃ mac, faceTable.find k = some (.link mac ref) := by
        by_contra hout
        have hsame := sendTo_others hsend fun k hk mac hface => hout ⟨k, hk, mac, hface⟩
        obtain rfl := Option.some.inj (hd₂.symm.trans (hsame.trans hd))
        exact hqueue hrests.queue
      obtain ⟨k, hk, mac, hface⟩ := hface
      rw [halike.link] at hl₂ ⊢
      exact hlost k hk mac ref hface d l hd (hload.only.links ▸ hl₂)
  have hempty : s.sum (em.newPacket w).1.backlog = 0 := by
    refine Finset.sum_eq_zero fun ref href => ?_
    obtain ⟨d, hd, hrests⟩ := (hs ref).mp href
    exact backlog_of_rests hd hrests
  obtain ⟨tr, em₃, hrun, hdrained⟩ := run_drain hready
  refine ⟨tr, em₃, hrun, ⟨hdrained.links.trans hload.only.links, ?_, ?_, ?_⟩,
    hdrained.posted.trans hload.only.posted, hdrained.nodes.trans hload.only.nodes, ?_⟩
  · intro id n hn
    refine ⟨n, ?_, .refl n, fun _ => ⟨rfl, rfl⟩⟩
    rw [hdrained.nodes, hload.only.nodes]
    exact hn
  · intro ref d hd
    obtain ⟨d₂, hd₂, halike, _⟩ := hload.devices ref d hd
    by_cases href : ref ∈ s
    · obtain ⟨d₃, hd₃, hrests, halike'⟩ := hdrained.inside ref href d₂ hd₂
      exact ⟨d₃, hd₃, halike.trans halike', fun _ => hrests⟩
    · refine ⟨d₂, (hdrained.outside ref href).trans hd₂, halike, ?_⟩
      intro hrests
      exact absurd ((hs ref).mpr ⟨d, hd, hrests⟩) href
  · intro ref hnone
    have href : ref ∉ s := by
      intro hmem
      obtain ⟨d, hd, _⟩ := (hs ref).mp hmem
      cases hnone.symm.trans hd
    rw [hdrained.outside ref href]
    exact hload.absent ref hnone
  · rw [hempty, Nat.zero_add] at hle
    rw [hdrained.now, hload.now]
    exact Int.add_le_add_left (Int.ofNat_le.mpr hle) em.now

/-! ## Paths -/

/-- A packet to that address can get from the one device to the other, and to
nobody else, and one to the first device's address can get back. -/
structure Joins (em : Emulator) (draws : Draws) (mac : MacAddr) (ref refb : DeviceRef)
    (d db : LinkDevice) (l : Link) : Prop where
  here : em.deviceTable.find ref = some d
  there : em.deviceTable.find refb = some db
  link : em.linkTable.find d.link = some l
  same : db.link = d.link
  out : refb.node ∈ l.neighbors ref.node
  back : ref.node ∈ l.neighbors refb.node
  lost : draws.Allow d.link l ref.node fun x => !(x == refb.node)
  lostb : draws.Allow db.link l refb.node fun x => !(x == ref.node)
  entered : l.nodeTable.find ref.node = some ref
  enteredb : l.nodeTable.find refb.node = some refb
  addressed : mac = db.macAddr ∨ mac = broadcastMac
  rests : d.Rests
  restsb : db.Rests
  room : 0 < d.txQueueLimit
  roomb : 0 < db.txQueueLimit

theorem Joins.spared {mac : MacAddr} {ref refb : DeviceRef} {d db : LinkDevice} {l : Link}
    (h : em.Joins draws mac ref refb d db l) (hspare : em.Spares visited em') :
    ∃ d' db', d.Alike d' ∧ db.Alike db' ∧ em'.Joins draws mac ref refb d' db' l := by
  obtain ⟨d', hd', halike, hrests⟩ := hspare.devices ref d h.here
  obtain ⟨db', hdb', halikeb, hrestsb⟩ := hspare.devices refb db h.there
  refine ⟨d', db', halike, halikeb, hd', hdb', ?_, ?_, h.out, h.back, ?_, ?_, h.entered, h.enteredb,
    ?_, hrests h.rests, hrestsb h.restsb, ?_, ?_⟩
  · rw [hspare.links, halike.link]
    exact h.link
  · rw [halike.link, halikeb.link]
    exact h.same
  · rw [halike.link]
    exact h.lost
  · rw [halikeb.link]
    exact h.lostb
  · rw [halikeb.macAddr]
    exact h.addressed
  · rw [halike.limit]
    exact h.room
  · rw [halikeb.limit]
    exact h.roomb

/-- Where an Interest comes from: a client on its face, or a neighbour of that
address over a device. -/
inductive Origin
  | client (f : Int)
  | link (mac : MacAddr) (ref : DeviceRef)

/-- The face that stands for it. -/
def Origin.face : Origin → Face
  | .client _ => .app
  | .link mac ref => .link mac ref

/-- The node has the face that the Interest comes in on. -/
structure Origin.At (origin : Origin) (n : Node) (f : Int) : Prop where
  find : n.faceTable.find f = some origin.face
  client : ∀ g, origin = .client g → f = g

theorem Origin.At.retains {n n' : Node} {origin : Origin} (h : origin.At n f)
    (hkeep : n.Retains n') : origin.At n' f :=
  ⟨hkeep.faces f _ h.find, h.client⟩

theorem Origin.At.mem {n : Node} {origin : Origin} (h : origin.At n f) : f ∈ n.faceTable.keys :=
  FinMap.mem_keys_of_find h.find

/-- Where the Data comes from: a node's store, or a client. -/
inductive Source
  | store (node : String)
  | client (node : String) (face : Int)

/-- The client sends the Data. -/
def Source.Puts (dat : Data) : Source → Event → Prop
  | .store _, _ => False
  | .client id g, e => ∃ clk raw, e = .appReceive id g clk raw (.packet (.data dat))

/-- From a node on, routes for the Interest lead to Data. The Interest is there
at time `t`, and the Data goes out at time `t'`: each node that is visited has
the Data, or a route to an application that takes its time to answer, or one
over a link to the rest of the path, and not back where the Interest came
from. -/
inductive Path (em : Emulator) (i : Interest) (dat : Data) (wall : Int → Int) (draws : Draws)
    (src : Source) : String → Origin → Int → Int → List String → Prop
  | cached {z : String} {n : Node} {origin : Origin} {t : Int} (hsrc : src = .store z)
      (hn : em.nodeTable.find z = some n)
      (hdat : n.cacheManager.findMatchingData (wall t) i = some dat) :
      Path em i dat wall draws src z origin t t [z]
  | producer {z : String} {n : Node} {g : Int} {origin : Origin} {t t' : Int}
      (hsrc : src = .client z g) (hn : em.nodeTable.find z = some n)
      (hroute : n.Onward i dat (wall t) g) (hg : n.faceTable.find g = some .app)
      (horigin : origin ≠ .client g)
      (hlost : ∀ k ∈ n.fib.lookUp i.name ∅, ∀ mac ref, n.faceTable.find k = some (.link mac ref) →
        em.Unheard draws ref)
      (hwait : t + ((n.fib.lookUp i.name ∅).sum (em.faceAirtime n.faceTable i.size) : Nat) ≤ t')
      (hlife : wall t' < wall t + i.interestLifetime) :
      Path em i dat wall draws src z origin t t' [z]
  | hop {n : Node} {g : Int} {mac : MacAddr} {ref refb : DeviceRef} {d db : LinkDevice} {l : Link}
      {origin : Origin} {t t' : Int} {rest : List String}
      (hn : em.nodeTable.find ref.node = some n) (hroute : n.Onward i dat (wall t) g)
      (hg : n.faceTable.find g = some (.link mac ref)) (horigin : origin ≠ .link mac ref)
      (honly : ∀ k ∈ n.fib.lookUp i.name ∅, ∀ mac' ref',
        n.faceTable.find k = some (.link mac' ref') → k = g)
      (hjoins : em.Joins draws mac ref refb d db l) (hfits : i.size ≤ l.mtu ∧ dat.size ≤ l.mtu)
      (hnew : ref.node ∉ rest)
      (hrest : Path em i dat wall draws src refb.node (.link d.macAddr refb)
        (t + l.airtime i.size) t' rest)
      (hlife : wall (t' + l.airtime dat.size) < wall t + i.interestLifetime) :
      Path em i dat wall draws src ref.node origin t (t' + l.airtime dat.size) (ref.node :: rest)

/-- A path that other nodes' doings left alone. -/
theorem Path.spared {src : Source} {origin : Origin} {rest : List String}
    (h : em.Path i dat wall draws src a origin t t' rest)
    (hspare : em.Spares visited em') (hout : ∀ x ∈ rest, x ∉ visited) :
    em'.Path i dat wall draws src a origin t t' rest := by
  induction h with
  | @cached z n origin t hsrc hn hdat =>
      obtain ⟨n', hn', _, hsame⟩ := hspare.nodes z n hn
      refine .cached hsrc hn' ?_
      rw [(hsame (hout z List.mem_cons_self)).2]
      exact hdat
  | @producer z n g origin t t' hsrc hn hroute hg horigin hlost hwait hlife =>
      obtain ⟨n', hn', hkeep, hsame⟩ := hspare.nodes z n hn
      refine .producer hsrc hn' (hroute.of_same hkeep (hsame (hout z List.mem_cons_self)))
        (hkeep.faces g _ hg) horigin ?_ ?_ hlife
      · intro k hk mac ref hface
        rw [hkeep.fib] at hk
        rw [hkeep.find_eq (hroute.faces hk)] at hface
        exact hspare.unheard (hlost k hk mac ref hface)
      have hcost : (n'.fib.lookUp i.name ∅).sum (em'.faceAirtime n'.faceTable i.size) =
          (n.fib.lookUp i.name ∅).sum (em.faceAirtime n.faceTable i.size) := by
        rw [hkeep.fib]
        refine Finset.sum_congr rfl fun k hk => ?_
        unfold faceAirtime
        rw [hkeep.find_eq (hroute.faces hk)]
        split
        · exact hspare.airtime _ _
        · rfl
        · rfl
      rw [hcost]
      exact hwait
  | @hop n g mac ref refb d db l origin t t' rest hn hroute hg horigin honly hjoins hfits hnew _
      hlife ih =>
      obtain ⟨n', hn', hkeep, hsame⟩ := hspare.nodes ref.node n hn
      obtain ⟨d', db', halike, _, hjoins'⟩ := hjoins.spared hspare
      refine .hop hn' (hroute.of_same hkeep (hsame (hout _ List.mem_cons_self)))
        (hkeep.faces g _ hg) horigin ?_ hjoins' hfits hnew ?_ hlife
      · intro k hk mac' ref' hface
        rw [hkeep.fib] at hk
        rw [hkeep.find_eq (hroute.faces hk)] at hface
        exact honly k hk mac' ref' hface
      · rw [halike.macAddr]
        exact ih fun x hx => hout x (List.mem_cons_of_mem _ hx)

theorem Path.mem {src : Source} {origin : Origin} {rest : List String}
    (h : em.Path i dat wall draws src a origin t t' rest) : a ∈ rest := by
  cases h <;> exact List.mem_cons_self

end Emulator

end NdnEm
