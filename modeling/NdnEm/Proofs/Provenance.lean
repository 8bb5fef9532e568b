import NdnEm.Lib.Provenance
import NdnEm.Proofs.Commands
import NdnEm.Proofs.ContentStore
import NdnEm.Proofs.Topology

/-!
# No packet is made up

A packet of the network is in a content store, in a queue, under reception or
posted. A handler passes on what it was given, and the one thing it makes is
the response of a fib manager, out of a command. So every packet that a node
sends was injected by an application at a node from which the configured
connections lead there, or is a response to a command that was; and it is that
packet to the last field, whatever was lost, collided, queued, cached or
evicted in between.
-/

namespace NdnEm

open Lib Relation

/-- The Data that a fib manager answers a command of that name with. -/
def NdnCxx.response (lib : NdnCxx) (name : Name) (r : ControlResponse) : Data :=
  ⟨name, lib.defaultFreshness, lib.encodeResponse r, lib.signedSize name (lib.encodeResponse r)⟩

/-- A register command: its verb, and parameters that can be decoded. -/
def NdnCxx.Registers (lib : NdnCxx) (name : Name) : Prop :=
  name[ribPrefix.length]? = some (component "register") ∧
    ∃ c params, name[ribPrefix.length + 1]? = some c ∧
      FibManager.extractParameters lib c = some params

/-! ## A store -/

namespace CacheManager

variable {c c' : CacheManager} {now : Int} {d : Data}

/-- Eviction only takes away. -/
theorem evict_subset {sz : Nat} {limit count count' : Int} {q q' : List CacheEntry}
    (h : evict sz limit q count = .ok (q', count')) : ∀ x ∈ q', x ∈ q := by
  induction q generalizing count with
  | nil =>
      rw [evict] at h
      split at h
      · cases h
      · obtain ⟨rfl, _⟩ := Prod.mk.inj (Except.ok.inj h)
        exact fun _ hx => hx
  | cons y q ih =>
      rw [evict] at h
      split at h
      · simp only [] at h
        split at h
        · cases h
        · exact fun x hx => List.mem_cons_of_mem _ (ih h x hx)
      · obtain ⟨rfl, _⟩ := Prod.mk.inj (Except.ok.inj h)
        exact fun _ hx => hx

theorem insert_subset (h : c.insert now d = .ok c') :
    ∀ x ∈ c'.queue, x ∈ c.queue ∨ x.data = d := by
  unfold insert at h
  simp only [] at h
  split at h
  · obtain rfl := Except.ok.inj h
    exact fun x hx => .inl hx
  · split at h
    · cases h
    · next hevict =>
        obtain rfl := Except.ok.inj h
        intro x hx
        rcases List.mem_append.mp hx with hx | hx
        · exact .inl (evict_subset hevict x hx)
        · obtain rfl := List.mem_singleton.mp hx
          exact .inr rfl

end CacheManager

/-! ## A node -/

namespace Node

variable {lib : NdnCxx} {n n' : Node} {clk : Clock} {f : Int} {i : Interest} {d : Data}
  {o : Option Forward} {e : NodeEvent}

/-- What an event gives a node to send and to store: the packet it is about, or
the response to the command that it is. -/
inductive Supplies (lib : NdnCxx) : NodeEvent → Wire → Prop
  | interest (clk : Clock) (f : Int) (i : Interest) :
      Supplies lib (.interest clk f i) (.interest i)
  | data (clk : Clock) (f : Int) (d : Data) : Supplies lib (.data clk f d) (.data d)
  | response (clk : Clock) (f : Int) (i : Interest) (r : ControlResponse)
      (h : lib.Registers i.name) : Supplies lib (.interest clk f i) (.data (lib.response i.name r))

/-- The node has that packet in its store. -/
def Stores (n : Node) (w : Wire) : Prop := ∃ x ∈ n.cacheManager.queue, w = .data x.data

/-- What a node has in its store, or sends, after it handled a Data. -/
theorem handleData_origin (h : n.handleData clk f d = .ok (n', o)) :
    (∀ w, n'.Stores w → n.Stores w ∨ w = .data d) ∧ ∀ fw ∈ o, fw.wire = .data d := by
  rcases handleData_cases h with ⟨_, rfl, rfl⟩ | ⟨_, c, hc, rfl, rfl⟩
  · refine ⟨fun w hw => .inl hw, ?_⟩
    intro fw hfw
    cases hfw
  · refine ⟨?_, ?_⟩
    · intro w hw
      obtain ⟨x, hx, rfl⟩ := hw
      rcases CacheManager.insert_subset hc x hx with hold | hnew
      · exact .inl ⟨x, hold, rfl⟩
      · exact .inr (by rw [hnew])
    · intro fw hfw
      obtain rfl := Option.some.inj hfw
      rfl

theorem registers_of_parameters {name : Name} {params : ControlParameters}
    (hm : n.fibManager = some ⟨0, ribPrefix⟩) (h : n.registerParameters lib name = some params) :
    lib.Registers name := by
  rw [registerParameters, hm, Option.bind_some] at h
  obtain ⟨verb, hverb, h⟩ := Option.bind_eq_some_iff.mp h
  obtain ⟨c, hc, h⟩ := Option.bind_eq_some_iff.mp h
  split_ifs at h with hreg
  exact ⟨hreg ▸ hverb, c, params, hc, h⟩

/-- A response of the fib manager to a register command of that name. -/
def Response (lib : NdnCxx) (i : Interest) (w : Wire) : Prop :=
  lib.Registers i.name ∧ ∃ r, w = .data (lib.response i.name r)

/-- A command that is handled stores and sends its response, if anything. -/
theorem processCommand_origin (hm : n.fibManager = some ⟨0, ribPrefix⟩)
    (h : n.processCommand lib clk f i = .ok (n', o)) :
    (∀ w, n'.Stores w → n.Stores w ∨ Response lib i w) ∧ ∀ fw ∈ o, Response lib i fw.wire := by
  rcases processCommand_spec h with ⟨_, rfl, rfl⟩ | ⟨params, fib, r, hparams, _, hsend⟩
  · refine ⟨fun w hw => .inl hw, ?_⟩
    intro fw hfw
    cases hfw
  · have hreg := registers_of_parameters hm hparams
    obtain ⟨hstore, hsent⟩ := handleData_origin (f := 0) (d := lib.response i.name r) hsend
    refine ⟨?_, fun fw hfw => ⟨hreg, r, hsent fw hfw⟩⟩
    intro w hw
    rcases hstore w hw with hold | hnew
    · exact .inl hold
    · exact .inr ⟨hreg, r, hnew⟩

theorem handleInterest_origin (hm : n.fibManager = some ⟨0, ribPrefix⟩)
    (h : n.handleInterest lib clk f i = .ok (n', o)) :
    (∀ w, n'.Stores w → n.Stores w ∨ Response lib i w) ∧
      ∀ fw ∈ o, n.Stores fw.wire ∨ fw.wire = .interest i ∨ Response lib i fw.wire := by
  rcases handleInterest_cases h with ⟨d, hd, rfl, rfl⟩ | ⟨_, ⟨_, rfl, rfl⟩ | ⟨_, _, rfl, rfl⟩ |
    ⟨_, _, hcmd⟩ | ⟨_, _, _, rfl, rfl⟩⟩
  · refine ⟨fun w hw => .inl hw, ?_⟩
    intro fw hfw
    obtain rfl := Option.some.inj hfw
    obtain ⟨x, hx, rfl⟩ := Option.map_eq_some_iff.mp hd
    exact .inl ⟨x, List.mem_of_find?_eq_some hx, rfl⟩
  · exact ⟨fun w hw => .inl hw, by simp⟩
  · exact ⟨fun w hw => .inl hw, by simp⟩
  · have hm' : (n.withPit (n.pit.addInterest clk.add f i).2).fibManager = some ⟨0, ribPrefix⟩ :=
      hm
    obtain ⟨hstore, hsent⟩ := processCommand_origin hm' hcmd
    exact ⟨hstore, fun fw hfw => .inr (.inr (hsent fw hfw))⟩
  · refine ⟨fun w hw => .inl hw, ?_⟩
    intro fw hfw
    obtain rfl := Option.some.inj hfw
    exact .inr (.inl rfl)

/-- **A node makes nothing up.** What it stores or sends was in its store, or
the event supplied it. -/
theorem step_origin (hm : n.fibManager = some ⟨0, ribPrefix⟩)
    (h : n.step lib e = .ok (n', o)) :
    (∀ w, n'.Stores w → n.Stores w ∨ Supplies lib e w) ∧
      ∀ fw ∈ o, n.Stores fw.wire ∨ Supplies lib e fw.wire := by
  have hidle : n'.cacheManager = n.cacheManager → o = none →
      (∀ w, n'.Stores w → n.Stores w ∨ Supplies lib e w) ∧
        ∀ fw ∈ o, n.Stores fw.wire ∨ Supplies lib e fw.wire := by
    intro hstore ho
    refine ⟨?_, by simp [ho]⟩
    intro w hw
    unfold Stores at hw
    rw [hstore] at hw
    exact .inl hw
  cases e with
  | interest clk f i =>
      obtain ⟨hstore, hsent⟩ := handleInterest_origin hm h
      refine ⟨?_, ?_⟩
      · intro w hw
        rcases hstore w hw with hold | ⟨hreg, r, rfl⟩
        · exact .inl hold
        · exact .inr (.response clk f i r hreg)
      · intro fw hfw
        rcases hsent fw hfw with hold | hw | ⟨hreg, r, hw⟩
        · exact .inl hold
        · exact .inr (hw ▸ .interest clk f i)
        · exact .inr (hw ▸ .response clk f i r hreg)
  | data clk f d =>
      obtain ⟨hstore, hsent⟩ := handleData_origin (f := f) h
      refine ⟨?_, fun fw hfw => .inr (hsent fw hfw ▸ .data clk f d)⟩
      intro w hw
      rcases hstore w hw with hold | rfl
      · exact .inl hold
      · exact .inr (.data clk f d)
  | removeFace f =>
      obtain ⟨hr, ho⟩ := step_removeFace h
      exact hidle (by rw [removeFace_cases hr]) ho
  | cleanUp now =>
      obtain ⟨rfl, rfl⟩ := Prod.mk.inj (Except.ok.inj h)
      exact hidle rfl rfl
  | addLinkFace mac dev =>
      obtain ⟨rfl, rfl⟩ := Prod.mk.inj (Except.ok.inj h)
      exact hidle rfl rfl
  | accept =>
      obtain ⟨face, _, rfl, ho⟩ := step_accept h
      exact hidle rfl ho

end Node

/-! ## A device -/

namespace LinkDevice

variable {mode : Rearm} {l : Link} {now : Int} {raw : Nat} {d d' : LinkDevice} {p q : Packet}
  {o : DeviceOut}

/-- The packets a device has. -/
def packets (d : LinkDevice) : List Packet := d.txQueue ++ d.pendingRx.toList

theorem mem_packets : p ∈ d.packets ↔ p ∈ d.txQueue ∨ d.pendingRx = some p := by
  simp [packets]

theorem packets_startTx (h : d.startTx mode l now raw p = some d') (hq : q ∈ d'.packets) :
    q ∈ d.packets ∨ q = p := by
  obtain ⟨_, _, rfl⟩ := startTx_cases h
  rcases mem_packets.mp hq with hq | hq
  · rcases List.mem_append.mp hq with hq | hq
    · exact .inl (mem_packets.mpr (.inl hq))
    · exact .inr (List.mem_singleton.mp hq)
  · exact .inl (mem_packets.mpr (.inr hq))

theorem packets_startRx (h : d.startRx mode l now p = .ok d') (hq : q ∈ d'.packets) :
    q ∈ d.packets ∨ q = p := by
  rcases startRx_cases h with ⟨_, rfl⟩ | ⟨_, st, _, _, rfl⟩
  · exact .inl hq
  · rcases mem_packets.mp hq with hq | hq
    · exact .inl (mem_packets.mpr (.inl hq))
    · exact .inr (Option.some.inj hq).symm

/-- A handler takes packets away, and shows only what was there. -/
theorem packets_fire {e : TimerEvent} (h : d.fire mode l now e = .ok (d', o)) :
    (∀ q ∈ d'.packets, q ∈ d.packets) ∧ ∀ p, o = .transmit p ∨ o = .received p → p ∈ d.packets := by
  rcases fire_cases h with ⟨_, rfl, rfl⟩ | ⟨_, rfl, rfl⟩ | ⟨t, _, hpost⟩ |
    ⟨raw, t, nb, be, _, hcsma⟩
  · exact ⟨fun q hq => hq, by simp⟩
  · exact ⟨fun q hq => hq, by simp⟩
  · obtain ⟨rfl, ⟨_, p, hp, rfl⟩ | ⟨_, rfl⟩⟩ := postRx_cases hpost
    · refine ⟨fun q hq => hq, ?_⟩
      intro p' hp'
      rcases hp' with hp' | hp'
      · cases hp'
      · obtain rfl := DeviceOut.received.inj hp'
        exact mem_packets.mpr (.inr hp)
    · exact ⟨fun q hq => hq, by simp⟩
  · have hserve : ∀ {d₁ : LinkDevice}, d₁.pendingRx = d.pendingRx →
        (∀ q ∈ d₁.txQueue, q ∈ d.txQueue) →
        ∀ q ∈ (serveNext mode now raw d₁).packets, q ∈ d.packets := by
      intro d₁ hpend hqueue q hq
      rw [mem_packets, serveNext_txQueue, serveNext_rx.2, hpend] at hq
      rcases hq with hq | hq
      · exact mem_packets.mpr (.inl (hqueue q hq))
      · exact mem_packets.mpr (.inr hq)
    obtain ⟨p, rest, hqueue, hcase⟩ := doCsma_cases hcsma
    have hhead : d.txQueue = p :: rest := hqueue
    have hrest : ∀ q ∈ rest, q ∈ d.txQueue := by
      intro q hq
      rw [hhead]
      exact List.mem_cons_of_mem _ hq
    rcases hcase with ⟨_, rfl, rfl⟩ | ⟨_, _, rfl, rfl⟩ | ⟨_, _, rfl, rfl⟩ | ⟨_, rfl, rfl⟩
    · refine ⟨fun q hq => hq, ?_⟩
      intro p' hp'
      rcases hp' with hp' | hp'
      · obtain rfl := DeviceOut.transmit.inj hp'
        refine mem_packets.mpr (.inl ?_)
        rw [hhead]
        exact List.mem_cons_self
      · cases hp'
    · exact ⟨fun q hq => hq, by simp⟩
    · exact ⟨hserve rfl hrest, by simp⟩
    · exact ⟨hserve rfl hrest, by simp⟩

end LinkDevice

/-! ## The network -/

namespace Emulator

variable {mode : Rearm} {lib : NdnCxx} {em em' : Emulator} {c : Config} {id : String}
  {ref : DeviceRef} {w : Wire} {x : String × Wire} {pkt : Packet}

/-- A packet at a node. -/
inductive Holds (em : Emulator) : String × Wire → Prop
  | stored {id : String} {n : Node} {w : Wire} (hn : em.nodeTable.find id = some n)
      (h : n.Stores w) : Holds em (id, w)
  | device {ref : DeviceRef} {d : LinkDevice} {p : Packet}
      (hd : em.deviceTable.find ref = some d) (h : p ∈ d.packets) : Holds em (ref.node, p.wire)
  | transmit {link id : String} {p : Packet} (h : .transmit link id p ∈ em.posted) :
      Holds em (id, p.wire)
  | dispatch {id : String} {face : Int} {w : Wire} (h : .dispatch id face w ∈ em.posted) :
      Holds em (id, w)

/-- What an application brings with an event. -/
def Enters : Event → String × Wire → Prop
  | .appReceive id _ _ _ (.packet w), x => x = (id, w)
  | _, _ => False

/-- What a node sends. -/
def Shows : Output → String × Wire → Prop
  | .forward id fw, x => x = (id, fw.wire)
  | .quiet, _ | .device _ _, _ => False

/-- A packet goes to a node that is connected, and a command becomes its
response. -/
inductive Way (c : Config) (lib : NdnCxx) : String × Wire → String × Wire → Prop
  | hop {a b : String} (w : Wire) (h : c.Connects a b) : Way c lib (a, w) (b, w)
  | response (a : String) (i : Interest) (r : ControlResponse) (h : lib.Registers i.name) :
      Way c lib (a, .interest i) (a, .data (lib.response i.name r))

theorem Holds.of_same (h : em'.Holds x) (em : Emulator) (hn : em'.nodeTable = em.nodeTable)
    (hd : em'.deviceTable = em.deviceTable) (hp : em'.posted = em.posted) : em.Holds x := by
  cases h with
  | stored hfind h => exact .stored (hn ▸ hfind) h
  | device hfind h => exact .device (hd ▸ hfind) h
  | transmit h => exact .transmit (hp ▸ h)
  | dispatch h => exact .dispatch (hp ▸ h)

theorem Holds.of_setDevice {d : LinkDevice} (h : (em.setDevice ref d).Holds x) :
    em.Holds x ∨ ∃ p ∈ d.packets, x = (ref.node, p.wire) := by
  cases h with
  | stored hfind h => exact .inl (.stored hfind h)
  | device hfind h =>
      rcases FinMap.find_insert_cases hfind with ⟨rfl, rfl⟩ | ⟨_, hold⟩
      · exact .inr ⟨_, h, rfl⟩
      · exact .inl (.device hold h)
  | transmit h => exact .inl (.transmit h)
  | dispatch h => exact .inl (.dispatch h)

theorem Holds.of_setNode {n : Node} (h : (em.setNode id n).Holds x) :
    em.Holds x ∨ ∃ w, n.Stores w ∧ x = (id, w) := by
  cases h with
  | stored hfind h =>
      rcases FinMap.find_insert_cases hfind with ⟨rfl, rfl⟩ | ⟨_, hold⟩
      · exact .inr ⟨_, h, rfl⟩
      · exact .inl (.stored hold h)
  | device hfind h => exact .inl (.device hfind h)
  | transmit h => exact .inl (.transmit h)
  | dispatch h => exact .inl (.dispatch h)

/-- The packet a posted handler has, at the node that posted it. -/
def Posted.item : Posted → String × Wire
  | .transmit _ id p => (id, p.wire)
  | .dispatch id _ w => (id, w)

theorem Holds.of_post {h : Posted} (hx : (em.post h).Holds x) :
    em.Holds x ∨ x = Posted.item h := by
  cases hx with
  | stored hfind h => exact .inl (.stored hfind h)
  | device hfind h => exact .inl (.device hfind h)
  | transmit hmem =>
      rcases List.mem_append.mp hmem with hmem | hmem
      · exact .inl (.transmit hmem)
      · rw [← List.mem_singleton.mp hmem]
        exact .inr rfl
  | dispatch hmem =>
      rcases List.mem_append.mp hmem with hmem | hmem
      · exact .inl (.dispatch hmem)
      · rw [← List.mem_singleton.mp hmem]
        exact .inr rfl

theorem Holds.of_unpost {j : Nat}
    (h : ({ em with posted := em.posted.eraseIdx j } : Emulator).Holds x) : em.Holds x := by
  cases h with
  | stored hfind h => exact .stored hfind h
  | device hfind h => exact .device hfind h
  | transmit hmem => exact .transmit (List.mem_of_mem_eraseIdx hmem)
  | dispatch hmem => exact .dispatch (List.mem_of_mem_eraseIdx hmem)

/-! ### Sending and receiving -/

/-- A packet that is sent is put into devices of the faces it is sent on. -/
theorem sendTo_origin {faceTable : FinMap Int Face} {raw : Int → Nat} {faces : List Int}
    (hhome : ∀ g mac ref, faceTable.find g = some (.link mac ref) → ref.node = id)
    (h : sendTo mode faceTable raw pkt em faces = .ok em') (hx : em'.Holds x) :
    em.Holds x ∨ x = (id, pkt.wire) := by
  induction faces generalizing em with
  | nil =>
      obtain rfl := Except.ok.inj h
      exact .inl hx
  | cons g gs ih =>
      rw [sendTo] at h
      split at h
      · exact ih h
      · next face hg =>
          split at h
          · cases h
          · next em₁ hs =>
              rcases ih h with hx₁ | hx₁
              · cases face with
                | app =>
                    obtain rfl := Except.ok.inj hs
                    exact .inl hx₁
                | link mac ref =>
                    rcases startTx_cases hs with rfl | ⟨d, l, d', hd, _, htx, rfl⟩
                    · exact .inl (hx₁.of_same em rfl rfl rfl)
                    · rcases hx₁.of_setDevice with hold | ⟨p, hp, rfl⟩
                      · exact .inl (hold.of_same em rfl rfl rfl)
                      · rcases LinkDevice.packets_startTx htx hp with hold | rfl
                        · exact .inl (.device hd hold)
                        · exact .inr (by rw [hhome g mac ref hg])
              · exact .inr hx₁

theorem forward_origin {faceTable : FinMap Int Face} {raw : Int → Nat} {faces : List Int}
    (hhome : ∀ g mac ref, faceTable.find g = some (.link mac ref) → ref.node = id)
    (h : em.forward mode faceTable raw w faces = .ok em') (hx : em'.Holds x) :
    em.Holds x ∨ x = (id, w) := by
  rcases sendTo_origin hhome h hx with hold | hnew
  · exact .inl (hold.of_same em rfl rfl rfl)
  · exact .inr hnew

/-- What an event that a node handles leaves in the network, and what it shows. -/
theorem onNode_origin {raw : Int → Nat} {e : NodeEvent} {out : Output} (hhoused : em.Housed)
    (hmanaged : ∀ id n, em.nodeTable.find id = some n → n.Managed)
    (hadd : ∀ mac dev, e ≠ .addLinkFace mac dev)
    (h : em.onNode mode lib id raw e = .ok (em', out)) :
    (em'.Holds x ∨ Shows out x) → em.Holds x ∨ ∃ w, x = (id, w) ∧ Node.Supplies lib e w := by
  obtain ⟨n, n', o, hn, hs, hrest⟩ := onNode_cases h
  obtain ⟨hstore, hsent⟩ := Node.step_origin (hmanaged id n hn).manager hs
  have hnode : (em.setNode id n').Holds x → em.Holds x ∨ ∃ w, x = (id, w) ∧ Node.Supplies lib e w := by
    intro hx
    rcases hx.of_setNode with hold | ⟨w, hw, rfl⟩
    · exact .inl hold
    · rcases hstore w hw with hold | hnew
      · exact .inl (.stored hn hold)
      · exact .inr ⟨w, rfl, hnew⟩
  have hforward : ∀ fw, o = some fw →
      em.Holds (id, fw.wire) ∨ ∃ w, (id, fw.wire) = (id, w) ∧ Node.Supplies lib e w := by
    intro fw hfw
    rcases hsent fw hfw with hold | hnew
    · exact .inl (.stored hn hold)
    · exact .inr ⟨_, rfl, hnew⟩
  intro hx
  rcases hrest with ⟨_, rfl, rfl⟩ | ⟨fw, ho, rfl, hf⟩
  · exact hnode (hx.resolve_right fun hno => hno)
  · rcases hx with hx | hx
    · have hhome : ∀ g mac ref, n'.faceTable.find g = some (.link mac ref) → ref.node = id :=
        fun g mac ref hg => (hhoused id n hn g mac ref (Node.step_linkFaces hadd hs g mac ref hg)).1
      rcases forward_origin hhome hf hx with hold | rfl
      · exact hnode hold
      · exact hforward fw ho
    · have heq : x = (id, fw.wire) := hx
      rw [heq]
      exact hforward fw ho

/-- A transmission leaves the packet in devices of neighbours. -/
theorem transmit_origin {link : Link} {drop : String → Bool} {nodes : List String}
    (hentered : ∀ b ref, link.nodeTable.find b = some ref → ref.node = b)
    (h : transmit mode link drop pkt em nodes = .ok em') (hx : em'.Holds x) :
    em.Holds x ∨ ∃ b ∈ nodes, x = (b, pkt.wire) := by
  induction nodes generalizing em with
  | nil =>
      obtain rfl := Except.ok.inj h
      exact .inl hx
  | cons b rest ih =>
      have hrest : (∃ a ∈ rest, x = (a, pkt.wire)) → ∃ a ∈ b :: rest, x = (a, pkt.wire) := by
        intro hlater
        obtain ⟨a, ha, heq⟩ := hlater
        exact ⟨a, List.mem_cons_of_mem _ ha, heq⟩
      rw [transmit] at h
      split at h
      · exact (ih h).imp_right hrest
      · split at h
        · cases h
        · next ref hb =>
            split at h
            · cases h
            · next d l hat =>
                split at h
                · cases h
                · next d' hrx =>
                    rcases ih h with hx₁ | hx₁
                    · rcases hx₁.of_setDevice with hold | ⟨p, hp, rfl⟩
                      · exact .inl hold
                      · rcases LinkDevice.packets_startRx hrx hp with hold | rfl
                        · exact .inl (.device (attached_cases hat).1 hold)
                        · refine .inr ⟨b, List.mem_cons_self, ?_⟩
                          rw [hentered b ref hb]
                    · exact .inr (hrest hx₁)

theorem receive_origin (h : em.receive ref pkt = .ok em') (hx : em'.Holds x) :
    em.Holds x ∨ x = (ref.node, pkt.wire) := by
  obtain ⟨d, n, hd, hn, ⟨_, rfl⟩ | ⟨face, _, rfl⟩ | ⟨_, rfl⟩⟩ := receive_cases h
  · exact .inl hx
  · exact hx.of_post
  · rcases hx.of_post with hx | hx
    · rcases hx.of_setDevice with hx | ⟨p, hp, rfl⟩
      · rcases hx.of_setNode with hx | ⟨w, hw, rfl⟩
        · exact .inl hx
        · exact .inl (.stored hn hw)
      · exact .inl (.device hd hp)
    · exact .inr hx

/-- What a timer leaves was there. -/
theorem fire_origin {e : LinkDevice.TimerEvent} {out : Output}
    (h : em.fire mode ref e = .ok (em', out)) : (em'.Holds x ∨ Shows out x) → em.Holds x := by
  obtain ⟨d, l, d', o, hd, _, hs, rfl, hrest⟩ := fire_cases h
  obtain ⟨hkept, hshown⟩ := LinkDevice.packets_fire hs
  have hdev : (em.setDevice ref d').Holds x → em.Holds x := by
    intro hx
    rcases hx.of_setDevice with hold | ⟨p, hp, rfl⟩
    · exact hold
    · exact .device hd (hkept p hp)
  intro hx
  have hx : em'.Holds x := hx.resolve_right fun hno => hno
  obtain ⟨pkt, ho, hr⟩ | ⟨pkt, ho, rfl⟩ | ⟨_, rfl⟩ := hrest
  · rcases receive_origin hr hx with hold | rfl
    · exact hdev hold
    · exact .device hd (hshown pkt (.inr ho))
  · rcases hx.of_post with hold | rfl
    · exact hdev hold
    · exact .device hd (hshown pkt (.inl ho))
  · exact hdev hx

/-! ### Steps and runs -/

/-- What a packet that a node handles supplies goes back to that packet. -/
theorem way_of_supplies {clk : Clock} {face : Int} {w' : Wire}
    (h : Node.Supplies lib (arrival clk face w) w') :
    ReflTransGen (Way c lib) (id, w) (id, w') := by
  cases w with
  | interest i =>
      cases h with
      | interest => exact .refl
      | response _ _ _ r hreg => exact .single (.response id i r hreg)
  | data d =>
      cases h
      exact .refl

theorem not_supplies {e : NodeEvent} (he : ∀ clk f, (∀ i, e ≠ .interest clk f i) ∧
    ∀ d, e ≠ .data clk f d) : ¬ Node.Supplies lib e w := by
  intro h
  cases h with
  | interest clk f i => exact (he clk f).1 i rfl
  | data clk f d => exact (he clk f).2 d rfl
  | response clk f i r _ => exact (he clk f).1 i rfl

/-- What every run keeps that a configuration has started. -/
structure Kept (c : Config) (em : Emulator) : Prop extends Laid c em where
  managed : ∀ id n, em.nodeTable.find id = some n → n.Managed

theorem kept_start (h : readNetworkConfig c = .ok em) : em.start.Kept c := by
  refine ⟨laid_start h, ?_⟩
  have hsound := sound_config h
  intro id n hn
  obtain ⟨m, hm, heq⟩ := FinMap.find_filterMap_eq_some.mp hn
  obtain rfl := Option.some.inj heq
  exact (hsound.valid id m hm).managed_start (hsound.grounded.counted id m hm)

theorem kept_step {e : Event} {out : Output} (h : em.Kept c) (he : em.Enabled e)
    (hs : em.step mode lib e = .ok (em', out)) : em'.Kept c := by
  refine ⟨laid_step h.toLaid he hs, ?_⟩
  exact step_preserves (P := fun a => ∀ id n, a.nodeTable.find id = some n → n.Managed)
    (fun _ _ => managed_move) h.managed he hs

/-- **A step makes nothing up.** -/
theorem step_origin {e : Event} {out : Output} (hlaid : em.Kept c)
    (h : em.step mode lib e = .ok (em', out)) (hx : em'.Holds x ∨ Shows out x) :
    ∃ y, ReflTransGen (Way c lib) y x ∧ (em.Holds y ∨ Enters e y) := by
  have hstill : ∀ {id : String} {ne : NodeEvent}, (∀ clk f, (∀ i, ne ≠ .interest clk f i) ∧
      ∀ d, ne ≠ .data clk f d) → (em.Holds x ∨ ∃ w, x = (id, w) ∧ Node.Supplies lib ne w) →
      ∃ y, ReflTransGen (Way c lib) y x ∧ (em.Holds y ∨ Enters e y) := by
    intro id ne hne hor
    rcases hor with hold | ⟨w, _, hw⟩
    · exact ⟨x, .refl, .inl hold⟩
    · exact absurd hw (not_supplies hne)
  cases e with
  | appReceive id face clk raw blk =>
      obtain ⟨w, rfl, hact⟩ := dispatch_cases h
      rcases onNode_origin hlaid.housed hlaid.managed (by cases w <;> simp [arrival]) hact hx with
        hold | ⟨w', rfl, hw'⟩
      · exact ⟨x, .refl, .inl hold⟩
      · exact ⟨(id, w), way_of_supplies hw', .inr rfl⟩
  | appClose id face => exact hstill (by simp) (onNode_origin hlaid.housed hlaid.managed (by simp) h hx)
  | accept id => exact hstill (by simp) (onNode_origin hlaid.housed hlaid.managed (by simp) h hx)
  | cleanUp id now =>
      have hclean : em.onNode mode lib id (fun _ => 0) (.cleanUp now) = .ok (em', out) := h
      exact hstill (by simp) (onNode_origin hlaid.housed hlaid.managed (by simp) hclean hx)
  | run j clk raw drop =>
      obtain ⟨p, hp, ⟨link, id, pkt, l, rfl, hl, ht, rfl⟩ | ⟨id, face, w, rfl, hact⟩⟩ := run_cases h
      · have hx : em'.Holds x := hx.resolve_right fun hno => hno
        have hentered : ∀ b ref, l.nodeTable.find b = some ref → ref.node = b :=
          fun b ref hb => (hlaid.charted.entered link l b ref hl hb).1
        rcases transmit_origin hentered ht hx with hold | ⟨b, hb, rfl⟩
        · exact ⟨x, .refl, .inl hold.of_unpost⟩
        · have hcon := (hlaid.charted.neighbors link l id b hl (mem_ascending.mp hb)).1
          exact ⟨(id, pkt.wire), .single (.hop _ hcon), .inl (.transmit (List.mem_of_getElem? hp))⟩
      · have hhoused : ({ em with posted := em.posted.eraseIdx j } : Emulator).Housed :=
          hlaid.housed
        rcases onNode_origin hhoused hlaid.managed (by cases w <;> simp [arrival]) hact hx with
          hold | ⟨w', rfl, hw'⟩
        · exact ⟨x, .refl, .inl hold.of_unpost⟩
        · exact ⟨(id, w), way_of_supplies hw', .inl (.dispatch (List.mem_of_getElem? hp))⟩
  | timer ref t => exact ⟨x, .refl, .inl (fire_origin h hx)⟩
  | tick n =>
      obtain ⟨rfl, rfl⟩ := Prod.mk.inj (Except.ok.inj h)
      have hx := hx.resolve_right fun hno => hno
      exact ⟨x, .refl, .inl (hx.of_same em rfl rfl rfl)⟩

theorem conveys (mode : Rearm) (lib : NdnCxx) (c : Config) :
    (system mode lib).Conveys (Kept c) Holds Shows Enters (Way c lib) where
  keeps _ _ _ _ h he hs := kept_step h he hs
  holds _ _ _ _ _ h _ hs hx := step_origin h hs (.inl hx)
  shows _ _ _ _ _ h _ hs hx := step_origin h hs (.inr hx)

/-- An application of that node sends that packet in the trace. -/
def Injected (tr : List (Event × Output)) (id : String) (w : Wire) : Prop :=
  ∃ face clk raw out, (.appReceive id face clk raw (.packet w), out) ∈ tr

theorem injected_of_enters {tr : List (Event × Output)} {z : Event × Output} (hz : z ∈ tr)
    (h : Enters z.1 (id, w)) : Injected tr id w := by
  obtain ⟨e, out⟩ := z
  cases e with
  | appReceive id' face clk raw blk =>
      cases blk with
      | packet w' =>
          obtain ⟨rfl, rfl⟩ := Prod.mk.inj h
          exact ⟨face, clk, raw, out, hz⟩
      | malformed => cases h
      | unknown => cases h
  | appClose id face => cases h
  | accept id => cases h
  | cleanUp id now => cases h
  | run j clk raw drop => cases h
  | timer ref t => cases h
  | tick n => cases h

/-- The ways a packet can go: along connections, and at some place into the
response. -/
theorem ways_cases {y : String × Wire} (h : ReflTransGen (Way c lib) y x) :
    c.Reaches y.1 x.1 ∧ (y.2 = x.2 ∨
      ∃ i r, lib.Registers i.name ∧ y.2 = .interest i ∧
        x.2 = .data (lib.response i.name r)) := by
  induction h with
  | refl => exact ⟨.refl, .inl rfl⟩
  | tail _ hway ih =>
      obtain ⟨hreach, hwire⟩ := ih
      cases hway with
      | hop w hcon => exact ⟨hreach.tail hcon, hwire⟩
      | response a i r hreg =>
          refine ⟨hreach, .inr ⟨i, r, hreg, ?_, rfl⟩⟩
          rcases hwire with hsame | ⟨i', r', _, _, hdata⟩
          · exact hsame
          · cases hdata

theorem Blank.not_holds (h : em.Blank) : ¬ em.Holds x := by
  intro hx
  cases hx with
  | stored hn hw =>
      obtain ⟨_, limit, hcache⟩ := h.nodes _ _ hn
      obtain ⟨y, hy, _⟩ := hw
      rw [hcache] at hy
      cases hy
  | device hd hp =>
      obtain ⟨mac, link, faces, rfl⟩ := h.devices _ _ hd
      cases hp
  | transmit hmem =>
      rw [h.posted] at hmem
      cases hmem
  | dispatch hmem =>
      rw [h.posted] at hmem
      cases hmem

/-- **No packet is made up.** Whatever a node sends, an application has
injected that very packet before, at a node from which connections lead there,
or it is the response of a fib manager to a register command of which that is
true. -/
theorem sent_was_injected {em₀ : Emulator} {tr : List (Event × Output)} {e : Event}
    {fw : Forward} (hc : readNetworkConfig c = .ok em₀)
    (hrun : (system mode lib).Run em₀.start (tr ++ [(e, .forward id fw)]) em) :
    ∃ a, c.Reaches a id ∧ (Injected (tr ++ [(e, .forward id fw)]) a fw.wire ∨
      ∃ i r, lib.Registers i.name ∧ fw.wire = .data (lib.response i.name r) ∧
        Injected (tr ++ [(e, .forward id fw)]) a (.interest i)) := by
  have hshows : Shows (.forward id fw) (id, fw.wire) := rfl
  obtain ⟨⟨a, w⟩, hway, hheld | ⟨z, hz, hin⟩⟩ :=
    (conveys mode lib c).shows_run (kept_start hc) hrun hshows
  · exact absurd hheld (blank_config hc).start.not_holds
  · obtain ⟨hreach, hsame | ⟨i, r, hreg, hi, hd⟩⟩ := ways_cases hway
    · have hwire : w = fw.wire := hsame
      exact ⟨a, hreach, .inl (hwire ▸ injected_of_enters hz hin)⟩
    · have hwire : w = .interest i := hi
      exact ⟨a, hreach, .inr ⟨i, r, hreg, hd, hwire ▸ injected_of_enters hz hin⟩⟩

/-- The second node of the pair has sent an Interest, and the first one
forwards it. -/
def relayedRun : List (Event × Output) :=
  floodRun.take 10 ++ [(.run 0 (Clock.still 0) (fun _ => 0) (fun _ => false),
    .forward "n0" (.interest floodInterest [1]))]

theorem sent_was_injected_pair : ∃ em em', readNetworkConfig pairConfig = .ok em ∧
    (system .late Node.noCommands).Run em.start relayedRun em' ∧
    ∃ a, pairConfig.Reaches a "n0" ∧ (Injected relayedRun a (.interest floodInterest) ∨
      ∃ i r, Node.noCommands.Registers i.name ∧
        Wire.interest floodInterest = .data (Node.noCommands.response i.name r) ∧
        Injected relayedRun a (.interest i)) := by
  obtain ⟨em, hc, em', hrun⟩ : ∃ em, readNetworkConfig pairConfig = .ok em ∧
      ∃ em', (system .late Node.noCommands).Run em.start relayedRun em' :=
    ⟨_, rfl, _, System.run_of_exec (show (system .late Node.noCommands).exec _
      (relayedRun.map (·.1)) = some (relayedRun, _) from rfl)⟩
  have horigin := sent_was_injected hc hrun
  exact ⟨em, em', hc, hrun, horigin⟩

end Emulator

end NdnEm
