import NdnEm.Lib.Simulation
import NdnEm.Proofs.FaceTables
import NdnEm.Proofs.FlowBalance
import NdnEm.Proofs.Topology

/-!
# The network as one of its nodes lives it

A node knows nothing of links and devices. What the network does to it is a run
of the node alone: the network decides which packets arrive, when clients come
and go, and that link faces are made, and the node does the rest as it would by
itself. So whatever holds in every run of a node holds of that node in every
network.

The view says what the two runs have in common. The node has the state that the
network has for it, and sends what the network shows it to send. And on a face
that is not a link face, what arrives in the run of the node is what the client
of that face sent: nothing from the air comes in there.
-/

namespace NdnEm

open Lib

/-- What is to be seen of an event: the packet that came, and what was passed to
`Send`. -/
def sighting (came : Option Wire) (sent : Option Forward) :
    Option (Option Wire × Option Forward) :=
  if came = none ∧ sent = none then none else some (came, sent)

theorem sighting_eq_some {came : Option Wire} {sent : Option Forward}
    {c : Option Wire × Option Forward} (h : sighting came sent = some c) : c = (came, sent) := by
  unfold sighting at h
  split at h
  · cases h
  · exact (Option.some.inj h).symm

theorem sighting_sent (came : Option Wire) (fw : Forward) :
    sighting came (some fw) = some (came, some fw) := if_neg (by simp)

theorem sighting_came (w : Wire) (sent : Option Forward) :
    sighting (some w) sent = some (some w, sent) := if_neg (by simp)

/-- The packet that a client of the face sends to the node. -/
def Event.fromClient (id : String) (f : Int) : Event → Option Wire
  | .appReceive id' g _ _ (.packet w) => if id' = id ∧ g = f then some w else none
  | .appReceive _ _ _ _ .malformed | .appReceive _ _ _ _ .unknown | .appClose .. | .accept _
  | .cleanUp .. | .run .. | .timer .. | .tick _ => none

/-- What the node is shown to pass to `Send`. -/
def Output.sentBy (id : String) : Output → Option Forward
  | .forward id' fw => if id' = id then some fw else none
  | .quiet | .device _ _ => none

theorem Output.sentBy_eq_some {id : String} {out : Output} {fw : Forward} :
    out.sentBy id = some fw ↔ out = .forward id fw := by
  cases out with
  | quiet => simp [sentBy]
  | device ref o => simp [sentBy]
  | forward id' fw' =>
      by_cases hid : id' = id
      · simp [sentBy, hid]
      · simp [sentBy, hid]

/-- The packet that arrives on the face. -/
def NodeEvent.onFace (f : Int) : NodeEvent → Option Wire
  | .interest _ g i => if g = f then some (.interest i) else none
  | .data _ g d => if g = f then some (.data d) else none
  | .removeFace _ | .cleanUp _ | .addLinkFace _ _ | .accept => none

theorem onFace_arrival (clk : Clock) (f g : Int) (w : Wire) :
    (Emulator.arrival clk g w).onFace f = if g = f then some w else none := by
  cases w <;> rfl

/-- A face of a node, as the node sees it. -/
def Node.seenOn (f : Int) (x : NodeEvent × Option Forward) :
    Option (Option Wire × Option Forward) := sighting (x.1.onFace f) x.2

namespace Emulator

variable {mode : Rearm} {lib : NdnCxx} {em em' : Emulator} {id : String} {e : Event}
  {out : Output} {tr : List (Event × Output)}

/-- A face of a node, as the network shows it. -/
def seenOn (id : String) (f : Int) (x : Event × Output) :
    Option (Option Wire × Option Forward) := sighting (x.1.fromClient id f) (x.2.sentBy id)

/-- What an event has a node do, the node does. -/
theorem step_handles {ne : NodeEvent} (hev : em.nodeEvent e = some (id, ne))
    (h : em.step mode lib e = .ok (em', out)) :
    ∃ n n' o, em.nodeTable.find id = some n ∧ n.step lib ne = .ok (n', o) ∧
      em'.nodeTable.find id = some n' ∧ out.sentBy id = o := by
  have hnode : ∀ (em₀ : Emulator) {raw : Int → Nat}, em₀.nodeTable = em.nodeTable →
      em₀.onNode mode lib id raw ne = .ok (em', out) →
      ∃ n n' o, em.nodeTable.find id = some n ∧ n.step lib ne = .ok (n', o) ∧
        em'.nodeTable.find id = some n' ∧ out.sentBy id = o := by
    intro em₀ raw hsame h
    obtain ⟨n, n', o, hn, hs, ⟨rfl, rfl, rfl⟩ | ⟨fw, rfl, rfl, hf⟩⟩ := onNode_cases h
    · exact ⟨n, n', none, hsame ▸ hn, hs, FinMap.find_insert_self _ _ _, rfl⟩
    · refine ⟨n, n', some fw, hsame ▸ hn, hs, ?_, Output.sentBy_eq_some.mpr rfl⟩
      rw [(sendTo_onlyDevices hf).nodes]
      exact FinMap.find_insert_self _ _ _
  cases e with
  | appReceive id' face clk raw blk =>
      obtain ⟨w, hw, hact⟩ := dispatch_cases h
      subst hw
      obtain ⟨rfl, rfl⟩ := Prod.mk.inj (Option.some.inj hev)
      exact hnode em rfl hact
  | appClose id' face =>
      obtain ⟨rfl, rfl⟩ := Prod.mk.inj (Option.some.inj hev)
      exact hnode em rfl h
  | accept id' =>
      obtain ⟨rfl, rfl⟩ := Prod.mk.inj (Option.some.inj hev)
      exact hnode em rfl h
  | cleanUp id' now =>
      obtain ⟨rfl, rfl⟩ := Prod.mk.inj (Option.some.inj hev)
      have hclean : em.onNode mode lib id' (fun _ => 0) (.cleanUp now) = .ok (em', out) := h
      exact hnode em rfl hclean
  | run j clk raw drop =>
      obtain ⟨p, hp, ⟨link, nodeId, pkt, l, rfl, _⟩ | ⟨id', face, w, rfl, h⟩⟩ := run_cases h
      · simp [nodeEvent, hp] at hev
      · simp only [nodeEvent, hp] at hev
        obtain ⟨rfl, rfl⟩ := Prod.mk.inj (Option.some.inj hev)
        exact hnode { em with posted := em.posted.eraseIdx j } rfl h
  | timer ref t => cases hev
  | tick n => cases hev

/-- What another handles, or none, leaves a node alone, but for a link face it
may be given. -/
theorem step_elsewhere (hev : ∀ ne, em.nodeEvent e ≠ some (id, ne))
    (h : em.step mode lib e = .ok (em', out)) :
    out.sentBy id = none ∧ (em'.nodeTable.find id = em.nodeTable.find id ∨
      ∃ n src ref, em.nodeTable.find id = some n ∧
        em'.nodeTable.find id = some (n.addLinkFace src ref).1) := by
  rcases step_nodes h with ⟨id', ne, n, n', o, hev', _, _, htab, rfl⟩ | ⟨hout, hgrow⟩
  · have hid : id' ≠ id := by
      intro hid
      exact hev ne (hid ▸ hev')
    refine ⟨?_, .inl ?_⟩
    · cases o with
      | none => rfl
      | some fw => exact if_neg hid
    · rw [htab]
      exact FinMap.find_insert_ne (Ne.symm hid)
  · refine ⟨?_, hgrow id⟩
    by_contra hsome
    obtain ⟨fw, hfw⟩ := Option.ne_none_iff_exists'.mp hsome
    exact hout id fw (Output.sentBy_eq_some.mp hfw)

/-- What a client sends is for its node to handle. -/
theorem fromClient_cases {f : Int} {w : Wire} (h : e.fromClient id f = some w) :
    ∃ clk, em.nodeEvent e = some (id, arrival clk f w) := by
  cases e with
  | appReceive id' g clk raw blk =>
      cases blk with
      | packet w' =>
          rw [Event.fromClient] at h
          split at h
          · next hat =>
              obtain ⟨rfl, rfl⟩ := hat
              obtain rfl := Option.some.inj h
              exact ⟨clk, rfl⟩
          · cases h
      | malformed => cases h
      | unknown => cases h
  | _ => cases h

/-- No device has the face, so that it can only be a client's. -/
def NoLinkFace (em : Emulator) (id : String) (f : Int) : Prop :=
  ∀ mac ref, ¬ em.LinkFaceAt id f mac ref

/-- On a face that is no link face, a packet arrives exactly when the client
sends it. -/
theorem onFace_handled {ne : NodeEvent} {f : Int} (hem : em.Grounded) (hf : em.NoLinkFace id f)
    (hev : em.nodeEvent e = some (id, ne)) : ne.onFace f = e.fromClient id f := by
  cases e with
  | appReceive id' g clk raw blk =>
      cases blk with
      | packet w =>
          obtain ⟨rfl, rfl⟩ := Prod.mk.inj (Option.some.inj hev)
          rw [onFace_arrival, Event.fromClient]
          by_cases hg : g = f
          · rw [if_pos hg, if_pos ⟨rfl, hg⟩]
          · rw [if_neg hg, if_neg fun h => hg h.2]
      | malformed => cases hev
      | unknown => cases hev
  | appClose id' g =>
      obtain ⟨_, rfl⟩ := Prod.mk.inj (Option.some.inj hev)
      rfl
  | accept id' =>
      obtain ⟨_, rfl⟩ := Prod.mk.inj (Option.some.inj hev)
      rfl
  | cleanUp id' now =>
      obtain ⟨_, rfl⟩ := Prod.mk.inj (Option.some.inj hev)
      rfl
  | run j clk raw drop =>
      -- what is posted was received by a device, on one of its link faces
      simp only [nodeEvent] at hev
      split at hev
      · next g w hp =>
          obtain ⟨rfl, rfl⟩ := Prod.mk.inj (Option.some.inj hev)
          obtain ⟨mac, ref, hat⟩ := hem.posted _ g w (List.mem_of_getElem? hp)
          rw [onFace_arrival, if_neg]
          · rfl
          · intro hg
            exact hf mac ref (hg ▸ hat)
      · cases hev
      · cases hev
  | timer ref t => cases hev
  | tick n => cases hev

/-- What a run of the network and a run of one of its nodes have in common. -/
structure NodeView (id : String) (tr : List (Event × Output)) (em : Emulator)
    (ntr : Node.Trace) (n : Node) : Prop where
  node : em.nodeTable.find id = some n
  sends : ntr.filterMap (·.2) = tr.filterMap fun x => x.2.sentBy id
  seen : ∀ f, em.NoLinkFace id f → ntr.filterMap (Node.seenOn f) = tr.filterMap (seenOn id f)

theorem NodeView.snoc {ntr : Node.Trace} {n n' : Node} {ne : NodeEvent} {o : Option Forward}
    (h : NodeView id tr em ntr n) (hn : em'.nodeTable.find id = some n')
    (hkeep : ∀ f, em'.NoLinkFace id f → em.NoLinkFace id f) (hsent : out.sentBy id = o)
    (hcame : ∀ f, em.NoLinkFace id f → ne.onFace f = e.fromClient id f) :
    NodeView id (tr ++ [(e, out)]) em' (ntr ++ [(ne, o)]) n' := by
  refine ⟨hn, ?_, fun f hf => ?_⟩
  · rw [List.filterMap_append, List.filterMap_append, h.sends]
    subst hsent
    rfl
  · have hsame : Node.seenOn f (ne, o) = seenOn id f (e, out) := by
      rw [Node.seenOn, seenOn, hcame f (hkeep f hf), hsent]
    rw [List.filterMap_append, List.filterMap_append, h.seen f (hkeep f hf)]
    simp [List.filterMap_cons, hsame]

theorem NodeView.skip {ntr : Node.Trace} {n : Node} (h : NodeView id tr em ntr n)
    (hn : em'.nodeTable.find id = some n)
    (hkeep : ∀ f, em'.NoLinkFace id f → em.NoLinkFace id f) (hsent : out.sentBy id = none)
    (hcame : ∀ f, e.fromClient id f = none) :
    NodeView id (tr ++ [(e, out)]) em' ntr n := by
  refine ⟨hn, ?_, fun f hf => ?_⟩
  · rw [List.filterMap_append, h.sends]
    simp [hsent]
  · have hnone : seenOn id f (e, out) = none := by
      rw [seenOn, hcame f, hsent]
      rfl
    rw [List.filterMap_append, h.seen f (hkeep f hf)]
    simp [hnone]

/-- No step takes a link face away. -/
theorem noLinkFace_step {f : Int} (hem : em.Grounded) (he : em.Enabled e)
    (hs : em.step mode lib e = .ok (em', out)) (hf : em'.NoLinkFace id f) :
    em.NoLinkFace id f := by
  intro mac ref hat
  have hkeep := step_preserves (P := fun a => a.Grounded ∧ a.LinkFaceAt id f mac ref)
    (fun _ _ h hm => ⟨grounded_move h.1 hm, linkFaceAt_move h.1 hm h.2⟩) ⟨hem, hat⟩ he hs
  exact hf mac ref hkeep.2

/-- What the network does in one step, the node does in one or in none. -/
theorem nodeView_step {ntr : Node.Trace} {n : Node} (hem : em.Grounded)
    (hview : NodeView id tr em ntr n) (he : em.Enabled e)
    (hs : em.step mode lib e = .ok (em', out)) :
    ∃ seg n', (Node.system lib).Run n seg n' ∧
      NodeView id (tr ++ [(e, out)]) em' (ntr ++ seg) n' := by
  have hkeep : ∀ f, em'.NoLinkFace id f → em.NoLinkFace id f :=
    fun f hf => noLinkFace_step hem he hs hf
  by_cases hev : ∃ ne, em.nodeEvent e = some (id, ne)
  · obtain ⟨ne, hev⟩ := hev
    obtain ⟨m, n', o, hm, hstep, hn', hsent⟩ := step_handles hev hs
    obtain rfl : m = n := Option.some.inj (hm.symm.trans hview.node)
    have hclient : (Node.system lib).Enabled m ne := by
      intro hne
      subst hne
      obtain ⟨face, hface, _⟩ := Node.step_accept hstep
      rw [hface]
      rfl
    exact ⟨[(ne, o)], n', .single hclient hstep,
      hview.snoc hn' hkeep hsent fun f hf => onFace_handled hem hf hev⟩
  · have hev : ∀ ne, em.nodeEvent e ≠ some (id, ne) := fun ne h => hev ⟨ne, h⟩
    have hcame : ∀ f, e.fromClient id f = none := by
      intro f
      by_contra hsome
      obtain ⟨w, hw⟩ := Option.ne_none_iff_exists'.mp hsome
      obtain ⟨clk, hclk⟩ : ∃ clk, em.nodeEvent e = some (id, arrival clk f w) :=
        fromClient_cases hw
      exact hev _ hclk
    obtain ⟨hsent, hsame | ⟨m, src, ref, hm, hnew⟩⟩ := step_elsewhere hev hs
    · exact ⟨[], n, .nil n, by
        rw [List.append_nil]
        exact hview.skip (hsame.trans hview.node) hkeep hsent hcame⟩
    · obtain rfl : m = n := Option.some.inj (hm.symm.trans hview.node)
      refine ⟨[(.addLinkFace src ref, none)], _, .single (by intro h; cases h) rfl, ?_⟩
      exact hview.snoc hnew hkeep hsent fun f _ => (hcame f).symm

theorem grounded_run {em₀ : Emulator} (h : em₀.Grounded)
    (hrun : (system mode lib).Run em₀ tr em) : em.Grounded :=
  hrun.invariant (fun _ _ _ _ ha he hs => step_preserves (fun _ _ => grounded_move) ha he hs) h

/-- **A node of the network is a node.** Every run of the network is, for each
of its nodes, a run of that node alone from the state it was started in. -/
theorem runs_as_node {c : Config} {em₀ : Emulator} {n : Node}
    (hc : readNetworkConfig c = .ok em₀) (hn : em₀.start.nodeTable.find id = some n)
    (hrun : (system mode lib).Run em₀.start tr em) :
    System.Seen (Node.system lib) n (NodeView id) tr em := by
  refine System.Run.seen ?_ ⟨hn, rfl, fun _ _ => rfl⟩ hrun
  intro tr s ntr m e s' o hrun _ hview he hs
  have hem := grounded_run (grounded_start (grounded_config hc)) hrun
  exact nodeView_step hem hview he hs

/-! ## What an application gets -/

/-- Point `p` of the trace is the node's sending of Data on the face. -/
def SendsDataTo (id : String) (f : Int) (tr : List (Event × Output)) (p : Nat) : Prop :=
  ∃ e fw d, tr[p]? = some (e, .forward id fw) ∧ fw.wire = .data d ∧ f ∈ fw.faces

/-- Point `q` of the trace is where the client of the face asked for the Data
that is sent to it at point `p`. -/
def AskedAt (id : String) (f : Int) (tr : List (Event × Output)) (p q : Nat) : Prop :=
  q ≤ p ∧ ∃ clk raw i o e fw d,
    tr[q]? = some (.appReceive id f clk raw (.packet (.interest i)), o) ∧
    tr[p]? = some (e, .forward id fw) ∧ fw.wire = .data d ∧ f ∈ fw.faces ∧ i.name <+: d.name

theorem fromClient_eq_some {f : Int} {w : Wire} (h : e.fromClient id f = some w) :
    ∃ clk raw, e = .appReceive id f clk raw (.packet w) := by
  cases e with
  | appReceive id' g clk raw blk =>
      cases blk with
      | packet w' =>
          rw [Event.fromClient] at h
          split at h
          · next hat =>
              obtain ⟨rfl, rfl⟩ := hat
              obtain rfl := Option.some.inj h
              exact ⟨clk, raw, rfl⟩
          · cases h
      | malformed => cases h
      | unknown => cases h
  | _ => cases h

section Balance

variable {f : Int} {ntr : Node.Trace} {p q c : Nat}

theorem shownAt_sends (h : SendsDataTo id f tr p) : ∃ w, ShownAt (seenOn id f) tr p w := by
  obtain ⟨e, fw, d, hp, _⟩ := h
  refine ⟨(e.fromClient id f, some fw), _, hp, ?_⟩
  rw [seenOn, Output.sentBy_eq_some.mpr rfl]
  exact sighting_sent _ _

theorem shownAt_answers (h : Node.Answers ntr (q, f) c) :
    ∃ i o, ShownAt (Node.seenOn f) ntr c (some (.interest i), o) := by
  obtain ⟨_, clk, i, o, _, _, _, hc, _⟩ := h
  refine ⟨i, o, _, hc, ?_⟩
  rw [Node.seenOn, NodeEvent.onFace, if_pos rfl]
  exact sighting_came _ _

/-- Where the network shows the node to send Data, the node sends it, and what
it answers there is what the client has asked for before. -/
theorem askedAt_of_answers (hsame : ntr.filterMap (Node.seenOn f) = tr.filterMap (seenOn id f))
    (h : SendsDataTo id f tr p) :
    ∃ q, Node.SendsData ntr (q, f) ∧
      rank (Node.seenOn f) ntr q = rank (seenOn id f) tr p ∧
      ∀ c, Node.Answers ntr (q, f) c → ∃ c', AskedAt id f tr p c' ∧
        rank (seenOn id f) tr c' = rank (Node.seenOn f) ntr c := by
  obtain ⟨w, hshown⟩ := shownAt_sends h
  obtain ⟨e, fw, d, hp, hd, hf⟩ := h
  obtain ⟨q, ⟨⟨ne, o⟩, hq, hseen⟩, hrank⟩ := hshown.transfer hsame.symm
  have hfw : o = some fw := by
    obtain ⟨x, hx, hw⟩ := hshown
    obtain rfl := Option.some.inj (hp.symm.trans hx)
    have hsent := (sighting_eq_some hseen).symm.trans (sighting_eq_some hw)
    exact (Prod.mk.inj hsent).2.trans (Output.sentBy_eq_some.mpr rfl)
  subst hfw
  refine ⟨q, ⟨ne, fw, d, hq, hd, hf⟩, hrank, ?_⟩
  intro c hc
  obtain ⟨i, o, hcame⟩ := shownAt_answers hc
  obtain ⟨hle, _, i', _, _, fw', d', hc, hq', hd', _, hname, _⟩ := hc
  obtain ⟨_, hfw⟩ := Prod.mk.inj (Option.some.inj (hq.symm.trans hq'))
  obtain rfl := Option.some.inj hfw
  obtain rfl := Wire.data.inj (hd.symm.trans hd')
  obtain ⟨c', hshown', hrank'⟩ := hcame.transfer hsame
  have hbefore : c' ≤ p := by
    refine hshown.le_of_rank ?_
    rw [hrank', ← hrank]
    exact rank_mono hle
  have hi : i = i' := by
    obtain ⟨x, hx, hw⟩ := hcame
    obtain rfl := Option.some.inj (hc.symm.trans hx)
    have hwire := (Prod.mk.inj (sighting_eq_some hw)).1
    rw [NodeEvent.onFace, if_pos rfl] at hwire
    exact Wire.interest.inj (Option.some.inj hwire)
  subst hi
  obtain ⟨⟨e', out⟩, hc', hseen'⟩ := hshown'
  obtain ⟨hclient, _⟩ := Prod.mk.inj (sighting_eq_some hseen')
  obtain ⟨clk, raw, rfl⟩ := fromClient_eq_some hclient.symm
  exact ⟨c', ⟨hbefore, clk, raw, i, out, e, fw, d, hc', hp, hd, hf, hname⟩, hrank'⟩

/-- **Applications get what they asked for.** In every run of a network, the
Data that a node sends to a client is matched, without repetition, to Interests
that this client has sent before and that the Data answers, wherever it came
from and whatever was lost or repeated on the way. -/
theorem application_balance {c : Config} {em₀ : Emulator} (hc : readNetworkConfig c = .ok em₀)
    (hid : (em₀.nodeTable.find id).isSome) (hrun : (system mode lib).Run em₀.start tr em)
    (hf : em.NoLinkFace id f) :
    ∃ call : Nat → Nat, (∀ p, SendsDataTo id f tr p → AskedAt id f tr p (call p)) ∧
      ∀ p p', SendsDataTo id f tr p → SendsDataTo id f tr p' → call p = call p' → p = p' := by
  obtain ⟨m, hm⟩ := Option.isSome_iff_exists.mp hid
  have hn : em₀.start.nodeTable.find id = some m.start :=
    FinMap.find_filterMap_eq_some.mpr ⟨m, hm, rfl⟩
  obtain ⟨ntr, n', hnode, hview⟩ := runs_as_node hc hn hrun
  have hpit : m.start.pit = Pit.empty := ((blank_config hc).nodes id m hm).1
  obtain ⟨call, hcall, hinj⟩ := (Node.books_run hpit hnode).matching
  have hpoint : ∀ p, SendsDataTo id f tr p → ∃ c', AskedAt id f tr p c' ∧ ∃ q,
      Node.SendsData ntr (q, f) ∧ rank (Node.seenOn f) ntr q = rank (seenOn id f) tr p ∧
      rank (seenOn id f) tr c' = rank (Node.seenOn f) ntr (call (q, f)) := by
    intro p hp
    obtain ⟨q, hq, hrank, hasked⟩ := askedAt_of_answers (hview.seen f hf) hp
    obtain ⟨c', hc', hrank'⟩ := hasked _ (hcall _ hq)
    exact ⟨c', hc', q, hq, hrank, hrank'⟩
  choose! call' hask q hq hrank hrank' using hpoint
  refine ⟨call', hask, ?_⟩
  intro p p' hp hp' heq
  have hcalls : call (q p, f) = call (q p', f) := by
    obtain ⟨_, _, hshown⟩ := shownAt_answers (hcall _ (hq p hp))
    obtain ⟨_, _, hshown'⟩ := shownAt_answers (hcall _ (hq p' hp'))
    refine hshown.eq_of_rank hshown' ?_
    rw [← hrank' p hp, ← hrank' p' hp', heq]
  have hpairs := hinj _ _ (hq p hp) (hq p' hp') hcalls
  have hsame : q p = q p' := congrArg Prod.fst hpairs
  obtain ⟨_, hshown⟩ := shownAt_sends hp
  obtain ⟨_, hshown'⟩ := shownAt_sends hp'
  refine hshown.eq_of_rank hshown' ?_
  rw [← hrank p hp, ← hrank p' hp', hsame]

/-- One client of a node asks, and another one answers. -/
def answeredRun : List (Event × Output) :=
  [(.accept "n0", .quiet), (.accept "n0", .quiet),
   (.appReceive "n0" 2 (Clock.still 0) (fun _ => 0) (.packet (.interest ⟨[[1]], 7, 4000, false, 40⟩)),
    .forward "n0" (.interest ⟨[[1]], 7, 4000, false, 40⟩ [1])),
   (.appReceive "n0" 3 (Clock.still 5) (fun _ => 0) (.packet (.data ⟨[[1], [2]], -1, [], 60⟩)),
    .forward "n0" (.data ⟨[[1], [2]], -1, [], 60⟩ [2]))]

theorem application_balance_answered : ∃ em em', readNetworkConfig pairConfig = .ok em ∧
    (system .late Node.noCommands).Run em.start answeredRun em' ∧ em'.NoLinkFace "n0" 2 ∧
    ∃ call : Nat → Nat,
      (∀ p, SendsDataTo "n0" 2 answeredRun p → AskedAt "n0" 2 answeredRun p (call p)) ∧
      ∀ p p', SendsDataTo "n0" 2 answeredRun p → SendsDataTo "n0" 2 answeredRun p' →
        call p = call p' → p = p' := by
  obtain ⟨em, hc, hid, em', hrun, happ⟩ : ∃ em, readNetworkConfig pairConfig = .ok em ∧
      (em.nodeTable.find "n0").isSome ∧ ∃ em',
      (system .late Node.noCommands).Run em.start answeredRun em' ∧
      (em'.nodeTable.find "n0").bind (·.faceTable.find 2) = some .app :=
    ⟨_, rfl, rfl, _, System.run_of_exec (show (system .late Node.noCommands).exec _
      (answeredRun.map (·.1)) = some (answeredRun, _) from rfl), rfl⟩
  have hno : em'.NoLinkFace "n0" 2 := by
    intro mac ref hat
    obtain ⟨n, hn, hg⟩ := hat
    rw [hn, Option.bind_some] at happ
    cases happ.symm.trans hg
  exact ⟨em, em', hc, hrun, hno, application_balance hc hid hrun hno⟩

end Balance

end Emulator

end NdnEm
