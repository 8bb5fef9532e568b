import NdnEm.Proofs.Paths

/-!
# Every path answers

What the emulator is for: an application asks, the Interest goes from node to
node along the routes, and the Data comes back the way the Interest went.

Nothing is configured for the way back. A node that hears the Interest has a
face to the device it came from, found or made on reception, and the record of
the Interest names that face; so the induction is on the path, and what is left
of it answers on the face that the Interest came in on.
-/

namespace NdnEm

open Lib

namespace Emulator

variable {mode : Rearm} {lib : NdnCxx} {wall : Int → Int} {draws : Draws} {P : Event → Prop}
  {em em' em₁ em₂ : Emulator} {c : Config} {i : Interest} {dat : Data} {t t' : Int} {a : String}
  {f : Int} {hs : List Posted} {e : Event} {ne : NodeEvent} {n n' : Node} {src : Source}

/-! ## What is brought to a node, and what it sends -/

/-- The event has the node handle something, and leaves those handlers posted. -/
structure Brings (mode : Rearm) (lib : NdnCxx) (wall : Int → Int) (draws : Draws)
    (P : Event → Prop) (em : Emulator) (e : Event) (a : String) (ne : NodeEvent)
    (hs : List Posted) : Prop where
  enabled : (works mode lib wall draws P).Enabled em e
  step : em.step mode lib e =
    ({ em with posted := hs } : Emulator).onNode mode lib a (fun _ => 0) ne

theorem brings_dispatch {w : Wire} (h : em.posted = hs ++ [.dispatch a f w]) :
    Brings mode lib wall draws P em
      (.run hs.length (Clock.still (wall em.now)) (fun _ => 0) fun _ => false) a
      (arrival (Clock.still (wall em.now)) f w) hs := by
  have hdrawn : em.Drawn draws
      (.run hs.length (Clock.still (wall em.now)) (fun _ => 0) fun _ => false) := by
    intro link b p hget
    cases (get_last h).symm.trans hget
  refine ⟨works_run (lt_last h) hdrawn, ?_⟩
  simp only [step, get_last h, erase_last h, runPosted]
  cases w <;> rfl

theorem brings_client {w : Wire} (h : em.Connected a f)
    (hP : P (.appReceive a f (Clock.still (wall em.now)) (fun _ => 0) (.packet w))) :
    Brings mode lib wall draws P em
      (.appReceive a f (Clock.still (wall em.now)) (fun _ => 0) (.packet w)) a
      (arrival (Clock.still (wall em.now)) f w) em.posted := by
  refine ⟨⟨h, .inr hP, ?_, trivial⟩, ?_⟩
  · intro clk hclk
    exact (Option.some.inj hclk).symm
  · cases w <;> rfl

/-- What the node passes to `Send` is sent. -/
theorem Brings.forwards {fw : Forward} (h : Brings mode lib wall draws P em e a ne hs)
    (hn : em.nodeTable.find a = some n) (hstep : n.step lib ne = .ok (n', some fw))
    (hsteady : em.Steady c) :
    ∃ em₂, (({ em with posted := hs } : Emulator).setNode a n').forward mode n'.faceTable
        (fun _ => 0) fw.wire fw.faces = .ok em₂ ∧
      (works mode lib wall draws P).Run em [(e, .forward a fw)] em₂ := by
  have hpresent : ∀ g mac ref, n'.faceTable.find g = some (.link mac ref) →
      ((({ em with posted := hs } : Emulator).setNode a n').newPacket fw.wire).1.Present ref := by
    intro g mac ref hg
    rw [Weights.faceTable_of_sent hstep] at hg
    have hhere : em.Present ref := present_of_face hsteady.wired hsteady.laid.housed hn hg
    exact hhere
  obtain ⟨em₂, hsent⟩ : ∃ em₂, (({ em with posted := hs } : Emulator).setNode a n').forward mode
      n'.faceTable (fun _ => 0) fw.wire fw.faces = .ok em₂ := sendTo_total hpresent
  refine ⟨em₂, hsent, .single h.enabled ?_⟩
  show em.step mode lib e = _
  rw [h.step]
  unfold onNode
  simp only [hn, hstep, hsent]

/-- At that time the node has just passed the Data to `Send` on that face; so
far only the visited nodes have changed. -/
structure Answered (mode : Rearm) (em : Emulator) (visited : List String) (hs : List Posted)
    (a : String) (f : Int) (dat : Data) (t' : Int) (em' em₂ : Emulator) (n : Node) : Prop where
  spares : em.Spares visited em'
  posted : em'.posted = hs
  now : em'.now = t'
  node : em'.nodeTable.find a = some n
  sent : em'.forward mode n.faceTable (fun _ => 0) (.data dat) [f] = .ok em₂

theorem Brings.answers {fw : Forward} (h : Brings mode lib wall draws P em e a ne hs)
    (hn : em.nodeTable.find a = some n) (hstep : n.step lib ne = .ok (n', some fw))
    (hkeep : n.Retains n') (hwire : fw.wire = .data dat) (hfaces : fw.faces = [f])
    (hsteady : em.Steady c) :
    ∃ em' em₂, (works mode lib wall draws P).Run em [(e, .forward a fw)] em₂ ∧
      Answered mode em [a] hs a f dat em.now em' em₂ n' := by
  obtain ⟨em₂, hsent, hrun⟩ := h.forwards hn hstep hsteady
  rw [hwire, hfaces] at hsent
  exact ⟨_, em₂, hrun, .setNode hn hkeep hs, rfl, rfl, FinMap.find_insert_self _ _ _, hsent⟩

/-- Sending to faces that are no link faces does nothing here. -/
theorem sendTo_append_apps {faceTable : FinMap Int Face} {raw : Int → Nat} {pkt : Packet}
    {gs faces : List Int} (h : ∀ k ∈ gs, ∀ mac ref, faceTable.find k ≠ some (.link mac ref)) :
    sendTo mode faceTable raw pkt em (gs ++ faces) = sendTo mode faceTable raw pkt em faces := by
  induction gs with
  | nil => rfl
  | cons k gs ih =>
      have hrest := ih fun j hj => h j (List.mem_cons_of_mem k hj)
      rw [List.cons_append, sendTo]
      cases hface : faceTable.find k with
      | none => exact hrest
      | some face =>
          cases face with
          | app => exact hrest
          | link mac ref => exact absurd hface (h k List.mem_cons_self mac ref)

/-- With one link face among them, a packet is sent as on that face alone. -/
theorem sendTo_only {faceTable : FinMap Int Face} {raw : Int → Nat} {pkt : Packet} {g : Int}
    {faces : List Int} (hg : g ∈ faces) (hnodup : faces.Nodup)
    (honly : ∀ k ∈ faces, ∀ mac ref, faceTable.find k = some (.link mac ref) → k = g) :
    sendTo mode faceTable raw pkt em faces = sendTo mode faceTable raw pkt em [g] := by
  obtain ⟨gs, gs', rfl⟩ := List.append_of_mem hg
  have hne : ∀ k, k ∈ gs ∨ k ∈ gs' → k ≠ g := by
    rw [List.nodup_middle, List.nodup_cons, List.mem_append] at hnodup
    intro k hk hkg
    exact hnodup.1 (hkg ▸ hk)
  rw [sendTo_append_apps fun k hk mac ref hface =>
    hne k (.inl hk) (honly k (List.mem_append_left _ hk) mac ref hface)]
  rw [sendTo, sendTo]
  have hrest : ∀ em, sendTo mode faceTable raw pkt em gs' = .ok em := by
    intro em
    rw [← List.append_nil gs', sendTo_append_apps fun k hk mac ref hface => hne k (.inr hk)
      (honly k (List.mem_append_right _ (List.mem_cons_of_mem g hk)) mac ref hface)]
    rfl
  simp only [hrest, sendTo]

/-! ## Along the path and back -/

/-- The first thing that happens is that event, and the last has that output. -/
def Spans (e : Event) (o : Output) (tr : List (Event × Output)) : Prop :=
  (∃ o' rest, tr = (e, o') :: rest) ∧ ∃ init x, tr = init ++ [(x, o)]

theorem forward_app {faceTable : FinMap Int Face} {w : Wire} {g : Int}
    (hg : faceTable.find g = some .app) :
    em.forward mode faceTable (fun _ => 0) w [g] = .ok (em.newPacket w).1 := by
  unfold forward
  simp only [sendTo, hg, send]

theorem steady_run {tr : List (Event × Output)} (h : em.Steady c)
    (hrun : (system mode lib).Run em tr em') : em'.Steady c :=
  hrun.invariant (fun _ _ _ _ hs he hstep => steady_step hs he hstep) h

theorem guarded_run {tr : List (Event × Output)} (h : em.Above Node.Guarded)
    (hrun : (system mode lib).Run em tr em') : em'.Above Node.Guarded :=
  hrun.invariant (fun _ _ _ _ hs he hstep => step_preserves (fun _ _ => above_move) hs he hstep) h

/-- What holds of every network that was started. -/
structure Underway (c : Config) (em : Emulator) : Prop where
  steady : em.Steady c
  guarded : em.Above Node.Guarded

theorem Underway.works {tr : List (Event × Output)} (h : em.Underway c)
    (hrun : (works mode lib wall draws P).Run em tr em') : em'.Underway c :=
  ⟨steady_run h.steady hrun.of_restrict, guarded_run h.guarded hrun.of_restrict⟩

/-- A node that has the Data answers with it. -/
theorem serve_cached {origin : Origin} (hsound : em.Underway c)
    (hn : em.nodeTable.find a = some n)
    (hdat : n.cacheManager.findMatchingData t i = some dat) (hface : origin.At n f)
    (hbrings : Brings mode lib wall draws P em e a (.interest (Clock.still t) f i) hs) :
    ∃ fw em' em₂, (works mode lib wall draws P).Run em [(e, .forward a fw)] em₂ ∧
      fw.wire = .data dat ∧ fw.faces = [f] ∧ Answered mode em [a] hs a f dat em.now em' em₂ n := by
  have hstep : n.step lib (.interest (Clock.still t) f i) =
      .ok (n, some (.cached dat (n.forwardToFace f))) := by
    show n.handleInterest lib (Clock.still t) f i = _
    simp only [Node.handleInterest, show (Clock.still t).find = t from rfl, hdat]
  have hfaces : (Forward.cached dat (n.forwardToFace f)).faces = [f] := if_pos hface.mem
  obtain ⟨em', em₂, hrun, hans⟩ :=
    hbrings.answers hn hstep (.refl n) rfl hfaces hsound.steady
  exact ⟨_, em', em₂, hrun, rfl, hfaces, hans⟩

/-- Data that a node awaits goes out on the face that the Interest came in on. -/
theorem serve_data {f' expire : Int} (hsound : em.Underway c) (hn : em.nodeTable.find a = some n)
    (hawaits : n.Awaits i dat f expire) (hname : i.name <+: dat.name) (hlife : t < expire)
    (hf : f ∈ n.faceTable.keys)
    (hbrings : Brings mode lib wall draws P em e a (.data (Clock.still t) f' dat) hs) :
    ∃ fw em' em₂ n', (works mode lib wall draws P).Run em [(e, .forward a fw)] em₂ ∧
      fw.wire = .data dat ∧ fw.faces = [f] ∧ Answered mode em [a] hs a f dat em.now em' em₂ n' := by
  obtain ⟨n', hdata, htab, hfib⟩ :=
    hawaits.handleData hname hlife hf (hsound.steady.sturdy a n hn) f'
  have hkeep : n.Retains n' := ⟨hfib, fun g face hg => htab ▸ hg⟩
  obtain ⟨em', em₂, hrun, hans⟩ := hbrings.answers hn hdata hkeep rfl rfl hsound.steady
  exact ⟨_, em', em₂, n', hrun, rfl, rfl, hans⟩

/-- A new Interest is recorded, and forwarded on the routes. -/
theorem serve_interest {g : Int} (hsound : em.Underway c) (hn : em.nodeTable.find a = some n)
    (honward : n.Onward i dat t g) (hname : i.name <+: dat.name) (hne : g ≠ f)
    (hbrings : Brings mode lib wall draws P em e a (.interest (Clock.still t) f i) hs) :
    ∃ n₁ em₁ em₂, (works mode lib wall draws P).Run em
        [(e, .forward a (.interest i (n₁.forwardToFaces ((n.fib.lookUp i.name ∅).erase f))))] em₂ ∧
      n.Retains n₁ ∧ n₁.faceTable = n.faceTable ∧
      n₁.Awaits i dat f (t + i.interestLifetime) ∧
      em₁ = ({ em with posted := hs } : Emulator).setNode a n₁ ∧
      em₁.forward mode n₁.faceTable (fun _ => 0) (.interest i)
        (n₁.forwardToFaces ((n.fib.lookUp i.name ∅).erase f)) = .ok em₂ := by
  have h0 : 0 ∉ n.fib.lookUp i.name ∅ := by
    intro hmem
    have := (hsound.guarded.nodes a n hn).table 0 (honward.faces hmem)
    omega
  have hstep :=
    @Node.Fresh.handleInterest lib n f g i dat t honward.fresh hname honward.route hne h0
  obtain ⟨em₂, hsent, hrun⟩ := hbrings.forwards hn hstep hsound.steady
  exact ⟨n.withPit (n.pit.addInterest t f i).2, _, em₂, hrun, ⟨rfl, fun _ _ h => h⟩, rfl,
    honward.fresh.awaits hname, rfl, hsent⟩

/-- A path ends with a client that gets the Interest and answers it. Its node
sends the Interest on to whom it may concern, and its devices are done with
that before the client is. -/
theorem serve_producer {g : Int} {origin : Origin} (hsound : em.Underway c) (hnow : em.now = t)
    (hP : ∀ e, (Source.client a g).Puts dat e → P e) (hn : em.nodeTable.find a = some n)
    (honward : n.Onward i dat (wall t) g) (hname : i.name <+: dat.name)
    (hg : n.faceTable.find g = some .app) (horigin : origin ≠ .client g) (hface : origin.At n f)
    (hlost : ∀ k ∈ n.fib.lookUp i.name ∅, ∀ mac ref, n.faceTable.find k = some (.link mac ref) →
      em.Unheard draws ref)
    (hwait : t + ((n.fib.lookUp i.name ∅).sum (em.faceAirtime n.faceTable i.size) : Nat) ≤ t')
    (hlife : wall t' < wall t + i.interestLifetime)
    (hbrings : Brings mode lib wall draws P em e a (.interest (Clock.still (wall t)) f i) hs) :
    ∃ tr fw em' em₂ n', (works mode lib wall draws P).Run em tr em₂ ∧ Spans e (.forward a fw) tr ∧
      fw.wire = .data dat ∧ fw.faces = [f] ∧ Answered mode em [a] hs a f dat t' em' em₂ n' := by
  have hne : g ≠ f := by
    intro heq
    subst heq
    have happ : origin.face = .app := Option.some.inj (hface.find.symm.trans hg)
    cases origin with
    | client f' => exact horigin (hface.client f' rfl ▸ rfl)
    | link mac ref => cases happ
  obtain ⟨n₁, em₁, em₂, hrun, hkeep, htab, hawaits, rfl, hsent⟩ :=
    serve_interest hsound hn honward hname hne hbrings
  have hsound₂ := hsound.works hrun
  -- the devices of the node send what they were given
  obtain ⟨tr, em₃, hrun₃, hspare₃, hposted₃, hnodes₃, hnow₃⟩ :=
    @run_unheard mode lib wall draws P _ _ _ _ _ hsent hsound₂.steady.wired (by
      intro k hk mac ref hg
      rw [htab] at hg
      exact hlost k (Finset.mem_of_mem_erase (Node.mem_forwardToFaces.mp hk).1) mac ref hg)
  have hcost : (((n₁.forwardToFaces ((n.fib.lookUp i.name ∅).erase f)).map
      (em.faceAirtime n.faceTable i.size)).sum) ≤
        (n.fib.lookUp i.name ∅).sum (em.faceAirtime n.faceTable i.size) := by
    rw [← List.sum_toFinset _ (Node.forwardToFaces_nodup _)]
    refine Finset.sum_le_sum_of_subset fun k hk => ?_
    exact Finset.mem_of_mem_erase (Node.mem_forwardToFaces.mp (List.mem_toFinset.mp hk)).1
  have hle : em₃.now ≤ t' := by
    rw [htab] at hnow₃
    have hbound : em₃.now ≤ em.now + (((n₁.forwardToFaces ((n.fib.lookUp i.name ∅).erase f)).map
      (em.faceAirtime n.faceTable i.size)).sum : Nat) := hnow₃
    omega
  -- the client takes its time, and answers
  have hrun₄ := @run_tick mode lib wall draws P em₃ (t' - em₃.now).toNat
  have hnow₄ : (em₃.later (t' - em₃.now).toNat).now = t' := by
    show em₃.now + ((t' - em₃.now).toNat : Int) = t'
    omega
  have hn₄ : (em₃.later (t' - em₃.now).toNat).nodeTable.find a = some n₁ := by
    show em₃.nodeTable.find a = some n₁
    rw [hnodes₃]
    exact FinMap.find_insert_self _ _ _
  have hspare₄ : em.Spares [a] (em₃.later (t' - em₃.now).toNat) := by
    have h := (Spares.setNode hn hkeep hs).trans (hspare₃.mono (by simp))
    exact ⟨h.links, h.nodes, h.devices, h.absent⟩
  have hsound₄ := (hsound₂.works hrun₃).works hrun₄
  have hdata := @brings_client mode lib wall draws P (em₃.later (t' - em₃.now).toNat) a g
    (.data dat) ⟨n₁, hn₄, hkeep.faces g _ hg⟩ (hP _ ⟨_, _, rfl⟩)
  rw [hnow₄] at hdata
  obtain ⟨fw, em', em₅, n', hrun₅, hwire, hfaces, hans⟩ := serve_data hsound₄ hn₄ hawaits hname
    hlife (hface.retains hkeep).mem hdata
  exact ⟨_, fw, em', em₅, n', ((hrun.append hrun₃).append hrun₄).append hrun₅,
    ⟨⟨_, _, rfl⟩, _, _, rfl⟩, hwire, hfaces, hspare₄.trans hans.spares, hans.posted.trans hposted₃,
    hans.now.trans hnow₄, hans.node, hans.sent⟩

section Hop

variable {mac : MacAddr} {ref refb : DeviceRef} {d db : LinkDevice} {l : Link}

/-- The Interest goes out to the next node, which has a face that leads back. -/
theorem hop_out {g : Int} (hsound : em.Underway c) (hn : em.nodeTable.find ref.node = some n)
    (honward : n.Onward i dat t g) (hname : i.name <+: dat.name)
    (hg : n.faceTable.find g = some (.link mac ref))
    (honly : ∀ k ∈ n.fib.lookUp i.name ∅, ∀ mac' ref',
      n.faceTable.find k = some (.link mac' ref') → k = g)
    (hne : g ≠ f) (hjoins : em.Joins draws mac ref refb d db l) (hfits : i.size ≤ l.mtu)
    (hnode : refb.node ≠ ref.node)
    (hbrings : Brings mode lib wall draws P em e ref.node (.interest (Clock.still t) f i) hs) :
    ∃ o rest em₃ n₃ nb face, (works mode lib wall draws P).Run em ((e, o) :: rest) em₃ ∧
      em₃.posted = hs ++ [.dispatch refb.node face (.interest i)] ∧ em.Spares [ref.node] em₃ ∧
      em₃.now = em.now + l.airtime i.size ∧ em₃.nodeTable.find refb.node = some nb ∧
      nb.faceTable.find face = some (.link d.macAddr refb) ∧
      em₃.nodeTable.find ref.node = some n₃ ∧ n.Retains n₃ ∧
      n₃.Awaits i dat f (t + i.interestLifetime) := by
  obtain ⟨n₁, em₁, em₂, hrun, hkeep, htab, hawaits, rfl, hsent⟩ :=
    serve_interest hsound hn honward hname hne hbrings
  -- of all the faces, the one link face
  have hone : (({ em with posted := hs } : Emulator).setNode ref.node n₁).forward mode n₁.faceTable
      (fun _ => 0) (.interest i) [g] = .ok em₂ := by
    rw [← hsent]
    refine (sendTo_only ?_ (Node.forwardToFaces_nodup _) ?_).symm
    · rw [Node.mem_forwardToFaces, Finset.mem_erase, htab]
      exact ⟨⟨hne, honward.route⟩, FinMap.mem_keys_of_find hg⟩
    · intro k hk mac' ref' hface
      rw [htab] at hface
      exact honly k (Finset.mem_of_mem_erase (Node.mem_forwardToFaces.mp hk).1) mac' ref' hface
  obtain ⟨nb, hnb⟩ := Option.isSome_iff_exists.mp (hsound.steady.wired.node refb db hjoins.there)
  have hnb₁ : (({ em with posted := hs } : Emulator).setNode ref.node n₁).nodeTable.find refb.node =
      some nb := (FinMap.find_insert_ne hnode).trans hnb
  have hdevne : refb ≠ ref := fun heq => hnode (heq ▸ rfl)
  obtain ⟨tr, em₃, face, hrun', hcarried⟩ :=
    @carry mode lib wall draws P _ ref d l _ _ _ _ refb db em₂ nb
      (hsound.works hrun).steady.grounded hone (hkeep.faces g _ hg) hjoins.here hjoins.link
      hjoins.rests hjoins.room hfits hjoins.lost hjoins.out hjoins.enteredb hdevne hjoins.there
      hjoins.same hjoins.restsb hjoins.addressed hnb₁
  have hspare : (({ em with posted := hs } : Emulator).setNode ref.node n₁).Spares [] em₃ :=
    hcarried.spares hjoins.here hjoins.there hnb₁ (hsound.steady.grounded.counted _ nb hnb)
  obtain ⟨n₃, hn₃, hkeep₃, hsame₃⟩ := hspare.nodes ref.node n₁ (FinMap.find_insert_self _ _ _)
  obtain ⟨nb₃, hnb₃, hface₃⟩ := hcarried.back
  exact ⟨_, tr, em₃, n₃, nb₃, face, hrun.append hrun', hcarried.posted,
    (Spares.setNode hn hkeep hs).trans (hspare.mono (by simp)), hcarried.now, hnb₃, hface₃, hn₃,
    hkeep.trans hkeep₃, hawaits.of_same (hsame₃ List.not_mem_nil).1⟩

/-- The Data comes back to the node before. -/
theorem hop_back {nb n₀ : Node} {face : Int} (hsound : em₂.Underway c) (hposted : em.posted = hs)
    (hn₀ : em.nodeTable.find ref.node = some n₀)
    (hsent : em.forward mode nb.faceTable (fun _ => 0) (.data dat) [face] = .ok em₂)
    (hface : nb.faceTable.find face = some (.link d.macAddr refb))
    (hjoins : em.Joins draws mac ref refb d db l) (hfits : dat.size ≤ l.mtu)
    (hnode : refb.node ≠ ref.node) :
    ∃ tr em₃ face', (works mode lib wall draws P).Run em₂ tr em₃ ∧
      em₃.posted = hs ++ [.dispatch ref.node face' (.data dat)] ∧
      em₃.now = em.now + l.airtime dat.size ∧ em.Spares [] em₃ := by
  have hnodes : em₂.nodeTable = em.nodeTable := (sendTo_onlyDevices hsent).nodes
  have hdevne : ref ≠ refb := fun heq => hnode (heq ▸ rfl)
  obtain ⟨tr, em₃, face', hrun, hcarried⟩ :=
    @carry mode lib wall draws P em refb db l _ face _ _ ref d em₂ n₀ hsound.steady.grounded hsent
      hface hjoins.there (hjoins.same ▸ hjoins.link) hjoins.restsb hjoins.roomb hfits hjoins.lostb
      hjoins.back hjoins.entered hdevne hjoins.here hjoins.same.symm hjoins.rests (.inl rfl) hn₀
  have hcount : n₀.Counted := hsound.steady.grounded.counted ref.node n₀ (hnodes ▸ hn₀)
  refine ⟨tr, em₃, face', hrun, ?_, hcarried.now,
    hcarried.spares hjoins.there hjoins.here hn₀ hcount⟩
  rw [hcarried.posted, hposted]

end Hop

/-- An Interest that is brought to the first node of a path is answered on the
face it came in on, and all but the path is spared. The induction is on the
nodes of the path: the rest of it answers on the face that leads back. -/
theorem serve (hname : i.name <+: dat.name) (hP : ∀ e, src.Puts dat e → P e)
    (path : List String) :
    ∀ {em : Emulator} {e : Event} {a : String} {origin : Origin} {f : Int} {n : Node} {t t' : Int},
      em.Underway c → em.Path i dat wall draws src a origin t t' path → em.now = t →
      em.nodeTable.find a = some n → origin.At n f →
      Brings mode lib wall draws P em e a (.interest (Clock.still (wall t)) f i) hs →
      ∃ tr fw em' em₂ n', (works mode lib wall draws P).Run em tr em₂ ∧ Spans e (.forward a fw) tr ∧
        fw.wire = .data dat ∧ fw.faces = [f] ∧ Answered mode em path hs a f dat t' em' em₂ n' := by
  induction path with
  | nil =>
      intro em e a origin f n t t' _ hpath
      cases hpath
  | cons x rest ih =>
      intro em e a origin f n t t' hsound hpath hnow hn hface hbrings
      cases hpath with
      | cached hsrc hn' hdat =>
          obtain rfl := Option.some.inj (hn'.symm.trans hn)
          obtain ⟨fw, em', em₂, hrun, hwire, hfaces, hans⟩ :=
            serve_cached hsound hn hdat hface hbrings
          rw [hnow] at hans
          exact ⟨_, fw, em', em₂, _, hrun, ⟨⟨_, _, rfl⟩, [], _, rfl⟩, hwire, hfaces, hans⟩
      | producer hsrc hn' honward hg horigin hlost hwait hlife =>
          obtain rfl := Option.some.inj (hn'.symm.trans hn)
          exact serve_producer hsound hnow (hsrc ▸ hP) hn honward hname hg horigin hface hlost hwait
            hlife hbrings
      | @hop _ g mac ref refb d db l _ _ t₁ _ hn' honward hg horigin honly hjoins hfits hnew hrest
          hlife =>
          obtain rfl := Option.some.inj (hn'.symm.trans hn)
          have hne : g ≠ f := by
            intro heq
            subst heq
            have hlink : origin.face = .link mac ref := Option.some.inj (hface.find.symm.trans hg)
            cases origin with
            | client f' => cases hlink
            | link mac' ref' =>
                obtain ⟨rfl, rfl⟩ := Face.link.inj hlink
                exact horigin rfl
          have hnode : refb.node ≠ ref.node := by
            intro heq
            exact hnew (heq ▸ hrest.mem)
          obtain ⟨o, out, em₃, n₃, nb, face, hrun, hposted, hspare, hnow₃, hnb, hface₃, hn₃, hkeep,
            hawaits⟩ :=
              hop_out hsound hn honward hname hg honly hne hjoins hfits.1 hnode hbrings
          rw [hnow] at hnow₃
          -- the rest of the path answers the next node's face
          have hrest₃ := hrest.spared hspare fun y hy hmem =>
            hnew (List.mem_singleton.mp hmem ▸ hy)
          have hbrings₃ := @brings_dispatch mode lib wall draws P _ _ _ _ _ hposted
          rw [hnow₃] at hbrings₃
          have hback : (Origin.link d.macAddr refb).At nb face := ⟨hface₃, by simp⟩
          obtain ⟨back, fw, em₄, em₅, nb₄, hrun₄, _, _, _, hans⟩ :=
            ih (hsound.works hrun) hrest₃ hnow₃ hnb hback hbrings₃
          obtain ⟨nb', hnb', hkeepb, _⟩ := hans.spares.nodes _ nb hnb
          obtain rfl := Option.some.inj (hnb'.symm.trans hans.node)
          -- the Data comes back
          have hspare₄ : em.Spares (ref.node :: rest) em₄ :=
            (hspare.mono (by simp)).trans (hans.spares.mono fun y hy => List.mem_cons_of_mem _ hy)
          obtain ⟨d₄, db₄, halike, _, hjoins₄⟩ := hjoins.spared hspare₄
          obtain ⟨n₄, hn₄, hkeep₄, hsame₄⟩ := hans.spares.nodes _ n₃ hn₃
          have hsound₅ := (hsound.works hrun).works hrun₄
          obtain ⟨tr₆, em₆, face', hrun₆, hposted₆, hnow₆, hspare₆⟩ :=
            @hop_back mode lib wall draws P em₄ em₅ c dat hs mac ref refb d₄ db₄ l nb' n₄ face
              hsound₅ hans.posted hn₄ hans.sent (halike.macAddr ▸ hkeepb.faces face _ hface₃)
              hjoins₄ hfits.2 hnode
          rw [hans.now] at hnow₆
          obtain ⟨n₆, hn₆, hkeep₆, hsame₆⟩ := hspare₆.nodes _ n₄ hn₄
          have hawaits₆ := (hawaits.of_same (hsame₄ hnew).1).of_same (hsame₆ List.not_mem_nil).1
          have hbrings₆ := @brings_dispatch mode lib wall draws P _ _ _ _ _ hposted₆
          rw [hnow₆] at hbrings₆
          obtain ⟨fw', em', em₇, n', hrun₇, hwire, hfaces, hans'⟩ := serve_data
            (hsound₅.works hrun₆) hn₆ hawaits₆ hname hlife
            (hface.retains ((hkeep.trans hkeep₄).trans hkeep₆)).mem hbrings₆
          exact ⟨_, fw', em', em₇, n', ((hrun.append hrun₄).append hrun₆).append hrun₇,
            ⟨⟨_, _, rfl⟩, _, _, rfl⟩, hwire, hfaces,
            (hspare₄.trans (hspare₆.mono (by simp))).trans (hans'.spares.mono (by simp)),
            hans'.posted, hans'.now.trans hnow₆, hans'.node, hans'.sent⟩

/-- A client sends the Interest. -/
def ask (wall : Int → Int) (em : Emulator) (a : String) (f : Int) (i : Interest) : Event :=
  .appReceive a f (Clock.still (wall em.now)) (fun _ => 0) (.packet (.interest i))

/-- A client registers `/01` on the first node, and another one connects to the
second. -/
def pathRun : List (Event × Output) := registerRun 2 ++ [(.accept "n1", .quiet)]

def pathInterest : Interest := ⟨[[1]], 7, 4000, false, 40⟩

def pathData : Data := ⟨[[1], [2]], -1, [], 60⟩

/-- The device timers count microseconds, the tables milliseconds. -/
def milliseconds (now : Int) : Int := now / 1000

/-- Every copy may be lost, or not. -/
def anyDraw : Draws := fun _ _ _ _ => True

/-- A node of the two, with an empty table and a client on its second face. -/
structure Clean (n : Node) (routes : Finset Int) (ref : DeviceRef) : Prop where
  pit : n.pit.pit.keys = ∅
  cache : n.cacheManager.findMatchingData 0 pathInterest = none
  routes : n.fib.lookUp [[1]] ∅ = routes
  faces : n.faceTable.keys = {1, 2}
  link : n.faceTable.find 1 = some (.link broadcastMac ref)
  app : n.faceTable.find 2 = some .app

theorem pathRun_ends : ∃ em₀ em, readNetworkConfig pairConfig = .ok em₀ ∧
    (system .late byteCommands).Run em₀.start pathRun em ∧ em.now = 0 ∧
    (∃ n ∈ em.nodeTable.find "n0", Clean n {1, 2} ⟨"n0", "wn0"⟩) ∧
    (∃ n ∈ em.nodeTable.find "n1", Clean n {1} ⟨"n1", "wn1"⟩) ∧
    ∃ d₀ d₁ l, l.airtime 40 = 41 ∧ l.airtime 60 = 61 ∧ l.mtu = 8800 ∧
      em.Joins anyDraw broadcastMac ⟨"n1", "wn1"⟩ ⟨"n0", "wn0"⟩ d₁ d₀ l := by
  refine ⟨_, _, rfl, System.run_of_exec (show (system .late byteCommands).exec _
    (pathRun.map (·.1)) = some (pathRun, _) from rfl), rfl, ⟨_, rfl, ?_⟩, ⟨_, rfl, ?_⟩, ?_⟩
  · exact ⟨by decide, rfl, by decide, by decide, rfl, rfl⟩
  · exact ⟨by decide, rfl, by decide, by decide, rfl, rfl⟩
  · exact ⟨_, _, _, rfl, rfl, rfl, ⟨rfl, rfl, rfl, rfl, by decide, by decide, fun _ _ => trivial,
      fun _ _ => trivial, rfl, rfl, .inr rfl, ⟨rfl, rfl⟩, ⟨rfl, rfl⟩, by decide, by decide⟩⟩

theorem Clean.onward {n : Node} {routes : Finset Int} {ref : DeviceRef} {g : Int}
    (h : Clean n routes ref) (hg : g ∈ routes) (hsub : routes ⊆ {1, 2}) :
    n.Onward pathInterest pathData 0 g := by
  refine ⟨⟨h.cache, ?_⟩, ?_, ?_⟩
  · intro m k _
    have hnone : n.pit.pit.find m = none :=
      FinMap.notMem_keys.mp (by rw [h.pit]; exact Finset.notMem_empty m)
    rw [Pit.record, hnone]
    rfl
  · show g ∈ n.fib.lookUp [[1]] ∅
    rw [h.routes]
    exact hg
  · show n.fib.lookUp [[1]] ∅ ⊆ n.faceTable.keys
    rw [h.routes, h.faces]
    exact hsub

/-- The Interest is on the air for 41 microseconds, and so it is again when the
first node broadcasts it. Its client answers after 100, and the Data is on the
air for 61. -/
theorem pair_path {n₀ n₁ : Node} {d₀ d₁ : LinkDevice} {l : Link}
    (hn₀ : em.nodeTable.find "n0" = some n₀) (h₀ : Clean n₀ {1, 2} ⟨"n0", "wn0"⟩)
    (hn₁ : em.nodeTable.find "n1" = some n₁) (h₁ : Clean n₁ {1} ⟨"n1", "wn1"⟩)
    (hjoins : em.Joins anyDraw broadcastMac ⟨"n1", "wn1"⟩ ⟨"n0", "wn0"⟩ d₁ d₀ l)
    (hair : l.airtime 40 = 41) (hair' : l.airtime 60 = 61) (hmtu : l.mtu = 8800) :
    em.Path pathInterest pathData milliseconds anyDraw (.client "n0" 2) "n1" (.client 2) 0 161
      ["n1", "n0"] := by
  have hproducer : em.Path pathInterest pathData milliseconds anyDraw (.client "n0" 2) "n0"
      (.link d₁.macAddr ⟨"n0", "wn0"⟩) (0 + l.airtime pathInterest.size) 100 ["n0"] := by
    have hcost : (n₀.fib.lookUp pathInterest.name ∅).sum
        (em.faceAirtime n₀.faceTable pathInterest.size) = 41 := by
      show (n₀.fib.lookUp [[1]] ∅).sum (em.faceAirtime n₀.faceTable 40) = 41
      have hat : em.attached ⟨"n0", "wn0"⟩ = .ok (d₀, l) :=
        attached_of_find hjoins.there (hjoins.same ▸ hjoins.link)
      rw [h₀.routes, Finset.sum_pair (by decide), faceAirtime, faceAirtime, h₀.link, h₀.app]
      show em.airtime ⟨"n0", "wn0"⟩ 40 + 0 = 41
      rw [airtime_of_attached hat, hair]
    have hstart : (0 : Int) + l.airtime pathInterest.size = 41 := by
      show (0 : Int) + l.airtime 40 = 41
      rw [hair]
      rfl
    rw [hstart]
    refine .producer rfl hn₀ (h₀.onward (by decide) (by decide)) h₀.app (by simp) ?_ ?_ (by decide)
    · intro _ _ _ _ _ _ _ _ _ _ _
      trivial
    · rw [hcost]
      decide
  have hend : (161 : Int) = 100 + l.airtime pathData.size := by
    show (161 : Int) = 100 + l.airtime 60
    rw [hair']
    rfl
  rw [hend]
  refine .hop hn₁ (h₁.onward (by decide) (by decide)) h₁.link (by simp) ?_ hjoins ?_ (by decide)
    hproducer ?_
  · intro k hk
    have hk' : k ∈ n₁.fib.lookUp [[1]] ∅ := hk
    rw [h₁.routes] at hk'
    intro _ _ _
    exact Finset.mem_singleton.mp hk'
  · rw [hmtu]
    decide
  · rw [← hend]
    decide

end Emulator

end NdnEm
