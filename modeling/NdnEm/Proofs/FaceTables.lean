import NdnEm.Proofs.RibScope

/-!
# Link faces stay

A link face that was made is in the face table of its node for good: ids are
handed out in order, so no new face takes an old one's place, and only the face
of a client is ever removed. What a device or a posted dispatch names as a face
is therefore always there, and is the link face it was made as.
-/

namespace NdnEm

open Lib

namespace Node

variable {lib : NdnCxx} {n n' : Node} {e : NodeEvent} {o : Option Forward}

/-- The ids in use are behind the counter, and the next client's is not in the
table yet. -/
structure Counted (n : Node) : Prop where
  table : ∀ g ∈ n.faceTable.keys, g < n.faceCounter
  client : ∀ g ∈ n.client, g < n.faceCounter ∧ g ∉ n.faceTable.keys

theorem counted_new (id : String) (limit : Int) : (new id limit).Counted :=
  ⟨by simp [new], by simp [new]⟩

theorem Counted.counter_notMem (h : n.Counted) : n.faceCounter ∉ n.faceTable.keys := by
  intro hmem
  have hlt := h.table _ hmem
  omega

theorem Counted.addLinkFace (h : n.Counted) (mac : MacAddr) (dev : DeviceRef) :
    (n.addLinkFace mac dev).1.Counted := by
  refine ⟨?_, ?_⟩
  · intro g hg
    show g < n.faceCounter + 1
    rcases Finset.mem_insert.mp hg with rfl | hg
    · omega
    · have hlt := h.table g hg
      omega
  · intro g hg
    obtain ⟨hlt, hout⟩ := h.client g hg
    refine ⟨?_, ?_⟩
    · show g < n.faceCounter + 1
      omega
    · intro hmem
      rcases Finset.mem_insert.mp hmem with rfl | hmem
      · omega
      · exact hout hmem

theorem Counted.start (h : n.Counted) : n.start.Counted := by
  refine ⟨?_, ?_⟩
  · intro g hg
    have hlt := h.table g hg
    show g < n.faceCounter + 1
    omega
  · intro g hg
    obtain rfl := Option.some.inj hg
    refine ⟨?_, h.counter_notMem⟩
    show n.faceCounter < n.faceCounter + 1
    omega

theorem Counted.handleAccept {face : Int} (h : n.Counted) (hface : n.client = some face) :
    (n.handleAccept face).Counted := by
  obtain ⟨hlt, _⟩ := h.client face hface
  refine ⟨?_, ?_⟩
  · intro g hg
    show g < n.faceCounter + 1
    rcases Finset.mem_insert.mp hg with rfl | hg
    · omega
    · have hlt' := h.table g hg
      omega
  · intro g hg
    obtain rfl := Option.some.inj hg
    refine ⟨?_, ?_⟩
    · show n.faceCounter < n.faceCounter + 1
      omega
    · intro hmem
      rcases Finset.mem_insert.mp hmem with heq | hmem
      · omega
      · exact h.counter_notMem hmem

/-- An event changes the face table in one of four ways. -/
theorem step_faceTable (hs : n.step lib e = .ok (n', o)) :
    (n'.faceTable = n.faceTable ∧ n'.faceCounter = n.faceCounter ∧ n'.client = n.client) ∨
    (∃ f, e = .removeFace f ∧ n'.faceTable = n.faceTable.erase f ∧
      n'.faceCounter = n.faceCounter ∧ n'.client = n.client) ∨
    (∃ mac dev, e = .addLinkFace mac dev ∧ n' = (n.addLinkFace mac dev).1) ∨
    (∃ face, e = .accept ∧ n.client = some face ∧ n' = n.handleAccept face) := by
  cases e with
  | interest clk f i =>
      obtain ⟨htab, hcount, hcl, _⟩ := handleInterest_tables hs
      exact .inl ⟨htab, hcount, hcl⟩
  | data clk f d =>
      obtain ⟨htab, hcount, hcl, _⟩ := handleData_tables (f := f) hs
      exact .inl ⟨htab, hcount, hcl⟩
  | removeFace f =>
      rw [removeFace_cases (step_removeFace hs).1]
      exact .inr (.inl ⟨f, rfl, rfl, rfl, rfl⟩)
  | cleanUp now =>
      obtain ⟨rfl, _⟩ := Prod.mk.inj (Except.ok.inj hs)
      exact .inl ⟨rfl, rfl, rfl⟩
  | addLinkFace mac dev =>
      obtain ⟨rfl, _⟩ := Prod.mk.inj (Except.ok.inj hs)
      exact .inr (.inr (.inl ⟨mac, dev, rfl, rfl⟩))
  | accept =>
      obtain ⟨face, hface, rfl, _⟩ := step_accept hs
      exact .inr (.inr (.inr ⟨face, rfl, hface, rfl⟩))

theorem counted_step (h : n.Counted) (hs : n.step lib e = .ok (n', o)) : n'.Counted := by
  rcases step_faceTable hs with ⟨htab, hcount, hcl⟩ | ⟨f, _, htab, hcount, hcl⟩ |
    ⟨mac, dev, _, rfl⟩ | ⟨face, _, hface, rfl⟩
  · refine ⟨?_, ?_⟩
    · rw [htab, hcount]
      exact h.table
    · rw [htab, hcount, hcl]
      exact h.client
  · refine ⟨?_, ?_⟩
    · intro g hg
      rw [htab] at hg
      rw [hcount]
      exact h.table g (Finset.mem_of_mem_erase hg)
    · intro g hg
      rw [hcl] at hg
      obtain ⟨hlt, hout⟩ := h.client g hg
      rw [htab, hcount]
      exact ⟨hlt, fun hmem => hout (Finset.mem_of_mem_erase hmem)⟩
  · exact h.addLinkFace mac dev
  · exact h.handleAccept hface

/-- No event takes a link face away. -/
theorem linkFace_step {g : Int} {mac : MacAddr} {ref : DeviceRef} (h : n.Counted)
    (hclose : ∀ f, e = .removeFace f → n.faceTable.find f = some .app)
    (hs : n.step lib e = .ok (n', o)) (hg : n.faceTable.find g = some (.link mac ref)) :
    n'.faceTable.find g = some (.link mac ref) := by
  have hmem := FinMap.mem_keys_of_find hg
  rcases step_faceTable hs with ⟨htab, _⟩ | ⟨f, he, htab, _⟩ | ⟨mac', dev, _, rfl⟩ |
    ⟨face, _, hface, rfl⟩
  · rw [htab]
    exact hg
  · have hne : g ≠ f := by
      rintro rfl
      cases hg.symm.trans (hclose g he)
    rw [htab, FinMap.find_erase, if_neg hne]
    exact hg
  · have hlt := h.table g hmem
    exact (FinMap.find_insert_ne (by omega)).trans hg
  · have hne : g ≠ face := by
      rintro rfl
      exact (h.client g hface).2 hmem
    exact (FinMap.find_insert_ne hne).trans hg

end Node

namespace Emulator

variable {mode : Rearm} {lib : NdnCxx} {em em' : Emulator} {id : String} {g : Int}
  {mac : MacAddr} {ref : DeviceRef} {k : Nat}

/-- The node has that link face, with that id. -/
def LinkFaceAt (em : Emulator) (id : String) (g : Int) (mac : MacAddr) (ref : DeviceRef) : Prop :=
  ∃ n, em.nodeTable.find id = some n ∧ n.faceTable.find g = some (.link mac ref)

/-- Ids are handed out in order, and devices and posted dispatches name link
faces of their nodes. -/
structure Grounded (em : Emulator) : Prop where
  counted : ∀ id n, em.nodeTable.find id = some n → n.Counted
  devices : ∀ ref d mac g, em.deviceTable.find ref = some d → d.faces.find mac = some g →
    em.LinkFaceAt ref.node g mac ref
  posted : ∀ id g w, .dispatch id g w ∈ em.posted → ∃ mac ref, em.LinkFaceAt id g mac ref

/-- A node may change as long as it keeps its link faces. -/
theorem LinkFaceAt.setNode {id' : String} {n' : Node} (h : em.LinkFaceAt id g mac ref)
    (hkeep : id = id' → ∀ n, em.nodeTable.find id' = some n →
      n.faceTable.find g = some (.link mac ref) → n'.faceTable.find g = some (.link mac ref)) :
    (em.setNode id' n').LinkFaceAt id g mac ref := by
  obtain ⟨n, hn, hg⟩ := h
  by_cases hid : id = id'
  · subst hid
    exact ⟨n', FinMap.find_insert_self _ _ _, hkeep rfl n hn hg⟩
  · exact ⟨n, (FinMap.find_insert_ne hid).trans hn, hg⟩

theorem linkFaceAt_move (hem : em.Grounded) (hm : Move mode lib k em em')
    (h : em.LinkFaceAt id g mac ref) : em'.LinkFaceAt id g mac ref := by
  obtain ⟨m, hfind, hg⟩ := h
  rcases nodes_move hm with hsame | ⟨id', n, n', e, o, hn, hs, hclose, hnew⟩
  · exact ⟨m, hsame ▸ hfind, hg⟩
  · by_cases hid : id = id'
    · subst hid
      obtain rfl : n = m := Option.some.inj (hn.symm.trans hfind)
      refine ⟨n', ?_, Node.linkFace_step (hem.counted _ _ hn) hclose hs hg⟩
      rw [hnew]
      exact FinMap.find_insert_self _ _ _
    · refine ⟨m, ?_, hg⟩
      rw [hnew]
      exact (FinMap.find_insert_ne hid).trans hfind

theorem counted_setNode {n' : Node} (h : ∀ id n, em.nodeTable.find id = some n → n.Counted)
    (hn : n'.Counted) : ∀ id' n, (em.setNode id n').nodeTable.find id' = some n → n.Counted :=
  FinMap.forall_insert h hn

theorem counted_move (h : ∀ id n, em.nodeTable.find id = some n → n.Counted)
    (hm : Move mode lib k em em') : ∀ id n, em'.nodeTable.find id = some n → n.Counted :=
  forall_nodes_move h (fun _ _ _ _ _ hn hs _ => Node.counted_step (h _ _ hn) hs) hm

theorem grounded_move (h : em.Grounded) (hm : Move mode lib k em em') : em'.Grounded := by
  refine ⟨counted_move h.counted hm, ?_, ?_⟩
  · intro ref d mac g hd hf
    rcases faces_move hm hd hf with ⟨d₀, hd₀, hf₀⟩ | ⟨d₀, n, hn, rfl, rfl⟩
    · exact linkFaceAt_move h hm (h.devices ref d₀ mac g hd₀ hf₀)
    · exact ⟨_, FinMap.find_insert_self _ _ _, FinMap.find_insert_self _ _ _⟩
  · intro id g w hmem
    rcases posted_move hm hmem with hold | ⟨ref, d, i, hd, hf, rfl⟩
    · obtain ⟨mac, ref, hat⟩ := h.posted id g w hold
      exact ⟨mac, ref, linkFaceAt_move h hm hat⟩
    · exact ⟨_, ref, linkFaceAt_move h hm (h.devices ref d _ g hd hf)⟩

/-! ## What the configuration leaves -/

theorem LinkFaceAt.replace {id' : String} {n n' : Node}
    (h : (em.setNode id' n).LinkFaceAt id g mac ref)
    (hkeep : n.faceTable.find g = some (.link mac ref) →
      n'.faceTable.find g = some (.link mac ref)) :
    (em.setNode id' n').LinkFaceAt id g mac ref := by
  obtain ⟨m, hm, hg⟩ := h
  rcases FinMap.find_insert_cases hm with ⟨rfl, rfl⟩ | ⟨hid, hm⟩
  · exact ⟨n', FinMap.find_insert_self _ _ _, hkeep hg⟩
  · exact ⟨m, (FinMap.find_insert_ne hid).trans hm, hg⟩

theorem Grounded.setNode {id' : String} {n n' : Node} (h : em.Grounded)
    (hn : em.nodeTable.find id' = some n) (hcount : n'.Counted)
    (hkeep : ∀ g mac ref, n.faceTable.find g = some (.link mac ref) →
      n'.faceTable.find g = some (.link mac ref)) : (em.setNode id' n').Grounded := by
  have hat : ∀ {id g mac ref}, em.LinkFaceAt id g mac ref →
      (em.setNode id' n').LinkFaceAt id g mac ref := by
    intro id g mac ref hat
    refine hat.setNode ?_
    intro _ m hm hg
    obtain rfl : n = m := Option.some.inj (hn.symm.trans hm)
    exact hkeep g mac ref hg
  refine ⟨counted_setNode h.counted hcount, ?_, ?_⟩
  · intro ref d mac g hd hf
    exact hat (h.devices ref d mac g hd hf)
  · intro id g w hmem
    obtain ⟨mac, ref, hold⟩ := h.posted id g w hmem
    exact ⟨mac, ref, hat hold⟩

/-- A new device's broadcast face is in the table of the node that is being
read. -/
theorem grounded_addBroadcastFace {n : Node} {dev : String} {link : String}
    (h : (em.setNode n.id n).Grounded) :
    ((em.addBroadcastFace n ⟨n.id, dev⟩ (LinkDevice.new mac link 5)).1.setNode n.id
      (em.addBroadcastFace n ⟨n.id, dev⟩ (LinkDevice.new mac link 5)).2).Grounded := by
  have hn : n.Counted := h.counted n.id n (FinMap.find_insert_self _ _ _)
  have hkeep : ∀ g mac ref, n.faceTable.find g = some (.link mac ref) →
      (n.addLinkFace broadcastMac ⟨n.id, dev⟩).1.faceTable.find g = some (.link mac ref) := by
    intro g mac ref hg
    have hlt := hn.table g (FinMap.mem_keys_of_find hg)
    exact (FinMap.find_insert_ne (by omega)).trans hg
  refine ⟨?_, ?_, ?_⟩
  · intro id m hm
    rcases FinMap.find_insert_cases hm with ⟨_, rfl⟩ | ⟨hid, hm⟩
    · exact hn.addLinkFace _ _
    · exact h.counted id m ((FinMap.find_insert_ne hid).trans hm)
  · intro ref d m g hd hf
    rcases FinMap.find_insert_cases hd with ⟨rfl, rfl⟩ | ⟨_, hd⟩
    · rcases FinMap.find_insert_cases hf with ⟨rfl, rfl⟩ | ⟨_, hf⟩
      · exact ⟨_, FinMap.find_insert_self _ _ _, FinMap.find_insert_self _ _ _⟩
      · cases hf
    · exact (h.devices ref d m g hd hf).replace (hkeep g m ref)
  · intro id g w hmem
    obtain ⟨m, ref, hat⟩ := h.posted id g w hmem
    exact ⟨m, ref, hat.replace (hkeep g m ref)⟩

theorem grounded_topology {c : Config} (h : readTopology c = .ok em) : em.Grounded := by
  refine readTopology_induct (P := Grounded) (Q := fun a n => (a.setNode n.id n).Grounded)
    ?_ ?_ ?_ ?_ ?_ ?_ h
  · exact ⟨by simp [empty], by simp [empty], by simp [empty]⟩
  · exact fun a id l h => ⟨h.counted, h.devices, h.posted⟩
  · exact fun a n id l h => ⟨h.counted, h.devices, h.posted⟩
  · intro a id limit h hnone
    have hkeep : ∀ {id' g mac ref}, a.LinkFaceAt id' g mac ref →
        (a.setNode id (Node.new id limit)).LinkFaceAt id' g mac ref := by
      intro id' g mac ref hat
      refine hat.setNode ?_
      intro _ n hn
      cases hnone.symm.trans hn
    refine ⟨counted_setNode h.counted (Node.counted_new id limit), ?_, ?_⟩
    · intro ref d mac g hd hf
      exact hkeep (h.devices ref d mac g hd hf)
    · intro id' g w hmem
      obtain ⟨mac, ref, hat⟩ := h.posted id' g w hmem
      exact ⟨mac, ref, hkeep hat⟩
  · exact fun a n dev mac link h _ _ => grounded_addBroadcastFace h
  · exact fun a n h => h

theorem grounded_readRoute {id : String} {r : RouteConfig} (h : em.Grounded)
    (hread : em.readRoute id r = .ok em') : em'.Grounded := by
  obtain ⟨hop, n, n', _, hn, hadd, rfl⟩ := readRoute_cases hread
  have hcount := h.counted _ _ hn
  obtain ⟨d, hd, ⟨face, _, rfl⟩ | ⟨_, rfl⟩⟩ := addRoute_cases hadd
  · exact h.setNode hn ⟨hcount.table, hcount.client⟩ fun _ _ _ hg => hg
  · have hnew := hcount.addLinkFace hop ⟨n.id, r.interface⟩
    refine h.setNode hn ⟨hnew.table, hnew.client⟩ ?_
    intro g mac ref hg
    have hlt := hcount.table g (FinMap.mem_keys_of_find hg)
    exact (FinMap.find_insert_ne (by omega)).trans hg

theorem grounded_config {c : Config} (h : readNetworkConfig c = .ok em) : em.Grounded := by
  obtain ⟨em₁, em₂, h₁, h₂, h₃⟩ := readNetworkConfig_cases h
  have hroutes : em₂.Grounded := readAll_preserves
    (fun a x b _ ha hread => grounded_readRoute ha hread) (grounded_topology h₁) h₂
  exact readAll_preserves (fun a x b _ ha hread => readMatrix_preserves
    (fun a id l h => ⟨h.counted, h.devices, h.posted⟩) ha hread) hroutes h₃

theorem grounded_start (h : em.Grounded) : em.start.Grounded := by
  have hkeep : ∀ {id g mac ref}, em.LinkFaceAt id g mac ref →
      em.start.LinkFaceAt id g mac ref := by
    rintro id g mac ref ⟨n, hn, hg⟩
    exact ⟨n.start, FinMap.find_filterMap_eq_some.mpr ⟨n, hn, rfl⟩, hg⟩
  refine ⟨?_, ?_, ?_⟩
  · intro id n hn
    obtain ⟨m, hm, heq⟩ := FinMap.find_filterMap_eq_some.mp hn
    exact Option.some.inj heq ▸ (h.counted _ _ hm).start
  · intro ref d mac g hd hf
    exact hkeep (h.devices ref d mac g hd hf)
  · intro id g w hmem
    obtain ⟨mac, ref, hat⟩ := h.posted id g w hmem
    exact ⟨mac, ref, hkeep hat⟩

end Emulator

end NdnEm
