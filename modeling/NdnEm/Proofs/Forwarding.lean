import NdnEm.Proofs.NodeStep

/-!
# What one Interest does

`handleInterest` combines a store scan, nonce detection, a match-all route
lookup, the incoming-face exclusion and the reserved face 0, over a face table
some of whose faces are gone. The theorem at the end says which of its
four outcomes happens and that the others do not: the content store answers,
the nonce was seen before, the fib manager gets it, or it goes out on every
live face routed to and on no other.
-/

namespace NdnEm

open Lib

/-- The calls of `Send` that a handler made, in order. -/
def sends (o : Option Forward) : List (Int × Wire) :=
  o.elim [] fun fw => fw.faces.map fun g => (g, fw.wire)

@[simp] theorem sends_none : sends none = [] := rfl

@[simp] theorem sends_cached (d : Data) (fs : List Int) :
    sends (some (.cached d fs)) = fs.map fun g => (g, .data d) := rfl

@[simp] theorem sends_interest (i : Interest) (fs : List Int) :
    sends (some (.interest i fs)) = fs.map fun g => (g, .interest i) := rfl

@[simp] theorem sends_data (d : Data) (fs : List Int) :
    sends (some (.data d fs)) = fs.map fun g => (g, .data d) := rfl

namespace Node

/-- The faces registered for some prefix of the name, the incoming face
left out. -/
def Routed (n : Node) (name : Name) (f g : Int) : Prop :=
  g ≠ f ∧ ∃ p, p <+: name ∧ g ∈ n.fib.faces p

theorem mem_outList {n : Node} {name : Name} {f g : Int} :
    g ∈ (n.fib.lookUp name ∅).erase f ↔ n.Routed name f g := by
  simp [Routed, Fib.mem_lookUp]

/-- The node after recording the Interest, and that nothing else changed. -/
def Recorded (n : Node) (now : Int) (f : Int) (i : Interest) (n' : Node) : Prop :=
  n' = n.withPit (n.pit.addInterest now f i).2 ∧
  ∀ m k, n'.pit.record m k =
    if m = i.name ∧ k = i.nonce then some ⟨f, now + i.interestLifetime⟩
    else n.pit.record m k

/-- How an Interest can be disposed of. -/
inductive Verdict
  | answered
  | looping
  | command
  | forwarded
deriving DecidableEq

/-- What each verdict means: when it is reached and what it does. -/
def Handles (lib : NdnCxx) (n : Node) (clk : Clock) (f : Int) (i : Interest) : Verdict → Prop
  | .answered =>
      ∃ d o, n.cacheManager.findMatchingData clk.find i = some d ∧
        n.handleInterest lib clk f i = .ok (n, o) ∧ sends o = [(f, .data d)]
  | .looping =>
      n.cacheManager.findMatchingData clk.find i = none ∧
      (∃ r, n.pit.record i.name i.nonce = some r) ∧
      n.handleInterest lib clk f i = .ok (n, none)
  | .command =>
      n.cacheManager.findMatchingData clk.find i = none ∧
      n.pit.record i.name i.nonce = none ∧ n.Routed i.name f 0 ∧
      ∃ m, n.Recorded clk.add f i m ∧
        n.handleInterest lib clk f i = m.processCommand lib clk f i ∧
        ∀ n' o, n.handleInterest lib clk f i = .ok (n', o) →
          ∀ s ∈ sends o, ∀ j, s.2 ≠ .interest j
  | .forwarded =>
      n.cacheManager.findMatchingData clk.find i = none ∧
      n.pit.record i.name i.nonce = none ∧ ¬ n.Routed i.name f 0 ∧
      ∃ n' o, n.Recorded clk.add f i n' ∧
        n.handleInterest lib clk f i = .ok (n', o) ∧
        (∀ s ∈ sends o, s.2 = .interest i) ∧
        ∀ g, (n.Routed i.name f g ∧ g ∈ n.faceTable.keys →
            (sends o).count (g, .interest i) = 1) ∧
          (¬ (n.Routed i.name f g ∧ g ∈ n.faceTable.keys) →
            (sends o).count (g, .interest i) = 0)

variable {lib : NdnCxx} {n : Node} {clk : Clock} {f : Int} {i : Interest}

theorem recorded_of_none (h : n.pit.record i.name i.nonce = none) (now : Int) :
    n.Recorded now f i (n.withPit (n.pit.addInterest now f i).2) :=
  ⟨rfl, fun m k => Pit.record_addInterest_of_none h m k⟩

/-- A packet passed to `Send` on a duplicate-free list of faces is sent once
on each of them. -/
theorem count_sends_interest {fs : List Int} (hnd : fs.Nodup) (g : Int) :
    (sends (some (.interest i fs))).count (g, .interest i) = if g ∈ fs then 1 else 0 := by
  rw [sends_interest]
  have hinj : Function.Injective fun a : Int => (a, Wire.interest i) :=
    fun a b h => (Prod.mk.inj h).1
  rw [List.count_map_of_injective fs (fun a => (a, Wire.interest i)) hinj]
  split
  · next h => exact List.count_eq_one_of_mem hnd h
  · next h => exact List.count_eq_zero_of_not_mem h

theorem handles_answered (hf : f ∈ n.faceTable.keys) {d : Data}
    (hd : n.cacheManager.findMatchingData clk.find i = some d) :
    Handles lib n clk f i .answered := by
  refine ⟨d, some (.cached d (n.forwardToFace f)), hd, by simp [handleInterest, hd], ?_⟩
  simp [forwardToFace, hf]

theorem handles_looping (hd : n.cacheManager.findMatchingData clk.find i = none)
    {r : FaceRecord} (hr : n.pit.record i.name i.nonce = some r) :
    Handles lib n clk f i .looping := by
  refine ⟨hd, ⟨r, hr⟩, ?_⟩
  simp only [handleInterest, hd, Pit.addInterest_of_record hr]
  rfl

/-- Past the store and the nonce check, the handler is its routing step. -/
theorem handleInterest_of_new (hd : n.cacheManager.findMatchingData clk.find i = none)
    (hr : n.pit.record i.name i.nonce = none) :
    n.handleInterest lib clk f i =
      let m := n.withPit (n.pit.addInterest clk.add f i).2
      let out := (n.fib.lookUp i.name ∅).erase f
      if out = ∅ then .ok (m, none)
      else if 0 ∈ out then m.processCommand lib clk f i
      else .ok (m, some (.interest i (m.forwardToFaces out))) := by
  simp only [handleInterest, hd, Pit.addInterest_fst_of_none hr]
  rfl

theorem handles_command (hd : n.cacheManager.findMatchingData clk.find i = none)
    (hr : n.pit.record i.name i.nonce = none) (h0 : n.Routed i.name f 0) :
    Handles lib n clk f i .command := by
  have hmem := mem_outList.mpr h0
  have heq : n.handleInterest lib clk f i =
      (n.withPit (n.pit.addInterest clk.add f i).2).processCommand lib clk f i := by
    rw [handleInterest_of_new hd hr]
    simp only []
    rw [if_neg (Finset.ne_empty_of_mem hmem), if_pos hmem]
  refine ⟨hd, hr, h0, _, recorded_of_none hr _, heq, fun n' o ho s hs j => ?_⟩
  rw [heq] at ho
  cases o with
  | none => simp at hs
  | some fw =>
      obtain ⟨d, faces, rfl, _⟩ := processCommand_forward ho
      obtain ⟨g, _, rfl⟩ := List.mem_map.mp (by simpa using hs)
      simp

theorem handles_forwarded (hd : n.cacheManager.findMatchingData clk.find i = none)
    (hr : n.pit.record i.name i.nonce = none) (h0 : ¬ n.Routed i.name f 0) :
    Handles lib n clk f i .forwarded := by
  have heq := @handleInterest_of_new lib n clk f i hd hr
  simp only [] at heq
  rw [if_neg (fun h => h0 (mem_outList.mp h))] at heq
  refine ⟨hd, hr, h0, n.withPit (n.pit.addInterest clk.add f i).2, ?_⟩
  by_cases hempty : (n.fib.lookUp i.name ∅).erase f = ∅
  · rw [if_pos hempty] at heq
    refine ⟨none, recorded_of_none hr _, heq, by simp, fun g => ⟨fun hg => ?_, by simp⟩⟩
    exact absurd (mem_outList.mpr hg.1) (by simp [hempty])
  · rw [if_neg hempty] at heq
    refine ⟨_, recorded_of_none hr _, heq, by simp, fun g => ?_⟩
    rw [count_sends_interest (forwardToFaces_nodup _)]
    have hmem : g ∈ (n.withPit (n.pit.addInterest clk.add f i).2).forwardToFaces
        ((n.fib.lookUp i.name ∅).erase f) ↔ n.Routed i.name f g ∧ g ∈ n.faceTable.keys := by
      rw [mem_forwardToFaces, mem_outList, withPit_faceTable]
    exact ⟨fun hg => if_pos (hmem.mpr hg), fun hg => if_neg fun h => hg (hmem.mp h)⟩

/-- **Interest forwarding, end to end.** For an Interest on a face of the face
table, exactly one verdict is reached, whatever the tables hold. -/
theorem handleInterest_verdict (lib : NdnCxx) (n : Node) (clk : Clock) (i : Interest)
    (hf : f ∈ n.faceTable.keys) : ∃! v, Handles lib n clk f i v := by
  cases hd : n.cacheManager.findMatchingData clk.find i with
  | some d =>
      refine ⟨.answered, handles_answered hf hd, fun v hv => ?_⟩
      cases v with
      | answered => rfl
      | looping => exact absurd hv.1 (by simp [hd])
      | command => exact absurd hv.1 (by simp [hd])
      | forwarded => exact absurd hv.1 (by simp [hd])
  | none =>
      cases hr : n.pit.record i.name i.nonce with
      | some r =>
          refine ⟨.looping, handles_looping hd hr, fun v hv => ?_⟩
          cases v with
          | answered => obtain ⟨d, _, hd', _⟩ := hv; exact absurd hd' (by simp [hd])
          | looping => rfl
          | command => exact absurd hv.2.1 (by simp [hr])
          | forwarded => exact absurd hv.2.1 (by simp [hr])
      | none =>
          by_cases h0 : n.Routed i.name f 0
          · refine ⟨.command, handles_command hd hr h0, fun v hv => ?_⟩
            cases v with
            | answered => obtain ⟨d, _, hd', _⟩ := hv; exact absurd hd' (by simp [hd])
            | looping => obtain ⟨r, hr'⟩ := hv.2.1; exact absurd hr' (by simp [hr])
            | command => rfl
            | forwarded => exact absurd h0 hv.2.2.1
          · refine ⟨.forwarded, handles_forwarded hd hr h0, fun v hv => ?_⟩
            cases v with
            | answered => obtain ⟨d, _, hd', _⟩ := hv; exact absurd hd' (by simp [hd])
            | looping => obtain ⟨r, hr'⟩ := hv.2.1; exact absurd hr' (by simp [hr])
            | command => exact absurd hv.2.2.1 h0
            | forwarded => rfl

/-- A node with two radio neighbours and a default route to both, hearing an
Interest from the first. -/
def relay : Node :=
  let dev : DeviceRef := ⟨"n0", "wn0"⟩
  let n := ((Node.new "n0" 102400).addLinkFace 2 dev).1
  let n := (n.addLinkFace 3 dev).1
  ({ n with fib := (n.fib.addRoute [] 1).addRoute [] 2 } : Node).start

/-- A packet library that decodes no command, for runs without any. -/
def noCommands : NdnCxx where
  decodeParameters _ := none
  validateRequest _ := false
  applyDefaultsToRequest p := p
  encodeResponse _ := []
  signedSize _ content := content.length
  defaultFreshness := -1

theorem handleInterest_verdict_relay :
    ∃! v, Handles noCommands relay (Clock.still 0) 1 ⟨[[1]], 7, 4000, false, 40⟩ v :=
  handleInterest_verdict noCommands relay (Clock.still 0) _ (by decide)

example : (relay.handleInterest noCommands (Clock.still 0) 1
    ⟨[[1]], 7, 4000, false, 40⟩).map (sends ·.2) =
    .ok [(2, .interest ⟨[[1]], 7, 4000, false, 40⟩)] := rfl

end Node

end NdnEm
