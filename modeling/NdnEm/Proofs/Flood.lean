import Mathlib.Data.Set.Finite.Lattice
import NdnEm.Lib.Potential
import NdnEm.Proofs.ConfigStep
import NdnEm.Proofs.Flow
import NdnEm.Proofs.NonceLoop

/-!
# Interest floods end

A node that forwards an Interest has a record of its nonce from then on, and
forwards no copy of it again. So all nodes together forward it a number of
times that does not exceed the number of nodes, whatever the topology, and
every forwarding makes as many copies as there are neighbours behind its
faces. What is left is bookkeeping over the copies on their way.

Two choices of weights do it. Where a queued copy is worth the neighbours it
will reach, the copies put in flight are paid for by what was forwarded. Where
a place is worth more the further it is from the end, every step that moves a
copy is paid for.

Both need that nothing takes a record away: the runs here are those in which
no node handles Data that satisfies the name, and no cleanup drops a record
of the nonce.
-/

namespace NdnEm

open Lib LinkDevice System

variable {m : Name} {k : UInt32} {mode : Rearm} {lib : NdnCxx}

/-! ## A node forwards once -/

namespace Node

/-- One while the nonce has no record. -/
def unrecorded (m : Name) (k : UInt32) (n : Node) : Nat :=
  (n.pit.record m k).elim 1 fun _ => 0

/-- The event takes no record of the nonce away. -/
def Undisturbed (lib : NdnCxx) (m : Name) (k : UInt32) (n : Node) (e : NodeEvent) : Prop :=
  (∀ d, HandlesData lib n e d → ¬ m <+: d) ∧
  ∀ now r, e = .cleanUp now → n.pit.record m k = some r → (n.pit.cleanUp now).record m k = some r

variable {n n' : Node} {e : NodeEvent} {o : Option Forward}

/-- Only an Interest that arrives is sent on as an Interest. -/
theorem copy_of_sent {fw : Forward} (hs : n.step lib e = .ok (n', some fw))
    (hfw : fw.wire.copy m k ≠ 0) :
    ∃ clk f i fs, e = .interest clk f i ∧ fw = .interest i fs ∧ i.name = m ∧ i.nonce = k := by
  cases fw with
  | cached d fs => exact absurd rfl hfw
  | data d fs => exact absurd rfl hfw
  | interest i fs =>
      have hsame : i.name = m ∧ i.nonce = k := by
        by_contra hne
        exact hfw (if_neg hne)
      cases e with
      | interest clk f j =>
          obtain ⟨rfl, _⟩ := handleInterest_forwarded (i := j) hs
          exact ⟨clk, f, i, fs, rfl, rfl, hsame⟩
      | data clk f d =>
          have hd : n.handleData clk f d = .ok (n', some (.interest i fs)) := hs
          rcases handleData_cases hd with ⟨_, _, ho⟩ | ⟨_, _, _, _, ho⟩ <;> cases ho
      | removeFace f => cases (step_removeFace hs).2
      | cleanUp now => cases (Prod.mk.inj (Except.ok.inj hs)).2
      | addLinkFace mac dev => cases (Prod.mk.inj (Except.ok.inj hs)).2
      | accept =>
          obtain ⟨_, _, _, ho⟩ := step_accept hs
          cases ho

/-- Forwarding a copy uses up what is unrecorded, and it does not come back. -/
theorem unrecorded_step (he : n.Undisturbed lib m k e) (hs : n.step lib e = .ok (n', o)) :
    n'.unrecorded m k + o.elim 0 (fun fw => fw.wire.copy m k) ≤ n.unrecorded m k := by
  have hforward : ∀ fw, o = some fw → fw.wire.copy m k ≠ 0 →
      n.pit.record m k = none ∧ ∃ r, n'.pit.record m k = some r := by
    rintro fw rfl hfw
    obtain ⟨clk, f, i, fs, rfl, rfl, rfl, rfl⟩ := copy_of_sent hs hfw
    obtain ⟨_, _, hnew, _⟩ := handleInterest_forwarded (i := i) hs
    exact ⟨Pit.addInterest_fst.mp hnew, _, record_of_forwarded hs⟩
  cases hr : n.pit.record m k with
  | none =>
      have hone : n.unrecorded m k = 1 := by simp [unrecorded, hr]
      have hle : n'.unrecorded m k ≤ 1 := by
        unfold unrecorded
        cases n'.pit.record m k <;> simp
      cases o with
      | none => simpa [hone] using hle
      | some fw =>
          by_cases hfw : fw.wire.copy m k = 0
          · simpa [hone, hfw] using hle
          · obtain ⟨_, r, hr'⟩ := hforward fw rfl hfw
            have hzero : n'.unrecorded m k = 0 := by simp [unrecorded, hr']
            have hcopy := fw.wire.copy_le_one m k
            rw [hone, hzero, Nat.zero_add]
            exact hcopy
  | some r =>
      have hkeep := step_keeps hr he.1
        (fun now hnow => (Pit.record_cleanUp_eq_some.mp (he.2 now r hnow hr)).2) hs
      have hzero : n'.unrecorded m k = 0 := by simp [unrecorded, hkeep]
      cases o with
      | none => simp [hzero]
      | some fw =>
          by_cases hfw : fw.wire.copy m k = 0
          · simp [hzero, hfw]
          · have hnone := (hforward fw rfl hfw).1
            cases hr.symm.trans hnone

end Node

namespace Emulator

variable {em em' : Emulator} {e : Event} {out : Output}

/-- No Data whose name extends `m` is handled by the node of the event, and no
cleanup removes its record for the nonce. -/
def Undisturbed (lib : NdnCxx) (m : Name) (k : UInt32) (em : Emulator) (e : Event) : Prop :=
  ∀ id ne n, em.nodeEvent e = some (id, ne) → em.nodeTable.find id = some n →
    n.Undisturbed lib m k ne

/-- The network, as long as nothing satisfies or forgets the Interest. -/
def undisturbed (mode : Rearm) (lib : NdnCxx) (m : Name) (k : UInt32) :
    System Emulator Event Output Fault :=
  (system mode lib).restrict (Undisturbed lib m k)

/-- One while the nonce has no record at that node. -/
def unrecorded (m : Name) (k : UInt32) (id : String) (em : Emulator) : Nat :=
  (em.nodeTable.find id).elim 0 (·.unrecorded m k)

/-! ## What is counted along a run -/

/-- One when that node calls `ForwardToFaces` for the Interest. -/
def forwarded (m : Name) (k : UInt32) (id : String) (_ : Emulator) (_ : Event) : Output → Nat
  | .forward id' fw => if id' = id then fw.wire.copy m k else 0
  | .quiet | .device _ _ => 0

/-- One when a client sends the Interest to its node. -/
def injected (m : Name) (k : UInt32) (_ : Emulator) (e : Event) (_ : Output) : Nat :=
  match e with
  | .appReceive _ _ _ _ (.packet w) => w.copy m k
  | _ => 0

/-- The neighbours that `Link::Transmit` sends the Interest to, those that lose
it among them. -/
def transmitted (m : Name) (k : UInt32) (em : Emulator) (e : Event) (_ : Output) : Nat :=
  match em.running e with
  | some (.transmit link nodeId pkt) => em.fanOut link nodeId * pkt.wire.copy m k
  | some (.dispatch _ _ _) | none => 0

/-- The copies that are put in flight. -/
def launched (m : Name) (k : UInt32) (em : Emulator) (e : Event) (out : Output) : Nat :=
  injected m k em e out + transmitted m k em e out

/-- The copy that a posted handler is about. -/
def carried (m : Name) (k : UInt32) : Posted → Nat
  | .transmit _ _ pkt => pkt.wire.copy m k
  | .dispatch _ _ w => w.copy m k

/-- One when a copy is moved: a device hands it to the link or gives it up, the
link transmits it, a device receives it, or it is dispatched. -/
def moved (m : Name) (k : UInt32) (em : Emulator) (e : Event) (out : Output) : Nat :=
  (em.running e).elim 0 (carried m k) +
    match out with
    | .device _ (.transmit p) | .device _ (.received p) | .device _ (.gaveUp p) =>
        p.wire.copy m k
    | .device _ .quiet | .device _ (.enqueued _) | .device _ (.finished _) => 0
    | .quiet | .forward _ _ => 0

/-- The neighbours behind a device. -/
def spread (em : Emulator) (ref : DeviceRef) : Nat :=
  (em.deviceTable.find ref).elim 0 fun d => em.fanOut d.link ref.node

/-- The out faces of a node that forwards the Interest, each with the fan-out
of its link. -/
def outFanOut (m : Name) (k : UInt32) (em : Emulator) (_ : Event) : Output → Nat
  | .forward id fw => ((em.outDevices id fw.faces).map em.spread).sum * fw.wire.copy m k
  | .quiet | .device _ _ => 0

/-! ## What does not change -/

structure SameTopology (em em' : Emulator) : Prop where
  nodes : em'.nodeTable.keys = em.nodeTable.keys
  links : em'.linkTable = em.linkTable
  devices : ∀ ref, (em'.deviceTable.find ref).map (·.link) = (em.deviceTable.find ref).map (·.link)

theorem sameTopology_move {em₀ : Emulator} {j : Nat} (h : SameTopology em₀ em)
    (hm : Move mode lib j em em') : SameTopology em₀ em' := by
  have hdevice : ∀ {ref : DeviceRef} {d d' : LinkDevice}, em.deviceTable.find ref = some d →
      d'.link = d.link → ∀ ref', ((em.deviceTable.insert ref d').find ref').map (·.link) =
        (em₀.deviceTable.find ref').map (·.link) := by
    intro ref d d' hd hlink ref'
    rw [← h.devices ref', FinMap.find_insert]
    split
    · next href =>
        subst href
        rw [hd, Option.map_some, Option.map_some, hlink]
    · rfl
  have hnode : ∀ {id : String} {n n' : Node}, em.nodeTable.find id = some n →
      (em.nodeTable.insert id n').keys = em₀.nodeTable.keys := by
    intro id n n' hn
    rw [FinMap.keys_insert, Finset.insert_eq_of_mem (FinMap.mem_keys_of_find hn), h.nodes]
  cases hm with
  | node hn _ _ _ => exact ⟨hnode hn, h.links, h.devices⟩
  | object w _ => exact ⟨h.nodes, h.links, h.devices⟩
  | address a _ _ => exact ⟨h.nodes, h.links, h.devices⟩
  | startTx hd hs => exact ⟨h.nodes, h.links, hdevice hd (startTx_fixed hs).2.1⟩
  | startRx hd hs => exact ⟨h.nodes, h.links, hdevice hd (startRx_fixed hs).2.1⟩
  | fire hd hs => exact ⟨h.nodes, h.links, hdevice hd (fire_fixed hs).2.1⟩
  | face hd hn _ _ => exact ⟨hnode hn, h.links, hdevice hd rfl⟩
  | dispatch w _ _ _ => exact ⟨h.nodes, h.links, h.devices⟩
  | transmit link nodeId pkt => exact ⟨h.nodes, h.links, h.devices⟩
  | unpost j => exact ⟨h.nodes, h.links, h.devices⟩
  | tick n => exact ⟨h.nodes, h.links, h.devices⟩

theorem sameTopology_step {em₀ : Emulator} (s : Emulator) (e : Event) (s' : Emulator)
    (out : Output) (h : SameTopology em₀ s) (he : (undisturbed mode lib m k).Enabled s e)
    (hs : (undisturbed mode lib m k).step s e = .ok (s', out)) : SameTopology em₀ s' := by
  have hen : s.Enabled e := he.1
  have hstep : s.step mode lib e = .ok (s', out) := hs
  exact step_preserves (fun _ _ => sameTopology_move) h hen hstep

theorem SameTopology.fanOut {em₀ : Emulator} (h : SameTopology em₀ em) : em.fanOut = em₀.fanOut := by
  funext link nodeId
  rw [Emulator.fanOut, h.links]
  rfl

theorem SameTopology.spread {em₀ : Emulator} (h : SameTopology em₀ em) : em.spread = em₀.spread := by
  funext ref
  have hdev := h.devices ref
  unfold Emulator.spread
  rw [h.fanOut]
  cases hd : em.deviceTable.find ref with
  | none =>
      rw [hd, Option.map_none, eq_comm, Option.map_eq_none_iff] at hdev
      rw [hdev]
  | some d =>
      rw [hd, Option.map_some] at hdev
      obtain ⟨d₀, hd₀, hlink⟩ := Option.map_eq_some_iff.mp hdev.symm
      rw [hd₀, Option.elim_some, Option.elim_some, hlink]

theorem SameTopology.spread_of_find {em₀ : Emulator} {ref : DeviceRef} {d : LinkDevice}
    (h : SameTopology em₀ em) (hd : em.deviceTable.find ref = some d) :
    em₀.spread ref = em₀.fanOut d.link ref.node := by
  rw [← h.spread, ← h.fanOut, Emulator.spread, hd, Option.elim_some]

/-! ## What pays for what -/

/-- A node pays for forwarding with the record it lacks. -/
theorem pays_forwarded (mode : Rearm) (lib : NdnCxx) (m : Name) (k : UInt32) (id : String) :
    (undisturbed mode lib m k).Pays (fun _ => True) (unrecorded m k id) (forwarded m k id)
      (fun _ _ _ => 0) := by
  refine ⟨fun _ _ _ _ _ _ _ => trivial, fun s e s' out _ he hs => ?_⟩
  obtain ⟨id', ne, n, n', o, hev, hn, hstep, htab, rfl⟩ | ⟨hno, hgrow⟩ := step_nodes hs
  · have hnode := Node.unrecorded_step (he.2 id' ne n hev hn) hstep
    unfold unrecorded
    rw [htab, FinMap.find_insert]
    by_cases hid : id = id'
    · subst hid
      rw [if_pos rfl, hn, Option.elim_some, Option.elim_some]
      have hout : forwarded m k id s e (o.elim .quiet (.forward id)) =
          o.elim 0 fun fw => fw.wire.copy m k := by
        cases o with
        | none => rfl
        | some fw => simp [forwarded]
      omega
    · have hout : forwarded m k id s e (o.elim .quiet (.forward id')) = 0 := by
        cases o with
        | none => rfl
        | some fw => simp [forwarded, Ne.symm hid]
      rw [if_neg hid, hout]
  · have hout : forwarded m k id s e out = 0 := by
      cases out with
      | forward id' fw => exact absurd rfl (hno id' fw)
      | quiet => rfl
      | device ref o => rfl
    have hsame : unrecorded m k id s' = unrecorded m k id s := by
      unfold unrecorded
      rcases hgrow id with hsame | ⟨n, src, ref, hn, hn'⟩
      · rw [hsame]
      · rw [hn, hn', Option.elim_some, Option.elim_some]
        rfl
    omega

/-- A queued copy is worth the neighbours it will reach. -/
def fanWeights (em₀ : Emulator) : Weights := ⟨em₀.spread, em₀.fanOut, 0, 0⟩

/-- A place is worth more the more moves are still to come. -/
def moveWeights (em₀ : Emulator) : Weights :=
  ⟨fun ref => 2 * em₀.spread ref + 2, fun link nodeId => 2 * em₀.fanOut link nodeId + 1, 2, 1⟩

theorem pays_transmitted (mode : Rearm) (lib : NdnCxx) (m : Name) (k : UInt32) (em₀ : Emulator) :
    (undisturbed mode lib m k).Pays (SameTopology em₀) ((fanWeights em₀).load m k)
      (transmitted m k) (outFanOut m k) := by
  refine ⟨sameTopology_step, fun s e s' out hI he hs => ?_⟩
  have hload := @Weights.step_load (fanWeights em₀) m k _ _ _ _ _ _ hs
  have hrun : transmitted m k s e out ≤ (s.running e).elim 0 ((fanWeights em₀).handler m k) := by
    unfold transmitted
    split
    · next link nodeId pkt hr =>
        rw [hr, hI.fanOut]
        exact Nat.le_refl _
    · exact Nat.zero_le _
    · exact Nat.zero_le _
  have hout : (fanWeights em₀).enters m k s e out ≤
      (fanWeights em₀).seen m k out + outFanOut m k s e out := by
    cases out with
    | quiet =>
        -- what is heard is worth nothing here
        have hzero : (fanWeights em₀).heardBy m k s e = 0 := by
          unfold Weights.heardBy
          split <;> simp [fanWeights]
        exact Nat.le_add_right_of_le (Nat.le_of_eq hzero)
    | forward id fw =>
        simp only [Weights.enters, outFanOut, fanWeights, hI.spread]
        exact Nat.le_add_left _ _
    | device ref o =>
        refine Nat.le_add_right_of_le ?_
        cases o with
        | transmit p =>
            refine Nat.mul_le_mul_right _ ?_
            cases hd : s.deviceTable.find ref with
            | none => exact Nat.zero_le _
            | some d => exact Nat.le_of_eq (hI.spread_of_find hd).symm
        | received p => simp [Weights.enters, fanWeights]
        | quiet => exact Nat.zero_le _
        | enqueued p => exact Nat.zero_le _
        | finished p => exact Nat.zero_le _
        | gaveUp p => exact Nat.zero_le _
  unfold Weights.leaves at hload
  omega

/-- What a forwarding node puts into the queues, with all the moves to come. -/
def queuedBy (m : Name) (k : UInt32) (em₀ : Emulator) (em : Emulator) (_ : Event) : Output → Nat
  | .forward id fw =>
      ((em.outDevices id fw.faces).map (moveWeights em₀).queued).sum * fw.wire.copy m k
  | .quiet | .device _ _ => 0

/-- A handler's weight covers the copy it carries. -/
theorem carried_le_handler (m : Name) (k : UInt32) (em₀ : Emulator) (h : Option Posted) :
    h.elim 0 (carried m k) ≤ h.elim 0 ((moveWeights em₀).handler m k) := by
  cases h with
  | none => exact Nat.le_refl 0
  | some h =>
      cases h with
      | transmit link nodeId pkt => exact Nat.le_mul_of_pos_left _ (Nat.succ_pos _)
      | dispatch id face w => exact Nat.le_of_eq (Nat.one_mul _).symm

/-- A transmission's covers what the neighbors hear of it as well. -/
theorem carried_heard_le {s : Emulator} (hI : SameTopology em₀ s) (m : Name) (k : UInt32)
    (e : Event) :
    (s.running e).elim 0 (carried m k) + (moveWeights em₀).heardBy m k s e ≤
      (s.running e).elim 0 ((moveWeights em₀).handler m k) := by
  unfold Weights.heardBy
  split
  · next link nodeId pkt hr =>
      rw [hr, hI.fanOut]
      refine Nat.le_of_eq ?_
      show pkt.wire.copy m k + em₀.fanOut link nodeId * (2 * pkt.wire.copy m k) =
        (2 * em₀.fanOut link nodeId + 1) * pkt.wire.copy m k
      rw [Nat.add_one_mul (2 * em₀.fanOut link nodeId), Nat.mul_comm 2 (em₀.fanOut link nodeId),
        Nat.mul_assoc, Nat.add_comm]
  · exact carried_le_handler m k em₀ _
  · exact carried_le_handler m k em₀ _

theorem pays_moved (mode : Rearm) (lib : NdnCxx) (m : Name) (k : UInt32) (em₀ : Emulator) :
    (undisturbed mode lib m k).Pays (SameTopology em₀) ((moveWeights em₀).load m k) (moved m k)
      (queuedBy m k em₀) := by
  refine ⟨sameTopology_step, fun s e s' out hI he hs => ?_⟩
  have hload := @Weights.step_load (moveWeights em₀) m k _ _ _ _ _ _ hs
  have hrun := carried_le_handler m k em₀ (s.running e)
  unfold Weights.leaves at hload
  cases out with
  | quiet =>
      have hquiet := carried_heard_le hI m k e
      simp only [moved, queuedBy, Weights.enters, Weights.seen] at hload ⊢
      omega
  | forward id fw =>
      simp only [moved, queuedBy, Weights.enters, Weights.seen] at hload ⊢
      omega
  | device ref o =>
      cases o with
      | transmit p =>
          have hsent : (s.deviceTable.find ref).elim 0
              (fun d => (moveWeights em₀).sent d.link ref.node) ≤ 2 * em₀.spread ref + 1 := by
            cases hd : s.deviceTable.find ref with
            | none => exact Nat.zero_le _
            | some d => exact Nat.le_of_eq (by rw [hI.spread_of_find hd]; rfl)
          have hmul := Nat.mul_le_mul_right (p.wire.copy m k) hsent
          have hpaid : (moveWeights em₀).seen m k (.device ref (.transmit p)) =
              (2 * em₀.spread ref + 1) * p.wire.copy m k + p.wire.copy m k :=
            Nat.succ_mul _ _
          simp only [moved, queuedBy, Weights.enters] at hload ⊢
          omega
      | received p =>
          have hpaid : (moveWeights em₀).seen m k (.device ref (.received p)) =
              2 * p.wire.copy m k := rfl
          have henters : (moveWeights em₀).enters m k s e (.device ref (.received p)) =
              1 * p.wire.copy m k := rfl
          simp only [moved, queuedBy] at hload ⊢
          omega
      | gaveUp p =>
          have hpaid : p.wire.copy m k ≤ (moveWeights em₀).seen m k (.device ref (.gaveUp p)) :=
            Nat.le_mul_of_pos_left _ (Nat.succ_pos _)
          simp only [moved, queuedBy, Weights.enters] at hload ⊢
          omega
      | quiet =>
          simp only [moved, queuedBy, Weights.enters] at hload ⊢
          omega
      | enqueued p =>
          simp only [moved, queuedBy, Weights.enters] at hload ⊢
          omega
      | finished p =>
          simp only [moved, queuedBy, Weights.enters] at hload ⊢
          omega

/-! ## The flood -/

theorem unrecorded_le_one (id : String) : em.unrecorded m k id ≤ 1 := by
  unfold unrecorded
  cases em.nodeTable.find id with
  | none => exact Nat.zero_le 1
  | some n =>
      show (n.pit.record m k).elim 1 (fun _ => 0) ≤ 1
      cases n.pit.record m k <;> simp

/-- Only the nodes of the network forward. -/
theorem mem_of_forwarded {s s' : Emulator} {id : String} {fw : Forward}
    (he : (undisturbed mode lib m k).Enabled s e)
    (hs : (undisturbed mode lib m k).step s e = .ok (s', .forward id fw))
    (hfw : fw.wire.copy m k ≠ 0) : id ∈ s.nodeTable.keys := by
  have hpay := (pays_forwarded mode lib m k id).pays s e s' _ trivial he hs
  have hone : forwarded m k id s e (.forward id fw) = fw.wire.copy m k := if_pos rfl
  cases hn : s.nodeTable.find id with
  | none =>
      have hzero : s.unrecorded m k id = 0 := by
        unfold unrecorded
        rw [hn]
        rfl
      omega
  | some n => exact FinMap.mem_keys_of_find hn

/-- In an infinite run, finitely many steps forward the Interest. -/
theorem finite_forwards {st : Nat → Emulator} {x : Nat → Event × Output}
    (h : (undisturbed mode lib m k).Forever st x) :
    {i | ∃ id fw, (x i).2 = .forward id fw ∧ fw.wire.copy m k ≠ 0}.Finite := by
  have hnodes : (⋃ id ∈ (st 0).nodeTable.keys,
      {i | forwarded m k id (st i) (x i).1 (x i).2 ≠ 0}).Finite := by
    refine Set.Finite.biUnion (Finset.finite_toSet _) fun id _ => ?_
    exact (pays_forwarded mode lib m k id).finite_fees h trivial (by simp)
  refine hnodes.subset ?_
  rintro i ⟨id, fw, hout, hfw⟩
  have htop : SameTopology (st 0) (st i) :=
    h.invariant sameTopology_step ⟨rfl, rfl, fun _ => rfl⟩ i
  have hmem : id ∈ (st i).nodeTable.keys :=
    mem_of_forwarded (h.enabled i) (hout ▸ h.step i) hfw
  refine Set.mem_biUnion (htop.nodes ▸ hmem) ?_
  show forwarded m k id (st i) (x i).1 (x i).2 ≠ 0
  rwa [hout, forwarded, if_pos rfl]

/-- What is transmitted is moved. -/
theorem transmitted_of_still (h : moved m k em e out = 0) : transmitted m k em e out = 0 := by
  have hrun : (em.running e).elim 0 (carried m k) = 0 := (Nat.add_eq_zero_iff.mp h).1
  unfold transmitted
  split
  · next link nodeId pkt hr =>
      rw [hr] at hrun
      have hzero : pkt.wire.copy m k = 0 := hrun
      rw [hzero, Nat.mul_zero]
  · rfl
  · rfl

/-- The copies that what is on its way in `em` will put in flight: none, if no
copy is in a queue or posted. -/
def underway (m : Name) (k : UInt32) (em : Emulator) : Nat := (fanWeights em).load m k em

/-- **Interest floods end.** From any state of any network, as long as no node
handles Data that satisfies the name and no cleanup drops a record of the
nonce: each node forwards the Interest at most once; the copies put in flight
are bounded by the injections, and for each node that forwards by its out faces
times their fan-out; and no run moves copies for ever. -/
theorem interest_floods_end (mode : Rearm) (lib : NdnCxx) (m : Name) (k : UInt32)
    (em : Emulator) :
    (∀ tr em', (undisturbed mode lib m k).watched.Run em tr em' →
      (∀ id, total (forwarded m k id) tr ≤ 1) ∧
      total (launched m k) tr ≤
        total (injected m k) tr + em.underway m k + total (outFanOut m k) tr) ∧
    (∀ st x, (undisturbed mode lib m k).Forever st x → st 0 = em →
      {i | moved m k (st i) (x i).1 (x i).2 ≠ 0}.Finite ∧
      ({i | injected m k (st i) (x i).1 (x i).2 ≠ 0}.Finite →
        {i | launched m k (st i) (x i).1 (x i).2 ≠ 0}.Finite)) := by
  have hself : SameTopology em em := ⟨rfl, rfl, fun _ => rfl⟩
  refine ⟨fun tr em' hrun => ⟨fun id => ?_, ?_⟩, ?_⟩
  · have hle := (pays_forwarded mode lib m k id).total_le trivial hrun
    have hone := @unrecorded_le_one m k em id
    rw [total_zero] at hle
    omega
  · have hle := (pays_transmitted mode lib m k em).total_le hself hrun
    have hsum := total_add (injected m k) (transmitted m k) tr
    have hlaunched : total (launched m k) tr =
        total (fun s e o => injected m k s e o + transmitted m k s e o) tr := rfl
    unfold underway
    omega
  · rintro st x h rfl
    have hforwards := finite_forwards h
    have hmoved : {i | moved m k (st i) (x i).1 (x i).2 ≠ 0}.Finite := by
      refine (pays_moved mode lib m k (st 0)).finite_fees h hself (hforwards.subset ?_)
      intro i hi
      cases hout : (x i).2 with
      | quiet => exact absurd (by rw [hout]; rfl) hi
      | device ref o => exact absurd (by rw [hout]; rfl) hi
      | forward id fw =>
          refine ⟨id, fw, hout, fun hzero => hi ?_⟩
          rw [hout]
          show _ * fw.wire.copy m k = 0
          rw [hzero, Nat.mul_zero]
    refine ⟨hmoved, fun hinj => (hinj.union hmoved).subset fun i hi => ?_⟩
    by_contra hnot
    obtain ⟨hno, hstill⟩ := not_or.mp hnot
    refine hi ?_
    show injected m k (st i) (x i).1 (x i).2 + transmitted m k (st i) (x i).1 (x i).2 = 0
    rw [not_not.mp hno, transmitted_of_still (not_not.mp hstill)]

/-- The node does nothing but accept a client, or handle an Interest that is
not for its fib manager. -/
def CalmNode (em : Emulator) : Option (String × NodeEvent) → Prop
  | none | some (_, .accept) => True
  | some (id, .interest _ f i) =>
      ∀ n ∈ em.nodeTable.find id, 0 ∉ (n.fib.lookUp i.name ∅).erase f
  | some (_, .data _ _ _) | some (_, .removeFace _) | some (_, .cleanUp _)
  | some (_, .addLinkFace _ _) => False

def Calm (em : Emulator) (e : Event) : Prop := em.CalmNode (em.nodeEvent e)

instance (em : Emulator) (x : Option (String × NodeEvent)) : Decidable (em.CalmNode x) :=
  match x with
  | none | some (_, .accept) => isTrue trivial
  | some (_, .interest _ _ _) => inferInstanceAs (Decidable (∀ _ ∈ _, _))
  | some (_, .data _ _ _) | some (_, .removeFace _) | some (_, .cleanUp _)
  | some (_, .addLinkFace _ _) => isFalse id

theorem Calm.undisturbed (h : em.Calm e) : em.Undisturbed lib m k e := by
  intro id ne n hev hn
  unfold Calm at h
  rw [hev] at h
  cases ne with
  | accept => exact ⟨fun d hd => (nomatch hd), fun now r hne => (nomatch hne)⟩
  | interest clk f i =>
      refine ⟨fun d hd => ?_, fun now r hne => (nomatch hne)⟩
      cases hd with
      | response hstore hnew hroute hresp => exact absurd (Node.mem_outList.mpr hroute) (h n hn)
  | data clk f d => exact h.elim
  | removeFace f => exact h.elim
  | cleanUp now => exact h.elim
  | addLinkFace mac dev => exact h.elim

instance (em : Emulator) (e : Event) :
    Decidable (((system mode lib).restrict Calm).Enabled em e) :=
  inferInstanceAs (Decidable (em.Enabled e ∧ em.CalmNode (em.nodeEvent e)))

def floodInterest : Interest := ⟨[[1]], 7, 4000, false, 40⟩

/-- A client of the second node asks for something, the first node hears it and
forwards it, and the second node drops what comes back. -/
def floodRun : List (Event × Output) :=
  let wn0 : DeviceRef := ⟨"n0", "wn0"⟩
  let wn1 : DeviceRef := ⟨"n1", "wn1"⟩
  let run : Event := .run 0 (Clock.still 0) (fun _ => 0) (fun _ => false)
  [(.accept "n1", .quiet),
   (.appReceive "n1" 2 (Clock.still 0) (fun _ => 0) (.packet (.interest floodInterest)),
     .forward "n1" (.interest floodInterest [1])),
   (.timer wn1 .csmaExpire, .device wn1 .quiet),
   (.timer wn1 (.doCsma 0), .device wn1 (.transmit ⟨0, .interest floodInterest⟩)),
   (run, .quiet), (.tick 41, .quiet),
   (.timer wn1 .csmaExpire, .device wn1 .quiet),
   (.timer wn1 (.doCsma 0), .device wn1 (.finished ⟨0, .interest floodInterest⟩)),
   (.timer wn0 .rxExpire, .device wn0 .quiet),
   (.timer wn0 .postRx, .device wn0 (.received ⟨0, .interest floodInterest⟩)),
   (run, .forward "n0" (.interest floodInterest [1])),
   (.timer wn0 .csmaExpire, .device wn0 .quiet),
   (.timer wn0 (.doCsma 0), .device wn0 (.transmit ⟨1, .interest floodInterest⟩)),
   (run, .quiet), (.tick 41, .quiet),
   (.timer wn1 .rxExpire, .device wn1 .quiet),
   (.timer wn1 .postRx, .device wn1 (.received ⟨1, .interest floodInterest⟩)),
   (run, .quiet)]

theorem interest_floods_end_pair : ∃ em tr em', readNetworkConfig pairConfig = .ok em ∧
    tr.map (fun x => (x.1, x.2.2)) = floodRun ∧
    (undisturbed .late Node.noCommands [[1]] 7).watched.Run em.start tr em' ∧
    (∀ id, total (forwarded [[1]] 7 id) tr ≤ 1) ∧
    total (launched [[1]] 7) tr ≤ total (injected [[1]] 7) tr + em.start.underway [[1]] 7 +
      total (outFanOut [[1]] 7) tr := by
  obtain ⟨em, hc, em', hrun⟩ : ∃ em, readNetworkConfig pairConfig = .ok em ∧
      ∃ em', ((system .late Node.noCommands).restrict Calm).Run em.start floodRun em' :=
    ⟨_, rfl, _, run_of_exec (show ((system .late Node.noCommands).restrict Calm).exec _
      (floodRun.map (·.1)) = some (floodRun, _) from rfl)⟩
  have hquiet : (undisturbed .late Node.noCommands [[1]] 7).Run em.start floodRun em' :=
    hrun.mono_restrict fun _ _ h => h.undisturbed
  obtain ⟨tr, hwatched, htr⟩ := hquiet.watch
  obtain ⟨hforward, hlaunch⟩ :=
    (interest_floods_end .late Node.noCommands [[1]] 7 em.start).1 tr em' hwatched
  exact ⟨em, tr, em', hc, htr, hwatched, hforward, hlaunch⟩

end Emulator

end NdnEm
