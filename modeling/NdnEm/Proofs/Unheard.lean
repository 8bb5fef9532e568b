import Mathlib.Algebra.BigOperators.Group.Finset.Piecewise
import Mathlib.Algebra.Order.BigOperators.Group.Finset
import NdnEm.Proofs.Delivery

/-!
# What nobody hears

A node that forwards an Interest sends it to everybody that its routes name. By
the schedule of this file it is lost on all of them: one device after another
sends what it has queued, until each that was idle before has nothing to do
again.

How long that takes is a sum. Each face that a packet is sent on adds the
packet's time on the air to one device's backlog, and a device has done with its
backlog when it has waited for that long.
-/

namespace NdnEm

open Lib

namespace Emulator

variable {mode : Rearm} {lib : NdnCxx} {wall : Int → Int} {draws : Draws} {P : Event → Prop}
  {em em' : Emulator} {ref : DeviceRef} {d : LinkDevice} {l : Link} {p : Packet}

theorem setDevice_self (hd : em.deviceTable.find ref = some d) : em.setDevice ref d = em := by
  unfold setDevice
  rw [FinMap.insert_of_find hd]

theorem later_zero (em : Emulator) : em.later 0 = em := by
  unfold later
  rw [Int.natCast_zero, Int.add_zero]

theorem later_later (em : Emulator) (m n : Nat) : (em.later m).later n = em.later (m + n) := by
  unfold later
  rw [Int.natCast_add, Int.add_assoc]

theorem transmit_none {ids : List String} : transmit mode l (fun _ => true) p em ids = .ok em := by
  rw [transmit_eq, Bool.not_true, List.filter_false]
  rfl

/-- A posted transmission is lost on all. -/
theorem run_lost {hs : List Posted} {link a : String}
    (hposted : em.posted = hs ++ [.transmit link a p]) (hl : em.linkTable.find link = some l)
    (hallow : draws.Allow link l a fun _ => true) :
    ∃ tr, (works mode lib wall draws P).Run em tr { em with posted := hs } := by
  refine ⟨[(.run hs.length (Clock.still (wall em.now)) (fun _ => 0) fun _ => true, .quiet)],
    .single (works_run (lt_last hposted) (drawn_last hposted hl hallow)) ?_⟩
  show em.step mode lib (.run _ _ _ _) = _
  simp only [step, get_last hposted, erase_last hposted, runPosted, hl, transmit_none]
  rfl

/-! ## The backlog of a device -/

variable {faceTable : FinMap Int Face} {pkt : Packet} {faces : List Int} {s : Finset DeviceRef}

/-- The time that a packet of that size is on the air on the device's link. -/
def airtime (em : Emulator) (ref : DeviceRef) (size : Nat) : Nat :=
  match em.attached ref with
  | .ok (_, l) => l.airtime size
  | .error _ => 0

/-- The time that a packet of that size is on the air for a face. -/
def faceAirtime (em : Emulator) (faceTable : FinMap Int Face) (size : Nat) (g : Int) : Nat :=
  match faceTable.find g with
  | some (.link _ ref) => em.airtime ref size
  | some .app | none => 0

/-- The time that the packets in the device's queue will be on the air. -/
def backlog (em : Emulator) (ref : DeviceRef) : Nat :=
  match em.attached ref with
  | .ok (d, l) => (d.txQueue.map fun p => l.airtime p.getLength).sum
  | .error _ => 0

theorem backlog_of_attached (hat : em.attached ref = .ok (d, l)) :
    em.backlog ref = (d.txQueue.map fun p => l.airtime p.getLength).sum := by
  rw [backlog, hat]

theorem airtime_of_attached (hat : em.attached ref = .ok (d, l)) (size : Nat) :
    em.airtime ref size = l.airtime size := by
  rw [airtime, hat]

/-- The time on the air is the same as long as the device is, or there is none. -/
theorem airtime_congr (hl : em'.linkTable = em.linkTable)
    (hd : ∀ d, em.deviceTable.find ref = some d →
      ∃ d', em'.deviceTable.find ref = some d' ∧ d.Alike d')
    (hnone : em.deviceTable.find ref = none → em'.deviceTable.find ref = none) (size : Nat) :
    em'.airtime ref size = em.airtime ref size := by
  unfold airtime attached
  rw [hl]
  cases hfind : em.deviceTable.find ref with
  | none => rw [hnone hfind]
  | some d =>
      obtain ⟨d', hd', halike⟩ := hd d hfind
      rw [hd']
      simp only [halike.link]
      cases em.linkTable.find d.link <;> rfl

theorem backlog_of_rests (hd : em.deviceTable.find ref = some d) (h : d.Rests) :
    em.backlog ref = 0 := by
  unfold backlog
  split
  · next d' l hat =>
      obtain rfl := Option.some.inj (hd.symm.trans (attached_cases hat).1)
      rw [h.queue]
      rfl
  · rfl

theorem attached_congr (hd : em'.deviceTable.find ref = em.deviceTable.find ref)
    (hl : em'.linkTable = em.linkTable) : em'.attached ref = em.attached ref := by
  unfold attached
  rw [hd, hl]

theorem backlog_congr (hd : em'.deviceTable.find ref = em.deviceTable.find ref)
    (hl : em'.linkTable = em.linkTable) : em'.backlog ref = em.backlog ref := by
  rw [backlog, backlog, attached_congr hd hl]

/-- A device that is ready sends all it has queued, to nobody, and rests. -/
theorem run_drain_device (hd : em.deviceTable.find ref = some d)
    (hl : em.linkTable.find d.link = some l) (h : d.Ready em.now)
    (hallow : d.txQueue ≠ [] → draws.Allow d.link l ref.node fun _ => true) :
    ∃ tr d',
      (works mode lib wall draws P).Run em tr ((em.later (em.backlog ref)).setDevice ref d') ∧
      d'.Rests ∧ d.Alike d' := by
  rw [backlog_of_attached (attached_of_find hd hl)]
  generalize hq : d.txQueue = queue
  induction queue generalizing em d with
  | nil =>
      refine ⟨[], d, ?_, ⟨h.state, hq⟩, .refl d⟩
      rw [List.map_nil, List.sum_nil, later_zero, setDevice_self hd]
      exact .nil em
  | cons p rest ih =>
      have hlost := hallow (by rw [hq]; exact List.cons_ne_nil p rest)
      obtain ⟨tr₁, d₁, hrun₁, hsends, halike₁⟩ :=
        @run_contends mode lib wall draws P em ref d l p rest hd hl (h.contends hq)
      obtain ⟨tr₂, hrun₂⟩ := @run_lost mode lib wall draws P
        ((em.setDevice ref d₁).post (.transmit d.link ref.node p)) l p em.posted _ _ rfl hl hlost
      have hrun₃ := @run_tick mode lib wall draws P (em.setDevice ref d₁) (l.airtime p.getLength)
      have hd₁ : ((em.setDevice ref d₁).later (l.airtime p.getLength)).deviceTable.find ref =
          some d₁ := FinMap.find_insert_self _ _ _
      have hl₁ : em.linkTable.find d₁.link = some l := by rw [halike₁.link]; exact hl
      obtain ⟨tr₄, d₂, hrun₄, hready, hq₂, halike₂⟩ := @run_sends mode lib wall draws P
        ((em.setDevice ref d₁).later (l.airtime p.getLength)) ref d₁ l p rest _ hd₁ hl₁ hsends
        (Int.add_le_add_left (l.le_airtime _) em.now)
      have hl₂ : em.linkTable.find d₂.link = some l := by rw [halike₂.link]; exact hl₁
      obtain ⟨tr₅, d₃, hrun₅, hrests, halike₃⟩ := @ih
        (((em.setDevice ref d₁).later (l.airtime p.getLength)).setDevice ref d₂) d₂
        (FinMap.find_insert_self _ _ _) hl₂ hready
        (fun _ => by rw [halike₂.link, halike₁.link]; exact hlost) hq₂
      have hend : ((((em.setDevice ref d₁).later (l.airtime p.getLength)).setDevice ref d₂).later
          (rest.map fun p => l.airtime p.getLength).sum).setDevice ref d₃ =
          (em.later ((p :: rest).map fun p => l.airtime p.getLength).sum).setDevice ref d₃ := by
        rw [List.map_cons, List.sum_cons, ← later_later]
        show (((em.later _).later _).setDevice ref d₁ |>.setDevice ref d₂).setDevice ref d₃ = _
        rw [setDevice_setDevice, setDevice_setDevice]
      rw [hend] at hrun₅
      exact ⟨_, d₃, (((hrun₁.append hrun₂).append hrun₃).append hrun₄).append hrun₅, hrests,
        (halike₁.trans halike₂).trans halike₃⟩

/-- The devices of a set have sent all they had. -/
structure Drained (em em' : Emulator) (s : Finset DeviceRef) : Prop where
  nodes : em'.nodeTable = em.nodeTable
  links : em'.linkTable = em.linkTable
  posted : em'.posted = em.posted
  now : em'.now = em.now + (s.sum em.backlog : Nat)
  inside : ∀ ref ∈ s, ∀ d, em.deviceTable.find ref = some d → ∃ d',
    em'.deviceTable.find ref = some d' ∧ d'.Rests ∧ d.Alike d'
  outside : ∀ ref, ref ∉ s → em'.deviceTable.find ref = em.deviceTable.find ref

/-- Devices that are ready send all they have queued, one after another. -/
theorem run_drain (hready : ∀ ref ∈ s, ∃ d l, em.deviceTable.find ref = some d ∧
      em.linkTable.find d.link = some l ∧ d.Ready em.now ∧
      (d.txQueue ≠ [] → draws.Allow d.link l ref.node fun _ => true)) :
    ∃ tr em', (works mode lib wall draws P).Run em tr em' ∧ em.Drained em' s := by
  induction s using Finset.induction_on with
  | empty =>
      refine ⟨[], em, .nil em, rfl, rfl, rfl, ?_, by simp, fun _ _ => rfl⟩
      rw [Finset.sum_empty, Int.natCast_zero, Int.add_zero]
  | insert r s hr ih =>
      obtain ⟨tr, em₁, hrun, hdrained⟩ :=
        ih fun ref href => hready ref (Finset.mem_insert_of_mem href)
      obtain ⟨d, l, hd, hl, h, hallow⟩ := hready r (Finset.mem_insert_self r s)
      have hd₁ : em₁.deviceTable.find r = some d := (hdrained.outside r hr).trans hd
      have hle : em.now ≤ em₁.now := by
        rw [hdrained.now]
        omega
      obtain ⟨tr', d', hrun', hrests, halike⟩ := @run_drain_device mode lib wall draws P em₁ r d l
        hd₁ (by rw [hdrained.links]; exact hl) (h.mono hle) hallow
      refine ⟨_, _, hrun.append hrun', hdrained.nodes, hdrained.links, hdrained.posted, ?_, ?_, ?_⟩
      · have hsum : (insert r s).sum em.backlog = em.backlog r + s.sum em.backlog :=
          Finset.sum_insert hr
        rw [hsum, ← backlog_congr (hdrained.outside r hr) hdrained.links]
        show em₁.now + _ = _
        rw [hdrained.now]
        omega
      · intro ref href d₀ hd₀
        by_cases hrr : ref = r
        · subst hrr
          obtain rfl := Option.some.inj (hd.symm.trans hd₀)
          exact ⟨d', FinMap.find_insert_self _ _ _, hrests, halike⟩
        · obtain ⟨d₁, hd₁, hrests₁, halike₁⟩ :=
            hdrained.inside ref ((Finset.mem_insert.mp href).resolve_left hrr) d₀ hd₀
          exact ⟨d₁, (FinMap.find_insert_ne hrr).trans hd₁, hrests₁, halike₁⟩
      · intro ref href
        rw [Finset.mem_insert, not_or] at href
        exact (FinMap.find_insert_ne href.1).trans (hdrained.outside ref href.2)

/-! ## What sending adds -/

/-- Devices may have been given packets to send, with no backoff. -/
structure Loaded (em em' : Emulator) : Prop where
  only : em.OnlyDevices em'
  now : em'.now = em.now
  devices : ∀ ref d, em.deviceTable.find ref = some d → ∃ d', em'.deviceTable.find ref = some d' ∧
    d.Alike d' ∧ (d.Ready em.now → d'.Ready em.now)
  absent : ∀ ref, em.deviceTable.find ref = none → em'.deviceTable.find ref = none

theorem Loaded.refl (em : Emulator) : em.Loaded em :=
  ⟨⟨rfl, rfl, rfl, rfl⟩, rfl, fun _ d hd => ⟨d, hd, .refl d, id⟩, fun _ h => h⟩

theorem Loaded.trans {em₁ em₂ : Emulator} (h : em.Loaded em₁) (h' : em₁.Loaded em₂) :
    em.Loaded em₂ := by
  refine ⟨h.only.trans h'.only, h'.now.trans h.now, ?_,
    fun ref hn => h'.absent ref (h.absent ref hn)⟩
  intro ref d hd
  obtain ⟨d₁, hd₁, halike₁, hready₁⟩ := h.devices ref d hd
  obtain ⟨d₂, hd₂, halike₂, hready₂⟩ := h'.devices ref d₁ hd₁
  refine ⟨d₂, hd₂, halike₁.trans halike₂, ?_⟩
  intro hready
  rw [h.now] at hready₂
  exact hready₂ (hready₁ hready)

theorem Loaded.airtime (h : em.Loaded em') (ref : DeviceRef) (size : Nat) :
    em'.airtime ref size = em.airtime ref size := by
  refine airtime_congr h.only.links ?_ (h.absent ref) size
  intro d hd
  obtain ⟨d', hd', halike, _⟩ := h.devices ref d hd
  exact ⟨d', hd', halike⟩

/-- A packet that is sent on a face takes its time on the air of one device. -/
theorem send_loads {face : Face} (h : em.send mode 0 pkt face = .ok em') :
    em.Loaded em' ∧ ∀ r, em'.backlog r ≤ em.backlog r +
      match face with
      | .app => 0
      | .link _ ref => if r = ref then em.airtime ref pkt.getLength else 0 := by
  cases face with
  | app =>
      obtain rfl := Except.ok.inj h
      exact ⟨.refl em, fun r => Nat.le_refl _⟩
  | link mac ref =>
      have hquiet : em.Loaded (em.setDst pkt mac) :=
        ⟨⟨rfl, rfl, rfl, rfl⟩, rfl, fun _ d hd => ⟨d, hd, .refl d, id⟩, fun _ h => h⟩
      obtain rfl | ⟨d, l, d', hd, hl, htx, rfl⟩ := startTx_cases h
      · exact ⟨hquiet, fun r => Nat.le_add_right _ _⟩
      · have halike : d.Alike d' := by
          obtain ⟨_, _, rfl⟩ := LinkDevice.startTx_cases htx
          exact ⟨rfl, rfl, rfl⟩
        refine ⟨hquiet.trans ⟨⟨rfl, rfl, rfl, rfl⟩, rfl, ?_, ?_⟩, ?_⟩
        · intro r d₀ hd₀
          by_cases hr : r = ref
          · subst hr
            obtain rfl := Option.some.inj (hd.symm.trans hd₀)
            exact ⟨d', FinMap.find_insert_self _ _ _, halike, fun hready => (hready.startTx htx).1⟩
          · exact ⟨d₀, (FinMap.find_insert_ne hr).trans hd₀, .refl d₀, id⟩
        · intro r hnone
          refine (FinMap.find_insert_ne ?_).trans hnone
          intro hr
          cases (hr ▸ hnone).symm.trans hd
        · intro r
          dsimp only
          split
          · next hr =>
              subst hr
              have hat : em.attached r = .ok (d, l) := attached_of_find hd hl
              have hat' : (((em.setDst pkt mac).setSrc pkt d.macAddr).setDevice r d').attached r =
                  .ok (d', l) :=
                attached_of_find (FinMap.find_insert_self _ _ _) (by rw [halike.link]; exact hl)
              obtain ⟨_, _, rfl⟩ := LinkDevice.startTx_cases htx
              rw [backlog_of_attached hat, backlog_of_attached hat', airtime_of_attached hat,
                List.map_append, List.sum_append]
              exact Nat.le_refl _
          · next hr =>
              have hsame : (((em.setDst pkt mac).setSrc pkt d.macAddr).setDevice ref d').backlog r =
                  em.backlog r := backlog_congr (FinMap.find_insert_ne hr) rfl
              exact Nat.le_of_eq hsame

/-- A device that is behind none of the faces is given nothing. -/
theorem sendTo_others {raw : Int → Nat} (h : sendTo mode faceTable raw pkt em faces = .ok em')
    (hout : ∀ k ∈ faces, ∀ mac, faceTable.find k ≠ some (.link mac ref)) :
    em'.deviceTable.find ref = em.deviceTable.find ref := by
  induction faces generalizing em with
  | nil =>
      obtain rfl := Except.ok.inj h
      rfl
  | cons g gs ih =>
      have hrest : ∀ k ∈ gs, ∀ mac, faceTable.find k ≠ some (.link mac ref) :=
        fun k hk => hout k (List.mem_cons_of_mem g hk)
      rw [sendTo] at h
      split at h
      · exact ih h hrest
      · next face hg =>
          split at h
          · cases h
          · next em₁ hs =>
              refine (ih h hrest).trans ?_
              cases face with
              | app =>
                  obtain rfl := Except.ok.inj hs
                  rfl
              | link mac r =>
                  have hr : ref ≠ r := by
                    intro heq
                    subst heq
                    exact hout g List.mem_cons_self mac hg
                  obtain rfl | ⟨d, l, d', _, _, _, rfl⟩ := startTx_cases hs
                  · rfl
                  · exact FinMap.find_insert_ne hr

/-- A packet that is sent on some faces takes its time on the air for each. -/
theorem sendTo_loads (h : sendTo mode faceTable (fun _ => 0) pkt em faces = .ok em')
    (s : Finset DeviceRef) :
    em.Loaded em' ∧ s.sum em'.backlog ≤
      s.sum em.backlog + (faces.map (em.faceAirtime faceTable pkt.getLength)).sum := by
  induction faces generalizing em with
  | nil =>
      obtain rfl := Except.ok.inj h
      exact ⟨.refl em, Nat.le_refl _⟩
  | cons g gs ih =>
      rw [sendTo] at h
      rw [List.map_cons, List.sum_cons]
      split at h
      · obtain ⟨hload, hle⟩ := ih h
        exact ⟨hload, by omega⟩
      · next face hg =>
          split at h
          · cases h
          · next em₁ hs =>
              obtain ⟨hload, hadd⟩ := send_loads hs
              obtain ⟨hload', hle⟩ := ih h
              have hsame : gs.map (em₁.faceAirtime faceTable pkt.getLength) =
                  gs.map (em.faceAirtime faceTable pkt.getLength) := by
                refine List.map_congr_left fun k _ => ?_
                unfold faceAirtime
                split
                · exact hload.airtime _ _
                · rfl
                · rfl
              have hone : s.sum em₁.backlog ≤
                  s.sum em.backlog + em.faceAirtime faceTable pkt.getLength g := by
                refine (Finset.sum_le_sum fun r _ => hadd r).trans ?_
                rw [Finset.sum_add_distrib, faceAirtime, hg]
                refine Nat.add_le_add_left ?_ _
                cases face with
                | app => simp
                | link mac ref =>
                    dsimp only
                    rw [Finset.sum_ite_eq']
                    split
                    · exact Nat.le_refl _
                    · exact Nat.zero_le _
              rw [hsame] at hle
              exact ⟨hload.trans hload', by omega⟩

end Emulator

end NdnEm
