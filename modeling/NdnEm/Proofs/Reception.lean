import NdnEm.Lib.Past
import NdnEm.Proofs.CarrierSense

/-!
# What is received, exactly

A device that hears a packet while it is idle receives it when its airtime is
over, unless it hears another before. Whatever else the device hears it does
not receive: not a packet that came in during a reception, not the one it came
in on, and not one that came while the device was transmitting. This is all of
it, for any traffic: no condition is put on how packets overlap.
-/

namespace NdnEm

open Lib LinkDevice

namespace Timed

variable {l : Link} {s s' s₀ s₁ : Timed} {e : DeviceEvent} {o : DeviceOut}
  {tr mid : List (DeviceEvent × DeviceOut)} {p : Packet}

/-- Nothing is heard in these events, and nothing received. -/
def Silent (tr : List (DeviceEvent × DeviceOut)) : Prop :=
  ∀ x ∈ tr, ∀ q, x.1 ≠ .startRx q ∧ x.2 ≠ .received q

theorem silent_snoc (h : Silent tr) (he : ∀ q, e ≠ .startRx q) (ho : ∀ q, o ≠ .received q) :
    Silent (tr ++ [(e, o)]) := by
  intro x hx q
  rcases List.mem_append.mp hx with hx | hx
  · exact h x hx q
  · rw [List.mem_singleton.mp hx]
    exact ⟨he q, ho q⟩

/-- The device is idle after these events. -/
def IdleAfter (l : Link) (s : Timed) (before : List (DeviceEvent × DeviceOut)) : Prop :=
  ∃ s₀, (ideal l).Run s before s₀ ∧ s₀.dev.state = .idle

/-- What becomes of a packet that is heard, by what follows. -/
inductive Fate (l : Link) (p : Packet) (rest : List (DeviceEvent × DeviceOut)) : Prop
  /-- It is received when its airtime is over. -/
  | received (mid after : List (DeviceEvent × DeviceOut)) (e : DeviceEvent)
      (split : rest = mid ++ (e, .received p) :: after) (silent : Silent mid)
      (airtime : elapsed mid = l.txDelay p.getLength)
  /-- Another packet is heard by then. -/
  | collided (mid after : List (DeviceEvent × DeviceOut)) (q : Packet) (o : DeviceOut)
      (split : rest = mid ++ (.startRx q, o) :: after) (silent : Silent mid)
      (airtime : elapsed mid ≤ l.txDelay p.getLength)
  /-- Its airtime has not been over for any time. -/
  | pending (silent : Silent rest) (airtime : elapsed rest ≤ l.txDelay p.getLength)

/-- What a device receives of what it hears. -/
structure ReceivesExactly (l : Link) (s : Timed) (tr : List (DeviceEvent × DeviceOut)) : Prop where
  /-- What is heard by an idle device meets one of three fates. -/
  heard : ∀ before p o rest, tr = before ++ (.startRx p, o) :: rest → IdleAfter l s before →
    Fate l p rest
  /-- Only what is heard by an idle device is received, and only if its airtime
  has been silent. -/
  received : ∀ before e p after, tr = before ++ (e, .received p) :: after →
    ∃ b₁ o b₂, before = b₁ ++ (.startRx p, o) :: b₂ ∧ IdleAfter l s b₁ ∧ Silent b₂ ∧
      elapsed b₂ = l.txDelay p.getLength

/-- The reception of `p` goes on since `s₀`, and is not disturbed. -/
structure Receiving (l : Link) (s₀ : Timed) (p : Packet) (mid : List (DeviceEvent × DeviceOut))
    (s : Timed) : Prop where
  ideal : Ideal s
  now : s.now = s₀.now + elapsed mid
  silent : Silent mid
  state : s.dev.state = .rx
  pending : s.dev.pendingRx = some p
  wait : ∃ w, s.dev.rxTimer.wait = some w ∧ w.expiry = s₀.now + l.txDelay p.getLength ∧
    s.now ≤ w.expiry

theorem receiving_start (hs : Ideal s) (hidle : s.dev.state = .idle)
    (hdelay : 0 ≤ l.txDelay p.getLength) (h : s.step .ideal l (.startRx p) = .ok (s', o)) :
    Receiving l s' p [] s' := by
  have hen : s.Enabled (.startRx p) := trivial
  obtain ⟨hf, hnow, _⟩ := step_startRx h
  rcases startRx_cases hf with ⟨htx, _⟩ | ⟨_, st, _, hst, hd⟩
  · cases hidle.symm.trans htx
  · refine ⟨ideal_step hs hen h, by simp, by simp [Silent], ?_, ?_, ⟨_, (), false⟩, ?_, rfl, ?_⟩
    · rw [hd]
      exact hst.mpr hidle
    · rw [hd]
    · rw [hd, hnow]
      rfl
    · show s'.now ≤ s'.now + l.txDelay p.getLength
      omega

theorem receiving_step (h : Receiving l s₀ p mid s) (he : (ideal l).Enabled s e)
    (hstep : s.step .ideal l e = .ok (s', o)) :
    ((∃ q, e = .startRx q) ∨ (o = .received p ∧ s.now = s₀.now + l.txDelay p.getLength)) ∨
      Receiving l s₀ p (mid ++ [(e, o)]) s' := by
  obtain ⟨w, hw, hexp, hle⟩ := h.wait
  have hen : s.Enabled e := he.1
  rcases hearing_step h.ideal (.inl h.state) hen hstep with ⟨q, hq⟩ | ⟨rfl, w', hw', hdue⟩ |
    ⟨hkept, hout⟩
  · exact .inl (.inl ⟨q, hq⟩)
  · obtain rfl : w = w' := Option.some.inj (hw.symm.trans hw')
    obtain ⟨_, hcase⟩ := postRx_cases (step_timer hstep).1
    rcases hcase with ⟨_, q, hq, ho⟩ | ⟨hst | hst, _⟩
    · obtain rfl : p = q := Option.some.inj (h.pending.symm.trans hq)
      exact .inl (.inr ⟨ho, by omega⟩)
    · cases h.state.symm.trans hst
    · cases h.state.symm.trans hst
  · obtain ⟨w', hw', hsame⟩ := hkept.wait w hw
    by_cases hrx : ∃ q, e = .startRx q
    · exact .inl (.inl hrx)
    · refine .inr ⟨ideal_step h.ideal hen hstep, ?_, ?_, hkept.state.trans h.state,
        hkept.pending.trans h.pending, w', hw', hsame.trans hexp, ?_⟩
      · rw [now_of_step hstep, h.now]
        simp only [elapsed_append, elapsed_cons, elapsed_nil]
        omega
      · exact silent_snoc h.silent (not_exists.mp hrx) fun q => (hout q).1
      · rw [hsame]
        exact now_le_expiry hw hle he hstep

/-- What an idle device hears meets its fate. -/
theorem fate_of_heard {before rest : List (DeviceEvent × DeviceOut)} (hs : Ideal s)
    (hdelay : ∀ n, 0 ≤ l.txDelay n) (hidle : IdleAfter l s before)
    (h : (ideal l).Run s (before ++ (.startRx p, o) :: rest) s') : Fate l p rest := by
  obtain ⟨a, hbefore, hst⟩ := hidle
  obtain ⟨b, hb, hfrom⟩ := h.split
  obtain rfl := hb.deterministic hbefore
  obtain ⟨s₁, _, hstep, hrest⟩ := hfrom.cons_inv
  have hstart := receiving_start (ideal_run hs hbefore).1 hst (hdelay _) hstep
  rcases hrest.until (J := Receiving l s₁ p)
    (D := fun m s₂ e o => Receiving l s₁ p m s₂ ∧
      ((∃ q, e = .startRx q) ∨ (o = .received p ∧ s₂.now = s₁.now + l.txDelay p.getLength)))
    (fun m s₂ e s₃ o _ hJ he hstep => (receiving_step hJ he hstep).imp (fun hd => ⟨hJ, hd⟩) id)
    hstart with hJ | ⟨m, e, o', after, s₂, rfl, _, hJ, hdone⟩
  · obtain ⟨w, _, hexp, hle⟩ := hJ.wait
    have hnow := hJ.now
    exact .pending hJ.silent (by omega)
  · obtain ⟨w, _, hexp, hle⟩ := hJ.wait
    have hnow := hJ.now
    rcases hdone with ⟨q, rfl⟩ | ⟨rfl, hend⟩
    · exact .collided m after q o' rfl hJ.silent (by omega)
    · exact .received m after e rfl hJ.silent (by omega)

/-- A device in RX receives what it heard last, and heard while it was idle. -/
def Attends (l : Link) (s : Timed) (tr : List (DeviceEvent × DeviceOut)) (s' : Timed) : Prop :=
  s'.dev.state = .rx → ∃ b₁ p o b₂ s₁, tr = b₁ ++ (.startRx p, o) :: b₂ ∧ IdleAfter l s b₁ ∧
    Receiving l s₁ p b₂ s'

theorem attends_run (hnew : s.dev.Fresh) (hdelay : ∀ n, 0 ≤ l.txDelay n)
    (h : (ideal l).Run s tr s') : Attends l s tr s' := by
  refine h.invariant_past (J := Attends l s) ?_ ?_
  · intro tr a e b o hrun ih he hstep hrx
    have hs := (ideal_run (ideal_of_fresh hnew) hrun).1
    have hstep' : a.step .ideal l e = .ok (b, o) := hstep
    by_cases hne : ∃ p, e = .startRx p
    · obtain ⟨p, rfl⟩ := hne
      have hidle : a.dev.state = .idle := by
        rcases startRx_cases (step_startRx hstep').1 with ⟨htx, hd⟩ | ⟨_, st, _, hst, hd⟩
        · rw [hd, htx] at hrx
          cases hrx
        · rw [hd] at hrx
          exact hst.mp hrx
      exact ⟨tr, p, o, [], b, rfl, ⟨a, hrun, hidle⟩,
        receiving_start hs hidle (hdelay _) hstep'⟩
    · have hrx₁ := rx_of_step (not_exists.mp hne) hstep' hrx
      obtain ⟨b₁, p, o₁, b₂, s₁, rfl, hidle, hrec⟩ := ih hrx₁
      rcases receiving_step hrec he hstep' with (hq | ⟨rfl, _⟩) | hrec'
      · exact absurd hq hne
      · have hen : a.Enabled e := he.1
        obtain ⟨hst, _⟩ := received_cases hs hen hstep'
        rcases hearing_step hs (.inl hst) hen hstep' with hq | ⟨rfl, _⟩ | ⟨_, hout⟩
        · exact absurd hq hne
        · rw [(postRx_cases (step_timer hstep').1).1] at hrx
          cases hrx
        · exact absurd rfl (hout p).1
      · exact ⟨b₁, p, o₁, b₂ ++ [(e, o)], s₁, by simp, hidle, hrec'⟩
  · intro hrx
    rw [hnew.1] at hrx
    cases hrx

/-- **What is received, exactly.** With ideal timers, in every run of a device
and for any traffic, a packet is received if and only if it was heard by an
idle device and nothing else was heard until its airtime was over; and it is
received just then. -/
theorem receives_exactly (hnew : s.dev.Fresh) (hdelay : ∀ n, 0 ≤ l.txDelay n)
    (h : (ideal l).Run s tr s') : ReceivesExactly l s tr where
  heard before p o rest htr hidle := by
    rw [htr] at h
    exact fate_of_heard (ideal_of_fresh hnew) hdelay hidle h
  received before e p after htr := by
    rw [htr] at h
    obtain ⟨a, hbefore, hfrom⟩ := h.split
    obtain ⟨b, he, hstep, _⟩ := hfrom.cons_inv
    have hs := (ideal_run (ideal_of_fresh hnew) hbefore).1
    have hen : a.Enabled e := he.1
    obtain ⟨hrx, hpend, w, hw, hdue⟩ := received_cases hs hen hstep
    obtain ⟨b₁, q, o, b₂, s₁, rfl, hidle, hrec⟩ := attends_run hnew hdelay hbefore hrx
    obtain rfl : q = p := Option.some.inj (hrec.pending.symm.trans hpend)
    obtain ⟨w', hw', hexp, hle⟩ := hrec.wait
    obtain rfl : w = w' := Option.some.inj (hw.symm.trans hw')
    have hnow := hrec.now
    exact ⟨b₁, o, b₂, rfl, hidle, hrec.silent, by omega⟩

theorem receives_exactly_collision : ∃ s,
    (ideal slowLink).Run ⟨slowDevice, 0⟩ collisionRun s ∧
    ReceivesExactly slowLink ⟨slowDevice, 0⟩ collisionRun := by
  obtain ⟨s, hs⟩ : ∃ s, (ideal slowLink).Run ⟨slowDevice, 0⟩ collisionRun s :=
    ⟨_, System.run_of_exec (show (ideal slowLink).exec ⟨slowDevice, 0⟩
      (collisionRun.map (·.1)) = some (collisionRun, _) from rfl)⟩
  exact ⟨s, hs, receives_exactly slowDevice_fresh (fun n => (slowLink_delay n).le) hs⟩

end Timed

end NdnEm
