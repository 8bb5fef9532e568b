import NdnEm.Proofs.TxAirtime
import NdnEm.Proofs.TxQueue

/-!
# The budget of a packet for channel access

The packet at the head of the queue assesses the channel until it is clear. A
busy channel costs it a longer backoff, and one time too many its place. NB and
BE, which keep the account, travel as arguments of the csma wait; there is one
csma timer, and `StartTx` arms it for every packet it accepts, with NB and BE
at their start. A packet accepted behind a head that has met a busy channel
gives that head a new budget.

So the account is kept in the runs where packets are accepted only while NB is
0, and the run at the end shows a packet that is given up after six busy
assessments, where there may be five.
-/

namespace NdnEm

open Lib LinkDevice

namespace Timed

variable {l : Link} {s s' s₁ s₂ : Timed} {e : DeviceEvent} {o : DeviceOut}
  {tr : List (DeviceEvent × DeviceOut)} {p : Packet}

/-- The head of the queue is sent or given up, and leaves. -/
def leaves : DeviceOut → Bool
  | .finished _ | .gaveUp _ => true
  | .quiet | .enqueued _ | .received _ | .transmit _ => false

/-- The event is a call of `DoCsma` that looks at the channel: one that does
not end a transmission. -/
def assesses : DeviceEvent × DeviceOut → Bool
  | (.timer (.doCsma _), o) | (.timer (.doCsmaLate _ _), o) =>
      match o with
      | .finished _ => false
      | _ => true
  | _ => false

/-- It finds the channel busy. -/
def busy (x : DeviceEvent × DeviceOut) : Bool :=
  assesses x && match x.2 with
    | .transmit _ => false
    | _ => true

/-- The event draws a backoff, and that is the raw draw. -/
def Draws (x : DeviceEvent × DeviceOut) (raw : Nat) : Prop :=
  (∃ q, x = (.startTx q raw, .enqueued q)) ∨
    (x.1 = .timer (.doCsma raw) ∧ ∀ q, x.2 ≠ .transmit q)

section Property

variable (l : Link) (s : Timed)

/-- With the last of these events, `p` became the head of the queue: it was put
into an empty one, or the head before it left. -/
def BecameHead (p : Packet) (before : List (DeviceEvent × DeviceOut)) : Prop :=
  ∃ b x s₀ s₁, before = b ++ [x] ∧ (ideal l).Run s b s₀ ∧ (ideal l).Run s before s₁ ∧
    s₁.dev.txQueue.head? = some p ∧ (s₀.dev.txQueue = [] ∨ leaves x.2 = true)

/-- What a packet may count on, from the moment it becomes the head of the
queue: `mid` is what has happened since, and it has not left. -/
structure AccessBudget (tr : List (DeviceEvent × DeviceOut)) : Prop where
  /-- It has found the channel busy no more often than is allowed without
  consequence. -/
  within : ∀ p before mid after, tr = before ++ (mid ++ after) → BecameHead l s p before →
    (∀ x ∈ mid, leaves x.2 = false) → (mid.countP busy : Int) ≤ maxCsmaBackoffs
  /-- It is given up exactly at the busy assessment after those. -/
  last : ∀ p before mid x after, tr = before ++ (mid ++ x :: after) → BecameHead l s p before →
    (∀ x ∈ mid, leaves x.2 = false) → busy x = true →
      (x.2 = .gaveUp p ↔ (mid.countP busy : Int) + 1 = maxCsmaBackoffs + 1)
  /-- The backoff that ends with an assessment is the last that was drawn, from
  a range that grows with the busy assessments before it. -/
  drawn : ∀ p before mid x after, tr = before ++ (mid ++ x :: after) → BecameHead l s p before →
    (∀ x ∈ mid, leaves x.2 = false) → assesses x = true →
      ∃ a y b raw, before ++ mid = a ++ y :: b ∧ Draws y raw ∧ (∀ z ∈ b, ∀ r, ¬ Draws z r) ∧
        elapsed b = backoff raw (min (minBE + mid.countP busy) maxBE)

end Property

/-- A packet is accepted only while the csma wait, if there is one, carries no
count of busy assessments. -/
def Uninterrupting (l : Link) (s : Timed) : DeviceEvent → Prop
  | .startTx p raw =>
      (s.dev.startTx .ideal l s.now raw p).isSome → ∀ w ∈ s.dev.csmaTimer.wait, w.args.1 ≤ 0
  | .startRx _ | .timer _ | .tick _ => True

/-- The runs in which no head is given a new budget. -/
def uninterrupted (l : Link) : System Timed DeviceEvent DeviceOut Fault :=
  (ideal l).restrict (Uninterrupting l)

/-! ## The account -/

/-- How often the channel was found busy since a packet left the queue. -/
def met (tr : List (DeviceEvent × DeviceOut)) : Nat :=
  tr.foldl (fun k x => if leaves x.2 then 0 else if busy x then k + 1 else k) 0

theorem met_snoc (tr : List (DeviceEvent × DeviceOut)) (x : DeviceEvent × DeviceOut) :
    met (tr ++ [x]) = if leaves x.2 then 0 else if busy x then met tr + 1 else met tr := by
  rw [met, List.foldl_append]
  rfl

theorem met_append {mid : List (DeviceEvent × DeviceOut)} (h : ∀ x ∈ mid, leaves x.2 = false) :
    met (tr ++ mid) = met tr + mid.countP busy := by
  induction mid using List.reverseRecOn with
  | nil => simp
  | append_singleton mid x ih =>
      have hx : leaves x.2 = false := h x (by simp)
      rw [← List.append_assoc, met_snoc, ih fun y hy => h y (by simp [hy]), hx,
        if_neg Bool.false_ne_true, List.countP_append, List.countP_singleton]
      split <;> omega

/-- The csma wait is where it was: it may be queued meanwhile. -/
structure CsmaKept (d d' : LinkDevice) : Prop where
  queue : d'.txQueue = d.txQueue
  sending : d'.state = .tx ↔ d.state = .tx
  wait : ∀ w ∈ d.csmaTimer.wait,
    ∃ w' ∈ d'.csmaTimer.wait, w'.expiry = w.expiry ∧ w'.args = w.args

/-- The events that leave the csma wait where it is. -/
def Idles (x : DeviceEvent × DeviceOut) : Prop :=
  leaves x.2 = false ∧ assesses x = false ∧ ∀ raw, ¬ Draws x raw

/-- A step accepts a packet, or handles the csma wait, or leaves it alone. -/
theorem csma_cases (hs : Ideal s) (he : s.Enabled e) (h : s.step .ideal l e = .ok (s', o)) :
    (∃ q raw, e = .startTx q raw ∧ o = .enqueued q ∧ s'.now = s.now ∧
      (s.dev.startTx .ideal l s.now raw q).isSome ∧ s'.dev = { s.dev with
        txQueue := s.dev.txQueue ++ [q]
        csmaTimer := s.dev.csmaTimer.arm .ideal (s.now + backoff raw minBE) (0, minBE) }) ∨
    (∃ raw nb be w, e = .timer (.doCsma raw) ∧ s'.now = s.now ∧
      s.dev.csmaTimer.wait = some w ∧ w.args = (nb, be) ∧ w.expiry ≤ s.now ∧
      doCsma .ideal l s.now raw { s.dev with csmaTimer := s.dev.csmaTimer.take } nb be =
        .ok (s'.dev, o)) ∨
    (CsmaKept s.dev s'.dev ∧ Idles (e, o)) := by
  have hsame : ∀ d : LinkDevice, CsmaKept d d := fun d =>
    ⟨rfl, Iff.rfl, fun w hw => ⟨w, hw, rfl, rfl⟩⟩
  cases e with
  | startTx q raw =>
      rcases step_startTx h with ⟨d, hd, rfl, rfl⟩ | ⟨_, rfl, rfl⟩
      · exact .inl ⟨q, raw, rfl, rfl, rfl, by rw [hd]; rfl, (startTx_cases hd).2.2⟩
      · exact .inr (.inr ⟨hsame _, rfl, rfl, by simp [Draws]⟩)
  | startRx q =>
      obtain ⟨hrx, _, rfl⟩ := step_startRx h
      refine .inr (.inr ⟨?_, rfl, rfl, by simp [Draws]⟩)
      rcases startRx_cases hrx with ⟨_, hd⟩ | ⟨hst, st, hrx', _, hd⟩
      · exact hd ▸ hsame _
      · rw [hd]
        refine ⟨rfl, iff_of_false ?_ ?_, fun w hw => ⟨w, hw, rfl, rfl⟩⟩
        · rcases hrx' with hrx' | hrx' <;> simp [hrx']
        · rcases hst with hidle | hhear
          · simp [hidle]
          · exact hhear.ne_tx
  | tick n =>
      obtain ⟨rfl, rfl⟩ := Prod.mk.inj (Except.ok.inj h)
      exact .inr (.inr ⟨hsame _, rfl, rfl, by simp [Draws]⟩)
  | timer u =>
      obtain ⟨hnow, hcase⟩ := hs.timer_cases he h
      rcases hcase with ⟨rfl, _, hd, rfl⟩ | ⟨rfl, _, hd, rfl⟩ | ⟨rfl, _, hpost⟩ |
        ⟨raw, nb, be, rfl, ⟨w, hw, hargs, hdue⟩, hcsma⟩
      · rw [hd]
        exact .inr (.inr ⟨⟨rfl, Iff.rfl, fun w hw => ⟨w, hw, rfl, rfl⟩⟩, rfl, rfl, by simp [Draws]⟩)
      · rw [hd]
        refine .inr (.inr ⟨⟨rfl, Iff.rfl, ?_⟩, rfl, rfl, by simp [Draws]⟩)
        intro w hw
        exact ⟨_, Timer.wait_expire hw, rfl, rfl⟩
      · obtain ⟨hd, hout⟩ := postRx_cases hpost
        rw [hd]
        refine .inr (.inr ⟨⟨rfl, iff_of_false (by simp) ?_, fun w hw => ⟨w, hw, rfl, rfl⟩⟩, ?_⟩)
        · rcases hout with ⟨hst, _⟩ | ⟨hst | hst, _⟩
          · simp [show s.dev.state = .rx from hst]
          · simp [show s.dev.state = .rxCollide from hst]
          · simp [show s.dev.state = .idle from hst]
        · rcases hout with ⟨_, q, _, rfl⟩ | ⟨_, rfl⟩ <;> exact ⟨rfl, rfl, by simp [Draws]⟩
      · exact .inr (.inl ⟨raw, nb, be, w, rfl, hnow, hw, hargs, hdue, hcsma⟩)

/-- The wait that expires then is for a backoff that was drawn last, as the
`k + 1`-st of its packet. -/
def Drawn (tr : List (DeviceEvent × DeviceOut)) (now expiry : Int) (k : Nat) : Prop :=
  ∃ a y b raw, tr = a ++ y :: b ∧ Draws y raw ∧ (∀ z ∈ b, ∀ r, ¬ Draws z r) ∧
    expiry = now - elapsed b + backoff raw (min (minBE + k) maxBE)

theorem Drawn.idle {now expiry : Int} {k : Nat} {x : DeviceEvent × DeviceOut}
    (h : Drawn tr now expiry k) (hx : Idles x) :
    Drawn (tr ++ [x]) (now + x.1.duration) expiry k := by
  obtain ⟨a, y, b, raw, rfl, hy, hb, hexp⟩ := h
  refine ⟨a, y, b ++ [x], raw, by simp, hy, ?_, ?_⟩
  · intro z hz
    rcases List.mem_append.mp hz with hz | hz
    · exact hb z hz
    · rw [List.mem_singleton.mp hz]
      exact hx.2.2
  · rw [elapsed_append, elapsed_cons, elapsed_nil]
    omega

theorem drawn_last {now : Int} {k raw : Nat} {x : DeviceEvent × DeviceOut} (hx : Draws x raw) :
    Drawn (tr ++ [x]) now (now + backoff raw (min (minBE + k) maxBE)) k :=
  ⟨tr, x, [], raw, rfl, hx, by simp, by simp⟩

theorem backoff_nonneg (raw : Nat) (be : Int) : 0 ≤ backoff raw be := by
  have hperiod : backoffPeriod = 320 := rfl
  rw [backoff, hperiod]
  omega

/-- What the csma wait knows of the packet it is for: NB is the account of its
busy assessments, and BE follows from it. -/
structure Account (tr : List (DeviceEvent × DeviceOut)) (s : Timed) : Prop where
  within : (met tr : Int) ≤ maxCsmaBackoffs
  nobody : s.dev.txQueue = [] → met tr = 0
  wait : s.dev.txQueue ≠ [] → s.dev.state ≠ .tx → ∃ w, s.dev.csmaTimer.wait = some w ∧
    w.args = ((met tr : Int), min (minBE + met tr) maxBE) ∧ s.now ≤ w.expiry ∧
    Drawn tr s.now w.expiry (met tr)

/-- A step that draws a backoff, and arms the csma timer with it and with the
account, if it leaves the device waiting. -/
theorem Account.of_draw {x : DeviceEvent × DeviceOut} {raw k : Nat} (hmet : met (tr ++ [x]) = k)
    (hwithin : (k : Int) ≤ maxCsmaBackoffs) (hnobody : s'.dev.txQueue = [] → k = 0)
    (hdraws : Draws x raw)
    (harmed : s'.dev.txQueue ≠ [] → s'.dev.state ≠ .tx → s'.dev.csmaTimer.wait =
      some ⟨s'.now + backoff raw (min (minBE + k) maxBE), ((k : Int), min (minBE + k) maxBE),
        false⟩) : Account (tr ++ [x]) s' := by
  subst hmet
  refine ⟨hwithin, hnobody, ?_⟩
  intro hq hst
  refine ⟨_, harmed hq hst, rfl, ?_, drawn_last hdraws⟩
  have hpos := backoff_nonneg raw (min (minBE + met (tr ++ [x])) maxBE)
  show s'.now ≤ s'.now + backoff raw (min (minBE + met (tr ++ [x])) maxBE)
  omega

/-- The next packet starts with an empty account. -/
theorem account_next {d : LinkDevice} {x : DeviceEvent × DeviceOut} {raw : Nat}
    (hx : leaves x.2 = true) (hdraws : Draws x raw)
    (hd : s'.dev = serveNext .ideal s.now raw d) (hnow : s'.now = s.now) :
    Account (tr ++ [x]) s' := by
  have hmet : met (tr ++ [x]) = 0 := by rw [met_snoc, hx, if_pos rfl]
  refine .of_draw hmet (by decide) (fun _ => rfl) hdraws ?_
  intro hq _
  rw [hd, serveNext_txQueue] at hq
  have hserve : serveNext .ideal s.now raw d = startCsma .ideal s.now raw d := by
    rw [serveNext, if_pos (by simpa using hq)]
  rw [hd, hnow, hserve]
  rfl

/-- The wait has run out, and `DoCsma` does what the account says. -/
theorem account_csma {raw : Nat} {nb be : Int} (hacc : Account tr s)
    (hargs : s.dev.txQueue ≠ [] → s.dev.state ≠ .tx →
      nb = met tr ∧ be = min (minBE + met tr) maxBE)
    (hnow : s'.now = s.now)
    (h : doCsma .ideal l s.now raw { s.dev with csmaTimer := s.dev.csmaTimer.take } nb be =
      .ok (s'.dev, o)) : Account (tr ++ [(.timer (.doCsma raw), o)]) s' := by
  have hwithin := hacc.within
  obtain ⟨q, rest, hq, hcase⟩ := doCsma_cases h
  have hqueue : s.dev.txQueue = q :: rest := hq
  have hne : s.dev.txQueue ≠ [] := by simp [hqueue]
  rcases hcase with ⟨_, rfl, hd⟩ | ⟨hhear, hle, rfl, hd⟩ | ⟨_, _, rfl, hd⟩ | ⟨_, rfl, hd⟩
  · have hmet : met (tr ++ [(.timer (.doCsma raw), .transmit q)]) = met tr := by
      rw [met_snoc]
      rfl
    refine ⟨hmet ▸ hwithin, ?_, ?_⟩
    · intro hnil
      rw [hd] at hnil
      exact absurd hnil hne
    · intro _ hst
      rw [hd] at hst
      exact absurd rfl hst
  · have hst : s.dev.state ≠ .tx := hhear.ne_tx
    obtain ⟨rfl, rfl⟩ := hargs hne hst
    have hmet : met (tr ++ [(.timer (.doCsma raw), .quiet)]) = met tr + 1 := by
      rw [met_snoc]
      rfl
    have hnext : nextBE (min (minBE + met tr) maxBE) = min (minBE + (met tr + 1 : Nat)) maxBE := by
      unfold nextBE minBE maxBE
      split <;> omega
    refine .of_draw hmet hle ?_ (.inr ⟨rfl, by simp⟩) ?_
    · intro hnil
      rw [hd] at hnil
      exact absurd hnil hne
    · intro _ _
      rw [hd, hnow, ← hnext]
      rfl
  · exact account_next rfl (.inr ⟨rfl, by simp⟩) hd hnow
  · exact account_next rfl (.inr ⟨rfl, by simp⟩) hd hnow

theorem account_step (hs : Ideal s) (hacc : Account tr s) (he : (uninterrupted l).Enabled s e)
    (h : s.step .ideal l e = .ok (s', o)) : Account (tr ++ [(e, o)]) s' := by
  have hwithin := hacc.within
  rcases csma_cases hs he.1.1 h with ⟨q, raw, rfl, rfl, hnow, hroom, hd⟩ |
    ⟨raw, nb, be, w, rfl, hnow, hw, hargs, _, hcsma⟩ | ⟨hkept, hidle⟩
  · have hmet : met (tr ++ [(.startTx q raw, .enqueued q)]) = met tr := by
      rw [met_snoc]
      rfl
    refine .of_draw hmet hwithin ?_ (.inl ⟨q, rfl⟩) ?_
    · intro hnil
      simp [hd] at hnil
    · intro _ hst
      rw [hd] at hst
      -- a head that was there before has met no busy channel
      have hzero : met tr = 0 := by
        by_cases hnil : s.dev.txQueue = []
        · exact hacc.nobody hnil
        · obtain ⟨w, hw, hargs, _⟩ := hacc.wait hnil hst
          have hnb := he.2 hroom w hw
          rw [hargs] at hnb
          omega
      rw [hd, hnow, hzero]
      rfl
  · refine account_csma hacc ?_ hnow hcsma
    intro hne hst
    obtain ⟨w', hw', hargs', _⟩ := hacc.wait hne hst
    obtain rfl : w = w' := Option.some.inj (hw.symm.trans hw')
    obtain ⟨hnb, hbe⟩ := Prod.mk.inj (hargs.symm.trans hargs')
    exact ⟨hnb, hbe⟩
  · have hnotbusy : busy (e, o) = false := by rw [busy, hidle.2.1, Bool.false_and]
    have hmet : met (tr ++ [(e, o)]) = met tr := by
      rw [met_snoc, hidle.1, hnotbusy]
      rfl
    refine ⟨hmet ▸ hwithin, ?_, ?_⟩
    · intro hnil
      rw [hmet]
      exact hacc.nobody (hkept.queue ▸ hnil)
    · intro hne hst
      obtain ⟨w, hw, hargs, hle, hdrawn⟩ :=
        hacc.wait (hkept.queue ▸ hne) fun htx => hst (hkept.sending.mpr htx)
      obtain ⟨w', hw', hexp, hsame⟩ := hkept.wait w hw
      refine ⟨w', hw', ?_, ?_, ?_⟩
      · rw [hsame, hmet, hargs]
      · rw [hexp]
        refine now_le_of_step hle ?_ h
        rintro n rfl
        exact he.1.2.2 w hw
      · rw [hmet, hexp, now_of_step h]
        exact hdrawn.idle hidle

theorem account_run (hnew : s.dev.Fresh) (h : (uninterrupted l).Run s tr s') :
    Ideal s' ∧ Account tr s' := by
  induction h with
  | nil =>
      refine ⟨ideal_of_fresh hnew, by decide, fun _ => rfl, ?_⟩
      intro hne
      exact absurd hnew.2.1 hne
  | snoc _ he hstep ih =>
      obtain ⟨hs, hacc⟩ := ih
      exact ⟨ideal_step hs he.1.1 hstep, account_step hs hacc he hstep⟩

/-! ## The head of the queue -/

/-- While nobody leaves, the head is the same. -/
theorem head_run {mid : List (DeviceEvent × DeviceOut)} (hnew : s.dev.Fresh)
    (h₁ : (ideal l).Run s tr s₁) (h₂ : (ideal l).Run s₁ mid s₂)
    (hstays : ∀ x ∈ mid, leaves x.2 = false) (hhead : s₁.dev.txQueue.head? = some p) :
    s₂.dev.txQueue.head? = some p := by
  induction h₂ with
  | nil => exact hhead
  | @snoc a b mid e o hmid _ hstep ih =>
      have ha := ih fun x hx => hstays x (by simp [hx])
      have ho : leaves o = false := hstays (e, o) (by simp)
      have hlen := (run_line hnew (h₁.append hmid).of_restrict).2.1
      refine (step_line hstep hlen).1.head_stays ?_ ha
      intro q
      cases o with
      | finished r => cases ho
      | gaveUp r => cases ho
      | quiet => exact ⟨nofun, nofun⟩
      | enqueued r => exact ⟨nofun, nofun⟩
      | received r => exact ⟨nofun, nofun⟩
      | transmit r => exact ⟨nofun, nofun⟩

/-- A packet that became the head has an empty account. -/
theorem met_becameHead {before : List (DeviceEvent × DeviceOut)} (hnew : s.dev.Fresh)
    (h : (uninterrupted l).Run s before s₁) (hhead : BecameHead l s p before) :
    met before = 0 ∧ s₁.dev.txQueue.head? = some p := by
  obtain ⟨b, ⟨e, o⟩, s₀, a, rfl, h₀, ha, hp, hwhy⟩ := hhead
  obtain rfl : a = s₁ := ha.deterministic h.of_restrict
  refine ⟨?_, hp⟩
  rw [met_snoc]
  rcases hwhy with hnil | hleft
  · obtain ⟨c, hc, he, hstep⟩ := h.snoc_inv
    obtain rfl : c = s₀ := hc.of_restrict.deterministic h₀
    obtain ⟨hs, hacc⟩ := account_run hnew hc
    have hbusy : busy (e, o) = false := by
      rcases csma_cases hs he.1.1 hstep with ⟨q, raw, rfl, rfl, _⟩ |
        ⟨raw, nb, be, w, _, _, _, _, _, hcsma⟩ | ⟨_, hidle⟩
      · rfl
      · obtain ⟨q, rest, hq, _⟩ := doCsma_cases hcsma
        have hqueue : c.dev.txQueue = q :: rest := hq
        rw [hnil] at hqueue
        cases hqueue
      · rw [busy, hidle.2.1, Bool.false_and]
    rw [hbusy, hacc.nobody hnil]
    split <;> rfl
  · exact if_pos hleft

/-- The account of a packet is of its own assessments. -/
theorem account_attempt {before mid after : List (DeviceEvent × DeviceOut)} (hnew : s.dev.Fresh)
    (h : (uninterrupted l).Run s tr s') (htr : tr = before ++ (mid ++ after))
    (hhead : BecameHead l s p before) (hstays : ∀ x ∈ mid, leaves x.2 = false) :
    ∃ s₂, (uninterrupted l).Run s₂ after s' ∧ Ideal s₂ ∧ Account (before ++ mid) s₂ ∧
      met (before ++ mid) = mid.countP busy ∧ s₂.dev.txQueue.head? = some p := by
  rw [htr] at h
  obtain ⟨s₁, h₁, hrest⟩ := h.split
  obtain ⟨s₂, h₂, hafter⟩ := hrest.split
  obtain ⟨hzero, hp⟩ := met_becameHead hnew h₁ hhead
  obtain ⟨hs₂, hacc⟩ := account_run hnew (h₁.append h₂)
  refine ⟨s₂, hafter, hs₂, hacc, ?_, head_run hnew h₁.of_restrict h₂.of_restrict hstays hp⟩
  rw [met_append hstays, hzero, Nat.zero_add]

/-- An assessment is the handler of a wait that has run out, in its time. -/
theorem assessment_cases {x : DeviceEvent × DeviceOut} (hs : Ideal s) (hacc : Account tr s)
    (he : s.Enabled x.1) (h : s.step .ideal l x.1 = .ok (s', x.2)) (hx : assesses x = true) :
    ∃ q, s.dev.txQueue.head? = some q ∧ Drawn tr s.now s.now (met tr) ∧
      (x.2 = .transmit q ∨ (x.2 = .quiet ∧ (met tr : Int) + 1 ≤ maxCsmaBackoffs) ∨
        (x.2 = .gaveUp q ∧ maxCsmaBackoffs < (met tr : Int) + 1)) := by
  obtain ⟨e, o⟩ := x
  rcases csma_cases hs he h with ⟨q, raw, rfl, rfl, _⟩ |
    ⟨raw, nb, be, w, rfl, _, hw, hargs, hdue, hcsma⟩ | ⟨_, hidle⟩
  · cases hx
  · obtain ⟨q, rest, hq, hcase⟩ := doCsma_cases hcsma
    have hqueue : s.dev.txQueue = q :: rest := hq
    have hwait : s.dev.state ≠ .tx → nb = met tr ∧ Drawn tr s.now s.now (met tr) := by
      intro hst
      obtain ⟨w', hw', hargs', hle, hdrawn⟩ := hacc.wait (by simp [hqueue]) hst
      obtain rfl : w = w' := Option.some.inj (hw.symm.trans hw')
      have hexp : w.expiry = s.now := by omega
      exact ⟨(Prod.mk.inj (hargs.symm.trans hargs')).1, hexp ▸ hdrawn⟩
    refine ⟨q, by rw [hqueue]; rfl, ?_⟩
    rcases hcase with ⟨hst, rfl, _⟩ | ⟨hst, hle, rfl, _⟩ | ⟨hst, hlt, rfl, _⟩ | ⟨_, rfl, _⟩
    · have hidle : s.dev.state = .idle := hst
      exact ⟨(hwait (by simp [hidle])).2, .inl rfl⟩
    · obtain ⟨rfl, hdrawn⟩ := hwait (Hearing.ne_tx (d := s.dev) hst)
      exact ⟨hdrawn, .inr (.inl ⟨rfl, hle⟩)⟩
    · obtain ⟨rfl, hdrawn⟩ := hwait (Hearing.ne_tx (d := s.dev) hst)
      exact ⟨hdrawn, .inr (.inr ⟨rfl, hlt⟩)⟩
    · cases hx
  · rw [hidle.2.1] at hx
    cases hx

/-- **The budget of a packet for channel access** is kept in every run in which
no packet is accepted behind one that has met a busy channel. -/
theorem channel_access_budget (hnew : s.dev.Fresh) (h : (uninterrupted l).Run s tr s') :
    AccessBudget l s tr where
  within p before mid after htr hhead hstays := by
    obtain ⟨s₂, _, _, hacc, hmet, _⟩ := account_attempt hnew h htr hhead hstays
    exact hmet ▸ hacc.within
  last p before mid x after htr hhead hstays hbusy := by
    obtain ⟨s₂, hafter, hs₂, hacc, hmet, hp⟩ := account_attempt hnew h htr hhead hstays
    obtain ⟨s₃, he, hstep, _⟩ := hafter.cons_inv
    have hwithin := hacc.within
    rw [busy, Bool.and_eq_true] at hbusy
    obtain ⟨q, hq, _, hcase⟩ := assessment_cases hs₂ hacc he.1.1 hstep hbusy.1
    obtain rfl : p = q := Option.some.inj (hp.symm.trans hq)
    rcases hcase with ho | ⟨ho, hle⟩ | ⟨ho, hlt⟩
    · rw [ho] at hbusy
      cases hbusy.2
    · rw [ho]
      refine iff_of_false nofun ?_
      omega
    · refine iff_of_true ho ?_
      omega
  drawn p before mid x after htr hhead hstays hx := by
    obtain ⟨s₂, hafter, hs₂, hacc, hmet, _⟩ := account_attempt hnew h htr hhead hstays
    obtain ⟨s₃, he, hstep, _⟩ := hafter.cons_inv
    obtain ⟨q, _, ⟨a, y, b, raw, hsplit, hy, hb, hexp⟩, _⟩ :=
      assessment_cases hs₂ hacc he.1.1 hstep hx
    refine ⟨a, y, b, raw, hsplit, hy, hb, ?_⟩
    rw [hmet] at hexp
    omega

instance (l : Link) (s : Timed) (e : DeviceEvent) : Decidable (Uninterrupting l s e) :=
  match e with
  | .startTx _ _ => inferInstanceAs (Decidable (_ → _))
  | .startRx _ | .timer _ | .tick _ => isTrue trivial

instance (l : Link) (s : Timed) (e : DeviceEvent) : Decidable ((uninterrupted l).Enabled s e) :=
  inferInstanceAs (Decidable ((ideal l).Enabled s e ∧ Uninterrupting l s e))

/-- The channel is busy at the first assessment and clear at the second, after
a backoff of one period; another packet is accepted before the first. -/
def patientRun : List (DeviceEvent × DeviceOut) :=
  [(.startRx (sample 0 100), .quiet), (.startTx (sample 1 40) 0, .enqueued (sample 1 40)),
   (.startTx (sample 2 60) 0, .enqueued (sample 2 60)), (.timer .csmaExpire, .quiet),
   (.timer (.doCsma 1), .quiet), (.tick 101, .quiet), (.timer .rxExpire, .quiet),
   (.timer .postRx, .received (sample 0 100)), (.tick 219, .quiet),
   (.timer .csmaExpire, .quiet), (.timer (.doCsma 0), .transmit (sample 1 40))]

theorem channel_access_budget_patient : ∃ s,
    (uninterrupted slowLink).Run ⟨slowDevice, 0⟩ patientRun s ∧
    AccessBudget slowLink ⟨slowDevice, 0⟩ patientRun := by
  obtain ⟨s, hs⟩ : ∃ s, (uninterrupted slowLink).Run ⟨slowDevice, 0⟩ patientRun s :=
    ⟨_, System.run_of_exec (show (uninterrupted slowLink).exec ⟨slowDevice, 0⟩
      (patientRun.map (·.1)) = some (patientRun, _) from rfl)⟩
  exact ⟨s, hs, channel_access_budget slowDevice_fresh hs⟩

/-- A packet is accepted behind a head that has met a busy channel once, and
the head is given up at its sixth busy assessment. -/
def renewedRun : List (DeviceEvent × DeviceOut) :=
  [(.startRx (sample 0 1000), .quiet), (.startTx (sample 1 40) 0, .enqueued (sample 1 40)),
   (.timer .csmaExpire, .quiet), (.timer (.doCsma 0), .quiet),
   (.startTx (sample 2 60) 0, .enqueued (sample 2 60)),
   (.timer .csmaExpire, .quiet), (.timer (.doCsma 0), .quiet),
   (.timer .csmaExpire, .quiet), (.timer (.doCsma 0), .quiet),
   (.timer .csmaExpire, .quiet), (.timer (.doCsma 0), .quiet),
   (.timer .csmaExpire, .quiet), (.timer (.doCsma 0), .quiet),
   (.timer .csmaExpire, .quiet), (.timer (.doCsma 0), .gaveUp (sample 1 40))]

theorem budget_renewed :
    (∃ s, (ideal slowLink).Run ⟨slowDevice, 0⟩ renewedRun s) ∧
    renewedRun.countP busy = 6 ∧ ¬ AccessBudget slowLink ⟨slowDevice, 0⟩ renewedRun := by
  refine ⟨⟨_, System.run_of_exec (show (ideal slowLink).exec ⟨slowDevice, 0⟩
    (renewedRun.map (·.1)) = some (renewedRun, _) from rfl)⟩, by decide, ?_⟩
  intro h
  have hhead : BecameHead slowLink ⟨slowDevice, 0⟩ (sample 1 40) (renewedRun.take 2) :=
    ⟨renewedRun.take 1, (.startTx (sample 1 40) 0, .enqueued (sample 1 40)), _, _, rfl,
      System.run_of_exec (show (ideal slowLink).exec ⟨slowDevice, 0⟩
        ((renewedRun.take 1).map (·.1)) = some (renewedRun.take 1, _) from rfl),
      System.run_of_exec (show (ideal slowLink).exec ⟨slowDevice, 0⟩
        ((renewedRun.take 2).map (·.1)) = some (renewedRun.take 2, _) from rfl), rfl, .inl rfl⟩
  have hwithin := h.within (sample 1 40) (renewedRun.take 2) ((renewedRun.drop 2).take 11)
    (renewedRun.drop 13) rfl hhead (by decide)
  revert hwithin
  decide

end Timed

end NdnEm
