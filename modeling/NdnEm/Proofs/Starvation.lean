import NdnEm.Lib.Past
import NdnEm.Proofs.ChannelAccess

/-!
# No packet waits forever

A packet that is accepted behind a head that has met a busy channel gives the
head a new budget, so a head may assess the channel more often than it is
allowed. How often is bounded all the same: only a packet that is accepted
renews the budget, and the queue has room for so many.

The proof keeps a date. It is the expiry of the csma wait, plus the longest
wait there is for every time the handler may yet have to run before the packet
leaves. A handler that runs is paid for out of these; so is a packet that is
accepted, whose wait begins anew. The date never moves back, and the clock
never passes the expiry.
-/

namespace NdnEm

open Lib LinkDevice

namespace Timed

variable {l : Link} {s s' s₀ : Timed} {e : DeviceEvent} {o : DeviceOut}
  {tr : List (DeviceEvent × DeviceOut)} {p : Packet} {t : Int} {ahead : Nat}

/-- No wait of the csma timer is longer: neither a backoff nor an airtime. -/
structure LongestWait (l : Link) (t : Int) : Prop where
  backoff : (2 ^ maxBE.toNat - 1) * backoffPeriod ≤ t
  airtime : ∀ n ≤ l.mtu, 0 ≤ l.txDelay n ∧ l.txDelay n ≤ t

/-- How often the csma handler runs for one head, at most, when no packet is
accepted meanwhile: each backoff ends in an assessment, the last of them may
start the transmission, and that ends. -/
def turns : Int := maxCsmaBackoffs + 2

theorem backoff_le {raw : Nat} {be : Int} (h : be ≤ maxBE) :
    backoff raw be ≤ (2 ^ maxBE.toNat - 1) * backoffPeriod := by
  have hexp : be.toNat ≤ maxBE.toNat := Int.toNat_le_toNat h
  have hpow : 2 ^ be.toNat ≤ 2 ^ maxBE.toNat := Nat.pow_le_pow_right (by decide) hexp
  have hmod : raw % 2 ^ be.toNat < 2 ^ be.toNat := Nat.mod_lt _ (Nat.two_pow_pos _)
  have hmax : 2 ^ maxBE.toNat = 32 := rfl
  have hmaxInt : (2 : Int) ^ maxBE.toNat = 32 := rfl
  have hperiod : backoffPeriod = 320 := rfl
  rw [backoff, hperiod, hmaxInt]
  omega

theorem nextBE_le {be : Int} : nextBE be ≤ maxBE := by
  unfold nextBE
  split <;> omega

/-- What the csma wait is for: a packet of the queue is short enough for the
link, and a wait that is no transmission carries NB and BE. -/
structure Orderly (l : Link) (s : Timed) : Prop where
  short : ∀ q ∈ s.dev.txQueue, q.getLength ≤ l.mtu
  room : s.dev.txQueue.length ≤ s.dev.txQueueLimit
  ahead : ∀ w ∈ s.dev.csmaTimer.wait, s.now ≤ w.expiry
  args : s.dev.state ≠ .tx → ∀ w ∈ s.dev.csmaTimer.wait,
    0 ≤ w.args.1 ∧ w.args.1 ≤ maxCsmaBackoffs

theorem orderly_of_fresh (h : s.dev.Fresh) : Orderly l s := by
  obtain ⟨_, hq, _, hcsma⟩ := h
  refine ⟨?_, ?_, ?_, ?_⟩
  · rw [hq]
    simp
  · rw [hq]
    exact Nat.zero_le _
  · rw [hcsma]
    simp
  · rw [hcsma]
    simp

/-- The wait for a first backoff. -/
theorem first_backoff {raw : Nat} {w : Wait (Int × Int)} {now : Int}
    (h : some w = some ⟨now + backoff raw minBE, (0, minBE), false⟩) :
    now ≤ w.expiry ∧ 0 ≤ w.args.1 ∧ w.args.1 ≤ maxCsmaBackoffs := by
  obtain rfl := Option.some.inj h
  have hpos := backoff_nonneg raw minBE
  have hmax : (0 : Int) ≤ maxCsmaBackoffs := by decide
  refine ⟨?_, Int.le_refl 0, hmax⟩
  show now ≤ now + backoff raw minBE
  omega

theorem serveNext_wait {d : LinkDevice} {raw : Nat} {now : Int} {w : Wait (Int × Int)}
    (hd : d.csmaTimer.wait = none) (h : (serveNext .ideal now raw d).csmaTimer.wait = some w) :
    some w = some ⟨now + backoff raw minBE, (0, minBE), false⟩ := by
  unfold serveNext at h
  split at h
  · exact h.symm
  · cases hd.symm.trans h

theorem Orderly.doCsma {raw : Nat} {nb be : Int} (h : Orderly l s) (ht : LongestWait l t)
    (hnb : s.dev.state ≠ .tx → 0 ≤ nb) (hnow : s'.now = s.now)
    (hs : doCsma .ideal l s.now raw { s.dev with csmaTimer := s.dev.csmaTimer.take } nb be =
      .ok (s'.dev, o)) : Orderly l s' := by
  obtain ⟨q, rest, hq, hcase⟩ := doCsma_cases hs
  have hqueue : s.dev.txQueue = q :: rest := hq
  have hroom := h.room
  have hlen : rest.length ≤ s.dev.txQueueLimit := by
    rw [hqueue, List.length_cons] at hroom
    omega
  have hshort : ∀ r ∈ rest, r.getLength ≤ l.mtu := fun r hr =>
    h.short r (hqueue ▸ List.mem_cons_of_mem q hr)
  -- the head is gone, and the next packet waits for its first backoff
  have hserve : ∀ d : LinkDevice, s'.dev = serveNext .ideal s.now raw d →
      d.csmaTimer.wait = none → d.txQueue = rest → d.txQueueLimit = s.dev.txQueueLimit →
      Orderly l s' := by
    intro d hd hnone hrest hlimit
    have hfirst : ∀ w ∈ s'.dev.csmaTimer.wait, s.now ≤ w.expiry ∧ 0 ≤ w.args.1 ∧
        w.args.1 ≤ maxCsmaBackoffs := by
      intro w hw
      rw [hd] at hw
      exact first_backoff (serveNext_wait hnone hw)
    refine ⟨?_, ?_, ?_, fun _ w hw => (hfirst w hw).2⟩
    · rw [hd, serveNext_txQueue, hrest]
      exact hshort
    · rw [hd, serveNext_txQueue, serveNext_limit, hrest, hlimit]
      exact hlen
    · rw [hnow]
      exact fun w hw => (hfirst w hw).1
  rcases hcase with ⟨_, rfl, hd⟩ | ⟨hhear, hle, rfl, hd⟩ | ⟨_, _, rfl, hd⟩ | ⟨_, rfl, hd⟩
  · refine ⟨hd ▸ h.short, hd ▸ h.room, ?_, ?_⟩
    · intro w hw
      rw [hd] at hw
      obtain rfl := Option.some.inj hw
      have hair := (ht.airtime q.getLength (h.short q (by simp [hqueue]))).1
      rw [hnow]
      show s.now ≤ s.now + l.txDelay q.getLength
      omega
    · intro hst
      rw [hd] at hst
      exact absurd rfl hst
  · have hne : s.dev.state ≠ .tx := hhear.ne_tx
    refine ⟨hd ▸ h.short, hd ▸ h.room, ?_, ?_⟩
    · intro w hw
      rw [hd] at hw
      obtain rfl := Option.some.inj hw
      have hpos := backoff_nonneg raw (nextBE be)
      rw [hnow]
      show s.now ≤ s.now + backoff raw (nextBE be)
      omega
    · intro _ w hw
      rw [hd] at hw
      obtain rfl := Option.some.inj hw
      have hpos := hnb hne
      refine ⟨?_, hle⟩
      show 0 ≤ nb + 1
      omega
  · exact hserve _ hd rfl rfl rfl
  · exact hserve _ hd rfl rfl rfl

theorem orderly_step (hs : Ideal s) (h : Orderly l s) (ht : LongestWait l t)
    (he : (ideal l).Enabled s e) (hstep : s.step .ideal l e = .ok (s', o)) : Orderly l s' := by
  have hline := step_line hstep h.room
  have hroom : s'.dev.txQueue.length ≤ s'.dev.txQueueLimit := hline.2.2 ▸ hline.2.1
  rcases csma_cases hs he.1 hstep with ⟨q, raw, rfl, rfl, hnow, hsome, hd⟩ |
    ⟨raw, nb, be, w, rfl, hnow, hw, hargs, _, hcsma⟩ | ⟨hkept, _⟩
  · obtain ⟨d, hacc⟩ := Option.isSome_iff_exists.mp hsome
    have hfirst : ∀ w ∈ s'.dev.csmaTimer.wait, s.now ≤ w.expiry ∧ 0 ≤ w.args.1 ∧
        w.args.1 ≤ maxCsmaBackoffs := by
      intro w hw
      rw [hd] at hw
      exact first_backoff hw.symm
    refine ⟨?_, hroom, ?_, fun _ w hw => (hfirst w hw).2⟩
    · intro r hr
      rw [hd] at hr
      rcases List.mem_append.mp hr with hr | hr
      · exact h.short r hr
      · rw [List.mem_singleton.mp hr]
        exact (startTx_cases hacc).1
    · rw [hnow]
      exact fun w hw => (hfirst w hw).1
  · refine h.doCsma ht ?_ hnow hcsma
    intro hst
    have hnb := (h.args hst w hw).1
    rwa [hargs] at hnb
  · have hs' := ideal_step hs he.1 hstep
    -- a wait that is there now was there before
    have hold : ∀ w' ∈ s'.dev.csmaTimer.wait, ∃ w ∈ s.dev.csmaTimer.wait,
        w'.expiry = w.expiry ∧ w'.args = w.args := by
      intro w' hw'
      have harmed : s'.dev.csmaTimer.Armed := Timer.armed_iff.mpr ⟨w', hw'⟩
      have hne := hs'.agree.csma_cause harmed
      rw [hkept.queue] at hne
      obtain ⟨w, hw⟩ := Timer.armed_iff.mp (hs.agree.serves hne)
      obtain ⟨w₁, hw₁, hsame⟩ := hkept.wait w hw
      obtain rfl := Option.mem_unique hw' hw₁
      exact ⟨w, hw, hsame⟩
    refine ⟨hkept.queue ▸ h.short, hroom, ?_, ?_⟩
    · intro w' hw'
      obtain ⟨w, hw, hexp, _⟩ := hold w' hw'
      rw [hexp]
      refine now_le_of_step (h.ahead w hw) ?_ hstep
      rintro n rfl
      exact he.2.2 w hw
    · intro hst w' hw'
      obtain ⟨w, hw, _, hargs⟩ := hold w' hw'
      rw [hargs]
      exact h.args (fun htx => hst (hkept.sending.mpr htx)) w hw

/-! ## The date -/

/-- How often the csma handler may yet run before the packet that has so many
ahead of it leaves: for each packet that there is room for, for the head, and
for each packet that becomes the head before it. -/
def load (d : LinkDevice) (w : Wait (Int × Int)) (ahead : Nat) : Int :=
  turns * (d.txQueueLimit - d.txQueue.length) +
    (if d.state = .tx then 1 else turns - w.args.1) + ahead * (turns * (d.txQueueLimit + 1))

/-- `p` stands in the queue, with so many ahead of it, and will have left by `b`. -/
structure InLine (p : Packet) (t b : Int) (ahead : Nat) (s : Timed) : Prop where
  place : ∃ front back, s.dev.txQueue = front ++ p :: back ∧ front.length = ahead
  date : ∃ w, s.dev.csmaTimer.wait = some w ∧ w.expiry + t * load s.dev w ahead ≤ b

/-- A turn of the handler pays for the next wait. -/
theorem date_of_turn {now x x' y y' b : Int} (ht : 0 ≤ t) (hnow : now ≤ x) (hx' : x' ≤ now + t)
    (hy : y' + 1 ≤ y) (h : x + t * y ≤ b) : x' + t * y' ≤ b := by
  have hpaid : t * (y' + 1) ≤ t * y := Int.mul_le_mul_of_nonneg_left hy ht
  have hsplit : t * (y' + 1) = t * y' + t := by rw [Int.mul_add, Int.mul_one]
  omega

/-- The head is gone, and the rest of the queue waits for its first backoff. -/
theorem InLine.next {b now : Int} {q : Packet} {rest : List Packet} {w : Wait (Int × Int)}
    {d : LinkDevice} {raw : Nat} (ht : LongestWait l t) (hin : InLine p t b ahead s)
    (hd : s'.dev = serveNext .ideal now raw d) (hw : s.dev.csmaTimer.wait = some w)
    (hnow : now ≤ w.expiry) (hroom : s.dev.txQueue.length ≤ s.dev.txQueueLimit)
    (hleft : s.dev.state ≠ .tx → w.args.1 ≤ maxCsmaBackoffs)
    (hq : s.dev.txQueue = q :: rest) (hrest : d.txQueue = rest) (hst : d.state ≠ .tx)
    (hlimit : d.txQueueLimit = s.dev.txQueueLimit) :
    (ahead = 0 ∧ q = p) ∨ ∃ n, ahead = n + 1 ∧ InLine p t b n s' := by
  obtain ⟨front, back, hplace, hlen⟩ := hin.place
  obtain ⟨w₀, hw₀, hdate⟩ := hin.date
  obtain rfl : w = w₀ := Option.some.inj (hw.symm.trans hw₀)
  rw [hq] at hplace
  cases front with
  | nil => exact .inl ⟨hlen.symm, (List.cons.inj hplace).1⟩
  | cons a front =>
      obtain ⟨_, htail⟩ := List.cons.inj hplace
      obtain rfl : ahead = front.length + 1 := hlen.symm
      refine .inr ⟨front.length, rfl, ⟨front, back, ?_, rfl⟩, ?_⟩
      · rw [hd, serveNext_txQueue, hrest, htail]
        rfl
      · have hne : d.txQueue.length ≠ 0 := by
          rw [hrest, htail]
          simp
        have hserve : s'.dev = startCsma .ideal now raw d := by
          rw [hd, serveNext, if_pos hne]
        refine ⟨_, by rw [hserve]; rfl, ?_⟩
        have hpos := ht.backoff
        have hback := @backoff_le raw minBE (by decide)
        have ht0 : (0 : Int) ≤ (2 ^ maxBE.toNat - 1) * backoffPeriod := by decide
        refine date_of_turn (by omega) hnow ?_ ?_ hdate
        · show now + backoff raw minBE ≤ now + t
          omega
        · have hst' : s'.dev.state ≠ .tx := by
            rw [hserve]
            exact hst
          have hlen' : s'.dev.txQueue.length = rest.length := by
            rw [hserve]
            exact congrArg List.length hrest
          have hlimit' : s'.dev.txQueueLimit = s.dev.txQueueLimit := by
            rw [hserve]
            exact hlimit
          have hmax : maxCsmaBackoffs = 4 := rfl
          unfold load
          rw [if_neg hst', hlen', hlimit', hq]
          simp only [turns, hmax, List.length_cons, Nat.cast_add, Nat.cast_one, Int.add_mul,
            Int.one_mul]
          rw [hq, List.length_cons] at hroom
          split
          · omega
          · next hne' =>
              have hnb := hleft hne'
              omega

/-- A step that leaves the head where it is, and arms the timer. -/
theorem InLine.again {b : Int} {w w' : Wait (Int × Int)} (ht : LongestWait l t)
    (hin : InLine p t b ahead s) (hw : s.dev.csmaTimer.wait = some w) (hnow : s.now ≤ w.expiry)
    (hq : ∃ new, s'.dev.txQueue = s.dev.txQueue ++ new) (hw' : s'.dev.csmaTimer.wait = some w')
    (hexp : w'.expiry ≤ s.now + t) (hload : load s'.dev w' ahead + 1 ≤ load s.dev w ahead) :
    InLine p t b ahead s' := by
  obtain ⟨front, back, hplace, hlen⟩ := hin.place
  obtain ⟨w₀, hw₀, hdate⟩ := hin.date
  obtain rfl : w = w₀ := Option.some.inj (hw.symm.trans hw₀)
  obtain ⟨new, hnew⟩ := hq
  have hpos : (0 : Int) ≤ (2 ^ maxBE.toNat - 1) * backoffPeriod := by decide
  have hlong := ht.backoff
  refine ⟨⟨front, back ++ new, ?_, hlen⟩, w', hw', date_of_turn (by omega) hnow hexp hload hdate⟩
  rw [hnew, hplace, List.append_assoc]
  rfl

theorem inLine_step {b : Int} (hs : Ideal s) (ho : Orderly l s) (ht : LongestWait l t)
    (hin : InLine p t b ahead s) (he : (ideal l).Enabled s e)
    (hstep : s.step .ideal l e = .ok (s', o)) :
    (ahead = 0 ∧ (o = .finished p ∨ o = .gaveUp p)) ∨
    (leaves o = true ∧ ∃ n, ahead = n + 1 ∧ InLine p t b n s') ∨
    (leaves o = false ∧ InLine p t b ahead s') := by
  obtain ⟨w₀, hw₀, hdate⟩ := hin.date
  have hexp₀ := ho.ahead w₀ hw₀
  have hturns : turns = 6 := rfl
  have hmax : maxCsmaBackoffs = 4 := rfl
  rcases csma_cases hs he.1 hstep with ⟨q, raw, rfl, rfl, hnow, hsome, hd⟩ |
    ⟨raw, nb, be, w, rfl, hnow, hw, hargs, _, hcsma⟩ | ⟨hkept, hidle⟩
  · refine .inr (.inr ⟨rfl, hin.again ht hw₀ hexp₀ ⟨[q], by rw [hd]⟩ (by rw [hd]; rfl) ?_ ?_⟩)
    · have hback := @backoff_le raw minBE (by decide)
      have hlong := ht.backoff
      show s.now + backoff raw minBE ≤ s.now + t
      omega
    · rw [hd]
      simp only [load, hturns, List.length_append, List.length_singleton, Nat.cast_add,
        Nat.cast_one]
      split
      · omega
      · next hst =>
          have hnb := ho.args hst w₀ hw₀
          omega
  · obtain rfl : w = w₀ := Option.some.inj (hw.symm.trans hw₀)
    obtain ⟨q, rest, hq, hcase⟩ := doCsma_cases hcsma
    have hqueue : s.dev.txQueue = q :: rest := hq
    rcases hcase with ⟨hst, rfl, hd⟩ | ⟨hhear, hle, rfl, hd⟩ | ⟨hhear, _, rfl, hd⟩ | ⟨_, rfl, hd⟩
    · have hst' : s.dev.state ≠ .tx := by
        rw [show s.dev.state = .idle from hst]
        simp
      refine .inr (.inr ⟨rfl, hin.again ht hw hexp₀ ⟨[], by rw [hd]; simp⟩ (by rw [hd]; rfl) ?_ ?_⟩)
      · have hair := (ht.airtime q.getLength (ho.short q (by simp [hqueue]))).2
        show s.now + l.txDelay q.getLength ≤ s.now + t
        omega
      · have hnb := ho.args hst' w hw
        rw [hd]
        simp only [load, hturns, if_neg hst', if_true]
        omega
    · have hst' : s.dev.state ≠ .tx := hhear.ne_tx
      refine .inr (.inr ⟨rfl, hin.again ht hw hexp₀ ⟨[], by rw [hd]; simp⟩ (by rw [hd]; rfl) ?_ ?_⟩)
      · have hback := @backoff_le raw (nextBE be) nextBE_le
        have hlong := ht.backoff
        show s.now + backoff raw (nextBE be) ≤ s.now + t
        omega
      · rw [hd]
        simp only [load, hturns, if_neg hst', hargs]
        omega
    · rcases hin.next ht hd hw hexp₀ ho.room (fun hst => (ho.args hst w hw).2) hqueue rfl
        hhear.ne_tx rfl with ⟨hzero, rfl⟩ | hnext
      · exact .inl ⟨hzero, .inr rfl⟩
      · exact .inr (.inl ⟨rfl, hnext⟩)
    · rcases hin.next ht hd hw hexp₀ ho.room (fun hst => (ho.args hst w hw).2) hqueue rfl
        (by simp) rfl with ⟨hzero, rfl⟩ | hnext
      · exact .inl ⟨hzero, .inl rfl⟩
      · exact .inr (.inl ⟨rfl, hnext⟩)
  · obtain ⟨w', hw', hexp, hargs⟩ := hkept.wait w₀ hw₀
    obtain ⟨front, back, hplace, hlen⟩ := hin.place
    refine .inr (.inr ⟨hidle.1, ⟨front, back, hkept.queue.trans hplace, hlen⟩, w', hw', ?_⟩)
    have hlimit := (step_line hstep ho.room).2.2
    have hload : load s'.dev w' ahead = load s.dev w₀ ahead := by
      unfold load
      rw [hlimit, hkept.queue, hargs]
      by_cases htx : s.dev.state = .tx
      · rw [if_pos htx, if_pos (hkept.sending.mpr htx)]
      · rw [if_neg htx, if_neg (fun h => htx (hkept.sending.mp h))]
    rw [hexp, hload]
    exact hdate

/-! ## Every packet leaves -/

theorem orderly_run (hnew : s₀.dev.Fresh) (ht : LongestWait l t) (h : (ideal l).Run s₀ tr s) :
    Ideal s ∧ Orderly l s := by
  refine h.invariant (I := fun s => Ideal s ∧ Orderly l s) ?_
    ⟨ideal_of_fresh hnew, orderly_of_fresh hnew⟩
  intro s e s' o hs he hstep
  have hen : s.Enabled e := he.1
  exact ⟨ideal_step hs.1 hen hstep, orderly_step hs.1 hs.2 ht he hstep⟩

/-- The time in which a packet leaves that is accepted in that place of the
line, counted from 1. -/
def patience (t : Int) (place limit : Nat) : Int := t * (turns * (place * limit) + 1)

theorem date_within {now x y z : Int} (ht : 0 ≤ t) (hx : x ≤ now + t) (hy : y ≤ z) :
    x + t * y ≤ now + t * (z + 1) := by
  have hmul := Int.mul_le_mul_of_nonneg_left hy ht
  have hsplit : t * (z + 1) = t * z + t := by rw [Int.mul_add, Int.mul_one]
  omega

/-- A packet that was accepted has a date. -/
theorem inLine_of_accepted {raw : Nat} (ht : LongestWait l t)
    (hstep : s.step .ideal l (.startTx p raw) = .ok (s', .enqueued p)) :
    InLine p t (s.now + patience t (s.dev.txQueue.length + 1) s.dev.txQueueLimit)
      s.dev.txQueue.length s' := by
  rcases step_startTx hstep with ⟨d, hd, rfl, _⟩ | ⟨_, _, ho⟩
  · obtain ⟨_, hroom, rfl⟩ := startTx_cases hd
    have hback := @backoff_le raw minBE (by decide)
    have hlong := ht.backoff
    have hpos : (0 : Int) ≤ (2 ^ maxBE.toNat - 1) * backoffPeriod := by decide
    refine ⟨⟨s.dev.txQueue, [], rfl, rfl⟩, _, rfl, date_within (by omega) ?_ ?_⟩
    · show s.now + backoff raw minBE ≤ s.now + t
      omega
    · have hturns : turns = 6 := rfl
      have hcomm : (s.dev.txQueue.length : Int) * (6 * s.dev.txQueueLimit) =
          6 * (s.dev.txQueue.length * s.dev.txQueueLimit) := Int.mul_left_comm _ _ _
      simp only [load, hturns, List.length_append, List.length_singleton, Nat.cast_add,
        Nat.cast_one, Int.add_mul, Int.one_mul, Int.mul_add, Int.mul_one, hcomm]
      split <;> omega
  · cases ho

/-- The clock has not passed the date. -/
theorem InLine.now_le {b : Int} (h : InLine p t b ahead s) (ho : Orderly l s)
    (ht : LongestWait l t) : s.now ≤ b := by
  obtain ⟨w, hw, hdate⟩ := h.date
  have hnow := ho.ahead w hw
  have hroom := ho.room
  have hlong := ht.backoff
  have hpos : (0 : Int) ≤ (2 ^ maxBE.toNat - 1) * backoffPeriod := by decide
  have hturns : turns = 6 := rfl
  have hmax : maxCsmaBackoffs = 4 := rfl
  have hfree : 0 ≤ turns * (s.dev.txQueueLimit - s.dev.txQueue.length : Int) :=
    Int.mul_nonneg (by decide) (by omega)
  have hrest : (0 : Int) ≤ ahead * (turns * (s.dev.txQueueLimit + 1)) :=
    Int.mul_nonneg (by omega) (Int.mul_nonneg (by decide) (by omega))
  have hload : 0 ≤ load s.dev w ahead := by
    unfold load
    split
    · omega
    · next hst =>
        have hnb := ho.args hst w hw
        omega
  have hmul := Int.mul_nonneg (show 0 ≤ t by omega) hload
  omega

/-- So far only packets have left that were ahead of `p`, of whom there were
`k`, and `p` is in time. -/
structure Waits (l : Link) (p : Packet) (t b : Int) (k : Nat)
    (mid : List (DeviceEvent × DeviceOut)) (s : Timed) : Prop where
  ideal : Ideal s
  orderly : Orderly l s
  line : ∃ n, mid.countP (fun x => leaves x.2) + n = k ∧ InLine p t b n s

/-- It is the turn of `p`, which leaves. -/
def Served (p : Packet) (k : Nat) (mid : List (DeviceEvent × DeviceOut)) (o : DeviceOut) : Prop :=
  mid.countP (fun x => leaves x.2) = k ∧ (o = .finished p ∨ o = .gaveUp p)

theorem waits_step {b : Int} {k : Nat} {mid : List (DeviceEvent × DeviceOut)}
    (h : Waits l p t b k mid s) (ht : LongestWait l t) (he : (ideal l).Enabled s e)
    (hstep : s.step .ideal l e = .ok (s', o)) :
    Served p k mid o ∨ Waits l p t b k (mid ++ [(e, o)]) s' := by
  obtain ⟨hs, ho, n, hcount, hin⟩ := h
  have hen : s.Enabled e := he.1
  have hs' := ideal_step hs hen hstep
  have ho' := orderly_step hs ho ht he hstep
  rcases inLine_step hs ho ht hin he hstep with ⟨rfl, hleft⟩ | ⟨hleaves, n, rfl, hin'⟩ |
    ⟨hstays, hin'⟩
  · exact .inl ⟨hcount, hleft⟩
  · refine .inr ⟨hs', ho', n, ?_, hin'⟩
    rw [List.countP_append, List.countP_singleton, if_pos hleaves]
    omega
  · refine .inr ⟨hs', ho', n, ?_, hin'⟩
    rw [List.countP_append, List.countP_singleton, hstays, if_neg Bool.false_ne_true]
    omega

/-- **No packet waits forever.** With ideal timers, and whatever is heard and
whatever else is accepted, a packet leaves the queue: after those that were
ahead of it, sent or given up, and within a time that depends on its place in
the line, on the room in it, and on the longest wait. -/
theorem served_in_time {raw : Nat} {before mid : List (DeviceEvent × DeviceOut)}
    (hnew : s.dev.Fresh) (ht : LongestWait l t) (hbefore : (ideal l).Run s before s₀)
    (h : (ideal l).Run s (before ++ (.startTx p raw, .enqueued p) :: mid) s')
    (hlate : patience t (s₀.dev.txQueue.length + 1) s.dev.txQueueLimit < elapsed mid) :
    ∃ m₁ e o m₂, mid = m₁ ++ (e, o) :: m₂ ∧ Served p s₀.dev.txQueue.length m₁ o ∧
      elapsed m₁ ≤ patience t (s₀.dev.txQueue.length + 1) s.dev.txQueueLimit := by
  obtain ⟨hs₀, ho₀⟩ := orderly_run hnew ht hbefore
  have hlimit : s₀.dev.txQueueLimit = s.dev.txQueueLimit := (run_line hnew hbefore.of_restrict).2.2
  obtain ⟨a, ha, hrest⟩ := h.split
  obtain rfl := ha.deterministic hbefore
  obtain ⟨s₁, he, hstep, hmid⟩ := hrest.cons_inv
  have hstep' : a.step .ideal l (.startTx p raw) = .ok (s₁, .enqueued p) := hstep
  have hen : a.Enabled (.startTx p raw) := trivial
  have hs₁ := ideal_step hs₀ hen hstep'
  have hin := inLine_of_accepted ht hstep'
  have hnow : s₁.now = a.now := by simp [now_of_step hstep', DeviceEvent.duration]
  rw [hlimit, ← hnow] at hin
  have hstart : Waits l p t (s₁.now + patience t (a.dev.txQueue.length + 1) s.dev.txQueueLimit)
      a.dev.txQueue.length [] s₁ :=
    ⟨hs₁, orderly_step hs₀ ho₀ ht he hstep', a.dev.txQueue.length, by simp, hin⟩
  have hintime : ∀ m s₂, (ideal l).Run s₁ m s₂ →
      Waits l p t (s₁.now + patience t (a.dev.txQueue.length + 1) s.dev.txQueueLimit)
        a.dev.txQueue.length m s₂ →
      elapsed m ≤ patience t (a.dev.txQueue.length + 1) s.dev.txQueueLimit := by
    intro m s₂ hrun hwaits
    obtain ⟨n, _, hin⟩ := hwaits.line
    have hle := hin.now_le hwaits.orderly ht
    rw [(ideal_run hs₁ hrun).2] at hle
    omega
  rcases hmid.until (D := fun m s₂ _ o => Waits l p t _ _ m s₂ ∧ Served p _ m o)
    (fun m s₂ e s₃ o _ hw he hstep =>
      (waits_step hw ht he hstep).imp (fun hserved => ⟨hw, hserved⟩) id) hstart with
    hwaits | ⟨m₁, e, o, m₂, s₂, rfl, hrun, hwaits, hserved⟩
  · have hle := hintime _ _ hmid hwaits
    omega
  · exact ⟨m₁, e, o, m₂, rfl, hserved, hintime _ _ hrun hwaits⟩

theorem slowLink_longestWait : LongestWait slowLink 9920 where
  backoff := by decide
  airtime n hn := by
    have hmtu : n ≤ 8800 := hn
    refine ⟨?_, ?_⟩
    · show (0 : Int) ≤ n + 1
      omega
    · show (n : Int) + 1 ≤ 9920
      omega

/-- What follows the acceptance of a packet: it is sent, and a long time passes. -/
def sentRun : List (DeviceEvent × DeviceOut) :=
  [(.timer .csmaExpire, .quiet), (.timer (.doCsma 0), .transmit (sample 0 100)),
   (.tick 101, .quiet), (.timer .csmaExpire, .quiet),
   (.timer (.doCsma 0), .finished (sample 0 100)), (.tick 400000, .quiet)]

theorem served_in_time_sent : ∃ m₁ e o m₂, sentRun = m₁ ++ (e, o) :: m₂ ∧
    Served (sample 0 100) 0 m₁ o ∧ elapsed m₁ ≤ 307520 := by
  obtain ⟨s, hs⟩ : ∃ s, (ideal slowLink).Run ⟨slowDevice, 0⟩
      ([] ++ (.startTx (sample 0 100) 0, .enqueued (sample 0 100)) :: sentRun) s :=
    ⟨_, System.run_of_exec (show (ideal slowLink).exec ⟨slowDevice, 0⟩
      (((.startTx (sample 0 100) 0, .enqueued (sample 0 100)) :: sentRun).map (·.1)) =
        some ((.startTx (sample 0 100) 0, .enqueued (sample 0 100)) :: sentRun, _) from rfl)⟩
  exact served_in_time slowDevice_fresh slowLink_longestWait (.nil _) hs (by decide)

end Timed

end NdnEm
