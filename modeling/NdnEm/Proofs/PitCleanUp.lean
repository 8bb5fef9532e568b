import NdnEm.Proofs.PitHistory

/-!
# What cleaning up the PIT can change

Two runs of one sequence of calls, one of them with cleanups in between. The
table with cleanups lacks some records of the other one, all of them expired,
and consumption does not count expired records. `AddInterest` does: a nonce is
refused as long as its record is there. So a cleanup is seen by the call that
repeats the name and nonce of an expired record, and by nothing else.
-/

namespace NdnEm

open Lib

/-- A call of the forwarding code, and not a cleanup. -/
def PitOp.isCall : PitOp → Bool
  | .add .. => true
  | .consume .. => true
  | .cleanUp _ => false

/-- What a caller is told. -/
def PitOut.isAnswer : PitOut → Bool
  | .added _ => true
  | .faces _ => true
  | .done => false

namespace Pit

variable {t t' : Pit} {op : PitOp} {ops ops' before : List PitOp} {now now' : Int}

/-- The table after some operations. -/
def after (t : Pit) (ops : List PitOp) : Pit := ops.foldl (fun t op => (t.apply op).1) t

/-- What the callers are told along the way. -/
def answers : Pit → List PitOp → List PitOut
  | _, [] => []
  | t, op :: ops =>
      if (t.apply op).2.isAnswer then (t.apply op).2 :: answers (t.apply op).1 ops
      else answers (t.apply op).1 ops

/-- Clock readings do not go back. -/
def Ordered (ops : List PitOp) : Prop := (ops.map PitOp.now).Pairwise (· ≤ ·)

instance (ops : List PitOp) : Decidable (Ordered ops) :=
  inferInstanceAs (Decidable (List.Pairwise _ _))

theorem isAnswer_apply (t : Pit) (op : PitOp) : (t.apply op).2.isAnswer = op.isCall := by
  cases op <;> rfl

theorem answers_of_call (h : op.isCall = true) :
    t.answers (op :: ops) = (t.apply op).2 :: (t.apply op).1.answers ops := by
  rw [answers, isAnswer_apply, if_pos h]

theorem answers_of_cleanUp : t.answers (.cleanUp now :: ops) = (t.cleanUp now).answers ops := by
  rw [answers]
  rfl

theorem answers_append :
    t.answers (before ++ ops) = t.answers before ++ (t.after before).answers ops := by
  induction before generalizing t with
  | nil => rfl
  | cons op before ih =>
      rw [List.cons_append, answers, answers, ih]
      by_cases h : (t.apply op).2.isAnswer
      · rw [if_pos h, if_pos h]
        rfl
      · rw [if_neg h, if_neg h]
        rfl

/-! ## The simulation -/

/-- `t'` is `t` without some records that have expired. -/
def Cleaned (now : Int) (t t' : Pit) : Prop :=
  ∀ n k, t'.record n k = t.record n k ∨
    (t'.record n k = none ∧ ∃ r, t.record n k = some r ∧ r.expire < now)

theorem Cleaned.refl (now : Int) (t : Pit) : Cleaned now t t := fun _ _ => .inl rfl

theorem Cleaned.mono (h : Cleaned now t t') (hle : now ≤ now') : Cleaned now' t t' := by
  intro n k
  rcases h n k with hsame | ⟨hnone, r, hr, hlt⟩
  · exact .inl hsame
  · exact .inr ⟨hnone, r, hr, by omega⟩

/-- A cleanup drops records that have expired. -/
theorem Cleaned.cleanUp (h : Cleaned now t t') : Cleaned now t (t'.cleanUp now) := by
  intro n k
  rw [record_cleanUp]
  rcases h n k with hsame | ⟨hnone, hexp⟩
  · rw [hsame]
    cases hr : t.record n k with
    | none => exact .inl rfl
    | some r =>
        by_cases hlt : r.expire < now
        · exact .inr ⟨if_pos hlt, r, rfl, hlt⟩
        · exact .inl (if_neg hlt)
  · rw [hnone]
    exact .inr ⟨rfl, hexp⟩

/-- Consumption does not miss the records that are gone. -/
theorem Cleaned.consume (h : Cleaned now t t') (name : Name) (out : Finset Int) :
    (t'.consumeInterestWithDataName now name out).2 =
        (t.consumeInterestWithDataName now name out).2 ∧
      Cleaned now (t.consumeInterestWithDataName now name out).1
        (t'.consumeInterestWithDataName now name out).1 := by
  constructor
  · ext f
    rw [mem_consume, mem_consume]
    refine or_congr_right ⟨?_, ?_⟩
    · rintro ⟨n, k, r, hpre, hr, hexp, hf⟩
      rcases h n k with hsame | ⟨hnone, _⟩
      · exact ⟨n, k, r, hpre, hsame ▸ hr, hexp, hf⟩
      · rw [hnone] at hr
        cases hr
    · rintro ⟨n, k, r, hpre, hr, hexp, hf⟩
      rcases h n k with hsame | ⟨_, r', hr', hlt⟩
      · exact ⟨n, k, r, hpre, hsame.trans hr, hexp, hf⟩
      · obtain rfl : r = r' := Option.some.inj (hr.symm.trans hr')
        omega
  · intro n k
    rw [record_consume, record_consume]
    by_cases hpre : n <+: name
    · rw [if_pos hpre, if_pos hpre]
      exact .inl rfl
    · rw [if_neg hpre, if_neg hpre]
      exact h n k

/-- The nonce is new, or refused for a record that is unexpired. -/
def Unrepeated (t : Pit) : PitOp → Prop
  | .add now _ i => ∀ r, t.record i.name i.nonce = some r → now ≤ r.expire
  | .consume .. | .cleanUp _ => True

/-- A new nonce is new to both tables, and an unexpired one known to both. -/
theorem Cleaned.add {f : Int} {i : Interest} (h : Cleaned now t t')
    (hnew : t.Unrepeated (.add now f i)) :
    (t'.addInterest now f i).1 = (t.addInterest now f i).1 ∧
      Cleaned now (t.addInterest now f i).2 (t'.addInterest now f i).2 := by
  have hsame : t'.record i.name i.nonce = t.record i.name i.nonce := by
    rcases h i.name i.nonce with hsame | ⟨_, r, hr, hlt⟩
    · exact hsame
    · have hle : now ≤ r.expire := hnew r hr
      omega
  constructor
  · rw [Bool.eq_iff_iff, addInterest_fst, addInterest_fst, hsame]
  · intro n k
    rw [record_addInterest, record_addInterest]
    by_cases hnk : n = i.name ∧ k = i.nonce
    · obtain ⟨rfl, rfl⟩ := hnk
      rw [hsame]
      exact .inl rfl
    · rw [if_neg fun hboth => hnk hboth.1, if_neg fun hboth => hnk hboth.1]
      exact h n k

/-- A call answers alike on both tables. -/
theorem Cleaned.apply (h : Cleaned op.now t t') (hcall : op.isCall = true)
    (hnew : t.Unrepeated op) :
    (t'.apply op).2 = (t.apply op).2 ∧ Cleaned op.now (t.apply op).1 (t'.apply op).1 := by
  cases op with
  | add now f i =>
      obtain ⟨hout, hrest⟩ := Cleaned.add h hnew
      exact ⟨congrArg PitOut.added hout, hrest⟩
  | consume now name out =>
      obtain ⟨hout, hrest⟩ := Cleaned.consume h name out
      exact ⟨congrArg PitOut.faces hout, hrest⟩
  | cleanUp now => cases hcall

/-! ## The two runs -/

/-- No `AddInterest` repeats the name and nonce of an expired record. -/
def NoneRepeated (t : Pit) (ops : List PitOp) : Prop :=
  ∀ before op after, ops = before ++ op :: after → (t.after before).Unrepeated op

theorem NoneRepeated.head (h : t.NoneRepeated (op :: ops)) : t.Unrepeated op :=
  h [] op ops rfl

theorem NoneRepeated.tail (h : t.NoneRepeated (op :: ops)) : (t.apply op).1.NoneRepeated ops := by
  intro before x after hops
  exact h (op :: before) x after (by rw [hops, List.cons_append])

/-- As long as no expired nonce is repeated, cleanups are not seen. -/
theorem answers_of_cleaned (h : Cleaned now t t') (hclk : ∀ op ∈ ops', now ≤ op.now)
    (hord : Ordered ops') (hnew : t.NoneRepeated (ops'.filter PitOp.isCall)) :
    t'.answers ops' = t.answers (ops'.filter PitOp.isCall) := by
  induction ops' generalizing now t t' with
  | nil => rfl
  | cons op ops' ih =>
      obtain ⟨hfirst, hrest⟩ := List.pairwise_cons.mp hord
      have hlater : ∀ x ∈ ops', op.now ≤ x.now :=
        fun x hx => hfirst x.now (List.mem_map_of_mem hx)
      have hmono := h.mono (hclk op List.mem_cons_self)
      by_cases hcall : op.isCall = true
      · rw [List.filter_cons_of_pos hcall] at hnew ⊢
        obtain ⟨hout, hnext⟩ := hmono.apply hcall hnew.head
        rw [answers_of_call hcall, answers_of_call hcall, hout,
          ih hnext hlater hrest hnew.tail]
      · rw [List.filter_cons_of_neg hcall] at hnew ⊢
        cases op with
        | cleanUp now' =>
            rw [answers_of_cleanUp]
            exact ih hmono.cleanUp hlater hrest hnew
        | add _ _ _ => exact absurd rfl hcall
        | consume _ _ _ => exact absurd rfl hcall

/-- Each way of putting cleanups between some calls, at clock readings that do
not go back, leaves the answers as they are. -/
def CleanUpInvisible (ops : List PitOp) : Prop :=
  ∀ ops', ops'.filter PitOp.isCall = ops → Ordered ops' → empty.answers ops' = empty.answers ops

/-- A cleanup just before an expired nonce is repeated makes it look new. -/
theorem repeated_seen {f : Int} {i : Interest} {r : FaceRecord} {rest : List PitOp}
    (hr : (t.after before).record i.name i.nonce = some r) (hlt : r.expire < now) :
    t.answers (before ++ .cleanUp now :: .add now f i :: rest) ≠
      t.answers (before ++ .add now f i :: rest) := by
  intro heq
  rw [answers_append, answers_append, answers_of_cleanUp, answers_of_call rfl,
    answers_of_call rfl] at heq
  have hout := (List.cons.inj (List.append_cancel_left heq)).1
  have hold : ((t.after before).addInterest now f i).1 = false := by
    rw [addInterest_of_record hr]
  have hgone : ((t.after before).cleanUp now).record i.name i.nonce = none := by
    rw [record_cleanUp, hr]
    exact if_pos hlt
  have hnew : (((t.after before).cleanUp now).addInterest now f i).1 = true :=
    addInterest_fst.mpr hgone
  have hsame : (((t.after before).cleanUp now).addInterest now f i).1 =
      ((t.after before).addInterest now f i).1 := PitOut.added.inj hout
  rw [hold, hnew] at hsame
  cases hsame

theorem ordered_insert {f : Int} {i : Interest} {rest : List PitOp}
    (h : Ordered (before ++ .add now f i :: rest)) :
    Ordered (before ++ .cleanUp now :: .add now f i :: rest) := by
  unfold Ordered at h ⊢
  rw [List.map_append, List.map_cons, List.pairwise_append] at h
  rw [List.map_append, List.map_cons, List.map_cons, List.pairwise_append]
  obtain ⟨hbefore, hrest, hcross⟩ := h
  refine ⟨hbefore, ?_, ?_⟩
  · refine List.pairwise_cons.mpr ⟨?_, hrest⟩
    intro u hu
    rcases List.mem_cons.mp hu with rfl | hu
    · exact Int.le_refl _
    · exact (List.pairwise_cons.mp hrest).1 u hu
  · intro u hu v hv
    rcases List.mem_cons.mp hv with rfl | hv
    · exact hcross u hu _ List.mem_cons_self
    · exact hcross u hu v hv

/-- **Cleanup is garbage collection** for a sequence of calls exactly when none
of them is an `AddInterest` with the name and nonce of a record that is in the
table and has expired. -/
theorem cleanUp_invisible_iff (hcalls : ∀ op ∈ ops, op.isCall = true) (hord : Ordered ops) :
    CleanUpInvisible ops ↔
      ∀ before now f i rest, ops = before ++ .add now f i :: rest →
        ∀ r, (empty.after before).record i.name i.nonce = some r → now ≤ r.expire := by
  constructor
  · intro h before now f i rest hops r hr
    subst hops
    by_contra hlt
    refine repeated_seen hr (by omega) (h _ ?_ (ordered_insert hord))
    rw [List.filter_append, List.filter_cons_of_neg Bool.false_ne_true, ← List.filter_append]
    exact List.filter_eq_self.mpr hcalls
  · intro h ops' hops hord'
    subst hops
    have hnone : empty.NoneRepeated (ops'.filter PitOp.isCall) := by
      intro before op rest hops
      cases op with
      | add now f i => exact h before now f i rest hops
      | consume _ _ _ => trivial
      | cleanUp _ => trivial
    cases ops' with
    | nil => rfl
    | cons op ops' =>
        refine answers_of_cleaned (Cleaned.refl op.now empty) ?_ hord' hnone
        intro x hx
        rcases List.mem_cons.mp hx with rfl | hx
        · exact Int.le_refl _
        · exact (List.pairwise_cons.mp hord').1 _ (List.mem_map_of_mem hx)

/-- An Interest that is repeated while it is pending, and its Data. -/
def pendingOps : List PitOp :=
  [.add 0 5 ⟨[[1]], 7, 10, false, 40⟩, .add 3 6 ⟨[[1]], 7, 10, false, 40⟩,
   .consume 12 [[1], [2]] ∅]

theorem cleanUp_invisible_iff_pending : CleanUpInvisible pendingOps ↔
    ∀ before now f i rest, pendingOps = before ++ .add now f i :: rest →
      ∀ r, (empty.after before).record i.name i.nonce = some r → now ≤ r.expire :=
  cleanUp_invisible_iff (by decide) (by decide)

/-- An Interest that expires before it is repeated. -/
def lapsed : Interest := ⟨[[1]], 7, 10, false, 40⟩

def repeatedOps : List PitOp := [.add 0 5 lapsed, .add 20 6 lapsed]

theorem cleanUp_forgets_nonce :
    (∀ op ∈ repeatedOps, op.isCall = true) ∧ Ordered repeatedOps ∧
      ¬ CleanUpInvisible repeatedOps := by
  refine ⟨by decide, by decide, ?_⟩
  intro h
  have hrecord : (empty.after [.add 0 5 lapsed]).record lapsed.name lapsed.nonce =
      some ⟨5, 10⟩ := rfl
  have hseen : empty.answers ([.add 0 5 lapsed] ++ [.cleanUp 20, .add 20 6 lapsed]) ≠
      empty.answers repeatedOps := repeated_seen hrecord (by decide)
  exact hseen (h _ rfl (by decide))

end Pit

end NdnEm
