import NdnEm.Lib.Ledger
import NdnEm.Proofs.Forwarding

/-!
# Every Data has an Interest behind it

A node sends Data on three paths: out of the content store, to the faces a
consumption hands out, and as the response of the fib manager inside the
handling of a command. On each of them the Data sent on a face answers an
Interest that came in on that face, and no Interest is answered twice.

The books of `Lib.Balanced` carry the proof. A credit is a record of the PIT,
a call is the position in the trace of an Interest, a payment is the position
of a Data together with the face it was sent on. A record is a credit of the
Interest that left it; a store hit pays its Interest on the spot; a
consumption closes the records it erases and pays one of them for each face.
Dead faces, refused nonces and cleanups only lose credits.
-/

namespace NdnEm

open Lib

/-- The clock readings of an event that can send Data. -/
def NodeEvent.clock : NodeEvent → Option Clock
  | .interest clk _ _ => some clk
  | .data clk _ _ => some clk
  | .removeFace _ | .cleanUp _ | .addLinkFace _ _ | .accept => none

def Wire.isData : Wire → Bool
  | .data _ => true
  | .interest _ => false

namespace Node

/-- Event `p.1` of the trace passed Data to `Send` on face `p.2`. -/
def SendsData (tr : Trace) (p : Nat × Int) : Prop :=
  ∃ e fw d, tr[p.1]? = some (e, some fw) ∧ fw.wire = .data d ∧ p.2 ∈ fw.faces

/-- The Data that event `p.1` sent on face `p.2` answers the Interest of event
`c`: the Interest came in on that face, its name is a prefix of the Data's,
and its lifetime has not elapsed unless the content store answers it. -/
def Answers (tr : Trace) (p : Nat × Int) (c : Nat) : Prop :=
  c ≤ p.1 ∧ ∃ clk i o e fw d,
    tr[c]? = some (.interest clk p.2 i, o) ∧ tr[p.1]? = some (e, some fw) ∧
    fw.wire = .data d ∧ p.2 ∈ fw.faces ∧ i.name <+: d.name ∧
    ((∃ fs, fw = .cached d fs) ∨
      ∃ clk', e.clock = some clk' ∧ clk'.consume < clk.add + i.interestLifetime)

/-- The record under a name and a nonce was left by the Interest of event `c`. -/
def Owes (t : Pit) (tr : Trace) (a : Name × UInt32) (c : Nat) : Prop :=
  ∃ r clk i o, t.record a.1 a.2 = some r ∧ tr[c]? = some (.interest clk r.faceId i, o) ∧
    i.name = a.1 ∧ r.expire = clk.add + i.interestLifetime

/-- The records of the PIT are the credits. -/
def IsOpen (t : Pit) (a : Name × UInt32) : Prop := (t.record a.1 a.2).isSome

/-- The books of a node with this PIT after a trace, when the Data sent up to
some point of it are entered. -/
def Books (t : Pit) (paid : Nat × Int → Prop) (tr : Trace) : Prop :=
  Balanced (IsOpen t) paid (Owes t tr) (Answers tr)

section Extend

variable {t t' : Pit} {tr : Trace} {e : NodeEvent} {o : Option Forward} {p : Nat × Int}
  {a : Name × UInt32} {c : Nat}

theorem getElem?_extend {x : NodeEvent × Option Forward} (h : tr[c]? = some x)
    (y : NodeEvent × Option Forward) : (tr ++ [y])[c]? = some x ∧ c ≠ tr.length := by
  have hlt := (List.getElem?_eq_some_iff.mp h).1
  refine ⟨?_, by omega⟩
  rw [List.getElem?_append_left hlt, h]

theorem Owes.extend (h : Owes t tr a c) (x : NodeEvent × Option Forward) :
    Owes t (tr ++ [x]) a c ∧ c ≠ tr.length := by
  obtain ⟨r, clk, i, o, hr, hc, hrest⟩ := h
  obtain ⟨hc', hne⟩ := getElem?_extend hc x
  exact ⟨⟨r, clk, i, o, hr, hc', hrest⟩, hne⟩

theorem Answers.extend (h : Answers tr p c) (x : NodeEvent × Option Forward) :
    Answers (tr ++ [x]) p c ∧ c ≠ tr.length := by
  obtain ⟨hle, clk, i, o, e, fw, d, hc, hp, hrest⟩ := h
  obtain ⟨hc', hne⟩ := getElem?_extend hc x
  exact ⟨⟨hle, clk, i, o, e, fw, d, hc', (getElem?_extend hp x).1, hrest⟩, hne⟩

theorem Owes.of_record (h : Owes t tr a c) (hr : t'.record a.1 a.2 = t.record a.1 a.2) :
    Owes t' tr a c := by
  obtain ⟨r, clk, i, o, hrec, hrest⟩ := h
  exact ⟨r, clk, i, o, hr.trans hrec, hrest⟩

/-- What one more event adds to the Data sent. -/
theorem sendsData_snoc (h : SendsData (tr ++ [(e, o)]) p) :
    SendsData tr p ∨
      p.1 = tr.length ∧ ∃ fw d, o = some fw ∧ fw.wire = .data d ∧ p.2 ∈ fw.faces := by
  obtain ⟨e', fw, d, hp, hw, hf⟩ := h
  rw [List.getElem?_append] at hp
  split at hp
  · exact .inl ⟨e', fw, d, hp, hw, hf⟩
  · next hge =>
      have hidx : p.1 - tr.length = 0 := by
        have := (List.getElem?_eq_some_iff.mp hp).1
        simp only [List.length_singleton] at this
        omega
      rw [hidx] at hp
      obtain ⟨rfl, rfl⟩ : e = e' ∧ o = some fw := by simpa using hp
      exact .inr ⟨by omega, fw, d, rfl, hw, hf⟩

/-- Nothing is sent, and some records may be gone. -/
theorem Books.idle (h : Books t (SendsData tr) tr)
    (hrec : ∀ n k r, t'.record n k = some r → t.record n k = some r) (e : NodeEvent)
    (ho : ∀ fw d, o = some fw → fw.wire ≠ .data d) :
    Books t' (SendsData (tr ++ [(e, o)])) (tr ++ [(e, o)]) := by
  have hkeep : ∀ a, IsOpen t' a → IsOpen t a ∧ t'.record a.1 a.2 = t.record a.1 a.2 := by
    intro a ha
    obtain ⟨r, hr⟩ := Option.isSome_iff_exists.mp ha
    have hr' := hrec _ _ _ hr
    exact ⟨by rw [IsOpen, hr']; rfl, by rw [hr, hr']⟩
  have hpaid : ∀ p, SendsData (tr ++ [(e, o)]) p → SendsData tr p := by
    intro p hp
    rcases sendsData_snoc hp with hp | ⟨_, fw, d, hfw, hw, _⟩
    · exact hp
    · exact absurd hw (ho fw d hfw)
  exact h.mono (fun a ha => (hkeep a ha).1) hpaid
    (fun a c ha hc => ((hc.of_record (hkeep a ha).2).extend _).1) fun p c _ hc => (hc.extend _).1

/-- The Interest of the last event is recorded if its nonce is new, and its
record is a credit of that event. -/
theorem Books.addInterest (h : Books t (SendsData tr) tr) (clk : Clock) (f : Int)
    (i : Interest) (o : Option Forward) :
    Books (t.addInterest clk.add f i).2 (SendsData tr)
      (tr ++ [(.interest clk f i, o)]) := by
  cases hr : t.record i.name i.nonce with
  | some r =>
      rw [Pit.addInterest_of_record hr]
      exact h.mono (fun _ h => h) (fun _ h => h) (fun _ _ _ hc => (hc.extend _).1)
        fun _ _ _ hc => (hc.extend _).1
  | none =>
      have hrec := @Pit.record_addInterest_of_none t clk.add f i hr
      have hold : ∀ a, IsOpen t a → (t.addInterest clk.add f i).2.record a.1 a.2 =
          t.record a.1 a.2 := by
        intro a ha
        rw [hrec, if_neg]
        rintro ⟨hn, hk⟩
        rw [IsOpen, hn, hk, hr] at ha
        simp at ha
      refine h.issue (i.name, i.nonce) tr.length ?_
        (fun a c ha hc => (hc.of_record (hold a ha)).extend _)
        (fun p c _ hc => hc.extend _) (fun a ha => ?_) (fun _ h => h)
      · exact ⟨⟨f, clk.add + i.interestLifetime⟩, clk, i, o, by rw [hrec]; simp, by simp, rfl,
          rfl⟩
      · by_cases hnew : a.1 = i.name ∧ a.2 = i.nonce
        · exact .inl (Prod.ext hnew.1 hnew.2)
        · rw [IsOpen, hrec, if_neg hnew] at ha
          exact .inr ha

/-- A store hit pays the Interest it answers. -/
theorem Books.cached (h : Books t (SendsData tr) tr) {clk : Clock} {f : Int} {i : Interest}
    {d : Data} {fs : List Int} (hname : i.name <+: d.name) (hfs : ∀ g ∈ fs, g = f) :
    Books t (SendsData (tr ++ [(.interest clk f i, some (.cached d fs))]))
      (tr ++ [(.interest clk f i, some (.cached d fs))]) := by
  by_cases hmem : f ∈ fs
  · refine h.settle (tr.length, f) tr.length ?_
      (fun a c _ hc => hc.extend _) (fun p c _ hc => hc.extend _) (fun _ h => h)
      (fun p hp => ?_)
    · exact ⟨Nat.le_refl _, clk, i, _, _, .cached d fs, d, by simp; rfl, by simp; rfl, rfl, hmem,
        hname, .inl ⟨fs, rfl⟩⟩
    · rcases sendsData_snoc hp with hp | ⟨hidx, fw, d', hfw, _, hg⟩
      · exact .inr hp
      · obtain rfl := Option.some.inj hfw
        exact .inl (Prod.ext hidx (hfs _ hg))
  · refine h.mono (fun _ h => h) (fun p hp => ?_) (fun _ _ _ hc => (hc.extend _).1)
      fun _ _ _ hc => (hc.extend _).1
    rcases sendsData_snoc hp with hp | ⟨_, fw, d', hfw, _, hg⟩
    · exact hp
    · obtain rfl := Option.some.inj hfw
      exact absurd (hfs _ hg ▸ hg) hmem

/-- What is open after a Data was open before, under a name the Data does not
satisfy. -/
theorem open_of_consume {now : Int} {name : Name} {a : Name × UInt32}
    (ha : IsOpen (t.consumeInterestWithDataName now name ∅).1 a) :
    IsOpen t a ∧ ¬ a.1 <+: name ∧
      (t.consumeInterestWithDataName now name ∅).1.record a.1 a.2 = t.record a.1 a.2 := by
  have hrec := Pit.record_consume t now name ∅
  rw [IsOpen, hrec] at ha
  split at ha
  · simp at ha
  · next hpre => exact ⟨ha, hpre, by rw [hrec, if_neg hpre]⟩

/-- Each face that a Data is sent on was handed out for a record of its own. -/
theorem exists_pick (n : Node) (now : Int) (name : Name) :
    ∃ pick : Int → Name × UInt32, ∀ g,
      g ∈ n.forwardToFaces (n.pit.consumeInterestWithDataName now name ∅).2 →
        (pick g).1 <+: name ∧ ∃ r, n.pit.record (pick g).1 (pick g).2 = some r ∧
          now < r.expire ∧ r.faceId = g := by
  have hex : ∀ g, ∃ a : Name × UInt32,
      g ∈ n.forwardToFaces (n.pit.consumeInterestWithDataName now name ∅).2 →
        a.1 <+: name ∧ ∃ r, n.pit.record a.1 a.2 = some r ∧ now < r.expire ∧ r.faceId = g := by
    intro g
    by_cases hg : g ∈ n.forwardToFaces (n.pit.consumeInterestWithDataName now name ∅).2
    · rcases Pit.mem_consume.mp (mem_forwardToFaces.mp hg).1 with hno | ⟨m, k, r, hm, hr, hexp, hg⟩
      · simp at hno
      · exact ⟨(m, k), fun _ => ⟨hm, r, hr, hexp, hg⟩⟩
    · exact ⟨([], 0), fun h => absurd h hg⟩
  choose pick hpick using hex
  exact ⟨pick, hpick⟩

/-- The Data of the last event consumes records, and every face it is sent on
had one. -/
theorem Books.handleData {n n' : Node} {clk : Clock} {f : Int} {d : Data}
    (h : Books n.pit (SendsData tr) (tr ++ [(e, o)])) (he : e.clock = some clk)
    (hs : n.handleData clk f d = .ok (n', o)) :
    Books n'.pit (SendsData (tr ++ [(e, o)])) (tr ++ [(e, o)]) := by
  have hopen := fun a => @open_of_consume n.pit clk.consume d.name a
  rcases handleData_cases hs with ⟨_, rfl, rfl⟩ | ⟨_, cache, _, rfl, rfl⟩
  · refine h.mono (fun a ha => (hopen a ha).1) (fun p hp => ?_)
      (fun a c ha hc => hc.of_record (hopen a ha).2.2) fun _ _ _ hc => hc
    rcases sendsData_snoc hp with hp | ⟨_, _, _, hnone, _⟩
    · exact hp
    · simp at hnone
  · obtain ⟨pick, hpick⟩ := exists_pick n clk.consume d.name
    generalize n.forwardToFaces
      (n.pit.consumeInterestWithDataName clk.consume d.name ∅).2 = faces at h hpick ⊢
    have hpay : Balanced (IsOpen (n.pit.consumeInterestWithDataName clk.consume d.name ∅).1)
        (SendsData (tr ++ [(e, some (.data d faces))]))
        (Owes n.pit (tr ++ [(e, some (.data d faces))]))
        (Answers (tr ++ [(e, some (.data d faces))])) := by
      refine h.pay (fun p => p.1 = tr.length ∧ p.2 ∈ faces) (fun p => pick p.2)
        ?_ ?_ ?_ ?_ ?_
      · intro p hp
        obtain ⟨_, r, hr, _⟩ := hpick p.2 hp.2
        rw [IsOpen, hr]
        rfl
      · intro p q hp hq heq
        obtain ⟨_, r, hr, _, hpf⟩ := hpick p.2 hp.2
        obtain ⟨_, r', hr', _, hqf⟩ := hpick q.2 hq.2
        rw [heq, hr'] at hr
        obtain rfl := Option.some.inj hr
        exact Prod.ext (hp.1.trans hq.1.symm) (hpf.symm.trans hqf)
      · rintro p c hp ⟨r, clk', i, o', hr, hc, hname, hexp⟩
        obtain ⟨hpre, r', hr', hlive, hg⟩ := hpick p.2 hp.2
        rw [hr] at hr'
        obtain rfl := Option.some.inj hr'
        have hlen := (List.getElem?_eq_some_iff.mp hc).1
        rw [List.length_append, List.length_singleton] at hlen
        have hle : c ≤ p.1 := by
          have := hp.1
          omega
        refine ⟨hle, clk', i, o', e, .data d faces, d, hg ▸ hc, by simp [hp.1], rfl, hp.2,
          hname ▸ hpre, .inr ⟨clk, he, hexp ▸ hlive⟩⟩
      · intro a ha
        refine ⟨(hopen a ha).1, ?_⟩
        rintro p hp rfl
        exact (hopen _ ha).2.1 (hpick p.2 hp.2).1
      · intro p hp
        rcases sendsData_snoc hp with hp | ⟨hidx, fw, d', hfw, _, hg⟩
        · exact .inr hp
        · obtain rfl := Option.some.inj hfw
          exact .inl ⟨hidx, hg⟩
    exact hpay.mono (fun _ h => h) (fun _ h => h)
      (fun a c ha hc => hc.of_record (hopen a ha).2.2) fun _ _ _ hc => hc

end Extend

section Step

variable {lib : NdnCxx} {n n' : Node} {tr : Trace} {e : NodeEvent} {o : Option Forward}

theorem books_interest {clk : Clock} {f : Int} {i : Interest}
    (h : Books n.pit (SendsData tr) tr) (hs : n.handleInterest lib clk f i = .ok (n', o)) :
    Books n'.pit (SendsData (tr ++ [(.interest clk f i, o)]))
      (tr ++ [(.interest clk f i, o)]) := by
  have hadd := h.addInterest clk f i o
  have hquiet : (∀ fw d, o = some fw → fw.wire ≠ .data d) →
      Books (n.pit.addInterest clk.add f i).2
        (SendsData (tr ++ [(.interest clk f i, o)])) (tr ++ [(.interest clk f i, o)]) := by
    intro ho
    refine hadd.mono (fun _ h => h) (fun p hp => ?_) (fun _ _ _ h => h) fun _ _ _ h => h
    rcases sendsData_snoc hp with hp | ⟨_, fw, d, hfw, hw, _⟩
    · exact hp
    · exact absurd hw (ho fw d hfw)
  rcases handleInterest_cases hs with ⟨d, hd, rfl, rfl⟩ | ⟨_, hrest⟩
  · exact h.cached (CacheManager.findMatchingData_eq_some hd) fun g hg =>
      (mem_forwardToFace.mp hg).1
  · rcases hrest with ⟨_, rfl, rfl⟩ | ⟨_, _, rfl, rfl⟩ | ⟨_, _, hcmd⟩ | ⟨_, _, _, rfl, rfl⟩
    · exact hquiet fun fw d hfw => by simp at hfw
    · exact hquiet fun fw d hfw => by simp at hfw
    · rcases processCommand_cases hcmd with ⟨rfl, rfl⟩ | ⟨fib, r, _, hresp⟩
      · exact hquiet fun fw d hfw => by simp at hfw
      · exact Books.handleData (f := 0) (n := (n.withPit (n.pit.addInterest clk.add f i).2).withFib fib)
          hadd rfl hresp
    · refine hquiet fun fw d hfw => ?_
      obtain rfl := Option.some.inj hfw
      simp [Forward.wire]

/-- Every event keeps the books balanced. -/
theorem books_step (h : Books n.pit (SendsData tr) tr) (hs : n.step lib e = .ok (n', o)) :
    Books n'.pit (SendsData (tr ++ [(e, o)])) (tr ++ [(e, o)]) := by
  have hnone : ∀ (fw : Forward) (d : Data), none = some fw → fw.wire ≠ .data d := by
    intro fw d hfw
    simp at hfw
  cases e with
  | interest clk f i => exact books_interest h hs
  | data clk f d =>
      have hold : Books n.pit (SendsData tr) (tr ++ [(.data clk f d, o)]) :=
        h.mono (fun _ h => h) (fun _ h => h) (fun _ _ _ hc => (hc.extend _).1)
          fun _ _ _ hc => (hc.extend _).1
      exact Books.handleData (f := f) hold rfl hs
  | removeFace f =>
      obtain ⟨hr, rfl⟩ := step_removeFace hs
      rw [removeFace_cases hr]
      exact h.idle (fun _ _ _ hr => hr) _ hnone
  | cleanUp now =>
      obtain ⟨rfl, rfl⟩ : _ = n' ∧ none = o := by simpa [step] using hs
      exact h.idle (fun _ _ _ hr => (Pit.record_cleanUp_eq_some.mp hr).1) _ hnone
  | addLinkFace mac dev =>
      obtain ⟨rfl, rfl⟩ : _ = n' ∧ none = o := by simpa [step] using hs
      exact h.idle (fun _ _ _ hr => hr) _ hnone
  | accept =>
      obtain ⟨face, _, rfl, rfl⟩ := step_accept hs
      exact h.idle (fun _ _ _ hr => hr) _ hnone

theorem books_run (hpit : n.pit = Pit.empty) (h : (system lib).Run n tr n') :
    Books n'.pit (SendsData tr) tr := by
  induction h with
  | nil =>
      rw [hpit]
      exact .empty (by simp [IsOpen]) (by simp [SendsData])
  | snoc _ _ hs ih => exact books_step ih hs

theorem step_faces_nodup (hs : n.step lib e = .ok (n', o)) :
    ∀ fw ∈ o, fw.faces.Nodup := by
  have hdata : ∀ {m m' : Node} {clk f d o'}, m.handleData clk f d = .ok (m', o') →
      ∀ fw ∈ o', fw.faces.Nodup := by
    intro m m' clk f d o' hd fw hfw
    rcases handleData_cases hd with ⟨_, _, rfl⟩ | ⟨_, c, _, _, rfl⟩
    · simp at hfw
    · obtain rfl := Option.some.inj hfw
      exact forwardToFaces_nodup _
  cases e with
  | interest clk f i =>
      rcases handleInterest_cases hs with ⟨d, _, _, rfl⟩ | ⟨_, ⟨_, _, rfl⟩ | ⟨_, _, _, rfl⟩ |
        ⟨_, _, hcmd⟩ | ⟨_, _, _, _, rfl⟩⟩
      · intro fw hfw
        obtain rfl := Option.some.inj hfw
        exact forwardToFace_nodup _
      · simp
      · simp
      · rcases processCommand_cases hcmd with ⟨_, rfl⟩ | ⟨fib, r, _, hresp⟩
        · simp
        · exact hdata (f := 0) hresp
      · intro fw hfw
        obtain rfl := Option.some.inj hfw
        exact forwardToFaces_nodup _
  | data clk f d => exact hdata (f := f) hs
  | removeFace f => simp [(step_removeFace hs).2]
  | cleanUp now =>
      obtain ⟨_, rfl⟩ : _ = n' ∧ none = o := by simpa [step] using hs
      simp
  | addLinkFace mac dev =>
      obtain ⟨_, rfl⟩ : _ = n' ∧ none = o := by simpa [step] using hs
      simp
  | accept =>
      obtain ⟨_, _, _, rfl⟩ := step_accept hs
      simp

end Step

/-! ## The balance of one face -/

/-- The number of Data packets passed to `Send` on a face. -/
def dataSent (tr : Trace) (f : Int) : Nat :=
  (tr.flatMap fun x => sends x.2).countP fun s => s.1 == f && s.2.isData

def arrivesOn (f : Int) (x : NodeEvent × Option Forward) : Bool :=
  match x.1 with
  | .interest _ g _ => g == f
  | _ => false

/-- The number of Interests that came in on a face. -/
def interestsReceived (tr : Trace) (f : Int) : Nat := tr.countP (arrivesOn f)

def sendsDataOn (f : Int) (x : NodeEvent × Option Forward) : Bool :=
  x.2.any fun fw => fw.wire.isData && fw.faces.contains f

theorem sendsData_iff {tr : Trace} {j : Nat} {f : Int} :
    SendsData tr (j, f) ↔ j ∈ positions (sendsDataOn f) tr := by
  rw [mem_positions]
  constructor
  · rintro ⟨e, fw, d, hj, hw, hf⟩
    exact ⟨_, hj, by simpa [sendsDataOn, hw, Wire.isData] using hf⟩
  · rintro ⟨⟨e, o⟩, hj, h⟩
    cases o with
    | none => simp [sendsDataOn] at h
    | some fw =>
        have hboth : fw.wire.isData = true ∧ f ∈ fw.faces := by simpa [sendsDataOn] using h
        cases hw : fw.wire with
        | interest i => simp [hw, Wire.isData] at hboth
        | data d => exact ⟨e, fw, d, hj, hw, hboth.2⟩

/-- Without repeated faces, a packet counts at most once on a face. -/
theorem dataSent_le {tr : Trace} {f : Int}
    (hnd : ∀ x ∈ tr, ∀ fw ∈ x.2, fw.faces.Nodup) :
    dataSent tr f ≤ tr.countP (sendsDataOn f) := by
  induction tr with
  | nil => simp [dataSent]
  | cons x tr ih =>
      have hone : (sends x.2).countP (fun s => s.1 == f && s.2.isData) ≤
          if sendsDataOn f x then 1 else 0 := by
        obtain ⟨e, o⟩ := x
        cases o with
        | none => simp
        | some fw =>
            have hfaces := hnd (e, some fw) (by simp) fw rfl
            by_cases hw : fw.wire.isData = true
            · have hcount : (sends (some fw)).countP (fun s => s.1 == f && s.2.isData) =
                  fw.faces.count f := by
                simp [sends, List.countP_map, Function.comp_def, hw, List.count]
              rw [hcount, hfaces.count]
              simp [sendsDataOn, hw]
            · simp [sends, List.countP_map, Function.comp_def, hw]
      have hsum : dataSent (x :: tr) f =
          (sends x.2).countP (fun s => s.1 == f && s.2.isData) + dataSent tr f := by
        simp [dataSent, List.countP_append]
      have htail := ih fun y hy => hnd y (by simp [hy])
      rw [hsum, List.countP_cons]
      omega

/-- **Flow balance.** Along any run of a node whose PIT starts empty, the Data
sent is matched, without repetition, to Interests that came in before on the
same face, that it answers and that had not expired when the PIT was
consumed. No event sends twice on one face, so the count of Data packets sent
on a face never exceeds the count of Interests received from it. -/
theorem flow_balance {lib : NdnCxx} {n n' : Node} {tr : Trace} (hpit : n.pit = Pit.empty)
    (h : (system lib).Run n tr n') :
    (∃ call : Nat × Int → Nat, (∀ p, SendsData tr p → Answers tr p (call p)) ∧
      ∀ p q, SendsData tr p → SendsData tr q → call p = call q → p = q) ∧
    (∀ x ∈ tr, ∀ fw ∈ x.2, fw.faces.Nodup) ∧
    ∀ f, dataSent tr f ≤ interestsReceived tr f := by
  obtain ⟨call, hcall, hinj⟩ := (books_run hpit h).matching
  have hnd : ∀ x ∈ tr, ∀ fw ∈ x.2, fw.faces.Nodup :=
    h.observes (I := fun _ => True) (P := fun _ o => ∀ fw ∈ o, fw.faces.Nodup)
      (fun _ _ _ _ _ _ hs => ⟨trivial, step_faces_nodup hs⟩) trivial
  refine ⟨⟨call, hcall, hinj⟩, hnd, fun f => ?_⟩
  calc dataSent tr f
      ≤ tr.countP (sendsDataOn f) := dataSent_le hnd
    _ ≤ tr.countP (arrivesOn f) := by
        refine countP_le_of_matching (fun j => call (j, f)) (fun j hj => ?_)
          fun j hj k hk heq => ?_
        · obtain ⟨_, clk, i, o, _, _, _, hc, _⟩ := hcall _ (sendsData_iff.mpr hj)
          exact mem_positions.mpr ⟨_, hc, by simp [arrivesOn]⟩
        · exact congrArg Prod.fst
            (hinj (j, f) (k, f) (sendsData_iff.mpr hj) (sendsData_iff.mpr hk) heq)

/-- The relay gets two copies of an Interest from one neighbour and the Data
from the other. -/
def relayRound : List NodeEvent :=
  [.interest (Clock.still 0) 1 ⟨[[1]], 7, 4000, false, 40⟩,
   .interest (Clock.still 5) 1 ⟨[[1]], 8, 4000, false, 40⟩,
   .data (Clock.still 9) 2 ⟨[[1], [2]], -1, [], 60⟩]

theorem flow_balance_relay : ∃ tr n',
    (system noCommands).exec relay relayRound = some (tr, n') ∧
    (∃ call : Nat × Int → Nat, (∀ p, SendsData tr p → Answers tr p (call p)) ∧
      ∀ p q, SendsData tr p → SendsData tr q → call p = call q → p = q) ∧
    (∀ x ∈ tr, ∀ fw ∈ x.2, fw.faces.Nodup) ∧
    ∀ f, dataSent tr f ≤ interestsReceived tr f :=
  ⟨_, _, rfl, flow_balance rfl (System.run_of_exec (show
    (system noCommands).exec relay relayRound = some _ from rfl))⟩

end Node

end NdnEm
