import NdnEm.Proofs.FibFaces

/-!
# What reaches the fib manager, and what it installs

The fib manager is given whatever the lookup finds a route to face 0 for. It
reads two components behind its own prefix, but a lookup matches every prefix
of a name, and a name that ends with the manager's prefix, or one component
later, matches it as well. Nothing else looks at the length.

What a register command installs is the number it carries, as an `int`. The
upper half of the 64 bits is dropped on the way, and a number that is not zero
can become the manager's own id.
-/

namespace NdnEm

open Lib

theorem toInt_lt (k : Int) : toInt k < 2 ^ 31 := by
  have hk := toInt_eq k
  split at hk <;> omega

/-- The face a command names: the one it came from, if it names none. -/
def ControlParameters.named (p : ControlParameters) (f : Int) : Int :=
  match p.faceId with
  | none => f
  | some x => if x = 0 then f else x.toNat

namespace ControlParameters

variable {p : ControlParameters} {f : Int}

theorem orRequester_name : (p.orRequester f).name = p.name := by
  unfold orRequester
  split <;> rfl

/-- The 64 bits that stand for the face a command names. -/
theorem orRequester_faceId (hlo : 0 ≤ f) (hhi : f < 2 ^ 31) :
    ∃ x, (p.orRequester f).faceId = some x ∧ (x.toNat : Int) = p.named f := by
  unfold orRequester named
  cases hp : p.faceId with
  | none =>
      rw [if_pos (.inl rfl)]
      exact ⟨_, rfl, Node.requester_toNat hlo hhi⟩
  | some x =>
      by_cases hx : x = 0
      · subst hx
        rw [if_pos (.inr rfl)]
        exact ⟨_, rfl, Node.requester_toNat hlo hhi⟩
      · rw [if_neg (by simpa using hx), hp]
        exact ⟨x, rfl, (if_neg hx).symm⟩

theorem named_ne_zero (hf : 1 ≤ f) : p.named f ≠ 0 := by
  unfold named
  split
  · omega
  · next x hp =>
      split
      · omega
      · next hx =>
          intro hzero
          exact hx (UInt64.toNat_inj.mp (Int.ofNat_eq_zero.mp hzero))

theorem named_lt_iff (hhi : f < 2 ^ 31) :
    p.named f < 2 ^ 31 ↔ ∀ x, p.faceId = some x → x.toNat < 2 ^ 31 := by
  unfold named
  cases hp : p.faceId with
  | none => simpa using hhi
  | some x =>
      by_cases hx : x = 0
      · subst hx
        simpa using hhi
      · simp only [if_neg hx, Option.some.injEq, forall_eq']
        omega

end ControlParameters

namespace Node

variable {lib : NdnCxx} {n n' : Node} {clk : Clock} {f : Int} {i : Interest}
  {e : NodeEvent} {o : Option Forward} {p : ControlParameters} {r : ControlResponse}

/-- The Interest goes to the fib manager. -/
structure Passes (n : Node) (clk : Clock) (f : Int) (i : Interest) : Prop where
  missed : n.cacheManager.findMatchingData clk.find i = none
  new : (n.pit.addInterest clk.add f i).1 = true
  routed : 0 ∈ (n.fib.lookUp i.name ∅).erase f

/-- The two indexes the fib manager reads are indexes of the name. -/
def ReadsInside (n : Node) (i : Interest) : Prop :=
  ∀ m, n.fibManager = some m →
    m.fibCmdPrefix.length < i.name.length ∧ m.fibCmdPrefix.length + 1 < i.name.length

/-- The store has the Interest's Data, its nonce is known, no prefix of its name
is routed to the fib manager, or the name has five components. -/
def CommandFits (n : Node) (clk : Clock) (f : Int) (i : Interest) : Prop :=
  n.cacheManager.findMatchingData clk.find i ≠ none ∨ (n.pit.addInterest clk.add f i).1 = false ∨
    (∀ p, p <+: i.name → 0 ∉ n.fib.faces p) ∨ 5 ≤ i.name.length

theorem handleInterest_of_passes (h : n.Passes clk f i) :
    n.handleInterest lib clk f i =
      (n.withPit (n.pit.addInterest clk.add f i).2).processCommand lib clk f i := by
  simp only [handleInterest, h.missed, h.new, if_true]
  rw [if_neg (Finset.ne_empty_of_mem h.routed), if_pos h.routed]
  rfl

/-- An index that is not one of the name is read all the same. -/
theorem processCommand_outside (hm : n.fibManager.isSome) (h : ¬ n.ReadsInside i) :
    n.processCommand lib clk f i = .error (.undefined "name component out of range") := by
  obtain ⟨m, hm⟩ := Option.isSome_iff_exists.mp hm
  have hlen : i.name.length ≤ m.fibCmdPrefix.length + 1 := by
    by_contra hlong
    refine h ?_
    intro m' hm'
    obtain rfl : m = m' := Option.some.inj (hm.symm.trans hm')
    omega
  have hnone : i.name[m.fibCmdPrefix.length + 1]? = none := List.getElem?_eq_none hlen
  simp only [processCommand, hm, hnone]
  split
  · next hsome => cases hsome
  · rfl

/-- The Interest is a register command that is answered with `r`. -/
def Responds (lib : NdnCxx) (n : Node) (clk : Clock) (f : Int) (i : Interest)
    (r : ControlResponse) : Prop :=
  n.Passes clk f i ∧ ∃ params fib, n.registerParameters lib i.name = some params ∧
    FibManager.addNextHop lib n.fib (params.orRequester f) = .ok (fib, r)

/-- A command that is answered with 200 adds the route to the face it names,
and echoes that face; any other leaves the FIB as it is. -/
structure InstallsNamed (lib : NdnCxx) (n : Node) (clk : Clock) (f : Int) (i : Interest)
    (n' : Node) : Prop where
  installed : ∀ r, n.Responds lib clk f i r → r.code = 200 →
    ∃ params b p x, n.registerParameters lib i.name = some params ∧ params.name = some p ∧
      r.body = some b ∧ b.name = some p ∧ b.faceId = some x ∧
      (x.toNat : Int) = params.named f ∧ params.named f ≠ 0 ∧
      n'.fib = n.fib.addRoute p (params.named f)
  unchanged : (∀ r, n.Responds lib clk f i r → r.code ≠ 200) → n'.fib = n.fib

/-- If the Interest is a register command that the fib manager is given and
accepts, and it carries a face id, then one of 31 bits. -/
def FaceIdFits (lib : NdnCxx) (n : Node) (clk : Clock) (f : Int) (i : Interest) : Prop :=
  n.Passes clk f i → ∀ params x, n.registerParameters lib i.name = some params →
    lib.validateRequest (params.orRequester f) = true → params.faceId = some x → x.toNat < 2 ^ 31

/-! ## Invariants -/

/-- The manager is in place, and what is in the FIB is an `int`: the number of a
command, or an id that the counter has passed. -/
structure Managed (n : Node) : Prop where
  manager : n.fibManager = some ⟨0, ribPrefix⟩
  routes : ∀ p g, g ∈ n.fib.faces p → g < 2 ^ 31 ∨ g < n.faceCounter

theorem handleData_manager {d : Data} (h : n.handleData clk f d = .ok (n', o)) :
    n'.fibManager = n.fibManager := by
  rcases handleData_cases h with ⟨_, rfl, _⟩ | ⟨_, c, _, rfl, _⟩
  · rfl
  · rfl

theorem processCommand_manager (h : n.processCommand lib clk f i = .ok (n', o)) :
    n'.fibManager = n.fibManager := by
  rcases processCommand_cases h with ⟨rfl, _⟩ | ⟨fib, r, _, hsend⟩
  · rfl
  · have hsame : n'.fibManager = (n.withFib fib).fibManager := handleData_manager (f := 0) hsend
    exact hsame

theorem handleInterest_manager (h : n.handleInterest lib clk f i = .ok (n', o)) :
    n'.fibManager = n.fibManager := by
  rcases handleInterest_cases h with ⟨_, _, rfl, _⟩ | ⟨_, ⟨_, rfl, _⟩ | ⟨_, _, rfl, _⟩ |
    ⟨_, _, hcmd⟩ | ⟨_, _, _, rfl, _⟩⟩
  · rfl
  · rfl
  · rfl
  · have hsame := processCommand_manager hcmd
    exact hsame
  · rfl

/-- Nothing that happens to a node touches its manager. -/
theorem step_manager (h : n.step lib e = .ok (n', o)) : n'.fibManager = n.fibManager := by
  cases e with
  | interest clk f i => exact handleInterest_manager h
  | data clk f d => exact handleData_manager (f := f) h
  | removeFace f =>
      rw [removeFace_cases (step_removeFace h).1]
  | cleanUp now =>
      obtain ⟨rfl, _⟩ := Prod.mk.inj (Except.ok.inj h)
      rfl
  | addLinkFace mac dev =>
      obtain ⟨rfl, _⟩ := Prod.mk.inj (Except.ok.inj h)
      rfl
  | accept =>
      obtain ⟨face, _, rfl, _⟩ := step_accept h
      rfl

/-- A route that an Interest adds is to the number of a command, as an `int`. -/
theorem handleInterest_route (h : n.handleInterest lib clk f i = .ok (n', o)) :
    n'.fib = n.fib ∨ ∃ p k, n'.fib = n.fib.addRoute p (toInt k) := by
  rcases handleInterest_cases h with ⟨_, _, rfl, _⟩ | ⟨_, ⟨_, rfl, _⟩ | ⟨_, _, rfl, _⟩ |
    ⟨_, _, hcmd⟩ | ⟨_, _, _, rfl, _⟩⟩
  · exact .inl rfl
  · exact .inl rfl
  · exact .inl rfl
  · rcases processCommand_route hcmd with hfib | ⟨_, p, x, _, _, _, _, hfib⟩
    · exact .inl hfib
    · exact .inr ⟨p, _, hfib⟩
  · exact .inl rfl

/-- A route that an event adds is to an `int`. -/
theorem step_route (h : n.step lib e = .ok (n', o)) {p : Name} {g : Int}
    (hg : g ∈ n'.fib.faces p) : g ∈ n.fib.faces p ∨ g < 2 ^ 31 := by
  rcases step_fib_cases h with hsame | ⟨f, _, hclean⟩ | ⟨clk, f, i, _, _, rfl, _⟩
  · exact .inl (hsame ▸ hg)
  · rw [hclean] at hg
    exact .inl (Fib.mem_cleanUp.mp hg).2
  · rcases handleInterest_route h with hsame | ⟨q, k, hadd⟩
    · exact .inl (hsame ▸ hg)
    · rw [hadd, Fib.mem_addRoute] at hg
      rcases hg with ⟨_, hgk⟩ | hold
      · have hlt := toInt_lt k
        exact .inr (hgk ▸ hlt)
      · exact .inl hold

theorem step_counter (h : n.step lib e = .ok (n', o)) : n.faceCounter ≤ n'.faceCounter := by
  rcases step_faceTable h with ⟨_, hcount, _⟩ | ⟨_, _, _, hcount, _⟩ | ⟨mac, dev, _, rfl⟩ |
    ⟨face, _, _, rfl⟩
  · omega
  · omega
  · show n.faceCounter ≤ n.faceCounter + 1
    omega
  · show n.faceCounter ≤ n.faceCounter + 1
    omega

theorem managed_step (hn : n.Managed) (h : n.step lib e = .ok (n', o)) : n'.Managed := by
  refine ⟨(step_manager h).trans hn.manager, ?_⟩
  intro p g hg
  have hcount := step_counter h
  rcases step_route h hg with hold | hlt
  · rcases hn.routes p g hold with hlt | hlt
    · exact .inl hlt
    · exact .inr (by omega)
  · exact .inl hlt

theorem FibValid.managed_start (hvalid : n.FibValid) (hcount : n.Counted) : n.start.Managed := by
  refine ⟨rfl, ?_⟩
  intro p g hg
  rcases hvalid.start p g hg with ⟨rfl, _⟩ | hmem
  · exact .inl (by omega)
  · have hlt := hcount.start.table g hmem
    exact .inr hlt

/-! ## The two conditions -/

theorem passes_iff (hf : 1 ≤ f) : n.Passes clk f i ↔
    n.cacheManager.findMatchingData clk.find i = none ∧ (n.pit.addInterest clk.add f i).1 = true ∧
      ∃ p, p <+: i.name ∧ 0 ∈ n.fib.faces p := by
  refine ⟨?_, ?_⟩
  · intro h
    exact ⟨h.missed, h.new, (mem_outList.mp h.routed).2⟩
  · intro h
    obtain ⟨hmiss, hnew, hroute⟩ := h
    exact ⟨hmiss, hnew, mem_outList.mpr ⟨by omega, hroute⟩⟩

theorem Managed.readsInside_iff (hn : n.Managed) : n.ReadsInside i ↔ 5 ≤ i.name.length := by
  have hlen : ribPrefix.length = 3 := rfl
  refine ⟨?_, ?_⟩
  · intro h
    have hlt : ribPrefix.length + 1 < i.name.length := (h _ hn.manager).2
    omega
  · intro h m hm
    obtain rfl := Option.some.inj (hn.manager.symm.trans hm)
    show ribPrefix.length < _ ∧ ribPrefix.length + 1 < _
    omega

theorem Managed.commandFits_iff (hn : n.Managed) (hf : 1 ≤ f) :
    (n.Passes clk f i → n.ReadsInside i) ↔ n.CommandFits clk f i := by
  rw [hn.readsInside_iff, passes_iff hf]
  refine ⟨?_, ?_⟩
  · intro h
    by_cases hmiss : n.cacheManager.findMatchingData clk.find i = none
    · by_cases hnew : (n.pit.addInterest clk.add f i).1 = true
      · by_cases hroute : ∃ p, p <+: i.name ∧ 0 ∈ n.fib.faces p
        · exact .inr (.inr (.inr (h ⟨hmiss, hnew, hroute⟩)))
        · exact .inr (.inr (.inl fun p hp hzero => hroute ⟨p, hp, hzero⟩))
      · exact .inr (.inl (Bool.eq_false_of_not_eq_true hnew))
    · exact .inl hmiss
  · intro hfits hpass
    obtain ⟨hmiss, hnew, p, hp, hzero⟩ := hpass
    rcases hfits with hhit | hknown | hno | hlen
    · exact absurd hmiss hhit
    · rw [hknown] at hnew
      cases hnew
    · exact absurd hzero (hno p hp)
    · exact hlen

/-- What an Interest does to the FIB when it does not reach the manager. -/
theorem handleInterest_of_not_passes (h : ¬ n.Passes clk f i)
    (hs : n.handleInterest lib clk f i = .ok (n', o)) : n'.fib = n.fib := by
  rcases handleInterest_cases hs with ⟨_, _, rfl, _⟩ | ⟨hmiss, ⟨_, rfl, _⟩ | ⟨_, _, rfl, _⟩ |
    ⟨hnew, hzero, _⟩ | ⟨_, _, _, rfl, _⟩⟩
  · rfl
  · rfl
  · rfl
  · exact absurd ⟨hmiss, hnew, hzero⟩ h
  · rfl

/-- A command that is handled: either nothing is installed, or the number of the
face it names, as an `int`, under the name it names, and both are echoed. -/
theorem responds_cases (hlib : lib.KeepsFields) (hlo : 1 ≤ f) (hhi : f < 2 ^ 31)
    (h : n.Passes clk f i) (hs : n.handleInterest lib clk f i = .ok (n', o)) :
    (n'.fib = n.fib ∧ (∀ params, n.registerParameters lib i.name = some params →
        lib.validateRequest (params.orRequester f) = false) ∧
      ∀ r, n.Responds lib clk f i r → r.code ≠ 200) ∨
    ∃ params p b x, n.registerParameters lib i.name = some params ∧
      lib.validateRequest (params.orRequester f) = true ∧ params.name = some p ∧
      b.name = some p ∧ b.faceId = some x ∧ (x.toNat : Int) = params.named f ∧
      n'.fib = n.fib.addRoute p (toInt (params.named f)) ∧
      ∀ r, n.Responds lib clk f i r ↔ r = ⟨200, "Success", some b⟩ := by
  rw [handleInterest_of_passes h] at hs
  rcases processCommand_spec hs with ⟨hnone, rfl, _⟩ | ⟨params, fib, r, hparams, hnext, hsend⟩
  · refine .inl ⟨rfl, ?_, ?_⟩
    · intro params hparams
      cases hnone.symm.trans hparams
    · intro r hr
      obtain ⟨_, params, fib, hparams, _⟩ := hr
      cases hnone.symm.trans hparams
  · have hfib : n'.fib = fib := (handleData_tables (f := 0) hsend).2.2.2
    have honly : ∀ r', n.Responds lib clk f i r' → r' = r := by
      intro r' hr'
      obtain ⟨_, params', fib', hparams', hnext'⟩ := hr'
      obtain rfl := Option.some.inj (hparams.symm.trans hparams')
      exact (Prod.mk.inj (Except.ok.inj (hnext'.symm.trans hnext))).2
    rcases FibManager.addNextHop_cases hnext with ⟨hv, rfl, rfl⟩ | ⟨hv, p, x, hp, hx, rfl, rfl⟩
    · refine .inl ⟨hfib, ?_, ?_⟩
      · intro params' hparams'
        exact Option.some.inj (hparams.symm.trans hparams') ▸ hv
      · intro r' hr'
        rw [honly r' hr']
        decide
    · obtain ⟨y, hy, hnamed⟩ := params.orRequester_faceId (f := f) (by omega) hhi
      obtain rfl := Option.some.inj (hx.symm.trans (hlib.faceId _ _ hy))
      have hname : params.name = some p := by
        rw [← ControlParameters.orRequester_name (f := f), ← hlib.name]
        exact hp
      refine .inr ⟨params, p, _, x, hparams, hv, hname, hp, hx, hnamed, hnamed ▸ hfib, ?_⟩
      intro r'
      refine ⟨honly r', ?_⟩
      rintro rfl
      exact ⟨h, params, _, hparams, hnext⟩

/-- The face that is echoed with 200 has the route that is echoed. -/
theorem InstallsNamed.mem_faces {b : ControlParameters} {p : Name} {x : UInt64}
    (h : n.InstallsNamed lib clk f i n') (hr : n.Responds lib clk f i r) (hcode : r.code = 200)
    (hb : r.body = some b) (hp : b.name = some p) (hx : b.faceId = some x) :
    (x.toNat : Int) ∈ n'.fib.faces p := by
  obtain ⟨params, b', p', x', _, _, hb', hp', hx', hnamed, _, hroute⟩ := h.installed r hr hcode
  obtain rfl := Option.some.inj (hb.symm.trans hb')
  obtain rfl := Option.some.inj (hp.symm.trans hp')
  obtain rfl := Option.some.inj (hx.symm.trans hx')
  rw [hroute, ← hnamed]
  exact Fib.mem_addRoute.mpr (.inl ⟨rfl, rfl⟩)

/-- What a command that the manager accepts has to fit in. -/
theorem faceIdFits_iff {params : ControlParameters} (hpass : n.Passes clk f i) (hhi : f < 2 ^ 31)
    (hparams : n.registerParameters lib i.name = some params)
    (hv : lib.validateRequest (params.orRequester f) = true) :
    n.FaceIdFits lib clk f i ↔ params.named f < 2 ^ 31 := by
  rw [ControlParameters.named_lt_iff hhi]
  refine ⟨fun h x hx => h hpass params x hparams hv hx, ?_⟩
  intro h _ params' x' hparams' _ hx'
  obtain rfl := Option.some.inj (hparams.symm.trans hparams')
  exact h x' hx'

/-- A face that is in the FIB, where only an `int` was added, is an `int`. -/
theorem lt_of_mem_addRoute {k g : Int} {p : Name} (hints : ∀ p g, g ∈ n.fib.faces p → g < 2 ^ 31)
    (hg : g ∈ (n.fib.addRoute p (toInt k)).faces p) : g < 2 ^ 31 := by
  rcases Fib.mem_addRoute.mp hg with ⟨_, heq⟩ | hold
  · have hlt := toInt_lt k
    exact heq ▸ hlt
  · exact hints p g hold

theorem installsNamed_iff (hlib : lib.KeepsFields) (hlo : 1 ≤ f) (hhi : f < 2 ^ 31)
    (hints : ∀ p g, g ∈ n.fib.faces p → g < 2 ^ 31)
    (hs : n.handleInterest lib clk f i = .ok (n', o)) :
    n.InstallsNamed lib clk f i n' ↔ n.FaceIdFits lib clk f i := by
  by_cases hpass : n.Passes clk f i
  · rcases responds_cases hlib hlo hhi hpass hs with ⟨hsame, hbad, hno⟩ |
      ⟨params, p, b, x, hparams, hv, hname, hp, hx, hnamed, hadd, hresp⟩
    · refine iff_of_true ⟨fun r hr h200 => absurd h200 (hno r hr), fun _ => hsame⟩ ?_
      intro _ params x hparams hv _
      rw [hbad params hparams] at hv
      cases hv
    · rw [faceIdFits_iff hpass hhi hparams hv]
      refine ⟨?_, ?_⟩
      · intro h
        have hmem := h.mem_faces ((hresp _).mpr rfl) rfl rfl hp hx
        rw [hadd, hnamed] at hmem
        exact lt_of_mem_addRoute hints hmem
      · intro hlt
        have hint : toInt (params.named f) = params.named f := toInt_of_range (by omega) hlt
        refine ⟨?_, ?_⟩
        · intro r hr _
          obtain rfl := (hresp r).mp hr
          exact ⟨params, b, p, x, hparams, hname, rfl, hp, hx, hnamed,
            ControlParameters.named_ne_zero hlo, hint ▸ hadd⟩
        · intro hnone
          exact absurd rfl (hnone _ ((hresp _).mpr rfl))
  · refine iff_of_true ⟨?_, fun _ => handleInterest_of_not_passes hpass hs⟩ ?_
    · intro r hr
      exact absurd hr.1 hpass
    · intro h
      exact absurd h hpass

/-- Face 0 is in the FIB under the manager's own prefix only. -/
def Reserved (n : Node) : Prop := ∀ p, 0 ∈ n.fib.faces p → p = ribPrefix

theorem Reserved.addRoute {p : Name} {g : Int} (h : n.Reserved) (hg : g ≠ 0)
    (hfib : n'.fib = n.fib.addRoute p g) : n'.Reserved := by
  intro q hq
  rw [hfib, Fib.mem_addRoute] at hq
  rcases hq with ⟨_, heq⟩ | hold
  · exact absurd heq.symm hg
  · exact h q hold

theorem reserved_interest (hlib : lib.KeepsFields) (h : n.Reserved) (hlo : 1 ≤ f)
    (hhi : f < 2 ^ 31) (hfits : n.FaceIdFits lib clk f i)
    (hs : n.handleInterest lib clk f i = .ok (n', o)) : n'.Reserved := by
  have hsame : n'.fib = n.fib → n'.Reserved := fun hfib p hp => h p (hfib ▸ hp)
  by_cases hpass : n.Passes clk f i
  · rcases responds_cases hlib hlo hhi hpass hs with ⟨hfib, _⟩ |
      ⟨params, p, b, x, hparams, hv, _, _, _, hnamed, hadd, _⟩
    · exact hsame hfib
    · have hlt := (faceIdFits_iff hpass hhi hparams hv).mp hfits
      rw [toInt_of_range (by omega) hlt] at hadd
      exact h.addRoute (ControlParameters.named_ne_zero hlo) hadd
  · exact hsame (handleInterest_of_not_passes hpass hs)

theorem reserved_step (hlib : lib.KeepsFields) (h : n.Reserved)
    (hfits : ∀ clk f i, e = .interest clk f i →
      1 ≤ f ∧ f < 2 ^ 31 ∧ n.FaceIdFits lib clk f i)
    (hs : n.step lib e = .ok (n', o)) : n'.Reserved := by
  rcases step_fib_cases hs with hsame | ⟨f, _, hclean⟩ | ⟨clk, f, i, _, _, rfl, _⟩
  · intro p hp
    exact h p (hsame ▸ hp)
  · intro p hp
    rw [hclean] at hp
    exact h p (Fib.mem_cleanUp.mp hp).2
  · obtain ⟨hlo, hhi, hfit⟩ := hfits clk f i rfl
    exact reserved_interest hlib h hlo hhi hfit hs

end Node

namespace Emulator

variable {mode : Rearm} {lib : NdnCxx} {em em' : Emulator} {c : Config}
  {tr : List (Event × Output)} {id : String} {n : Node}

theorem managed_move {k : Nat} (h : ∀ id n, em.nodeTable.find id = some n → n.Managed)
    (hm : Move mode lib k em em') : ∀ id n, em'.nodeTable.find id = some n → n.Managed :=
  forall_nodes_move h (fun _ _ _ _ _ hn hs _ => Node.managed_step (h _ _ hn) hs) hm

/-- What is known of a node in a network that runs. -/
structure Reached (n : Node) : Prop where
  guarded : n.Guarded
  counted : n.Counted
  managed : n.Managed

theorem reached_run (hc : readNetworkConfig c = .ok em)
    (hrun : (system mode lib).Run em.start tr em') (hn : em'.nodeTable.find id = some n) :
    Reached n := by
  have hsound := sound_config hc
  have hstart : ∀ id n, em.start.nodeTable.find id = some n → n.Managed := by
    intro id n hn
    obtain ⟨m, hm, heq⟩ := FinMap.find_filterMap_eq_some.mp hn
    obtain rfl := Option.some.inj heq
    exact (hsound.valid _ _ hm).managed_start (hsound.grounded.counted _ _ hm)
  obtain ⟨hground, habove, hmanaged⟩ := hrun.invariant
    (I := fun a => a.Grounded ∧ a.Above Node.Guarded ∧
      ∀ id n, a.nodeTable.find id = some n → n.Managed)
    (by
      rintro a e b o ⟨hground, habove, hmanaged⟩ he hs
      exact ⟨step_preserves (fun _ _ => grounded_move) hground he hs,
        step_preserves (fun _ _ => above_move) habove he hs,
        step_preserves (fun _ _ => managed_move) hmanaged he hs⟩)
    ⟨grounded_start hsound.grounded, above_start (above_config hc), hstart⟩
  exact ⟨habove.nodes _ _ hn, hground.counted _ _ hn, hmanaged _ _ hn⟩

/-- **Command parsing stays inside the name** of exactly the Interests that do
not reach the manager, or have five components. -/
theorem command_indexes_inside_iff {clk : Clock} {f : Int} {i : Interest}
    (hc : readNetworkConfig c = .ok em) (hrun : (system mode lib).Run em.start tr em')
    (hn : em'.nodeTable.find id = some n) (hf : f ∈ n.faceTable.keys) :
    (n.Passes clk f i → n.ReadsInside i) ↔ n.CommandFits clk f i := by
  have hreach := reached_run hc hrun hn
  exact hreach.managed.commandFits_iff (hreach.guarded.table f hf)

/-- A client connects to the first node, and gets face 2. -/
def connectRun : List (Event × Output) := [(.accept "n0", .quiet)]

/-- A register command of the client. -/
def registerCommand (k : UInt8) : Interest :=
  ⟨ribPrefix ++ [component "register", [k]], 1, 4000, false, 80⟩

theorem command_indexes_inside_register : ∃ em em' n, readNetworkConfig pairConfig = .ok em ∧
    (system .late byteCommands).Run em.start connectRun em' ∧
    em'.nodeTable.find "n0" = some n ∧ n.Passes (Clock.still 0) 2 (registerCommand 2) ∧
    n.ReadsInside (registerCommand 2) := by
  obtain ⟨em, em', n, hc, hrun, hn, hf, hpass⟩ : ∃ em em' n, readNetworkConfig pairConfig = .ok em ∧
      (system .late byteCommands).Run em.start connectRun em' ∧
      em'.nodeTable.find "n0" = some n ∧ 2 ∈ n.faceTable.keys ∧
      n.Passes (Clock.still 0) 2 (registerCommand 2) :=
    ⟨_, _, _, rfl, .single ⟨_, rfl, rfl⟩ rfl, rfl, by decide, ⟨rfl, rfl, by decide⟩⟩
  have hlen : 5 ≤ (registerCommand 2).name.length := by decide
  exact ⟨em, em', n, hc, hrun, hn, hpass,
    (command_indexes_inside_iff hc hrun hn hf).mpr (.inr (.inr (.inr hlen))) hpass⟩

/-- The client sends an Interest for the manager's own prefix. -/
theorem prefix_read_outside : ∃ em em' n, readNetworkConfig pairConfig = .ok em ∧
    (system .late byteCommands).Run em.start connectRun em' ∧
    em'.nodeTable.find "n0" = some n ∧ 2 ∈ n.faceTable.keys ∧
    n.handleInterest byteCommands (Clock.still 0) 2 ⟨ribPrefix, 1, 4000, false, 40⟩ =
      .error (.undefined "name component out of range") ∧
    ¬ (n.Passes (Clock.still 0) 2 ⟨ribPrefix, 1, 4000, false, 40⟩ →
      n.ReadsInside ⟨ribPrefix, 1, 4000, false, 40⟩) := by
  refine ⟨_, _, _, rfl, .single ⟨_, rfl, rfl⟩ rfl, rfl, by decide, rfl, ?_⟩
  intro h
  have hlt := (h ⟨rfl, rfl, by decide⟩ ⟨0, ribPrefix⟩ rfl).1
  revert hlt
  decide

/-- Commands whose face id is a byte, 32 bits up. -/
def highCommands : NdnCxx :=
  { byteCommands with
    decodeParameters := fun
      | [k] => some ⟨some [[1]], some (k.toUInt64 <<< 32), []⟩
      | _ => none }

/-- A command that the event brings to a fib manager names a face by 31 bits. -/
def FaceIdsFit (lib : NdnCxx) (em : Emulator) (e : Event) : Prop :=
  ∀ id clk f i n, em.nodeEvent e = some (id, .interest clk f i) →
    em.nodeTable.find id = some n → n.FaceIdFits lib clk f i

/-- The network, as long as register commands name faces by 31 bits. -/
def fitting (mode : Rearm) (lib : NdnCxx) : System Emulator Event Output Fault :=
  (system mode lib).restrict fun em e => em.FaceIdsFit lib e ∧ em.CountersFit

theorem reserved_step {e : Event} {out : Output} (hlib : lib.KeepsFields) (hground : em.Grounded)
    (habove : em.Above Node.Guarded) (h : ∀ id n, em.nodeTable.find id = some n → n.Reserved)
    (he : (fitting mode lib).Enabled em e) (hs : em.step mode lib e = .ok (em', out)) :
    ∀ id n, em'.nodeTable.find id = some n → n.Reserved := by
  obtain ⟨hen, hfits, hcount⟩ := he
  refine forall_nodes_step h ?_ ?_ hs
  · intro id ne n n' o hev hn hstep
    refine Node.reserved_step hlib (h _ _ hn) ?_ hstep
    rintro clk f i rfl
    obtain ⟨_, hlo, hhi⟩ := arrival_range hground habove hcount hen hev hn
    exact ⟨hlo, hhi, hfits id clk f i n hev hn⟩
  · intro id n src ref hn
    exact h id n hn

theorem reserved_start (hc : readNetworkConfig c = .ok em) :
    ∀ id n, em.start.nodeTable.find id = some n → n.Reserved := by
  intro id n hn p hp
  have hguard := (above_start (above_config hc)).nodes id n hn
  obtain ⟨m, hm, heq⟩ := FinMap.find_filterMap_eq_some.mp hn
  obtain rfl := Option.some.inj heq
  rcases ((sound_config hc).valid _ _ hm).start p 0 hp with ⟨_, hrib⟩ | hmem
  · exact hrib
  · have hone := hguard.table 0 hmem
    omega

/-- In a network whose commands name faces by 31 bits, the manager keeps its
prefix, and gets no other. -/
theorem manager_prefix_reserved {p : Name} (hlib : lib.KeepsFields)
    (hc : readNetworkConfig c = .ok em) (hrun : (fitting mode lib).Run em.start tr em')
    (hn : em'.nodeTable.find id = some n) : 0 ∈ n.fib.faces p ↔ p = ribPrefix := by
  obtain ⟨_, habove, hreserved⟩ := hrun.invariant
    (I := fun a => a.Grounded ∧ a.Above Node.Guarded ∧
      ∀ id n, a.nodeTable.find id = some n → n.Reserved)
    (by
      rintro a e b o ⟨hground, habove, h⟩ he hs
      exact ⟨step_preserves (fun _ _ => grounded_move) hground he.1 hs,
        step_preserves (fun _ _ => above_move) habove he.1 hs,
        reserved_step hlib hground habove h he hs⟩)
    ⟨grounded_start (sound_config hc).grounded, above_start (above_config hc), reserved_start hc⟩
  refine ⟨hreserved _ _ hn p, ?_⟩
  rintro rfl
  exact (habove.nodes _ _ hn).rib

/-- There, what is read outside of its name is the manager's prefix itself, or
the prefix and one component. -/
theorem outside_names {clk : Clock} {f : Int} {i : Interest} (hlib : lib.KeepsFields)
    (hc : readNetworkConfig c = .ok em) (hrun : (fitting mode lib).Run em.start tr em')
    (hn : em'.nodeTable.find id = some n) (hf : f ∈ n.faceTable.keys) :
    (n.Passes clk f i ∧ ¬ n.ReadsInside i) ↔
      n.cacheManager.findMatchingData clk.find i = none ∧
      (n.pit.addInterest clk.add f i).1 = true ∧
      (i.name = ribPrefix ∨ ∃ verb, i.name = ribPrefix ++ [verb]) := by
  have hreach := reached_run hc (System.Run.of_restrict hrun) hn
  have hthree : ribPrefix.length = 3 := rfl
  rw [Node.passes_iff (hreach.guarded.table f hf), hreach.managed.readsInside_iff]
  refine ⟨?_, ?_⟩
  · intro h
    obtain ⟨⟨hmiss, hnew, p, ⟨rest, hrest⟩, hzero⟩, hshort⟩ := h
    obtain rfl := (manager_prefix_reserved hlib hc hrun hn).mp hzero
    refine ⟨hmiss, hnew, ?_⟩
    rw [← hrest, List.length_append] at hshort
    match rest, hrest, hshort with
    | [], hrest, _ => exact .inl (by rw [← hrest, List.append_nil])
    | [verb], hrest, _ => exact .inr ⟨verb, hrest.symm⟩
    | _ :: _ :: _, _, hshort =>
        simp only [List.length_cons] at hshort
        omega
  · have hzero := (manager_prefix_reserved (p := ribPrefix) hlib hc hrun hn).mpr rfl
    rintro ⟨hmiss, hnew, hname | ⟨verb, hname⟩⟩
    · refine ⟨⟨hmiss, hnew, ribPrefix, ?_, hzero⟩, ?_⟩
      · rw [hname]
      · rw [hname]
        omega
    · refine ⟨⟨hmiss, hnew, ribPrefix, ?_, hzero⟩, ?_⟩
      · rw [hname]
        exact List.prefix_append _ _
      · rw [hname, List.length_append, List.length_singleton]
        omega

end Emulator

end NdnEm
