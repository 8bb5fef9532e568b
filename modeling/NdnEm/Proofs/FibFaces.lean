import NdnEm.Proofs.FaceTables
import NdnEm.Proofs.LinkFaces

/-!
# The faces of the FIB

A face id gets into the FIB with a static route, as the face a command came
from, or as the number a command carries. The first two are ids of the face
table, and the one way out of the table, `RemoveFace`, takes the id out of the
FIB as well. The number of a command is installed as it is: nothing looks it up
in the face table.
-/

namespace NdnEm

open Lib

/-- The defaults of a register command touch neither its name nor a face id it
has. -/
structure NdnCxx.KeepsFields (lib : NdnCxx) : Prop where
  name : ∀ p, (lib.applyDefaultsToRequest p).name = p.name
  faceId : ∀ p x, p.faceId = some x → (lib.applyDefaultsToRequest p).faceId = some x

namespace Node

variable {lib : NdnCxx} {n n' : Node} {clk : Clock} {f : Int} {i : Interest}
  {o : Option Forward}

/-- A face id in the FIB is in the face table, or is the fib manager's, under
its own prefix. -/
def FibValid (n : Node) : Prop :=
  ∀ p g, g ∈ n.fib.faces p → (g = 0 ∧ p = ribPrefix) ∨ g ∈ n.faceTable.keys

/-- If the Interest is a register command that the fib manager is given and
accepts, and it carries a face id, then that id, as an `int`, is in the face
table, or is 0 and the route is the fib manager's own. -/
def NamesPresentFace (lib : NdnCxx) (n : Node) (clk : Clock) (f : Int) (i : Interest) : Prop :=
  n.cacheManager.findMatchingData clk.find i = none → (n.pit.addInterest clk.add f i).1 = true →
  0 ∈ (n.fib.lookUp i.name ∅).erase f →
  ∀ params x, n.registerParameters lib i.name = some params → lib.validateRequest params = true →
    params.faceId = some x → x ≠ 0 →
    toInt x.toNat ∈ n.faceTable.keys ∨ (toInt x.toNat = 0 ∧ params.name = some ribPrefix)

theorem processCommand_route (h : n.processCommand lib clk f i = .ok (n', o)) :
    n'.fib = n.fib ∨ ∃ params p x, n.registerParameters lib i.name = some params ∧
      lib.validateRequest (params.orRequester f) = true ∧
      (lib.applyDefaultsToRequest (params.orRequester f)).name = some p ∧
      (lib.applyDefaultsToRequest (params.orRequester f)).faceId = some x ∧
      n'.fib = n.fib.addRoute p (toInt x.toNat) := by
  rcases processCommand_spec h with ⟨_, rfl, _⟩ | ⟨params, fib, r, hparams, hnext, hsend⟩
  · exact .inl rfl
  · have hfib : n'.fib = fib := (handleData_tables (f := 0) hsend).2.2.2
    rcases FibManager.addNextHop_cases hnext with ⟨_, rfl, _⟩ | ⟨hv, p, x, hp, hx, rfl, _⟩
    · exact .inl hfib
    · exact .inr ⟨params, p, x, hparams, hv, hp, hx, hfib⟩

/-- The id of a face, as the 64 bits of a command. -/
theorem requester_toNat (hlo : 0 ≤ f) (hhi : f < 2 ^ 31) :
    ((UInt64.ofNat (toSize f)).toNat : Int) = f := by
  have hsize : (toSize f : Int) = f := toSize_of_range hlo (by omega)
  have hlt : toSize f < UInt64.size := by
    rw [UInt64.size]
    omega
  rw [UInt64.toNat_ofNat_of_lt' hlt, hsize]

theorem toInt_requester (hlo : 0 ≤ f) (hhi : f < 2 ^ 31) :
    toInt (UInt64.ofNat (toSize f)).toNat = f := by
  rw [requester_toNat hlo hhi]
  exact toInt_of_range (by omega) hhi

/-- An Interest from a face of the table leaves the FIB valid. -/
theorem fibValid_interest (hlib : lib.KeepsFields) (hvalid : n.FibValid)
    (hf : f ∈ n.faceTable.keys) (hlo : 0 ≤ f) (hhi : f < 2 ^ 31)
    (hnames : n.NamesPresentFace lib clk f i)
    (h : n.handleInterest lib clk f i = .ok (n', o)) : n'.FibValid := by
  obtain ⟨htab, _, _, _⟩ := handleInterest_tables h
  have hsame : n'.fib = n.fib → n'.FibValid := by
    intro hfib p g hg
    rw [htab]
    exact hvalid p g (hfib ▸ hg)
  rcases handleInterest_cases h with ⟨_, _, rfl, _⟩ | ⟨hmiss, ⟨_, rfl, _⟩ | ⟨_, _, rfl, _⟩ |
    ⟨hnew, hzero, hcmd⟩ | ⟨_, _, _, rfl, _⟩⟩
  · exact hvalid
  · exact hsame rfl
  · exact hsame rfl
  · rcases processCommand_route hcmd with hfib | ⟨params, p, x, hparams, hv, hp, hx, hfib⟩
    · exact hsame hfib
    · intro q g hg
      rw [hfib, Fib.mem_addRoute] at hg
      rcases hg with ⟨hq, hgx⟩ | hg
      · rw [htab, hq, hgx]
        by_cases hnone : params.faceId = none ∨ params.faceId = some 0
        · rw [ControlParameters.orRequester, if_pos hnone] at hx
          have hsome := hlib.faceId { params with faceId := some (UInt64.ofNat (toSize f)) }
            (UInt64.ofNat (toSize f)) rfl
          rw [Option.some.inj (hx.symm.trans hsome), toInt_requester hlo hhi]
          exact .inr hf
        · rw [ControlParameters.orRequester, if_neg hnone] at hv hp hx
          rw [hlib.name] at hp
          obtain ⟨y, hy⟩ := Option.ne_none_iff_exists'.mp fun hn => hnone (.inl hn)
          obtain rfl := Option.some.inj (hx.symm.trans (hlib.faceId _ _ hy))
          have hnz : x ≠ 0 := fun hz => hnone (.inr (hz ▸ hy))
          rcases hnames hmiss hnew hzero params x hparams hv hy hnz with hmem | ⟨h0, hrib⟩
          · exact .inr hmem
          · exact .inl ⟨h0, Option.some.inj (hp.symm.trans hrib)⟩
      · rw [htab]
        exact hvalid q g hg
  · exact hsame rfl

theorem fibValid_new (id : String) (limit : Int) : (new id limit).FibValid := by
  intro p g hg
  simp [new] at hg

theorem FibValid.addLinkFace (h : n.FibValid) (mac : MacAddr) (dev : DeviceRef) :
    (n.addLinkFace mac dev).1.FibValid := by
  intro p g hg
  rcases h p g hg with hzero | hmem
  · exact .inl hzero
  · exact .inr (Finset.mem_insert_of_mem hmem)

theorem FibValid.start (h : n.FibValid) : n.start.FibValid := by
  intro p g hg
  rcases Fib.mem_addRoute.mp hg with ⟨hp, hg⟩ | hg
  · exact .inl ⟨hg, hp⟩
  · exact h p g hg

/-- A route to a face of the table. -/
theorem FibValid.addRoute {p : Name} {g : Int} (h : n.FibValid) (hg : g ∈ n.faceTable.keys) :
    ({ n with fib := n.fib.addRoute p g } : Node).FibValid := by
  intro q g' hg'
  rcases Fib.mem_addRoute.mp hg' with ⟨_, rfl⟩ | hold
  · exact .inr hg
  · exact h q g' hold

theorem fibValid_step {e : NodeEvent} (hlib : lib.KeepsFields) (hvalid : n.FibValid)
    (harrives : ∀ clk f i, e = .interest clk f i →
      f ∈ n.faceTable.keys ∧ 0 ≤ f ∧ f < 2 ^ 31 ∧ n.NamesPresentFace lib clk f i)
    (hs : n.step lib e = .ok (n', o)) : n'.FibValid := by
  cases e with
  | interest clk f i =>
      obtain ⟨hf, hlo, hhi, hnames⟩ := harrives clk f i rfl
      exact fibValid_interest hlib hvalid hf hlo hhi hnames hs
  | data clk f d =>
      obtain ⟨htab, _, _, hfib⟩ := handleData_tables (f := f) hs
      intro p g hg
      rw [htab]
      exact hvalid p g (hfib ▸ hg)
  | removeFace f =>
      rw [removeFace_cases (step_removeFace hs).1]
      intro p g hg
      obtain ⟨hne, hg⟩ := Fib.mem_cleanUp.mp hg
      rcases hvalid p g hg with hzero | hmem
      · exact .inl hzero
      · exact .inr (Finset.mem_erase.mpr ⟨hne, hmem⟩)
  | cleanUp now =>
      obtain ⟨rfl, _⟩ := Prod.mk.inj (Except.ok.inj hs)
      exact hvalid
  | addLinkFace mac dev =>
      obtain ⟨rfl, _⟩ := Prod.mk.inj (Except.ok.inj hs)
      exact hvalid.addLinkFace mac dev
  | accept =>
      obtain ⟨face, _, rfl, _⟩ := step_accept hs
      intro p g hg
      rcases hvalid p g hg with hzero | hmem
      · exact .inl hzero
      · exact .inr (Finset.mem_insert_of_mem hmem)

end Node

namespace Emulator

variable {mode : Rearm} {lib : NdnCxx} {em em' : Emulator}

/-- The face ids of all FIBs are valid. -/
def FibsValid (em : Emulator) : Prop := ∀ id n, em.nodeTable.find id = some n → n.FibValid

/-- A command that the event brings to a fib manager names a face of its node,
if it names one. -/
def RegistersPresent (lib : NdnCxx) (em : Emulator) (e : Event) : Prop :=
  ∀ id clk f i n, em.nodeEvent e = some (id, .interest clk f i) →
    em.nodeTable.find id = some n → n.NamesPresentFace lib clk f i

/-- The face counters have not overflowed. -/
def CountersFit (em : Emulator) : Prop :=
  ∀ id n, em.nodeTable.find id = some n → n.faceCounter ≤ 2 ^ 31

/-- The network, as long as register commands name faces that are there. -/
def validated (mode : Rearm) (lib : NdnCxx) : System Emulator Event Output Fault :=
  (system mode lib).restrict fun em e => em.RegistersPresent lib e ∧ em.CountersFit

/-! ## The configuration -/

/-- What the passes of the configuration keep. -/
structure Sound (em : Emulator) : Prop where
  grounded : em.Grounded
  ids : ∀ id n, em.nodeTable.find id = some n → n.id = id
  valid : em.FibsValid

theorem fibsValid_setNode {id : String} {n : Node} (h : em.FibsValid) (hn : n.FibValid) :
    (em.setNode id n).FibsValid :=
  FinMap.forall_insert h hn

theorem fibsValid_topology {c : Config} (h : readTopology c = .ok em) : em.FibsValid := by
  refine readTopology_induct (P := FibsValid) (Q := fun a n => a.FibsValid ∧ n.FibValid)
    ?_ ?_ ?_ ?_ ?_ ?_ h
  · intro id n hn
    cases hn
  · exact fun a id l h => h
  · exact fun a n id l h => h
  · exact fun a id limit h _ => ⟨h, Node.fibValid_new id limit⟩
  · exact fun a n dev mac link h _ _ => ⟨h.1, h.2.addLinkFace _ _⟩
  · exact fun a n h => fibsValid_setNode h.1 h.2

/-- A static route is to a face of its node. -/
theorem sound_readRoute {id : String} {r : RouteConfig} (h : em.Sound)
    (hread : em.readRoute id r = .ok em') : em'.Sound := by
  have hground := grounded_readRoute h.grounded hread
  obtain ⟨hop, n, n', _, hn, hadd, rfl⟩ := readRoute_cases hread
  have hid := h.ids _ _ hn
  have hvalid := h.valid _ _ hn
  have hids : ∀ {m : Node}, m.id = n.id → ∀ id' m', (em.setNode id m).nodeTable.find id' =
      some m' → m'.id = id' := by
    intro m hm
    exact FinMap.forall_insert h.ids (hm.trans hid)
  obtain ⟨d, hd, ⟨face, hf, rfl⟩ | ⟨_, rfl⟩⟩ := addRoute_cases hadd
  · obtain ⟨m, hm, hface⟩ := h.grounded.devices _ _ _ _ hd hf
    obtain rfl : n = m := Option.some.inj (hn.symm.trans (hid ▸ hm))
    exact ⟨hground, hids rfl, fibsValid_setNode h.valid
      (hvalid.addRoute (FinMap.mem_keys_of_find hface))⟩
  · have hnew : n.faceCounter ∈ (n.addLinkFace hop ⟨n.id, r.interface⟩).1.faceTable.keys :=
      Finset.mem_insert_self _ _
    exact ⟨hground, hids rfl, fibsValid_setNode h.valid
      ((hvalid.addLinkFace hop ⟨n.id, r.interface⟩).addRoute hnew)⟩

theorem sound_config {c : Config} (h : readNetworkConfig c = .ok em) : em.Sound := by
  obtain ⟨em₁, em₂, h₁, h₂, h₃⟩ := readNetworkConfig_cases h
  have htop : em₁.Sound :=
    ⟨grounded_topology h₁, (plain_topology h₁).ids, fibsValid_topology h₁⟩
  have hroutes : em₂.Sound :=
    readAll_preserves (fun a x b _ ha hread => sound_readRoute ha hread) htop h₂
  refine readAll_preserves (fun a x b _ ha hread => readMatrix_preserves
    (fun a id l h => ⟨?_, h.ids, h.valid⟩) ha hread) hroutes h₃
  exact ⟨h.grounded.counted, h.grounded.devices, h.grounded.posted⟩

/-! ## Runs -/

/-- An Interest that is handled came in on a face that is there. -/
theorem arrival_present {e : Event} {id : String} {n : Node} {clk : Clock} {f : Int}
    {i : Interest} (h : em.Grounded) (he : em.Enabled e)
    (hev : em.nodeEvent e = some (id, .interest clk f i))
    (hn : em.nodeTable.find id = some n) : f ∈ n.faceTable.keys := by
  have harrival : ∀ {clk' : Clock} {f' : Int} {w : Wire},
      arrival clk' f' w = .interest clk f i → f' = f := by
    intro clk' f' w hw
    cases w with
    | interest j => exact (NodeEvent.interest.inj hw).2.1
    | data d => cases hw
  cases e with
  | appReceive id' face clk' raw blk =>
      cases blk with
      | packet w =>
          obtain ⟨rfl, hw⟩ := Prod.mk.inj (Option.some.inj hev)
          obtain rfl := harrival hw
          obtain ⟨m, hm, happ⟩ := he
          obtain rfl : n = m := Option.some.inj (Eq.trans hn.symm hm)
          exact FinMap.mem_keys_of_find happ
      | malformed => cases hev
      | unknown => cases hev
  | appClose id' face => cases (Prod.mk.inj (Option.some.inj hev)).2
  | accept id' => cases (Prod.mk.inj (Option.some.inj hev)).2
  | cleanUp id' now => cases (Prod.mk.inj (Option.some.inj hev)).2
  | run j clk' raw drop =>
      simp only [nodeEvent] at hev
      split at hev
      · next id' face w hp =>
          obtain ⟨rfl, hw⟩ := Prod.mk.inj (Option.some.inj hev)
          obtain rfl := harrival hw
          obtain ⟨mac, ref, m, hm, hface⟩ := h.posted _ _ _ (List.mem_of_getElem? hp)
          obtain rfl : n = m := Option.some.inj (hn.symm.trans hm)
          exact FinMap.mem_keys_of_find hface
      · cases hev
      · cases hev
  | timer ref t => cases hev
  | tick k => cases hev

/-- Its id is one of a link or a client, and has not overflowed. -/
theorem arrival_range {e : Event} {id : String} {n : Node} {clk : Clock} {f : Int} {i : Interest}
    (hground : em.Grounded) (habove : em.Above Node.Guarded) (hfit : em.CountersFit)
    (he : em.Enabled e) (hev : em.nodeEvent e = some (id, .interest clk f i))
    (hn : em.nodeTable.find id = some n) : f ∈ n.faceTable.keys ∧ 1 ≤ f ∧ f < 2 ^ 31 := by
  have hmem := arrival_present hground he hev hn
  have hlt := (hground.counted _ _ hn).table f hmem
  have hmax := hfit _ _ hn
  exact ⟨hmem, (habove.nodes _ _ hn).table f hmem, by omega⟩

theorem fibsValid_step {e : Event} {out : Output} (hlib : lib.KeepsFields) (hground : em.Grounded)
    (habove : em.Above Node.Guarded) (hvalid : em.FibsValid)
    (he : (validated mode lib).Enabled em e) (hs : em.step mode lib e = .ok (em', out)) :
    em'.FibsValid := by
  obtain ⟨hen, hreg, hfit⟩ := he
  refine forall_nodes_step hvalid ?_ ?_ hs
  · intro id ne n n' o hev hn hstep
    refine Node.fibValid_step hlib (hvalid _ _ hn) ?_ hstep
    rintro clk f i rfl
    obtain ⟨hmem, hlo, hhi⟩ := arrival_range hground habove hfit hen hev hn
    exact ⟨hmem, by omega, hhi, hreg id clk f i n hev hn⟩
  · intro id n src ref hn
    exact (hvalid id n hn).addLinkFace src ref

/-- **FIB references stay valid** in every run of a network in which register
commands that carry a face id carry one of the node's faces. -/
theorem fib_faces_valid {c : Config} {tr : List (Event × Output)} (hlib : lib.KeepsFields)
    (hc : readNetworkConfig c = .ok em) (hrun : (validated mode lib).Run em.start tr em') :
    em'.FibsValid := by
  have hsound := sound_config hc
  have hstart : em.start.FibsValid := by
    intro id n hn
    obtain ⟨m, hm, heq⟩ := FinMap.find_filterMap_eq_some.mp hn
    exact Option.some.inj heq ▸ (hsound.valid _ _ hm).start
  refine (hrun.invariant (I := fun a => a.Grounded ∧ a.Above Node.Guarded ∧ a.FibsValid) ?_
    ⟨grounded_start hsound.grounded, above_start (above_config hc), hstart⟩).2.2
  rintro a e b o ⟨hground, habove, hvalid⟩ he hs
  exact ⟨step_preserves (fun _ _ => grounded_move) hground he.1 hs,
    step_preserves (fun _ _ => above_move) habove he.1 hs,
    fibsValid_step hlib hground habove hvalid he hs⟩

instance (em : Emulator) : Decidable em.CountersFit :=
  decidable_of_iff (∀ id ∈ em.nodeTable.keys, ∀ n ∈ em.nodeTable.find id, n.faceCounter ≤ 2 ^ 31)
    ⟨fun h id n hn => h id (FinMap.mem_keys_of_find hn) n hn, fun h id _ n hn => h id n hn⟩

/-- Commands whose parameters are the route `/01` and a face id of one byte. -/
def byteCommands : NdnCxx where
  decodeParameters
    | [k] => some ⟨some [[1]], some k.toUInt64, []⟩
    | _ => none
  validateRequest _ := true
  applyDefaultsToRequest p := p
  encodeResponse _ := []
  signedSize _ _ := 60
  defaultFreshness := -1

theorem byteCommands_keepsFields : byteCommands.KeepsFields :=
  ⟨fun _ => rfl, fun _ _ h => h⟩

/-- A client connects to the first node, gets face 2, and registers a face. -/
def registerRun (k : UInt8) : List (Event × Output) :=
  let command : Interest := ⟨ribPrefix ++ [component "register", [k]], 1, 4000, false, 80⟩
  [(.accept "n0", .quiet),
   (.appReceive "n0" 2 (Clock.still 0) (fun _ => 0) (.packet (.interest command)),
     .forward "n0" (.data ⟨command.name, -1, [], 60⟩ [2]))]

theorem fib_faces_valid_register : ∃ em em', readNetworkConfig pairConfig = .ok em ∧
    (validated .late byteCommands).Run em.start (registerRun 2) em' ∧ em'.FibsValid := by
  obtain ⟨em, hc, em', hrun⟩ : ∃ em, readNetworkConfig pairConfig = .ok em ∧
      ∃ em', (validated .late byteCommands).Run em.start (registerRun 2) em' := by
    refine ⟨_, rfl, _, .cons ⟨?_, ?_, ?_⟩ rfl (.single ⟨?_, ?_, ?_⟩ rfl)⟩
    · exact ⟨_, rfl, rfl⟩
    · intro id clk f i n hev
      cases (Prod.mk.inj (Option.some.inj hev)).2
    · decide
    · exact ⟨_, rfl, rfl⟩
    · intro id clk f i n hev hn _ _ _ params x hparams _ hx _
      obtain ⟨rfl, hne⟩ := Prod.mk.inj (Option.some.inj hev)
      obtain ⟨_, _, rfl⟩ := NodeEvent.interest.inj hne
      obtain rfl := Option.some.inj hn
      obtain rfl := Option.some.inj hparams
      obtain rfl := Option.some.inj hx
      exact .inl (by decide)
    · decide
  exact ⟨em, em', hc, hrun, fib_faces_valid byteCommands_keepsFields hc hrun⟩

/-- Face 99 does not exist. -/
theorem missing_face_registered : ∃ em em' n, readNetworkConfig pairConfig = .ok em ∧
    (system .late byteCommands).Run em.start (registerRun 99) em' ∧
    em'.nodeTable.find "n0" = some n ∧ 99 ∈ n.fib.faces [[1]] ∧ 99 ∉ n.faceTable.keys ∧
    ¬ em'.FibsValid := by
  refine ⟨_, _, _, rfl, System.run_of_exec (show (system .late byteCommands).exec _
    ((registerRun 99).map (·.1)) = some (registerRun 99, _) from rfl), rfl, by decide, by decide, ?_⟩
  intro h
  rcases h "n0" _ rfl [[1]] 99 (by decide) with ⟨h, _⟩ | h
  · cases h
  · revert h
    decide

end Emulator

end NdnEm
