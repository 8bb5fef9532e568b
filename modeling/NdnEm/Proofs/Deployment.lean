import NdnEm.Core.Deployment
import NdnEm.Lib.Simulation
import NdnEm.Proofs.Provenance
import NdnEm.Proofs.Wsn

/-!
# The deployed sensor network refines the sensor network

The model of the two applications lets a packet that was ever put be given to
an application at any time. That is all the emulated network does to them: what
a node sends a client was put by one of the two, or is of no concern to them,
wherever it was queued, cached, repeated or lost on the way. So what the two
applications do in a deployment is a run of the model, and what the model
promises holds of the deployment, down to the bytes that a user is sent.
-/

namespace NdnEm

open Lib Relation

namespace Wsn

variable {lib : AppCxx} {sm rm : OptMode} {w w' : Wsn} {e : WsnEvent} {o : Option Wire}

/-- The packet was put. -/
def Put (w : Wsn) : Wire → Prop
  | .interest i => i ∈ w.interests
  | .data d => d ∈ w.datas

/-- What was put stays put, and what an event puts is put. -/
theorem put_step (hs : w.step lib e = .ok (w', o)) :
    (∀ x, w.Put x → w'.Put x) ∧ ∀ x ∈ o, w'.Put x := by
  have hput : ∀ {r : Repo} (od : Option Data),
      (∀ x, w.Put x → ({ w with repo := r }.put od).Put x) ∧
        ∀ x ∈ od.map Wire.data, ({ w with repo := r }.put od).Put x := by
    intro r od
    cases od with
    | none => exact ⟨fun x hx => hx, by simp⟩
    | some d =>
        refine ⟨?_, ?_⟩
        · intro x hx
          cases x with
          | interest i => exact hx
          | data c => exact List.mem_cons_of_mem d hx
        · intro x hx
          obtain rfl := Option.some.inj hx
          exact List.mem_cons_self
  have hexpress : ∀ i, (∀ x, w.Put x → (w.express i).Put x) ∧
      ∀ x ∈ some (Wire.interest i), (w.express i).Put x := by
    intro i
    refine ⟨?_, ?_⟩
    · intro x hx
      cases x with
      | interest j => exact List.mem_cons_of_mem i hx
      | data c => exact hx
    · intro x hx
      obtain rfl := Option.some.inj hx
      exact List.mem_cons_self
  cases e with
  | startRepo | timeout =>
      obtain ⟨rfl, rfl⟩ := Prod.mk.inj (Except.ok.inj hs)
      exact ⟨fun x hx => hx, by simp⟩
  | startSensor | newReading =>
      obtain ⟨s, _, heq⟩ := ok_of_map hs
      obtain ⟨rfl, rfl⟩ := Prod.mk.inj heq
      exact ⟨fun x hx => hx, by simp⟩
  | data i d =>
      obtain ⟨r, _, heq⟩ := ok_of_map hs
      obtain ⟨rfl, rfl⟩ := Prod.mk.inj heq
      exact ⟨fun x hx => hx, by simp⟩
  | push | notify | poll =>
      obtain ⟨rfl, rfl⟩ := Prod.mk.inj (Except.ok.inj hs)
      exact hexpress _
  | notifyInterest i nonce =>
      obtain ⟨j, _, heq⟩ := ok_of_map hs
      obtain ⟨rfl, rfl⟩ := Prod.mk.inj heq
      exact hexpress j
  | readInterest i info =>
      obtain ⟨od, _, heq⟩ := ok_of_map hs
      obtain ⟨rfl, rfl⟩ := Prod.mk.inj heq
      exact hput od
  | pushInterest i =>
      obtain ⟨⟨r, od⟩, _, heq⟩ := ok_of_map hs
      obtain ⟨rfl, rfl⟩ := Prod.mk.inj heq
      exact hput od
  | userInterest i =>
      obtain ⟨d, _, heq⟩ := ok_of_map hs
      obtain ⟨rfl, rfl⟩ := Prod.mk.inj heq
      exact hput (some d)

/-- An Interest under the prefix of the readings is a question: it names a
number at most. And the repository waits for nothing but answers to those. -/
structure Questions (w : Wsn) : Prop where
  put : ∀ i ∈ w.interests, readPrefix <+: i.name → i.name.length ≤ 4
  asked : ∀ i ∈ w.asked, readPrefix <+: i.name

theorem Questions.express {i : Interest} (h : w.Questions)
    (hi : readPrefix <+: i.name → i.name.length ≤ 4) : (w.express i).Questions :=
  ⟨List.forall_mem_cons.mpr ⟨hi, h.put⟩, h.asked⟩

theorem Questions.ask {i : Interest} (h : w.Questions) (hi : readPrefix <+: i.name)
    (hlen : i.name.length ≤ 4) : (w.ask i).Questions :=
  ⟨(h.express fun _ => hlen).put, List.forall_mem_cons.mpr ⟨hi, h.asked⟩⟩

theorem Questions.erase (h : w.Questions) (r : Repo) (i : Interest) :
    ({ w with repo := r, asked := w.asked.erase i } : Wsn).Questions :=
  ⟨h.put, fun j hj => h.asked j (List.mem_of_mem_erase hj)⟩

theorem questions_step (h : w.Questions) (hs : w.step lib e = .ok (w', o)) : w'.Questions := by
  have hput : ∀ {r : Repo} (od : Option Data), ({ w with repo := r }.put od).Questions := by
    intro r od
    cases od <;> exact ⟨h.put, h.asked⟩
  cases e with
  | startRepo =>
      obtain ⟨rfl, _⟩ := Prod.mk.inj (Except.ok.inj hs)
      exact ⟨h.put, h.asked⟩
  | startSensor | newReading =>
      obtain ⟨s, _, heq⟩ := ok_of_map hs
      obtain ⟨rfl, _⟩ := Prod.mk.inj heq
      exact ⟨h.put, h.asked⟩
  | timeout i =>
      obtain ⟨rfl, _⟩ := Prod.mk.inj (Except.ok.inj hs)
      exact h.erase _ i
  | data i d =>
      obtain ⟨r, _, heq⟩ := ok_of_map hs
      obtain ⟨rfl, _⟩ := Prod.mk.inj heq
      exact h.erase r i
  | push | notify =>
      obtain ⟨rfl, _⟩ := Prod.mk.inj (Except.ok.inj hs)
      exact h.express fun hname => absurd hname (not_prefix_of (by decide))
  | poll nonce =>
      obtain ⟨rfl, _⟩ := Prod.mk.inj (Except.ok.inj hs)
      unfold Repo.pollData
      split
      · exact h.ask (List.prefix_append _ _) (Nat.le_refl 4)
      · exact h.ask (List.prefix_refl _) (Nat.le_succ 3)
  | notifyInterest i nonce =>
      obtain ⟨j, hj, heq⟩ := ok_of_map hs
      obtain ⟨rfl, _⟩ := Prod.mk.inj heq
      unfold Repo.handleNotifyInterest at hj
      split at hj
      · obtain rfl := Except.ok.inj hj
        exact h.ask (List.prefix_append _ _) (Nat.le_refl 4)
      · cases hj
  | readInterest i info =>
      obtain ⟨od, _, heq⟩ := ok_of_map hs
      obtain ⟨rfl, _⟩ := Prod.mk.inj heq
      exact hput od
  | pushInterest i =>
      obtain ⟨⟨r, od⟩, _, heq⟩ := ok_of_map hs
      obtain ⟨rfl, _⟩ := Prod.mk.inj heq
      exact hput od
  | userInterest i =>
      obtain ⟨d, _, heq⟩ := ok_of_map hs
      obtain ⟨rfl, _⟩ := Prod.mk.inj heq
      exact hput (some d)

/-- A Data that was put was there, or is put now. -/
theorem data_put (hs : w.step lib e = .ok (w', o)) :
    ∀ d ∈ w'.datas, d ∈ w.datas ∨ o = some (.data d) := by
  have hput : ∀ {r : Repo} (od : Option Data), ∀ d ∈ ({ w with repo := r }.put od).datas,
      d ∈ w.datas ∨ od.map Wire.data = some (.data d) := by
    intro r od d hd
    cases od with
    | none => exact .inl hd
    | some c =>
        rcases List.mem_cons.mp hd with rfl | hd
        · exact .inr rfl
        · exact .inl hd
  cases e with
  | startRepo | timeout | push | notify | poll =>
      obtain ⟨rfl, _⟩ := Prod.mk.inj (Except.ok.inj hs)
      exact fun d hd => .inl hd
  | startSensor | newReading | data | notifyInterest =>
      obtain ⟨x, _, heq⟩ := ok_of_map hs
      obtain ⟨rfl, _⟩ := Prod.mk.inj heq
      exact fun d hd => .inl hd
  | readInterest i info =>
      obtain ⟨od, _, heq⟩ := ok_of_map hs
      obtain ⟨rfl, rfl⟩ := Prod.mk.inj heq
      exact hput od
  | pushInterest i =>
      obtain ⟨⟨r, od⟩, _, heq⟩ := ok_of_map hs
      obtain ⟨rfl, rfl⟩ := Prod.mk.inj heq
      exact hput od
  | userInterest i =>
      obtain ⟨c, _, heq⟩ := ok_of_map hs
      obtain ⟨rfl, rfl⟩ := Prod.mk.inj heq
      exact hput (some c)

theorem handleInterest_name {s : Sensor} {info : List UInt8} {i : Interest} {d : Data}
    (h : s.handleInterest lib info i = .ok (some d)) : i.name <+: d.name := by
  unfold Sensor.handleInterest at h
  split at h
  · obtain rfl := Option.some.inj (Except.ok.inj h)
    exact List.prefix_append _ _
  · split at h
    · cases h
    · split at h
      · cases Except.ok.inj h
      · obtain rfl := Option.some.inj (Except.ok.inj h)
        exact List.prefix_refl _
  · obtain rfl := Option.some.inj (Except.ok.inj h)
    exact List.prefix_refl _

theorem handlePushInterest_name {r r' : Repo} {i : Interest} {d : Data}
    (h : r.handlePushInterest lib i = .ok (r', some d)) : i.name <+: d.name := by
  unfold Repo.handlePushInterest at h
  split at h
  · obtain ⟨⟨r₁, stored⟩, _, heq⟩ := ok_of_map h
    cases stored with
    | false => cases (Prod.mk.inj heq).2
    | true =>
        obtain rfl := Option.some.inj (Prod.mk.inj heq).2
        exact List.prefix_append _ _
  · cases h

/-- A Data that is put under the prefix of the answers answers a user. -/
theorem answers_user {d : Data} (he : w.Enabled sm rm e)
    (hs : w.step lib e = .ok (w', some (.data d))) (hname : dataPrefix <+: d.name) :
    ∃ k, w.repo.store.find k = some d := by
  cases e with
  | startRepo | timeout | push | notify | poll => cases (Prod.mk.inj (Except.ok.inj hs)).2
  | startSensor | newReading | data | notifyInterest =>
      obtain ⟨x, _, heq⟩ := ok_of_map hs
      cases (Prod.mk.inj heq).2
  | readInterest i info =>
      obtain ⟨od, hod, heq⟩ := ok_of_map hs
      obtain ⟨c, rfl, hc⟩ := Option.map_eq_some_iff.mp (Prod.mk.inj heq).2
      obtain rfl : c = d := Wire.data.inj hc
      obtain ⟨rest, hrest⟩ := he.2.2.trans (handleInterest_name hod)
      exact absurd (hrest ▸ hname) (not_prefix_of (by decide))
  | pushInterest i =>
      obtain ⟨⟨r, od⟩, hod, heq⟩ := ok_of_map hs
      obtain ⟨c, rfl, hc⟩ := Option.map_eq_some_iff.mp (Prod.mk.inj heq).2
      obtain rfl : c = d := Wire.data.inj hc
      obtain ⟨rest, hrest⟩ := he.2.2.2.trans (handlePushInterest_name hod)
      exact absurd (hrest ▸ hname) (not_prefix_of (by decide))
  | userInterest i =>
      obtain ⟨c, hc, heq⟩ := ok_of_map hs
      obtain rfl : c = d := Wire.data.inj (Option.some.inj (Prod.mk.inj heq).2)
      exact stored_of_answer hc

/-- Every Data under the prefix of the answers is a reading. -/
theorem answers_run {tr : List (WsnEvent × Option Wire)} (hrun : (system lib sm rm).Run new tr w)
    (hlib : lib.Counts (w.sensor.sequence + 1)) : ∀ d ∈ w.datas, dataPrefix <+: d.name →
      ∃ k info, WasRead lib sm rm tr k info ∧
        d = Repo.repoData lib (lib.number k) (rm.block lib info) := by
  revert hlib
  refine hrun.invariant_past (J := fun tr w => lib.Counts (w.sensor.sequence + 1) →
    ∀ d ∈ w.datas, dataPrefix <+: d.name → ∃ k info, WasRead lib sm rm tr k info ∧
      d = Repo.repoData lib (lib.number k) (rm.block lib info)) ?_ ?_
  · intro tr w e w' o hrun ih he hs hlib d hd hname
    have hlib' : lib.Counts (w.sensor.sequence + 1) := by
      have hle := sequence_mono_step hs
      exact hlib.mono (by omega)
    rcases data_put hs d hd with hold | rfl
    · obtain ⟨k, info, hread, heq⟩ := ih hlib' d hold hname
      exact ⟨k, info, hread.extend _, heq⟩
    · obtain ⟨k, hk⟩ := answers_user he hs hname
      obtain ⟨_, info, hread, heq⟩ := (sound_run hrun hlib').stored k d hk
      exact ⟨k, info, hread.extend _, heq⟩
  · intro _ d hd
    cases hd

/-- An application that may do something with what it was given may do it with
more. -/
theorem Enabled.mono (h : w.Enabled sm rm e) {v : Wsn} (hsensing : v.sensing = w.sensing)
    (hstoring : v.storing = w.storing) (hasked : v.asked = w.asked)
    (hi : ∀ i ∈ w.interests, (thermometerPrefix <+: i.name ∨ pushPrefix <+: i.name ∨
      notifyPrefix <+: i.name) → i ∈ v.interests)
    (hd : ∀ i ∈ w.asked, ∀ d ∈ w.datas, i.name <+: d.name → d ∈ v.datas) :
    v.Enabled sm rm e := by
  cases e with
  | startSensor | newReading => exact hsensing.trans h
  | startRepo => exact hstoring.trans h
  | push | notify => exact ⟨hsensing.trans h.1, h.2⟩
  | poll => exact ⟨hstoring.trans h.1, h.2⟩
  | userInterest i => exact ⟨hstoring.trans h.1, h.2⟩
  | readInterest i info =>
      obtain ⟨hon, hmem, hname⟩ := h
      exact ⟨hsensing.trans hon, hi i hmem (.inl hname), hname⟩
  | pushInterest i =>
      obtain ⟨hon, hmode, hmem, hname⟩ := h
      exact ⟨hstoring.trans hon, hmode, hi i hmem (.inr (.inl hname)), hname⟩
  | notifyInterest i nonce =>
      obtain ⟨hon, hmode, hmem, hname⟩ := h
      exact ⟨hstoring.trans hon, hmode, hi i hmem (.inr (.inr hname)), hname⟩
  | data i d =>
      obtain ⟨hasks, hmem, hname⟩ := h
      exact ⟨hasked ▸ hasks, hd i hasks d hmem hname, hname⟩
  | timeout i =>
      show i ∈ v.asked
      rw [hasked]
      exact h

end Wsn

namespace Socket

variable {P Q : Wire → Prop} {s : Socket}

/-- Every packet in the socket is like that. -/
structure All (P : Wire → Prop) (s : Socket) : Prop where
  outgoing : ∀ x ∈ s.outgoing, P x
  incoming : ∀ x ∈ s.incoming, P x

theorem All.mono (h : s.All P) (hPQ : ∀ x, P x → Q x) : s.All Q :=
  ⟨fun x hx => hPQ x (h.outgoing x hx), fun x hx => hPQ x (h.incoming x hx)⟩

theorem All.put {w : Option Wire} (h : s.All P) (hw : ∀ x ∈ w, P x) : (s.put w).All P := by
  refine ⟨?_, h.incoming⟩
  intro x hx
  rcases List.mem_append.mp hx with hx | hx
  · exact h.outgoing x hx
  · exact hw x (Option.mem_toList.mp hx)

theorem All.serve {at' : Client} {e : Event} {o : Output} (h : s.All P)
    (ho : ∀ x ∈ o.gives at', P x) : (s.serve at' e o).All P := by
  refine ⟨?_, ?_⟩
  · intro x hx
    unfold Socket.serve at hx
    split at hx
    · exact h.outgoing x (List.mem_of_mem_tail hx)
    · exact h.outgoing x hx
  · intro x hx
    rcases List.mem_append.mp hx with hx | hx
    · exact h.incoming x hx
    · exact ho x (Option.mem_toList.mp hx)

end Socket

/-- What a client is given was shown. -/
theorem Output.shows_of_gives {at' : Client} {o : Output} {x : Wire} (h : x ∈ o.gives at') :
    Emulator.Shows o (at'.node, x) := by
  cases o with
  | quiet => cases h
  | device ref out => cases h
  | forward id fw =>
      simp only [Output.gives] at h
      split at h
      · next hat =>
          obtain rfl := Option.some.inj h
          exact Prod.ext hat.1.symm rfl
      · cases h

namespace Deployment

variable {mode : Rearm} {lib : NdnCxx} {app : AppCxx} {sites : Sites} {sm rm : OptMode}
  {c : Config} {d d' : Deployment} {e : DeploymentEvent} {o : DeploymentOut}
  {tr : List (DeploymentEvent × DeploymentOut)} {em : Emulator} {w : Wsn}

/-- One of the two has put the packet, or it is of no concern to them: nothing
in it is for them, or it is a response of a fib manager. -/
def Legit (w : Wsn) : Wire → Prop
  | .interest i => i ∈ w.interests ∨ (Wire.interest i).Foreign
  | .data d => d ∈ w.datas ∨
      (¬ readPrefix <+: d.name ∧ (dataPrefix <+: d.name → 5 ≤ d.name.length))

theorem legit_of_put {x : Wire} (h : w.Put x) : Legit w x := by
  cases x with
  | interest i => exact .inl h
  | data c => exact .inl h

theorem legit_of_foreign {x : Wire} (h : x.Foreign) : Legit w x := by
  cases x with
  | interest i => exact .inr h
  | data c => exact .inr ⟨h.1, fun hname => absurd hname h.2⟩

theorem Legit.mono {x : Wire} {w' : Wsn} (h : Legit w x) (hput : ∀ x, w.Put x → w'.Put x) :
    Legit w' x := by
  cases x with
  | interest i =>
      rcases h with h | h
      · exact .inl (hput (.interest i) h)
      · exact .inr h
  | data c =>
      rcases h with h | h
      · exact .inl (hput (.data c) h)
      · exact .inr h

/-- The network keeps packets legitimate: a command is no question, since it
has more components. -/
theorem Legit.along {x y : String × Wire} (h : Legit w y.2) (hw : w.Questions)
    (hway : ReflTransGen (Emulator.Way c lib) y x) : Legit w x.2 := by
  induction hway with
  | refl => exact h
  | tail _ hstep ih =>
      cases hstep with
      | hop v hcon => exact ih
      | response a i r hreg =>
          obtain ⟨_, b, _, hb, _⟩ := hreg
          have hlen : 5 ≤ i.name.length := (List.getElem?_eq_some_iff.mp hb).1
          refine .inr ⟨?_, fun _ => hlen⟩
          intro hname
          have hread : readPrefix <+: i.name := hname
          rcases ih with hput | hforeign
          · have hshort := hw.put i hput hread
            omega
          · exact hforeign.1 ((List.prefix_append _ [component "read"]).trans hread)

theorem step_network {e : Event} (h : d.step mode lib app sites (.network e) = .ok (d', o)) :
    ∃ em' out, d.em.step mode lib e = .ok (em', out) ∧ o = .network out ∧
      d' = ⟨em', d.wsn, d.sensor.serve sites.sensor e out, d.repo.serve sites.repo e out⟩ := by
  simp only [step] at h
  split at h
  · cases h
  · next em' out hem =>
      obtain ⟨rfl, rfl⟩ := Prod.mk.inj (Except.ok.inj h)
      exact ⟨em', out, hem, rfl, rfl⟩

theorem step_application {e : WsnEvent}
    (h : d.step mode lib app sites (.application e) = .ok (d', o)) :
    ∃ w out, d.wsn.step app e = .ok (w, out) ∧ o = .application out ∧
      d' = ({ d with wsn := w }).put e out := by
  simp only [step] at h
  split at h
  · cases h
  · next w out hw =>
      obtain ⟨rfl, rfl⟩ := Prod.mk.inj (Except.ok.inj h)
      exact ⟨w, out, hw, rfl, rfl⟩

@[simp] theorem put_wsn (d : Deployment) (e : WsnEvent) (o : Option Wire) :
    (d.put e o).wsn = d.wsn := by
  unfold put
  split <;> rfl

@[simp] theorem put_em (d : Deployment) (e : WsnEvent) (o : Option Wire) :
    (d.put e o).em = d.em := by
  unfold put
  split <;> rfl

/-- Every packet anywhere is legitimate. -/
structure Honest (c : Config) (d : Deployment) : Prop where
  kept : d.em.Kept c
  held : ∀ x, d.em.Holds x → Legit d.wsn x.2
  sensor : d.sensor.All (Legit d.wsn)
  repo : d.repo.All (Legit d.wsn)
  questions : d.wsn.Questions

/-- What enters the network is legitimate. -/
theorem legit_of_enters {e : Event} {x : String × Wire} (h : Honest c d)
    (hbrings : d.Brings sites e) (hx : Emulator.Enters e x) : Legit d.wsn x.2 := by
  cases e with
  | appReceive id face clk raw blk =>
      cases blk with
      | packet v =>
          obtain rfl : x = (id, v) := hx
          rcases hbrings with hforeign | ⟨_, hhead⟩ | ⟨_, hhead⟩
          · exact legit_of_foreign hforeign
          · exact h.sensor.outgoing v (List.mem_of_head? hhead)
          · exact h.repo.outgoing v (List.mem_of_head? hhead)
      | malformed => cases hx
      | unknown => cases hx
  | appClose id face => cases hx
  | accept id => cases hx
  | cleanUp id now => cases hx
  | run j clk raw drop => cases hx
  | timer ref t => cases hx
  | tick n => cases hx

/-- What a step of the network leaves or shows is legitimate. -/
theorem legit_of_network {e : Event} {em' : Emulator} {out : Output} {x : String × Wire}
    (h : Honest c d) (hbrings : d.Brings sites e) (hs : d.em.step mode lib e = .ok (em', out))
    (hx : em'.Holds x ∨ Emulator.Shows out x) : Legit d.wsn x.2 := by
  obtain ⟨y, hway, hy⟩ := Emulator.step_origin h.kept hs hx
  have hfrom : Legit d.wsn y.2 := hy.elim (h.held y) (legit_of_enters h hbrings)
  exact hfrom.along h.questions hway

theorem honest_step (h : Honest c d) (he : d.Enabled sites sm rm e)
    (hs : d.step mode lib app sites e = .ok (d', o)) : Honest c d' := by
  cases e with
  | network e =>
      obtain ⟨hen, hbrings⟩ := he
      obtain ⟨em', out, hem, _, rfl⟩ := step_network hs
      have hgives : ∀ at', ∀ x ∈ out.gives at', Legit d.wsn x :=
        fun at' x hx => legit_of_network h hbrings hem (.inr (Output.shows_of_gives hx))
      have hheld : ∀ x, em'.Holds x → Legit d.wsn x.2 :=
        fun x hx => legit_of_network h hbrings hem (.inl hx)
      exact ⟨Emulator.kept_step h.kept hen hem, hheld, h.sensor.serve (hgives _),
        h.repo.serve (hgives _), h.questions⟩
  | application e =>
      obtain ⟨w, out, hw, _, rfl⟩ := step_application hs
      obtain ⟨hold, hnew⟩ := Wsn.put_step hw
      have hmono : ∀ x, Legit d.wsn x → Legit w x := fun x hx => hx.mono hold
      have hput : ∀ x ∈ out, Legit w x := fun x hx => legit_of_put (hnew x hx)
      have hheld : ∀ x, d.em.Holds x → Legit w x.2 := fun x hx => hmono _ (h.held x hx)
      have hquestions := Wsn.questions_step h.questions hw
      unfold put
      split
      · exact ⟨h.kept, hheld, (h.sensor.mono hmono).put hput, h.repo.mono hmono, hquestions⟩
      · exact ⟨h.kept, hheld, h.sensor.mono hmono, (h.repo.mono hmono).put hput, hquestions⟩

theorem honest_new (hc : Emulator.readNetworkConfig c = .ok em) : Honest c (new em.start) := by
  refine ⟨Emulator.kept_start hc, ?_, ⟨by simp [new], by simp [new]⟩,
    ⟨by simp [new], by simp [new]⟩, ⟨by simp [new, Wsn.new], by simp [new, Wsn.new]⟩⟩
  intro x hx
  exact absurd hx (Emulator.blank_config hc).start.not_holds

/-- What an application is given was put. -/
theorem enabled_of_given {e : WsnEvent} (h : Honest c d) (he : (d.given e).Enabled sm rm e) :
    d.wsn.Enabled sm rm e := by
  have hbox : ∀ x ∈ (if e.atSensor then d.sensor.incoming else d.repo.incoming),
      Legit d.wsn x := by
    intro x hx
    split at hx
    · exact h.sensor.incoming x hx
    · exact h.repo.incoming x hx
  refine he.mono rfl rfl rfl ?_ ?_
  · intro i hi hname
    obtain ⟨x, hx, heq⟩ := List.mem_filterMap.mp hi
    cases x with
    | data c => cases heq
    | interest j =>
        obtain rfl := Option.some.inj heq
        rcases hbox _ hx with hput | ⟨hthermo, hpush, hnotify⟩
        · exact hput
        · rcases hname with hname | hname | hname
          · exact absurd hname hthermo
          · exact absurd hname hpush
          · exact absurd hname hnotify
  · intro i hasks b hb hname
    obtain ⟨x, hx, heq⟩ := List.mem_filterMap.mp hb
    cases x with
    | interest j => cases heq
    | data b' =>
        obtain rfl := Option.some.inj heq
        rcases hbox _ hx with hput | ⟨hread, _⟩
        · exact hput
        · exact absurd ((h.questions.asked i hasks).trans hname) hread

/-! ## The parts of a run -/

/-- What the applications did. -/
def applicationPart : DeploymentEvent × DeploymentOut → Option (WsnEvent × Option Wire)
  | (.application e, .application o) => some (e, o)
  | _ => none

/-- What the network did. -/
def networkPart : DeploymentEvent × DeploymentOut → Option (Event × Output)
  | (.network e, .network o) => some (e, o)
  | _ => none

theorem honest_run (hc : Emulator.readNetworkConfig c = .ok em)
    (hrun : (system mode lib app sites sm rm).Run (new em.start) tr d) : Honest c d :=
  hrun.invariant (fun _ _ _ _ h he hs => honest_step h he hs) (honest_new hc)

theorem network_run (hrun : (system mode lib app sites sm rm).Run (new em.start) tr d) :
    (Emulator.system mode lib).Run em.start (tr.filterMap networkPart) d.em := by
  refine hrun.project (I := fun _ => True) (π := Deployment.em) (fun _ _ _ _ h _ _ => h) ?_ ?_
    trivial
  · intro a e b o _ _ hs hpart
    have hs : a.step mode lib app sites e = .ok (b, o) := hs
    cases e with
    | network e =>
        obtain ⟨em', out, _, rfl, _⟩ := step_network hs
        cases hpart
    | application e =>
        obtain ⟨w, out, _, _, rfl⟩ := step_application hs
        exact put_em _ _ _
  · intro a e b o e' o' _ he hs hpart
    have hs : a.step mode lib app sites e = .ok (b, o) := hs
    cases e with
    | network e =>
        obtain ⟨em', out, hem, rfl, rfl⟩ := step_network hs
        obtain ⟨rfl, rfl⟩ := Prod.mk.inj (Option.some.inj hpart)
        exact ⟨he.1, hem⟩
    | application e => cases hpart

theorem application_run (hc : Emulator.readNetworkConfig c = .ok em)
    (hrun : (system mode lib app sites sm rm).Run (new em.start) tr d) :
    (Wsn.system app sm rm).Run .new (tr.filterMap applicationPart) d.wsn := by
  refine hrun.project (I := Honest c) (π := Deployment.wsn)
    (fun _ _ _ _ h he hs => honest_step h he hs) ?_ ?_ (honest_new hc)
  · intro a e b o _ _ hs hpart
    have hs : a.step mode lib app sites e = .ok (b, o) := hs
    cases e with
    | network e =>
        obtain ⟨em', out, _, _, rfl⟩ := step_network hs
        rfl
    | application e =>
        obtain ⟨w, out, _, rfl, _⟩ := step_application hs
        cases hpart
  · intro a e b o e' o' h he hs hpart
    have hs : a.step mode lib app sites e = .ok (b, o) := hs
    cases e with
    | network e => cases hpart
    | application e =>
        obtain ⟨w, out, hw, rfl, rfl⟩ := step_application hs
        obtain ⟨rfl, rfl⟩ := Prod.mk.inj (Option.some.inj hpart)
        rw [put_wsn]
        exact ⟨enabled_of_given h he, hw⟩

/-! ## A deployment on two nodes -/

/-- The sensor is on one node of the pair, the repository on the other. -/
def pairSites : Sites := ⟨⟨"n0", 2⟩, ⟨"n1", 2⟩⟩

/-- Commands that register the prefixes of the two. -/
def prefixCommands : NdnCxx where
  decodeParameters
    | [1] => some ⟨some thermometerPrefix, none, []⟩
    | [2] => some ⟨some dataPrefix, none, []⟩
    | _ => none
  validateRequest _ := true
  applyDefaultsToRequest p := p
  encodeResponse _ := []
  signedSize _ _ := 60
  defaultFreshness := -1

/-- A client brings a packet. -/
def fromClient (node : String) (face : Int) (w : Wire) : DeploymentEvent :=
  .network (.appReceive node face (Clock.still 0) (fun _ => 0) (.packet w))

def register (k : UInt8) : Wire :=
  .interest ⟨ribPrefix ++ [component "register", [k]], 1, 4000, false, 80⟩

/-- A device sends the packet it has next, and the other one receives it. -/
def hop (a b : DeviceRef) : List DeploymentEvent :=
  [.timer a .csmaExpire, .timer a (.doCsma 0),
    .run 0 (Clock.still 0) (fun _ => 0) (fun _ => false), .tick 61, .timer a .csmaExpire,
    .timer a (.doCsma 0), .timer b .rxExpire, .timer b .postRx,
    .run 0 (Clock.still 0) (fun _ => 0) (fun _ => false)].map .network

/-- What the repository makes of the first answer. -/
def pairAnswer : Data :=
  Repo.repoData Repo.digitCxx (Repo.digitCxx.number 1) (OptMode.block Repo.digitCxx [75] .poll)

/-- The prefixes are registered, the repository polls a reading over the link,
and a user on its node asks for it. The first hop back is the question, which
the sensor's node also broadcasts. -/
def pairEvents : List DeploymentEvent :=
  let wn0 : DeviceRef := ⟨"n0", "wn0"⟩
  let wn1 : DeviceRef := ⟨"n1", "wn1"⟩
  [.network (.accept "n0"), .network (.accept "n1"), .network (.accept "n1"),
    fromClient "n0" 2 (register 1), fromClient "n1" 2 (register 2), .application .startSensor,
    .application .startRepo, .application (.poll 1), fromClient "n1" 2 (.interest Wsn.question)] ++
  hop wn1 wn0 ++
  [.application (.readInterest Wsn.question [75]), fromClient "n0" 2 (.data (Wsn.answer 1))] ++
  hop wn0 wn1 ++ hop wn0 wn1 ++
  [.application (.data Wsn.question (Wsn.answer 1)),
    fromClient "n1" 3 (.interest (Repo.ask [])), .application (.userInterest (Repo.ask []))]

theorem pair_run : ∃ em tr d, Emulator.readNetworkConfig Emulator.pairConfig = .ok em ∧
    (system .late prefixCommands Repo.digitCxx pairSites .poll .poll).Run (new em.start)
      (tr ++ [(fromClient "n1" 2 (.data pairAnswer),
        .network (.forward "n1" (.data pairAnswer [3])))]) d ∧
    d.wsn.sensor.sequence = 1 := by
  obtain ⟨em, hc, tr, d, hrun, hen, d', hs, hseq⟩ : ∃ em,
      Emulator.readNetworkConfig Emulator.pairConfig = .ok em ∧ ∃ tr d,
      (system .late prefixCommands Repo.digitCxx pairSites .poll .poll).Run (new em.start) tr d ∧
      (system .late prefixCommands Repo.digitCxx pairSites .poll .poll).Enabled d
        (fromClient "n1" 2 (.data pairAnswer)) ∧ ∃ d',
      (system .late prefixCommands Repo.digitCxx pairSites .poll .poll).step d
        (fromClient "n1" 2 (.data pairAnswer)) =
          .ok (d', .network (.forward "n1" (.data pairAnswer [3]))) ∧
      d'.wsn.sensor.sequence = 1 :=
    ⟨_, rfl, _, _, System.run_of_exec (show (system .late prefixCommands Repo.digitCxx pairSites
      .poll .poll).exec _ pairEvents = some (_, _) from rfl), by decide, _, rfl, rfl⟩
  exact ⟨em, tr, d', hc, .snoc hrun hen hs, hseq⟩

/-! ## What a run amounts to -/

/-- **The deployment refines the sensor network**: what the two applications do
over an emulated network is a run of the two over a network that may do
anything with what they put, and what the network does is a run of it. -/
theorem refines_wsn (hc : Emulator.readNetworkConfig c = .ok em)
    (hrun : (system mode lib app sites sm rm).Run (new em.start) tr d) :
    (Wsn.system app sm rm).Run .new (tr.filterMap applicationPart) d.wsn ∧
      (Emulator.system mode lib).Run em.start (tr.filterMap networkPart) d.em :=
  ⟨application_run hc hrun, network_run hrun⟩

theorem refines_wsn_pair : ∃ (em : Emulator) (tr : List (DeploymentEvent × DeploymentOut))
    (d : Deployment), Emulator.readNetworkConfig Emulator.pairConfig = .ok em ∧
    (Wsn.system Repo.digitCxx .poll .poll).Run .new (tr.filterMap applicationPart) d.wsn ∧
    (Emulator.system .late prefixCommands).Run em.start (tr.filterMap networkPart) d.em := by
  obtain ⟨em, tr, d, hc, hrun, _⟩ := pair_run
  exact ⟨em, _, d, hc, refines_wsn hc hrun⟩

/-- **Users get readings**: whatever a node sends anyone under the name of an
answer, out of whatever queue or cache, is a reading that the sensor took
before. -/
theorem users_get_readings {e : Event} {id : String} {fw : Forward} {b : Data}
    (hc : Emulator.readNetworkConfig c = .ok em)
    (hrun : (system mode lib app sites sm rm).Run (new em.start)
      (tr ++ [(.network e, .network (.forward id fw))]) d)
    (hlib : app.Counts (d.wsn.sensor.sequence + 1)) (hb : fw.wire = .data b)
    (hname : dataPrefix <+: b.name) (hlen : b.name.length = 4) :
    ∃ k info, Wsn.WasRead app sm rm (tr.filterMap applicationPart) k info ∧
      b = Repo.repoData app (app.number k) (rm.block app info) := by
  obtain ⟨d₁, hrun₁, he, hs⟩ := hrun.snoc_inv
  have hs : d₁.step mode lib app sites (.network e) = .ok (d, .network (.forward id fw)) := hs
  obtain ⟨em', out, hem, hout, rfl⟩ := step_network hs
  obtain rfl := DeploymentOut.network.inj hout
  have hshown : Emulator.Shows (.forward id fw) (id, .data b) := Prod.ext rfl hb.symm
  have hlegit := legit_of_network (honest_run hc hrun₁) he.2 hem (.inr hshown)
  rcases hlegit with hput | ⟨_, hlong⟩
  · exact Wsn.answers_run (application_run hc hrun₁) hlib b hput hname
  · have hfive := hlong hname
    omega

theorem users_get_readings_pair : ∃ (tr : List (DeploymentEvent × DeploymentOut)) (k : Int)
    (info : List UInt8),
    Wsn.WasRead Repo.digitCxx .poll .poll (tr.filterMap applicationPart) k info ∧
    pairAnswer = Repo.repoData Repo.digitCxx (Repo.digitCxx.number k)
      (OptMode.block Repo.digitCxx info .poll) := by
  obtain ⟨em, tr, d, hc, hrun, hseq⟩ := pair_run
  have hlib : Repo.digitCxx.Counts (d.wsn.sensor.sequence + 1) := by
    rw [hseq]
    exact Wsn.digitCxx_counts.mono (by omega)
  obtain ⟨k, info, hread, heq⟩ :=
    users_get_readings hc hrun hlib rfl (List.prefix_append _ _) rfl
  exact ⟨tr, k, info, hread, heq⟩

end Deployment

end NdnEm
