import Fabric.Sbft.Refinement.Handlers
import Fabric.Sbft.System

/-!
# Groups of cores

The abstract counterpart of a group of replicas: one core for each, of which the correct
ones receive messages, take steps and restart. A message that a correct replica receives
was sent by a Byzantine one or stands in the sender's history, and its signatures are
genuine.

Every run of a group of replicas is one of a group of cores with the same histories
(`run_refines`), so that a property of histories need only be proved here.
-/

namespace Fabric.Sbft

open Fabric.Common List Option Function Process Fabric.Sbft.System

variable {β : Type} {P : Primitives β}

variable {t : List (Event β)} {c : Core β} {src : ℕ} {net : List (Packet β)} {sys sys' : System β}
  {l : Label β} {ls : List (Label β)} {m : Msg β} {net' : List (Packet β)} {id : ℕ} {cfg : Config}
  {dest k : ℕ}

theorem Restarted.trace_suffix (h : Restarted P cfg id t c) : t <:+ c.trace := by
  cases h with
  | idle => exact suffix_cons _ _
  | inFlight => exact (suffix_cons _ _).trans (suffix_cons _ _)

theorem Restarted.frame (h : Restarted P cfg id t c) : c.config = cfg ∧ c.id = id := by
  cases h <;> exact ⟨rfl, rfl⟩

theorem Restarted.of_nil (h : Restarted P cfg id [] c) :
    ∃ active, c = ⟨cfg, id, 0, active, (SBFT.blank cfg id).cur, none, [.restart]⟩ := by
  cases h with
  | idle active => exact ⟨active, rfl⟩
  | inFlight _ _ _ _ _ _ _ _ hpp => cases hpp

/-- The core of a replica after it has noticed an input. -/
def Input.noticed (c : Core β) : Input β → Core β
  | .receive m src => c.push [.recv m src]
  | _ => c

theorem Input.noticed_suffix (inp : Input β) (c : Core β) :
    c.trace <:+ (inp.noticed c).trace ∧ ∀ {t : List (Event β)}, t <:+ (inp.noticed c).trace →
      t = (inp.noticed c).trace ∨ t <:+ c.trace := by
  cases inp with
  | receive => exact ⟨suffix_cons _ _, suffix_cons_iff.mp⟩
  | _ => exact ⟨suffix_refl _, .inr⟩

theorem takePacket_perm
    (h : takePacket src dest k net = some (m, net')) : net.Perm (⟨src, dest, m⟩ :: net') := by
  -- a packet that stays where it is
  have hkeep : ∀ (pk : Packet β) (net net' : List (Packet β)) (k : ℕ), (∀ net',
      takePacket src dest k net = some (m, net') → net.Perm (⟨src, dest, m⟩ :: net')) →
      ((takePacket src dest k net).map fun r => (r.1, pk :: r.2)) = some (m, net') →
      (pk :: net).Perm (⟨src, dest, m⟩ :: net') := by
    intro pk net net' k ih h
    obtain ⟨⟨m', rest⟩, hrest, heq⟩ := map_eq_some_iff.mp h
    obtain ⟨rfl, rfl⟩ : m' = m ∧ pk :: rest = net' := by simpa using heq
    exact ((ih rest hrest).cons pk).trans (.swap _ _ _)
  fun_induction takePacket src dest k net generalizing net' with
  | case1 => cases h
  | case2 pk net hpk =>
    obtain ⟨rfl, rfl⟩ : pk.msg = m ∧ net = net' := by simpa using h
    obtain ⟨rfl, rfl⟩ := hpk
    exact .refl _
  | case3 pk net _ k ih => exact hkeep pk net net' k (fun net' h => ih h) h
  | case4 k pk net _ ih => exact hkeep pk net net' k (fun net' h => ih h) h

theorem takePacket_mem (h : takePacket src dest k net = some (m, net')) :
    (∃ pk ∈ net, pk.src = src ∧ pk.dest = dest ∧ pk.msg = m) ∧ net' ⊆ net := by
  have hperm := takePacket_perm h
  refine ⟨⟨_, hperm.mem_iff.mpr mem_cons_self, rfl, rfl, rfl⟩, fun pk hpk => ?_⟩
  exact hperm.mem_iff.mpr (mem_cons_of_mem _ hpk)

theorem mem_newPackets {old new : List (Event β)} {pk : Packet β}
    (h : pk ∈ newPackets src old new) :
    pk.src = src ∧ .send pk.msg pk.dest ∈ new := by
  obtain ⟨e, he, heq⟩ := mem_filterMap.mp h
  have hmem := mem_of_mem_take (mem_reverse.mp he)
  split at heq
  · cases heq
    exact ⟨rfl, hmem⟩
  · cases heq

theorem not_restarted {ls : List (Label β)} (h : ∀ l ∈ ls, ¬ l.Restarts) (i : ℕ) :
    ¬ ∃ l ∈ ls, l.replica = i ∧ l.Restarts := by
  rintro ⟨l, hl, -, hrst⟩
  exact h l hl hrst

variable [DecidableEq β] {e : Panic} {g : ℕ → Core β} {B : Finset ℕ} {i : ℕ} {R : ℕ → Prop}
  {s : Replica β}

/-- A history a crash can leave behind: all of it, or part of what a step adds. -/
def Cut (P : Primitives β) (c : Core β) (t : List (Event β)) : Prop :=
  t = c.trace ∨ ∃ c', Step P c c' ∧ c.trace <:+ t ∧ t <:+ c'.trace

theorem Cut.suffix (h : Cut P c t) : c.trace <:+ t := by
  rcases h with rfl | ⟨c', -, h, -⟩
  · exact suffix_refl _
  · exact h

theorem Steps.exists_cut {c' : Core β} (h : Steps P c c') (hc : c.trace <:+ t)
    (hc' : t <:+ c'.trace) : ∃ m, Steps P c m ∧ Cut P m t := by
  induction h with
  | refl => exact ⟨c, .refl, .inl (hc'.eq_of_length_le hc.length_le)⟩
  | @tail m m' hsteps hstep ih =>
    rcases suffix_or_suffix_of_suffix hc' hstep.frame.2.2 with htm | hmt
    · exact ih htm
    · exact ⟨m, hsteps, .inr ⟨m', hstep, hmt, hc'⟩⟩

namespace Group

/-- No signature is forged: it is by a Byzantine replica, or on data that was signed. -/
def Genuine (P : Primitives β) (N : ℕ) (B : Finset ℕ) (g : ℕ → Core β) (src : ℕ) (m : Msg β) :
    Prop :=
  ∀ r data sig, (r, data, sig) ∈ msgSigs P src m → P.checkSig data r sig = true →
    r ∈ B ∨ r < N ∧ data ∈ signedData P (g r).trace

variable (P) (cfg : Config) (B : Finset ℕ) (R : ℕ → Prop)

/-- A step of a group of cores; those of `B` are Byzantine, and those of `R` may restart. -/
inductive Step : (ℕ → Core β) → (ℕ → Core β) → Prop
  | receive (g : ℕ → Core β) (i : ℕ) (m : Msg β) (src : ℕ) (hi : i < cfg.N) (hcorrect : i ∉ B)
      (hsrc : src < cfg.N) (hsent : src ∈ B ∨ src ∉ B ∧ .send m i ∈ (g src).trace)
      (hgenuine : Genuine P cfg.N B g src m) :
      Step g (Function.update g i ((g i).push [.recv m src]))
  | act (g : ℕ → Core β) (i : ℕ) (c' : Core β) (hi : i < cfg.N) (hcorrect : i ∉ B)
      (hstep : Sbft.Step P (g i) c') : Step g (Function.update g i c')
  | restart (g : ℕ → Core β) (i : ℕ) (t : List (Event β)) (c' : Core β) (hi : i < cfg.N)
      (hcorrect : i ∉ B) (hR : R i) (hcut : Cut P (g i) t) (hstart : Restarted P cfg i t c') :
      Step g (Function.update g i c')

/-- The groups that are reached from one whose replicas have just been created. -/
inductive Reachable : (ℕ → Core β) → Prop
  | init (g : ℕ → Core β) (hstart : ∀ i < cfg.N, Restarted P cfg i [] (g i)) : Reachable g
  | step (g g' : ℕ → Core β) (hg : Reachable g) (hstep : Step P cfg B R g g') : Reachable g'

variable {P cfg B R} {g g' : ℕ → Core β}

theorem Step.trace_suffix (h : Step P cfg B R g g') (j : ℕ) : (g j).trace <:+ (g' j).trace := by
  have hupdate : ∀ i c, (g i).trace <:+ c.trace →
      (g j).trace <:+ (update g i c j).trace := fun i c hc =>
    (forall_update_iff g fun j c => (g j).trace <:+ c.trace).mpr
      ⟨hc, fun _ _ => suffix_refl _⟩ j
  cases h with
  | receive i => exact hupdate i _ (suffix_cons _ _)
  | act i c' _ _ hstep => exact hupdate i c' hstep.frame.2.2
  | restart i _ c' _ _ _ hcut hstart => exact hupdate i c' (hcut.suffix.trans hstart.trace_suffix)

theorem Reachable.frame (h : Reachable P cfg B R g) :
    ∀ i < cfg.N, (g i).config = cfg ∧ (g i).id = i := by
  induction h with
  | init _ hstart => exact fun i hi => (hstart i hi).frame
  | step g _ _ hstep ih =>
    have hupdate : ∀ i c, (c.config = cfg ∧ c.id = i) → ∀ j < cfg.N,
        (update g i c j).config = cfg ∧ (update g i c j).id = j := fun i c hc =>
      (forall_update_iff g fun j c => j < cfg.N → c.config = cfg ∧ c.id = j).mpr
        ⟨fun _ => hc, fun j _ => ih j⟩
    cases hstep with
    | receive i _ _ hi => exact hupdate i _ (ih i hi)
    | act i c' hi _ hstep =>
      refine hupdate i c' ?_
      rw [hstep.frame.1, hstep.frame.2.1]
      exact ih i hi
    | restart i _ c' _ _ _ _ hstart => exact hupdate i c' hstart.frame

theorem Reachable.steps (h : Reachable P cfg B R g) (hi : i < cfg.N) (hcorrect : i ∉ B)
    (hsteps : Steps P (g i) c) : Reachable P cfg B R (update g i c) := by
  induction hsteps with
  | refl =>
    rw [update_eq_self]
    exact h
  | @tail m m' _ _ ih =>
    have hlast : Step P cfg B R (update g i m)
        (update (update g i m) i m') :=
      .act _ i m' hi hcorrect (by rwa [update_self])
    rw [update_idem] at hlast
    exact .step _ _ ih hlast

end Group

/-! ### Runs of replicas as runs of cores -/

theorem handle_tracks (inp : Input β) (hsup : Supported P s) :
    Ends (handle P inp) s (fun _ => Tracks P (inp.noticed s.core))
      (Leaves P (inp.noticed s.core)) := by
  cases inp with
  | receive m src => exact receive_tracks m src hsup
  | request req => exact request_follows req _ s ⟨hsup, .refl⟩
  | connection replica => exact connection_follows replica _ s ⟨hsup, .refl⟩
  | timer timer => exact fireTimer_follows timer _ s ⟨hsup, .refl⟩

/-- The process agrees with a core on the history, and unless it has halted in everything. -/
structure Process.Agrees (P : Primitives β) (p : Process β) (c : Core β) : Prop where
  trace : c.trace = p.replica.trace
  running : p.halted = false → c = p.replica.core ∧ Supported P p.replica

/-- A group of replicas agrees with a group of cores. -/
structure System.Agrees (P : Primitives β) (B : Finset ℕ) (sys : System β) (g : ℕ → Core β) :
    Prop where
  procs : ∀ i p, i ∉ B → sys.procs[i]? = some p → p.Agrees P (g i)
  net : ∀ pk ∈ sys.net, pk.src < sys.procs.length ∧ pk.src ∉ B ∧
    .send pk.msg pk.dest ∈ (g pk.src).trace

theorem Process.start_agrees (cfg : Config) (id : ℕ) (t : List (Event β)) :
    ∃ c, Restarted P cfg id t c ∧ (start P cfg id t).Agrees P c := by
  have h := restore_restarted (P := P) cfg id t
  unfold Ends at h
  unfold start
  split at h
  · rename_i s' heq
    rw [heq]
    exact ⟨s'.core, h.2, rfl, fun _ => ⟨rfl, supported_of_blank h.1.1⟩⟩
  · rename_i s' heq
    rw [heq]
    obtain ⟨c, hc, htrace⟩ := h
    exact ⟨c, hc, htrace, by simp [ofResult]⟩

theorem handle_agrees (inp : Input β) (hsup : Supported P s) :
    ∃ c, Steps P (inp.noticed s.core) c ∧ (ofResult (handle P inp s)).Agrees P c ∧
      ∀ e s', handle P inp s = .error e s' → c.Stops P e := by
  have h := handle_tracks inp hsup
  unfold Ends at h
  split at h
  · rename_i s' heq
    rw [heq]
    exact ⟨s'.core, h.2, ⟨rfl, fun _ => ⟨rfl, h.1⟩⟩, by simp⟩
  · rename_i e s' heq
    rw [heq]
    obtain ⟨c, hc, htrace, hstops⟩ := h
    refine ⟨c, hc, ⟨htrace, by simp [ofResult]⟩, fun e' s'' heq' => ?_⟩
    cases heq'
    exact hstops

theorem genuine_iff (hagree : sys.Agrees P B g)
    (hlen : sys.procs.length = sys.config.N) (h : genuine P B sys src m = true) :
    Group.Genuine P sys.config.N B g src m := by
  intro r data sig hmem hsig
  have := all_eq_true.mp h (r, data, sig) hmem
  simp only [hsig, Bool.not_true, Bool.false_or, Bool.or_eq_true, decide_eq_true_eq,
    beq_iff_eq, map_eq_some_iff] at this
  rcases this with hB | ⟨p, hp, hdata⟩
  · exact .inl hB
  · by_cases hB : r ∈ B
    · exact .inl hB
    · refine .inr ⟨hlen ▸ (List.getElem?_eq_some_iff.mp hp).1, ?_⟩
      rw [(hagree.procs r p hB hp).trace]
      exact hdata

theorem System.Agrees.commit (hagree : sys.Agrees P B g)
    (hi : i < sys.procs.length) (hB : i ∉ B) {old : List (Event β)} {p : Process β}
    (hp : p.Agrees P c) (hnet : net ⊆ sys.net) (htrace : (g i).trace <:+ c.trace) :
    (sys.commit i old p net).Agrees P B (update g i c) where
  procs j p' hj hp' := by
    simp only [System.commit] at hp'
    by_cases hij : i = j
    · subst hij
      rw [update_self]
      obtain rfl : p = p' := by simpa [hi] using hp'
      exact hp
    · rw [update_of_ne (Ne.symm hij)]
      exact hagree.procs j p' hj (by simpa [hij] using hp')
  net pk hpk := by
    simp only [System.commit, length_set] at hpk ⊢
    rcases mem_append.mp hpk with hold | hnew
    · obtain ⟨hsrc, hcorrect, hsent⟩ := hagree.net pk (hnet hold)
      refine ⟨hsrc, hcorrect, ?_⟩
      exact (forall_update_iff g fun j c => (g j).trace <:+ c.trace).mpr
        ⟨htrace, fun _ _ => suffix_refl _⟩ _ |>.subset hsent
    · obtain ⟨rfl, hsent⟩ := mem_newPackets hnew
      refine ⟨hi, hB, ?_⟩
      rw [update_self, hp.trace]
      exact hsent

theorem System.step_cases (h : sys.step P B l = some sys') :
    l.replica ∉ B ∧ ∃ p, sys.procs[l.replica]? = some p ∧
      ((l.action = .restart ∧ sys' = sys.commit l.replica p.replica.trace
          (.start P sys.config l.replica p.replica.trace) sys.net) ∨
        p.halted = false ∧ ∃ inp net after, sys.input P B l.replica l.action = some (inp, net) ∧
          after = ofResult (handle P inp { p.replica with choices := l.choices }) ∧
          ((l.crashAfter = none ∧ sys' = sys.commit l.replica p.replica.trace after net) ∨
            ∃ k, l.crashAfter = some k ∧ sys' = sys.commit l.replica p.replica.trace
              (.start P sys.config l.replica (after.replica.trace.drop
                (after.replica.trace.length - p.replica.trace.length - k))) net)) := by
  unfold step at h
  split_ifs at h with hB
  refine ⟨hB, ?_⟩
  split at h
  · cases h
  rename_i p hp
  refine ⟨p, hp, ?_⟩
  split at h
  · rename_i haction
    exact .inl ⟨haction, by simpa using h.symm⟩
  · split_ifs at h with hhalted
    split at h
    · cases h
    rename_i inp net hinput
    refine .inr ⟨by simpa using hhalted, inp, net, _, hinput, rfl, ?_⟩
    split at h
    · rename_i hcrash
      exact .inl ⟨hcrash, by simpa using h.symm⟩
    · rename_i k hcrash
      exact .inr ⟨k, hcrash, by simpa using h.symm⟩

theorem System.input_noticed (hg : Group.Reachable P sys.config B R g) (hagree : sys.Agrees P B g)
    (hlen : sys.procs.length = sys.config.N) (hi : i < sys.config.N) (hB : i ∉ B)
    {action : Action β} {inp : Input β} (h : sys.input P B i action = some (inp, net)) :
    Group.Reachable P sys.config B R (update g i (inp.noticed (g i))) ∧ net ⊆ sys.net := by
  have hstay : Group.Reachable P sys.config B R (update g i (g i)) := by
    rwa [update_eq_self]
  cases action with
  | deliver src =>
    simp only [input, bind_eq_bind, bind_eq_some_iff] at h
    obtain ⟨⟨m, net'⟩, htake, h⟩ := h
    split_ifs at h with hgenuine
    obtain ⟨rfl, rfl⟩ : Input.receive m src = inp ∧ net' = net := by simpa using h
    obtain ⟨⟨pk, hpk, rfl, rfl, rfl⟩, hnet⟩ := takePacket_mem htake
    obtain ⟨hsrc, hcorrect, hsent⟩ := hagree.net pk hpk
    exact ⟨.step _ _ hg (.receive g pk.dest pk.msg pk.src hi hB (hlen ▸ hsrc)
      (.inr ⟨hcorrect, hsent⟩) (genuine_iff hagree hlen hgenuine)), hnet⟩
  | inject src m =>
    simp only [input] at h
    split_ifs at h with hsrc
    obtain ⟨rfl, rfl⟩ : Input.receive m src = inp ∧ sys.net = net := by simpa using h
    exact ⟨.step _ _ hg (.receive g i m src hi hB (hlen ▸ hsrc.2.1) (.inl hsrc.1)
      (genuine_iff hagree hlen hsrc.2.2)), List.Subset.refl _⟩
  | restart => cases h
  | _ =>
    obtain ⟨rfl, rfl⟩ := h
    exact ⟨hstay, List.Subset.refl _⟩

theorem System.panic?_eq_some (h : sys.panic? P B l = some e) :
    l.crashAfter = none ∧ ∃ p inp net s',
      sys.procs[l.replica]? = some p ∧ sys.input P B l.replica l.action = some (inp, net) ∧
      handle P inp { p.replica with choices := l.choices } = .error e s' := by
  unfold panic? at h
  split at h
  · rename_i p inp net hp hinput hcrash
    split_ifs at h
    split at h
    · cases h
    · rename_i e' s' heq
      cases h
      exact ⟨hcrash, p, inp, net, s', hp, hinput, heq⟩
  · cases h

theorem System.not_restarts_of_panic? (h : sys.panic? P B l = some e) : ¬ l.Restarts := by
  obtain ⟨hcrash, p, inp, net, s', -, hinput, -⟩ := panic?_eq_some h
  rintro (hcrash' | haction)
  · exact hcrash' hcrash
  · simp [haction, input] at hinput

theorem System.exists_step_of_panic? (h : sys.panic? P B l = some e) :
    ∃ sys', sys.step P B l = some sys' := by
  obtain ⟨hcrash, p, inp, net, s', hp, hinput, -⟩ := panic?_eq_some h
  simp only [panic?, hp, hinput, hcrash] at h
  split_ifs at h with hstop
  obtain ⟨hB, hhalted⟩ := not_or.mp hstop
  simp only [step, hB, hp, if_false, hcrash]
  split
  · exact ⟨_, rfl⟩
  · simp only [hhalted, hinput]
    exact ⟨_, rfl⟩

/-- A step of replicas is matched by steps of cores, also where it ends in a panic. -/
theorem System.step_agrees (hg : Group.Reachable P sys.config B R g) (hagree : sys.Agrees P B g)
    (hlen : sys.procs.length = sys.config.N) (hR : l.Restarts → R l.replica)
    (h : sys.step P B l = some sys') :
    sys'.config = sys.config ∧ sys'.procs.length = sys.procs.length ∧
      ∃ g', Group.Reachable P sys.config B R g' ∧ sys'.Agrees P B g' ∧
        ∀ e, sys.panic? P B l = some e → (g' l.replica).Stops P e := by
  obtain ⟨hB, p, hp, hcases⟩ := step_cases h
  have hlt := (List.getElem?_eq_some_iff.mp hp).1
  have hi : l.replica < sys.config.N := hlen ▸ hlt
  obtain ⟨htrace, hrunning⟩ := hagree.procs _ p hB hp
  have hstay : Group.Reachable P sys.config B R (update g l.replica (g l.replica)) := by
    rwa [update_eq_self]
  -- a restart over a history that a crash of some core `m` leaves behind
  have hrestart : ∀ (m : Core β) (old t : List (Event β)) (net : List (Packet β)),
      Group.Reachable P sys.config B R (update g l.replica m) →
      (g l.replica).trace <:+ m.trace → Cut P m t → l.Restarts → net ⊆ sys.net →
      ∃ g', Group.Reachable P sys.config B R g' ∧ (sys.commit l.replica old
        (.start P sys.config l.replica t) net).Agrees P B g' ∧
        ∀ e, sys.panic? P B l = some e → (g' l.replica).Stops P e := by
    intro m old t net hm hext hcut hrst hnet
    obtain ⟨c, hc, hagrees⟩ := start_agrees sys.config l.replica t
    have hstep : Group.Step P sys.config B R (update g l.replica m) _ :=
      .restart _ l.replica t c hi hB (hR hrst) (by rwa [update_self]) hc
    rw [update_idem] at hstep
    exact ⟨_, .step _ _ hm hstep,
      hagree.commit hlt hB hagrees hnet (hext.trans (hcut.suffix.trans hc.trace_suffix)),
      fun e he => absurd hrst (not_restarts_of_panic? he)⟩
  rcases hcases with ⟨haction, rfl⟩ | ⟨hhalted, inp, net, after, hinput, rfl, hcrash⟩
  · refine ⟨rfl, by simp [commit], ?_⟩
    exact hrestart _ _ _ _ hstay (suffix_refl _) (.inl htrace.symm) (.inr haction)
      (List.Subset.refl _)
  · obtain ⟨hcore, hsup⟩ := hrunning hhalted
    obtain ⟨hreach, hnet⟩ := input_noticed hg hagree hlen hi hB hinput
    obtain ⟨c, hsteps, hagrees, hstops⟩ := handle_agrees inp
      (s := { p.replica with choices := l.choices })
      (hsup.extend rfl rfl rfl (suffix_refl _))
    have hsame : Replica.core { p.replica with choices := l.choices } = g l.replica := hcore.symm
    rw [hsame] at hsteps
    have hnoticed := inp.noticed_suffix (g l.replica)
    have hext := hnoticed.1.trans hsteps.frame.2.2
    have hreach_steps : ∀ m, Steps P (inp.noticed (g l.replica)) m →
        Group.Reachable P sys.config B R (update g l.replica m) := by
      intro m hm
      have := hreach.steps hi hB (by rwa [update_self])
      rwa [update_idem] at this
    rcases hcrash with ⟨-, rfl⟩ | ⟨k, hk, rfl⟩
    · refine ⟨rfl, by simp [commit], update g l.replica c, hreach_steps c hsteps,
        hagree.commit hlt hB hagrees hnet hext, fun e he => ?_⟩
      obtain ⟨-, p', inp', net', s', hp', hinput', herror⟩ := panic?_eq_some he
      obtain rfl : p' = p := by simpa [hp'] using hp
      obtain ⟨rfl, -⟩ : inp' = inp ∧ net' = net := by simpa [hinput'] using hinput
      rw [update_self]
      exact hstops e s' herror
    · refine ⟨rfl, by simp [commit], ?_⟩
      have hrst : l.Restarts := .inl (by simp [hk])
      rw [← hagrees.trace, ← htrace]
      generalize hkept : c.trace.drop _ = kept
      have hkept_suffix : kept <:+ c.trace := hkept ▸ drop_suffix _ _
      have hold : (g l.replica).trace <:+ kept := by
        refine suffix_of_suffix_length_le hext hkept_suffix ?_
        rw [← hkept, length_drop]
        have := hext.length_le
        omega
      -- the crash comes before the input was noticed, or after it
      rcases suffix_or_suffix_of_suffix hkept_suffix hsteps.frame.2.2 with hbefore | hafter
      · rcases hnoticed.2 hbefore with heq | hle
        · exact hrestart _ _ _ _ hreach hnoticed.1 (.inl heq) hrst hnet
        · exact hrestart _ _ _ _ hstay (suffix_refl _) (.inl (hle.eq_of_length_le hold.length_le))
            hrst hnet
      · obtain ⟨m, hm, hcut⟩ := hsteps.exists_cut hafter hkept_suffix
        exact hrestart m _ _ _ (hreach_steps m hm) (hnoticed.1.trans hm.frame.2.2) hcut hrst hnet

theorem System.init_agrees (cfg : Config) (B : Finset ℕ) (R : ℕ → Prop) :
    ∃ g, Group.Reachable P cfg B R g ∧ (init P cfg).Agrees P B g := by
  choose g hstart hagrees using fun i => start_agrees (P := P) cfg i []
  refine ⟨g, .init g fun i _ => hstart i, fun i p _ hp => ?_, by simp [init]⟩
  simp only [init, List.getElem?_map, map_eq_some_iff] at hp
  obtain ⟨j, hj, rfl⟩ := hp
  obtain ⟨hlt, rfl⟩ : i < cfg.N ∧ i = j := by simpa [List.getElem?_eq_some_iff] using hj
  exact hagrees i

theorem run_agrees (hrun : run P B (init P cfg) ls = some sys) :
    ∃ g, Group.Reachable P cfg B (fun i => ∃ l ∈ ls, l.replica = i ∧ l.Restarts) g ∧
      sys.config = cfg ∧ sys.procs.length = cfg.N ∧ sys.Agrees P B g := by
  rw [run_eq_runSteps] at hrun
  -- along the run, the group keeps its configuration and size
  refine runSteps_invariant (φ := fun _ l => l ∈ ls)
    (I := fun sys => ∃ g, Group.Reachable P cfg B _ g
    ∧ sys.config = cfg ∧ sys.procs.length = cfg.N ∧ sys.Agrees P B g) ?_ ?_
    (along_of_forall_mem fun _ hl _ => hl) hrun
  · obtain ⟨g, hg, hagree⟩ := init_agrees (P := P) cfg B _
    exact ⟨g, hg, rfl, by simp [init], hagree⟩
  · rintro sys₁ l sys₂ hl ⟨g, hg, rfl, hlen, hagree⟩ hstep
    obtain ⟨hcfg', hlen', g', hg', hagree', -⟩ := step_agrees hg hagree hlen
      (fun hrst => ⟨l, hl, rfl, hrst⟩) hstep
    exact ⟨g', hg', hcfg', hlen'.trans hlen, hagree'⟩

theorem System.Agrees.histories
    (h : sys.Agrees P B g) (hlen : sys.procs.length = cfg.N) (i : ℕ) (t : List (Event β)) :
    (i, t) ∈ sys.histories B ↔ i < cfg.N ∧ i ∉ B ∧ t = (g i).trace := by
  refine mem_histories.trans ⟨?_, ?_⟩
  · rintro ⟨hi, p, hp, rfl⟩
    exact ⟨hlen ▸ (List.getElem?_eq_some_iff.mp hp).1, hi, (h.procs i p hi hp).trace.symm⟩
  · rintro ⟨hlt, hi, rfl⟩
    obtain ⟨p, hp⟩ : ∃ p, sys.procs[i]? = some p :=
      ⟨_, List.getElem?_eq_getElem (hlen.symm ▸ hlt)⟩
    exact ⟨hi, p, hp, (h.procs i p hi hp).trace⟩

/-- Every run of a group of replicas is one of a group of cores with the same
histories. -/
theorem run_refines (hrun : run P B (init P cfg) ls = some sys) :
    ∃ g, Group.Reachable P cfg B (fun i => ∃ l ∈ ls, l.replica = i ∧ l.Restarts) g ∧
      ∀ i t, (i, t) ∈ sys.histories B ↔ i < cfg.N ∧ i ∉ B ∧ t = (g i).trace := by
  obtain ⟨g, hg, -, hlen, hagree⟩ := run_agrees hrun
  exact ⟨g, hg, hagree.histories hlen⟩

theorem run_stops
    (hrun : run P B (init P cfg) ls = some sys) (hstep : sys.step P B l = some sys')
    (hpanic : sys.panic? P B l = some e) :
    ∃ g, Group.Reachable P cfg B (fun i => ∃ l ∈ ls, l.replica = i ∧ l.Restarts) g ∧
      (∀ i t, (i, t) ∈ sys'.histories B ↔ i < cfg.N ∧ i ∉ B ∧ t = (g i).trace) ∧
      l.replica < cfg.N ∧ l.replica ∉ B ∧ (g l.replica).Stops P e := by
  obtain ⟨g, hg, rfl, hlen, hagree⟩ := run_agrees hrun
  obtain ⟨hB, p, hp, -⟩ := step_cases hstep
  obtain ⟨-, hlen', g', hg', hagree', hstops⟩ := step_agrees hg hagree hlen
    (fun hrst => absurd hrst (not_restarts_of_panic? hpanic)) hstep
  exact ⟨g', hg', hagree'.histories (hlen'.trans hlen),
    hlen ▸ (List.getElem?_eq_some_iff.mp hp).1, hB, hstops e hpanic⟩

end Fabric.Sbft
