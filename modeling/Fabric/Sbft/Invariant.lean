import Fabric.Sbft.Group

/-!
# Invariants of a replica

Rules for proving that a property holds of a replica throughout a run, whatever the
other replicas do. A property may depend on a condition on the history: it is shown of
all replicas whose history satisfies the condition at every point.
-/

namespace Fabric.Sbft

open Fabric.Common List

variable {β : Type} {P : Primitives β}

/-! ### What a step adds to the history -/

/-- The events that conditions leave free: all but receptions, restarts and the entry to handlers
other than `handleCheckedPreprepare`, which is entered from within others. -/
def Event.Free : Event β → Prop
  | .recv _ _ | .restart => False
  | .call (.handleCheckedPreprepare _) _ => True
  | .call _ _ => False
  | _ => True

variable {m : Msg β} {t : List (Event β)} {c' : Core β} {src : ℕ} {c : Core β} {b : Batch β}

section Free

variable {c : Core β} {es : List (Event β)} {e : Event β}

theorem free_broadcastEvents {N : ℕ} : ∀ e ∈ broadcastEvents N m, e.Free := by
  intro e he
  obtain ⟨dest, -, rfl⟩ := mem_broadcastEvents.mp he
  trivial

theorem Core.free_voteEvents {sub : Subject β} : ∀ e ∈ c.voteEvents sub, e.Free := by
  unfold voteEvents
  split_ifs
  · exact forall_mem_nil _
  · exact free_broadcastEvents

theorem Core.free_xsetEvents {best : Batch β} : ∀ e ∈ c.xsetEvents P best, e.Free := by
  unfold xsetEvents
  split_ifs
  · exact forall_mem_singleton.mpr trivial
  · exact forall_mem_nil _

theorem Core.free_helloEvents : ∀ e ∈ c.helloEvents P b, e.Free := by
  unfold helloEvents
  split_ifs
  · exact forall_mem_singleton.mpr trivial
  · exact forall_mem_nil _

theorem quiet_of_added (h : ∀ e ∈ es, Quiet e)
    (hnew : Added c.trace (c.push es).trace e) : Quiet e :=
  h e (by simpa using hnew)

theorem greeting_of_added {r : ℕ} (h : ∀ e ∈ es, Greeting P c r e)
    (hnew : Added c.trace (c.push (es ++ [.call (.connection r) c.status])).trace e)
    (hcall : ∀ k st, e ≠ .call k st) : Greeting P c r e :=
  h e (by simpa [hcall] using hnew)

end Free

theorem Restarted.recv_mem {cfg : Config} {id : ℕ} (h : Restarted P cfg id t c)
    (hmem : .recv m src ∈ c.trace) :
    .recv m src ∈ t := by
  cases h <;> simpa using hmem

theorem signedData_subset {t' : List (Event β)} (h : t <:+ t') :
    signedData P t ⊆ signedData P t' := (h.sublist.filterMap _).subset

theorem System.exists_of_always {result : Option (System β)} {p r : System β → Prop}
    (B : Finset ℕ) (φ : Event β → List (Event β) → Prop)
    (h : ∃ sys, result = some sys ∧ p sys ∧ ∀ e ∈ sys.histories B, Always φ e.2)
    (hr : ∀ sys, result = some sys → (∀ e ∈ sys.histories B, Always φ e.2) → r sys) :
    ∃ sys, result = some sys ∧ p sys ∧ r sys :=
  exists_and_of_checked _ h hr

variable [DecidableEq β]

theorem Accepts.shape {c c₀ : Core β} {pp : Preprepare β} {sv : SeqView}
    (h : Accepts P c c₀ pp sv b) : ∃ es entry, c₀.trace = es ++ entry ++ c.trace ∧
      (∀ e ∈ es, e.Free) ∧ (entry = [] ∨ ∃ k st, entry = [.call k st]) := by
  cases h with
  | propose =>
    refine ⟨broadcastEvents _ _ ++ [.persist _], [], by simp; rfl, ?_, .inl rfl⟩
    exact forall_mem_append.mpr ⟨free_broadcastEvents, by simp [Event.Free]⟩
  | preprepare => exact ⟨[], [], rfl, by simp, .inl rfl⟩
  | newView => exact ⟨_, [_], by simp; rfl, Core.free_xsetEvents, .inr ⟨_, _, rfl⟩⟩

/-- A step enters at most one handler, and whatever else it adds to the history comes
after that and is free. -/
theorem Step.shape (h : Step P c c') : ∃ es entry,
    c'.trace = es ++ entry ++ c.trace ∧ (∀ e ∈ es, e.Free) ∧
      (entry = [] ∨ ∃ k st, entry = [.call k st]) := by
  cases h with
  | call | prepare | commit | checkpoint => exact ⟨[], [_], rfl, by simp, .inr ⟨_, _, rfl⟩⟩
  | quiet es hquiet =>
    refine ⟨es, [], by simp, fun e he => ?_, .inl rfl⟩
    cases hquiet e he <;> trivial
  | accept c₀ _ _ _ _ haccepts =>
    obtain ⟨es, entry, htrace, hfree, hentry⟩ := haccepts.shape
    refine ⟨c₀.voteEvents _ ++ .persist _ :: .call (.handleCheckedPreprepare _) _ :: es, entry,
      by simp [htrace]; rfl, ?_, hentry⟩
    simp only [forall_mem_append, forall_mem_cons]
    exact ⟨Core.free_voteEvents, trivial, trivial, hfree⟩
  | acceptCommit =>
    refine ⟨broadcastEvents _ _ ++ [.persist _], [], by simp; rfl, ?_, .inl rfl⟩
    exact forall_mem_append.mpr ⟨free_broadcastEvents, by simp [Event.Free]⟩
  | prepareCommit | sendViewChange =>
    refine ⟨broadcastEvents _ _ ++ [_], [_], by simp; rfl, ?_, .inr ⟨_, _, rfl⟩⟩
    exact forall_mem_append.mpr ⟨free_broadcastEvents, by simp [Event.Free]⟩
  | commitExecute =>
    refine ⟨broadcastEvents _ _ ++ [.signCheckpoint _, .persist _], [_], by simp; rfl, ?_,
      .inr ⟨_, _, rfl⟩⟩
    exact forall_mem_append.mpr ⟨free_broadcastEvents, by simp [Event.Free]⟩
  | checkpointDeliver => exact ⟨[_], [_], rfl, by simp [Event.Free], .inr ⟨_, _, rfl⟩⟩
  | hello => exact ⟨_, [_], by simp; rfl, Core.free_helloEvents, .inr ⟨_, _, rfl⟩⟩
  | helloNewView =>
    refine ⟨Core.xsetEvents P _ _ ++ Core.helloEvents P _ _, [_], by simp; rfl, ?_,
      .inr ⟨_, _, rfl⟩⟩
    exact forall_mem_append.mpr ⟨Core.free_xsetEvents, Core.free_helloEvents⟩
  | newViewNull => exact ⟨_, [_], by simp; rfl, Core.free_xsetEvents, .inr ⟨_, _, rfl⟩⟩
  | jump => exact ⟨[], [], rfl, by simp, .inl rfl⟩
  | sendNewView => exact ⟨_, [], by simp; rfl, free_broadcastEvents, .inl rfl⟩
  | greet _ es hes =>
    refine ⟨es, [_], rfl, fun e he => ?_, .inr ⟨_, _, rfl⟩⟩
    cases hes e he <;> trivial

/-- A condition that leaves free events free holds after a step if it holds of a history that cuts
the step short, unless nothing of the step is left. -/
theorem Step.always_of_cut {φ : Event β → List (Event β) → Prop} (h : Step P c c')
    (hφ : ∀ e t, e.Free → φ e t) (ht : c.trace <:+ t) (ht' : t <:+ c'.trace) (hne : t ≠ c.trace)
    (halways : Always φ t) : Always φ c'.trace := by
  obtain ⟨es, entry, htrace, hfree, hentry⟩ := h.shape
  rw [htrace, append_assoc, always_append_iff fun e he t => hφ e t (hfree e he)]
  rcases hentry with rfl | ⟨k, st, rfl⟩
  · exact halways.suffix ht
  · -- the history reaches at least up to the entry
    refine halways.suffix ?_
    rcases suffix_or_suffix_of_suffix ht' (htrace ▸ ⟨es, by simp⟩ :
      [.call k st] ++ c.trace <:+ c'.trace) with hle | hge
    · rcases suffix_cons_iff.mp hle with heq | hle
      · rw [heq]
        exact suffix_refl _
      · exact absurd (hle.eq_of_length_le ht.length_le) hne
    · exact hge

theorem Step.view_le (h : Step P c c')
    (hrange : ∀ st t, .call .sendViewChange st :: t <:+ c'.trace → st.view + 1 < 2 ^ 64) :
    c.view ≤ c'.view := by
  cases h
  case accept haccepts => exact haccepts.view_eq.ge
  case jump hw _ => exact hw.le
  case sendViewChange w _ =>
    have hlt := hrange ⟨w, c.activeView, c.cur⟩ c.trace (by simp)
    simp only [Core.sendViewChange_view, uint64_of_lt hlt]
    omega
  all_goals simp

/-! ### A replica in an arbitrary environment -/

/-- The cores of a replica that receives anything, and restarts if `r` allows it. -/
inductive Alone (P : Primitives β) (cfg : Config) (id : ℕ) (r : Prop) : Core β → Prop
  | start (c : Core β) (hstart : Restarted P cfg id [] c) : Alone P cfg id r c
  | receive (c : Core β) (m : Msg β) (src : ℕ) (hc : Alone P cfg id r c) :
      Alone P cfg id r (c.push [.recv m src])
  | act (c c' : Core β) (hc : Alone P cfg id r c) (hstep : Step P c c') : Alone P cfg id r c'
  | restart (c : Core β) (t : List (Event β)) (c' : Core β) (hc : Alone P cfg id r c) (hr : r)
      (hcut : Cut P c t) (hstart : Restarted P cfg id t c') : Alone P cfg id r c'

section Induction

variable {cfg : Config} {id : ℕ} {r : Prop} {c : Core β}
  {φ ψ : Event β → List (Event β) → Prop} {I : Core β → Prop}

/-- An invariant of a replica that does not restart, under a condition `φ` on its
history. -/
theorem Alone.induction (h : Alone P cfg id r c) (hr : ¬ r) (hφ : Always φ c.trace)
    (hstart : ∀ c, Restarted P cfg id [] c → Always φ c.trace → I c)
    (hreceive : ∀ c m src, Always φ (.recv m src :: c.trace) → I c → I (c.push [.recv m src]))
    (hact : ∀ c c', Alone P cfg id r c → Always φ c'.trace → I c → Step P c c' → I c') : I c := by
  induction h with
  | start c hc => exact hstart c hc hφ
  | receive c m src _ ih => exact hreceive c m src hφ (ih (hφ.suffix (suffix_cons _ _)))
  | act c c' hc hstep ih => exact hact c c' hc hφ (ih (hφ.suffix hstep.frame.2.2)) hstep
  | restart _ _ _ _ hrst => exact absurd hrst hr

/-- An invariant of a replica that may restart. What a crash leaves of the history
still satisfies `ψ` everywhere, which must suffice to restart. -/
theorem Alone.induction_restart (h : Alone P cfg id r c) (hφ : Always φ c.trace)
    (hfree : ∀ e t, e.Free → φ e t) (hψ : ∀ c, I c → Always ψ c.trace)
    (hstart : ∀ t c, Restarted P cfg id t c → Always φ c.trace → Always ψ t → I c)
    (hreceive : ∀ c m src, Always φ (.recv m src :: c.trace) → I c → I (c.push [.recv m src]))
    (hact : ∀ c c', Alone P cfg id r c → Always φ c'.trace → I c → Step P c c' → I c') : I c := by
  induction h with
  | start c hc => exact hstart [] c hc hφ trivial
  | receive c m src _ ih => exact hreceive c m src hφ (ih (hφ.suffix (suffix_cons _ _)))
  | act c c' hc hstep ih => exact hact c c' hc hφ (ih (hφ.suffix hstep.frame.2.2)) hstep
  | restart c t c' hc _ hcut hc' ih =>
    have hφt := hφ.suffix hc'.trace_suffix
    have hI := ih (hφt.suffix hcut.suffix)
    refine hstart t c' hc' hφ ?_
    by_cases heq : t = c.trace
    · exact heq ▸ hψ c hI
    · rcases hcut with rfl | ⟨c'', hstep, hpre, hpost⟩
      · exact absurd rfl heq
      · have hφc'' := hstep.always_of_cut hfree hpre hpost heq hφt
        exact (hψ c'' (hact c c'' hc hφc'' hI hstep)).suffix hpost

theorem Alone.frame (h : Alone P cfg id r c) : c.config = cfg ∧ c.id = id := by
  induction h with
  | start _ hc => exact hc.frame
  | receive _ _ _ _ ih => exact ih
  | act _ _ _ hstep ih => exact ⟨hstep.frame.1.trans ih.1, hstep.frame.2.1.trans ih.2⟩
  | restart _ _ _ _ _ _ hc' => exact hc'.frame

end Induction

/-! ### Correct replicas of a group -/

section Groups

variable {cfg : Config} {B : Finset ℕ} {R : ℕ → Prop} {g : ℕ → Core β}

theorem Group.Reachable.alone (h : Group.Reachable P cfg B R g) :
    ∀ i < cfg.N, Alone P cfg i (R i) (g i) := by
  induction h with
  | init _ hstart => exact fun i hi => .start _ (hstart i hi)
  | step g _ _ hstep ih =>
    have hupdate : ∀ i c, Alone P cfg i (R i) c → ∀ j < cfg.N,
        Alone P cfg j (R j) (Function.update g i c j) := fun i c hc =>
      (Function.forall_update_iff g fun j c => j < cfg.N → Alone P cfg j (R j) c).mpr
        ⟨fun _ => hc, fun j _ => ih j⟩
    cases hstep with
    | receive i m src hi => exact hupdate i _ (.receive _ m src (ih i hi))
    | act i c' hi _ hstep => exact hupdate i c' (.act _ c' (ih i hi) hstep)
    | restart i t c' hi _ hR hcut hstart => exact hupdate i c' (.restart _ t c' (ih i hi) hR hcut hstart)

theorem Step.recv_mem (h : Step P c c') (hmem : .recv m src ∈ c'.trace) :
    .recv m src ∈ c.trace := by
  obtain ⟨es, entry, htrace, hfree, hentry⟩ := h.shape
  rw [htrace, append_assoc, mem_append, mem_append] at hmem
  rcases hmem with hes | hentry' | hold
  · exact (hfree _ hes).elim
  · rcases hentry with rfl | ⟨k, st, rfl⟩
    · cases hentry'
    · simp at hentry'
  · exact hold

theorem Cut.recv_mem (h : Cut P c t) (hmem : .recv m src ∈ t) : .recv m src ∈ c.trace := by
  rcases h with rfl | ⟨c', hstep, -, hpost⟩
  · exact hmem
  · exact hstep.recv_mem (hpost.subset hmem)

/-- What was received was sent, by a Byzantine replica or by the sender's history, and is genuine.
-/
theorem Group.Reachable.recv (h : Group.Reachable P cfg B R g) :
    ∀ i < cfg.N, i ∉ B → ∀ m src, .recv m src ∈ (g i).trace →
      src < cfg.N ∧ (src ∈ B ∨ src ∉ B ∧ .send m i ∈ (g src).trace) ∧
        Group.Genuine P cfg.N B g src m := by
  induction h with
  | init _ hstart =>
    intro i hi _ m src hmem
    cases (hstart i hi).recv_mem hmem
  | step g g' _ hstep ih =>
    -- what holds of a message keeps holding while histories grow
    have hkeep : ∀ i m src, (src < cfg.N ∧ (src ∈ B ∨ src ∉ B ∧ .send m i ∈ (g src).trace) ∧
        Group.Genuine P cfg.N B g src m) →
        src < cfg.N ∧ (src ∈ B ∨ src ∉ B ∧ .send m i ∈ (g' src).trace) ∧
          Group.Genuine P cfg.N B g' src m := by
      rintro i m src ⟨hsrc, hsent, hgenuine⟩
      refine ⟨hsrc, hsent.imp_right fun hs => ⟨hs.1, (hstep.trace_suffix src).subset hs.2⟩, ?_⟩
      intro r data sig hmem hsig
      exact (hgenuine r data sig hmem hsig).imp_right fun hs =>
        ⟨hs.1, signedData_subset (hstep.trace_suffix r) hs.2⟩
    have hupdate : ∀ i j c' m src, .recv m src ∈ (Function.update g j c' i).trace →
        (.recv m src ∈ c'.trace → .recv m src ∈ (g j).trace) → .recv m src ∈ (g i).trace := by
      intro i j c' m src hmem hold
      by_cases hj : i = j
      · subst hj
        exact hold (by simpa using hmem)
      · rwa [Function.update_of_ne hj] at hmem
    intro i hi hB m src hmem
    refine hkeep i m src ?_
    cases hstep with
    | receive j _ _ _ _ hsrc hsent hgenuine =>
      by_cases hj : i = j
      · subst hj
        rw [Function.update_self] at hmem
        rcases mem_cons.mp hmem with heq | hold
        · cases heq
          exact ⟨hsrc, hsent, hgenuine⟩
        · exact ih i hi hB m src hold
      · rw [Function.update_of_ne hj] at hmem
        exact ih i hi hB m src hmem
    | act j c' _ _ hstep =>
      exact ih i hi hB m src (hupdate i j c' m src hmem hstep.recv_mem)
    | restart j _ c' _ _ _ hcut hstart =>
      exact ih i hi hB m src (hupdate i j c' m src hmem fun h => hcut.recv_mem (hstart.recv_mem h))

end Groups

end Fabric.Sbft
