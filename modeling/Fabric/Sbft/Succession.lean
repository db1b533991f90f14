import Fabric.Sbft.Primary

/-!
# How a primary takes over

A primary enters its view with its own new view, even where a hello tells it to join. From
then on its chain has reached all checkpoints of the new view and it works on no batch
before the one that the new view proposes. What it proposes itself hence comes after both.
-/

namespace Fabric.Sbft

open Fabric.Common Fabric.Sbft.Core

variable {β : Type} [DecidableEq β] {P : Primitives β} {c c' : Core β} {nv : NewView β}
  {sv : SeqView}

/-- A new view that was entered: its checkpoints are on the chain, its batch not after that in
flight. -/
structure Core.Entered (P : Primitives β) (c : Core β) (nv : NewView β) : Prop where
  recv : .recv (.newView nv) c.primaryID ∈ c.trace
  view : nv.view = c.view
  acceptable : nv.Acceptable P c.config
  checkpoints : ∀ cp ∈ nv.checkpoints P, seqOf P cp ≤ c.last P
  batch : ∀ b, nv.batch = some b → seqOf P b ≤ c.cur.seq.seq

/-- A position in the view of a new view, after its checkpoints and its batch. -/
structure NewView.Precedes (P : Primitives β) (cfg : Config) (nv : NewView β) (sv : SeqView) :
    Prop where
  acceptable : nv.Acceptable P cfg
  view : nv.view = sv.view
  checkpoints : ∀ cp ∈ nv.checkpoints P, seqOf P cp < sv.seq
  batch : ∀ b, nv.batch = some b → seqOf P b < sv.seq

/-- What a replica has entered, announced and proposed as a primary. -/
structure Core.Presides (P : Primitives β) (c : Core β) : Prop where
  entered : c.activeView = true → c.primaryID = c.id → 0 < c.view → ∃ nv, c.Entered P nv
  greeted : ∀ h dest nv, .send (.hello h) dest ∈ c.trace → h.newView = some nv →
    nv.view < c.view ∨ nv.view = c.view ∧ c.activeView = true
  proposed : ∀ sv d, AcceptedAt P c.trace sv d → sv.view % c.config.N = c.id → 0 < sv.view →
    ∃ nv, .recv (.newView nv) c.id ∈ c.trace ∧
      (nv.ProposesAt P c.config sv d ∨ nv.Precedes P c.config sv)

theorem Core.Entered.extend (h : c.Entered P nv) (hcfg : c'.config = c.config)
    (hview : c'.view = c.view) (htrace : c.trace <:+ c'.trace) (hlast : c.last P ≤ c'.last P)
    (hseq : c.cur.seq.seq ≤ c'.cur.seq.seq) : c'.Entered P nv where
  recv := by
    rw [primaryID, hview, hcfg]
    exact htrace.subset h.recv
  view := h.view.trans hview.symm
  acceptable := hcfg ▸ h.acceptable
  checkpoints cp hcp := (h.checkpoints cp hcp).trans hlast
  batch b hb := (h.batch b hb).trans hseq

theorem Core.Entered.precedes (h : c.Entered P nv) (hnear : c.Nearby P)
    (hdone : c.cur.checkpointDone = true) (hrange : c.last P + 1 < 2 ^ 64) :
    nv.Precedes P c.config (c.next P) := by
  have hnext : (c.next P).seq = c.last P + 1 := uint64_of_lt hrange
  refine ⟨h.acceptable, h.view, fun cp hcp => ?_, fun b hb => ?_⟩
  · rw [hnext]
    exact Nat.lt_succ_of_le (h.checkpoints cp hcp)
  · rw [hnext]
    exact Nat.lt_succ_of_le ((h.batch b hb).trans (hnear.done hdone))

/-! ### Steps -/

/-- A primary has entered its view. A replica receives from itself only what it has sent. -/
theorem Step.presides_entered (h : Step P c c') (hc : c.Sound P) (hnear : c.Nearby P)
    (hφ : Always (InRange P) c'.trace) (hlast : c.last P ≤ c'.last P)
    (hself : ∀ m, .recv m c.id ∈ c.trace → .send m c.id ∈ c.trace) (hold : c.Presides P)
    (hactive : c'.activeView = true) (hprimary : c'.primaryID = c'.id) (hpos : 0 < c'.view) :
    ∃ nv, c'.Entered P nv := by
  have htrace := h.frame.2.2
  have hkeep : c'.activeView = c.activeView → c'.config = c.config → c'.id = c.id →
      c'.view = c.view → c.cur.seq.seq ≤ c'.cur.seq.seq → ∃ nv, c'.Entered P nv := by
    intro hactive' hcfg hid hview hseq
    rw [primaryID, hcfg, hid, hview] at hprimary
    obtain ⟨nv, hnv⟩ := hold.entered (hactive' ▸ hactive) hprimary (hview ▸ hpos)
    exact ⟨nv, hnv.extend hcfg hview htrace hlast hseq⟩
  cases h
  case accept b _ haccepts =>
    have hadvances := haccepts.advances hc hnear (InRange.last_lt hφ)
    cases haccepts with
    | propose _ _ hactive' =>
      refine hkeep rfl rfl rfl rfl (hadvances.resolve_left ?_).2.le
      simp [hactive']
    | preprepare =>
      refine hkeep rfl rfl rfl rfl (hadvances.resolve_left ?_).2.le
      rintro ⟨hfalse, htrue⟩
      simp [hfalse] at htrue
    | newView nv _ _ _ _ hview hrecv hok hjust hbatch =>
      refine ⟨nv, htrace.subset hrecv, hview, hok, fun cp hcp => ?_, fun b' hb' => ?_⟩
      · rw [last_accept, last_enterView]
        exact (hjust.seqOf_le hcp).trans (le_max_right _ _)
      · obtain rfl : b = b' := by simpa [hbatch] using hb'
        exact le_refl _
  case newViewNull nv _ _ _ hview hrecv hok hjust hbatch =>
    refine ⟨nv, htrace.subset hrecv, hview, hok, fun cp hcp => ?_, fun b hb => ?_⟩
    · rw [last_enterView]
      exact (hjust.seqOf_le hcp).trans (le_max_right _ _)
    · simp [hbatch] at hb
  case helloNewView h src _ _ nv _ _ hrecv _ _ hnv hsrc _ =>
    rcases lt_or_ge nv.view c.view with hlt | hge
    · exact hkeep (by simp [hlt.not_ge]) rfl rfl (by simp [hlt.le]) (le_refl _)
    · -- a hello that tells a primary to join its view is its own, sent from within the view
      have hp : nv.view % c.config.N = c.id := by
        rw [primaryID, deliverXset_view, joinView_view, hello_view, max_eq_right hge] at hprimary
        exact hprimary
      obtain rfl : src = c.id := hsrc.symm.trans hp
      rcases hold.greeted h _ nv (hself _ hrecv) hnv with hlt | ⟨heq, hactive'⟩
      · omega
      · exact hkeep (by simp [hactive']) rfl rfl (by simp [heq.le]) (le_refl _)
  case jump => simp at hactive
  case sendViewChange => simp at hactive
  all_goals exact hkeep rfl rfl rfl rfl (le_refl _)

theorem Step.stays_active (h : Step P c c') (hφ : Always (InRange P) c'.trace)
    (hactive : c.activeView = true) : c.view < c'.view ∨ c'.view = c.view ∧
      c'.activeView = true := by
  cases h
  case accept haccepts =>
    refine .inr ⟨haccepts.view_eq, ?_⟩
    cases haccepts with
    | propose | preprepare => exact hactive
    | newView => rfl
  case helloNewView nv _ _ _ _ _ _ _ _ =>
    rcases lt_or_ge c.view nv.view with hlt | hge
    · exact .inl (by simpa using hlt)
    · exact .inr ⟨by simpa using hge, by simp [hactive]⟩
  case newViewNull => exact .inr ⟨rfl, rfl⟩
  case jump hw _ => exact .inl hw
  case sendViewChange w _ =>
    have hcall : InRange P (.call .sendViewChange ⟨w, c.activeView, c.cur⟩) c.trace :=
      hφ.at (by simp)
    have hrange : w + 1 < 2 ^ 64 := hcall.2 _ rfl
    rw [sendViewChange_view, uint64_of_lt hrange]
    omega
  all_goals exact .inr ⟨rfl, hactive⟩

theorem Step.presides_greeted (h : Step P c c') (hφ : Always (InRange P) c'.trace)
    (hsent : ∀ nv, c.lastNewViewSent = some nv → nv.view ≤ c.view) (hold : c.Presides P)
    {hello : Hello β} {dest : ℕ} (hmem : .send (.hello hello) dest ∈ c'.trace)
    (hnv : hello.newView = some nv) :
    nv.view < c'.view ∨ nv.view = c'.view ∧ c'.activeView = true := by
  have hview := InRange.view_le h hφ
  suffices hc : nv.view < c.view ∨ nv.view = c.view ∧ c.activeView = true by
    rcases hc with hlt | ⟨heq, hactive⟩
    · exact .inl (hlt.trans_le hview)
    · rcases h.stays_active hφ hactive with hlt | ⟨heq', hactive'⟩
      · exact .inl (heq ▸ hlt)
      · exact .inr ⟨heq.trans heq'.symm, hactive'⟩
  rcases mem_or_added h.frame.2.2 hmem with hmem | hnew
  · exact hold.greeted hello dest nv hmem hnv
  · obtain ⟨rfl, -⟩ := h.hello_sent hnew
    split_ifs at hnv with hprimary
    exact (hsent nv hnv).lt_or_eq.imp_right fun heq => ⟨heq, hprimary.2⟩

theorem Step.presides_proposed (h : Step P c c') (hnear : c.Nearby P)
    (hφ : Always (InRange P) c'.trace) (hold : c.Presides P) {d : β}
    (haccepted : AcceptedAt P c'.trace sv d) (hprimary : sv.view % c'.config.N = c'.id)
    (hpos : 0 < sv.view) : ∃ nv, .recv (.newView nv) c'.id ∈ c'.trace ∧
      (nv.ProposesAt P c'.config sv d ∨ nv.Precedes P c'.config sv) := by
  have htrace := h.frame.2.2
  rw [h.frame.1, h.frame.2.1] at hprimary ⊢
  rcases h.acceptedAt haccepted with hacc | ⟨c₀, pp, b, timeout, haccepts, rfl, rfl⟩
  · obtain ⟨nv, hrecv, hnv⟩ := hold.proposed sv d hacc hprimary hpos
    exact ⟨nv, htrace.subset hrecv, hnv⟩
  · have hself : c.primaryID = c.id := by rwa [primaryID, ← haccepts.seq_view]
    have hrange := InRange.last_lt hφ
    cases haccepts with
    | propose _ _ hactive hdone =>
      rw [last_push (by simp +contextual [or_imp])] at hrange
      obtain ⟨nv, hnv⟩ := hold.entered hactive hself hpos
      exact ⟨nv, htrace.subset (hself ▸ hnv.recv), .inr (hnv.precedes hnear hdone hrange)⟩
    | preprepare _ _ _ _ hother => exact absurd hself hother
    | newView nv _ _ _ _ hview hrecv hok hjust hbatch =>
      exact ⟨nv, htrace.subset (hself ▸ hrecv), .inl (.of_accept hok hview hjust hbatch rfl hφ)⟩

/-! ### Groups -/

namespace Group.Reachable

variable {cfg : Config} {B : Finset ℕ} {R : ℕ → Prop} {g : ℕ → Core β}

theorem presides (h : Reachable P cfg B R g) (hR : ∀ i, ¬ R i) (hB : B.card ≤ cfg.F)
    (hφ : ∀ i < cfg.N, i ∉ B → Always (fun e t => InRange P e t ∧ CountsAhead P e t) (g i).trace) :
    ∀ i < cfg.N, i ∉ B → (g i).Presides P := by
  refine h.invariant (I := fun _ c => c.Presides P) hR hφ (fun _ _ _ _ h => h) ?_ ?_ ?_
  · intro g i c hc
    obtain ⟨active, rfl⟩ := hc.of_nil
    constructor <;> simp [AcceptedAt]
  · intro g c m src hc
    have hsuffix : c.trace <:+ .recv m src :: c.trace := List.suffix_cons _ _
    exact {
      entered := fun hactive hprimary hpos => by
        obtain ⟨nv, hnv⟩ := hc.entered hactive hprimary hpos
        exact ⟨nv, hnv.extend rfl rfl hsuffix (le_refl _) (le_refl _)⟩
      greeted := fun hello dest nv hmem => hc.greeted hello dest nv (by simpa using hmem)
      proposed := fun sv d hacc hprimary hpos => by
        obtain ⟨nv, hrecv, hnv⟩ := hc.proposed sv d (by simpa [AcceptedAt] using hacc) hprimary hpos
        exact ⟨nv, hsuffix.subset hrecv, hnv⟩ }
  · intro g i c' hg hφg hI hi hiB hstep hφ'
    obtain ⟨hcfg, hid⟩ := hg.frame i hi
    have hsound := (hg.alone i hi).sound
    have hnear := (hg.nearby hR hB i hi hiB).1
    have hrange := hφ'.mono fun _ _ _ h => h.1
    have hlast := hstep.last_le hsound (hφ'.mono fun _ _ _ h => h.2)
    have hleads := hg.leads hR (fun j hj hjB => (hφg j hj hjB).mono fun _ _ _ h => h.1) i hi hiB
    have hself : ∀ m, .recv m (g i).id ∈ (g i).trace → .send m (g i).id ∈ (g i).trace := by
      intro m hrecv
      rw [hid] at hrecv ⊢
      exact ((hg.recv i hi hiB m i hrecv).2.1.resolve_left hiB).2
    exact {
      entered := hstep.presides_entered hsound hnear hrange hlast hself (hI i hi hiB)
      greeted := fun hello dest nv => hstep.presides_greeted hrange
        (fun nv hnv => (hleads.last nv hnv).1) (hI i hi hiB)
      proposed := fun sv d => hstep.presides_proposed hnear hrange (hI i hi hiB) }

/-- What is accepted under a correct primary stems from the new view, or comes after all in it. -/
theorem accepted_source (h : Reachable P cfg B R g) (hR : ∀ i, ¬ R i) (hB : B.card ≤ cfg.F)
    (hφ : ∀ i < cfg.N, i ∉ B → Always (fun e t => InRange P e t ∧ CountsAhead P e t) (g i).trace)
    {i : ℕ} {d : β} (hi : i < cfg.N) (hiB : i ∉ B) (hpB : sv.view % cfg.N ∉ B)
    (hpos : 0 < sv.view) (haccepted : AcceptedAt P (g i).trace sv d) :
    ∃ j < cfg.N, j ∉ B ∧ ∃ nv src, .recv (.newView nv) src ∈ (g j).trace ∧
      (nv.ProposesAt P cfg sv d ∨ nv.Precedes P cfg sv) := by
  have hp : sv.view % cfg.N < cfg.N := Nat.mod_lt _ (Nat.zero_lt_of_lt hi)
  have hrange := (hφ i hi hiB).mono fun _ _ _ h => h.1
  rcases h.proposal_source hR hi hiB hrange hpB haccepted with hacc | ⟨nv, hrecv, hnv⟩
  · obtain ⟨hcfg, hid⟩ := h.frame _ hp
    obtain ⟨nv, hrecv, hnv⟩ :=
      (h.presides hR hB hφ _ hp hpB).proposed sv d hacc (by rw [hcfg, hid]) hpos
    rw [hcfg] at hnv
    exact ⟨_, hp, hpB, nv, _, hrecv, hnv⟩
  · exact ⟨i, hi, hiB, nv, _, hrecv, .inl hnv⟩

end Group.Reachable

end Fabric.Sbft
