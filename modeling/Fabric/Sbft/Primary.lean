import Fabric.Sbft.Position

/-!
# Proposals of a correct primary

A correct primary announces a view once and begins it by accepting what its own new view
proposes. Whatever the replicas accept in the view comes from the primary, in its new
view or in a preprepare that it has accepted itself. It hence proposes at most one digest
for a position.
-/

namespace Fabric.Sbft

open Fabric.Common

variable {β : Type} {P : Primitives β}

/-- A new view was sent. -/
def NewViewSent (t : List (Event β)) (nv : NewView β) : Prop :=
  ∃ dest, .send (.newView nv) dest ∈ t

/-- The batch of a new view was accepted, if it has one. -/
def NewView.Begun (P : Primitives β) (t : List (Event β)) (nv : NewView β) : Prop :=
  ∀ b, nv.batch = some b → AcceptedAt P t ⟨nv.view, seqOf P b⟩ (b.hash P)

variable {nv : NewView β} {sv : SeqView} {t t' : List (Event β)}

theorem NewViewSent.extend (h : NewViewSent t nv) (ht : t <:+ t') : NewViewSent t' nv := by
  obtain ⟨dest, hmem⟩ := h
  exact ⟨dest, ht.subset hmem⟩

theorem NewView.Begun.extend (h : nv.Begun P t) (ht : t <:+ t') :
    nv.Begun P t' := fun b hb => (h b hb).extend ht

/-- What a replica has announced, begun and proposed as a primary. -/
structure Core.Leads (P : Primitives β) (c : Core β) : Prop where
  last : ∀ nv, c.lastNewViewSent = some nv → nv.view ≤ c.view ∧ NewViewSent c.trace nv
  sent : ∀ nv, NewViewSent c.trace nv → ∃ nv₀, c.lastNewViewSent = some nv₀ ∧ nv.view ≤ nv₀.view
  once : ∀ nv nv', NewViewSent c.trace nv → NewViewSent c.trace nv' → nv.view = nv'.view → nv = nv'
  begun : c.activeView = true → c.primaryID = c.id → 0 < c.view →
    ∃ nv, NewViewSent c.trace nv ∧ nv.view = c.view ∧ nv.Begun P c.trace
  greeted : ∀ h dest nv, .send (.hello h) dest ∈ c.trace → h.newView = some nv → 0 < nv.view →
    NewViewSent c.trace nv ∧ (nv.Begun P c.trace ∨ nv.view < c.view)
  proposed : ∀ sv d, AcceptedAt P c.trace sv d → sv.view % c.config.N = c.id → 0 < sv.view →
    ∃ nv, NewViewSent c.trace nv ∧ nv.view = sv.view ∧ nv.Begun P c.trace

variable [DecidableEq β] {c c' : Core β}

/-- A new view proposes `d` at `sv`, and none of its checkpoints is the last that there can be. -/
structure NewView.ProposesAt (P : Primitives β) (cfg : Config) (nv : NewView β) (sv : SeqView)
    (d : β) : Prop where
  acceptable : nv.Acceptable P cfg
  view : nv.view = sv.view
  batch : ∃ b, nv.batch = some b ∧ seqOf P b = sv.seq ∧ b.hash P = d
  range : ∀ cp ∈ nv.checkpoints P, seqOf P cp + 1 < 2 ^ 64

theorem NewView.ProposesAt.of_accept {x : Option (Subject β)} {best b : Batch β} {pp : Preprepare β}
    {timeout : ℕ} (hok : nv.Acceptable P c.config) (hview : nv.view = sv.view)
    (hjust : nv.Justified P c.config x best) (hbatch : nv.batch = some b)
    (hseq : seqOf P b = sv.seq)
    (hφ : Always (InRange P) ((c.enterView P nv best).accept P pp sv b timeout).trace) :
    nv.ProposesAt P c.config sv (b.hash P) where
  acceptable := hok
  view := hview
  batch := ⟨b, hbatch, hseq, rfl⟩
  range cp hcp := by
    have hlast := InRange.last_lt hφ
    have hbest := hjust.seqOf_le hcp
    rw [Core.last_enterView] at hlast
    omega

/-! ### Announcing a view -/

theorem Step.newViewSent (h : Step P c c') : c'.lastNewViewSent = c.lastNewViewSent ∧
      (∀ nv, NewViewSent c'.trace nv → NewViewSent c.trace nv) ∨
    ∃ nv, c' = c.sendNewView nv ∧ nv.view = c.view ∧
      (c.lastNewViewSent.map fun nv => nv.view) ≠ some c.view := by
  have hnone : c'.lastNewViewSent = c.lastNewViewSent → ∀ nv, NewViewSent c'.trace nv →
      NewViewSent c.trace nv := by
    rintro heq nv ⟨dest, hmem⟩
    rcases mem_or_added h.frame.2.2 hmem with hold | hnew
    · exact ⟨dest, hold⟩
    · obtain ⟨rfl, -, hview, hlast⟩ := h.newView_sent hnew
      have hsome : some nv = c.lastNewViewSent := heq
      exact absurd (by rw [← hsome, Option.map_some, hview]) hlast
  cases h
  case sendNewView nv _ hview hlast => exact .inr ⟨nv, rfl, hview, hlast⟩
  case accept c₀ _ _ _ _ haccepts =>
    have heq : c₀.lastNewViewSent = c.lastNewViewSent := by cases haccepts <;> rfl
    exact .inl ⟨heq, hnone heq⟩
  all_goals exact .inl ⟨rfl, hnone rfl⟩

theorem Step.leads_sent (h : Step P c c') (hview : c.view ≤ c'.view) (hid : c.id < c.config.N)
    (hold : c.Leads P) :
    (∀ nv, c'.lastNewViewSent = some nv → nv.view ≤ c'.view ∧ NewViewSent c'.trace nv) ∧
    (∀ nv, NewViewSent c'.trace nv → ∃ nv₀, c'.lastNewViewSent = some nv₀ ∧ nv.view ≤ nv₀.view) ∧
    ∀ nv nv', NewViewSent c'.trace nv → NewViewSent c'.trace nv' → nv.view = nv'.view →
      nv = nv' := by
  have htrace := h.frame.2.2
  rcases h.newViewSent with ⟨hlast, hsent⟩ | ⟨nv₁, rfl, hnv₁, hlast⟩
  · rw [hlast]
    refine ⟨fun nv hnv => ?_, fun nv hnv => hold.sent nv (hsent nv hnv), fun nv nv' hnv hnv' =>
      hold.once nv nv' (hsent nv hnv) (hsent nv' hnv')⟩
    exact ⟨(hold.last nv hnv).1.trans hview, (hold.last nv hnv).2.extend htrace⟩
  · -- all views announced before are earlier
    have hcases : ∀ nv, NewViewSent (c.sendNewView nv₁).trace nv → nv = nv₁ ∨ nv.view < c.view := by
      rintro nv ⟨dest, hmem⟩
      rcases mem_or_added htrace hmem with hmem | hnew
      · obtain ⟨nv₀, hnv₀, hle⟩ := hold.sent nv ⟨dest, hmem⟩
        have hne : nv₀.view ≠ c.view := fun heq => hlast (by rw [hnv₀, Option.map_some, heq])
        exact .inr (hle.trans_lt (lt_of_le_of_ne (hold.last nv₀ hnv₀).1 hne))
      · exact .inl (by simpa using hnew : dest < c.config.N ∧ nv = nv₁).2
    refine ⟨?_, fun nv hnv => ⟨nv₁, rfl, ?_⟩, fun nv nv' hnv hnv' heq => ?_⟩
    · rintro nv hnv
      obtain rfl : nv₁ = nv := by simpa using hnv
      exact ⟨hnv₁.le, c.id, by simp [hid]⟩
    · rcases hcases nv hnv with rfl | hlt
      · exact le_refl _
      · omega
    · rcases hcases nv hnv with rfl | hlt <;> rcases hcases nv' hnv' with rfl | hlt'
      · rfl
      · omega
      · omega
      · have hmem : ∀ nv, nv.view < c.view → NewViewSent (c.sendNewView nv₁).trace nv →
            NewViewSent c.trace nv := by
          rintro nv hlt ⟨dest, hmem⟩
          rcases mem_or_added htrace hmem with hmem | hnew
          · exact ⟨dest, hmem⟩
          · obtain ⟨-, rfl⟩ : dest < c.config.N ∧ nv = nv₁ := by simpa using hnew
            omega
        exact hold.once nv nv' (hmem nv hlt hnv) (hmem nv' hlt' hnv') heq

/-! ### Beginning a view -/

/-- A primary's view has begun. A replica receives from itself only what it has sent. -/
theorem Step.leads_begun (h : Step P c c')
    (hself : ∀ m, .recv m c.id ∈ c.trace → .send m c.id ∈ c.trace) (hold : c.Leads P)
    (hactive : c'.activeView = true) (hprimary : c'.primaryID = c'.id) (hpos : 0 < c'.view) :
    ∃ nv, NewViewSent c'.trace nv ∧ nv.view = c'.view ∧ nv.Begun P c'.trace := by
  have htrace := h.frame.2.2
  have hkeep : c'.activeView = c.activeView → c'.config = c.config → c'.id = c.id →
      c'.view = c.view →
      ∃ nv, NewViewSent c'.trace nv ∧ nv.view = c'.view ∧ nv.Begun P c'.trace := by
    intro hactive' hcfg hid hview
    rw [Core.primaryID, hcfg, hid, hview] at hprimary
    obtain ⟨nv, hsent, hnv, hbegun⟩ := hold.begun (hactive' ▸ hactive) hprimary (hview ▸ hpos)
    exact ⟨nv, hsent.extend htrace, hnv.trans hview.symm, hbegun.extend htrace⟩
  cases h
  case accept b _ haccepts =>
    cases haccepts with
    | propose | preprepare => exact hkeep rfl rfl rfl rfl
    | newView nv _ _ _ _ hview hrecv _ _ hbatch =>
      have hp : c.primaryID = c.id := hprimary
      rw [hp] at hrecv
      refine ⟨nv, ⟨c.id, htrace.subset (hself _ hrecv)⟩, hview, fun b' hb' => ?_⟩
      obtain rfl : b = b' := by simpa [hbatch] using hb'
      exact ⟨⟨some ⟨c.view, seqOf P b⟩, some b⟩, b, by simp, by rw [hview], rfl, rfl⟩
  case newViewNull nv _ _ _ hview hrecv _ _ hbatch =>
    have hp : c.primaryID = c.id := hprimary
    rw [hp] at hrecv
    exact ⟨nv, ⟨c.id, htrace.subset (hself _ hrecv)⟩, hview, fun b hb => by simp [hbatch] at hb⟩
  case helloNewView h src b _ nv _ best hrecv _ _ hnv hsrc _ =>
    rcases le_or_gt c.view nv.view with hle | hlt
    · -- a primary joins its view only by its own hello
      have hview : (((c.hello P h src b).joinView nv).deliverXset P best).view = nv.view := by
        simp [hle]
      have hp : nv.view % c.config.N = c.id := by
        rw [Core.primaryID, hview] at hprimary
        exact hprimary
      rw [hview] at hpos ⊢
      obtain rfl : src = c.id := hsrc.symm.trans hp
      obtain ⟨hsent, hbegun⟩ := hold.greeted h _ nv (hself _ hrecv) hnv hpos
      exact ⟨nv, hsent.extend htrace, rfl, (hbegun.resolve_right (by omega)).extend htrace⟩
    · exact hkeep (by simp [hlt.not_ge]) rfl rfl (by simp [hlt.le])
  case jump => simp at hactive
  case sendViewChange => simp at hactive
  all_goals exact hkeep rfl rfl rfl rfl

theorem Step.leads_greeted (h : Step P c c') (hview : c.view ≤ c'.view) (hold : c.Leads P)
    {hello : Hello β} {dest : ℕ} (hmem : .send (.hello hello) dest ∈ c'.trace)
    (hnv : hello.newView = some nv) (hpos : 0 < nv.view) :
    NewViewSent c'.trace nv ∧ (nv.Begun P c'.trace ∨ nv.view < c'.view) := by
  have htrace := h.frame.2.2
  suffices hc : NewViewSent c.trace nv ∧ (nv.Begun P c.trace ∨ nv.view < c.view) from
    ⟨hc.1.extend htrace, hc.2.imp (fun hb => hb.extend htrace) fun hlt => hlt.trans_le hview⟩
  rcases mem_or_added htrace hmem with hmem | hnew
  · exact hold.greeted hello dest nv hmem hnv hpos
  · obtain ⟨rfl, -⟩ := h.hello_sent hnew
    split_ifs at hnv with hactive
    obtain ⟨hle, hsent⟩ := hold.last nv hnv
    refine ⟨hsent, hle.lt_or_eq.symm.imp_left fun heq => ?_⟩
    obtain ⟨nv', hsent', hview', hbegun⟩ := hold.begun hactive.2 hactive.1 (heq ▸ hpos)
    rw [hold.once nv nv' hsent hsent' (heq.trans hview'.symm)]
    exact hbegun

theorem Step.leads_proposed (h : Step P c c')
    (hself : ∀ m, .recv m c.id ∈ c.trace → .send m c.id ∈ c.trace) (hold : c.Leads P) {d : β}
    (haccepted : AcceptedAt P c'.trace sv d) (hprimary : sv.view % c'.config.N = c'.id)
    (hpos : 0 < sv.view) :
    ∃ nv, NewViewSent c'.trace nv ∧ nv.view = sv.view ∧ nv.Begun P c'.trace := by
  have htrace := h.frame.2.2
  rcases h.acceptedAt haccepted with hacc | ⟨c₀, pp, b, timeout, haccepts, rfl, -⟩
  · rw [h.frame.1, h.frame.2.1] at hprimary
    obtain ⟨nv, hsent, hnv, hbegun⟩ := hold.proposed sv d hacc hprimary hpos
    exact ⟨nv, hsent.extend htrace, hnv, hbegun.extend htrace⟩
  · -- the view is active, so that it has begun
    have hview : (c₀.accept P pp sv b timeout).view = sv.view := by
      rw [Core.accept_view, haccepts.view_eq, haccepts.seq_view]
    rw [← hview] at hprimary hpos ⊢
    refine h.leads_begun hself hold ?_ hprimary hpos
    cases haccepts with
    | propose _ _ hactive => exact hactive
    | preprepare _ _ _ _ hother => exact absurd hprimary hother
    | newView => rfl

theorem Step.leads (h : Step P c c') (hφ : Always (InRange P) c'.trace)
    (hself : ∀ m, .recv m c.id ∈ c.trace → .send m c.id ∈ c.trace) (hid : c.id < c.config.N)
    (hold : c.Leads P) : c'.Leads P := by
  have hview := InRange.view_le h hφ
  obtain ⟨hlast, hsent, honce⟩ := h.leads_sent hview hid hold
  exact {
    last := hlast
    sent := hsent
    once := honce
    begun := h.leads_begun hself hold
    greeted := fun hello dest nv => h.leads_greeted hview hold
    proposed := fun sv d => h.leads_proposed hself hold }

/-! ### Groups -/

namespace Group.Reachable

variable {cfg : Config} {B : Finset ℕ} {R : ℕ → Prop} {g : ℕ → Core β}

section

variable (h : Reachable P cfg B R g) (hR : ∀ i, ¬ R i)
include h hR

theorem leads (hφ : ∀ i < cfg.N, i ∉ B → Always (InRange P) (g i).trace) :
    ∀ i < cfg.N, i ∉ B → (g i).Leads P := by
  refine h.invariant (I := fun _ c => c.Leads P) hR hφ (fun _ _ _ _ h => h) ?_ ?_ ?_
  · intro g i c hc
    obtain ⟨active, rfl⟩ := hc.of_nil
    constructor <;> simp [NewViewSent, AcceptedAt]
  · intro g c m src hc
    have hsame : ∀ nv, NewViewSent (.recv m src :: c.trace) nv → NewViewSent c.trace nv := by
      simp [NewViewSent]
    have hsuffix : c.trace <:+ .recv m src :: c.trace := List.suffix_cons _ _
    exact {
      last := fun nv hnv => ⟨(hc.last nv hnv).1, (hc.last nv hnv).2.extend hsuffix⟩
      sent := fun nv hnv => hc.sent nv (hsame nv hnv)
      once := fun nv nv' hnv hnv' => hc.once nv nv' (hsame nv hnv) (hsame nv' hnv')
      begun := fun hactive hprimary hpos => by
        obtain ⟨nv, hsent, hnv, hbegun⟩ := hc.begun hactive hprimary hpos
        exact ⟨nv, hsent.extend hsuffix, hnv, hbegun.extend hsuffix⟩
      greeted := fun hello dest nv hmem hnv hpos => by
        obtain ⟨hsent, hbegun⟩ := hc.greeted hello dest nv (by simpa using hmem) hnv hpos
        exact ⟨hsent.extend hsuffix, hbegun.imp_left fun hb => hb.extend hsuffix⟩
      proposed := fun sv d hacc hprimary hpos => by
        obtain ⟨nv, hsent, hnv, hbegun⟩ :=
          hc.proposed sv d (by simpa [AcceptedAt] using hacc) hprimary hpos
        exact ⟨nv, hsent.extend hsuffix, hnv, hbegun.extend hsuffix⟩ }
  · intro g i c' hg _ hI hi hiB hstep hφ'
    obtain ⟨hcfg, hid⟩ := hg.frame i hi
    refine hstep.leads hφ' (fun m hrecv => ?_) (by rwa [hcfg, hid]) (hI i hi hiB)
    rw [hid] at hrecv ⊢
    exact ((hg.recv i hi hiB m i hrecv).2.1.resolve_left hiB).2

theorem view_pos (hB : B.card ≤ cfg.F)
    (hφ : ∀ i < cfg.N, i ∉ B → Always (InRange P) (g i).trace) {i src : ℕ} {b : Batch β}
    (hi : i < cfg.N) (hiB : i ∉ B) (hrecv : .recv (.newView nv) src ∈ (g i).trace)
    (hok : nv.Acceptable P cfg) (hb : nv.batch = some b) : 0 < nv.view := by
  obtain ⟨x, -, hx, -⟩ := hok.exists_checkBatch hb
  obtain ⟨best, hjust⟩ := hok.1
  rw [hx] at hjust
  obtain ⟨sv, -, -, S, hcard, hS⟩ := hjust.some_spec
  obtain ⟨r, hr, hrB⟩ := exists_not_mem_of_card_lt (lt_of_le_of_lt hB hcard)
  obtain ⟨vc, hcarries, -⟩ := hS r hr
  obtain ⟨hrN, hsigned⟩ := h.carried hR hi hiB hrecv rfl hcarries hrB
  obtain ⟨svc, cp, hd, -, -, -, hview, -⟩ := hcarries
  obtain ⟨c₁, c₂, -, hstep, hnew, hruns⟩ :=
    (h.alone r hrN).exists_step (hR r) hsigned (by simp) (by simp)
  obtain ⟨w, -, rfl, rfl⟩ := hstep.viewChange_signed hnew
  have hcall : InRange P (.call .sendViewChange ⟨w, c₁.activeView, c₁.cur⟩) c₁.trace :=
    ((hφ r hrN hrB).suffix hruns.suffix).at (by simp)
  have hw := hcall.2 _ rfl
  rw [← hview, Core.viewChange, uint64_of_lt hw]
  exact Nat.succ_pos w

/-- The primary has accepted the digest too, or it has sent a new view for it. -/
theorem proposal_source {i : ℕ} {d : β}
    (hi : i < cfg.N) (hiB : i ∉ B) (hφ : Always (InRange P) (g i).trace) (hp : sv.view % cfg.N ∉ B)
    (haccepted : AcceptedAt P (g i).trace sv d) :
    AcceptedAt P (g (sv.view % cfg.N)).trace sv d ∨
      ∃ nv, .recv (.newView nv) (sv.view % cfg.N) ∈ (g i).trace ∧ nv.ProposesAt P cfg sv d := by
  obtain ⟨pp, b, hmem, hseq, hbatch, hhash⟩ := id haccepted
  obtain ⟨c₁, c₂, hc₁, hstep, hnew, hruns⟩ :=
    (h.alone i hi).exists_step (hR i) hmem (by simp) (by simp)
  obtain ⟨c₀, sv', b', timeout, haccepts, rfl⟩ := hstep.persisted hnew
  obtain ⟨hcfg, hid⟩ := hc₁.frame
  obtain rfl : sv' = sv := by simpa [haccepts.seq_eq] using hseq
  obtain rfl : b' = b := by simpa [haccepts.batch_eq] using hbatch
  have hprimary : sv'.view % cfg.N = c₁.primaryID := by
    rw [haccepts.seq_view, ← hcfg, Core.primaryID]
  have hsuffix := hstep.frame.2.2.trans hruns.suffix
  cases haccepts with
  | propose _ hself =>
    rw [hprimary, hself, hid]
    exact .inl haccepted
  | preprepare _ _ _ hrecv =>
    rw [← hprimary] at hrecv
    obtain ⟨hlt, hsend, -⟩ := h.recv i hi hiB _ _ (hsuffix.subset hrecv)
    refine .inl ⟨pp, b', ?_, hseq, hbatch, hhash⟩
    -- the primary accepts what it sends
    obtain ⟨c₃, c₄, hc₃, hstep₃, hnew₃, hruns₃⟩ :=
      (h.alone _ hlt).exists_step (hR _) (hsend.resolve_left hp).2 (by simp) (by simp)
    apply hruns₃.suffix.subset
    cases hstep₃.preprepare_sent hnew₃ with
    | accept _ _ _ _ _ hc' =>
      rw [hc']
      simp
    | resend _ hcur => exact hstep₃.frame.2.2.subset (hc₃.sound.cur.preprep pp hcur).1
  | newView nv _ _ _ _ hview hrecv hok hjust hb =>
    rw [← hprimary] at hrecv
    refine .inr ⟨nv, hsuffix.subset hrecv, ?_⟩
    rw [← hcfg, ← hhash]
    exact .of_accept hok hview hjust hb rfl (hφ.suffix hruns.suffix)

theorem primary_accepted_once (hB : B.card ≤ cfg.F)
    {p : ℕ} (hφ : Always (InRange P) (g p).trace) (hp : p < cfg.N) (hpB : p ∉ B) {d d' : β}
    (hview : sv.view % cfg.N = p) (hd : AcceptedAt P (g p).trace sv d)
    (hd' : AcceptedAt P (g p).trace sv d') : d = d' := by
  refine ((h.alone p hp).accepted_once (hR p) hφ
    (h.timely hR hB hp hpB) ?_).2 d d' hd hd'
  intro c₁ c₀ pp b timeout hc₁ haccepts _
  have hself : c₁.primaryID = c₁.id := by
    rw [Core.primaryID, hc₁.frame.1, hc₁.frame.2, ← haccepts.seq_view, hview]
  cases haccepts with
  | propose _ _ hactive => exact hactive
  | preprepare _ _ _ _ hother => exact absurd hself hother
  | newView => rfl

theorem proposal_unique (hB : B.card ≤ cfg.F)
    (hφ : ∀ i < cfg.N, i ∉ B → Always (InRange P) (g i).trace) {i j : ℕ} {d d' : β} (hi : i < cfg.N)
    (hiB : i ∉ B) (hj : j < cfg.N) (hjB : j ∉ B) (hpB : sv.view % cfg.N ∉ B)
    (hd : AcceptedAt P (g i).trace sv d) (hd' : AcceptedAt P (g j).trace sv d') : d = d' := by
  have hp : sv.view % cfg.N < cfg.N := Nat.mod_lt _ (Nat.zero_lt_of_lt hi)
  have hleads := h.leads hR hφ _ hp hpB
  have honce : ∀ d d', AcceptedAt P (g (sv.view % cfg.N)).trace sv d →
      AcceptedAt P (g (sv.view % cfg.N)).trace sv d' → d = d' := fun d d' =>
    h.primary_accepted_once hR hB (hφ _ hp hpB) hp hpB rfl
  -- what the primary announces for a view in which it accepts something, it accepts as well
  have hsent : ∀ i d nv, i < cfg.N → i ∉ B → .recv (.newView nv) (sv.view % cfg.N) ∈ (g i).trace →
      nv.ProposesAt P cfg sv d → NewViewSent (g (sv.view % cfg.N)).trace nv ∧ 0 < nv.view := by
    intro i d nv hi hiB hrecv hnv
    obtain ⟨b, hb, -⟩ := hnv.batch
    exact ⟨⟨i, ((h.recv i hi hiB _ _ hrecv).2.1.resolve_left hpB).2⟩,
      h.view_pos hR hB hφ hi hiB hrecv hnv.acceptable hb⟩
  have hbegun : ∀ d d' nv, AcceptedAt P (g (sv.view % cfg.N)).trace sv d →
      NewViewSent (g (sv.view % cfg.N)).trace nv ∧ 0 < nv.view → nv.ProposesAt P cfg sv d' →
      AcceptedAt P (g (sv.view % cfg.N)).trace sv d' := by
    rintro d _ nv hacc ⟨hnvsent, hpos⟩ ⟨-, hview, ⟨b, hb, hseq, rfl⟩, -⟩
    obtain ⟨hcfg, hid⟩ := h.frame _ hp
    obtain ⟨nv₀, hsent₀, hview₀, hbegun⟩ :=
      hleads.proposed sv d hacc (by rw [hcfg, hid]) (hview ▸ hpos)
    obtain rfl := hleads.once nv nv₀ hnvsent hsent₀ (hview.trans hview₀.symm)
    have hsv : (⟨nv.view, seqOf P b⟩) = sv := by rw [hview, hseq]
    exact hsv ▸ hbegun b hb
  rcases h.proposal_source hR hi hiB (hφ i hi hiB) hpB hd with hacc | ⟨nv, hrecv, hnv⟩
  · rcases h.proposal_source hR hj hjB (hφ j hj hjB) hpB hd' with hacc' | ⟨nv', hrecv', hnv'⟩
    · exact honce d d' hacc hacc'
    · exact honce d d' hacc (hbegun d d' nv' hacc (hsent j d' nv' hj hjB hrecv' hnv') hnv')
  · have hsent₁ := hsent i d nv hi hiB hrecv hnv
    rcases h.proposal_source hR hj hjB (hφ j hj hjB) hpB hd' with hacc' | ⟨nv', hrecv', hnv'⟩
    · exact honce d d' (hbegun d' d nv hacc' hsent₁ hnv) hacc'
    · have hsent₂ := hsent j d' nv' hj hjB hrecv' hnv'
      obtain rfl := hleads.once nv nv' hsent₁.1 hsent₂.1 (hnv.view.trans hnv'.view.symm)
      obtain ⟨b, hb, -, rfl⟩ := hnv.batch
      obtain ⟨b', hb', -, rfl⟩ := hnv'.batch
      obtain rfl : b = b' := by simpa [hb] using hb'
      rfl

end

end Group.Reachable

end Fabric.Sbft
