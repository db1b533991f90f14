import Fabric.Sbft.Succession

/-!
# What view changes say about commits

A replica that has sent a commit answers for it in the view changes it signs from then on:
the sequence number is on its chain, or it reports a request that it accepted there, in the
same view or a later one. This holds as long as it sends commits only in the view of their
request, and leaves a view only with its last commit on the chain or in flight.

## Main results

- `Step.viewChange_answers`: a view change that is signed answers for the commits before it
- `Group.Reachable.remembers`: every replica of a group keeps `Core.Remembers`
-/

namespace Fabric.Sbft

open Fabric.Common

variable {β : Type} {P : Primitives β}

/-- Prepares are counted only in the view in flight until the commit is sent; a view is left only
while every commit ahead of the chain is that of the request in flight, or of an earlier view at the
same sequence number; checkpoints are counted only ahead of the chain; and nothing overflows. -/
def KeepsCommits (P : Primitives β) (e : Event β) (t : List (Event β)) : Prop :=
  (∀ a ∈ e.prepare?, a.1 = a.2.cur.subject → a.2.cur.sentCommit = false →
    a.2.cur.seq.view = a.2.view) ∧
  (∀ st ∈ e.leavesView?, ∀ sub ∈ committed t, ∀ sv ∈ sub.seq, lastSeq P t < sv.seq →
    st.cur.sentCommit = true ∧ st.cur.seq.seq = sv.seq ∧ sv.view ≤ st.cur.seq.view) ∧
  InRange P e t ∧ CountsAhead P e t

instance [DecidableEq β] (e : Event β) (t : List (Event β)) : Decidable (KeepsCommits P e t) :=
  inferInstanceAs (Decidable ((∀ a ∈ e.prepare?, _ → _ → _) ∧
    (∀ st ∈ e.leavesView?, ∀ sub ∈ committed t, ∀ sv ∈ sub.seq, _ → _ ∧ _ ∧ _) ∧ _))

/-- A view change accounts for a commit at `sv`: its checkpoint has reached the sequence number, or
is right before it and a request accepted there is reported as prepared, in that view or later. -/
def ViewChange.Answers (P : Primitives β) (t : List (Event β)) (vc : ViewChange β)
    (sv : SeqView) : Prop :=
  ∃ cp, vc.checkpoint = some cp ∧ (sv.seq ≤ seqOf P cp ∨ sv.seq ≤ seqOf P cp + 1 ∧
    ∃ v d, ⟨some ⟨v, sv.seq⟩, some d⟩ ∈ vc.pset ∧ sv.view ≤ v ∧ v < vc.view ∧
      AcceptedAt P t ⟨v, sv.seq⟩ d)

variable {vc : ViewChange β} {sv : SeqView}

theorem ViewChange.Answers.extend {t t' : List (Event β)} (h : vc.Answers P t sv) (ht : t <:+ t') :
    vc.Answers P t' sv := by
  obtain ⟨cp, hcp, hreached | ⟨hnext, v, d, hmem, hle, hlt, hacc⟩⟩ := h
  · exact ⟨cp, hcp, .inl hreached⟩
  · exact ⟨cp, hcp, .inr ⟨hnext, v, d, hmem, hle, hlt, hacc.extend ht⟩⟩

/-- What a replica has signed and sent; its view changes account for earlier commits. -/
structure Core.Remembers (P : Primitives β) (c : Core β) : Prop where
  signed : ∀ vc, .signViewChange vc ∈ c.trace → vc.view ≤ c.view
  inFlight : c.cur.sentCommit = true → c.cur.seq.seq ≠ 0 → c.cur.subject ∈ committed c.trace
  answers : ∀ vc, .signViewChange vc ∈ c.trace → ∀ sub ∈ committed c.trace, ∀ sv,
    sub.seq = some sv → sv.seq ≠ 0 → sv.view < vc.view → vc.Answers P c.trace sv

variable {c c' : Core β}

theorem Core.exists_checkpoint (c : Core β) (w : ℕ) :
    ∃ cp, (c.viewChange P w).checkpoint = some cp ∧ cp.header = (lastBatch P c.trace).header ∧
      seqOf P cp = c.last P :=
  ⟨_, rfl, rfl, seqOf_eq_of_header_eq P rfl⟩

/-- A view change signed now answers for a commit that is on the chain or in flight. -/
theorem Core.viewChange_answers (hc : c.Sound P) (hnear : c.Nearby P)
    (hview : c.cur.seq.view ≤ c.view) {w : ℕ} (hw : c.view ≤ w) (hrange : w + 1 < 2 ^ 64)
    (hne : sv.seq ≠ 0) (hheld : c.last P < sv.seq → c.cur.sentCommit = true ∧ c.cur.seq.seq = sv.seq
    ∧ sv.view ≤ c.cur.seq.view) :
    (c.viewChange P w).Answers P c.trace sv := by
  obtain ⟨cp, hcp, -, hlast⟩ := c.exists_checkpoint w
  refine ⟨cp, hcp, ?_⟩
  rw [hlast]
  rcases lt_or_ge (c.last P) sv.seq with hlt | hge
  · obtain ⟨hsent, hseq, hle⟩ := hheld hlt
    obtain ⟨d, hd, hacc⟩ := hc.acceptedAt (.inl (hseq ▸ hne))
    have hcur : (⟨c.cur.seq.view, sv.seq⟩) = c.cur.seq := by rw [← hseq]
    refine .inr ⟨hseq ▸ hnear.seq_le hc, c.cur.seq.view, d, ?_, hle, ?_, hcur ▸ hacc⟩
    · rw [hcur, ← hd]
      simp [Core.viewChange, viewChangeFor, hsent, ReqInfo.subject]
    · simp only [Core.viewChange, viewChangeFor, uint64_of_lt hrange]
      omega
  · exact .inl hge

variable [DecidableEq β] {sub : Subject β}

/-! ### Steps -/

theorem Step.viewChange_answers (h : Step P c c') (hc : c.Sound P) (hnear : c.Nearby P)
    (hview : c.cur.seq.view ≤ c.view) (hφ : Always (KeepsCommits P) c'.trace)
    (hnew : Added c.trace c'.trace (.signViewChange vc))
    (hsub : sub ∈ committed c.trace) (hseq : sub.seq = some sv) (hne : sv.seq ≠ 0) :
    vc.Answers P c.trace sv := by
  obtain ⟨w, hw, rfl, rfl⟩ := h.viewChange_signed hnew
  have hcall : KeepsCommits P (.call .sendViewChange ⟨w, c.activeView, c.cur⟩) c.trace :=
    hφ.at (by simp)
  exact c.viewChange_answers hc hnear hview hw (hcall.2.2.1.2 _ rfl) hne
    (hcall.2.1 _ rfl sub hsub sv hseq)

/-- A commit that was not sent before is for the view of the replica. -/
theorem Step.commit_view (h : Step P c c') (hφ : Always (KeepsCommits P) c'.trace)
    (hold : c.Remembers P) {dest : ℕ}
    (hnew : Added c.trace c'.trace (.send (.commit sub) dest)) :
    sub ∈ committed c.trace ∨ ∃ sv, sub.seq = some sv ∧ sv.view = c.view := by
  obtain ⟨rfl, -, -, -, -, -, hcommits⟩ := h.commit_sent hnew
  cases hcommits with
  | quorum _ _ hcall _ _ _ hsent =>
    exact .inr ⟨c.cur.seq, rfl, (hφ.at hcall).1 _ rfl rfl hsent⟩
  | small _ _ hview => exact .inr ⟨c.cur.seq, rfl, hview⟩
  | resend _ _ hahead hsent =>
    exact .inl (hold.inFlight hsent (Nat.ne_of_gt (Nat.zero_lt_of_lt hahead.1)))

theorem Step.remembers_inFlight (h : Step P c c') (hid : c.id < c.config.N) (hold : c.Remembers P)
    (hsent : c'.cur.sentCommit = true) (hne : c'.cur.seq.seq ≠ 0) :
    c'.cur.subject ∈ committed c'.trace := by
  have htrace := h.frame.2.2
  have hkeep : c'.cur.sentCommit = c.cur.sentCommit → c'.cur.seq = c.cur.seq →
      c'.cur.digest = c.cur.digest → c'.cur.subject ∈ committed c'.trace := by
    intro hsent' hseq hdigest
    rw [ReqInfo.subject, hseq, hdigest]
    obtain ⟨dest, hmem⟩ := mem_committed.mp (hold.inFlight (hsent' ▸ hsent) (hseq ▸ hne))
    exact mem_committed.mpr ⟨dest, htrace.subset hmem⟩
  cases h
  case accept => simp at hsent
  case newViewNull => simp at hne
  case acceptCommit => exact mem_committed.mpr ⟨c.id, by simp [hid, ReqInfo.subject]⟩
  case prepareCommit => exact mem_committed.mpr ⟨c.id, by simp [hid, ReqInfo.subject]⟩
  all_goals exact hkeep rfl rfl rfl

theorem Step.remembers (h : Step P c c') (hc : c.Sound P) (hnear : c.Nearby P)
    (hview : c.cur.seq.view ≤ c.view) (hid : c.id < c.config.N)
    (hφ : Always (KeepsCommits P) c'.trace) (hold : c.Remembers P) : c'.Remembers P := by
  have htrace := h.frame.2.2
  have hgrow := InRange.view_le h (hφ.mono fun _ _ _ h => h.2.2.1)
  refine ⟨fun vc hvc => ?_, h.remembers_inFlight hid hold,
    fun vc hvc sub hsub sv hseq hne hlt => ?_⟩
  · rcases mem_or_added htrace hvc with hvc | hnew
    · exact (hold.signed vc hvc).trans hgrow
    · obtain ⟨w, -, rfl, rfl⟩ := h.viewChange_signed hnew
      exact le_refl _
  · obtain ⟨dest, hdest⟩ := mem_committed.mp hsub
    rcases mem_or_added htrace hvc with hvc | hnew
    · -- a commit that is new is for a view no view change was signed to leave
      have hsub' : sub ∈ committed c.trace := by
        rcases mem_or_added htrace hdest with hmem | hnew
        · exact mem_committed.mpr ⟨dest, hmem⟩
        · rcases h.commit_view hφ hold hnew with hmem | ⟨sv', hseq', hcur⟩
          · exact hmem
          · obtain rfl : sv' = sv := by simpa [hseq'] using hseq
            have := hold.signed vc hvc
            omega
      exact (hold.answers vc hvc sub hsub' sv hseq hne hlt).extend htrace
    · have hsub' : sub ∈ committed c.trace := by
        refine mem_committed.mpr ⟨dest, ?_⟩
        obtain ⟨w, -, -, rfl⟩ := h.viewChange_signed hnew
        simpa using hdest
      exact (h.viewChange_answers hc hnear hview hφ hnew hsub' hseq hne).extend htrace

/-! ### Groups -/

/-- Correct replicas that are not restarted answer for all their commits. -/
theorem Group.Reachable.remembers {cfg : Config} {B : Finset ℕ} {R : ℕ → Prop} {g : ℕ → Core β}
    (h : Group.Reachable P cfg B R g) (hR : ∀ i, ¬ R i) (hB : B.card ≤ cfg.F)
    (hφ : ∀ i < cfg.N, i ∉ B → Always (KeepsCommits P) (g i).trace) :
    ∀ i < cfg.N, i ∉ B → (g i).Remembers P := by
  refine h.invariant (I := fun _ c => c.Remembers P) hR hφ (fun _ _ _ _ h => h) ?_ ?_ ?_
  · intro g i c hc
    obtain ⟨active, rfl⟩ := hc.of_nil
    constructor <;> simp [SBFT.blank]
  · intro g c m src hc
    have hsame : ∀ sub, sub ∈ committed (.recv m src :: c.trace) ↔ sub ∈ committed c.trace := by
      simp [mem_committed]
    refine ⟨by simpa using hc.signed, fun hsent hne => ?_,
      fun vc hvc sub hsub sv hseq hne hlt => ?_⟩
    · exact (hsame _).mpr (hc.inFlight hsent hne)
    · exact (hc.answers vc (by simpa using hvc) sub ((hsame sub).mp hsub) sv hseq hne hlt).extend
        (List.suffix_cons _ _)
  · intro g i c' hg hφg hI hi hiB hstep hφ'
    obtain ⟨hcfg, hid⟩ := hg.frame i hi
    have halone := hg.alone i hi
    have hview := halone.cur_view_le (hR i) ((hφg i hi hiB).mono fun _ _ _ h => h.2.2.1)
    exact hstep.remembers halone.sound (hg.nearby hR hB i hi hiB).1 hview (by rwa [hcfg, hid]) hφ'
      (hI i hi hiB)

section Alone

variable {cfg : Config} {id : ℕ} {r : Prop}

/-- What a view change reports as prepared was accepted, in an earlier view. -/
theorem Alone.qset_accepted (h : Alone P cfg id r c) (hr : ¬ r) (hφ : Always (InRange P) c.trace)
    (hvc : .signViewChange vc ∈ c.trace) {s : Subject β} (hs : s ∈ vc.qset) (hseq : s.seq = some sv)
    (hne : sv.seq ≠ 0) :
    ∃ d, s.digest = some d ∧ AcceptedAt P c.trace sv d ∧ sv.view < vc.view := by
  obtain ⟨c₁, c₂, hc₁, hstep, hnew, hruns⟩ := h.exists_step hr hvc (by simp) (by simp)
  have hsuffix := hstep.frame.2.2.trans hruns.suffix
  have hview := hc₁.cur_view_le hr (hφ.suffix hsuffix)
  obtain ⟨w, hw, rfl, rfl⟩ := hstep.viewChange_signed hnew
  have hcall : InRange P (.call .sendViewChange ⟨w, c₁.activeView, c₁.cur⟩) c₁.trace :=
    (hφ.suffix hruns.suffix).at (by simp)
  obtain rfl : s = c₁.cur.subject := by
    simp only [Core.viewChange, viewChangeFor] at hs
    split_ifs at hs
    · exact List.mem_singleton.mp hs
    · cases hs
  obtain rfl : c₁.cur.seq = sv := by simpa using hseq
  obtain ⟨d, hd, hacc⟩ := hc₁.sound.acceptedAt (.inl hne)
  refine ⟨d, hd, hacc.extend hsuffix, ?_⟩
  simp only [Core.viewChange, viewChangeFor, uint64_of_lt (hcall.2 _ rfl)]
  omega

theorem Alone.seqOf_accepted (h : Alone P cfg id r c) {d : β} (hacc : AcceptedAt P c.trace sv d)
    {b : Batch β} (hb : b.hash P = d) :
    seqOf P b = sv.seq := by
  obtain ⟨pp, b', hmem, hseq, hbatch, rfl⟩ := hacc
  obtain ⟨sv', b₀, hd, hsv', hb₀, hdec, hhd, -⟩ := h.sound.checked pp hmem
  obtain rfl : sv' = sv := by simpa [hsv'] using hseq
  obtain rfl : b₀ = b' := by simpa [hb₀] using hbatch
  rw [seqOf_eq_of_header_eq P (header_eq_of_hash_eq P hb), ← hhd]
  simp [seqOf, hdec]

theorem Alone.accepted_lt (h : Alone P cfg id r c) (hr : ¬ r) (hφ : Always (InRange P) c.trace)
    (hnv : TimelyViews P cfg c.trace) {d : β} (hacc : AcceptedAt P c.trace sv d) :
    sv.seq < 2 ^ 64 := by
  have ⟨pp, b, hmem, _, hbatch, hhash⟩ := hacc
  obtain ⟨c₁, c₂, hc₁, hstep, hnew, hruns⟩ := h.exists_step hr hmem (by simp) (by simp)
  have hsuffix := hstep.frame.2.2.trans hruns.suffix
  obtain ⟨c₀, sv', b', timeout, haccepts, rfl⟩ := hstep.persisted hnew
  obtain rfl : b' = b := by simpa [haccepts.batch_eq] using hbatch
  have hle := haccepts.seqOf_le (hc₁.frame.1 ▸ hnv.suffix hsuffix)
  have hlt := InRange.last_lt (hφ.suffix hruns.suffix)
  rw [h.seqOf_accepted hacc hhash] at hle
  omega

end Alone

end Fabric.Sbft
