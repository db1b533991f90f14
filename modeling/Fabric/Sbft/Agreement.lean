import Fabric.Sbft.Checkpoints
import Fabric.Sbft.Commitment
import Fabric.Sbft.Delivery
import Fabric.Sbft.SingleView

/-!
# Agreement across views

Replicas deliver what was executed, and what was executed has commits from a quorum. Such
a digest is locked: in every later view the replicas accept no other one at its sequence
number. A quorum of view changes stands behind a new view, and a replica in both quorums
answers for its commit, so that the selection rule cannot pass over it.

A replica answers only for its request in flight, however. Once a new view has dropped or
proposed again what it has sent a commit for, another digest can be delivered.
-/

namespace Fabric.Sbft

open Fabric.Common Finset

variable {β : Type} {P : Primitives β}

/-- A quorum of replicas has sent commits for `d` at the position `sv`. -/
def Locked (cfg : Config) (g : ℕ → Core β) (sv : SeqView) (d : β) : Prop :=
  ∃ S ⊆ Finset.range cfg.N, cfg.noFaultyQuorum ≤ S.card ∧
    ∀ r ∈ S, ⟨some sv, some d⟩ ∈ committed (g r).trace

/-- A replica has executed the digest `d`. -/
def Settled (cfg : Config) (g : ℕ → Core β) (d : β) : Prop :=
  ∃ r < cfg.N, ∃ sub ∈ executed (g r).trace, sub.digest = some d

theorem Settled.extend {cfg : Config} {g g' : ℕ → Core β} {d : β} (h : Settled cfg g d)
    (hg : ∀ j, (g j).trace <:+ (g' j).trace) : Settled cfg g' d := by
  obtain ⟨r, hr, sub, hsub, hd⟩ := h
  exact ⟨r, hr, sub, mem_executed.mpr ((hg r).subset (mem_executed.mp hsub)), hd⟩

theorem lastBatch_mem_delivered {t t' : List (Event β)} (h : lastSeq P t ≠ 0) (ht : t <:+ t') :
    lastBatch P t ∈ delivered t' := by
  induction t with
  | nil => exact absurd (seqOf_makeBatch P 0 none []) h
  | cons e t ih =>
    by_cases hdeliver : ∃ b, e = .deliver b
    · obtain ⟨b, rfl⟩ := hdeliver
      exact mem_delivered.mpr (ht.subset List.mem_cons_self)
    · have hne : ∀ b, e ≠ .deliver b := fun b heq => hdeliver ⟨b, heq⟩
      rw [lastSeq_cons_of_ne P t hne] at h
      rw [lastBatch_cons_of_ne P t hne]
      exact ih h ((List.suffix_cons e t).trans ht)

variable [DecidableEq β] {cfg : Config} {R : ℕ → Prop} {g : ℕ → Core β}

/-! ### What a new view selects -/

variable {sub : Subject β} {b : Batch β} {i : ℕ} {sv : SeqView} {best : Batch β}

namespace Group.Reachable

section Selection

variable {j src v n : ℕ} {d : β} {nv : NewView β}

section

variable (h : Reachable P cfg ∅ R g) (hR : ∀ i, ¬ R i)
include h hR

/-- The batch that a new view selects comes after its checkpoints, was accepted in the tuple's view
or a later one, and a quorum has prepared nothing that conflicts with it. -/
theorem selected (hφ : ∀ i < cfg.N, Always (InRange P) (g i).trace) (hj : j < cfg.N)
    (hrecv : .recv (.newView nv) src ∈ (g j).trace)
    (hjust : nv.Justified P cfg (some sub) best) (hb : b.hash P = P.bytes sub.digest)
    (hrange : seqOf P best + 1 < 2 ^ 64) :
    seqOf P best < seqOf P b ∧ ∃ u, (∃ S : Finset ℕ, cfg.noFaultyQuorum ≤ S.card ∧ ∀ r ∈ S,
      ∃ vc, nv.Carries P cfg r vc ∧ conditionA1 P ⟨u, seqOf P b⟩ (some (b.hash P)) vc = .ok true) ∧
      ∃ r < cfg.N, ∃ u', u ≤ u' ∧ u' < nv.view ∧
        AcceptedAt P (g r).trace ⟨u', seqOf P b⟩ (b.hash P) := by
  obtain ⟨⟨u, m⟩, hahead, hA1, S, hcard, hS⟩ := hjust.some_spec
  rw [uint64_of_lt hrange] at hahead
  -- some replica reports to have preprepared the request
  obtain ⟨r, hr⟩ : S.Nonempty := card_pos.mp (by
    unfold Config.oneCorrectQuorum at hcard
    omega)
  obtain ⟨vc, hcarries, hA2⟩ := hS r hr
  obtain ⟨s, hs, ⟨u', m'⟩, hseq, hm, hu, hdigest⟩ := conditionA2_eq_true hA2
  obtain ⟨hrN, hsigned⟩ :=
    h.carried hR hj (notMem_empty j) hrecv rfl hcarries (notMem_empty r)
  simp only at hahead hm hu
  obtain ⟨d', hd', hacc, hlt⟩ :=
    (h.alone r hrN).qset_accepted (hR r) (hφ r hrN) hsigned hs hseq (by simp only; omega)
  obtain ⟨-, -, -, -, -, -, hview, -⟩ := hcarries
  rw [← hdigest, hd'] at hb
  rw [← hdigest, hd'] at hA1
  have hseqOf := (h.alone r hrN).seqOf_accepted hacc hb
  rw [hb, hseqOf, hm]
  refine ⟨hahead, u, hA1, r, hrN, u', hu, hview ▸ hlt, ?_⟩
  rw [← hm]
  exact hacc

theorem checkpoint_lt_batch (hφ : ∀ i < cfg.N, Always (InRange P) (g i).trace) (hj : j < cfg.N)
    (hrecv : .recv (.newView nv) src ∈ (g j).trace) (hok : nv.Acceptable P cfg)
    (hrange : ∀ cp ∈ nv.checkpoints P, seqOf P cp + 1 < 2 ^ 64) {cp : Batch β}
    (hb : nv.batch = some b) (hcp : cp ∈ nv.checkpoints P) : seqOf P cp < seqOf P b := by
  obtain ⟨x, -, hx, hhash, -⟩ := hok.exists_checkBatch hb
  obtain ⟨best, hjust⟩ := hok.1
  rw [hx] at hjust
  have hlt := (h.selected hR hφ hj hrecv hjust hhash (hrange best hjust.best_mem)).1
  exact (hjust.seqOf_le hcp).trans_lt hlt

section

variable (hN : 3 * cfg.F + 1 ≤ cfg.N) (hφ : ∀ i < cfg.N, Always (KeepsCommits P) (g i).trace)
include hN hφ

/-- One of a quorum of view changes is by a replica that has committed to what is locked. -/
theorem exists_answer (hj : j < cfg.N)
    (hrecv : .recv (.newView nv) src ∈ (g j).trace) (hlocked : Locked cfg g ⟨v, n⟩ d)
    (hne : n ≠ 0) (hview : v < nv.view) {p : ViewChange β → Prop} {S : Finset ℕ}
    (hcard : cfg.noFaultyQuorum ≤ S.card)
    (hS : ∀ r ∈ S, ∃ vc, nv.Carries P cfg r vc ∧ p vc) :
    (∃ cp ∈ nv.checkpoints P, n ≤ seqOf P cp) ∨
      (∃ cp ∈ nv.checkpoints P, n ≤ seqOf P cp + 1) ∧ ∃ vc, p vc ∧ ∃ u d',
        ⟨some ⟨u, n⟩, some d'⟩ ∈ vc.pset ∧ v ≤ u ∧ u < nv.view ∧
        ∃ r < cfg.N, AcceptedAt P (g r).trace ⟨u, n⟩ d' := by
  obtain ⟨C, hC, hCcard, hcommitted⟩ := hlocked
  have hcarried : ∀ r vc, nv.Carries P cfg r vc →
      r < cfg.N ∧ .signViewChange vc ∈ (g r).trace := fun r vc hcarries =>
    h.carried hR hj (notMem_empty j) hrecv rfl hcarries (notMem_empty r)
  have hSsub : S ⊆ range cfg.N := fun r hr => by
    obtain ⟨vc, hcarries, -⟩ := hS r hr
    exact mem_range.mpr (hcarried r vc hcarries).1
  have hquorums : (range cfg.N).card + (∅ : Finset ℕ).card < S.card + C.card := by
    rw [card_range, card_empty]
    unfold Config.noFaultyQuorum at hcard hCcard
    omega
  obtain ⟨r, hrS, hrC, -⟩ := exists_correct_common hSsub hC hquorums
  obtain ⟨vc, hcarries, hp⟩ := hS r hrS
  obtain ⟨hr, hsigned⟩ := hcarried r vc hcarries
  obtain ⟨svc, -, -, hvset, -, hdec, hvcview, -⟩ := hcarries
  have hremembers := h.remembers hR (Nat.zero_le _) (fun i hi _ => hφ i hi) r hr
    (notMem_empty r)
  obtain ⟨cp, hcp, hanswer⟩ := hremembers.answers vc hsigned _ (hcommitted r hrC) ⟨v, n⟩ rfl hne
    (hvcview ▸ hview)
  have hmem := (NewView.mem_checkpoints hvset hdec hcp).1
  rcases hanswer with hreached | ⟨hnext, u, d', hpset, hle, hlt, hacc⟩
  · exact .inl ⟨cp, hmem, hreached⟩
  · exact .inr ⟨⟨cp, hmem, hnext⟩, vc, hp, u, d', hpset, hle, hvcview ▸ hlt, r, hr, hacc⟩

/-- A new view takes up what is locked, if the views in between have: its checkpoints have reached
it, or its batch is that very digest or a later one. -/
theorem selects_locked (hj : j < cfg.N)
    (hrecv : .recv (.newView nv) src ∈ (g j).trace) (hok : nv.Acceptable P cfg)
    (hlocked : Locked cfg g ⟨v, n⟩ d) (hne : n ≠ 0) (hlt : n < 2 ^ 64) (hview : v < nv.view)
    (hkept : ∀ u, v ≤ u → u < nv.view → ∀ i < cfg.N, ∀ d', AcceptedAt P (g i).trace ⟨u, n⟩ d' →
      d' = d) :
    (∃ cp ∈ nv.checkpoints P, n ≤ seqOf P cp) ∨
      ∃ b, nv.batch = some b ∧ n ≤ seqOf P b ∧ (seqOf P b = n → b.hash P = d) := by
  obtain ⟨best, hjust⟩ := hok.1
  by_cases hreached : ∃ cp ∈ nv.checkpoints P, n ≤ seqOf P cp
  · exact .inl hreached
  have hbest : seqOf P best < n := by
    refine lt_of_not_ge fun hge => hreached ⟨best, hjust.best_mem, hge⟩
  have hrange : seqOf P best + 1 < 2 ^ 64 := by omega
  right
  cases hx : nv.xset with
  | none =>
    -- a quorum would have nothing prepared
    rw [hx] at hjust
    obtain ⟨S, hcard, hS⟩ := hjust.null_spec
    obtain ⟨-, vc, hnothing, u, d', hpset, -⟩ := (h.exists_answer hR hN hφ hj hrecv hlocked hne
      hview hcard hS).resolve_left hreached
    obtain ⟨sv, hsv, hlt'⟩ := hnothing _ hpset
    obtain rfl : ⟨u, n⟩ = sv := by simpa using hsv
    rw [uint64_of_lt hrange] at hlt'
    exact absurd hbest (by simp only at hlt'; omega)
  | some sub =>
    rw [hx] at hjust
    obtain ⟨b, -, hb, hhash, -⟩ := hok.2.2 sub hx
    obtain ⟨hahead, w, ⟨S, hcard, hS⟩, r, hr, w', hww', hw', hacc⟩ := h.selected hR
      (fun i hi => (hφ i hi).mono fun _ _ _ h => h.2.2.1) hj hrecv hjust hhash hrange
    obtain ⟨⟨cp, hcp, hnext⟩, vc, hA1, u, d', hpset, hvu, huview, i, hi, haccu⟩ :=
      (h.exists_answer hR hN hφ hj hrecv hlocked hne hview hcard hS).resolve_left hreached
    have hle := hjust.seqOf_le hcp
    refine ⟨b, hb, by omega, fun hseq => ?_⟩
    rw [hseq] at hacc hA1
    obtain rfl : d' = d := hkept u hvu huview i hi d' haccu
    -- the tuple that answers for the commit does not conflict with the selected one
    obtain ⟨sv, hsv, hconflict⟩ := (conditionA1_eq_true hA1).2 _ hpset
    obtain rfl : ⟨u, n⟩ = sv := by simpa using hsv
    rcases hconflict with hother | hearlier | ⟨-, hsame⟩
    · exact absurd rfl hother
    · exact hkept w' (by simp only at hearlier; omega) hw' r hr _ hacc
    · exact (Option.some.inj hsame).symm

/-- In the view of a lock and in later ones, what is accepted at the sequence number is
what was locked. -/
theorem accepted_locked (hlocked : Locked cfg g ⟨v, n⟩ d)
    (hne : n ≠ 0) (hlt : n < 2 ^ 64) {r : ℕ} (hr : r < cfg.N)
    (haccepted : AcceptedAt P (g r).trace ⟨v, n⟩ d) :
    ∀ w, v ≤ w → ∀ i < cfg.N, ∀ d', AcceptedAt P (g i).trace ⟨w, n⟩ d' → d' = d := by
  intro w
  induction w using Nat.strong_induction_on with
  | h w ih =>
    intro hvw i hi d' hacc
    have hnot : ∀ i, i ∉ (∅ : Finset ℕ) := notMem_empty
    have hrange : ∀ i < cfg.N, Always (InRange P) (g i).trace := fun i hi =>
      (hφ i hi).mono fun _ _ _ h => h.2.2.1
    rcases hvw.lt_or_eq with hvw | rfl
    · obtain ⟨j, hj, -, nv, src, hrecv, hnv⟩ := h.accepted_source hR (Nat.zero_le _)
        (fun i hi _ => (hφ i hi).mono fun _ _ _ h => h.2.2) hi (hnot i) (hnot _)
        (Nat.zero_lt_of_lt hvw) hacc
      have hselects : nv.Acceptable P cfg → nv.view = w →
          (∃ cp ∈ nv.checkpoints P, n ≤ seqOf P cp) ∨
            ∃ b, nv.batch = some b ∧ n ≤ seqOf P b ∧ (seqOf P b = n → b.hash P = d) := by
        rintro hok rfl
        exact h.selects_locked hR hN hφ hj hrecv hok hlocked hne hlt hvw
          fun u hvu huw => ih u huw hvu
      rcases hnv with hnv | hnv
      · obtain ⟨b, hb, hseq, rfl⟩ := hnv.batch
        rcases hselects hnv.acceptable hnv.view with ⟨cp, hcp, hreached⟩ | ⟨b', hb', -, hsame⟩
        · have hafter := h.checkpoint_lt_batch hR hrange hj hrecv hnv.acceptable hnv.range hb hcp
          exact absurd hreached (by simp only at hseq; omega)
        · obtain rfl : b = b' := by simpa [hb] using hb'
          exact hsame hseq
      · -- the primary proposes only after what its new view has taken up
        rcases hselects hnv.acceptable hnv.view with ⟨cp, hcp, hreached⟩ | ⟨b, hb, hle, -⟩
        · exact absurd (hnv.checkpoints cp hcp) (not_lt.mpr hreached)
        · exact absurd (hnv.batch b hb) (not_lt.mpr hle)
    · exact h.proposal_unique hR (Nat.zero_le _) (fun i hi _ => hrange i hi) hi (hnot i) hr (hnot r)
        (hnot _) hacc haccepted

end

end

end Selection

/-! ### What is executed is locked -/

section Locks

section

variable (h : Reachable P cfg ∅ R g)
  (hR : ∀ i, ¬ R i)
  (hφ : ∀ i < cfg.N, Always (InRange P) (g i).trace)
  (hi : i < cfg.N)
include h hR hφ hi

theorem accepted_ne_zero {d : β} (haccepted : AcceptedAt P (g i).trace sv d) : sv.seq ≠ 0 := by
  obtain ⟨pp, b, hmem, hseq, hbatch, -⟩ := haccepted
  obtain ⟨c₁, c₂, hc₁, hstep, hnew, hruns⟩ :=
    (h.alone i hi).exists_step (hR i) hmem (by simp) (by simp)
  obtain ⟨c₀, sv', b', timeout, haccepts, rfl⟩ := hstep.persisted hnew
  obtain rfl : sv' = sv := by simpa [haccepts.seq_eq] using hseq
  have hφ₂ := (hφ i hi).suffix hruns.suffix
  have hrange := InRange.last_lt hφ₂
  cases haccepts with
  | propose =>
    rw [Core.last_push (by simp +contextual [or_imp])] at hrange
    simp only [Core.next, uint64_of_lt hrange]
    exact Nat.succ_ne_zero _
  | preprepare =>
    simp only [Core.next, uint64_of_lt hrange]
    exact Nat.succ_ne_zero _
  | newView _ _ _ _ _ hview hrecv hok hjust hb =>
    have hnv := NewView.ProposesAt.of_accept hok hview hjust hb rfl hφ₂
    rw [hc₁.frame.1] at hnv
    have hlt := h.checkpoint_lt_batch hR hφ hi ((hstep.frame.2.2.trans hruns.suffix).subset hrecv)
      hnv.acceptable hnv.range hb hjust.best_mem
    exact Nat.ne_zero_of_lt hlt

theorem prepared_ne_zero (hsub : sub ∈ prepared (g i).trace) (hseq : sub.seq = some sv) :
    sv.seq ≠ 0 := by
  obtain ⟨dest, hdest⟩ := mem_prepared.mp hsub
  obtain ⟨c₁, c₂, -, hstep, hnew, hruns⟩ :=
    (h.alone i hi).exists_step (hR i) hdest (by simp) (by simp)
  cases hstep.prepare_sent hnew with
  | accept _ pp sv' b _ haccepts hc₂ _ hsub' =>
    obtain rfl : sv' = sv := by simpa [hsub'] using hseq
    refine h.accepted_ne_zero hR hφ hi ⟨pp, b, hruns.suffix.subset ?_,
      haccepts.seq_eq, haccepts.batch_eq, rfl⟩
    rw [hc₂]
    simp
  | resend _ _ hahead hsub' =>
    obtain rfl : c₁.cur.seq = sv := by simpa [hsub'] using hseq
    exact Nat.ne_zero_of_lt hahead.1

theorem committed_ne_zero (hsub : sub ∈ committed (g i).trace) (hseq : sub.seq = some sv) :
    sv.seq ≠ 0 := by
  obtain ⟨dest, hdest⟩ := mem_committed.mp hsub
  obtain ⟨c₁, c₂, hc₁, hstep, hnew, hruns⟩ :=
    (h.alone i hi).exists_step (hR i) hdest (by simp) (by simp)
  have hsuffix := hstep.frame.2.2.trans hruns.suffix
  obtain ⟨rfl, -, -, -, -, -, hcommits⟩ := hstep.commit_sent hnew
  obtain rfl : c₁.cur.seq = sv := by simpa using hseq
  cases hcommits with
  | quorum src _ _ hrecv =>
    obtain ⟨hsrc, hsent⟩ := h.sent hi (notMem_empty i) (notMem_empty src)
      (mem_senders.mpr (hsuffix.subset hrecv))
    exact h.prepared_ne_zero hR hφ hsrc (mem_prepared.mpr ⟨i, hsent⟩) rfl
  | small _ _ _ hdone =>
    obtain ⟨d, -, hacc⟩ := hc₁.sound.acceptedAt (.inr hdone)
    exact h.accepted_ne_zero hR hφ hi (hacc.extend hsuffix)
  | resend _ _ hahead => exact Nat.ne_zero_of_lt hahead.1

theorem executed_locked (hsub : sub ∈ executed (g i).trace) :
    ∃ sv d, sub = ⟨some sv, some d⟩ ∧ sv.seq ≠ 0 ∧
      AcceptedAt P (g i).trace sv d ∧ Locked cfg g sv d := by
  have hnot : ∀ i, i ∉ (∅ : Finset ℕ) := notMem_empty
  obtain ⟨c₁, src, hc₁, rfl, hcall, hrecv, hquorum⟩ := (h.alone i hi).exists_execution (hR i) hsub
  have hsuffix := (List.suffix_cons _ _).trans hcall
  have hcommitted : ∀ r, .recv (.commit c₁.cur.subject) r ∈ (g i).trace →
      r < cfg.N ∧ c₁.cur.subject ∈ committed (g r).trace := by
    intro r hr
    obtain ⟨hlt, hsent⟩ := h.sent hi (hnot i) (hnot r) (mem_senders.mpr hr)
    exact ⟨hlt, mem_committed.mpr ⟨i, hsent⟩⟩
  obtain ⟨hsrc, hsent⟩ := hcommitted src (hsuffix.subset hrecv)
  have hne := h.committed_ne_zero hR hφ hsrc hsent rfl
  obtain ⟨d, hd, hacc⟩ := hc₁.sound.acceptedAt (.inl hne)
  have hsubject : c₁.cur.subject = ⟨some c₁.cur.seq, some d⟩ := by rw [ReqInfo.subject, hd]
  refine ⟨c₁.cur.seq, d, hsubject, hne, hacc.extend hsuffix, _,
    h.senders_subset_range hi (hnot i) _, hquorum hne, fun r hr => ?_⟩
  rw [← hsubject]
  exact (hcommitted r (mem_senders.mp hr)).2

end

end Locks

end Group.Reachable

/-! ### What is delivered was executed -/

section Deliveries

variable {c c' : Core β}

theorem Step.executed_inFlight (h : Step P c c')
    (hold : c.cur.executed = true → c.cur.seq.seq ≠ 0 → c.cur.subject ∈ Sbft.executed c.trace)
    (hexecuted : c'.cur.executed = true) (hne : c'.cur.seq.seq ≠ 0) :
    c'.cur.subject ∈ Sbft.executed c'.trace := by
  have htrace := h.frame.2.2
  have hkeep : c'.cur.executed = c.cur.executed → c'.cur.seq = c.cur.seq →
      c'.cur.digest = c.cur.digest → c'.cur.subject ∈ Sbft.executed c'.trace := by
    intro hexecuted' hseq hdigest
    rw [ReqInfo.subject, hseq, hdigest]
    have hmem := mem_executed.mp (hold (hexecuted' ▸ hexecuted) (hseq ▸ hne))
    exact mem_executed.mpr (htrace.subset hmem)
  cases h
  case accept => simp at hexecuted
  case newViewNull => simp at hne
  case commitExecute => exact mem_executed.mpr (by simp [ReqInfo.subject])
  all_goals exact hkeep rfl rfl rfl

theorem Alone.checkpoint_executed {id : ℕ} {r : Prop} (h : Alone P cfg id r c) (hr : ¬ r)
    {cp : Checkpoint β} {dest : ℕ} (hcp : .send (.checkpoint cp) dest ∈ c.trace) :
    ∃ sub ∈ executed c.trace, sub.digest = cp.digest := by
  have hexecuted : ∀ c, Alone P cfg id r c → c.cur.executed = true → c.cur.seq.seq ≠ 0 →
      c.cur.subject ∈ executed c.trace := by
    intro c hc
    refine hc.induction (I := fun c => c.cur.executed = true →
      c.cur.seq.seq ≠ 0 → c.cur.subject ∈ executed c.trace) hr
      (always_iff_forall_mem.mpr fun _ _ => trivial) ?_ ?_ ?_
    · intro c hc _
      obtain ⟨active, rfl⟩ := hc.of_nil
      simp [SBFT.blank]
    · intro c m src _ hc hexecuted hne
      exact mem_executed.mpr (List.mem_cons_of_mem _ (mem_executed.mp (hc hexecuted hne)))
    · exact fun c c' _ _ hc hstep => hstep.executed_inFlight hc
  obtain ⟨c₁, c₂, hc₁, hstep, hnew, hruns⟩ := h.exists_step hr hcp (by simp) (by simp)
  obtain ⟨-, hdigest, -, hwhen⟩ := hstep.checkpoint_sent hnew
  refine ⟨c₁.cur.subject, mem_executed.mpr ?_, hdigest.symm⟩
  rcases hwhen with hnow | ⟨hahead, hbefore⟩
  · exact hruns.suffix.subset (mem_executed.mp hnow)
  · have hmem := mem_executed.mp (hexecuted c₁ hc₁ hbefore (Nat.ne_zero_of_lt hahead.1))
    exact (hstep.frame.2.2.trans hruns.suffix).subset hmem

namespace Group.Reachable

section

variable (h : Reachable P cfg ∅ R g) (hR : ∀ i, ¬ R i)
include h hR

theorem hello_delivered {src : ℕ} (hi : i < cfg.N)
    {hello : Hello β} (hrecv : .recv (.hello hello) src ∈ (g i).trace) (hb : hello.batch = some b)
    (hne : seqOf P b ≠ 0) :
    ∃ j < cfg.N, ∃ b' ∈ delivered (g j).trace, b'.header = b.header := by
  obtain ⟨hsrc, hsent⟩ :=
    h.sent hi (notMem_empty i) (notMem_empty src) (mem_senders.mpr hrecv)
  obtain ⟨c₁, c₂, -, hstep, hnew, hruns⟩ :=
    (h.alone src hsrc).exists_step (hR src) hsent (by simp) (by simp)
  obtain ⟨rfl, -⟩ := hstep.hello_sent hnew
  cases hb
  exact ⟨src, hsrc, _, lastBatch_mem_delivered hne (hstep.frame.2.2.trans hruns.suffix), rfl⟩

theorem checkpoint_delivered {src : ℕ}
    (hi : i < cfg.N) {m : Msg β} {nv : NewView β} {x : Option (Subject β)}
    (hrecv : .recv m src ∈ (g i).trace) (hm : m.newView? = some nv)
    (hjust : nv.Justified P cfg x best) (hne : seqOf P best ≠ 0) :
    ∃ j < cfg.N, ∃ b ∈ delivered (g j).trace, b.header = best.header := by
  obtain ⟨r, vc, hcarries, hbest⟩ := hjust.exists_best
  obtain ⟨hr, hsigned⟩ :=
    h.carried hR hi (notMem_empty i) hrecv hm hcarries (notMem_empty r)
  obtain ⟨c₁, c₂, -, hstep, hnew, hruns⟩ :=
    (h.alone r hr).exists_step (hR r) hsigned (by simp) (by simp)
  obtain ⟨w, -, rfl, -⟩ := hstep.viewChange_signed hnew
  cases hbest
  exact ⟨r, hr, _, lastBatch_mem_delivered hne (hstep.frame.2.2.trans hruns.suffix), rfl⟩

theorem quorum_settled (hi : i < cfg.N)
    {replicas : List (ℕ × Checkpoint β)} (hquorum : cfg.oneCorrectQuorum ≤ replicas.length)
    (hreplicas : ∀ e ∈ replicas, .recv (.checkpoint e.2) e.1 ∈ (g i).trace ∧
      P.bytes e.2.digest = P.bytes (some (b.hash P))) : Settled cfg g (b.hash P) := by
  obtain ⟨e, he⟩ := List.exists_mem_of_length_pos (l := replicas) (by
    unfold Config.oneCorrectQuorum at hquorum
    omega)
  obtain ⟨hrecv, hbytes⟩ := hreplicas e he
  obtain ⟨hr, hsent⟩ :=
    h.sent hi (notMem_empty i) (notMem_empty e.1) (mem_senders.mpr hrecv)
  obtain ⟨sub, hsub, hdigest⟩ := (h.alone e.1 hr).checkpoint_executed (hR e.1) hsent
  exact ⟨e.1, hr, sub, hsub, hdigest.trans (Primitives.eq_of_bytes_eq_hash hbytes)⟩

theorem settled : ∀ i < cfg.N, ∀ b ∈ delivered (g i).trace, Settled cfg g (b.hash P) := by
  intro i hi
  refine h.invariant
    (I := fun g c => ∀ b ∈ delivered c.trace, Settled cfg g (b.hash P)) hR
    (fun _ _ _ => always_iff_forall_mem.mpr fun _ _ => trivial) ?_ ?_ ?_ ?_ i hi
    (notMem_empty i)
  · exact fun g g' c hg hI b hb => (hI b hb).extend hg
  · intro g i c hc
    obtain ⟨active, rfl⟩ := hc.of_nil
    simp [delivered]
  · intro g c m src hI b hb
    exact hI b (mem_delivered.mpr (by simpa using mem_delivered.mp hb))
  · intro g i c' hg _ hI hi _ hstep _ b hb
    have hgrow : ∀ j, (g j).trace <:+ (Function.update g i c' j).trace :=
      (Function.forall_update_iff g fun j c => (g j).trace <:+ c.trace).mpr
        ⟨hstep.frame.2.2, fun j _ => List.suffix_rfl⟩
    refine Settled.extend ?_ hgrow
    -- hellos and new views only carry on what was delivered before
    have hearlier : (∃ j < cfg.N, ∃ b' ∈ delivered (g j).trace, b'.header = b.header) →
        Settled cfg g (b.hash P) := by
      rintro ⟨j, hj, b', hb', hheader⟩
      rw [Batch.hash, ← hheader]
      exact hI j hj (notMem_empty j) b' hb'
    rcases mem_or_added hstep.frame.2.2 (mem_delivered.mp hb) with hold | hnew
    · exact hI i hi (notMem_empty i) b (mem_delivered.mpr hold)
    · have hcfg := (hg.frame i hi).1
      have hsound := (hg.alone i hi).sound
      cases hstep.delivers hsound hnew with
      | quorum pp b _ _ hpp hbatch _ _ hquorum hreplicas =>
        obtain ⟨-, -, b', -, hb', hdigest, -⟩ := hsound.cur.preprep pp hpp
        obtain rfl : b' = b := by simpa [hb'] using hbatch
        rw [hcfg] at hquorum
        refine hg.quorum_settled hR hi hquorum fun e he => ?_
        obtain ⟨hrecv, -, -, hbytes⟩ := hreplicas e he
        exact ⟨hrecv, by rw [hbytes, hdigest, Batch.hash, Batch.hash]⟩
      | hello _ _ _ _ hrecv hb _ hahead =>
        exact hearlier (hg.hello_delivered hR hi hrecv hb hahead)
      | newView _ _ _ _ _ _ _ _ hrecv hm hjust hahead =>
        rw [hcfg] at hjust
        obtain ⟨j, hj, b', hb', hheader⟩ := hg.checkpoint_delivered hR hi hrecv hm hjust hahead
        exact hearlier ⟨j, hj, b', hb', hheader.trans Core.header_xsetBatch.symm⟩

end

end Group.Reachable

end Deliveries

/-! ### Chains agree -/

/-- Batches that correct replicas deliver with one sequence number have the same header. -/
def ChainsAgree (P : Primitives β) (B : Finset ℕ) (sys : System β) : Prop :=
  ∀ e ∈ sys.histories B, ∀ e' ∈ sys.histories B, ∀ b ∈ delivered e.2, ∀ b' ∈ delivered e'.2,
    seqOf P b = seqOf P b' → b.header = b'.header

instance (B : Finset ℕ) (sys : System β) : Decidable (ChainsAgree P B sys) :=
  inferInstanceAs (Decidable (∀ e ∈ sys.histories B, ∀ e' ∈ sys.histories B, ∀ b ∈ delivered e.2,
    ∀ b' ∈ delivered e'.2, _))

theorem Group.Reachable.settled_unique (h : Group.Reachable P cfg ∅ R g) (hR : ∀ i, ¬ R i)
    (hN : 3 * cfg.F + 1 ≤ cfg.N) (hφ : ∀ i < cfg.N, Always (KeepsCommits P) (g i).trace)
    {b' : Batch β} (hb : Settled cfg g (b.hash P)) (hb' : Settled cfg g (b'.hash P))
    (hseq : seqOf P b = seqOf P b') : b.hash P = b'.hash P := by
  have hrange : ∀ i < cfg.N, Always (InRange P) (g i).trace := fun i hi =>
    (hφ i hi).mono fun _ _ _ h => h.2.2.1
  -- the position at which the digest of a batch was executed
  have hexecuted : ∀ b, Settled cfg g (b.hash P) → ∃ r < cfg.N, ∃ v,
      AcceptedAt P (g r).trace ⟨v, seqOf P b⟩ (b.hash P) ∧
        Locked cfg g ⟨v, seqOf P b⟩ (b.hash P) ∧ seqOf P b ≠ 0 ∧ seqOf P b < 2 ^ 64 := by
    rintro b ⟨r, hr, sub, hsub, hdigest⟩
    obtain ⟨⟨v, n⟩, d, rfl, hne, hacc, hlocked⟩ := h.executed_locked hR hrange hr hsub
    obtain rfl : d = b.hash P := by simpa using hdigest
    obtain rfl : seqOf P b = n := (h.alone r hr).seqOf_accepted hacc rfl
    exact ⟨r, hr, v, hacc, hlocked, hne, (h.alone r hr).accepted_lt (hR r) (hrange r hr)
      (h.timely hR (Nat.zero_le _) hr (notMem_empty r)) hacc⟩
  obtain ⟨r, hr, v, hacc, hlocked, hne, hlt⟩ := hexecuted b hb
  obtain ⟨r', hr', v', hacc', hlocked', hne', hlt'⟩ := hexecuted b' hb'
  rw [← hseq] at hacc' hlocked'
  rcases le_total v v' with hle | hle
  · exact (h.accepted_locked hR hN hφ hlocked hne hlt hr hacc v' hle r' hr' _ hacc').symm
  · exact h.accepted_locked hR hN hφ hlocked' hne hlt hr' hacc' v hle r hr _ hacc

/-- The chains of all replicas agree, in every run without Byzantine replicas and restarts
in which commits are kept. -/
theorem chainsAgree_of_keepsCommits {ls : List (Label β)} {sys : System β}
    (hN : 3 * cfg.F + 1 ≤ cfg.N) (hrestart : ∀ l ∈ ls, ¬ l.Restarts)
    (hrun : System.run P ∅ (System.init P cfg) ls = some sys)
    (hφ : ∀ e ∈ sys.histories ∅, Always (KeepsCommits P) e.2) : ChainsAgree P ∅ sys := by
  obtain ⟨g, hg, hhist⟩ := run_refines hrun
  have hR := not_restarted hrestart
  have hkeeps : ∀ i < cfg.N, Always (KeepsCommits P) (g i).trace := fun i hi =>
    hφ _ ((hhist i _).mpr ⟨hi, Finset.notMem_empty i, rfl⟩)
  rintro ⟨i, t⟩ hit ⟨j, u⟩ hju b hb b' hb' hseq
  obtain ⟨hi, -, rfl⟩ := (hhist i t).mp hit
  obtain ⟨hj, -, rfl⟩ := (hhist j u).mp hju
  exact header_eq_of_hash_eq P (hg.settled_unique hR hN hkeeps (hg.settled hR i hi b hb)
    (hg.settled hR j hj b' hb') hseq)

/-- Replica 3 delivers the first batch in view 0, and replica 0 in view 1, which proposes
it again. -/
def reproposedRun : List (Label Term) :=
  .of 0 (.request (.nat 7)) :: Label.arrivals [(0, 0, 0), (1, 0, 1), (2, 0, 1), (3, 0, 1),
    (0, 1, 0), (0, 2, 0), (1, 1, 0), (1, 2, 0), (2, 1, 0), (2, 2, 0), (3, 1, 0), (3, 2, 0),
    (3, 0, 1), (3, 1, 0), (3, 2, 0), (2, 0, 1), (2, 1, 0), (2, 2, 0), (3, 3, 2), (3, 2, 0)] ++
  [.of 0 (.timer 0), .of 1 (.timer 0), .of 2 (.timer 0)] ++ Label.arrivals [(1, 0, 2), (1, 1, 1),
    (1, 2, 2), (0, 1, 2), (1, 1, 1), (2, 1, 1), (0, 0, 3), (0, 2, 3), (1, 0, 2), (1, 2, 2),
    (2, 0, 2), (2, 2, 2), (0, 0, 3), (0, 1, 2), (0, 2, 3), (0, 0, 3), (0, 2, 1)]

theorem chainsAgree_reproposedRun : ∃ sys,
    System.run symbolic ∅ (System.init symbolic fourReplicas) reproposedRun = some sys ∧
      (∃ e ∈ sys.histories ∅, e.1 = 0 ∧ delivered e.2 ≠ []) ∧
      (∃ e ∈ sys.histories ∅, e.1 = 3 ∧ delivered e.2 ≠ []) ∧ ChainsAgree symbolic ∅ sys := by
  refine exists_and_of_checked (fun sys : System Term =>
    (∃ e ∈ sys.histories ∅, e.1 = 3 ∧ delivered e.2 ≠ []) ∧
    ∀ e ∈ sys.histories ∅, Always (KeepsCommits symbolic) e.2) (by decide +kernel) ?_
  rintro sys hrun ⟨hlast, hφ⟩
  exact ⟨hlast, chainsAgree_of_keepsCommits (by decide) (by decide) hrun hφ⟩

/-- Whoever receives a new view of some view from a correct primary receives the same one. -/
def NewViewsAgree (B : Finset ℕ) (sys : System β) : Prop :=
  ∀ p ∉ B, ∀ e ∈ sys.histories B, ∀ e' ∈ sys.histories B, ∀ nv nv',
    .recv (.newView nv) p ∈ e.2 → .recv (.newView nv') p ∈ e'.2 → nv.view = nv'.view → nv = nv'

/-- New views agree, in every run without restarts and overflow. -/
theorem newViewsAgree_of_inRange {B : Finset ℕ} {ls : List (Label β)} {sys : System β}
    (hrestart : ∀ l ∈ ls, ¬ l.Restarts) (hrun : System.run P B (System.init P cfg) ls = some sys)
    (hφ : ∀ e ∈ sys.histories B, Always (InRange P) e.2) : NewViewsAgree B sys := by
  obtain ⟨g, hg, hhist⟩ := run_refines hrun
  intro p hp e he e' he' nv nv' hnv hnv' hview
  have hsent : ∀ e ∈ sys.histories B, ∀ nv, .recv (.newView nv) p ∈ e.2 →
      p < cfg.N ∧ NewViewSent (g p).trace nv := by
    rintro ⟨i, t⟩ hit nv hnv
    obtain ⟨hi, hiB, rfl⟩ := (hhist i t).mp hit
    obtain ⟨hlt, hfrom, -⟩ := hg.recv i hi hiB _ p hnv
    exact ⟨hlt, i, (hfrom.resolve_left hp).2⟩
  obtain ⟨hlt, hsent₁⟩ := hsent e he nv hnv
  have hleads := hg.leads (not_restarted hrestart)
    (fun i hi hiB => hφ _ ((hhist i _).mpr ⟨hi, hiB, rfl⟩)) p hlt hp
  exact hleads.once nv nv' hsent₁ (hsent e' he' nv' hnv').2 hview

theorem newViewsAgree_reproposedRun : ∃ sys,
    System.run symbolic ∅ (System.init symbolic fourReplicas) reproposedRun = some sys ∧
      (∃ e ∈ sys.histories ∅, ∃ ev ∈ e.2, ev.newView? ≠ none) ∧ NewViewsAgree ∅ sys := by
  refine System.exists_of_always ∅ (InRange symbolic) (by decide +kernel) ?_
  exact fun sys => newViewsAgree_of_inRange (by decide)

/-- Replica 3 delivers the first batch in view 0. View 1 proposes it again, replicas 0, 1 and 2
enter that view and leave it at once, and view 2 orders another batch. -/
theorem not_chainsAgree_forgottenCommit : ∃ sys,
    System.run symbolic ∅ (System.init symbolic fourReplicas)
      ([.of 0 (.request (.nat 7)), .of 2 (.request (.nat 8))] ++ Label.arrivals [(0, 0, 0),
        (2, 2, 0), (1, 0, 1), (2, 0, 1), (3, 0, 1), (0, 1, 0), (0, 2, 1), (1, 1, 0), (1, 2, 1),
        (2, 1, 0), (2, 2, 0), (0, 0, 1), (0, 1, 0), (0, 2, 1), (1, 0, 1), (1, 1, 0), (1, 2, 1),
        (3, 0, 2), (3, 1, 2)] ++
      [.of 0 (.timer 0), .of 1 (.timer 0), .of 2 (.timer 0)] ++ Label.arrivals [(1, 0, 2),
        (1, 1, 1), (1, 2, 1), (0, 1, 2), (1, 1, 1), (2, 1, 3)] ++
      [.of 0 (.timer 1), .of 1 (.timer 2), .of 2 (.timer 1)] ++ Label.arrivals [(2, 0, 5),
        (2, 1, 3), (2, 2, 3), (2, 2, 3), (0, 2, 4), (1, 2, 3), (0, 2, 4), (1, 2, 3), (0, 0, 5),
        (0, 1, 3), (1, 0, 4), (1, 1, 2), (2, 0, 5), (2, 1, 3), (0, 0, 5), (0, 1, 3), (0, 2, 4),
        (1, 0, 4), (1, 1, 2), (1, 2, 3), (0, 0, 5), (0, 1, 3)]) = some sys ∧
      ¬ ChainsAgree symbolic ∅ sys := by
  decide +kernel

end Fabric.Sbft
