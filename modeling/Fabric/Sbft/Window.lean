import Fabric.Sbft.Provenance

/-!
# How far ahead of the chain a replica works

A replica works on one request at a time. The batch in flight is at most the one that
comes next on its chain, and a request that is done is on the chain.

For a batch accepted from the primary this is checked. For one that comes with a new view
it is due to the replicas whose view changes support the selection. One of them is correct
and had the batch in flight, next to the checkpoint that it reported.
-/

namespace Fabric.Sbft

open Fabric.Common

variable {β : Type} {P : Primitives β}

/-- The batch in flight is at most the next one, and a request that is done is on the
chain. -/
structure Core.Nearby (P : Primitives β) (c : Core β) : Prop where
  next : ∀ pp b, c.cur.preprep = some pp → pp.batch = some b → seqOf P b ≤ c.last P + 1
  done : c.cur.checkpointDone = true → c.cur.seq.seq ≤ c.last P

/-- The digests reported as preprepared are of batches that at most follow its checkpoint. -/
def ViewChange.Timely (P : Primitives β) (vc : ViewChange β) : Prop :=
  ∀ cp, vc.checkpoint = some cp → ∀ s ∈ vc.qset, ∃ d, s.digest = some d ∧
    ∀ b : Batch β, b.hash P = d → seqOf P b ≤ seqOf P cp + 1

/-- The batch of a new view at most follows one of its checkpoints. -/
def NewView.Timely (P : Primitives β) (nv : NewView β) : Prop :=
  ∀ b, nv.batch = some b → ∃ cp ∈ nv.checkpoints P, seqOf P b ≤ seqOf P cp + 1

/-- Checkpoints are counted only for a request that is done or ahead of the chain. -/
def CountsAhead (P : Primitives β) (e : Event β) (t : List (Event β)) : Prop :=
  ∀ a ∈ e.checkpoint?, a.2.cur.checkpointDone = true ∨ lastSeq P t < a.2.cur.seq.seq

instance (e : Event β) (t : List (Event β)) : Decidable (CountsAhead P e t) :=
  inferInstanceAs (Decidable (∀ a ∈ e.checkpoint?, _))

section Steps

variable {c c' : Core β}

theorem Core.Nearby.seq_le (h : c.Nearby P) (hc : c.Sound P) : c.cur.seq.seq ≤ c.last P + 1 := by
  cases hpp : c.cur.preprep with
  | none => simp [(hc.cur.blank hpp).1]
  | some pp =>
    obtain ⟨-, sv, b, -, hb, -⟩ := hc.cur.preprep pp hpp
    by_cases hzero : c.cur.seq.seq = 0
    · omega
    · rw [← hc.seqOf_batch hpp hb hzero]
      exact h.next pp b hpp hb

theorem Core.Nearby.viewChange_timely (h : c.Nearby P) (hc : c.Sound P) (w : ℕ) :
    (c.viewChange P w).Timely P := by
  intro cp hcp s hs
  have hlast : seqOf P cp = c.last P := by
    obtain rfl : { lastBatch P c.trace with payloads := [] } = cp := by
      simpa [Core.viewChange, viewChangeFor] using hcp
    exact seqOf_eq_of_header_eq P rfl
  simp only [Core.viewChange, viewChangeFor] at hs
  split_ifs at hs with hsome
  · obtain ⟨pp, hpp⟩ := Option.isSome_iff_exists.mp hsome
    obtain ⟨-, sv, b, -, hb, hdigest, -⟩ := hc.cur.preprep pp hpp
    refine ⟨b.hash P, by rw [List.mem_singleton.mp hs, ReqInfo.subject_digest, hdigest], ?_⟩
    intro b' hb'
    rw [hlast, seqOf_eq_of_header_eq P (header_eq_of_hash_eq P hb')]
    exact h.next pp b hpp hb
  · cases hs

variable [DecidableEq β]

/-- A step does not shorten the chain, if checkpoints are counted only for a request
ahead of it. -/
theorem Step.last_le (h : Step P c c') (hc : c.Sound P) (hφ : Always (CountsAhead P) c'.trace) :
    c.last P ≤ c'.last P := by
  have hnone : (∀ b, ¬ Added c.trace c'.trace (.deliver b)) → c.last P ≤ c'.last P :=
    fun hno => (lastSeq_eq_of_not_added P h.frame.2.2 hno).ge
  cases h
  case quiet hquiet =>
    refine hnone fun b hb => ?_
    cases quiet_of_added hquiet hb
  case greet hes =>
    refine hnone fun b hb => ?_
    cases greeting_of_added hes hb (by simp)
  case accept haccepts =>
    rw [Core.last_accept]
    cases haccepts with
    | propose => exact (Core.last_push (by simp +contextual [or_imp])).ge
    | preprepare => exact le_refl _
    | newView => simp
  case checkpointDeliver cp src _ _ _ _ _ _ hdone _ _ _ _ _ _ hpp hbatch =>
    have hcall : CountsAhead P (.call (.handleCheckpoint cp src) c.status) c.trace :=
      hφ.at (by simp)
    have hahead : c.last P < c.cur.seq.seq :=
      (hcall _ rfl).resolve_left (by simp [hdone])
    rw [← hc.seqOf_batch hpp hbatch (by omega)] at hahead
    exact hahead.le
  case hello | helloNewView | newViewNull => simp
  all_goals exact hnone (by simp)

/-- The acceptable new views among the messages received are timely. -/
def TimelyViews (P : Primitives β) (cfg : Config) (t : List (Event β)) : Prop :=
  ∀ nv src, .recv (.newView nv) src ∈ t → nv.Acceptable P cfg → nv.Timely P

theorem TimelyViews.suffix {cfg : Config} {t t' : List (Event β)} (h : TimelyViews P cfg t)
    (hs : t' <:+ t) : TimelyViews P cfg t' := fun nv src hrecv => h nv src (hs.subset hrecv)

theorem Accepts.seqOf_le {c₀ : Core β} {pp : Preprepare β} {sv : SeqView} {b : Batch β}
    (h : Accepts P c c₀ pp sv b) (hnv : TimelyViews P c.config c.trace) :
    seqOf P b ≤ c₀.last P + 1 := by
  have huint : ∀ n, uint64 (n + 1) ≤ n + 1 := fun n => Nat.mod_le _ _
  cases h with
  | propose data =>
    rw [Core.last_push (by simp +contextual [or_imp])]
    exact (seqOf_makeBatch P _ (some _) data).trans_le (huint _)
  | preprepare _ _ _ _ _ _ _ _ _ hcheck hhd =>
    rw [seqOf_of_checkBatch P hcheck, hhd]
    exact huint _
  | newView nv _ _ _ _ _ hrecv hok hjust hbatch =>
    obtain ⟨cp, hcp, hle⟩ := hnv nv _ hrecv hok b hbatch
    have hbest := hjust.seqOf_le hcp
    rw [Core.last_enterView]
    omega

theorem Step.nearby (h : Step P c c') (hc : c.Sound P) (hnv : TimelyViews P c.config c.trace)
    (hold : c.Nearby P) : c'.Nearby P := by
  -- most steps keep the request in flight and do not shorten the chain
  have hkeep : c.last P ≤ c'.last P → c'.cur.preprep = c.cur.preprep → c'.cur.seq = c.cur.seq →
      (c'.cur.checkpointDone = true → c.cur.checkpointDone = true ∨ c.last P < c'.last P) →
      c'.Nearby P := by
    intro hlast hpreprep hseq hdone
    refine ⟨fun pp b hpp hb => ?_, fun hd => ?_⟩
    · have := hold.next pp b (hpreprep ▸ hpp) hb
      omega
    · have hle := hold.seq_le hc
      rw [hseq]
      rcases hdone hd with hd | hlt
      · exact (hold.done hd).trans hlast
      · omega
  have hnone : (∀ b, ¬ Added c.trace c'.trace (.deliver b)) → c.last P ≤ c'.last P :=
    fun hno => (lastSeq_eq_of_not_added P h.frame.2.2 hno).ge
  cases h
  case quiet hquiet =>
    refine hkeep (hnone fun b hb => ?_) rfl rfl .inl
    cases quiet_of_added hquiet hb
  case greet hes =>
    refine hkeep (hnone fun b hb => ?_) rfl rfl .inl
    cases greeting_of_added hes hb (by simp)
  case accept pp _ b _ haccepts =>
    refine ⟨fun pp' b' hpp' hb' => ?_, fun hdone => by simp at hdone⟩
    obtain rfl : pp = pp' := by simpa using hpp'
    obtain rfl : b = b' := by simpa [haccepts.batch_eq] using hb'
    rw [Core.last_accept]
    exact haccepts.seqOf_le hnv
  case checkpointDeliver pp b _ _ _ _ _ _ _ _ _ hpp hbatch =>
    refine ⟨fun pp' b' hpp' hb' => ?_, fun _ => ?_⟩
    · obtain rfl : pp = pp' := by simpa [hpp] using hpp'
      obtain rfl : b = b' := by simpa [hbatch] using hb'
      exact Nat.le_succ _
    · by_cases hzero : c.cur.seq.seq = 0
      · exact hzero.trans_le (Nat.zero_le _)
      · exact (hc.seqOf_batch hpp hbatch hzero).ge
  case hello => exact hkeep (by simp) rfl rfl .inl
  case helloNewView =>
    refine hkeep (by simp) rfl rfl fun hdone => ?_
    rcases Bool.or_eq_true_iff.mp hdone with hlt | hold
    · simp at hlt ⊢
      omega
    · exact .inl hold
  case newViewNull =>
    refine ⟨fun pp b hpp hb => ?_, fun _ => Nat.zero_le _⟩
    have := hold.next pp b hpp hb
    rw [Core.last_enterView]
    omega
  all_goals exact hkeep (hnone (by simp)) rfl rfl .inl

end Steps

/-! ### Groups and their replicas -/

section Groups

variable [DecidableEq β] {cfg : Config} {B : Finset ℕ} {R : ℕ → Prop} {g : ℕ → Core β}
  {nv : NewView β}

omit [DecidableEq β] in
theorem Restarted.nearby {id : ℕ} {c : Core β} (h : Restarted P cfg id [] c) : c.Nearby P := by
  obtain ⟨active, rfl⟩ := h.of_nil
  exact ⟨by simp [SBFT.blank], fun _ => Nat.zero_le _⟩

theorem NewView.Acceptable.timely (h : nv.Acceptable P cfg) (hB : B.card ≤ cfg.F)
    (hvcs : ∀ r vc, nv.Carries P cfg r vc → r ∉ B → vc.Timely P) : nv.Timely P := by
  intro b hb
  obtain ⟨x, hd, hx, hhash, hcheck⟩ := h.exists_checkBatch hb
  obtain ⟨best, hjust⟩ := h.1
  rw [hx] at hjust
  obtain ⟨sv, -, -, S, hcard, hS⟩ := hjust.some_spec
  -- one of the replicas that preprepared the request is correct
  have hlt := lt_of_le_of_lt hB hcard
  obtain ⟨r, hr, hrB⟩ := exists_not_mem_of_card_lt hlt
  obtain ⟨vc, hcarries, ha2⟩ := hS r hr
  obtain ⟨s, hs, -, -, -, -, hdigest⟩ := conditionA2_eq_true ha2
  have ⟨svc, cp, _, hvset, _, hdec, _, hcp, _⟩ := hcarries
  obtain ⟨d, hd, hle⟩ := hvcs r vc hcarries hrB cp hcp s hs
  refine ⟨cp, (NewView.mem_checkpoints hvset hdec hcp).1, hle b ?_⟩
  rw [hhash, ← hdigest, hd, P.bytes_some]

theorem Group.Reachable.nearby (h : Group.Reachable P cfg B R g) (hR : ∀ i, ¬ R i)
    (hB : B.card ≤ cfg.F) : ∀ i < cfg.N, i ∉ B → (g i).Nearby P ∧
      ∀ vc, .signViewChange vc ∈ (g i).trace → vc.Timely P := by
  refine h.invariant
    (I := fun _ c => c.Nearby P ∧ ∀ vc : ViewChange β, .signViewChange vc ∈ c.trace → vc.Timely P)
    hR (fun _ _ _ => always_iff_forall_mem.mpr fun _ _ => trivial) (fun _ _ _ _ h => h) ?_ ?_ ?_
  · intro g i c hc
    obtain ⟨active, rfl⟩ := hc.of_nil
    exact ⟨hc.nearby, by simp⟩
  · exact fun g c m src hc => ⟨⟨hc.1.next, hc.1.done⟩, by simpa using hc.2⟩
  · intro g i c' hg _ hI hi hiB hstep _
    have hsound := (hg.alone i hi).sound
    obtain ⟨hnear, hvcs⟩ := hI i hi hiB
    have hcfg := (hg.alone i hi).frame.1
    refine ⟨hstep.nearby hsound (fun nv src hrecv hok => ?_) hnear, fun vc hvc => ?_⟩
    · rw [hcfg] at hok
      refine hok.timely hB fun r vc hcarries hrB => ?_
      obtain ⟨hr, hsigned⟩ := hg.carried hR hi hiB hrecv rfl hcarries hrB
      exact (hI r hr hrB).2 vc hsigned
    · rcases mem_or_added hstep.frame.2.2 hvc with hold | hnew
      · exact hvcs vc hold
      · obtain ⟨w, -, rfl, -⟩ := hstep.viewChange_signed hnew
        exact hnear.viewChange_timely hsound w

theorem Group.Reachable.timely (h : Group.Reachable P cfg B R g) (hR : ∀ i, ¬ R i)
    (hB : B.card ≤ cfg.F) {i : ℕ} (hi : i < cfg.N) (hiB : i ∉ B) :
    TimelyViews P cfg (g i).trace := by
  intro nv src hrecv hok
  refine hok.timely hB fun r vc hcarries hrB => ?_
  obtain ⟨hr, hsigned⟩ := h.carried hR hi hiB hrecv rfl hcarries hrB
  exact (h.nearby hR hB r hr hrB).2 vc hsigned

theorem Alone.nearby {id : ℕ} {r : Prop} {c : Core β} (h : Alone P cfg id r c) (hr : ¬ r)
    (hnv : TimelyViews P cfg c.trace) : c.Nearby P := by
  induction h with
  | start _ hc => exact hc.nearby
  | receive _ _ _ _ ih =>
    have hc := ih (hnv.suffix (List.suffix_cons _ _))
    exact ⟨hc.next, hc.done⟩
  | act _ _ hc hstep ih =>
    have hnv' := hnv.suffix hstep.frame.2.2
    exact hstep.nearby hc.sound (hc.frame.1 ▸ hnv') (ih hnv')
  | restart _ _ _ _ hrst => exact absurd hrst hr

end Groups

end Fabric.Sbft
