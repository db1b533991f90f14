import Fabric.Sbft.Position
import Fabric.Sbft.Restart

/-!
# Divergent checkpoints

A checkpoint names a sequence number and a digest, but no view. A replica that has one
batch in flight stops when a weak quorum vouches for another one with the same sequence
number. This cannot happen while the correct replicas accept the same digest for a
sequence number; an equivocating primary or a later view can make them differ.
-/

namespace Fabric.Sbft

open Fabric.Common List

variable {β : Type} {P : Primitives β}

/-- The subjects of the preprepares that were accepted. -/
def accepted (P : Primitives β) (t : List (Event β)) : List (Subject β) :=
  t.filterMap fun
    | .persist (.preprepare pp) => some ⟨pp.seq, pp.batch.map fun b => b.hash P⟩
    | _ => none

theorem AcceptedAt.mem_accepted {t : List (Event β)} {sv : SeqView} {d : β}
    (h : AcceptedAt P t sv d) : ⟨some sv, some d⟩ ∈ accepted P t := by
  obtain ⟨pp, b, hmem, hseq, hbatch, rfl⟩ := h
  exact mem_filterMap.mpr ⟨_, hmem, by simp [hseq, hbatch]⟩

/-- The correct replicas accept one digest for a sequence number, in whatever view. -/
def AcceptsAlike (P : Primitives β) (B : Finset ℕ) (sys : System β) : Prop :=
  ∀ e ∈ sys.histories B, ∀ e' ∈ sys.histories B, ∀ p ∈ accepted P e.2, ∀ q ∈ accepted P e'.2,
    p.seq.map SeqView.seq = q.seq.map SeqView.seq → p.digest = q.digest

instance [DecidableEq β] (B : Finset ℕ) (sys : System β) : Decidable (AcceptsAlike P B sys) :=
  inferInstanceAs (Decidable (∀ e ∈ sys.histories B, ∀ e' ∈ sys.histories B,
    ∀ p ∈ accepted P e.2, ∀ q ∈ accepted P e'.2, _))

/-- No checkpoint is counted for a request of sequence number zero. -/
def CountsInFlight (e : Event β) (_ : List (Event β)) : Prop :=
  ∀ a ∈ e.checkpoint?, a.2.cur.checkpointDone = false → a.2.cur.seq.seq ≠ 0

instance (e : Event β) (t : List (Event β)) : Decidable (CountsInFlight e t) :=
  inferInstanceAs (Decidable (∀ a ∈ e.checkpoint?, _ → _))

variable [DecidableEq β] {cfg : Config} {c : Core β}

/-- A checkpoint is sent for a batch that was accepted. -/
def SendsAccepted (P : Primitives β) (e : Event β) (t : List (Event β)) : Prop :=
  ∀ cp dest, e = .send (.checkpoint cp) dest → cp.seq ≠ 0 →
    ∃ sv d, sv.seq = cp.seq ∧ cp.digest = some d ∧ AcceptedAt P t sv d

theorem Alone.checkpoints_accepted {id : ℕ} {r : Prop} (h : Alone P cfg id r c) :
    Always (SendsAccepted P) c.trace := by
  refine h.induction_restart
    (always_iff_forall_mem.mpr fun _ _ => trivial) (fun _ _ _ => trivial) (fun _ h => h) ?_ ?_ ?_
  · intro t c hc _ ht
    cases hc <;> simpa [SendsAccepted] using ht
  · intro c m src _ hc
    simpa [SendsAccepted] using hc
  · intro c c' hc _ hI hstep
    refine hI.extend hstep.frame.2.2 ?_
    rintro e t hnew ht - cp dest rfl hne
    obtain ⟨hseq, hdigest, -⟩ := hstep.checkpoint_sent hnew
    obtain ⟨d, hd, haccepted⟩ := hc.sound.acceptedAt (.inl (hseq ▸ hne))
    exact ⟨c.cur.seq, d, hseq.symm, hdigest.trans hd, haccepted.extend ht⟩

theorem exists_correct_member {α : Type} {B : Finset ℕ} {l : List (ℕ × α)}
    (hnodup : (l.map Prod.fst).Nodup) (hcard : B.card < l.length) : ∃ e ∈ l, e.1 ∉ B := by
  have hlt : B.card < (l.map Prod.fst).toFinset.card := by
    rwa [toFinset_card_of_nodup hnodup, length_map]
  obtain ⟨r, hr, hrB⟩ := exists_not_mem_of_card_lt hlt
  obtain ⟨e, he, rfl⟩ := mem_map.mp (mem_toFinset.mp hr)
  exact ⟨e, he, hrB⟩

omit [DecidableEq β] in
theorem Primitives.eq_of_bytes_eq_hash {o : Option β} {x : β}
    (h : P.bytes o = P.bytes (some (P.hash x))) : o = some (P.hash x) := by
  cases o with
  | none =>
    have hempty : P.empty = P.hash x := h
    exact absurd (hempty ▸ P.len_empty) (P.len_hash x)
  | some => exact congrArg some h

/-- No replica stops because of a weak quorum of checkpoints, with at most `F` Byzantine replicas,
if correct replicas accept one digest for a sequence number. -/
theorem no_mismatch_of_acceptsAlike {B : Finset ℕ} {ls : List (Label β)} {l : Label β}
    {sys sys' : System β} (hB : B.card ≤ cfg.F)
    (hrun : System.run P B (System.init P cfg) ls = some sys)
    (hstep : sys.step P B l = some sys') (halike : AcceptsAlike P B sys')
    (hφ : ∀ e ∈ sys'.histories B, Always CountsInFlight e.2) :
    sys.panic? P B l ≠ some .weakCheckpointMismatch := by
  intro hpanic
  obtain ⟨g, hg, hhist, hi, hiB, cp, src, t, votes, replicas, sum, htrace, hrecv, hdone, hseq,
    hsig, hvotes, hmem, hnodup, hquorum, e, he, hne⟩ := run_stops hrun hstep hpanic
  have hit := (hhist l.replica _).mpr ⟨hi, hiB, rfl⟩
  have hsound := (hg.alone _ hi).sound
  have hcfg := (hg.frame _ hi).1
  have hcall : CountsInFlight (.call (.handleCheckpoint cp src) (g l.replica).status) t :=
    (hφ _ hit).at (htrace ▸ suffix_refl _)
  have hzero := hcall _ rfl hdone
  obtain ⟨d, hd, haccepted⟩ := hsound.acceptedAt (.inr hdone)
  -- a correct member of the quorum has accepted the digest it vouches for
  obtain ⟨e', he', hcorrect⟩ := exists_correct_member (B := B) hnodup <| by
    rw [hcfg] at hquorum
    unfold Config.oneCorrectQuorum at hquorum
    omega
  obtain ⟨hvote, hsum⟩ := hmem e' he'
  obtain ⟨hrecv', hsame⟩ : .recv (.checkpoint e'.2) e'.1 ∈ (g l.replica).trace ∧
      e'.2.seq = (g l.replica).cur.seq.seq := by
    rcases ReqInfo.Sound.getElem?_insert_cases hvote with ⟨hsrc, hcp⟩ | hold
    · rw [hsrc, hcp, htrace]
      exact ⟨mem_cons_of_mem _ hrecv, hseq⟩
    · obtain ⟨hmem, -, hseq⟩ := hsound.cur.checkpoint votes _ _ hvotes hold
      exact ⟨hmem, hseq.resolve_left hzero⟩
  obtain ⟨hr, hsent, -⟩ := hg.recv _ hi hiB _ _ hrecv'
  obtain ⟨u, hu, hsends⟩ :=
    (hg.alone _ hr).checkpoints_accepted.of_mem (hsent.resolve_left hcorrect).2
  obtain ⟨sv, d', hsv, hd', haccepted'⟩ := hsends _ _ rfl (hsame ▸ hzero)
  have haccepted' := haccepted'.extend ((suffix_cons _ _).trans hu)
  have heq : some d' = some d := halike _ ((hhist e'.1 _).mpr ⟨hr, hcorrect, rfl⟩) _ hit _
    haccepted'.mem_accepted _ haccepted.mem_accepted (by simp [hsv, hsame])
  -- all members of the quorum vouch for that digest
  obtain ⟨x, rfl⟩ := hsound.exists_digest d hd
  apply hne
  rw [hd]
  apply Primitives.eq_of_bytes_eq_hash
  rw [(hmem e he).2, ← hsum, hd', heq]

/-- Replicas 1 and 3 accept the same batch, and the checkpoint of 3 reaches 1. -/
theorem no_mismatch_executedRun : ∃ sys,
    System.run symbolic {0} (System.init symbolic fourReplicas) executedRun = some sys ∧
      (∃ sys', sys.step symbolic {0} (.of 1 (.deliver 3 2)) = some sys' ∧
        ∃ e ∈ sys'.histories {0}, e.1 = 1 ∧ ∃ ev ∈ e.2, ev.checkpoint? ≠ none) ∧
      sys.panic? symbolic {0} (.of 1 (.deliver 3 2)) ≠ some .weakCheckpointMismatch := by
  refine exists_of_checked (fun sys : System Term =>
    ∃ sys', sys.step symbolic {0} (.of 1 (.deliver 3 2)) = some sys' ∧
      (∃ e ∈ sys'.histories {0}, e.1 = 1 ∧ ∃ ev ∈ e.2, ev.checkpoint? ≠ none) ∧
      AcceptsAlike symbolic {0} sys' ∧ ∀ e ∈ sys'.histories {0}, Always CountsInFlight e.2)
    (by decide +kernel) ?_
  rintro sys hrun ⟨sys', hstep, hcounted, halike, hφ⟩
  exact ⟨⟨sys', hstep, hcounted⟩, no_mismatch_of_acceptsAlike (by decide) hrun hstep halike hφ⟩

/-- Replica 3 executes the first batch; replica 2 has accepted another one from primary 0. -/
theorem weakCheckpointMismatch_reached : ∃ sys,
    System.run symbolic {0} (System.init symbolic fourReplicas) (executedRun ++
      [.of 2 (.inject 0 (.preprepare ⟨some ⟨0, 1⟩, some (firstBatch 8)⟩)),
        .of 2 (.inject 0 (.checkpoint ⟨1, some ((firstBatch 7).hash symbolic),
          .sig 0 ((firstBatch 7).hash symbolic)⟩))]) = some sys ∧
      sys.panic? symbolic {0} (.of 2 (.deliver 3 2)) = some .weakCheckpointMismatch := by
  decide +kernel

end Fabric.Sbft
