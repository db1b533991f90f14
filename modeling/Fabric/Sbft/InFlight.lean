import Fabric.Sbft.Invariant

/-!
# The request in flight

What a replica knows of the request in flight stems from its history: the
preprepare was persisted and its batch checked, and every vote that is counted was
received. Only the sequence number may have been reset to zero, which a new view does
to drop the request while its votes stay.

## Main results

- `Step.sound`, `Restarted.sound`: steps and restarts keep `Core.Sound`
- `Alone.sound`: every replica's request in flight is sound
- `Core.Sound.card_commits`: counted commits come from as many replicas
-/

namespace Fabric.Sbft

open Fabric.Common List

variable {β : Type} {P : Primitives β}

/-- A preprepare whose batch carries its sequence number and the hash of its payloads. -/
def Preprepare.Checked (P : Primitives β) (pp : Preprepare β) : Prop :=
  ∃ sv b hd, pp.seq = some sv ∧ pp.batch = some b ∧ P.unmarshalHeader b.header = some hd ∧
    hd.seq = sv.seq ∧ merkleHashData P b.payloads = hd.dataHash

/-- A vote for the request in flight; the request may have been dropped since. -/
def ReqInfo.VotedBy (cur : ReqInfo β) (p : Subject β) : Prop :=
  ∃ n, p = ⟨some ⟨cur.seq.view, n⟩, cur.digest⟩ ∧ (cur.seq.seq = 0 ∨ n = cur.seq.seq)

theorem ReqInfo.VotedBy.eq_subject {cur : ReqInfo β} {p : Subject β} (h : cur.VotedBy p)
    (hne : cur.seq.seq ≠ 0) : p = cur.subject := by
  obtain ⟨n, rfl, hn⟩ := h
  obtain rfl := hn.resolve_left hne
  rfl

/-- The request in flight and its votes stem from the history. -/
structure ReqInfo.Sound (P : Primitives β) (cur : ReqInfo β) (t : List (Event β)) : Prop where
  preprep : ∀ pp, cur.preprep = some pp → .persist (.preprepare pp) ∈ t ∧
    ∃ sv b, pp.seq = some sv ∧ pp.batch = some b ∧ cur.digest = some (b.hash P) ∧
      sv.view = cur.seq.view ∧
      (cur.checkpointDone = true ∧ cur.seq.seq = 0 ∨ cur.seq.seq = sv.seq)
  blank : cur.preprep = none → cur.seq.seq = 0 ∧ cur.checkpointDone = true ∧
    cur.prep = none ∧ cur.commit = none ∧ cur.checkpoint = none ∧ cur.digest = none
  prep : ∀ votes r p, cur.prep = some votes → votes[r]? = some p →
    .recv (.prepare p) r ∈ t ∧ cur.VotedBy p
  commit : ∀ votes r p, cur.commit = some votes → votes[r]? = some p →
    .recv (.commit p) r ∈ t ∧ cur.VotedBy p
  checkpoint : ∀ votes r cp, cur.checkpoint = some votes → votes[r]? = some cp →
    .recv (.checkpoint cp) r ∈ t ∧ P.checkSig (P.bytes cp.digest) r cp.signature = true ∧
      (cur.seq.seq = 0 ∨ cp.seq = cur.seq.seq)

variable {pp : Preprepare β} {sv : SeqView} {b : Batch β} {t : List (Event β)} {c : Core β}
  {cfg : Config}

namespace ReqInfo.Sound

variable {cur cur' : ReqInfo β} {t t' : List (Event β)} {src : ℕ} {votes : GoMap (Subject β)}

theorem extend (h : cur.Sound P t) (ht : t <:+ t') : cur.Sound P t' where
  preprep pp hpp := ⟨ht.subset (h.preprep pp hpp).1, (h.preprep pp hpp).2⟩
  blank := h.blank
  prep votes r p hv hp := ⟨ht.subset (h.prep votes r p hv hp).1, (h.prep votes r p hv hp).2⟩
  commit votes r p hv hp :=
    ⟨ht.subset (h.commit votes r p hv hp).1, (h.commit votes r p hv hp).2⟩
  checkpoint votes r cp hv hp :=
    ⟨ht.subset (h.checkpoint votes r cp hv hp).1, (h.checkpoint votes r cp hv hp).2⟩

theorem flags (h : cur.Sound P t) (sentCommit executed checkpointDone : Bool)
    (hdone : cur.checkpointDone = true → checkpointDone = true) :
    ReqInfo.Sound P { cur with sentCommit, executed, checkpointDone } t where
  preprep pp hpp := by
    obtain ⟨hmem, sv, b, hsv, hb, hdigest, hview, hseq⟩ := h.preprep pp hpp
    exact ⟨hmem, sv, b, hsv, hb, hdigest, hview, hseq.imp_left fun h => ⟨hdone h.1, h.2⟩⟩
  blank hpp := ⟨(h.blank hpp).1, hdone (h.blank hpp).2.1, (h.blank hpp).2.2⟩
  prep := h.prep
  commit := h.commit
  checkpoint := h.checkpoint

/-- A new view drops the request; the votes stay. -/
theorem drop (h : cur.Sound P t) :
    ReqInfo.Sound P { cur with checkpointDone := true, seq := { cur.seq with seq := 0 } } t where
  preprep pp hpp := by
    obtain ⟨hmem, sv, b, hsv, hb, hdigest, hview, -⟩ := h.preprep pp hpp
    exact ⟨hmem, sv, b, hsv, hb, hdigest, hview, .inl ⟨rfl, rfl⟩⟩
  blank hpp := ⟨rfl, rfl, (h.blank hpp).2.2⟩
  prep votes r p hv hp := by
    obtain ⟨hmem, n, rfl, -⟩ := h.prep votes r p hv hp
    exact ⟨hmem, n, rfl, .inl rfl⟩
  commit votes r p hv hp := by
    obtain ⟨hmem, n, rfl, -⟩ := h.commit votes r p hv hp
    exact ⟨hmem, n, rfl, .inl rfl⟩
  checkpoint votes r cp hv hp := by
    obtain ⟨hmem, hsig, -⟩ := h.checkpoint votes r cp hv hp
    exact ⟨hmem, hsig, .inl rfl⟩

/-- A request has no votes when it is accepted. -/
theorem accepted (timeout : ℕ) (sentCommit executed : Bool) (hmem : .persist (.preprepare pp) ∈ t)
    (hseq : pp.seq = some sv) (hbatch : pp.batch = some b) :
    ReqInfo.Sound P { Core.accepted P pp sv b timeout with sentCommit, executed } t where
  preprep pp' hpp' := by
    obtain rfl : pp = pp' := by simpa using hpp'
    exact ⟨hmem, sv, b, hseq, hbatch, rfl, rfl, .inr rfl⟩
  blank hpp := by simp at hpp
  prep votes r p hv hp := by
    obtain rfl : ∅ = votes := by simpa using hv
    simp at hp
  commit votes r p hv hp := by
    obtain rfl : ∅ = votes := by simpa using hv
    simp at hp
  checkpoint votes r cp hv hp := by
    obtain rfl : ∅ = votes := by simpa using hv
    simp at hp

theorem getElem?_insert_cases {α : Type} {votes : GoMap α} {src r : ℕ} {a b : α}
    (h : (votes.insert src a)[r]? = some b) : (r = src ∧ b = a) ∨ votes[r]? = some b := by
  rw [Std.ExtTreeMap.getElem?_insert] at h
  split_ifs at h with heq
  · exact .inl ⟨(Nat.compare_eq_eq.mp heq).symm, by simpa using h.symm⟩
  · exact .inr h

theorem votedBy_subject : cur.VotedBy cur.subject := ⟨cur.seq.seq, rfl, .inr rfl⟩

/-- A prepare that was received is counted. -/
theorem votePrepare (h : cur.Sound P t)
    (hrecv : .recv (.prepare cur.subject) src ∈ t) (hvotes : cur.prep = some votes) :
    ReqInfo.Sound P { cur with prep := some (votes.insert src cur.subject) } t where
  preprep := h.preprep
  blank hpp := by simp [(h.blank hpp).2.2.1] at hvotes
  prep votes' r p hv hp := by
    obtain rfl : votes.insert src cur.subject = votes' := by simpa using hv
    rcases getElem?_insert_cases hp with ⟨rfl, rfl⟩ | hold
    · exact ⟨hrecv, votedBy_subject⟩
    · exact h.prep votes r p hvotes hold
  commit := h.commit
  checkpoint := h.checkpoint

theorem voteCommit (h : cur.Sound P t)
    (hrecv : .recv (.commit cur.subject) src ∈ t) (hvotes : cur.commit = some votes) :
    ReqInfo.Sound P { cur with commit := some (votes.insert src cur.subject) } t where
  preprep := h.preprep
  blank hpp := by simp [(h.blank hpp).2.2.2.1] at hvotes
  prep := h.prep
  commit votes' r p hv hp := by
    obtain rfl : votes.insert src cur.subject = votes' := by simpa using hv
    rcases getElem?_insert_cases hp with ⟨rfl, rfl⟩ | hold
    · exact ⟨hrecv, votedBy_subject⟩
    · exact h.commit votes r p hvotes hold
  checkpoint := h.checkpoint

theorem voteCheckpoint (h : cur.Sound P t) {votes : GoMap (Checkpoint β)}
    {cp : Checkpoint β} (hrecv : .recv (.checkpoint cp) src ∈ t)
    (hsig : P.checkSig (P.bytes cp.digest) src cp.signature = true)
    (hseq : cp.seq = cur.seq.seq) (hvotes : cur.checkpoint = some votes) :
    ReqInfo.Sound P { cur with checkpoint := some (votes.insert src cp) } t where
  preprep := h.preprep
  blank hpp := by simp [(h.blank hpp).2.2.2.2.1] at hvotes
  prep := h.prep
  commit := h.commit
  checkpoint votes' r cp' hv hp := by
    obtain rfl : votes.insert src cp = votes' := by simpa using hv
    rcases getElem?_insert_cases hp with ⟨rfl, rfl⟩ | hold
    · exact ⟨hrecv, hsig, .inr hseq⟩
    · exact h.checkpoint votes r cp' hvotes hold

end ReqInfo.Sound

/-! ### Every replica's request in flight is sound -/

/-- The request in flight is sound, and so was every one before it. -/
structure Core.Sound (P : Primitives β) (c : Core β) : Prop where
  cur : c.cur.Sound P c.trace
  checked : ∀ pp, .persist (.preprepare pp) ∈ c.trace → pp.Checked P

/-- The batch in flight carries the sequence number in flight, unless the request was
dropped. -/
theorem Core.Sound.seqOf_batch (h : c.Sound P) (hpp : c.cur.preprep = some pp)
    (hb : pp.batch = some b) (hne : c.cur.seq.seq ≠ 0) :
    seqOf P b = c.cur.seq.seq := by
  obtain ⟨hmem, sv, -, hsv, -, -, -, hseq⟩ := h.cur.preprep pp hpp
  obtain ⟨sv', b', hd, hsv', hb', hdec, hhd, -⟩ := h.checked pp hmem
  obtain rfl : sv' = sv := by simpa [hsv'] using hsv
  obtain rfl : b' = b := by simpa [hb'] using hb
  rw [hseq.resolve_left fun h => hne h.2, ← hhd]
  simp [seqOf, hdec]

section Steps

theorem Core.proposal_checked (c : Core β) (data : List β) : (c.proposal P data).Checked P :=
  ⟨_, _, _, rfl, rfl, unmarshalHeader_makeBatch P _ (some _) data, rfl, rfl⟩

variable [DecidableEq β] {c c' : Core β} {c₀ : Core β}

theorem Accepts.checked (h : Accepts P c c₀ pp sv b) : pp.Checked P := by
  cases h with
  | propose data => exact c.proposal_checked data
  | preprepare _ _ hd _ _ _ hseq _ hbatch hcheck hhd =>
    obtain ⟨hdec, hdata, -⟩ := checkBatch_eq_ok P hcheck
    exact ⟨_, b, hd, hseq, hbatch, hdec, hhd, hdata rfl⟩
  | newView _ _ _ _ _ _ _ hok _ hbatch =>
    obtain ⟨-, hd, -, -, hcheck⟩ := hok.exists_checkBatch hbatch
    obtain ⟨hdec, hdata, -⟩ := checkBatch_eq_ok P hcheck
    exact ⟨_, b, hd, rfl, rfl, hdec, (seqOf_of_checkBatch P hcheck).symm, hdata rfl⟩

theorem Accepts.persisted {pp' : Preprepare β} (h : Accepts P c c₀ pp sv b)
    (hpp' : Added c.trace c₀.trace (.persist (.preprepare pp'))) : pp' = pp := by
  cases h with
  | propose => simpa using hpp'
  | preprepare | newView => simp at hpp'

/-- A preprepare is persisted only when it is accepted. -/
theorem Step.persisted (h : Step P c c')
    (hpp : Added c.trace c'.trace (.persist (.preprepare pp))) :
    ∃ c₀ sv b timeout, Accepts P c c₀ pp sv b ∧ c' = c₀.accept P pp sv b timeout := by
  cases h
  case accept c₀ pp' sv b timeout haccepts =>
    have hsuffix := haccepts.trace_suffix
    obtain rfl : pp = pp' := by
      have hcases : pp = pp' ∨ Added c.trace c₀.trace (.persist (.preprepare pp)) := by
        simpa [hsuffix] using hpp
      exact hcases.elim id haccepts.persisted
    exact ⟨c₀, sv, b, timeout, haccepts, rfl⟩
  case quiet hquiet =>
    cases quiet_of_added hquiet hpp
  case greet hes =>
    cases greeting_of_added hes hpp (by simp)
  all_goals simp at hpp

/-- One case for each step; most leave the request in flight as it is. -/
theorem Step.cur_sound (h : Step P c c') (hc : c.cur.Sound P c.trace) :
    c'.cur.Sound P c'.trace := by
  have htrace := h.frame.2.2
  have hold := hc.extend htrace
  cases h with
  | call | quiet | hello | jump | sendViewChange | sendNewView | greet => exact hold
  | accept _ _ _ _ _ haccepts =>
    exact .accepted _ _ _ (by simp) haccepts.seq_eq haccepts.batch_eq
  | acceptCommit => exact hold.flags true _ _ id
  | prepare _ _ hrecv _ hvotes => exact hold.votePrepare (htrace.subset hrecv) hvotes
  | prepareCommit _ _ hrecv _ hvotes =>
    exact (hold.votePrepare (htrace.subset hrecv) hvotes).flags true _ _ id
  | commit _ _ hrecv _ hvotes => exact hold.voteCommit (htrace.subset hrecv) hvotes
  | commitExecute _ _ hrecv _ hvotes =>
    exact (hold.voteCommit (htrace.subset hrecv) hvotes).flags _ true _ id
  | checkpoint _ _ _ hrecv _ _ hseq hsig hvotes =>
    exact hold.voteCheckpoint (htrace.subset hrecv) hsig hseq hvotes
  | checkpointDeliver _ _ _ _ _ _ hrecv _ _ hseq hsig hvotes =>
    exact (hold.voteCheckpoint (htrace.subset hrecv) hsig hseq hvotes).flags _ _ true fun _ => rfl
  | helloNewView => exact hold.flags _ _ _ fun h => by simp [h]
  | newViewNull => exact hold.drop

theorem Step.sound (h : Step P c c') (hc : c.Sound P) : c'.Sound P where
  cur := h.cur_sound hc.cur
  checked pp hpp := by
    rcases mem_or_added h.frame.2.2 hpp with hold | hnew
    · exact hc.checked pp hold
    · obtain ⟨c₀, sv, b, timeout, haccepts, -⟩ := h.persisted hnew
      exact haccepts.checked

end Steps

theorem restorePreprepare_mem (h : restorePreprepare t = some pp) :
    .persist (.preprepare pp) ∈ t := by
  obtain ⟨e, he, heq⟩ := exists_of_findSome?_eq_some h
  split at heq
  · cases heq
    exact he
  · cases heq

theorem Restarted.sound {id : ℕ} (h : Restarted P cfg id t c)
    (ht : ∀ pp, .persist (.preprepare pp) ∈ t → pp.Checked P) : c.Sound P := by
  cases h with
  | idle =>
    refine ⟨⟨by simp [SBFT.blank], ?_, by simp [SBFT.blank], by simp [SBFT.blank],
      by simp [SBFT.blank]⟩, by simpa using ht⟩
    exact fun _ => ⟨rfl, rfl, rfl, rfl, rfl, rfl⟩
  | inFlight _ _ _ _ _ _ _ _ hpp hseq hbatch =>
    refine ⟨.accepted _ _ _ mem_cons_self hseq hbatch, fun pp' hpp' => ht pp' ?_⟩
    rcases mem_cons.mp hpp' with heq | hmem
    · cases heq
      exact restorePreprepare_mem hpp
    · simpa using hmem

/-- The request in flight is sound over whole runs, also over restarts. -/
theorem Alone.sound [DecidableEq β] {id : ℕ} {r : Prop} (h : Alone P cfg id r c) : c.Sound P := by
  refine h.induction_restart
    (ψ := fun e _ => ∀ pp, e = .persist (.preprepare pp) → pp.Checked P)
    (always_iff_forall_mem.mpr fun _ _ => trivial) (fun _ _ _ => trivial) ?_ ?_ ?_ ?_
  · exact fun c hc => always_iff_forall_mem.mpr fun e he pp hpp => hc.checked pp (hpp ▸ he)
  · exact fun t c hc _ ht => hc.sound fun pp hpp => always_iff_forall_mem.mp ht _ hpp pp rfl
  · exact fun c m src _ hc => ⟨hc.cur.extend (suffix_cons _ _), by simpa using hc.checked⟩
  · exact fun c c' _ _ hc hstep => hstep.sound hc

/-! ### Who voted -/

section Senders

variable [DecidableEq β]

/-- The replicas that a message was received from. -/
def senders (t : List (Event β)) (m : Msg β) : Finset ℕ :=
  (t.filterMap fun | .recv m' src => if m' = m then some src else none | _ => none).toFinset

theorem mem_senders {m : Msg β} {r : ℕ} : r ∈ senders t m ↔ .recv m r ∈ t := by
  simp only [senders, mem_toFinset, mem_filterMap]
  constructor
  · rintro ⟨e, he, heq⟩
    split at heq
    · split_ifs at heq with hm
      obtain rfl := hm
      cases heq
      exact he
    · cases heq
  · exact fun h => ⟨_, h, by simp⟩

theorem senders_subset {t t' : List (Event β)} (h : t <:+ t') (m : Msg β) :
    senders t m ⊆ senders t' m := by
  intro r hr
  rw [mem_senders] at hr ⊢
  exact h.subset hr

theorem size_le_card {α : Type} {votes : GoMap α} {S : Finset ℕ}
    (h : ∀ r p, votes[r]? = some p → r ∈ S) : votes.size ≤ S.card := by
  rw [← Std.ExtTreeMap.length_keys, ← toFinset_card_of_nodup Std.ExtTreeMap.nodup_keys]
  refine Finset.card_le_card fun r hr => ?_
  rw [mem_toFinset, Std.ExtTreeMap.mem_keys] at hr
  obtain ⟨p, hp⟩ := Option.isSome_iff_exists.mp (Std.ExtTreeMap.mem_iff_isSome_getElem?.mp hr)
  exact h r p hp

variable {c : Core β} {votes : GoMap (Subject β)} {src : ℕ}

/-- Counted commits come from as many replicas. -/
theorem Core.Sound.card_commits (h : c.Sound P)
    (hrecv : .recv (.commit c.cur.subject) src ∈ c.trace) (hvotes : c.cur.commit = some votes)
    (hne : c.cur.seq.seq ≠ 0) : (votes.insert src c.cur.subject).size ≤
      (senders c.trace (.commit c.cur.subject)).card := by
  refine size_le_card fun r p hp => mem_senders.mpr ?_
  obtain ⟨hmem, hvoted⟩ := (h.cur.voteCommit hrecv hvotes).commit _ r p rfl hp
  exact hvoted.eq_subject hne ▸ hmem

end Senders

end Fabric.Sbft
