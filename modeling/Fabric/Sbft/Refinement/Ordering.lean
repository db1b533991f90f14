import Fabric.Sbft.Panics

/-!
# The ordering handlers refine the core

Each handler of `Ordering` takes a replica from a state to one that its core reaches
by steps.

## Main definitions

- `Tracks`: the core reaches the state by steps; `Leaves`: the same where a handler panics

## Main results

- `handleQueueableMessage_tracks`: the ordering handlers
- `processBacklog_preserves`: a rule for the backlog, and `processBacklog_follows` by it
-/

namespace Fabric.Sbft

open Fabric.Common List Std.ExtTreeMap

variable {β : Type}

/-! ### Elementary operations -/

section Elementary

variable {α : Type} {s : Replica β} {E : Panic → Replica β → Prop} {Q : Unit → Replica β → Prop}

@[simp] theorem ends_emit (e : Event β) :
    Ends (emit e) s Q E ↔ Q () { s with trace := e :: s.trace } := Iff.rfl

@[simp] theorem ends_enter (k : Call β) :
    Ends (enter k) s Q E ↔ Q () { s with trace := .call k s.status :: s.trace } := Iff.rfl

@[simp] theorem ends_modifyCur (f : ReqInfo β → ReqInfo β) :
    Ends (modifyCur f) s Q E ↔ Q () { s with cur := f s.cur } := Iff.rfl

@[simp] theorem ends_broadcast (m : Msg β) : Ends (broadcast m) s Q E ↔
    Q () { s with trace := broadcastEvents s.config.N m ++ s.trace } := Iff.rfl

@[simp] theorem ends_cancelTimer (timer : Option ℕ) : Ends (cancelTimer timer) s Q E ↔
    Q () { s with timers := s.timers.filter fun t => some t.1 ≠ timer } := Iff.rfl

@[simp] theorem ends_cancelViewChangeTimer : Ends cancelViewChangeTimer s Q E ↔
    Q () { s with timers := s.timers.filter fun t => some t.1 ≠ s.viewChangeTimer } := Iff.rfl

@[simp] theorem ends_startTimer (fn : TimerFn) {Q : ℕ → Replica β → Prop} :
    Ends (startTimer fn) s Q E ↔ Q s.nextTimer
      { s with timers := (s.nextTimer, fn) :: s.timers, nextTimer := s.nextTimer + 1 } := Iff.rfl

@[simp] theorem ends_rangeOrder (entries : List α) {Q : List α → Replica β → Prop} :
    Ends (rangeOrder entries) s Q E ↔ Q (reorder (s.choices.take entries.length) entries)
      { s with choices := s.choices.drop entries.length } := Iff.rfl

@[simp] theorem ends_sendCommit : Ends sendCommit s Q E ↔ Q () { s with
      cur := { s.cur with sentCommit := true }
      trace := broadcastEvents s.config.N (.commit s.cur.subject) ++
        .persist (.commit s.cur.subject) :: s.trace } := Iff.rfl

theorem ends_deref (o : Option α) {Q : α → Replica β → Prop} :
    Ends (deref o) s Q E ↔ (∀ a, o = some a → Q a s) ∧ (o = none → E .nilDereference s) := by
  cases o <;> simp [deref]

theorem ends_liftE (x : Except Panic α) {Q : α → Replica β → Prop} :
    Ends (liftE x) s Q E ↔ (∀ a, x = .ok a → Q a s) ∧ (∀ e, x = .error e → E e s) := by
  cases x <;> simp [liftE]

theorem ends_replicaInfo (src : ℕ) {Q : ReplicaInfo β → Replica β → Prop} :
    Ends (replicaInfo src) s Q E ↔ (∀ info, s.replicaState[src]? = some info → Q info s) ∧
      (s.replicaState[src]? = none → E .indexOutOfRange s) := by
  unfold replicaInfo
  rw [ends_bind, ends_get]
  cases h : s.replicaState[src]? <;> simp

theorem ends_modifyInfo (src : ℕ) (f : ReplicaInfo β → ReplicaInfo β) :
    Ends (modifyInfo src f) s Q E ↔
      (src < s.replicaState.length → Q () { s with replicaState := s.replicaState.modify src f }) ∧
      (s.replicaState.length ≤ src → E .indexOutOfRange s) := by
  unfold modifyInfo
  rw [ends_bind, ends_replicaInfo]
  simp only [List.getElem?_eq_none_iff]
  refine and_congr_left fun _ => ⟨fun h hlt => ?_, fun h info hinfo => ?_⟩
  · exact h _ (List.getElem?_eq_getElem hlt)
  · exact h (List.getElem?_eq_some_iff.mp hinfo).1

end Elementary

/-! ### Reading the chain -/

variable {pp : Preprepare β} {b : Batch β} {src : ℕ} {Q : Unit → Replica β → Prop} {sv : SeqView}

section Chain

variable {P : Primitives β} {s : Replica β} {E : Panic → Replica β → Prop}

theorem ends_seq {Q : ℕ → Replica β → Prop} (hQ : Q (lastSeq P s.trace) s)
    (hE : E .decodeHeader s) :
    Ends (seq P) s Q E := by
  unfold seq
  rw [ends_bind, ends_get, ends_bind, ends_liftE]
  refine ⟨fun hd hhd => ?_, fun e he => ?_⟩
  swap
  · unfold decodeHeader at he
    split at he <;> cases he
    exact hE
  have hseq : lastSeq P s.trace = hd.seq := (decodeHeader_eq_ok P hhd).2
  simpa [hseq] using hQ

theorem ends_nextSeq {Q : SeqView → Replica β → Prop} (hQ : Q (s.core.next P) s)
    (hE : E .decodeHeader s) :
    Ends (nextSeq P) s Q E := by
  unfold nextSeq
  rw [ends_bind]
  exact ends_seq hQ hE

theorem ends_acceptPreprepare (hseq : pp.seq = some sv) (hbatch : pp.batch = some b) :
    Ends (acceptPreprepare P pp) s Q E ↔ Q () { s with
      cur := Core.accepted P pp sv b s.nextTimer
      timers := (s.nextTimer, .requestTimeout) :: s.timers
      nextTimer := s.nextTimer + 1
      trace := .persist (.preprepare pp) :: s.trace } := by
  simp [acceptPreprepare, deref, hseq, hbatch, Core.accepted]

end Chain

@[simp] theorem Replica.core_primaryID (s : Replica β) : s.core.primaryID = s.primaryID := rfl

variable [DecidableEq β] {P : Primitives β} {backlog : M β Unit}

/-! ### Tracking a core -/

/-- What is stored about others stems from the history: queued messages and new views were received,
and the latter checked. A replica queues no messages of its own. -/
structure Supported (P : Primitives β) (s : Replica β) : Prop where
  backLog : ∀ src info m, s.replicaState[src]? = some info → m ∈ info.backLog →
    .recv m src ∈ s.trace
  newview : ∀ src info nv, s.replicaState[src]? = some info → info.newview = some nv →
    .recv (.newView nv) src ∈ s.trace ∧ src = nv.view % s.config.N ∧ nv.Acceptable P s.config
  own : ∀ info, s.replicaState[s.id]? = some info → info.backLog = []

/-- What is stored about one replica stems from the history. -/
def Backs (P : Primitives β) (s : Replica β) (src : ℕ) (info : ReplicaInfo β) : Prop :=
  (∀ m ∈ info.backLog, .recv m src ∈ s.trace) ∧
  (∀ nv, info.newview = some nv → .recv (.newView nv) src ∈ s.trace ∧ src = nv.view % s.config.N ∧
    nv.Acceptable P s.config) ∧ (src = s.id → info.backLog = [])

/-- The replica is in a state that its core reaches from `c₀` by steps. -/
def Tracks (P : Primitives β) (c₀ : Core β) (s : Replica β) : Prop :=
  Supported P s ∧ Steps P c₀ s.core

/-- The history is one that the core reaches from `c₀`, where it may stop with the panic `e`. -/
def Leaves (P : Primitives β) (c₀ : Core β) (e : Panic) (s : Replica β) : Prop :=
  ∃ c, Steps P c₀ c ∧ c.trace = s.trace ∧ c.Stops P e

section Tracking

variable {c₀ : Core β} {s s' : Replica β}

theorem supported_iff : Supported P s ↔
    ∀ src info, s.replicaState[src]? = some info → Backs P s src info := by
  constructor
  · intro h src info hinfo
    exact ⟨fun m => h.backLog src info m hinfo, fun nv => h.newview src info nv hinfo,
      fun hself => h.own info (hself ▸ hinfo)⟩
  · intro h
    exact ⟨fun src info m hinfo => (h src info hinfo).1 m,
      fun src info nv hinfo => (h src info hinfo).2.1 nv,
      fun info hinfo => (h _ info hinfo).2.2 rfl⟩

theorem Supported.extend (h : Supported P s) (hstate : s'.replicaState = s.replicaState)
    (hcfg : s'.config = s.config) (hid : s'.id = s.id) (htrace : s.trace <:+ s'.trace) :
    Supported P s' where
  backLog src info m hinfo hm := htrace.subset (h.backLog src info m (hstate ▸ hinfo) hm)
  newview src info nv hinfo hnv := by
    obtain ⟨hrecv, hsrc, hok⟩ := h.newview src info nv (hstate ▸ hinfo) hnv
    exact ⟨htrace.subset hrecv, hcfg ▸ hsrc, hcfg ▸ hok⟩
  own info hinfo := h.own info (hid ▸ hstate ▸ hinfo)

theorem Tracks.leaves {e : Panic} (h : Tracks P c₀ s) (he : s.core.Stops P e) :
    Leaves P c₀ e s := ⟨s.core, h.2, rfl, he⟩

theorem Tracks.congr (h : Tracks P c₀ s) (hcore : s'.core = s.core)
    (hstate : s'.replicaState = s.replicaState) : Tracks P c₀ s' := by
  have htrace : s'.trace = s.trace := congrArg Core.trace hcore
  exact ⟨h.1.extend hstate (congrArg Core.config hcore) (congrArg Core.id hcore)
    (htrace ▸ suffix_refl _), hcore ▸ h.2⟩

theorem Tracks.steps (h : Tracks P c₀ s) (hsteps : Steps P s.core s'.core)
    (hstate : s'.replicaState = s.replicaState) : Tracks P c₀ s' :=
  ⟨h.1.extend hstate hsteps.frame.1 hsteps.frame.2.1 hsteps.frame.2.2, h.2.trans hsteps⟩

theorem Tracks.step (h : Tracks P c₀ s) (hstep : Step P s.core s'.core)
    (hstate : s'.replicaState = s.replicaState) : Tracks P c₀ s' :=
  h.steps (.single hstep) hstate

theorem Tracks.call (h : Tracks P c₀ s) (k : Call β) :
    Tracks P c₀ { s with trace := .call k s.status :: s.trace } :=
  h.step (.call s.core k) rfl

end Tracking

/-- The program follows the steps of the core. -/
def Follows {α : Type} (P : Primitives β) (x : M β α) : Prop :=
  ∀ c₀, Preserves (Tracks P c₀) (Leaves P c₀) x

/-! ### Voting -/

section Voting

variable {c₀ : Core β} {s : Replica β} {p : Subject β}

theorem handlePrepare_tracks (h : Tracks P c₀ s)
    (hrecv : .recv (.prepare p) src ∈ s.trace) (hactive : s.activeView = true) :
    Ends (handlePrepare p src) s (fun _ => Tracks P c₀) (Leaves P c₀) := by
  have hcall := h.call (.handlePrepare p src)
  unfold handlePrepare
  simp only [ends_bind, ends_deref, ends_ite]
  refine ⟨fun sv hsv => ⟨fun _ => hcall, fun _ => ⟨fun _ => hcall, fun hp => ?_⟩⟩,
    fun _ => hcall.leaves trivial⟩
  obtain rfl : p = s.cur.subject := not_not.mp hp
  cases hprep : s.cur.prep with
  | none => exact hcall.leaves trivial
  | some votes =>
    simp only [ends_bind, ends_ite, maybeSendCommit]
    refine ⟨fun _ => hcall, fun _ => ⟨fun _ => ?_, fun hready => ?_⟩⟩
    · exact h.step (.prepare s.core src votes hrecv hactive hprep) rfl
    · simp only [not_or, Bool.not_eq_true, not_lt] at hready
      exact h.step (.prepareCommit s.core src votes hrecv hactive hprep hready.1 hready.2) rfl

theorem handleCommit_tracks (h : Tracks P c₀ s)
    (hrecv : .recv (.commit p) src ∈ s.trace) (hactive : s.activeView = true) :
    Ends (handleCommit P p src) s (fun _ => Tracks P c₀) (Leaves P c₀) := by
  have hcall := h.call (.handleCommit p src)
  unfold handleCommit
  simp only [ends_bind, ends_deref, ends_ite]
  refine ⟨fun sv hsv => ⟨fun _ => hcall, fun _ => ⟨fun _ => hcall, fun hp => ?_⟩⟩,
    fun _ => hcall.leaves trivial⟩
  obtain rfl : p = s.cur.subject := not_not.mp hp
  cases hcommit : s.cur.commit with
  | none => exact hcall.leaves trivial
  | some votes =>
    simp only [ends_bind, ends_ite, maybeExecute]
    refine ⟨fun _ => hcall, fun _ => ⟨fun _ => ?_, fun hready => ?_⟩⟩
    · exact h.step (.commit s.core src votes hrecv hactive hcommit) rfl
    · simp only [not_or, Bool.not_eq_true, not_lt] at hready
      exact h.step (.commitExecute s.core src votes hrecv hactive hcommit hready.1 hready.2) rfl

end Voting

/-! ### Proposals -/

section Proposals

variable {c₀ : Core β} {s : Replica β}

/-- Accepting a proposal is a step; a group in which no prepare is needed commits at once. -/
theorem handleCheckedPreprepare_tracks (hsup : Supported P s)
    (hseq : pp.seq = some sv) (hbatch : pp.batch = some b) (hview : sv.view = s.view)
    (hready : s.activeView = true ∨ s.core.primaryID ≠ s.core.id)
    (hsteps : ∀ timeout, Steps P c₀ (s.core.accept P pp sv b timeout)) :
    Ends (handleCheckedPreprepare P pp) s (fun _ => Tracks P c₀) (Leaves P c₀) := by
  -- the state after the acceptance, with or without the vote
  have haccept : ∀ s', s'.replicaState = s.replicaState →
      s'.core = s.core.accept P pp sv b s.nextTimer →
      Ends maybeSendCommit s' (fun _ => Tracks P c₀) (Leaves P c₀) := by
    intro s' hstate hcore
    have htracks : Tracks P c₀ s' := by
      refine ⟨hsup.extend hstate (congrArg Core.config hcore) (congrArg Core.id hcore) ?_,
        hcore ▸ hsteps _⟩
      have htrace : s'.trace = _ := congrArg Core.trace hcore
      rw [htrace]
      simp
    have hcur : s'.cur = Core.accepted P pp sv b s.nextTimer := congrArg Core.cur hcore
    have hid : s'.core.primaryID = s.core.primaryID ∧ s'.core.id = s.core.id := by
      rw [hcore]
      exact ⟨rfl, rfl⟩
    unfold maybeSendCommit
    simp only [ends_bind, ends_ite]
    refine ⟨fun _ => htracks, fun hq => htracks.step ?_ rfl⟩
    rw [hcur] at hq
    have hquorum : s'.config.noFaultyQuorum - 1 = 0 := by
      simp only [not_or, not_lt] at hq
      exact Nat.le_zero.mp hq.2
    refine .acceptCommit s'.core ?_ ?_ hquorum ?_ (congrArg ReqInfo.checkpointDone hcur) ?_
    · exact congrArg ReqInfo.sentCommit hcur
    · exact congrArg ReqInfo.prep hcur
    · have hviews : s'.core.view = s.view := congrArg Core.view hcore
      rw [hviews, ← hview]
      exact congrArg (fun cur => cur.seq.view) hcur
    · rw [hid.1, hid.2]
      have hactive := congrArg Core.activeView hcore
      exact hactive ▸ hready
  unfold handleCheckedPreprepare
  simp only [ends_bind, ends_acceptPreprepare hseq hbatch, ends_ite]
  refine ⟨fun hprimary => haccept _ rfl ?_, fun hprimary => haccept _ rfl ?_⟩
  · have hne : s.core.primaryID ≠ s.core.id := fun heq => hprimary (decide_eq_true heq)
    simp only [Core.accept, Core.voteEvents, if_neg hne]
    rfl
  · have heq : s.core.primaryID = s.core.id := of_decide_eq_true (not_not.mp hprimary)
    simp only [Core.accept, Core.voteEvents, if_pos heq]
    rfl

/-- A preprepare is accepted from the primary only, and for the next sequence number. -/
theorem handlePreprepare_tracks (h : Tracks P c₀ s) (hrecv : .recv (.preprepare pp) src ∈ s.trace)
    (hready : s.activeView = true ∨ s.cur.checkpointDone = true) :
    Ends (handlePreprepare P pp src) s (fun _ => Tracks P c₀) (Leaves P c₀) := by
  have hcall := h.call (.handlePreprepare pp src)
  unfold handlePreprepare
  simp only [ends_bind, ends_enter, ends_get, ends_ite]
  refine ⟨fun _ => hcall, fun hself => ⟨fun _ => hcall,
    fun hsrc => ends_nextSeq ?_ (hcall.leaves trivial)⟩⟩
  obtain rfl := not_not.mp hsrc
  simp only [ends_deref]
  refine ⟨fun sv hseq => ⟨fun _ => hcall, fun hsv => ⟨fun _ => hcall, fun hcur => ?_⟩⟩,
    fun _ => hcall.leaves trivial⟩
  obtain rfl := not_not.mp hsv
  cases hbatch : pp.batch with
  | none => exact hcall
  | some b =>
    dsimp only
    cases hcheck : checkBatch P s.config b true false with
    | error => exact hcall
    | ok hd =>
      simp only [ends_ite]
      refine ⟨fun _ => hcall, fun hhd => ⟨fun _ => hcall, fun hprev => ?_⟩⟩
      refine handleCheckedPreprepare_tracks hcall.1 hseq hbatch rfl ?_ fun timeout => ?_
      · exact .inr fun heq => hself heq
      · refine hcall.2.tail (.accept _ _ pp _ b timeout (.preprepare pp b hd ?_ ?_ hready hseq hcur
          hbatch hcheck (not_not.mp hhd) (not_not.mp hprev)))
        · exact mem_cons_of_mem _ hrecv
        · exact fun heq => hself heq

theorem sendPreprepare_tracks {batch : List (Request β)} (h : Tracks P c₀ s)
    (hprimary : s.isPrimary = true) (hactive : s.activeView = true)
    (hdone : s.cur.checkpointDone = true) :
    Ends (sendPreprepare P batch) s (fun _ => Tracks P c₀) (Leaves P c₀) := by
  unfold sendPreprepare
  rw [ends_bind]
  refine ends_nextSeq ?_ (h.leaves trivial)
  simp only [ends_bind]
  refine handleCheckedPreprepare_tracks
    (h.1.extend rfl rfl rfl ?_) rfl rfl rfl (.inl hactive) fun timeout => ?_
  · simp
  · refine h.2.tail ?_
    have hstep := Step.accept (P := P) _ _ _ _ _ timeout (.propose (c := s.core)
      (batch.map Request.payload) (of_decide_eq_true hprimary) hactive hdone)
    simp only [Core.push, append_assoc] at hstep
    exact hstep

theorem maybeSendNextBatch_follows : Follows P (maybeSendNextBatch P) := by
  intro c₀ s h
  unfold maybeSendNextBatch
  simp only [ends_bind, ends_ite]
  refine ⟨fun _ => h.congr rfl rfl, fun hprimary => ⟨fun _ => h.congr rfl rfl, fun hdone => ?_⟩⟩
  simp only [not_or, not_not] at hprimary hdone
  refine ⟨fun _ => ⟨fun _ => h.congr rfl rfl, fun _ => ?_⟩,
    fun _ => ⟨fun _ => h.congr rfl rfl, fun _ => ?_⟩⟩
  all_goals exact sendPreprepare_tracks (h.congr rfl rfl) hprimary.1 hprimary.2 hdone

end Proposals

/-! ### Checkpoints -/

section Checkpoints

variable {c₀ : Core β} {s : Replica β}

theorem deliverBatch_ends {E : Panic → Replica β → Prop} :
    Ends (deliverBatch P b) s Q E ↔ Q () { s with
      pending := b.payloads.foldl (fun p d => p.erase (P.hash d)) s.pending
      trace := .deliver b :: s.trace } := Iff.rfl

/-- A digest that is chosen has enough checkpoints. -/
theorem weakDigest_some {quorum : ℕ} {entries : List (ℕ × Checkpoint β)} {seen : List β}
    {max : Option β} {sum : β} (hmax : ∀ d, max = some d → quorum ≤ seen.count d)
    (h : weakDigest P quorum entries seen max = some sum) :
    quorum ≤ seen.count sum + (entries.filter fun e => P.bytes e.2.digest = sum).length := by
  induction entries generalizing seen max with
  | nil => exact Nat.le_add_right_of_le (hmax sum h)
  | cons e _ ih =>
    have hstep : ∀ d, (if quorum ≤ (P.bytes e.2.digest :: seen).count (P.bytes e.2.digest)
        then some (P.bytes e.2.digest) else max) = some d →
        quorum ≤ (P.bytes e.2.digest :: seen).count d := by
      intro d hd
      split_ifs at hd with hq
      · cases hd
        exact hq
      · exact (hmax d hd).trans count_le_count_cons
    have hrest := ih hstep h
    by_cases heq : P.bytes e.2.digest = sum
    · simp only [count_cons, heq, beq_self_eq_true, if_true] at hrest
      simp only [filter_cons, heq, decide_true, if_true, length_cons]
      omega
    · simpa [heq] using hrest

theorem handleCheckpoint_tracks {cp : Checkpoint β}
    (hbacklog : Preserves (Tracks P c₀) (Leaves P c₀) backlog) (h : Tracks P c₀ s)
    (hrecv : .recv (.checkpoint cp) src ∈ s.trace) (hactive : s.activeView = true) :
    Ends (handleCheckpoint P backlog cp src) s (fun _ => Tracks P c₀) (Leaves P c₀) := by
  have hcall := h.call (.handleCheckpoint cp src)
  unfold handleCheckpoint
  simp only [ends_bind, ends_ite]
  refine ⟨fun _ => hcall, fun hdone => ⟨fun _ => hcall, fun _ => ⟨fun _ => hcall, fun hsig =>
    ⟨fun _ => hcall, fun hseq => ?_⟩⟩⟩⟩
  replace hdone : s.cur.checkpointDone = false := Bool.not_eq_true _ ▸ hdone
  replace hsig := not_not.mp hsig
  replace hseq := not_not.mp hseq
  cases hvotes : s.cur.checkpoint with
  | none => exact hcall.leaves trivial
  | some votes =>
    simp only [ends_bind, ends_modifyCur, ends_rangeOrder]
    have hvote : Tracks P c₀ { s with
        cur := { s.cur with checkpoint := some (votes.insert src cp) }
        trace := .call (.handleCheckpoint cp src) s.status :: s.trace } := h.step
      (.checkpoint s.core cp src votes hrecv hactive hdone hseq hsig hvotes) rfl
    generalize hentries : reorder _ (votes.insert src cp).toList = entries
    have hperm : entries.Perm (votes.insert src cp).toList := hentries ▸ reorder_perm _ _
    split
    · exact hvote.congr rfl rfl
    · rename_i sum hsum
      have hquorum := weakDigest_some (by simp) hsum
      simp only [count_nil, Nat.zero_add] at hquorum
      have hmem : ∀ e ∈ entries.filter fun e => P.bytes e.2.digest = sum,
          (votes.insert src cp)[e.1]? = some e.2 ∧ P.bytes e.2.digest = sum := by
        intro e he
        obtain ⟨hmem, hsum⟩ := mem_filter.mp he
        refine ⟨?_, of_decide_eq_true hsum⟩
        exact mem_toList_iff_getElem?_eq_some.mp (hperm.mem_iff.mp hmem)
      have hnodup : ((entries.filter fun e => P.bytes e.2.digest = sum).map Prod.fst).Nodup := by
        refine List.Nodup.sublist (filter_sublist.map _) ?_
        rw [(hperm.map Prod.fst).nodup_iff, map_fst_toList_eq_keys]
        exact nodup_keys
      simp only [ends_bind, ends_ite, ends_deref]
      refine ⟨fun hhead => ⟨_, hcall.2, rfl, ?_⟩, fun hhead => ⟨fun pp hpp => ⟨fun b hbatch => ?_,
        fun _ => ⟨_, hcall.2, rfl, trivial⟩⟩, fun _ => ⟨_, hcall.2, rfl, trivial⟩⟩⟩
      · -- the first replica of the quorum vouches for another digest
        obtain ⟨e, he⟩ := exists_mem_of_length_pos (Nat.zero_lt_of_lt hquorum)
        cases hreplicas : entries.filter fun e => P.bytes e.2.digest = sum with
        | nil => simp [hreplicas] at he
        | cons e' =>
          refine ⟨cp, src, s.trace, votes, _, sum, rfl, hrecv, hdone, hseq, hsig, hvotes, hmem,
            hnodup, hquorum, e', by simp [hreplicas], fun heq => hhead ?_⟩
          rw [hreplicas, List.head?_cons, Option.map_some, heq]
          rfl
      simp only [deliverBatch_ends, ends_cancelTimer]
      -- the digest of the quorum is that of the request in flight
      have hdigest : sum = P.bytes s.cur.digest := by
        obtain ⟨e, he, heq⟩ := Option.map_eq_some_iff.mp (not_not.mp hhead)
        have hmem := mem_of_mem_head? he
        rw [← heq]
        exact (of_decide_eq_true (mem_filter.mp hmem).2).symm
      have hdeliver : Tracks P c₀ { s with
          cur := { s.cur with checkpoint := some (votes.insert src cp), checkpointDone := true }
          trace := .deliver { b with
            signatures := ofList ((entries.filter fun e =>
              P.bytes e.2.digest = sum).map fun e => (e.1, e.2.signature)) } ::
            .call (.handleCheckpoint cp src) s.status :: s.trace } := by
        refine h.step (.checkpointDeliver s.core cp src votes _ pp b hrecv hactive hdone hseq hsig
          hvotes (fun e he => ?_) hnodup hquorum hpp hbatch) rfl
        exact hdigest ▸ hmem e he
      refine Ends.imp (maybeSendNextBatch_follows c₀ _ ?_) fun _ s' h' => hbacklog s' h'
      exact hdeliver.congr rfl rfl

end Checkpoints

/-! ### The backlog -/

section Backlog

variable {c₀ : Core β} {s : Replica β}

/-- What holds when a message is not put off. -/
def Ready (s : Replica β) : Msg β → Prop
  | .preprepare _ => s.activeView = true ∨ s.cur.checkpointDone = true
  | .prepare _ | .commit _ | .checkpoint _ => s.activeView = true
  | _ => True

omit [DecidableEq β] in
theorem record_ends {sv : Option SeqView} {E : Panic → Replica β → Prop}
    (hE : E .nilDereference s) :
    Ends (record sv) s (fun ahead s' => s = s' ∧ (ahead = true ↔ s.core.LiesAhead sv)) E := by
  unfold record
  simp only [ends_bind, ends_get, ends_ite, ends_pure, ends_deref]
  refine ⟨fun hactive => ⟨trivial, ?_⟩, fun hactive => ⟨fun p hp => ⟨trivial, ?_⟩, fun _ => hE⟩⟩
  · simp [Core.LiesAhead, hactive]
  · simp [Core.LiesAhead, hp, not_not.mp hactive]

omit [DecidableEq β] in
theorem testBacklogMessage_ends (m : Msg β) {E : Panic → Replica β → Prop}
    (hE : E .nilDereference s) :
    Ends (testBacklogMessage m) s (fun wait s' => s = s' ∧ (wait = true ↔ s.core.Defers m)) E := by
  unfold testBacklogMessage
  split
  · simp only [ends_bind]
    refine (record_ends hE).imp ?_
    rintro ahead _ ⟨rfl, hahead⟩
    refine ⟨rfl, ?_⟩
    rw [Bool.and_eq_true_iff, hahead, Bool.not_eq_true_eq_eq_false]
    rfl
  · exact record_ends hE
  · exact record_ends hE
  · refine (record_ends hE).imp ?_
    rintro ahead _ ⟨rfl, hahead⟩
    exact ⟨rfl, hahead.trans (by simp [Core.LiesAhead, Core.Defers])⟩
  · rename_i hpp hp hc hcp
    refine ⟨rfl, ?_⟩
    cases m with
    | preprepare pp => exact absurd rfl (hpp pp)
    | prepare p => exact absurd rfl (hp p)
    | commit c => exact absurd rfl (hc c)
    | checkpoint cp => exact absurd rfl (hcp cp)
    | _ => simp [Core.Defers]

section Rules

variable {I : Replica β → Prop} {E : Panic → Replica β → Prop} {handle : Msg β → ℕ → M β Unit}

/-- A panic on malformed data is admitted wherever the invariant held last. -/
def Admits (I : Replica β → Prop) (E : Panic → Replica β → Prop) : Prop :=
  ∀ e s s', I s → s'.trace = s.trace → e.OnData → E e s'

/-- The invariant is kept when the first message of a queue leaves it and is handled. -/
def Pops (I : Replica β → Prop) (E : Panic → Replica β → Prop) (handle : Msg β → ℕ → M β Unit) :
    Prop :=
  ∀ s src info m rest, I s → s.replicaState[src]? = some info → info.backLog = m :: rest →
    ¬ s.core.Defers m → Ends (handle m src) { s with
      replicaState := s.replicaState.modify src fun info => { info with backLog := rest } }
      (fun _ => I) E

omit [DecidableEq β] in
/-- Induction on the fuel; each message is handled with the rest still queued. -/
theorem drain_preserves (hE : Admits I E) (hpop : Pops I E handle) (src n : ℕ) :
    Preserves I E (drain handle src n) := by
  induction n with
  | zero => exact .pure _
  | succ _ ih =>
    intro s h
    unfold drain
    simp only [ends_bind, ends_replicaInfo]
    refine ⟨fun info hinfo => ?_, fun _ => hE _ s s h rfl (by decide)⟩
    cases hlog : info.backLog with
    | nil => exact h
    | cons m rest =>
      simp only [ends_bind]
      apply (testBacklogMessage_ends m (hE _ s s h rfl (by decide))).imp
      rintro wait _ ⟨rfl, hwaits⟩
      simp only [ends_ite, ends_bind]
      refine ⟨fun _ => h, fun hwait => ?_⟩
      rw [ends_modifyInfo]
      refine ⟨fun _ => ?_, fun _ => hE _ s s h rfl (by decide)⟩
      exact (hpop s src info m rest h hinfo hlog (mt hwaits.mpr hwait)).imp fun _ s' h' => ih s' h'

omit [DecidableEq β] in
theorem drainAll_preserves (hE : Admits I E) (hpop : Pops I E handle) (srcs : List ℕ) :
    Preserves I E (drainAll handle srcs) := by
  induction srcs with
  | nil => exact .pure _
  | cons src _ ih =>
    intro s h
    unfold drainAll
    simp only [ends_bind, ends_replicaInfo]
    refine ⟨fun info _ => ?_, fun _ => hE _ s s h rfl (by decide)⟩
    exact (drain_preserves hE hpop src _ s h).imp fun _ s' h' => ih s' h'

/-- What the handler keeps is kept by working off all backlogs. The handler itself may do so. -/
theorem processBacklog_preserves (hE : Admits I E) (hpop : ∀ backlog, Preserves I E backlog →
    Pops I E (handleQueueableMessage P backlog)) : Preserves I E (processBacklog P) := by
  have hfuel : ∀ n, Preserves I E (processBacklogFuel P n) := by
    intro n
    induction n with
    | zero => exact .pure _
    | succ _ ih =>
      intro s h
      unfold processBacklogFuel
      simp only [ends_bind, ends_ite]
      exact (drainAll_preserves hE (hpop _ ih) _ s h).imp
        fun _ s' h' => ⟨fun _ => ih s' h', fun _ => h'⟩
  intro s h
  unfold processBacklog
  rw [ends_bind]
  exact hfuel _ s h

theorem admits_leaves : Admits (Tracks P c₀) (Leaves P c₀) :=
  fun _ s _ h htrace he => ⟨s.core, h.2, htrace.symm, Core.stops_of_onData he⟩

end Rules

omit [DecidableEq β] in
theorem ready_of_not_defers {m : Msg β} (h : ¬ s.core.Defers m) : Ready s m := by
  have hactive : ∀ sv, ¬ s.core.LiesAhead sv → s.activeView = true := by
    intro sv hsv
    simpa using (not_or.mp hsv).1
  cases m with
  | preprepare pp =>
    by_cases hahead : s.core.LiesAhead pp.seq
    · right
      simpa [Core.Defers, hahead] using h
    · exact .inl (hactive _ hahead)
  | prepare p | commit p => exact hactive p.seq h
  | checkpoint => exact (Bool.not_eq_false s.activeView).mp h
  | _ => trivial

/-- Messages that may be queued, when it is their turn. -/
theorem handleQueueableMessage_tracks
    (hbacklog : Preserves (Tracks P c₀) (Leaves P c₀) backlog) {m : Msg β} (h : Tracks P c₀ s)
    (hrecv : .recv m src ∈ s.trace) (hready : Ready s m) :
    Ends (handleQueueableMessage P backlog m src) s (fun _ => Tracks P c₀) (Leaves P c₀) := by
  unfold handleQueueableMessage
  split
  · exact handlePreprepare_tracks h hrecv hready
  · exact handlePrepare_tracks h hrecv hready
  · exact handleCommit_tracks h hrecv hready
  · exact handleCheckpoint_tracks hbacklog h hrecv hready
  · exact h

theorem Tracks.modifyInfo (h : Tracks P c₀ s) {f : ReplicaInfo β → ReplicaInfo β}
    (hf : ∀ info, s.replicaState[src]? = some info → Backs P s src (f info)) :
    Tracks P c₀ { s with replicaState := s.replicaState.modify src f } := by
  refine ⟨supported_iff.mpr fun src' info hinfo => ?_, h.2⟩
  rw [List.getElem?_modify] at hinfo
  split_ifs at hinfo with heq
  · obtain ⟨info', hinfo', rfl⟩ := Option.map_eq_some_iff.mp hinfo
    subst heq
    exact hf info' hinfo'
  · exact supported_iff.mp h.1 src' info (by simpa using hinfo)

theorem modifyInfo_tracks (h : Tracks P c₀ s) {f : ReplicaInfo β → ReplicaInfo β}
    (hf : ∀ info, s.replicaState[src]? = some info → Backs P s src (f info)) :
    Ends (modifyInfo src f) s (fun _ => Tracks P c₀) (Leaves P c₀) := by
  rw [ends_modifyInfo]
  exact ⟨fun _ => h.modifyInfo hf, fun _ => h.leaves trivial⟩

theorem Tracks.discarded (h : Tracks P c₀ s) (src : ℕ) (info : ReplicaInfo β)
    (hinfo : s.replicaState[src]? = some info) : Backs P s src { info with backLog := [] } :=
  ⟨by simp, (supported_iff.mp h.1 src info hinfo).2.1, fun _ => rfl⟩

theorem discardBacklog_follows (src : ℕ) : Follows P (discardBacklog src) :=
  fun _ _ h => modifyInfo_tracks h (h.discarded src)

theorem processBacklog_follows : Follows P (processBacklog P) := by
  refine fun c₀ => processBacklog_preserves admits_leaves fun backlog hbacklog => ?_
  intro s src info m rest h hinfo hlog hdefers
  have hqueued : ∀ m' ∈ m :: rest, .recv m' src ∈ s.trace := fun m' hm' =>
    h.1.backLog src info m' hinfo (hlog ▸ hm')
  refine handleQueueableMessage_tracks hbacklog (h.modifyInfo fun info' hinfo' => ?_)
    (hqueued m mem_cons_self) (ready_of_not_defers hdefers)
  refine ⟨fun m' hm' => hqueued m' (mem_cons_of_mem m hm'),
    (supported_iff.mp h.1 src info' hinfo').2.1, fun hself => ?_⟩
  simp [h.1.own info (hself ▸ hinfo)] at hlog

end Backlog

end Fabric.Sbft
