import Fabric.Sbft.InFlight
import Fabric.Sbft.Sends
import Fabric.Sbft.Symbolic

/-!
# What a restart forgets

A replica persists the preprepare, the commit and the execution of its request in
flight, but not the views it has left, and on a restart it takes any persisted
execution for one of the request in flight. It may hence vote again in a view that it
has left, and attest an execution that never took place.
-/

namespace Fabric.Sbft

open Fabric.Common Event

variable {β : Type} {P : Primitives β}

/-! ### Views that were left -/

/-- The views for which a view change was signed. -/
def signedViews (t : List (Event β)) : List ℕ :=
  t.filterMap fun e => e.signedViewChange?.map ViewChange.view

variable {t : List (Event β)} {e : Event β} {cfg : Config} {sub : Subject β}

theorem mem_signedViews {w : ℕ} :
    w ∈ signedViews t ↔ ∃ vc, .signViewChange vc ∈ t ∧ vc.view = w := by
  simp only [signedViews, List.mem_filterMap, Option.map_eq_some_iff]
  constructor
  · rintro ⟨e, he, vc, hvc, rfl⟩
    cases e with
    | signViewChange =>
      cases hvc
      exact ⟨vc, he, rfl⟩
    | _ => cases hvc
  · rintro ⟨vc, hvc, rfl⟩
    exact ⟨_, hvc, vc, rfl, rfl⟩

theorem Event.vote?_eq_some (h : e.vote? = some sub) :
    ∃ dest, e = .send (.prepare sub) dest ∨ e = .send (.commit sub) dest := by
  unfold vote? at h
  split at h
  · cases h
    exact ⟨_, .inl rfl⟩
  · cases h
    exact ⟨_, .inr rfl⟩
  · cases h

/-- A prepare or commit is for a view not before any that a view change was signed
for. -/
def VotesInView (e : Event β) (t : List (Event β)) : Prop :=
  ∀ sub ∈ e.vote?, ∀ sv ∈ sub.seq, ∀ w ∈ signedViews t, w ≤ sv.view

instance (e : Event β) (t : List (Event β)) : Decidable (VotesInView e t) :=
  inferInstanceAs (Decidable (∀ sub ∈ e.vote?, ∀ sv ∈ sub.seq, ∀ w ∈ signedViews t, _))

/-- A restart leads back to a view not before any that a view change was signed for,
messages on a request in flight are sent only in its view, and view numbers do not
overflow. -/
def KeepsViews (P : Primitives β) (e : Event β) (t : List (Event β)) : Prop :=
  (e.isRestart = true → ∀ w ∈ signedViews t, w ≤ restoredView t) ∧
  (∀ a ∈ e.prepare?, a.1 = a.2.cur.subject → a.2.cur.sentCommit = false →
    a.2.cur.seq.view = a.2.view) ∧
  (∀ st ∈ e.connects?, st.activeView = true → lastSeq P t < st.cur.seq.seq →
    st.cur.seq.view = st.view) ∧
  ∀ st ∈ e.leavesView?, st.view + 1 < 2 ^ 64

instance [DecidableEq β] (e : Event β) (t : List (Event β)) : Decidable (KeepsViews P e t) :=
  inferInstanceAs (Decidable ((_ → ∀ w ∈ signedViews t, _) ∧ (∀ a ∈ e.prepare?, _ → _ → _) ∧
    (∀ st ∈ e.connects?, _ → _ → _) ∧ ∀ st ∈ e.leavesView?, _))

theorem keepsViews_of_free (h : e.Free) : KeepsViews P e t := by
  cases e with
  | recv | restart => exact h.elim
  | call k =>
    cases k <;> first | exact h.elim | simp [KeepsViews, isRestart, prepare?,
      connects?, leavesView?]
  | _ => simp [KeepsViews, isRestart, prepare?, connects?, leavesView?]

theorem restoreExecute_mem {ex : Subject β} (h : restoreExecute t = some ex) :
    .persist (.execute ex) ∈ t := by
  obtain ⟨e, he, heq⟩ := List.exists_of_findSome?_eq_some h
  split at heq
  · cases heq
    exact he
  · cases heq

variable [DecidableEq β] {c c' : Core β} {id : ℕ}

theorem Step.signedViews_le (h : Step P c c') (hφ : Always (KeepsViews P) c'.trace)
    (hc : ∀ w ∈ signedViews c.trace, w ≤ c.view) : ∀ w ∈ signedViews c'.trace, w ≤ c'.view := by
  have hview := h.view_le fun st t ht => (hφ.at ht).2.2.2 st rfl
  intro w hw
  obtain ⟨vc, hvc, rfl⟩ := mem_signedViews.mp hw
  rcases mem_or_added h.frame.2.2 hvc with hold | hnew
  · exact (hc _ (mem_signedViews.mpr ⟨vc, hold, rfl⟩)).trans hview
  · obtain ⟨w, -, rfl, rfl⟩ := h.viewChange_signed hnew
    exact le_refl _

theorem Step.vote_view (h : Step P c c') (hφ : Always (KeepsViews P) c'.trace)
    (hnew : Added c.trace c'.trace e) (he : e.vote? = some sub) :
    ∃ sv, sub.seq = some sv ∧ sv.view = c'.view := by
  -- a request in flight about which messages are sent on a new connection
  have hresend : ∀ r, .call (.connection r) c.status :: c.trace <:+ c'.trace → c.Resends P →
      c.cur.seq.view = c.view := fun r hcall hahead =>
    (hφ.at hcall).2.2.1 _ rfl hahead.2 hahead.1
  obtain ⟨dest, rfl | rfl⟩ := vote?_eq_some he
  · cases h.prepare_sent hnew with
    | accept _ _ sv _ _ haccepts hc' _ hsub =>
      refine ⟨sv, by rw [hsub], ?_⟩
      rw [hc', Core.accept_view, haccepts.view_eq, haccepts.seq_view]
    | resend r hcall hahead hsub hview =>
      exact ⟨c.cur.seq, by rw [hsub]; rfl, by rw [hview, hresend r hcall hahead]⟩
  · obtain ⟨hsub, -, -, -, hview, -, hcommits⟩ := h.commit_sent hnew
    refine ⟨c.cur.seq, by rw [hsub]; rfl, ?_⟩
    rw [hview]
    cases hcommits with
    | quorum _ _ hcall _ _ _ hsent =>
      exact (hφ.at hcall).2.1 _ rfl rfl hsent
    | small _ _ hview => exact hview
    | resend r hcall hahead => exact hresend r hcall hahead

theorem Alone.votesInView {r : Prop} (h : Alone P cfg id r c)
    (hφ : Always (KeepsViews P) c.trace) : Always VotesInView c.trace := by
  refine (h.induction_restart (I := fun c => (∀ w ∈ signedViews c.trace, w ≤ c.view) ∧
    Always VotesInView c.trace) hφ (fun _ _ => keepsViews_of_free) (fun c hc => hc.2) ?_ ?_ ?_).2
  · intro t c hc hφ ht
    cases hc with
    | idle =>
      exact ⟨hφ.1.1 rfl, by simp [VotesInView, vote?], ht⟩
    | inFlight _ _ _ sv _ _ _ _ hpp hseq =>
      have hview : restoredView t = sv.view := by simp [restoredView, hpp, hseq]
      refine ⟨hview ▸ hφ.2.1.1 rfl, by simp [VotesInView, vote?], ?_⟩
      exact ⟨by simp [VotesInView, vote?], ht⟩
  · intro c m src _ hc
    exact ⟨hc.1, by simp [VotesInView, vote?], hc.2⟩
  · intro c c' hc hφ hI hstep
    have hviews := hstep.signedViews_le hφ hI.1
    refine ⟨hviews, hI.2.extend hstep.frame.2.2 fun e t hnew _ hs sub hsub sv hsv w hw => ?_⟩
    obtain ⟨sv', hsv', hview⟩ := hstep.vote_view hφ hnew hsub
    obtain rfl : sv' = sv := by simpa [hsv'] using hsv
    obtain ⟨vc, hvc, rfl⟩ := mem_signedViews.mp hw
    rw [hview]
    exact hviews _ (mem_signedViews.mpr ⟨vc, hs.subset (List.mem_cons_of_mem _ hvc), rfl⟩)

/-- No correct replica votes in a view after it has signed a view change for a later
one. -/
def StaysOut (B : Finset ℕ) (sys : System β) : Prop :=
  ∀ e ∈ sys.histories B, Always VotesInView e.2

instance (B : Finset ℕ) (sys : System β) : Decidable (StaysOut B sys) :=
  inferInstanceAs (Decidable (∀ e ∈ sys.histories B, _))

/-- Replicas stay out of views that they have left, if a restart leads back to no such view and
messages on a request in flight are sent in its view. -/
theorem staysOut_of_keepsViews {cfg : Config} {B : Finset ℕ} {ls : List (Label β)}
    {sys : System β} (hrun : System.run P B (System.init P cfg) ls = some sys)
    (hφ : ∀ e ∈ sys.histories B, Always (KeepsViews P) e.2) : StaysOut B sys := by
  obtain ⟨g, hg, hhist⟩ := run_refines hrun
  rintro ⟨i, t⟩ hit
  obtain ⟨hi, -, rfl⟩ := (hhist i t).mp hit
  exact (hg.alone i hi).votesInView (hφ _ hit)

/-- Replica 3 accepts the first batch, restarts, prepares it and gives up on view 0. Then it votes in
view 1, which proposes the batch again. -/
theorem staysOut_restart : ∃ sys,
    System.run symbolic ∅ (System.init symbolic fourReplicas) (.of 0 (.request (.nat 7)) ::
      Label.arrivals [(0, 0, 0), (1, 0, 1), (2, 0, 1), (3, 0, 1)] ++ .of 3 .restart ::
      Label.arrivals [(3, 1, 0), (3, 2, 0)] ++
      [.of 3 (.timer 0), .of 1 (.timer 0), .of 2 (.timer 0)] ++
      Label.arrivals [(1, 1, 1), (1, 2, 1), (1, 3, 2), (3, 1, 1)]) = some sys ∧
      (∃ e ∈ sys.histories ∅, e.1 = 3 ∧ signedViews e.2 = [1] ∧ firstSubject 1 7 ∈ prepared e.2) ∧
      StaysOut ∅ sys := by
  refine System.exists_of_always ∅ (KeepsViews symbolic) (by decide +kernel) ?_
  exact fun sys hrun hφ => staysOut_of_keepsViews hrun hφ

/-- Replica 3 accepts the first batch, leaves view 0 and restarts in it; then it sends a commit. -/
theorem not_staysOut_restart : ∃ sys,
    System.run symbolic ∅ (System.init symbolic fourReplicas) (.of 0 (.request (.nat 7)) ::
      Label.arrivals [(0, 0, 0), (1, 0, 1), (2, 0, 1), (3, 0, 1)] ++
      [.of 3 (.timer 0), .of 3 .restart] ++ Label.arrivals [(3, 1, 0), (3, 2, 0)]) = some sys ∧
      ¬ StaysOut ∅ sys := by
  decide +kernel

/-! ### Executions that are attested -/

/-- A checkpoint is signed for a subject that enough replicas sent commits for. -/
def CollectsCommits (cfg : Config) (e : Event β) (t : List (Event β)) : Prop :=
  ∀ sub ∈ e.signedCheckpoint?, cfg.noFaultyQuorum ≤ (senders t (.commit sub)).card

instance (cfg : Config) (e : Event β) (t : List (Event β)) : Decidable (CollectsCommits cfg e t) :=
  inferInstanceAs (Decidable (∀ sub ∈ e.signedCheckpoint?, _))

/-- If a restart finds a commit for the request in flight and an execution, it is of that request;
and no commit is counted for a dropped request. -/
def KeepsExecution (P : Primitives β) (e : Event β) (t : List (Event β)) : Prop :=
  (e.isRestart = true → ∀ pp ∈ restorePreprepare t, ∀ sv ∈ pp.seq, ∀ b ∈ pp.batch,
    lastSeq P t < sv.seq → restoreCommit t = some ⟨some sv, some (b.hash P)⟩ →
    ∀ ex ∈ restoreExecute t, ex = ⟨some sv, some (b.hash P)⟩) ∧
  ∀ a ∈ e.commit?, a.1 = a.2.cur.subject → a.2.cur.seq.seq ≠ 0

instance (e : Event β) (t : List (Event β)) : Decidable (KeepsExecution P e t) :=
  inferInstanceAs (Decidable ((_ → ∀ pp ∈ restorePreprepare t, ∀ sv ∈ pp.seq, ∀ b ∈ pp.batch,
    _ → _ → ∀ ex ∈ restoreExecute t, _) ∧ ∀ a ∈ e.commit?, _ → _))

/-- The request in flight, if executed and not dropped, has commits from enough replicas. -/
def Core.Executed (c : Core β) : Prop :=
  c.cur.executed = true → c.cur.seq.seq ≠ 0 →
    c.config.noFaultyQuorum ≤ (senders c.trace (.commit c.cur.subject)).card

theorem KeepsExecution.card_le {src : ℕ} {votes : GoMap (Subject β)} (hc : c.Sound P)
    (hφ : Always (KeepsExecution P) c'.trace)
    (hcall : .call (.handleCommit c.cur.subject src) c.status :: c.trace <:+ c'.trace)
    (hrecv : .recv (.commit c.cur.subject) src ∈ c.trace) (hvotes : c.cur.commit = some votes)
    (hquorum : c.config.noFaultyQuorum ≤ (votes.insert src c.cur.subject).size) :
    c.config.noFaultyQuorum ≤ (senders c.trace (.commit c.cur.subject)).card :=
  hquorum.trans (hc.card_commits hrecv hvotes ((hφ.at hcall).2 _ rfl rfl))

theorem Step.executed (h : Step P c c') (hc : c.Sound P) (hφ : Always (KeepsExecution P) c'.trace)
    (hold : c.Executed) : c'.Executed := by
  have hkeep : (c'.cur.executed = true → c.cur.executed = true) → c'.cur.seq = c.cur.seq →
      c'.cur.digest = c.cur.digest → c'.Executed := by
    intro hexecuted hseq hdigest hexecuted' hne
    have hsubject : c'.cur.subject = c.cur.subject := by
      rw [ReqInfo.subject, hseq, hdigest, ReqInfo.subject]
    rw [hsubject, h.frame.1]
    rw [hseq] at hne
    exact (hold (hexecuted hexecuted') hne).trans
      (Finset.card_le_card (senders_subset h.frame.2.2 _))
  have hsuffix := h.frame.2.2
  cases h
  case accept => exact fun hexecuted => by simp at hexecuted
  case newViewNull => exact fun _ hne => by simp at hne
  case commitExecute hrecv _ hvotes _ hquorum =>
    have hcard := KeepsExecution.card_le hc hφ (by simp) hrecv hvotes hquorum
    exact fun _ _ => hcard.trans (Finset.card_le_card (senders_subset hsuffix _))
  all_goals exact hkeep id rfl rfl

/-- What is persisted as executed has commits from enough replicas. -/
def ExecutesCollected (cfg : Config) (e : Event β) (t : List (Event β)) : Prop :=
  ∀ sub, e = .persist (.execute sub) → cfg.noFaultyQuorum ≤ (senders t (.commit sub)).card

theorem Step.collects (h : Step P c c') (hc : c.Sound P) (hφ : Always (KeepsExecution P) c'.trace)
    (hold : c.Executed) (hnew : Added c.trace c'.trace e) (ht : c.trace <:+ t) :
    CollectsCommits c.config e t ∧ ExecutesCollected c.config e t := by
  have hextend : ∀ sub, c.config.noFaultyQuorum ≤ (senders c.trace (.commit sub)).card →
      c.config.noFaultyQuorum ≤ (senders t (.commit sub)).card := fun sub hcard =>
    hcard.trans (Finset.card_le_card (senders_subset ht _))
  refine ⟨fun sub hsub => ?_, ?_⟩
  · cases e <;> cases hsub
    obtain ⟨rfl, hattests⟩ := h.checkpoint_signed hnew
    refine hextend _ ?_
    cases hattests with
    | quorum _ _ hcall hrecv _ hvotes hquorum =>
      exact KeepsExecution.card_le hc hφ hcall hrecv hvotes hquorum
    | resend hahead hexecuted => exact hold hexecuted (Nat.ne_of_gt (Nat.zero_lt_of_lt hahead.1))
  · rintro sub rfl
    obtain ⟨rfl, src, votes, hcall, hrecv, hvotes, hquorum⟩ := h.execute_persisted hnew
    exact hextend _ (KeepsExecution.card_le hc hφ hcall hrecv hvotes hquorum)

theorem Restarted.executed (h : Restarted P cfg id t c)
    (hφ : Always (KeepsExecution P) c.trace) (ht : Always (ExecutesCollected cfg) t) :
    c.Executed := by
  cases h with
  | idle => exact fun _ hne => by simp [SBFT.blank] at hne
  | inFlight _ _ pp sv b _ _ _ hpp hseq hbatch hahead _ hexecuted =>
    intro hex _
    obtain ⟨hsome, hrestored⟩ := hexecuted.mp hex
    obtain ⟨ex, hex'⟩ := Option.isSome_iff_exists.mp hsome
    obtain rfl := hφ.2.1.1 rfl pp hpp sv hseq b hbatch hahead hrestored ex hex'
    obtain ⟨t', ht', hcollected⟩ := ht.of_mem (restoreExecute_mem hex')
    refine (hcollected _ rfl).trans (Finset.card_le_card (senders_subset ?_ _))
    exact ((List.suffix_cons _ _).trans ht').trans (by simp)

omit [DecidableEq β] in
theorem keepsExecution_of_free (h : e.Free) : KeepsExecution P e t := by
  cases e with
  | recv | restart => exact h.elim
  | call k =>
    cases k <;> first | exact h.elim | simp [KeepsExecution, isRestart, commit?]
  | _ => simp [KeepsExecution, isRestart, commit?]

theorem Alone.collectsCommits {r : Prop} (h : Alone P cfg id r c)
    (hφ : Always (KeepsExecution P) c.trace) : Always (CollectsCommits cfg) c.trace := by
  have hI : c.Executed ∧ Always (CollectsCommits cfg) c.trace ∧
      Always (ExecutesCollected cfg) c.trace := by
    refine h.induction_restart (I := fun c => c.Executed ∧ Always (CollectsCommits cfg) c.trace ∧
      Always (ExecutesCollected cfg) c.trace)
      hφ (fun _ _ => keepsExecution_of_free) (fun c hc => hc.2.1.and hc.2.2) ?_ ?_ ?_
    · intro t c hc hφ ht
      have hcommits := ht.mono fun _ _ _ h => h.1
      have hexecutes := ht.mono fun _ _ _ h => h.2
      refine ⟨hc.executed hφ hexecutes, ?_, ?_⟩
      · cases hc <;> simpa [CollectsCommits, signedCheckpoint?] using hcommits
      · cases hc <;> simpa [ExecutesCollected] using hexecutes
    · intro c m src _ hc
      refine ⟨fun hexecuted hne => (hc.1 hexecuted hne).trans (Finset.card_le_card ?_), ?_, ?_⟩
      · exact senders_subset (List.suffix_cons _ _) _
      · simpa [CollectsCommits, signedCheckpoint?] using hc.2.1
      · simpa [ExecutesCollected] using hc.2.2
    · intro c c' hc hφ hI hstep
      obtain ⟨rfl, -⟩ := hc.frame
      refine ⟨hstep.executed hc.sound hφ hI.1, ?_, ?_⟩
      · exact hI.2.1.extend hstep.frame.2.2 fun e t hnew ht _ =>
          (hstep.collects hc.sound hφ hI.1 hnew ht).1
      · exact hI.2.2.extend hstep.frame.2.2 fun e t hnew ht _ =>
          (hstep.collects hc.sound hφ hI.1 hnew ht).2
  exact hI.2.1

/-- Correct replicas sign checkpoints only for subjects with enough commits. -/
def Attested (cfg : Config) (B : Finset ℕ) (sys : System β) : Prop :=
  ∀ e ∈ sys.histories B, Always (CollectsCommits cfg) e.2

instance (cfg : Config) (B : Finset ℕ) (sys : System β) : Decidable (Attested cfg B sys) :=
  inferInstanceAs (Decidable (∀ e ∈ sys.histories B, _))

/-- Checkpoints attest an execution, if restarts find the execution of the request in flight or none
and no commit is counted for a dropped request. -/
theorem attested_of_keepsExecution {cfg : Config} {B : Finset ℕ} {ls : List (Label β)}
    {sys : System β} (hrun : System.run P B (System.init P cfg) ls = some sys)
    (hφ : ∀ e ∈ sys.histories B, Always (KeepsExecution P) e.2) : Attested cfg B sys := by
  obtain ⟨g, hg, hhist⟩ := run_refines hrun
  rintro ⟨i, t⟩ hit
  obtain ⟨hi, -, rfl⟩ := (hhist i t).mp hit
  exact (hg.alone i hi).collectsCommits (hφ _ hit)

/-- Replica 3 executes and delivers the first batch; replica 0 is Byzantine. -/
def executedRun : List (Label Term) :=
  let sub := firstSubject 0 7
  let pp : Msg Term := .preprepare ⟨some ⟨0, 1⟩, some (firstBatch 7)⟩
  let d := (firstBatch 7).hash symbolic
  [.of 3 (.inject 0 pp), .of 3 (.deliver 3 0), .of 3 (.inject 0 (.prepare sub)),
    .of 1 (.inject 0 pp), .of 1 (.deliver 1 0), .of 1 (.inject 0 (.prepare sub)),
    .of 3 (.deliver 3 0), .of 3 (.deliver 1 1), .of 3 (.inject 0 (.commit sub)),
    .of 3 (.deliver 3 0), .of 3 (.inject 0 (.checkpoint ⟨1, some d, .sig 0 d⟩))]

/-- Replica 3 restarts before it delivers what it has executed, and attests it again. -/
theorem attested_executedRun : ∃ sys, System.run symbolic {0} (System.init symbolic fourReplicas)
      (executedRun.take 9 ++ [.of 3 .restart, .of 3 (.connection 1)]) = some sys ∧
      (∃ e ∈ sys.histories {0}, e.2.filterMap Event.signedCheckpoint? =
        [firstSubject 0 7, firstSubject 0 7]) ∧ Attested fourReplicas {0} sys := by
  refine System.exists_of_always {0} (KeepsExecution symbolic) (by decide +kernel) ?_
  exact fun sys hrun hφ => attested_of_keepsExecution hrun hφ

/-- Replica 3 prepares a second batch and restarts. Replica 0 drives 1 and 2 to view 4
and sends 3 the new view; then 3 connects to 1. -/
def unattestedRun : List (Label Term) :=
  let sub := firstSubject 0 7
  let b := makeBatch symbolic 2 (some ((firstBatch 7).hash symbolic)) [.nat 8]
  let sub' : Subject Term := ⟨some ⟨0, 2⟩, some (b.hash symbolic)⟩
  let junk : Msg Term := .newView ⟨0, ∅, none, none⟩
  let svc := signedBy 0 ⟨4, [], [sub], some (genesis symbolic)⟩
  let nv : NewView Term := ⟨4, Std.ExtTreeMap.ofList [(0, some svc),
    (1, some (signedBy 1 ⟨4, [sub], [sub], some (genesis symbolic)⟩)),
    (2, some (signedBy 2 ⟨4, [⟨some ⟨0, 0⟩, none⟩], [], some (genesis symbolic)⟩))], none, none⟩
  executedRun ++ [.of 3 (.inject 0 (.preprepare ⟨some ⟨0, 2⟩, some b⟩)), .of 3 (.deliver 3 0),
    .of 3 (.inject 0 (.prepare sub')), .of 3 .restart, .of 2 (.inject 0 junk),
    .of 2 (.inject 0 junk), .of 2 (.inject 0 junk), .of 2 (.inject 0 junk),
    .of 1 (.inject 0 (.viewChange svc)), .of 1 (.deliver 2 3),
    .of 3 (.inject 0 (.hello ⟨some (genesis symbolic), some nv⟩)), .of 3 (.connection 1)]

/-- After the restart, replica 3 takes the execution of the first batch for one of the second. -/
theorem not_attested_unattestedRun : ∃ sys,
    System.run symbolic {0} (System.init symbolic fourReplicas) unattestedRun = some sys ∧
      ¬ Attested fourReplicas {0} sys := by
  decide +kernel

end Fabric.Sbft
