import Fabric.Sbft.Group
import Fabric.Sbft.Symbolic

/-!
# The backlog at rest

A message that arrives too early waits in the backlog of its sender, and all later messages of
that sender wait behind it. The replica looks at its backlogs again when a batch is delivered,
when it enters a view and when it has caught up, but not when it accepts a preprepare: votes that
were waiting for it stay where they are.

## Main definitions

- `Quiescent`: the first message of every backlog has to wait; `Rests`: the same of the core

## Main results

- `handle_rests`: a reaction keeps it, unless it accepts a proposal that a waiting vote is due for
- `System.step_rests`: so does every such step of a group
-/

namespace Fabric.Sbft

open Fabric.Common List Fabric.Sbft.System Process

variable {β : Type}

/-- The backlogs. -/
def SBFT.queues (s : SBFT β) : List (List (Msg β)) := s.replicaState.map ReplicaInfo.backLog

/-- The first message of every backlog has to wait. -/
def Quiescent (s : Replica β) : Prop :=
  ∀ queue ∈ s.queues, ∀ m ∈ queue.head?, testBacklogMessage m s = .ok true s

instance (c : Core β) (sv : Option SeqView) : Decidable (c.LiesAhead sv) :=
  decidable_of_iff (c.activeView = false ∨ ∃ p ∈ sv, c.cur.seq.seq < p.seq ∨ c.view < p.view)
    Iff.rfl

instance (c : Core β) (m : Msg β) : Decidable (c.Defers m) := by
  cases m <;> unfold Core.Defers <;> infer_instance

/-- The core while the next request is in flight. -/
def Core.waiting (P : Primitives β) (c : Core β) : Core β :=
  { c with cur := { c.cur with seq := c.next P, checkpointDone := false } }

/-- The first message of every backlog would have to wait if the next request were in flight. -/
def NoneDue (P : Primitives β) (s : Replica β) : Prop :=
  ∀ queue ∈ s.queues, ∀ m ∈ queue.head?, (s.core.waiting P).Defers m

instance (P : Primitives β) (s : Replica β) : Decidable (NoneDue P s) :=
  inferInstanceAs (Decidable (∀ queue ∈ s.queues, ∀ m ∈ queue.head?, _))

/-- Whether a preprepare may be accepted on an input, without a look at the backlogs after it. -/
def Input.Proposes (s : Replica β) : Input β → Prop
  | .receive (.preprepare _) _ | .receive (.request _) _ => True
  | .timer t => (t, .maybeSendNextBatch) ∈ s.timers
  | _ => False

instance (s : Replica β) (inp : Input β) : Decidable (inp.Proposes s) := by
  cases inp with
  | receive m => cases m <;> unfold Input.Proposes <;> infer_instance
  | _ => unfold Input.Proposes; infer_instance

/-! ### What has to wait -/

section Defers

variable {c c' : Core β} {m : Msg β} {s s' : Replica β} {sv : Option SeqView}

theorem Core.LiesAhead.congr (h : c.LiesAhead sv)
    (hactive : c'.activeView = c.activeView) (hview : c'.view = c.view)
    (hseq : c'.cur.seq.seq = c.cur.seq.seq) : c'.LiesAhead sv := by
  unfold LiesAhead at h ⊢
  rwa [hactive, hview, hseq]

theorem Core.Defers.congr (h : c.Defers m) (hactive : c'.activeView = c.activeView)
    (hview : c'.view = c.view) (hseq : c'.cur.seq.seq = c.cur.seq.seq)
    (hdone : c'.cur.checkpointDone = c.cur.checkpointDone) : c'.Defers m := by
  cases m with
  | preprepare => exact ⟨h.1.congr hactive hview hseq, hdone.trans h.2⟩
  | prepare p | commit p => exact Core.LiesAhead.congr h hactive hview hseq
  | checkpoint => exact hactive.trans h
  | _ => exact h

theorem Core.Defers.inactive (h : c.Defers m) (hactive : c'.activeView = false)
    (hdone : c'.cur.checkpointDone = c.cur.checkpointDone) : c'.Defers m := by
  cases m with
  | preprepare => exact ⟨.inl hactive, hdone.trans h.2⟩
  | prepare p | commit p => exact .inl hactive
  | checkpoint => exact hactive
  | _ => exact h

theorem record_of_liesAhead (h : s.core.LiesAhead sv) :
    Ends (record sv) s (fun ahead s' => s = s' ∧ ahead = true) (fun _ _ => False) := by
  unfold record
  simp only [ends_bind, ends_get, ends_ite, ends_pure, ends_deref]
  refine ⟨fun _ => ⟨trivial, trivial⟩, fun hactive => ?_⟩
  obtain hinactive | ⟨p, rfl, hp⟩ := h
  · exact absurd (not_not.mp hactive) (Bool.eq_false_iff.mp hinactive)
  · refine ⟨fun p' hp' => ⟨trivial, ?_⟩, fun hnone => ?_⟩
    · cases hp'
      exact decide_eq_true hp
    · cases hnone

theorem testBacklogMessage_of_defers (h : s.core.Defers m) :
    testBacklogMessage m s = .ok true s := by
  have hends : Ends (testBacklogMessage m) s (fun wait s' => s = s' ∧ wait = true)
      (fun _ _ => False) := by
    cases m with
    | preprepare =>
      unfold testBacklogMessage
      simp only [ends_bind]
      apply (record_of_liesAhead h.1).imp
      rintro ahead _ ⟨rfl, rfl⟩
      have hdone : s.cur.checkpointDone = false := h.2
      simp [hdone]
    | prepare p | commit p => exact record_of_liesAhead h
    | checkpoint => exact record_of_liesAhead (.inl h)
    | _ => exact h.elim
  obtain ⟨wait, s', hrun, rfl, rfl⟩ := hends.exists_run_eq_ok
  exact hrun

end Defers

/-! ### What the handlers leave as it is -/

/-- The first message of every backlog is deferred. -/
def Rests (s : Replica β) : Prop := ∀ queue ∈ s.queues, ∀ m ∈ queue.head?, s.core.Defers m

/-- The backlogs, and what decides on the messages in them, are the same. -/
structure SameStage (s s' : Replica β) : Prop where
  queues : s'.queues = s.queues
  activeView : s'.activeView = s.activeView
  view : s'.view = s.view
  seq : s'.cur.seq = s.cur.seq
  done : s'.cur.checkpointDone = s.cur.checkpointDone

/-- The next request was accepted. -/
structure Proposed (P : Primitives β) (s s' : Replica β) : Prop where
  queues : s'.queues = s.queues
  activeView : s'.activeView = s.activeView
  view : s'.view = s.view
  seq : s'.cur.seq = s.core.next P
  done : s'.cur.checkpointDone = false

section Stages

variable {s s' s'' : Replica β} {P : Primitives β}

theorem Rests.quiescent (h : Rests s) : Quiescent s :=
  fun queue hqueue m hm => testBacklogMessage_of_defers (h queue hqueue m hm)

theorem Rests.sameStage (h : Rests s) (hs : SameStage s s') : Rests s' := by
  intro queue hqueue m hm
  have hdefers := h queue (hs.queues ▸ hqueue) m hm
  exact hdefers.congr hs.activeView hs.view (congrArg SeqView.seq hs.seq) hs.done

theorem Rests.proposed (h : NoneDue P s) (hs : Proposed P s s') : Rests s' := by
  intro queue hqueue m hm
  have hdefers := h queue (hs.queues ▸ hqueue) m hm
  exact hdefers.congr hs.activeView hs.view (congrArg SeqView.seq hs.seq) hs.done

theorem Rests.inactive (h : Rests s) (hqueues : s'.queues = s.queues)
    (hactive : s'.activeView = false) (hdone : s'.cur.checkpointDone = s.cur.checkpointDone) :
    Rests s' := by
  intro queue hqueue m hm
  exact (h queue (hqueues ▸ hqueue) m hm).inactive hactive hdone

theorem SameStage.refl (s : Replica β) : SameStage s s := ⟨rfl, rfl, rfl, rfl, rfl⟩

theorem SameStage.trans (h : SameStage s s') (h' : SameStage s' s'') : SameStage s s'' :=
  ⟨h'.queues.trans h.queues, h'.activeView.trans h.activeView, h'.view.trans h.view,
    h'.seq.trans h.seq, h'.done.trans h.done⟩

end Stages

/-- What a program may stop with does not matter here. -/
abbrev AnyError : Panic → Replica β → Prop := fun _ _ => True

variable {P : Primitives β} {s : Replica β} {s' : Replica β}

theorem maybeSendCommit_sameStage : Ends maybeSendCommit s (fun _ => SameStage s) AnyError := by
  unfold maybeSendCommit
  simp only [ends_bind, ends_ite]
  exact ⟨fun _ => .refl s, fun _ => ⟨rfl, rfl, rfl, rfl, rfl⟩⟩

theorem handleCheckedPreprepare_ends (pp : Preprepare β) :
    Ends (handleCheckedPreprepare P pp) s (fun _ s' => s'.queues = s.queues ∧
      s'.activeView = s.activeView ∧ s'.view = s.view ∧ pp.seq = some s'.cur.seq ∧
      s'.cur.checkpointDone = false) AnyError := by
  have haccept : ∀ s₁, s₁.queues = s.queues → s₁.activeView = s.activeView →
      s₁.view = s.view → pp.seq = some s₁.cur.seq → s₁.cur.checkpointDone = false →
      Ends maybeSendCommit s₁ (fun _ s' => s'.queues = s.queues ∧
        s'.activeView = s.activeView ∧ s'.view = s.view ∧ pp.seq = some s'.cur.seq ∧
        s'.cur.checkpointDone = false) AnyError := by
    intro s₁ hqueues hactive hview hseq hdone
    refine maybeSendCommit_sameStage.imp fun _ s' hs' => ?_
    exact ⟨hs'.queues.trans hqueues, hs'.activeView.trans hactive, hs'.view.trans hview,
      hs'.seq ▸ hseq, hs'.done.trans hdone⟩
  unfold handleCheckedPreprepare acceptPreprepare
  simp only [ends_bind, ends_deref, ends_ite]
  refine ⟨fun b _ => ⟨fun sv hsv => ⟨fun _ => ?_, fun _ => ?_⟩, fun _ => trivial⟩, fun _ => trivial⟩
  · exact haccept _ rfl rfl rfl hsv rfl
  · exact haccept _ rfl rfl rfl hsv rfl

theorem maybeSendNextBatch_stage :
    Ends (maybeSendNextBatch P) s (fun _ s' => SameStage s s' ∨ Proposed P s s') AnyError := by
  have hsend : ∀ (s₁ : Replica β) (batch : List (Request β)), s₁.core = s.core →
      s₁.queues = s.queues →
      Ends (sendPreprepare P batch) s₁ (fun _ s' => SameStage s s' ∨ Proposed P s s') AnyError := by
    intro s₁ batch hcore hqueues
    unfold sendPreprepare
    rw [ends_bind]
    refine ends_nextSeq ?_ trivial
    simp only [ends_bind]
    refine (handleCheckedPreprepare_ends _).imp fun _ s' hs' => .inr ?_
    obtain ⟨hqueues', hactive, hview, hcur, hdone⟩ := hs'
    refine ⟨hqueues'.trans hqueues, hactive.trans (congrArg Core.activeView hcore),
      hview.trans (congrArg Core.view hcore), ?_, hdone⟩
    rw [← hcore]
    exact (Option.some.inj hcur).symm
  unfold maybeSendNextBatch
  simp only [ends_bind, ends_ite]
  refine ⟨fun _ => .inl ⟨rfl, rfl, rfl, rfl, rfl⟩,
    fun _ => ⟨fun _ => .inl ⟨rfl, rfl, rfl, rfl, rfl⟩,
    fun _ => ⟨fun _ => ⟨fun _ => .inl ⟨rfl, rfl, rfl, rfl, rfl⟩, fun _ => ?_⟩,
      fun _ => ⟨fun _ => .inl ⟨rfl, rfl, rfl, rfl, rfl⟩, fun _ => ?_⟩⟩⟩⟩
  · exact hsend _ _ rfl rfl
  · exact hsend _ _ rfl rfl

/-! ### Looking at the backlogs -/

theorem SBFT.backlogSize_eq (s : SBFT β) : s.backlogSize = (s.queues.map List.length).sum := by
  rw [queues, map_map]
  rfl

/-- The number of queued messages does not exceed a bound. -/
def Fits (k : ℕ) (s : Replica β) : Prop := s.backlogSize ≤ k

theorem Fits.congr {k : ℕ} (h : Fits k s) (hqueues : s'.queues = s.queues) : Fits k s' := by
  unfold Fits at h ⊢
  rwa [SBFT.backlogSize_eq, hqueues, ← SBFT.backlogSize_eq]

variable {src : ℕ} {f : ReplicaInfo β → ReplicaInfo β} {m : Msg β} {info : ReplicaInfo β}

theorem backlogSize_modifyInfo {rest : List (Msg β)}
    (hinfo : s.replicaState[src]? = some info) (hlog : info.backLog = m :: rest) :
    SBFT.backlogSize { s with
      replicaState := s.replicaState.modify src fun info => { info with backLog := rest } } + 1 =
      s.backlogSize := by
  obtain ⟨hlt, rfl⟩ := List.getElem?_eq_some_iff.mp hinfo
  have hsplit : s.replicaState = s.replicaState.take src ++ s.replicaState[src] ::
      s.replicaState.drop (src + 1) := by
    rw [getElem_cons_drop, take_append_drop]
  unfold SBFT.backlogSize
  conv_rhs => rw [hsplit]
  rw [modify_eq_take_cons_drop hlt]
  simp only [map_append, map_cons, sum_append, sum_cons, hlog, length_cons]
  omega

section Drain

variable {handle : Msg β → ℕ → M β Unit}

theorem drain_fits {n k : ℕ} (hhandle : ∀ k m src, Preserves (Fits k) AnyError (handle m src)) :
    Preserves (Fits k) AnyError (drain handle src n) := by
  refine drain_preserves (fun _ _ _ _ _ _ => trivial)
    (fun s src info m rest h hinfo hlog _ => ?_) src n
  refine hhandle k m src _ ?_
  exact (Nat.le_of_succ_le (backlogSize_modifyInfo hinfo hlog).le).trans h

/-- If a message was handled, there are fewer than before, and otherwise nothing has changed and the
first messages have to wait. -/
def Drained (s : Replica β) (srcs : List ℕ) (processed : Bool) (s' : Replica β) : Prop :=
  if processed = true then s'.backlogSize < s.backlogSize
  else s' = s ∧ ∀ src ∈ srcs, ∀ info, s.replicaState[src]? = some info →
    ∀ m ∈ info.backLog.head?, s.core.Defers m

theorem drain_ends {n : ℕ} (hhandle : ∀ k m src, Preserves (Fits k) AnyError (handle m src))
    (hn : ∀ info, s.replicaState[src]? = some info → info.backLog.length ≤ n) :
    Ends (drain handle src n) s (Drained s [src]) AnyError := by
  cases n with
  | zero =>
    refine ⟨rfl, ?_⟩
    intro src' hsrc info hinfo m hm
    rw [mem_singleton.mp hsrc] at hinfo
    rw [eq_nil_of_length_eq_zero (Nat.le_zero.mp (hn info hinfo))] at hm
    cases hm
  | succ =>
    unfold drain
    simp only [ends_bind, ends_replicaInfo]
    refine ⟨fun info hinfo => ?_, fun _ => trivial⟩
    have hidle : (∀ m ∈ info.backLog.head?, s.core.Defers m) → Drained s [src] false s := by
      intro hdefers
      refine ⟨rfl, ?_⟩
      intro src' hsrc info' hinfo'
      rw [mem_singleton.mp hsrc] at hinfo'
      obtain rfl : info = info' := Option.some.inj (hinfo.symm.trans hinfo')
      exact hdefers
    split
    · rename_i hlog
      exact hidle (by simp [hlog])
    · rename_i m rest hlog
      simp only [ends_bind]
      apply (testBacklogMessage_ends m trivial).imp
      rintro wait _ ⟨rfl, hwait⟩
      simp only [ends_ite, ends_bind]
      refine ⟨fun hdefers => hidle (by simpa [hlog] using hwait.mp hdefers), fun _ => ?_⟩
      rw [ends_modifyInfo]
      refine ⟨fun _ => ?_, fun _ => trivial⟩
      have hless := backlogSize_modifyInfo hinfo hlog
      refine (hhandle _ m src _ le_rfl).imp fun _ s₁ hs₁ => ?_
      refine (drain_fits hhandle s₁ hs₁).imp fun _ s' hs' => ?_
      exact Nat.lt_of_succ_le ((Nat.succ_le_succ hs').trans hless.le)

theorem drainAll_ends (srcs : List ℕ)
    (hhandle : ∀ k m src, Preserves (Fits k) AnyError (handle m src)) :
    Ends (drainAll handle srcs) s (Drained s srcs) AnyError := by
  induction srcs generalizing s with
  | nil => exact ⟨rfl, by simp⟩
  | cons src _ ih =>
    unfold drainAll
    simp only [ends_bind, ends_replicaInfo]
    refine ⟨fun info hinfo => ?_, fun _ => trivial⟩
    have hn : ∀ info', s.replicaState[src]? = some info' →
        info'.backLog.length ≤ info.backLog.length := by
      intro info' hinfo'
      rw [Option.some.inj (hinfo'.symm.trans hinfo)]
    refine (drain_ends hhandle hn).imp fun processed s₁ hs₁ => ?_
    refine ih.imp fun rest s' hs' => ?_
    cases processed with
    | true =>
      -- the rest handles further messages or leaves it at that
      cases rest with
      | true => exact Nat.lt_trans hs' hs₁
      | false =>
        obtain ⟨rfl, -⟩ := hs'
        exact hs₁
    | false =>
      obtain ⟨rfl, hfirst⟩ := hs₁
      cases rest with
      | true => exact hs'
      | false =>
        obtain ⟨rfl, hrest⟩ := hs'
        refine ⟨rfl, ?_⟩
        intro src' hsrc
        obtain rfl | hsrc := mem_cons.mp hsrc
        · exact hfirst _ (mem_singleton_self _)
        · exact hrest src' hsrc

end Drain

theorem Drained.rests (h : Drained s (List.range s.replicaState.length) false s') : Rests s' := by
  obtain ⟨rfl, h⟩ := h
  intro queue hqueue
  obtain ⟨info, hinfo, rfl⟩ := mem_map.mp hqueue
  obtain ⟨src, hsrc, rfl⟩ := getElem_of_mem hinfo
  exact h src (mem_range.mpr hsrc) _ (List.getElem?_eq_getElem hsrc)

theorem queues_map (hf : ∀ info, (f info).backLog = info.backLog) :
    SBFT.queues { s with replicaState := s.replicaState.map f } = s.queues := by
  rw [SBFT.queues, map_map]
  exact map_congr_left fun info _ => hf info

theorem queues_modify (hf : ∀ info, (f info).backLog = info.backLog) :
    SBFT.queues { s with replicaState := s.replicaState.modify src f } = s.queues := by
  rw [SBFT.queues, SBFT.queues]
  ext1 i
  simp only [List.getElem?_map, List.getElem?_modify]
  cases s.replicaState[i]? with
  | none => rfl
  | some info =>
    split_ifs
    · exact congrArg some (hf info)
    · rfl

theorem admits_anyError {I : Replica β → Prop} : Admits I AnyError := fun _ _ _ _ _ _ => trivial

theorem Rests.modifyInfo (h : Rests s)
    (hf : ∀ info, s.replicaState[src]? = some info →
      ∀ m ∈ (f info).backLog.head?, s.core.Defers m) :
    Rests { s with replicaState := s.replicaState.modify src f } := by
  intro queue hqueue m hm
  obtain ⟨info, hinfo, rfl⟩ := mem_map.mp hqueue
  obtain ⟨i, hi⟩ := List.getElem?_of_mem hinfo
  rw [List.getElem?_modify] at hi
  obtain ⟨info', hinfo', heq⟩ := Option.map_eq_some_iff.mp hi
  split_ifs at heq with hsrc
  · subst hsrc heq
    exact hf info' hinfo' m hm
  · subst heq
    exact h _ (mem_map_of_mem (mem_of_getElem? hinfo')) m hm

theorem recordBacklogMsg_rests (h : Rests s)
    (hfirst : ∀ info, s.replicaState[src]? = some info → info.backLog = [] → s.core.Defers m) :
    Ends (recordBacklogMsg m src) s (fun _ => Rests) AnyError := by
  unfold recordBacklogMsg
  simp only [ends_bind, ends_ite]
  refine ⟨fun _ => trivial, fun _ => ?_⟩
  rw [ends_modifyInfo]
  refine ⟨fun _ => ?_, fun _ => trivial⟩
  have hqueued : Rests { s with replicaState := s.replicaState.modify src fun info =>
      { info with backLog := info.backLog ++ [m] } } := by
    refine h.modifyInfo fun info hinfo m' hm' => ?_
    cases hlog : info.backLog with
    | nil =>
      obtain rfl : m = m' := by simpa [hlog] using hm'
      exact hfirst info hinfo hlog
    | cons =>
      refine h _ (mem_map_of_mem (mem_of_getElem? hinfo)) m' ?_
      simpa [hlog] using hm'
  simp only [ends_replicaInfo]
  refine ⟨fun info _ => ⟨fun _ => ?_, fun _ => hqueued⟩, fun _ => trivial⟩
  unfold discardBacklog
  rw [ends_modifyInfo]
  refine ⟨fun _ => ?_, fun _ => trivial⟩
  refine Rests.sameStage (Rests.modifyInfo hqueued ?_) ⟨rfl, rfl, rfl, rfl, rfl⟩
  intro info _ m' hm'
  cases hm'

theorem maybeSendNextBatch_rests (h : Rests s) (hdue : NoneDue P s) :
    Ends (maybeSendNextBatch P) s (fun _ => Rests) AnyError := by
  apply maybeSendNextBatch_stage.imp
  rintro - s' (hs' | hs')
  · exact h.sameStage hs'
  · exact .proposed hdue hs'

theorem NoneDue.congr (h : NoneDue P s) (hqueues : s'.queues = s.queues)
    (hactive : s'.activeView = s.activeView) (hview : s'.view = s.view)
    (hlast : s'.core.last P = s.core.last P) : NoneDue P s' := by
  intro queue hqueue m hm
  have hdefers := h queue (hqueues ▸ hqueue) m hm
  refine hdefers.congr hactive hview ?_ rfl
  exact congrArg (fun last => uint64 (last + 1)) hlast

theorem testBacklog_first (m : Msg β) (src : ℕ) :
    Ends (testBacklog m src) s (fun wait s' => s = s' ∧ (wait = true →
      ∀ info, s.replicaState[src]? = some info → info.backLog = [] → s.core.Defers m))
      AnyError := by
  unfold testBacklog
  simp only [ends_bind, ends_replicaInfo, ends_ite, ends_pure]
  refine ⟨fun info hinfo => ⟨fun hqueue => ⟨trivial, fun _ info' hinfo' hlog => ?_⟩, fun _ => ?_⟩,
    fun _ => trivial⟩
  · rw [Option.some.inj (hinfo'.symm.trans hinfo)] at hlog
    exact absurd hlog hqueue
  · apply (testBacklogMessage_ends m trivial).imp
    rintro wait _ ⟨rfl, hwait⟩
    exact ⟨rfl, fun hdefers _ _ _ => hwait.mp hdefers⟩

variable [DecidableEq β] {backlog : M β Unit} {inp : Input β}

theorem handlePrepare_sameStage (p : Subject β) (src : ℕ) :
    Ends (handlePrepare p src) s (fun _ => SameStage s) AnyError := by
  have hcall : SameStage s { s with trace := .call (.handlePrepare p src) s.status :: s.trace } :=
    ⟨rfl, rfl, rfl, rfl, rfl⟩
  unfold handlePrepare
  simp only [ends_bind, ends_deref, ends_ite]
  refine ⟨fun sv _ => ⟨fun _ => hcall, fun _ => ⟨fun _ => hcall, fun _ => ?_⟩⟩, fun _ => trivial⟩
  split
  · trivial
  · simp only [ends_ite]
    refine ⟨fun _ => hcall, fun _ => maybeSendCommit_sameStage.imp fun _ s' hs' => ?_⟩
    exact hcall.trans ⟨hs'.queues, hs'.activeView, hs'.view, hs'.seq, hs'.done⟩

theorem handleCommit_sameStage (c : Subject β) (src : ℕ) :
    Ends (handleCommit P c src) s (fun _ => SameStage s) AnyError := by
  have hcall : SameStage s { s with trace := .call (.handleCommit c src) s.status :: s.trace } :=
    ⟨rfl, rfl, rfl, rfl, rfl⟩
  unfold handleCommit
  simp only [ends_bind, ends_deref, ends_ite]
  refine ⟨fun sv _ => ⟨fun _ => hcall, fun _ => ⟨fun _ => hcall, fun _ => ?_⟩⟩, fun _ => trivial⟩
  split
  · trivial
  · simp only [ends_bind, ends_ite, maybeExecute]
    exact ⟨fun _ => hcall, fun _ => ⟨fun _ => ⟨rfl, rfl, rfl, rfl, rfl⟩,
      fun _ => ⟨rfl, rfl, rfl, rfl, rfl⟩⟩⟩

theorem handlePreprepare_stage (pp : Preprepare β) (src : ℕ) :
    Ends (handlePreprepare P pp src) s (fun _ s' => SameStage s s' ∨ Proposed P s s') AnyError := by
  have hcall : SameStage s
      { s with trace := .call (.handlePreprepare pp src) s.status :: s.trace } :=
    ⟨rfl, rfl, rfl, rfl, rfl⟩
  unfold handlePreprepare
  simp only [ends_bind, ends_ite]
  refine ⟨fun _ => .inl hcall, fun _ => ⟨fun _ => .inl hcall, fun _ => ends_nextSeq ?_ trivial⟩⟩
  simp only [ends_deref]
  refine ⟨fun sv hseq => ⟨fun _ => .inl hcall, fun hsv => ⟨fun _ => .inl hcall, fun _ => ?_⟩⟩,
    fun _ => trivial⟩
  obtain rfl := not_not.mp hsv
  split
  · split
    · simp only [ends_ite]
      refine ⟨fun _ => .inl hcall, fun _ => ⟨fun _ => .inl hcall, fun _ => ?_⟩⟩
      refine (handleCheckedPreprepare_ends pp).imp fun _ s' hs' => .inr ?_
      obtain ⟨hqueues, hactive, hview, hcur, hdone⟩ := hs'
      exact ⟨hqueues, hactive, hview, Option.some.inj (hcur.symm.trans hseq), hdone⟩
    · exact .inl hcall
  · exact .inl hcall

theorem handleCheckpoint_ends {Q : Replica β → Prop} (c : Checkpoint β)
    (src : ℕ) (hsame : ∀ s', SameStage s s' → Q s')
    (hbacklog : ∀ s₁ : Replica β, s₁.queues = s.queues → Ends backlog s₁ (fun _ => Q) AnyError) :
    Ends (handleCheckpoint P backlog c src) s (fun _ => Q) AnyError := by
  have hcall : Q { s with trace := .call (.handleCheckpoint c src) s.status :: s.trace } :=
    hsame _ ⟨rfl, rfl, rfl, rfl, rfl⟩
  unfold handleCheckpoint
  simp only [ends_bind, ends_ite]
  refine ⟨fun _ => hcall, fun _ => ⟨fun _ => hcall, fun _ => ⟨fun _ => hcall, fun _ =>
    ⟨fun _ => hcall, fun _ => ?_⟩⟩⟩⟩
  split
  · trivial
  · simp only [ends_bind, ends_modifyCur, ends_rangeOrder]
    split
    · exact hsame _ ⟨rfl, rfl, rfl, rfl, rfl⟩
    · simp only [ends_bind, ends_ite, ends_deref]
      refine ⟨fun _ => trivial, fun _ => ⟨fun pp _ => ⟨fun b _ => ?_, fun _ => trivial⟩,
        fun _ => trivial⟩⟩
      apply maybeSendNextBatch_stage.imp
      rintro - s₁ (hs₁ | hs₁)
      · exact hbacklog s₁ hs₁.queues
      · exact hbacklog s₁ hs₁.queues

theorem handleQueueableMessage_fits {k : ℕ} (m : Msg β) (src : ℕ)
    (hbacklog : Preserves (Fits k) AnyError backlog) :
    Preserves (Fits k) AnyError (handleQueueableMessage P backlog m src) := by
  intro s h
  unfold handleQueueableMessage
  split
  · apply (handlePreprepare_stage _ _).imp
    rintro - s' (hs' | hs')
    · exact h.congr hs'.queues
    · exact h.congr hs'.queues
  · exact (handlePrepare_sameStage _ _).imp fun _ s' hs' => h.congr hs'.queues
  · exact (handleCommit_sameStage _ _).imp fun _ s' hs' => h.congr hs'.queues
  · exact handleCheckpoint_ends _ _ (fun s' hs' => h.congr hs'.queues)
      fun s₁ hqueues => hbacklog s₁ (h.congr hqueues)
  · exact h

theorem processBacklogFuel_ends (n : ℕ) :
    Ends (processBacklogFuel P n) s (fun _ s' => s'.backlogSize ≤ s.backlogSize ∧
      (s.backlogSize < n → Rests s')) AnyError := by
  induction n generalizing s with
  | zero => exact ⟨le_rfl, fun h => absurd h (Nat.not_lt_zero _)⟩
  | succ n ih =>
    have hfits : ∀ k, Preserves (Fits k) AnyError (processBacklogFuel P n) :=
      fun k s h => ih.imp fun _ s' hs' => hs'.1.trans h
    unfold processBacklogFuel
    simp only [ends_bind, ends_ite]
    refine (drainAll_ends _ fun k m src => handleQueueableMessage_fits m src (hfits k)).imp ?_
    intro processed s₁ hs₁
    refine ⟨fun hprocessed => ?_, fun hprocessed => ?_⟩
    · rw [Drained, if_pos hprocessed] at hs₁
      refine ih.imp fun _ s' hs' => ⟨hs'.1.trans hs₁.le, fun hlt => hs'.2 ?_⟩
      exact Nat.lt_of_lt_of_le hs₁ (Nat.le_of_lt_succ hlt)
    · obtain rfl : processed = false := by simpa using hprocessed
      have hrests := hs₁.rests
      obtain ⟨rfl, -⟩ := hs₁
      exact ⟨le_rfl, fun _ => hrests⟩

theorem processBacklog_rests : Ends (processBacklog P) s (fun _ => Rests) AnyError := by
  unfold processBacklog
  rw [ends_bind]
  exact (processBacklogFuel_ends _).imp fun _ s' hs' => hs'.2 (Nat.lt_succ_self _)

/-! ### Handling an input -/

/-- The program keeps the backlogs at rest. -/
def KeepsRest {α : Type} (x : M β α) : Prop := Preserves Rests AnyError x

theorem processNewView_keepsRest : KeepsRest (processNewView P) := by
  intro s h
  unfold processNewView
  simp only [ends_bind, ends_ite, ends_replicaInfo]
  refine ⟨fun _ => h, fun _ => ⟨fun info _ => ?_, fun _ => trivial⟩⟩
  split
  · simp only [ends_bind, ends_ite, ends_enter, ends_modify]
    refine ⟨fun _ => h, fun _ => ?_⟩
    refine Ends.trivial.imp fun _ s₁ _ => ?_
    refine Ends.trivial.imp fun _ s₂ _ => ?_
    simp only [ends_modifyCur]
    split
    · simp only [ends_bind]
      refine Ends.trivial.imp fun _ s₃ _ => ?_
      rw [ends_get]
      exact Ends.trivial.imp fun _ s₄ _ => processBacklog_rests
    · simp only [ends_bind]
      refine Ends.trivial.imp fun _ s₃ _ => ?_
      exact Ends.trivial.imp fun _ s₄ _ => processBacklog_rests
  · exact h

theorem sendViewChange_rests {s₀ : Replica β} (h : Rests s₀) (hqueues : s.queues = s₀.queues)
    (hdone : s.cur.checkpointDone = s₀.cur.checkpointDone) :
    Ends (sendViewChange P) s (fun _ => Rests) AnyError := by
  unfold sendViewChange
  simp only [ends_bind]
  refine processNewView_keepsRest _ (h.inactive (.trans ?_ hqueues) rfl hdone)
  refine queues_map fun info => ?_
  split_ifs <;> rfl

theorem sendViewChange_keepsRest : KeepsRest (sendViewChange P) :=
  fun _ h => sendViewChange_rests h rfl rfl

theorem maybeSendNewView_sameStage :
    Ends (maybeSendNewView P) s (fun _ => SameStage s) AnyError := by
  unfold maybeSendNewView
  simp only [ends_bind, ends_ite, ends_liftE]
  refine ⟨fun _ => .refl s, fun _ => ⟨fun r _ => ?_, fun _ _ => trivial⟩⟩
  split
  · split
    · simp only [ends_ite, ends_bind, ends_deref]
      exact ⟨fun _ => ⟨fun _ _ => ⟨rfl, rfl, rfl, rfl, rfl⟩, fun _ => trivial⟩,
        fun _ => ⟨rfl, rfl, rfl, rfl, rfl⟩⟩
    · exact ⟨rfl, rfl, rfl, rfl, rfl⟩
  · exact .refl s

theorem handleViewChange_keepsRest (svc : Signed β) (src : ℕ) :
    KeepsRest (handleViewChange P svc src) := by
  intro s h
  have hqueues : ∀ vc, SBFT.queues { s with replicaState := s.replicaState.modify src fun info =>
      { info with viewchange := some vc, signedViewchange := some svc } } = s.queues :=
    fun vc => queues_modify fun _ => rfl
  refine handleViewChange_ends admits_anyError svc src h
    (fun vc => h.sameStage ⟨hqueues vc, rfl, rfl, rfl, rfl⟩)
    (fun vc _ _ => sendViewChange_rests h (hqueues vc) rfl)
    (fun _ _ _ _ h => h.sameStage ⟨rfl, rfl, rfl, rfl, rfl⟩) fun s h _ => ?_
  exact maybeSendNewView_sameStage.imp fun _ s' hs' => h.sameStage hs'

theorem handleNewView_keepsRest (nv : NewView β) (src : ℕ) :
    KeepsRest (handleNewView P nv src) := by
  intro s h
  refine handleNewView_ends admits_anyError h
    (fun _ => h.sameStage ⟨rfl, rfl, rfl, rfl, rfl⟩) ?_
    (fun _ h₁ _ _ => h₁.inactive rfl rfl rfl) processNewView_keepsRest sendViewChange_keepsRest
  rintro _ ⟨choices, rfl⟩ - -
  exact h.sameStage ⟨queues_modify fun _ => rfl, rfl, rfl, rfl, rfl⟩

theorem handleHello_keepsRest (hello : Hello β) (src : ℕ) :
    KeepsRest (handleHello P hello src) := by
  intro s h
  have hsame : ∀ {s s' : Replica β}, Rests s → SameStage s s' → Rests s' := fun h => h.sameStage
  refine handleHello_ends admits_anyError hello src (hsame h ⟨rfl, rfl, rfl, rfl, rfl⟩)
    (fun _ _ _ _ => ⟨fun _ => hsame h ⟨rfl, rfl, rfl, rfl, rfl⟩,
      fun _ => hsame h ⟨rfl, rfl, rfl, rfl, rfl⟩⟩)
    (fun _ _ h => hsame h ⟨rfl, rfl, rfl, rfl, rfl⟩) (fun _ h => h) (fun _ _ => trivial)
    (fun _ _ _ _ _ => Ends.trivial) fun s _ => ?_
  rw [ends_bind]
  refine Ends.trivial.imp fun _ s₂ _ => ?_
  rw [ends_bind]
  exact Ends.trivial.imp fun _ s₃ _ => processBacklog_rests

theorem connection_keepsRest (r : ℕ) : KeepsRest (connection P r) := by
  intro s h
  refine (connection_greeted s r).mono ?_ fun _ _ _ => trivial
  rintro - _ ⟨es, -, rfl⟩
  exact h.sameStage ⟨rfl, rfl, rfl, rfl, rfl⟩

theorem handleRequest_rests (req : Request β) (h : Rests s) (hdue : NoneDue P s) :
    Ends (handleRequest P req) s (fun _ => Rests) AnyError := by
  have hsame : ∀ s', SameStage s s' → Rests s' := fun s' => h.sameStage
  unfold handleRequest
  simp only [ends_bind, ends_ite]
  refine ⟨fun _ => ⟨fun _ => ?_, fun _ => ⟨fun _ => hsame _ ⟨rfl, rfl, rfl, rfl, rfl⟩,
    fun _ => hsame _ ⟨rfl, rfl, rfl, rfl, rfl⟩⟩⟩, fun _ => hsame _ ⟨rfl, rfl, rfl, rfl, rfl⟩⟩
  refine maybeSendNextBatch_rests (hsame _ ⟨rfl, rfl, rfl, rfl, rfl⟩) ?_
  exact hdue.congr rfl rfl rfl rfl

theorem handleQueueableMessage_rests (h : Rests s)
    (hdue : Input.Proposes s (.receive m src) → NoneDue P s) :
    Ends (handleQueueableMessage P (processBacklog P) m src) s (fun _ => Rests) AnyError := by
  unfold handleQueueableMessage
  split
  · apply (handlePreprepare_stage _ _).imp
    rintro - s' (hs' | hs')
    · exact h.sameStage hs'
    · exact .proposed (hdue trivial) hs'
  · exact (handlePrepare_sameStage _ _).imp fun _ s' hs' => h.sameStage hs'
  · exact (handleCommit_sameStage _ _).imp fun _ s' hs' => h.sameStage hs'
  · exact handleCheckpoint_ends _ _ (fun s' hs' => h.sameStage hs')
      fun s₁ _ => processBacklog_rests
  · exact h

theorem receive_rests (h : Rests s) (hdue : Input.Proposes s (.receive m src) → NoneDue P s) :
    Ends (receive P m src) s (fun _ => Rests) AnyError := by
  unfold receive
  rw [ends_bind, ends_emit]
  have h₁ := h.sameStage ⟨rfl, rfl, rfl, rfl, rfl⟩
  have hdue₁ : NoneDue P s → NoneDue P { s with trace := .recv m src :: s.trace } := by
    intro h
    refine h.congr rfl rfl rfl ?_
    exact lastSeq_cons_of_ne P s.trace (by simp)
  split
  · exact handleHello_keepsRest _ _ _ h₁
  · exact handleRequest_rests _ h₁ (hdue₁ (hdue trivial))
  · exact handleViewChange_keepsRest _ _ _ h₁
  · exact handleNewView_keepsRest _ _ _ h₁
  · rw [ends_bind]
    apply (testBacklog_first m src).imp
    rintro wait _ ⟨rfl, hfirst⟩
    rw [ends_ite]
    refine ⟨fun hwait => recordBacklogMsg_rests h₁ (hfirst hwait), fun _ => ?_⟩
    refine handleQueueableMessage_rests h₁ fun hproposes => hdue₁ (hdue ?_)
    cases m <;> exact hproposes

theorem fireTimer_rests {timer : ℕ} (h : Rests s)
    (hdue : Input.Proposes s (.timer timer) → NoneDue P s) :
    Ends (fireTimer P timer) s (fun _ => Rests) AnyError := by
  unfold fireTimer
  rw [ends_bind, ends_get]
  have h₁ : ∀ timers, Rests { s with timers := timers } :=
    fun timers => h.sameStage ⟨rfl, rfl, rfl, rfl, rfl⟩
  split
  · exact h
  · rename_i t fn hfind
    rw [ends_bind]
    cases fn with
    | requestTimeout | viewChangeTimeout => exact sendViewChange_keepsRest _ (h₁ _)
    | maybeSendNextBatch =>
      have ht : t = timer := by simpa using List.find?_some hfind
      have hmem : (timer, TimerFn.maybeSendNextBatch) ∈ s.timers :=
        ht ▸ mem_of_find?_eq_some hfind
      exact maybeSendNextBatch_rests (h₁ _) ((hdue hmem).congr rfl rfl rfl rfl)

theorem handle_rests (h : Rests s) (hdue : inp.Proposes s → NoneDue P s) :
    Ends (handle P inp) s (fun _ => Rests) AnyError := by
  cases inp with
  | receive => exact receive_rests h hdue
  | request => exact h.sameStage ⟨rfl, rfl, rfl, rfl, rfl⟩
  | connection r => exact connection_keepsRest r s h
  | timer => exact fireTimer_rests h hdue

/-! ### Runs -/

/-- The backlogs of the process are at rest, unless it has halted. -/
def Process.Rests (p : Process β) : Prop := p.halted = false → Sbft.Rests p.replica

theorem Process.rests_start (cfg : Config) (id : ℕ) (t : List (Event β)) :
    (start P cfg id t).Rests := by
  have hstate := restore_restarted (P := P) cfg id t
  unfold Ends at hstate
  unfold start
  split at hstate
  · rename_i s' heq
    rw [heq]
    intro _ queue hqueue m hm
    obtain ⟨info, hinfo, rfl⟩ := mem_map.mp hqueue
    rw [show (ofResult (.ok () s')).replica.replicaState = _ from hstate.1.1] at hinfo
    rw [eq_of_mem_replicate hinfo] at hm
    cases hm
  · rename_i heq
    rw [heq]
    intro hhalted
    cases hhalted

theorem Process.rests_handle (h : Sbft.Rests s)
    (hdue : inp.Proposes s → NoneDue P s) : (ofResult (handle P inp s)).Rests := by
  have hends := handle_rests h hdue
  unfold Ends at hends
  split at hends
  · rename_i heq
    rw [heq]
    exact fun _ => hends
  · rename_i heq
    rw [heq]
    intro hhalted
    cases hhalted

/-- When a preprepare may be accepted, no message is waiting for it only. -/
def Unhurried (P : Primitives β) (B : Finset ℕ) (sys : System β) (l : Label β) : Prop :=
  ∀ p ∈ sys.procs[l.replica]?, ∀ a ∈ sys.input P B l.replica l.action,
    a.1.Proposes p.replica → NoneDue P p.replica

instance (B : Finset ℕ) (sys : System β) (l : Label β) : Decidable (Unhurried P B sys l) :=
  inferInstanceAs (Decidable (∀ p ∈ sys.procs[l.replica]?, ∀ a ∈ _, _ → NoneDue P _))

theorem System.step_rests {B : Finset ℕ} {sys sys' : System β} {l : Label β}
    (hunhurried : Unhurried P B sys l) (h : ∀ p ∈ sys.procs, p.Rests)
    (hstep : sys.step P B l = some sys') : ∀ p ∈ sys'.procs, p.Rests := by
  obtain ⟨-, p, hp, hcases⟩ := step_cases hstep
  -- one process is replaced by one whose backlogs are at rest
  have hset : ∀ (p' : Process β) (old : List (Event β)) (net : List (Packet β)), p'.Rests →
      ∀ q ∈ (sys.commit l.replica old p' net).procs, q.Rests := by
    intro p' old net hp' q hq
    obtain hq | rfl := mem_or_eq_of_mem_set hq
    · exact h q hq
    · exact hp'
  obtain ⟨-, rfl⟩ | ⟨hhalted, inp, net, after, hinput, rfl, ⟨-, rfl⟩ | ⟨k, -, rfl⟩⟩ := hcases
  · exact hset _ _ _ (rests_start _ _ _)
  · refine hset _ _ _ (rests_handle ?_ ?_)
    · exact (h p (mem_of_getElem? hp) hhalted).sameStage ⟨rfl, rfl, rfl, rfl, rfl⟩
    · intro hproposes
      refine (hunhurried p hp (inp, net) hinput ?_).congr rfl rfl rfl rfl
      cases inp <;> exact hproposes
  · exact hset _ _ _ (rests_start _ _ _)

/-- Between inputs the backlogs of correct replicas are at rest, in every run in which no message
waits for a preprepare that may be accepted. -/
theorem quiescent_of_run {cfg : Config} {B : Finset ℕ} {ls : List (Label β)} {sys : System β}
    (hunhurried : Along (System.step P B) (Unhurried P B) (System.init P cfg) ls)
    (hrun : System.run P B (System.init P cfg) ls = some sys) {i : ℕ} {p : Process β}
    (hp : sys.procs[i]? = some p) (hrunning : p.halted = false) : Quiescent p.replica := by
  rw [run_eq_runSteps] at hrun
  have hrests : ∀ p ∈ sys.procs, p.Rests := by
    refine runSteps_invariant (I := fun sys : System β => ∀ p ∈ sys.procs, p.Rests) ?_ ?_ hunhurried
      hrun
    · intro p hp
      obtain ⟨i, -, rfl⟩ := mem_map.mp hp
      exact rests_start cfg i []
    · intro sys l sys' hl h hstep
      exact step_rests hl h hstep
  exact (hrests p (mem_of_getElem? hp) hrunning).quiescent

/-- Replica 1 gets the vote of replica 2 for the first batch before the batch itself. -/
def earlyVote : List (Label Term) :=
  [.of 0 (.request (.nat 7)), .of 0 (.deliver 0 0), .of 2 (.deliver 0 1), .of 1 (.deliver 2 0)]

theorem quiescent_earlyVote : ∃ sys p,
    System.run symbolic ∅ (System.init symbolic fourReplicas) earlyVote = some sys ∧
      sys.procs[1]? = some p ∧ p.replica.queues ≠ [[], [], [], []] ∧ Quiescent p.replica := by
  have hunhurried : Along (step symbolic ∅) (Unhurried symbolic ∅)
      (init symbolic fourReplicas) earlyVote := by decide +kernel
  obtain ⟨sys, hrun, p, hp, hwaiting⟩ : ∃ sys,
      run symbolic ∅ (init symbolic fourReplicas) earlyVote = some sys ∧
        ∃ p, sys.procs[1]? = some p ∧
          p.halted = false ∧ p.replica.queues.map List.length = [0, 0, 1, 0] := by
    decide +kernel
  refine ⟨sys, p, hrun, hp, fun hempty => ?_, quiescent_of_run hunhurried hrun hp hwaiting.1⟩
  rw [hempty] at hwaiting
  exact absurd hwaiting.2 (by decide)

/-- After the batch has arrived as well, the vote could be counted but stays in the backlog. -/
theorem not_quiescent_earlyVote : ∃ sys p, System.run symbolic ∅ (System.init symbolic fourReplicas)
      (earlyVote ++ [.of 1 (.deliver 0 1)]) = some sys ∧
      sys.procs[1]? = some p ∧ p.halted = false ∧ ¬Quiescent p.replica := by
  obtain ⟨sys, hrun, p, hp, hrunning, queue, hqueue, m, hm, hready⟩ : ∃ sys,
      run symbolic ∅ (init symbolic fourReplicas) (earlyVote ++ [.of 1 (.deliver 0 1)]) = some sys ∧
        ∃ p, sys.procs[1]? = some p ∧ p.halted = false ∧ ∃ queue ∈ p.replica.queues,
          ∃ m ∈ queue.head?, (testBacklogMessage m).run' p.replica = some false := by
    decide +kernel
  refine ⟨sys, p, hrun, hp, hrunning, fun hquiescent => ?_⟩
  delta EStateM.run' EStateM.run at hready
  rw [hquiescent queue hqueue m hm] at hready
  cases hready

end Fabric.Sbft
