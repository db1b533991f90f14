import Fabric.Sbft.Group

/-!
# Requests that are submitted once

A request that is submitted once reaches each replica at most once. A primary that receives it
puts it into its open batch once, and pending requests are kept under their hashes. So no batch
contains the request more than once, however often it is proposed.

## Main definitions

- `Replica.Singly`, `System.Singly`: the invariant of a replica and of a group

## Main results

- `receive_singly`, `fireTimer_singly`: every reaction of a replica keeps it
- `System.step_singly`, `System.run_singly`: so do every step and every run
-/

namespace Fabric.Sbft

open Fabric.Common List Process

variable {β : Type} [DecidableEq β] {P : Primitives β} {d : β} {t : List (Event β)} {n : ℕ}
  {s s' : Replica β}

/-- A batch that may be accepted on receiving the message contains the payload at most once. -/
def Msg.Singly (d : β) : Msg β → Prop
  | .preprepare pp => ∀ b ∈ pp.batch, b.payloads.count d ≤ 1
  | .newView nv => ∀ b ∈ nv.batch, b.payloads.count d ≤ 1
  | _ => True

/-- Events other than requests; batches that are sent or accepted contain the payload at most once.
-/
def Event.Plain (d : β) : Event β → Prop
  | .send (.request _) _ | .recv _ _ => False
  | .send m _ => m.Singly d
  | .call (.handleCheckedPreprepare pp) _ => (Msg.preprepare pp).Singly d
  | _ => True

variable {m : Msg β} {backlog : M β Unit} {e : Event β}

theorem plain_broadcastEvents {N : ℕ} (h : (Event.send m 0).Plain d) :
    ∀ e ∈ broadcastEvents N m, e.Plain d := by
  intro e he
  obtain ⟨dest, -, rfl⟩ := mem_broadcastEvents.mp he
  cases m <;> exact h

/-- The events since the history `t` are plain. -/
def PlainSince (d : β) (t : List (Event β)) (s : Replica β) : Prop :=
  ∃ es, s.trace = es ++ t ∧ ∀ e ∈ es, e.Plain d

theorem PlainSince.congr (h : PlainSince d t s) (htrace : s'.trace = s.trace) :
    PlainSince d t s' := by
  obtain ⟨es, hes, hplain⟩ := h
  exact ⟨es, htrace.trans hes, hplain⟩

/-- What may be proposed or accepted contains the payload at most once, the open batch at most `n`
times. All events since `t` are plain. -/
structure Replica.Singly (P : Primitives β) (d : β) (t : List (Event β)) (n : ℕ)
    (s : Replica β) : Prop where
  history : PlainSince d t s
  batch : (s.batch.map Request.payload).count d ≤ n
  pending : ∀ e ∈ s.pending.entries, e.1 = P.hash e.2.payload
  preprep : ∀ pp ∈ s.cur.preprep, (Msg.preprepare pp).Singly d
  table : ∀ info ∈ s.replicaState, (∀ m ∈ info.backLog, m.Singly d) ∧
    ∀ nv ∈ info.newview, (Msg.newView nv).Singly d

/-- The program keeps it that way, and where it stops it has added plain events only. -/
def KeepsSingly {α : Type} (P : Primitives β) (d : β) (t : List (Event β)) (n : ℕ)
    (x : M β α) : Prop :=
  Preserves (Replica.Singly P d t n) (fun _ => PlainSince d t) x

namespace Replica.Singly

/-- Plain events may be added to the history. -/
theorem extend (h : s.Singly P d t n) (es : List (Event β)) (htrace : s'.trace = es ++ s.trace)
    (hes : ∀ e ∈ es, e.Plain d) (hbatch : s'.batch = s.batch) (hpending : s'.pending = s.pending)
    (hpreprep : ∀ pp ∈ s'.cur.preprep, (Msg.preprepare pp).Singly d)
    (hstate : s'.replicaState = s.replicaState) : s'.Singly P d t n where
  history := by
    obtain ⟨es₀, hes₀, hplain⟩ := h.history
    refine ⟨es ++ es₀, by rw [htrace, hes₀, append_assoc], ?_⟩
    exact forall_mem_append.mpr ⟨hes, hplain⟩
  batch := hbatch ▸ h.batch
  pending := hpending ▸ h.pending
  preprep := hpreprep
  table := hstate ▸ h.table

theorem congr (h : s.Singly P d t n) (htrace : s'.trace = s.trace) (hbatch : s'.batch = s.batch)
    (hpending : s'.pending = s.pending) (hcur : s'.cur.preprep = s.cur.preprep)
    (hstate : s'.replicaState = s.replicaState) : s'.Singly P d t n :=
  h.extend [] htrace (forall_mem_nil _) hbatch hpending (hcur ▸ h.preprep) hstate

theorem emit (h : s.Singly P d t n) (he : e.Plain d) :
    Replica.Singly P d t n { s with trace := e :: s.trace } :=
  h.extend [e] rfl (forall_mem_singleton.mpr he) rfl rfl h.preprep rfl

theorem broadcast (h : s.Singly P d t n) {N : ℕ} (hm : (Event.send m 0).Plain d) :
    Replica.Singly P d t n { s with trace := broadcastEvents N m ++ s.trace } :=
  h.extend _ rfl (plain_broadcastEvents hm) rfl rfl h.preprep rfl

theorem modifyInfo (h : s.Singly P d t n) {src : ℕ} {f : ReplicaInfo β → ReplicaInfo β}
    (hf : ∀ info ∈ s.replicaState, (∀ m ∈ (f info).backLog, m.Singly d) ∧
      ∀ nv ∈ (f info).newview, (Msg.newView nv).Singly d) :
    Replica.Singly P d t n { s with replicaState := s.replicaState.modify src f } where
  history := h.history
  batch := h.batch
  pending := h.pending
  preprep := h.preprep
  table := by
    intro info hinfo
    obtain ⟨i, hi⟩ := List.getElem?_of_mem hinfo
    rw [List.getElem?_modify] at hi
    obtain ⟨info', hinfo', rfl⟩ := Option.map_eq_some_iff.mp hi
    have hmem := mem_of_getElem? hinfo'
    split_ifs
    · exact hf info' hmem
    · exact h.table info' hmem

end Replica.Singly

/-! ### Voting -/

section Voting

theorem maybeSendCommit_singly : KeepsSingly P d t n maybeSendCommit := by
  intro s h
  unfold maybeSendCommit
  simp only [ends_bind, ends_ite]
  refine ⟨fun _ => h, fun _ => ((h.emit ?_).broadcast ?_).congr rfl rfl rfl rfl rfl⟩
  · trivial
  · trivial

theorem handlePrepare_singly (p : Subject β) (src : ℕ) :
    KeepsSingly P d t n (handlePrepare p src) := by
  intro s h
  have hcall := h.emit (e := .call (.handlePrepare p src) s.status) trivial
  unfold handlePrepare
  simp only [ends_bind, ends_deref, ends_ite]
  refine ⟨fun sv _ => ⟨fun _ => hcall, fun _ => ⟨fun _ => hcall, fun _ => ?_⟩⟩,
    fun _ => hcall.history⟩
  split
  · exact hcall.history
  · simp only [ends_ite]
    refine ⟨fun _ => hcall, fun _ => maybeSendCommit_singly _ ?_⟩
    exact hcall.congr rfl rfl rfl rfl rfl

theorem handleCommit_singly (c : Subject β) (src : ℕ) :
    KeepsSingly P d t n (handleCommit P c src) := by
  intro s h
  have hcall := h.emit (e := .call (.handleCommit c src) s.status) trivial
  unfold handleCommit
  simp only [ends_bind, ends_deref, ends_ite]
  refine ⟨fun sv _ => ⟨fun _ => hcall, fun _ => ⟨fun _ => hcall, fun _ => ?_⟩⟩,
    fun _ => hcall.history⟩
  split
  · exact hcall.history
  · simp only [ends_bind, ends_ite, maybeExecute]
    refine ⟨fun _ => hcall, fun _ => ⟨fun _ => hcall.congr rfl rfl rfl rfl rfl, fun _ => ?_⟩⟩
    refine (((hcall.emit ?_).emit ?_).broadcast ?_).congr rfl rfl rfl rfl rfl
    · trivial
    · trivial
    · trivial

end Voting

/-! ### Proposing -/

section Proposing

theorem handleCheckedPreprepare_singly {pp : Preprepare β} (hpp : (Msg.preprepare pp).Singly d) :
    KeepsSingly P d t n (handleCheckedPreprepare P pp) := by
  intro s h
  have hcall := h.emit (e := .call (.handleCheckedPreprepare pp) s.status) hpp
  have hpersist := hcall.emit (e := .persist (.preprepare pp)) trivial
  have hpreprep : ∀ pp' ∈ some pp, (Msg.preprepare pp').Singly d := by
    rintro _ ⟨⟩
    exact hpp
  unfold handleCheckedPreprepare acceptPreprepare
  simp only [ends_bind, ends_deref, ends_ite]
  refine ⟨fun b _ => ⟨fun sv _ => ⟨fun _ => ?_, fun _ => ?_⟩, fun _ => hcall.history⟩,
    fun _ => hcall.history⟩
  · refine maybeSendCommit_singly _ ⟨?_, h.batch, h.pending, hpreprep, h.table⟩
    exact (hpersist.broadcast (m := .prepare _) trivial).history
  · exact maybeSendCommit_singly _ ⟨hpersist.history, h.batch, h.pending, hpreprep, h.table⟩

theorem handlePreprepare_singly {pp : Preprepare β} (hpp : (Msg.preprepare pp).Singly d)
    (src : ℕ) : KeepsSingly P d t n (handlePreprepare P pp src) := by
  intro s h
  have hcall := h.emit (e := .call (.handlePreprepare pp src) s.status) trivial
  unfold handlePreprepare
  simp only [ends_bind, ends_ite]
  refine ⟨fun _ => hcall, fun _ => ⟨fun _ => hcall, fun _ => ends_nextSeq ?_ hcall.history⟩⟩
  simp only [ends_deref]
  refine ⟨fun sv _ => ⟨fun _ => hcall, fun _ => ⟨fun _ => hcall, fun _ => ?_⟩⟩,
    fun _ => hcall.history⟩
  split
  · split
    · simp only [ends_ite]
      refine ⟨fun _ => hcall, fun _ => ⟨fun _ => hcall, fun _ => ?_⟩⟩
      exact handleCheckedPreprepare_singly hpp _ hcall
    · exact hcall
  · exact hcall

theorem sendPreprepare_singly {batch : List (Request β)}
    (hbatch : (batch.map Request.payload).count d ≤ 1) :
    KeepsSingly P d t n (sendPreprepare P batch) := by
  intro s h
  unfold sendPreprepare
  rw [ends_bind]
  refine ends_nextSeq ?_ h.history
  -- the proposal has the payloads of the batch
  have hpp : (Msg.preprepare ⟨some (s.core.next P), some (makeBatch P (s.core.next P).seq
      (some (P.hash (lastBatch P s.trace).header)) (batch.map Request.payload))⟩).Singly d := by
    rintro b hb
    cases hb
    exact hbatch
  refine handleCheckedPreprepare_singly hpp _ ((h.emit ?_).broadcast hpp)
  trivial

/-- Pending requests are kept under their hashes, so a payload is among them once. -/
theorem Replica.Singly.count_pending (h : s.Singly P d t n)
    {entries : List (Sigma fun _ : β => Request β)} (hperm : entries.Perm s.pending.entries) :
    ((entries.map fun e => e.2).map Request.payload).count d ≤ 1 := by
  have hkeys : (s.pending.entries.map Sigma.fst).Nodup := s.pending.nodupKeys
  have hhash : s.pending.entries.map Sigma.fst =
      (s.pending.entries.map fun e => e.2.payload).map P.hash := by
    rw [map_map]
    exact map_congr_left fun e he => h.pending e he
  -- different keys are hashes of different payloads
  rw [hhash] at hkeys
  rw [map_map]
  exact nodup_iff_count_le_one.mp ((hperm.map _).nodup_iff.mpr hkeys.of_map) d

theorem maybeSendNextBatch_singly (hn : n ≤ 1) : KeepsSingly P d t n (maybeSendNextBatch P) := by
  intro s h
  have hidle : ∀ timers timer choices, Replica.Singly P d t n
      { s with timers := timers, batchTimer := timer, choices := choices } :=
    fun _ _ _ => h.congr rfl rfl rfl rfl rfl
  have hopen : ∀ timers timer choices, Replica.Singly P d t n
      { s with batch := [], timers := timers, batchTimer := timer, choices := choices } :=
    fun _ _ _ => ⟨h.history, Nat.zero_le n, h.pending, h.preprep, h.table⟩
  unfold maybeSendNextBatch
  simp only [ends_bind, ends_ite]
  refine ⟨fun _ => hidle _ _ _, fun _ => ⟨fun _ => hidle _ _ _, fun _ =>
    ⟨fun _ => ?_, fun _ => ?_⟩⟩⟩
  · -- the open batch is empty: all that is pending is proposed
    refine ⟨fun _ => hidle _ _ _, fun _ => ?_⟩
    exact sendPreprepare_singly (h.count_pending (reorder_perm _ _)) _ (hopen _ _ _)
  · refine ⟨fun _ => hidle _ _ _, fun _ => ?_⟩
    exact sendPreprepare_singly (h.batch.trans hn) _ (hopen _ _ _)

/-- The request goes into the open batch, which has a place for it. -/
theorem handleRequest_singly (hn : n ≤ 1) {req : Request β} (h : s.Singly P d t n)
    (hreq : ((s.batch ++ [req]).map Request.payload).count d ≤ n) :
    Ends (handleRequest P req) s (fun _ => Replica.Singly P d t n) (fun _ => PlainSince d t) := by
  have hpending : ∀ e ∈ (s.pending.insert (P.hash req.payload) req).entries,
      e.1 = P.hash e.2.payload := by
    intro e he
    obtain rfl | he := mem_cons.mp he
    · rfl
    · exact h.pending e ((kerase_sublist _ _).subset he)
  unfold handleRequest
  simp only [ends_bind, ends_ite]
  refine ⟨fun _ => ⟨fun _ => ?_, fun _ => ⟨fun _ => ?_, fun _ => ?_⟩⟩, fun _ => ?_⟩
  · exact maybeSendNextBatch_singly hn _ ⟨h.history, hreq, hpending, h.preprep, h.table⟩
  · exact ⟨h.history, hreq, hpending, h.preprep, h.table⟩
  · exact ⟨h.history, hreq, hpending, h.preprep, h.table⟩
  · exact ⟨h.history, h.batch, hpending, h.preprep, h.table⟩

end Proposing

/-! ### Delivering -/

section Delivering

theorem mem_entries_of_foldl_erase {data : List β} {p : AList fun _ : β => Request β}
    {e : Sigma fun _ : β => Request β}
    (he : e ∈ (data.foldl (fun p d => p.erase (P.hash d)) p).entries) : e ∈ p.entries := by
  induction data generalizing p with
  | nil => exact he
  | cons _ _ ih => exact (kerase_sublist _ _).subset (ih he)

theorem Replica.Singly.deliver (h : s.Singly P d t n) {b : Batch β} {data : List β} :
    Replica.Singly P d t n { s with
      pending := data.foldl (fun p d => p.erase (P.hash d)) s.pending
      trace := .deliver b :: s.trace } where
  history := (h.emit (e := .deliver b) trivial).history
  batch := h.batch
  pending e he := h.pending e (mem_entries_of_foldl_erase he)
  preprep := h.preprep
  table := h.table

theorem handleCheckpoint_singly (hn : n ≤ 1)
    (hbacklog : KeepsSingly P d t n backlog) (c : Checkpoint β) (src : ℕ) :
    KeepsSingly P d t n (handleCheckpoint P backlog c src) := by
  intro s h
  have hcall := h.emit (e := .call (.handleCheckpoint c src) s.status) trivial
  unfold handleCheckpoint
  simp only [ends_bind, ends_ite]
  refine ⟨fun _ => hcall, fun _ => ⟨fun _ => hcall, fun _ => ⟨fun _ => hcall, fun _ =>
    ⟨fun _ => hcall, fun _ => ?_⟩⟩⟩⟩
  split
  · exact hcall.history
  · simp only [ends_bind, ends_modifyCur, ends_rangeOrder]
    split
    · exact hcall.congr rfl rfl rfl rfl rfl
    · simp only [ends_bind, ends_ite, ends_deref]
      refine ⟨fun _ => hcall.history, fun _ => ⟨fun pp _ => ⟨fun b _ => ?_, fun _ => hcall.history⟩,
        fun _ => hcall.history⟩⟩
      refine (maybeSendNextBatch_singly hn _ ?_).imp fun _ s₁ hs₁ => hbacklog s₁ hs₁
      exact hcall.deliver.congr rfl rfl rfl rfl rfl

end Delivering

/-! ### Queued messages -/

section Queues

theorem handleQueueableMessage_singly (hn : n ≤ 1)
    (hbacklog : KeepsSingly P d t n backlog) (hm : m.Singly d) (src : ℕ) :
    KeepsSingly P d t n (handleQueueableMessage P backlog m src) := by
  intro s h
  unfold handleQueueableMessage
  split
  · exact handlePreprepare_singly hm src s h
  · exact handlePrepare_singly _ src s h
  · exact handleCommit_singly _ src s h
  · exact handleCheckpoint_singly hn hbacklog _ src s h
  · exact h

theorem discardBacklog_singly (src : ℕ) : KeepsSingly P d t n (discardBacklog src) := by
  intro s h
  unfold discardBacklog
  rw [ends_modifyInfo]
  refine ⟨fun _ => h.modifyInfo fun info hinfo => ⟨?_, (h.table info hinfo).2⟩, fun _ => h.history⟩
  exact forall_mem_nil _

theorem recordBacklogMsg_singly (hm : m.Singly d) (src : ℕ) :
    KeepsSingly P d t n (recordBacklogMsg m src) := by
  intro s h
  unfold recordBacklogMsg
  simp only [ends_bind, ends_ite]
  refine ⟨fun _ => h.history, fun _ => ?_⟩
  rw [ends_modifyInfo]
  refine ⟨fun _ => ?_, fun _ => h.history⟩
  have hqueued : Replica.Singly P d t n { s with
      replicaState := s.replicaState.modify src fun info =>
        { info with backLog := info.backLog ++ [m] } } := by
    refine h.modifyInfo fun info hinfo => ⟨?_, (h.table info hinfo).2⟩
    exact forall_mem_append.mpr
      ⟨(h.table info hinfo).1, forall_mem_singleton.mpr hm⟩
  simp only [ends_replicaInfo]
  refine ⟨fun info _ => ⟨fun _ => ?_, fun _ => hqueued⟩, fun _ => hqueued.history⟩
  refine (discardBacklog_singly src _ hqueued).imp fun _ s₁ hs₁ => ?_
  exact hs₁.emit trivial

theorem admits_plainSince : Admits (Replica.Singly P d t n) fun _ => PlainSince d t :=
  fun _ _ _ h htrace _ => h.history.congr htrace

theorem processBacklog_singly (hn : n ≤ 1) : KeepsSingly P d t n (processBacklog P) := by
  refine processBacklog_preserves admits_plainSince fun backlog hbacklog => ?_
  intro s src info m rest h hinfo hlog _
  have htable := h.table info (mem_of_getElem? hinfo)
  rw [hlog] at htable
  -- the first message of the queue leaves it before it is handled
  obtain ⟨hm, hrest⟩ := forall_mem_cons.mp htable.1
  refine handleQueueableMessage_singly hn hbacklog hm src _ ?_
  exact h.modifyInfo fun info hinfo => ⟨hrest, (h.table info hinfo).2⟩

end Queues

/-! ### Changing views -/

section Views

theorem checkNewViewSignatures_singly (nv : NewView β) :
    KeepsSingly P d t n (checkNewViewSignatures P nv) := by
  intro s h
  refine (checkNewViewSignatures_ends nv).mono ?_ ?_
  · rintro r _ ⟨⟨choices, rfl⟩, -⟩
    exact h.congr rfl rfl rfl rfl rfl
  · rintro e s' ⟨htrace, -⟩
    exact h.history.congr htrace

theorem maybeSendNewView_singly : KeepsSingly P d t n (maybeSendNewView P) := by
  intro s h
  unfold maybeSendNewView
  simp only [ends_bind, ends_ite, ends_liftE]
  refine ⟨fun _ => h, fun _ => ⟨fun r _ => ?_, fun _ _ => h.history⟩⟩
  have hsend : ∀ nv, (Msg.newView nv).Singly d → Replica.Singly P d t n { s with
      lastNewViewSent := some nv
      trace := broadcastEvents s.config.N (.newView nv) ++ s.trace } :=
    fun nv hnv => (h.broadcast (m := .newView nv) hnv).congr rfl rfl rfl rfl rfl
  split
  · split
    · simp only [ends_ite, ends_bind, ends_deref]
      -- the batch of the new view is the one that was accepted, or there is none
      refine ⟨fun _ => ⟨fun pp hpp => hsend _ ?_, fun _ => h.history⟩, fun _ => hsend _ ?_⟩
      · exact h.preprep pp hpp
      · intro b hb
        cases hb
    · refine hsend _ fun b hb => ?_
      cases hb
  · exact h

theorem maybeDeliverUsingXset_singly (nv : NewView β) :
    KeepsSingly P d t n (maybeDeliverUsingXset P nv) := by
  intro s h
  unfold maybeDeliverUsingXset
  rw [ends_bind]
  refine (checkNewViewSignatures_singly nv s h).imp fun r s₁ h₁ => ?_
  split
  · simp only [ends_bind, ends_liftE]
    refine ⟨fun x _ => ?_, fun _ _ => h₁.history⟩
    split
    · simp only [ends_bind]
      refine ends_seq ?_ h₁.history
      simp only [ends_liftE, ends_ite, ends_bind, ends_deref]
      refine ⟨fun hd _ => ⟨fun _ => ⟨fun _ => ⟨fun pp _ => ⟨fun b _ => ?_, fun _ => h₁.history⟩,
        fun _ => h₁.history⟩, fun _ => ?_⟩, fun _ => h₁⟩, fun _ _ => h₁.history⟩
      · exact h₁.deliver.congr rfl rfl rfl rfl rfl
      · exact h₁.deliver.congr rfl rfl rfl rfl rfl
    · exact h₁.history
  · exact h₁.history

theorem processNewView_singly (hn : n ≤ 1) : KeepsSingly P d t n (processNewView P) := by
  intro s h
  unfold processNewView
  simp only [ends_bind, ends_ite, ends_replicaInfo]
  refine ⟨fun _ => h, fun _ => ⟨fun info hinfo => ?_, fun _ => h.history⟩⟩
  split
  · rename_i nv hnv
    have hbatch := (h.table info (mem_of_getElem? hinfo)).2 nv hnv
    simp only [ends_bind, ends_ite]
    refine ⟨fun _ => h, fun _ => ?_⟩
    have hcall := h.emit (e := .call (.processNewView nv) s.status) trivial
    have henter : Replica.Singly P d t n { s with
        activeView := true
        trace := .call (.processNewView nv) s.status :: s.trace } :=
      hcall.congr rfl rfl rfl rfl rfl
    -- the batch of the new view is handled like a preprepare of its primary
    refine (discardBacklog_singly _ _ henter).imp fun _ s₁ h₁ => ?_
    refine (maybeDeliverUsingXset_singly nv s₁ h₁).imp fun _ s₂ h₂ => ?_
    split
    · rename_i b hb
      simp only [ends_bind, ends_liftE]
      refine ⟨fun hd _ => ?_, fun _ _ => h₂.history⟩
      refine (handleCheckedPreprepare_singly ?_ _ ?_).imp
        fun _ s₃ h₃ => processBacklog_singly hn s₃ h₃
      · intro b' hb'
        cases hb'
        exact hbatch b hb
      · exact h₂.congr rfl rfl rfl rfl rfl
    · simp only [ends_bind]
      refine (maybeSendNextBatch_singly hn _ ?_).imp
        fun _ s₃ h₃ => processBacklog_singly hn s₃ h₃
      exact h₂.congr rfl rfl rfl rfl rfl
  · exact h

theorem sendViewChange_singly (hn : n ≤ 1) : KeepsSingly P d t n (sendViewChange P) := by
  intro s h
  unfold sendViewChange
  simp only [ends_bind]
  refine processNewView_singly hn _ ?_
  have hcall := h.emit (e := .call .sendViewChange s.status) trivial
  -- only the view changes are removed from the table
  have htable : ∀ f, (∀ info, (f info).backLog = info.backLog) →
      (∀ info, (f info).newview = info.newview) →
      Replica.Singly P d t n { s with
        replicaState := s.replicaState.map f
        trace := .call .sendViewChange s.status :: s.trace } := by
    intro f hlog hnewview
    refine ⟨hcall.history, h.batch, h.pending, h.preprep, fun info hinfo => ?_⟩
    obtain ⟨info', hinfo', rfl⟩ := mem_map.mp hinfo
    rw [hlog, hnewview]
    exact h.table info' hinfo'
  refine (((htable _ ?_ ?_).emit ?_).broadcast ?_).congr rfl rfl rfl rfl rfl
  · intro info
    split_ifs <;> rfl
  · intro info
    split_ifs <;> rfl
  · trivial
  · trivial

theorem handleViewChange_singly (hn : n ≤ 1) (svc : Signed β) (src : ℕ) :
    KeepsSingly P d t n (handleViewChange P svc src) := by
  intro s h
  have hstore : ∀ vc, Replica.Singly P d t n { s with
      replicaState := s.replicaState.modify src fun info =>
        { info with viewchange := some vc, signedViewchange := some svc } } :=
    fun vc => h.modifyInfo fun info hinfo => h.table info hinfo
  refine handleViewChange_ends admits_plainSince svc src h hstore (fun vc v _ => ?_)
    (fun _ _ _ _ h => h.congr rfl rfl rfl rfl rfl) fun s h _ => maybeSendNewView_singly s h
  exact sendViewChange_singly hn _ ((hstore vc).congr rfl rfl rfl rfl rfl)

theorem handleNewView_singly (hn : n ≤ 1) {nv : NewView β} (hnv : (Msg.newView nv).Singly d)
    (src : ℕ) : KeepsSingly P d t n (handleNewView P nv src) := by
  intro s h
  refine handleNewView_ends admits_plainSince h (fun _ => h.congr rfl rfl rfl rfl rfl) ?_
    (fun _ h₁ _ _ => h₁.congr rfl rfl rfl rfl rfl) (processNewView_singly hn)
    (sendViewChange_singly hn)
  rintro _ ⟨choices, rfl⟩ - -
  have h₁ : Replica.Singly P d t n { s with choices := choices } := h.congr rfl rfl rfl rfl rfl
  refine h₁.modifyInfo fun info hinfo => ⟨(h₁.table info hinfo).1, ?_⟩
  intro nv' hnv'
  cases hnv'
  exact hnv

end Views

/-! ### Inputs -/

section Inputs

theorem handleHello_singly (hn : n ≤ 1) (hello : Hello β) (src : ℕ) :
    KeepsSingly P d t n (handleHello P hello src) := by
  intro s h
  have hcall := h.emit (e := .call (.handleHello hello src) s.status) trivial
  refine handleHello_ends admits_plainSince hello src hcall
    (fun _ _ _ _ => ⟨fun _ => hcall, fun _ => hcall.deliver⟩)
    (fun _ _ h => h.congr rfl rfl rfl rfl rfl) (fun _ h => h) (fun _ h => h)
    (fun nv s _ _ h => maybeDeliverUsingXset_singly nv _ ?_) fun s h => ?_
  · split_ifs <;> exact h.congr rfl rfl rfl rfl rfl
  rw [ends_bind, ends_modifyInfo]
  refine ⟨fun _ => ?_, fun _ => h.history⟩
  rw [ends_bind]
  refine (discardBacklog_singly src _ ?_).imp fun _ s₃ h₃ => processBacklog_singly hn s₃ h₃
  exact h.modifyInfo fun info hinfo => h.table info hinfo

theorem connection_singly (r : ℕ) : KeepsSingly P d t n (connection P r) := by
  intro s h
  have hcall := h.emit (e := .call (.connection r) s.status) trivial
  have hgreeted : ∀ s', Greeted P s r s' → s'.Singly P d t n := by
    rintro _ ⟨es, hes, rfl⟩
    refine hcall.extend es rfl (fun e he => ?_) rfl rfl h.preprep rfl
    cases hes e he with
    | preprepare pp _ hpp => exact h.preprep pp hpp
    | _ => trivial
  exact (connection_greeted s r).mono (fun _ s' hs' => hgreeted s' hs')
    fun _ s' hs' => (hgreeted s' hs'.1).history

theorem fireTimer_singly (hn : n ≤ 1) (timer : ℕ) : KeepsSingly P d t n (fireTimer P timer) := by
  intro s h
  unfold fireTimer
  rw [ends_bind, ends_get]
  split
  · exact h
  · rename_i fn _
    have hfired : ∀ timers, Replica.Singly P d t n { s with timers := timers } :=
      fun _ => h.congr rfl rfl rfl rfl rfl
    rw [ends_bind]
    cases fn with
    | requestTimeout | viewChangeTimeout => exact sendViewChange_singly hn _ (hfired _)
    | maybeSendNextBatch => exact maybeSendNextBatch_singly hn _ (hfired _)

/-- Whether a message is the request for the payload. -/
def Msg.asksFor (d : β) : Msg β → Bool
  | .request req => req.payload = d
  | _ => false

/-- A message that asks for the payload takes one more place in the open batch. -/
theorem receive_singly {src n' : ℕ} (h : s.Singly P d t n) (hm : m.Singly d)
    (hn' : n' = n + if m.asksFor d then 1 else 0) (hn : n' ≤ 1) :
    Ends (receive P m src) s (fun _ => Replica.Singly P d (.recv m src :: s.trace) n')
      (fun _ => PlainSince d (.recv m src :: s.trace)) := by
  subst hn'
  unfold receive
  rw [ends_bind]
  have h₁ : Replica.Singly P d (.recv m src :: s.trace) (n + if m.asksFor d then 1 else 0)
      { s with trace := .recv m src :: s.trace } :=
    ⟨⟨[], rfl, forall_mem_nil _⟩, h.batch.trans (Nat.le_add_right _ _), h.pending, h.preprep,
      h.table⟩
  split
  · exact handleHello_singly hn _ src _ h₁
  · refine handleRequest_singly hn h₁ ?_
    rw [map_append, count_append]
    refine Nat.add_le_add h.batch ?_
    rw [map_singleton, count_singleton, Msg.asksFor]
    simp
  · exact handleViewChange_singly hn _ src _ h₁
  · exact handleNewView_singly hn hm src _ h₁
  · unfold testBacklog
    simp only [ends_bind, ends_replicaInfo, ends_ite]
    refine ⟨fun info _ => ⟨fun _ => ?_, fun _ => ?_⟩, fun _ => h₁.history⟩
    · simpa using recordBacklogMsg_singly hm src _ h₁
    · apply (testBacklogMessage_ends m h₁.history).imp
      rintro wait _ ⟨rfl, -⟩
      refine ⟨fun _ => recordBacklogMsg_singly hm src _ h₁, fun _ => ?_⟩
      exact handleQueueableMessage_singly hn (processBacklog_singly hn) hm src _ h₁

end Inputs

/-! ### Runs -/

section Runs

/-- A preprepare that is accepted contains the payload at most once. -/
def AcceptsSingly (d : β) (e : Event β) : Prop :=
  ∀ a ∈ e.accepts?, ∀ b ∈ a.1.batch, b.payloads.count d ≤ 1

theorem Event.Plain.acceptsSingly (h : e.Plain d) : AcceptsSingly d e := by
  rintro ⟨pp, st⟩ ha b hb
  cases e with
  | call k =>
    cases k with
    | handleCheckedPreprepare =>
      cases ha
      exact h b hb
    | _ => cases ha
  | _ => cases ha

/-- How often the request for the payload has arrived. -/
def arrived (d : β) (t : List (Event β)) : ℕ :=
  t.countP fun | .recv m _ => m.asksFor d | _ => false

/-- How often the request for the payload was sent to a replica. -/
def requested (d : β) (dest : ℕ) (t : List (Event β)) : ℕ :=
  t.countP fun | .send m r => m.asksFor d && r == dest | _ => false

/-- How many requests for the payload are on their way to a replica. -/
def approaching (d : β) (dest : ℕ) (net : List (Packet β)) : ℕ :=
  net.countP fun pk => pk.msg.asksFor d && pk.dest == dest

theorem arrived_append (es t : List (Event β)) : arrived d (es ++ t) = arrived d es + arrived d t :=
  countP_append

theorem arrived_of_plain {es : List (Event β)} (h : ∀ e ∈ es, e.Plain d) : arrived d es = 0 := by
  rw [arrived, countP_eq_zero]
  intro e he
  cases e with
  | recv => exact (h _ he).elim
  | _ => simp

theorem requested_of_plain {es : List (Event β)} (h : ∀ e ∈ es, e.Plain d) (dest : ℕ) :
    requested d dest es = 0 := by
  rw [requested, countP_eq_zero]
  intro e he
  cases e with
  | send m =>
    cases m with
    | request => exact (h _ he).elim
    | _ => simp [Msg.asksFor]
  | _ => simp

/-- A broadcast sends a request to each replica once. -/
theorem requested_broadcastEvents (N : ℕ) (req : Request β) (dest : ℕ) :
    requested d dest (broadcastEvents N (.request req)) ≤ if req.payload = d then 1 else 0 := by
  rw [requested, broadcastEvents, countP_reverse, countP_map]
  split_ifs with hreq
  · have hcount : (List.range N).count dest ≤ 1 :=
      nodup_iff_count_le_one.mp nodup_range dest
    refine le_trans ?_ hcount
    exact countP_mono_left fun r _ hr => by simpa [Msg.asksFor, hreq] using hr
  · rw [Nat.le_zero, countP_eq_zero]
    intro r _
    simp [Msg.asksFor, hreq]

omit [DecidableEq β] in
theorem newPackets_append (src : ℕ) (es old : List (Event β)) :
    newPackets src old (es ++ old) = newPackets src [] es := by
  simp [newPackets]

theorem approaching_newPackets (src dest : ℕ) (es : List (Event β)) :
    approaching d dest (newPackets src [] es) = requested d dest es := by
  unfold approaching requested newPackets
  simp only [length_nil, Nat.sub_zero, take_length]
  rw [filterMap_reverse, countP_reverse]
  induction es with
  | nil => rfl
  | cons e _ ih =>
    cases e with
    | send => simp only [filterMap_cons, countP_cons, ih]
    | _ =>
      simp only [filterMap_cons, countP_cons, ih, Bool.false_eq_true, if_false, Nat.add_zero]

/-- At most `k` requests for the payload reach each replica, and what may be accepted contains it at
most once. -/
structure System.Singly (P : Primitives β) (d : β) (k : ℕ) (sys : System β) : Prop where
  ready : ∀ p ∈ sys.procs, p.halted = false →
    p.replica.Singly P d p.replica.trace (arrived d p.replica.trace)
  accepts : ∀ p ∈ sys.procs, ∀ e ∈ p.replica.trace, AcceptsSingly d e
  packets : ∀ pk ∈ sys.net, pk.msg.Singly d
  submitted : ∀ i p, sys.procs[i]? = some p →
    arrived d p.replica.trace + approaching d i sys.net ≤ k

namespace System.Singly

variable {sys : System β} {k k' i : ℕ} {p p' : Process β} {net : List (Packet β)}

/-- A process goes on by `es`. What arrives was on its way, and what is sent is submitted now. -/
theorem commit (h : sys.Singly P d k) (hp : sys.procs[i]? = some p) (es : List (Event β))
    (htrace : p'.replica.trace = es ++ p.replica.trace)
    (hready : p'.halted = false →
      p'.replica.Singly P d p'.replica.trace (arrived d p'.replica.trace))
    (haccepts : ∀ e ∈ es, AcceptsSingly d e) (hpackets : ∀ pk ∈ net, pk.msg.Singly d)
    (hsends : ∀ m dest, .send m dest ∈ es → m.Singly d)
    (hcount : ∀ j, (if j = i then arrived d es else 0) + approaching d j net +
      requested d j es + k ≤ approaching d j sys.net + k') :
    (sys.commit i p.replica.trace p' net).Singly P d k' where
  ready q hq := by
    obtain hq | rfl := mem_or_eq_of_mem_set hq
    · exact h.ready q hq
    · exact hready
  accepts q hq e he := by
    obtain hq | rfl := mem_or_eq_of_mem_set hq
    · exact h.accepts q hq e he
    · rw [htrace] at he
      obtain he | he := mem_append.mp he
      · exact haccepts e he
      · exact h.accepts p (mem_of_getElem? hp) e he
  packets pk hpk := by
    obtain hpk | hpk := mem_append.mp hpk
    · exact hpackets pk hpk
    · rw [htrace, newPackets_append] at hpk
      exact hsends _ _ (mem_newPackets hpk).2
  submitted j q hq := by
    -- the packets of the new messages are added to the network
    have hnet : approaching d j (sys.commit i p.replica.trace p' net).net =
        approaching d j net + requested d j es := by
      rw [System.commit, htrace, newPackets_append, approaching, countP_append]
      exact congrArg _ (approaching_newPackets i j es)
    have hj := hcount j
    simp only [System.commit] at hq
    by_cases hji : j = i
    · subst hji
      have hlt := (List.getElem?_eq_some_iff.mp hp).1
      obtain rfl : p' = q := by simpa [hlt] using hq
      rw [htrace, arrived_append]
      have hold := h.submitted j p hp
      rw [if_pos rfl] at hj
      omega
    · have hold := h.submitted j q (by simpa [Ne.symm hji] using hq)
      omega

end System.Singly

/-- Whether a step submits the payload. -/
def Label.submits (d : β) (l : Label β) : Bool := l.action = .request d

theorem ofResult_singly {x : M β Unit} {es₀ : List (Event β)} {s : Replica β} {n' : ℕ}
    (hends : Ends x s (fun _ => Replica.Singly P d (es₀ ++ s.trace) n')
      (fun _ => PlainSince d (es₀ ++ s.trace))) :
    ∃ es, (ofResult (x s)).replica.trace = es ++ es₀ ++ s.trace ∧
      (∀ e ∈ es, e.Plain d) ∧ ((ofResult (x s)).halted = false →
        (ofResult (x s)).replica.Singly P d (es₀ ++ s.trace) n') := by
  unfold Ends at hends
  split at hends
  · rename_i s' heq
    rw [heq]
    obtain ⟨es, htrace, hplain⟩ := hends.history
    exact ⟨es, by rw [append_assoc]; exact htrace, hplain, fun _ => hends⟩
  · rename_i heq
    rw [heq]
    obtain ⟨es, htrace, hplain⟩ := hends
    refine ⟨es, by rw [append_assoc]; exact htrace, hplain, fun hhalted => ?_⟩
    cases hhalted

theorem Replica.Singly.rebase (h : s.Singly P d t n) : s.Singly P d s.trace n :=
  ⟨⟨[], rfl, forall_mem_nil _⟩, h.batch, h.pending, h.preprep, h.table⟩

variable {sys : System β} {p : Process β}

/-- A handler runs after the events `es₀`, with which its message arrived. -/
theorem System.Singly.handled {k i : ℕ} {net : List (Packet β)}
    {x : M β Unit} (h : sys.Singly P d k) (hp : sys.procs[i]? = some p) (es₀ : List (Event β))
    (hs : s.trace = p.replica.trace)
    (hends : Ends x s (fun _ => Replica.Singly P d (es₀ ++ s.trace) (arrived d (es₀ ++ s.trace)))
      (fun _ => PlainSince d (es₀ ++ s.trace)))
    (hes₀ : ∀ e ∈ es₀, ∃ m src, e = .recv m src) (hpackets : ∀ pk ∈ net, pk.msg.Singly d)
    (hcount : ∀ j, (if j = i then arrived d es₀ else 0) + approaching d j net ≤
      approaching d j sys.net) :
    (sys.commit i p.replica.trace (ofResult (x s)) net).Singly P d k := by
  obtain ⟨es, htrace, hplain, hready⟩ := ofResult_singly hends
  -- only the message of the input has arrived
  have harrived : arrived d (es ++ es₀ ++ s.trace) = arrived d (es₀ ++ s.trace) := by
    rw [append_assoc, arrived_append, arrived_of_plain hplain, Nat.zero_add]
  refine h.commit hp (es ++ es₀) (by rw [htrace, hs]) ?_ ?_ hpackets ?_ ?_
  · intro hhalted
    have hnew := (hready hhalted).rebase
    rw [htrace, harrived]
    rwa [htrace] at hnew
  · intro e he
    obtain he | he := mem_append.mp he
    · exact (hplain e he).acceptsSingly
    · obtain ⟨m, src, rfl⟩ := hes₀ e he
      intro a ha
      cases ha
  · intro m dest he
    obtain he | he := mem_append.mp he
    · have hsend := hplain _ he
      cases m with
      | request => exact hsend.elim
      | _ => exact hsend
    · obtain ⟨m', src, heq⟩ := hes₀ _ he
      cases heq
  · intro j
    have hj := hcount j
    have hnone : requested d j es₀ = 0 := by
      rw [requested, countP_eq_zero]
      intro e he
      obtain ⟨m, src, rfl⟩ := hes₀ e he
      simp
    have hsent : requested d j (es ++ es₀) = 0 := by
      rw [requested, countP_append]
      exact Nat.add_eq_zero_iff.mpr ⟨requested_of_plain hplain j, hnone⟩
    rw [arrived_append, arrived_of_plain hplain]
    split_ifs at hj ⊢ <;> omega

theorem System.Singly.requested {k i : ℕ} {req : β}
    (h : sys.Singly P d k) (hp : sys.procs[i]? = some p) (hs : s.trace = p.replica.trace)
    (hready : s.Singly P d t (arrived d s.trace)) :
    (sys.commit i p.replica.trace (ofResult (handle P (.request req) s)) sys.net).Singly P d
      (k + if req = d then 1 else 0) := by
  have hsend : ∀ e ∈ broadcastEvents s.config.N (.request ⟨req⟩), ∃ dest,
      e = .send (.request ⟨req⟩) dest := by
    intro e he
    obtain ⟨dest, -, rfl⟩ := mem_broadcastEvents.mp he
    exact ⟨dest, rfl⟩
  have hnone : arrived d (broadcastEvents s.config.N (.request ⟨req⟩)) = 0 := by
    rw [arrived, countP_eq_zero]
    intro e he
    obtain ⟨dest, rfl⟩ := hsend e he
    simp
  refine h.commit hp (broadcastEvents s.config.N (.request ⟨req⟩)) ?_ ?_ ?_ h.packets ?_ ?_
  · rw [← hs]
    rfl
  · intro _
    refine ⟨⟨[], rfl, forall_mem_nil _⟩, hready.batch.trans ?_, hready.pending, hready.preprep,
      hready.table⟩
    exact (arrived_append _ s.trace).ge.trans' (Nat.le_add_left _ _)
  · intro e he a ha
    obtain ⟨dest, rfl⟩ := hsend e he
    cases ha
  · intro m dest he
    obtain ⟨dest', heq⟩ := hsend _ he
    cases heq
    trivial
  · intro j
    have hj := requested_broadcastEvents (d := d) s.config.N ⟨req⟩ j
    split_ifs at hj ⊢ <;> omega

/-- One step of the group, which may submit the payload. -/
theorem System.step_singly {sys sys' : System β} {l : Label β} {k : ℕ} (h : sys.Singly P d k)
    (hrestart : ¬ l.Restarts) (hk : k + (if l.submits d then 1 else 0) ≤ 1)
    (hstep : sys.step P ∅ l = some sys') :
    sys'.Singly P d (k + if l.submits d then 1 else 0) := by
  obtain ⟨-, p, hp, hcases⟩ := step_cases hstep
  obtain ⟨haction, -⟩ | ⟨hhalted, inp, net, after, hinput, rfl, ⟨-, rfl⟩ | ⟨c, hcrash, -⟩⟩ := hcases
  · exact absurd (.inr haction) hrestart
  · have hs : Replica.Singly P d p.replica.trace (arrived d p.replica.trace)
        { p.replica with choices := l.choices } :=
      (h.ready p (mem_of_getElem? hp) hhalted).congr rfl rfl rfl rfl rfl
    have hold := h.submitted l.replica p hp
    generalize haction : l.action = action at hinput
    cases action with
    | deliver src =>
      obtain ⟨⟨m, net'⟩, htake, hrest⟩ := Option.bind_eq_some_iff.mp hinput
      dsimp only at hrest
      split_ifs at hrest
      obtain ⟨rfl, rfl⟩ : Input.receive m src = inp ∧ net' = net := by simpa using hrest
      have hperm := takePacket_perm htake
      have hnone : l.submits d = false := by simp [Label.submits, haction]
      rw [hnone] at hk ⊢
      have hm := h.packets _ (hperm.mem_iff.mpr mem_cons_self)
      -- the message was on its way
      have hway : ∀ i, approaching d i sys.net = approaching d i net' +
          if (m.asksFor d && l.replica == i) = true then 1 else 0 := by
        intro i
        rw [approaching, hperm.countP_eq, countP_cons]
        rfl
      have harrived : arrived d (.recv m src :: p.replica.trace) = arrived d p.replica.trace +
          if m.asksFor d then 1 else 0 := by
        rw [arrived, countP_cons]
        rfl
      -- what arrives was counted while it was on its way
      have hle : arrived d (.recv m src :: p.replica.trace) ≤ 1 := by
        have hself := hway l.replica
        simp only [beq_self_eq_true, Bool.and_true] at hself
        omega
      refine h.handled hp [.recv m src] rfl (receive_singly hs hm harrived hle) ?_ ?_ ?_
      · intro e he
        exact ⟨m, src, mem_singleton.mp he⟩
      · intro pk hpk
        exact h.packets pk (hperm.mem_iff.mpr (mem_cons_of_mem _ hpk))
      · intro i
        rw [hway i, arrived, countP_singleton]
        by_cases hi : i = l.replica
        · subst hi
          simp only [beq_self_eq_true, Bool.and_true, if_true]
          omega
        · rw [if_neg hi]
          omega
    | inject => simp [input] at hinput
    | request req =>
      obtain ⟨rfl, rfl⟩ : Input.request req = inp ∧ sys.net = net := by
        simpa [input] using hinput
      have hsubmits : l.submits d = decide (req = d) := by simp [Label.submits, haction]
      rw [hsubmits]
      simp only [decide_eq_true_eq]
      exact h.requested hp rfl hs
    | connection r =>
      obtain ⟨rfl, rfl⟩ : Input.connection r = inp ∧ sys.net = net := by
        simpa [input] using hinput
      have hnone : l.submits d = false := by simp [Label.submits, haction]
      rw [hnone]
      exact h.handled hp [] rfl (connection_singly r _ hs) (forall_mem_nil _) h.packets
        fun j => by simp [arrived]
    | timer timer =>
      obtain ⟨rfl, rfl⟩ : Input.timer timer = inp ∧ sys.net = net := by
        simpa [input] using hinput
      have hnone : l.submits d = false := by simp [Label.submits, haction]
      rw [hnone]
      have hle : arrived d p.replica.trace ≤ 1 := by omega
      exact h.handled hp [] rfl (fireTimer_singly hle timer _ hs) (forall_mem_nil _) h.packets
        fun j => by simp [arrived]
    | restart => exact absurd (.inr haction) hrestart
  · exact absurd (.inl (by simp [hcrash])) hrestart

theorem restore_singly (cfg : Config) (id : ℕ) :
    Ends (restore P) { SBFT.blank cfg id with trace := [] }
      (fun _ s => s.Singly P d [.restart] 0 ∧ s.trace = [.restart])
      (fun _ s => s.trace = [.restart]) := by
  refine (restore_restarted cfg id []).mono ?_ ?_
  · rintro - s ⟨⟨hstate, hbatch, hpending⟩, hc⟩
    obtain ⟨active, hcore⟩ := hc.of_nil
    have htrace : s.trace = [.restart] := congrArg Core.trace hcore
    have hcur : s.cur = (SBFT.blank cfg id).cur := congrArg Core.cur hcore
    refine ⟨⟨⟨[], htrace, forall_mem_nil _⟩, by simp [hbatch], by simp [hpending], ?_, ?_⟩, htrace⟩
    · rw [hcur]
      intro pp hpp
      cases hpp
    · rw [hstate]
      intro info hinfo
      rw [eq_of_mem_replicate hinfo]
      exact ⟨forall_mem_nil _, fun nv hnv => by cases hnv⟩
  · rintro e s ⟨c, hc, htrace⟩
    obtain ⟨active, rfl⟩ := hc.of_nil
    exact htrace.symm

theorem System.init_singly (cfg : Config) : (init P cfg).Singly P d 0 := by
  have htrace : ∀ i, (start P cfg i []).replica.trace = [.restart] ∧
      (start P cfg i []).replica.Singly P d [.restart] 0 ∨
      (start P cfg i []).replica.trace = [.restart] ∧ (start P cfg i []).halted = true := by
    intro i
    have hstart := restore_singly (P := P) (d := d) cfg i
    unfold Ends at hstart
    unfold start
    split at hstart
    · rename_i heq
      rw [heq]
      exact .inl ⟨hstart.2, hstart.1⟩
    · rename_i heq
      rw [heq]
      exact .inr ⟨hstart, rfl⟩
  refine ⟨fun p hp hhalted => ?_, fun p hp e he => ?_, forall_mem_nil _, fun i p hp => ?_⟩
  · obtain ⟨i, -, rfl⟩ := mem_map.mp hp
    obtain ⟨htr, hsingly⟩ | ⟨-, hhalt⟩ := htrace i
    · rw [htr]
      exact hsingly
    · rw [hhalt] at hhalted
      cases hhalted
  · obtain ⟨i, -, rfl⟩ := mem_map.mp hp
    have htr := (htrace i).elim And.left And.left
    rw [htr] at he
    rw [mem_singleton.mp he]
    intro a ha
    cases ha
  · obtain ⟨i, -, rfl⟩ := mem_map.mp (mem_of_getElem? hp)
    rw [(htrace i).elim And.left And.left]
    exact le_rfl

/-- Where the payload is submitted once, it is in every batch at most once. -/
theorem System.run_singly {cfg : Config} {ls : List (Label β)}
    (hrestart : ∀ l ∈ ls, ¬ l.Restarts) (hsubmit : ls.countP (Label.submits d) ≤ 1)
    (hrun : run P ∅ (init P cfg) ls = some sys) :
    sys.Singly P d (ls.countP (Label.submits d)) := by
  rw [run_eq_runSteps] at hrun
  refine runSteps_induction (φ := fun _ l => ¬ l.Restarts)
    (P := fun ls (sys : System β) => ls.countP (Label.submits d) ≤ 1 → sys.Singly P d (ls.countP _))
    (fun _ => init_singly cfg) (fun done l sys₁ sys₂ _ hl ih hstep hle => ?_)
    (along_of_forall_mem fun l hl _ => hrestart l hl) hrun hsubmit
  rw [countP_append, countP_singleton] at hle ⊢
  exact step_singly (ih (by omega)) hl hle hstep

end Runs

end Fabric.Sbft
