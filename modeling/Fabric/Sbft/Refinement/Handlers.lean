import Fabric.Sbft.Refinement.Ordering

/-!
# The view handlers and entry points refine the core

Each handler of `Handlers` takes a replica from a state to one that its core reaches
by steps, and creating a replica yields a core restarted over its history.

## Main results

- `handleViewChange_ends`, `handleNewView_ends`, `handleHello_ends`: rules for the handlers
- `receive_tracks`, `fireTimer_follows`, `request_follows`, `connection_follows`: the entry points
- `restore_restarted`: creating a replica
-/

namespace Fabric.Sbft

open Fabric.Common List Fabric.Sbft.Core

variable {β : Type} {P : Primitives β}

variable {nv : NewView β} {src : ℕ}

theorem Replica.enterView_core {s s' : Replica β} {best : Batch β} {state : List (ReplicaInfo β)}
    (h : s'.core = (Replica.core { s with
      activeView := true, replicaState := state
      trace := .call (.processNewView nv) s.status :: s.trace }).deliverXset P best) :
    (Replica.core { s' with cur := { s'.cur with
      checkpointDone := true, seq := { s'.cur.seq with seq := 0 } } }) =
      s.core.enterView P nv best := by
  simp only [Replica.core, Core.deliverXset, Core.mk.injEq] at h
  obtain ⟨h₁, h₂, h₃, h₄, h₅, h₆, h₇⟩ := h
  simp only [h₁, h₂, h₃, h₄, h₅, h₆, h₇]
  rfl

theorem Core.joinView_of_le {c : Core β} (h : c.view ≤ nv.view) :
    c.joinView nv = { c with view := nv.view, activeView := true } := by
  simp [joinView, h]

theorem Core.joinView_of_lt {c : Core β} (h : nv.view < c.view) : c.joinView nv = c := by
  simp [joinView, Nat.max_eq_left h.le, Nat.not_le.mpr h]

/-- A replica that has been greeting `r` since it was in state `s`. -/
def Greeted (P : Primitives β) (s : Replica β) (r : ℕ) (s' : Replica β) : Prop :=
  ∃ es : List (Event β), (∀ e ∈ es, Greeting P s.core r e) ∧
    s' = { s with trace := es ++ .call (.connection r) s.status :: s.trace }

section Greeted

variable {s s' : Replica β} {r : ℕ}

theorem Greeted.emit (h : Greeted P s r s') {e : Event β} (he : Greeting P s.core r e) :
    Greeted P s r { s' with trace := e :: s'.trace } := by
  obtain ⟨es, hes, rfl⟩ := h
  exact ⟨e :: es, by simpa using ⟨he, hes⟩, rfl⟩

variable (P s r) in
/-- The program goes on with the greeting. -/
def Greets (x : M β Unit) : Prop :=
  Preserves (Greeted P s r) (fun e s' => Greeted P s r s' ∧ e.OnData) x

theorem Greeted.checkpoint (hahead : s.core.Resends P) : Greets P s r (if s.cur.executed then do
    let c ← makeCheckpoint P
    Fabric.Sbft.emit (.send (.checkpoint c) r)
    else pure ()) := by
  intro s' h
  simp only [ends_ite]
  refine ⟨fun hex => ?_, fun _ => h⟩
  have hsigned := h.emit (.signCheckpoint hahead hex)
  obtain ⟨es, hes, rfl⟩ := h
  exact hsigned.emit (.checkpoint hahead hex)

theorem Greeted.commit {x : M β Unit} (hx : Greets P s r x) (hahead : s.core.Resends P) :
    Greets P s r (if s.cur.sentCommit then do
      Fabric.Sbft.emit (.send (.commit s.cur.subject) r)
      x
      else x) := by
  intro s' h
  rw [ends_ite]
  exact ⟨fun hsent => hx _ (h.emit (.commit hahead hsent)), fun _ => hx s' h⟩

theorem Greeted.inFlight {x : M β Unit} (hx : s.core.Resends P → Greets P s r x) :
    Greets P s r (if lastSeq P s.trace < s.cur.seq.seq ∧ s.activeView then
      if s.isPrimary then do
        let pp ← deref s.cur.preprep
        Fabric.Sbft.emit (.send (.preprepare pp) r)
        x
      else do
        Fabric.Sbft.emit (.send (.prepare s.cur.subject) r)
        x
    else pure ()) := by
  intro s' h
  simp only [ends_ite, ends_bind, ends_deref]
  exact ⟨fun hahead => ⟨fun _ => ⟨fun pp hpp => hx hahead _ (h.emit (.preprepare pp hahead hpp)),
    fun _ => ⟨h, by decide⟩⟩, fun _ => hx hahead _ (h.emit (.prepare hahead))⟩, fun _ => h⟩

end Greeted

variable [DecidableEq β] {t : List (Event β)}

/-! ### New views -/

section NewViews

variable {c₀ : Core β} {s : Replica β}

theorem maybeSendNewView_tracks (h : Tracks P c₀ s) (hprimary : s.isPrimary = true) :
    Ends (maybeSendNewView P) s (fun _ => Tracks P c₀) (Leaves P c₀) := by
  have hsend : ∀ vset xset batch, ¬ (s.lastNewViewSent.map fun nv => nv.view) = some s.view →
      Tracks P c₀ { s with
        lastNewViewSent := some ⟨s.view, vset, xset, batch⟩
        trace := broadcastEvents s.config.N (.newView ⟨s.view, vset, xset, batch⟩) ++ s.trace } :=
    fun vset xset batch hlast =>
      h.step (.sendNewView s.core ⟨s.view, vset, xset, batch⟩
        (of_decide_eq_true hprimary) rfl hlast)
        rfl
  unfold maybeSendNewView
  simp only [ends_bind, ends_ite, ends_liftE]
  refine ⟨fun _ => h, fun hlast => ⟨fun r _ => ?_, fun e he =>
    h.leaves (stops_of_onData (makeXset_raises _ _ _ e he))⟩⟩
  rcases r with _ | ⟨_ | x, best⟩
  · exact h
  · exact hsend _ _ _ hlast
  · simp only [ends_ite, ends_bind, ends_deref]
    exact ⟨fun _ => ⟨fun pp _ => hsend _ _ _ hlast, fun _ => h.leaves trivial⟩,
      fun _ => hsend _ _ _ hlast⟩

theorem checkNewViewSignatures_ends (nv : NewView β) : Ends (checkNewViewSignatures P nv) s
      (fun r s' => (∃ choices, s' = { s with choices := choices }) ∧
        ∀ vcs, r = .ok vcs → ∃ entries, entries.Perm nv.vset.toList ∧
          checkVset P s.config nv.view entries = .ok (.ok vcs))
      (fun e s' => s'.trace = s.trace ∧ e.OnData) := by
  unfold checkNewViewSignatures
  simp only [ends_bind, ends_rangeOrder, ends_get, ends_liftE]
  refine ⟨fun r hr => ⟨⟨_, rfl⟩, ?_⟩, fun e he => ⟨trivial, checkVset_raises _ _ _ e he⟩⟩
  rintro vcs rfl
  exact ⟨_, reorder_perm _ _, hr⟩

/-- The checkpoint of a new view is delivered as the core delivers it. -/
theorem maybeDeliverUsingXset_ends (nv : NewView β) : Ends (maybeDeliverUsingXset P nv) s
      (fun _ s' => ∃ x best, nv.Justified P s.config x best ∧
        s'.core = s.core.deliverXset P best ∧ s'.replicaState = s.replicaState)
      (fun e s' => s'.trace = s.trace ∧ e.OnData) := by
  unfold maybeDeliverUsingXset
  rw [ends_bind]
  refine (checkNewViewSignatures_ends nv).imp ?_
  rintro r _ ⟨⟨choices, rfl⟩, hr⟩
  cases r with
  | error => exact ⟨rfl, by decide⟩
  | ok vcs =>
    obtain ⟨entries, hperm, hcheck⟩ := hr vcs rfl
    simp only [ends_bind, ends_get, ends_liftE]
    refine ⟨fun r hx => ?_, fun e he => ⟨trivial, makeXset_raises _ _ _ e he⟩⟩
    rcases r with _ | ⟨x, best⟩
    · exact ⟨rfl, by decide⟩
    have hjust : nv.Justified P s.config x best := ⟨entries, vcs, _, hperm, hcheck, hx⟩
    simp only [ends_bind]
    refine ends_seq ?_ ⟨rfl, by decide⟩
    simp only [ends_liftE, ends_ite, ends_pure, ends_bind, ends_deref, ends_modifyCur,
      deliverBatch_ends]
    refine ⟨fun hd hhd => ?_, fun e he => ⟨trivial, decodeHeader_raises _ e he⟩⟩
    have hseq := (decodeHeader_eq_ok P hhd).2
    refine ⟨fun hlt => ⟨fun heq => ⟨fun pp hpp => ⟨fun b hb => ⟨x, best, hjust, ?_, trivial⟩,
      fun _ => ⟨trivial, by decide⟩⟩, fun _ => ⟨trivial, by decide⟩⟩,
      fun hne => ⟨x, best, hjust, ?_, trivial⟩⟩, fun hle => ⟨x, best, hjust, ?_, trivial⟩⟩
    · have hlast : s.core.last P < seqOf P best := hseq ▸ hlt
      have hbatch : s.core.xsetBatch P best = { best with payloads := b.payloads } := by
        simp [xsetBatch, hseq, heq, hpp, hb]
      rw [deliverXset_of_lt hlast, hbatch]
      rfl
    · have hlast : s.core.last P < seqOf P best := hseq ▸ hlt
      have hbatch : s.core.xsetBatch P best = best := by
        simp [xsetBatch, hseq, hne]
      rw [deliverXset_of_lt hlast, hbatch]
      rfl
    · have hlast : ¬ s.core.last P < seqOf P best := hseq ▸ hle
      rw [deliverXset_of_not_lt hlast]
      rfl

/-- The new view is entered with the request it selects, or with none. -/
theorem processNewView_follows : Follows P (processNewView P) := by
  intro c₀ s h
  unfold processNewView
  simp only [ends_bind, ends_ite, ends_replicaInfo]
  refine ⟨fun _ => h, fun hactive => ⟨fun info hinfo => ?_, fun _ => h.leaves trivial⟩⟩
  cases hnv : info.newview with
  | none => exact h
  | some nv =>
    simp only [ends_bind, ends_ite, ends_enter, ends_modify]
    refine ⟨fun _ => h, fun hview => ?_⟩
    replace hview := not_not.mp hview
    obtain ⟨hrecv, -, hok⟩ := h.1.newview _ info nv hinfo hnv
    have hcall := h.call (.processNewView nv)
    unfold discardBacklog
    rw [ends_modifyInfo]
    refine ⟨fun _ => ?_, fun _ => ⟨_, hcall.2, rfl, trivial⟩⟩
    refine (maybeDeliverUsingXset_ends nv).mono ?_ fun e s' hs' =>
      ⟨_, hcall.2, hs'.1.symm, Core.stops_of_onData hs'.2⟩
    rintro - s' ⟨x, best, hjust, hcore, hstate⟩
    simp only [ends_modifyCur]
    -- the view is entered with the request in flight dropped
    generalize hs₃ : ({ s' with cur := { s'.cur with
      checkpointDone := true, seq := { s'.cur.seq with seq := 0 } } }) = s₃
    have hcore₃ : s₃.core = s.core.enterView P nv best := by
      rw [← hs₃]
      exact Replica.enterView_core hcore
    have hsup : Supported P s₃ := by
      refine (h.modifyInfo (h.discarded s.primaryID)).1.extend ?_ (congrArg Core.config hcore₃)
        (congrArg Core.id hcore₃) ?_
      · rw [← hs₃]
        exact hstate
      · have htrace : s₃.trace = _ := congrArg Core.trace hcore₃
        rw [htrace]
        simp
    have hview₃ : s₃.core.view = s.view := by rw [hcore₃]; rfl
    have hactive₃ : s₃.core.activeView = true := by rw [hcore₃]; rfl
    cases hbatch : nv.batch with
    | none =>
      have htracks : Tracks P c₀ s₃ := ⟨hsup, hcore₃ ▸ h.2.tail (.newViewNull s.core nv x best
        (by simpa using hactive) hview hrecv hok hjust hbatch)⟩
      simp only [ends_bind, ends_cancelViewChangeTimer]
      exact Ends.imp (maybeSendNextBatch_follows c₀ _ (htracks.congr rfl rfl)) fun _ s'' h'' =>
        processBacklog_follows c₀ s'' h''
    | some b =>
      obtain ⟨-, hd, -, -, hcheck⟩ := hok.exists_checkBatch hbatch
      simp only [ends_bind, ends_liftE, ends_get]
      refine ⟨fun hd' hhd' => ?_, fun e he => ?_⟩
      · have hseq := (decodeHeader_eq_ok P hhd').2
        refine Ends.imp (handleCheckedPreprepare_tracks hsup rfl rfl rfl (.inl hactive₃)
          fun timeout => ?_) fun _ s'' h'' => processBacklog_follows c₀ s'' h''
        have hstep := Step.accept _ _ _ _ _ timeout
          (.newView (c := s.core) nv x best b (by simpa using hactive) hview hrecv hok hjust hbatch)
        rw [hseq, ← hcore₃] at hstep
        have hv : s₃.view = s.core.view := hview₃
        rw [hv]
        exact h.2.tail hstep
      · simp [decodeHeader, (checkBatch_eq_ok P hcheck).1] at he

end NewViews

/-! ### Rules for handlers -/

section Rules

variable {s : Replica β} {I J : Replica β → Prop} {E : Panic → Replica β → Prop}

/-- What is kept when a view change is stored, when the replica follows it into a later view, and
when the primary sends its new view. -/
theorem handleViewChange_ends (hE : Admits I E) (svc : Signed β) (src : ℕ) (h : I s)
    (hstore : ∀ vc, I { s with replicaState := s.replicaState.modify src fun info =>
      { info with viewchange := some vc, signedViewchange := some svc } })
    (hleave : ∀ vc v, s.view ≤ v → Ends (sendViewChange P) { s with
      view := v
      replicaState := s.replicaState.modify src fun info =>
        { info with viewchange := some vc, signedViewchange := some svc } } (fun _ => I) E)
    (htimer : ∀ s timers nextTimer timer, I s → I { s with
      timers := timers, nextTimer := nextTimer, viewChangeTimer := timer })
    (hnew : ∀ s, I s → s.isPrimary = true → Ends (maybeSendNewView P) s (fun _ => I) E) :
    Ends (handleViewChange P svc src) s (fun _ => I) E := by
  have hnil := fun s₁ (h₁) => hE .nilDereference s₁ s₁ h₁ rfl (by decide)
  have hindex := fun s₁ (h₁) => hE .indexOutOfRange s₁ s₁ h₁ rfl (by decide)
  unfold handleViewChange
  split
  · rename_i vc _
    simp only [ends_bind, ends_deref]
    refine ⟨fun cp _ => ?_, fun _ => hnil s h⟩
    split
    · simp only [ends_ite, ends_bind, ends_replicaInfo]
      refine ⟨fun _ => h, fun _ => ⟨fun info _ => ⟨fun _ => h, fun _ => ?_⟩, fun _ => hindex s h⟩⟩
      rw [ends_modifyInfo]
      refine ⟨fun _ => ?_, fun _ => hindex s h⟩
      simp only [ends_modify, ends_startTimer]
      refine ⟨fun hmin => hleave vc _ (Nat.le_sub_one_of_lt hmin.2), fun _ =>
        ⟨fun _ => ⟨fun hprimary => hnew _ ?_ hprimary, fun _ => ?_⟩,
        fun _ => ⟨fun hprimary => hnew _ (hstore vc) hprimary, fun _ => hstore vc⟩⟩⟩
      · exact htimer _ _ _ _ (hstore vc)
      · exact htimer _ _ _ _ (hstore vc)
    · exact h
  · exact h

/-- What is kept when an acceptable new view is stored and processed, and when another one makes the
replica leave its view. -/
theorem handleNewView_ends (hE : Admits I E) (h : I s)
    (hchoices : ∀ choices, I { s with choices := choices })
    (hstore : ∀ s₁ : Replica β, (∃ choices, s₁ = { s with choices := choices }) →
      src = s.primaryIDView nv.view → nv.Acceptable P s.config →
      I { s₁ with replicaState := s₁.replicaState.modify src fun info =>
        { info with newview := some nv } })
    (hraise : ∀ s₁ : Replica β, I s₁ → s₁.trace = s.trace → s₁.view < nv.view →
      I { s₁ with view := nv.view, activeView := false })
    (hprocess : Preserves I E (processNewView P)) (hleave : Preserves I E (sendViewChange P)) :
    Ends (handleNewView P nv src) s (fun _ => I) E := by
  have hindex := fun s₁ (h₁) => hE .indexOutOfRange s₁ s₁ h₁ rfl (by decide)
  unfold handleNewView
  simp only [ends_bind, ends_ite, ends_replicaInfo]
  refine ⟨fun _ => h, fun hsrc => ⟨fun info hinfo => ⟨fun _ => h, fun _ => ?_⟩,
    fun _ => hindex s h⟩⟩
  obtain rfl := not_not.mp hsrc
  refine (checkNewViewSignatures_ends nv).mono ?_ fun e s' hs' => hE e s s' h hs'.1 hs'.2
  rintro r _ ⟨⟨choices, rfl⟩, hr⟩
  -- an acceptable new view is stored, and its view entered if it is a later one
  have hkeep : nv.Acceptable P s.config → Ends (do
      modifyInfo (s.primaryIDView nv.view) fun info => { info with newview := some nv }
      if s.view < nv.view then do
        modify fun s => { s with view := nv.view, activeView := false }
        processNewView P
      else processNewView P) { s with choices := choices } (fun _ => I) E := by
    intro hok
    have hstored := hstore _ ⟨choices, rfl⟩ rfl hok
    simp only [ends_bind, ends_ite]
    rw [ends_modifyInfo]
    exact ⟨fun _ => ⟨fun hlt => hprocess _ (hraise _ hstored rfl hlt), fun _ => hprocess _ hstored⟩,
      fun _ => hindex _ (hchoices choices)⟩
  -- one that fails a check makes the replica leave its view
  have hrefuse := hleave _ (hchoices choices)
  cases r with
  | error => exact hrefuse
  | ok vcs =>
    obtain ⟨entries, hperm, hcheck⟩ := hr vcs rfl
    simp only [ends_bind, ends_ite, ends_liftE]
    refine ⟨fun x hx => ⟨fun _ => hrefuse, fun hxset => ?_⟩, fun e he =>
      hE e _ _ (hchoices choices) rfl (makeXset_raises _ _ _ e he)⟩
    obtain ⟨⟨_, best⟩, rfl, rfl⟩ := Option.map_eq_some_iff.mp (not_not.mp hxset)
    have hjust : ∃ best, nv.Justified P s.config nv.xset best :=
      ⟨best, entries, vcs, _, hperm, hcheck, hx⟩
    cases hxs : nv.xset with
    | none =>
      simp only [ends_ite, ends_bind]
      refine ⟨fun _ => hrefuse, fun hb => ?_⟩
      have hbatch : nv.batch = none := by simpa using hb
      rw [hbatch]
      exact hkeep ⟨hjust, fun _ => hbatch, by simp [hxs]⟩
    | some x =>
      simp only [ends_ite, ends_bind, ends_deref]
      refine ⟨fun b hbatch => ⟨fun _ => hrefuse, fun hdigest => ?_⟩, fun _ =>
        hE _ _ _ (hchoices choices) rfl (by decide)⟩
      rw [hbatch]
      dsimp only
      cases hbatchCheck : checkBatch P s.config b true false with
      | error => simpa using hrefuse
      | ok hd =>
        refine hkeep ⟨hjust, by simp [hxs], ?_⟩
        intro x' hx'
        obtain rfl : x = x' := by simpa [hxs] using hx'
        exact ⟨b, hd, hbatch, not_not.mp hdigest, hbatchCheck⟩

/-- What `handleHello` does once it has looked at the batch, in the view of `s`. -/
def joinView (P : Primitives β) (hello : Hello β) (src : ℕ) (s : Replica β) : M β Unit := do
  if let some nv := hello.newView then
    if s.primaryIDView nv.view ≠ src then return
    let .ok vcs ← checkNewViewSignatures P nv | return
    let some _ ← liftE (makeXset P s.config s.view vcs) | return
    if s.view ≤ nv.view then
      modify fun s => { s with view := nv.view, activeView := true }
    maybeDeliverUsingXset P nv
  modifyInfo src fun info => { info with hello := some hello }
  discardBacklog src
  processBacklog P

/-- A hello delivers its batch, which makes `K` true, and joins its new view, after which `J` holds.
-/
theorem handleHello_ends {K : Replica β → Prop} (hE : Admits I E) (hello : Hello β) (src : ℕ)
    (hcall : I { s with trace := .call (.handleHello hello src) s.status :: s.trace })
    (hdeliver : ∀ b hd, hello.batch = some b → checkBatch P s.config b false true = .ok hd →
      (¬ lastSeq P s.trace < hd.seq →
        K { s with trace := .call (.handleHello hello src) s.status :: s.trace }) ∧
      (lastSeq P s.trace < hd.seq → K { s with
        pending := b.payloads.foldl (fun p d => p.erase (P.hash d)) s.pending
        trace := .deliver b :: .call (.handleHello hello src) s.status :: s.trace }))
    (hchoices : ∀ s choices, K s → K { s with choices := choices })
    (hreturn : ∀ s, K s → I s) (hweak : ∀ s, K s → J s)
    (hxset : ∀ nv s₂, hello.newView = some nv → s.primaryIDView nv.view = src → K s₂ →
      Ends (maybeDeliverUsingXset P nv) (if s.view ≤ nv.view then
        { s₂ with view := nv.view, activeView := true } else s₂) (fun _ => J) E)
    (hremember : ∀ s, J s → Ends (do
      modifyInfo src fun info => { info with hello := some hello }
      discardBacklog src
      processBacklog P) s (fun _ => I) E) : Ends (handleHello P hello src) s (fun _ => I) E := by
  have htail : ∀ s₂, K s₂ → Ends (joinView P hello src s) s₂ (fun _ => I) E := by
    intro s₂ h₂
    unfold joinView
    cases hnv : hello.newView with
    | none => exact hremember s₂ (hweak s₂ h₂)
    | some nv =>
      simp only [ends_ite, ends_bind]
      refine ⟨fun _ => hreturn s₂ h₂, fun hsrc => ?_⟩
      refine (checkNewViewSignatures_ends nv).mono ?_ fun e s' hs' =>
        hE e s₂ s' (hreturn s₂ h₂) hs'.1 hs'.2
      rintro r _ ⟨⟨choices, rfl⟩, -⟩
      have h₃ := hchoices s₂ choices h₂
      cases r with
      | error => exact hreturn _ h₃
      | ok =>
        simp only [ends_bind, ends_liftE]
        refine ⟨fun x _ => ?_, fun e he =>
          hE e _ _ (hreturn _ h₃) rfl (makeXset_raises _ _ _ e he)⟩
        cases x with
        | none => exact hreturn _ h₃
        | some =>
          have hdelivered := (hxset nv _ hnv (not_not.mp hsrc) h₃).imp fun _ => hremember
          rw [ends_ite, ends_bind, ends_modify, ends_bind, ends_bind]
          exact ⟨fun hle => by rwa [if_pos hle] at hdelivered,
            fun hlt => by rwa [if_neg hlt] at hdelivered⟩
  unfold handleHello
  simp only [ends_bind, ends_deref]
  refine ⟨fun b hb => ?_, fun _ => hE _ _ _ hcall rfl (by decide)⟩
  cases hcheck : checkBatch P s.config b false true with
  | error => exact hcall
  | ok hd =>
    simp only [ends_bind]
    refine ends_seq ?_ (hE _ _ _ hcall rfl (by decide))
    obtain ⟨hkept, hdelivered⟩ := hdeliver b hd hb hcheck
    rw [ends_ite]
    exact ⟨fun hlt => htail _ (hdelivered hlt), fun hle => htail _ (hkept hle)⟩

end Rules

/-! ### View changes -/

section ViewChanges

variable {c₀ : Core β} {s : Replica β}

theorem Supported.map (h : Supported P s) (f : ReplicaInfo β → ReplicaInfo β)
    (hbackLog : ∀ info, (f info).backLog = info.backLog)
    (hnewview : ∀ info, (f info).newview = info.newview) :
    Supported P { s with replicaState := s.replicaState.map f } := by
  refine supported_iff.mpr fun src info hinfo => ?_
  simp only [List.getElem?_map, Option.map_eq_some_iff] at hinfo
  obtain ⟨info', hinfo', rfl⟩ := hinfo
  simpa only [Backs, hbackLog, hnewview] using supported_iff.mp h src info' hinfo'

theorem sendViewChange_tracks {v : ℕ} (hsup : Supported P s)
    (hsteps : Steps P c₀ { s.core with view := v }) (hview : v ≤ s.view) :
    Ends (sendViewChange P) s (fun _ => Tracks P c₀) (Leaves P c₀) := by
  unfold sendViewChange
  simp only [ends_bind]
  apply processNewView_follows
  refine ⟨?_, hsteps.tail (.sendViewChange _ s.view hview)⟩
  refine (hsup.map (fun info => if (info.viewchange.map fun vc =>
    decide (vc.view < uint64 (s.view + 1))) = some true then { info with viewchange := none }
    else info) ?_ ?_).extend rfl rfl rfl ?_
  · intro info
    split_ifs <;> rfl
  · intro info
    split_ifs <;> rfl
  · simp

theorem sendViewChange_follows : Follows P (sendViewChange P) :=
  fun _ _ h => sendViewChange_tracks h.1 h.2 le_rfl

theorem handleViewChange_follows (svc : Signed β) (src : ℕ) :
    Follows P (handleViewChange P svc src) := by
  intro c₀ s h
  have hstore : ∀ vc, Tracks P c₀ { s with replicaState := s.replicaState.modify src fun info =>
      { info with viewchange := some vc, signedViewchange := some svc } } :=
    fun vc => h.modifyInfo (supported_iff.mp h.1 src)
  refine handleViewChange_ends admits_leaves svc src h hstore (fun vc v hv => ?_)
    (fun _ _ _ _ h => h.congr rfl rfl) fun _ h hprimary => maybeSendNewView_tracks h hprimary
  exact sendViewChange_tracks
    ((hstore vc).1.extend rfl rfl rfl (suffix_refl _)) (hstore vc).2 hv

theorem handleNewView_tracks (h : Tracks P c₀ s) (ht : s.trace = .recv (.newView nv) src :: t) :
    Ends (handleNewView P nv src) s (fun _ => Tracks P c₀) (Leaves P c₀) := by
  refine handleNewView_ends admits_leaves h (fun _ => h.congr rfl rfl) ?_ (fun s₁ h₁ hs₁ hlt => ?_)
    (processNewView_follows c₀) (sendViewChange_follows c₀)
  · rintro _ ⟨choices, rfl⟩ rfl hok
    have h₁ : Tracks P c₀ { s with choices := choices } := h.congr rfl rfl
    refine h₁.modifyInfo fun info hinfo => ?_
    obtain ⟨hlog, -, hown⟩ := supported_iff.mp h₁.1 _ info hinfo
    refine ⟨hlog, fun nv' hnv => ?_, hown⟩
    obtain rfl : nv = nv' := by simpa using hnv
    exact ⟨ht ▸ mem_cons_self, rfl, hok⟩
  · exact h₁.step (.jump s₁.core nv.view hlt ⟨nv, _, t, hs₁.trans ht⟩) rfl

end ViewChanges

/-! ### Connections -/

section Connections

variable {c₀ : Core β} {s : Replica β}

theorem Greeted.tracks {r : ℕ} {s' : Replica β} (h : Tracks P c₀ s)
    (hs' : Greeted P s r s') : Tracks P c₀ s' := by
  obtain ⟨es, hes, rfl⟩ := hs'
  refine h.step ?_ rfl
  have hstep := Step.greet s.core r es hes
  simp only [push, append_assoc] at hstep
  exact hstep

/-- A replica that connects is greeted with what it may have missed. -/
theorem connection_greeted (s : Replica β) (r : ℕ) :
    Ends (connection P r) s (fun _ => Greeted P s r)
      (fun e s' => Greeted P s r s' ∧ s'.core.Stops P e) := by
  have hhello : Greeted P s r { s with
      trace := .send (.hello ⟨some { lastBatch P s.trace with payloads := [] },
        if s.isPrimary ∧ s.activeView then s.lastNewViewSent else none⟩) r ::
          .call (.connection r) s.status :: s.trace } := by
    refine ⟨[_], ?_, rfl⟩
    have := Greeting.hello (P := P) (c := s.core) (r := r)
    simpa [SBFT.isPrimary] using this
  unfold connection
  simp only [ends_bind, ends_replicaInfo]
  refine ⟨fun info hinfo => ?_, fun _ => ⟨hhello, trivial⟩⟩
  have hstops : ∀ {x : M β Unit} {s'}, Greets P s r x → Greeted P s r s' → Ends x s'
      (fun _ => Greeted P s r) (fun e s' => Greeted P s r s' ∧ s'.core.Stops P e) := fun hx h =>
    (hx _ h).mono (fun _ _ => id) fun _ _ he => ⟨he.1, stops_of_onData he.2⟩
  have hresend := fun hahead : s.core.Resends P =>
    Greeted.commit (r := r) (Greeted.checkpoint hahead) hahead
  simp only [lastBatch_cons_of_ne, ne_eq, reduceCtorEq, not_false_eq_true, implies_true]
  cases hcheck : checkBatch P s.config { lastBatch P s.trace with payloads := [] } false true with
  | error =>
    cases info.signedViewchange with
    | none => exact ⟨hhello, by simp [Core.Stops, hcheck]⟩
    | some svc => exact ⟨hhello.emit (.viewChange svc), by simp [Core.Stops, hcheck]⟩
  | ok =>
    simp only [(seqOf_of_checkBatch P hcheck).symm]
    have hflight := fun s' (h : Greeted P s r s') => hstops (Greeted.inFlight hresend) h
    cases info.signedViewchange with
    | none => exact hflight _ hhello
    | some svc => exact hflight _ (hhello.emit (.viewChange svc))

theorem connection_follows (r : ℕ) : Follows P (connection P r) := by
  intro c₀ s h
  exact (connection_greeted s r).mono (fun _ s' hs' => hs'.tracks h) fun e s' hs' =>
    (hs'.1.tracks h).leaves hs'.2

theorem rememberHello_follows (h : Hello β) (src : ℕ) : Follows P (do
    modifyInfo src fun info => { info with hello := some h }
    discardBacklog src
    processBacklog P : M β Unit) := by
  intro c₀
  refine Preserves.bind (fun s hs => ?_) fun _ =>
    (discardBacklog_follows src c₀).bind fun _ => processBacklog_follows c₀
  exact modifyInfo_tracks hs (supported_iff.mp hs.1 src)

theorem handleHello_tracks {h : Hello β} (hs : Tracks P c₀ s)
    (hrecv : .recv (.hello h) src ∈ s.trace) :
    Ends (handleHello P h src) s (fun _ => Tracks P c₀) (Leaves P c₀) := by
  -- the core has caught up with the batch
  have htracks : ∀ s₂, (∃ b hd, h.batch = some b ∧ checkBatch P s.config b false true = .ok hd ∧
      s₂.core = s.core.hello P h src b ∧ s₂.replicaState = s.replicaState) → Tracks P c₀ s₂ := by
    rintro s₂ ⟨b, hd, hb, hcheck, hcore, hstate⟩
    exact hs.step (hcore ▸ .hello s.core h src b hd hrecv hb hcheck) hstate
  refine handleHello_ends admits_leaves h src (hs.call _) (fun b hd hb hcheck => ?_)
    (fun _ _ h => h) htracks htracks ?_ (rememberHello_follows h src c₀)
  · have hseq := seqOf_of_checkBatch P hcheck
    refine ⟨fun hle => ⟨b, hd, hb, hcheck, ?_, rfl⟩, fun hlt => ⟨b, hd, hb, hcheck, ?_, rfl⟩⟩
    · have hlast : ¬ s.core.last P < seqOf P b := hseq ▸ hle
      simp only [hello, helloEvents, if_neg hlast]
      rfl
    · have hlast : s.core.last P < seqOf P b := hseq ▸ hlt
      simp only [hello, helloEvents, if_pos hlast]
      rfl
  · intro nv s₂ hnv hsrc h₂
    have hs₂ := (htracks s₂ h₂).2
    obtain ⟨b, hd, hb, hcheck, hcore, hstate⟩ := h₂
    generalize hs₃ : (if s.view ≤ nv.view then _ else s₂) = s₃
    have hcore₃ : s₃.core = (s.core.hello P h src b).joinView nv := by
      rw [← hs₃, ← hcore]
      split_ifs with hle
      · rw [joinView_of_le (by rwa [hcore])]
        rfl
      · rw [joinView_of_lt (by rwa [hcore, ← Nat.not_le])]
    have hstate₃ : s₃.replicaState = s.replicaState := by
      rw [← hs₃, ← hstate]
      split_ifs <;> rfl
    have hcfg : s₃.config = s.config := congrArg config hcore₃
    have htrace := (congrArg trace hcore).trans (congrArg trace hcore₃).symm
    refine (maybeDeliverUsingXset_ends nv).mono ?_ fun e s' hs' =>
      ⟨_, hs₂, htrace.trans hs'.1.symm, stops_of_onData hs'.2⟩
    rintro - s₄ ⟨x, best, hjust, hcore₄, hstate₄⟩
    rw [hcfg] at hjust
    refine hs.step ?_ (hstate₄.trans hstate₃)
    rw [hcore₄, hcore₃]
    exact .helloNewView s.core h src b hd nv x best hrecv hb hcheck hnv hsrc hjust

end Connections

/-! ### Entry points -/

section EntryPoints

variable {c₀ : Core β} {s : Replica β}

theorem handleRequest_follows (req : Request β) : Follows P (handleRequest P req) := by
  intro c₀ s h
  unfold handleRequest
  simp only [ends_bind, ends_ite]
  refine ⟨fun _ => ⟨fun _ => ?_, fun _ => ⟨fun _ => h.congr rfl rfl, fun _ => h.congr rfl rfl⟩⟩,
    fun _ => h.congr rfl rfl⟩
  exact maybeSendNextBatch_follows c₀ _ (h.congr rfl rfl)

theorem request_follows (req : β) : Follows P (request req) := by
  intro c₀ s h
  refine h.step (.quiet s.core _ fun e he => ?_) rfl
  obtain ⟨dest, -, rfl⟩ := mem_broadcastEvents.mp he
  exact .request _ _

/-- Queueing a message that was just received, not the replica's own unless it has to wait. -/
theorem recordBacklogMsg_tracks {m : Msg β} (h : Tracks P c₀ s)
    (ht : s.trace = .recv m src :: t) (hown : src = s.id → s.core.Defers m) :
    Ends (recordBacklogMsg m src) s (fun _ => Tracks P c₀) (Leaves P c₀) := by
  have hrecv : .recv m src ∈ s.trace := ht ▸ mem_cons_self
  unfold recordBacklogMsg
  simp only [ends_bind, ends_ite]
  refine ⟨fun hself => h.leaves ⟨m, t, ht.trans (by rw [hself]; rfl), hown hself⟩, fun hother => ?_⟩
  refine Ends.imp (modifyInfo_tracks h fun info hinfo => ?_) ?_
  · obtain ⟨hlog, hnewview, -⟩ := supported_iff.mp h.1 src info hinfo
    exact ⟨forall_mem_append.mpr ⟨hlog, forall_mem_singleton.mpr hrecv⟩, hnewview,
      fun hself => absurd hself hother⟩
  · intro _ s' h'
    simp only [ends_replicaInfo]
    refine ⟨fun info _ => ⟨fun _ => ?_, fun _ => h'⟩, fun _ => h'.leaves trivial⟩
    refine Ends.imp (discardBacklog_follows src c₀ s' h') fun _ s'' h'' => ?_
    refine h''.step (.quiet s''.core [.reconnect src] fun e he => ?_) rfl
    rw [mem_singleton.mp he]
    exact .reconnect src

theorem testBacklog_ends (m : Msg β) (src : ℕ) {E : Panic → Replica β → Prop}
    (hsup : Supported P s) (hnil : E .nilDereference s) (hindex : E .indexOutOfRange s) :
    Ends (testBacklog m src) s (fun wait s' => s = s' ∧ (wait = false → ¬ s.core.Defers m) ∧
      (wait = true → src = s.id → s.core.Defers m)) E := by
  unfold testBacklog
  simp only [ends_bind, ends_replicaInfo, ends_ite, ends_pure]
  refine ⟨fun info hinfo => ⟨fun hqueue => ⟨trivial, by simp, fun _ hself => ?_⟩, fun _ => ?_⟩,
    fun _ => hindex⟩
  · exact absurd (hsup.own info (hself ▸ hinfo)) hqueue
  · refine (testBacklogMessage_ends m hnil).imp ?_
    rintro wait _ ⟨rfl, hwaits⟩
    exact ⟨rfl, fun hwait hdefers => by simp [hwaits.mpr hdefers] at hwait,
      fun hwait _ => hwaits.mp hwait⟩

/-- Whatever arrives, the core takes steps. -/
theorem receive_tracks (m : Msg β) (src : ℕ) (hsup : Supported P s) :
    Ends (receive P m src) s (fun _ => Tracks P (s.core.push [.recv m src]))
      (Leaves P (s.core.push [.recv m src])) := by
  unfold receive
  rw [ends_bind, ends_emit]
  have h : Tracks P (s.core.push [.recv m src]) { s with trace := .recv m src :: s.trace } :=
    ⟨hsup.extend rfl rfl rfl (suffix_cons _ _), .refl⟩
  split
  · exact handleHello_tracks h mem_cons_self
  · exact handleRequest_follows _ _ _ h
  · exact handleViewChange_follows _ _ _ _ h
  · exact handleNewView_tracks h rfl
  · rw [ends_bind]
    refine (testBacklog_ends m src h.1 (h.leaves trivial) (h.leaves trivial)).imp ?_
    rintro wait _ ⟨rfl, hready, hown⟩
    rw [ends_ite]
    refine ⟨fun hwait => recordBacklogMsg_tracks h rfl (hown hwait), fun hwait => ?_⟩
    exact handleQueueableMessage_tracks (processBacklog_follows _) h mem_cons_self
      (ready_of_not_defers (hready (by simpa using hwait)))

theorem fireTimer_follows (timer : ℕ) : Follows P (fireTimer P timer) := by
  intro c₀ s h
  unfold fireTimer
  rw [ends_bind, ends_get]
  split
  · exact h
  · rw [ends_bind]
    unfold runTimer
    split
    · exact sendViewChange_follows c₀ _ (h.congr rfl rfl)
    · exact maybeSendNextBatch_follows c₀ _ (h.congr rfl rfl)
    · exact sendViewChange_follows c₀ _ (h.congr rfl rfl)

theorem restoreFlags_ends (hinactive : s.activeView = false) : Ends (do
      let s ← get
      let c := restoreCommit s.trace
      if c = some s.cur.subject then
        modifyCur fun cur => { cur with sentCommit := true }
      if (restoreExecute s.trace).isSome ∧ c = some s.cur.subject then
        modifyCur fun cur => { cur with executed := true }
      let n ← seq P
      if n = 0 then
        modify fun s => { s with activeView := true }
      cancelViewChangeTimer) s
      (fun _ s' => (s'.replicaState = s.replicaState ∧ s'.batch = s.batch ∧
        s'.pending = s.pending) ∧
        s'.core = { s.core with
          activeView := decide (lastSeq P s.trace = 0)
          cur := { s.cur with
            sentCommit := s.cur.sentCommit ||
              decide (restoreCommit s.trace = some s.cur.subject)
            executed := s.cur.executed || decide ((restoreExecute s.trace).isSome ∧
              restoreCommit s.trace = some s.cur.subject) } })
      (fun _ s' => s'.trace = s.trace) := by
  -- what comes after the two flags does not look at them
  have hfinish : ∀ s₁, s₁.trace = s.trace → s₁.activeView = false → Ends (do
      let n ← seq P
      if n = 0 then
        modify fun s => { s with activeView := true }
      cancelViewChangeTimer) s₁
      (fun _ s' => (s'.replicaState = s₁.replicaState ∧ s'.batch = s₁.batch ∧
        s'.pending = s₁.pending) ∧ s'.core = { s₁.core with activeView := decide (lastSeq P s.trace = 0) })
      (fun _ s' => s'.trace = s.trace) := by
    intro s₁ htrace hactive
    rw [ends_bind]
    refine ends_seq ?_ htrace
    rw [htrace]
    simp only [ends_ite, ends_bind, ends_modify, ends_cancelViewChangeTimer]
    refine ⟨fun hzero => ⟨⟨trivial, trivial, trivial⟩, ?_⟩,
      fun hzero => ⟨⟨trivial, trivial, trivial⟩, ?_⟩⟩
    · simp [Replica.core, hzero]
    · simp [Replica.core, hzero, hactive]
  rw [ends_bind, ends_get]
  by_cases hc : restoreCommit s.trace = some s.cur.subject
  · by_cases hx : (restoreExecute s.trace).isSome
    · rw [if_pos hc, ends_bind, ends_modifyCur, if_pos ⟨hx, hc⟩, ends_bind, ends_modifyCur]
      refine Ends.imp (hfinish _ rfl hinactive) fun _ s' hs' => ⟨hs'.1, hs'.2.trans ?_⟩
      simp [hc, hx]
    · rw [if_pos hc, ends_bind, ends_modifyCur, if_neg (fun h => hx h.1)]
      refine Ends.imp (hfinish _ rfl hinactive) fun _ s' hs' => ⟨hs'.1, hs'.2.trans ?_⟩
      simp [hc, hx]
  · rw [if_neg hc, if_neg (fun h => hc h.2)]
    refine Ends.imp (hfinish s rfl hinactive) fun _ s' hs' => ⟨hs'.1, hs'.2.trans ?_⟩
    simp [hc]

theorem supported_of_blank {cfg : Config} {id : ℕ}
    (hstate : s.replicaState = (SBFT.blank cfg id).replicaState) : Supported P s := by
  refine supported_iff.mpr fun src info hinfo => ?_
  rw [hstate] at hinfo
  obtain rfl := eq_of_mem_replicate (mem_of_getElem? hinfo)
  exact ⟨forall_mem_nil _, by simp, fun _ => rfl⟩

/-- A created replica has the core restarted over its history. -/
theorem restore_restarted (cfg : Config) (id : ℕ) (t : List (Event β)) :
    Ends (restore P) { SBFT.blank cfg id with trace := t }
      (fun _ s' => (s'.replicaState = (SBFT.blank cfg id).replicaState ∧ s'.batch = [] ∧
        s'.pending = ∅) ∧ Restarted P cfg id t s'.core)
      (fun _ s' => ∃ c, Restarted P cfg id t c ∧ c.trace = s'.trace) := by
  unfold restore
  rw [ends_bind, ends_emit, ends_bind, ends_get]
  have hrestore : restorePreprepare (.restart :: t) = restorePreprepare t := rfl
  rw [hrestore]
  have hidle : Restarted P cfg id t _ := .idle (decide (lastSeq P t = 0)) of_decide_eq_true
  cases hpp : restorePreprepare t with
  | none =>
    have hview : restoredView t = 0 := by simp [restoredView, hpp]
    rw [hview] at hidle
    exact Ends.mono (restoreFlags_ends rfl) (fun _ s' hs' => ⟨hs'.1, hs'.2 ▸ hidle⟩)
      fun _ _ h => ⟨_, hidle, h.symm⟩
  | some pp =>
    simp only [ends_bind, ends_deref]
    refine ⟨fun sv hsv => ends_seq ?_ ⟨_, hidle, rfl⟩, fun _ => ⟨_, hidle, rfl⟩⟩
    rw [ends_ite]
    refine ⟨fun hlt => ?_, fun hle => ?_⟩
    · rw [ends_bind]
      cases hb : pp.batch with
      | none =>
        unfold acceptPreprepare
        rw [hb]
        exact ⟨_, hidle, rfl⟩
      | some b =>
        rw [ends_acceptPreprepare hsv hb]
        have hflight : ∀ active, (active = true → lastSeq P t = 0) →
            Restarted P cfg id t _ := fun active hactive =>
          .inFlight active hactive pp sv b 0 _ _ hpp hsv hb hlt decide_eq_true_iff
            decide_eq_true_iff
        exact Ends.mono (restoreFlags_ends rfl)
          (fun _ s' hs' => ⟨hs'.1, hs'.2 ▸ hflight _ of_decide_eq_true⟩)
          fun _ s' h => ⟨_, hflight false (by simp), h.symm⟩
    · have hview : restoredView t = sv.view := by simp [restoredView, hpp, hsv]
      rw [hview] at hidle
      exact Ends.mono (restoreFlags_ends rfl) (fun _ s' hs' => ⟨hs'.1, hs'.2 ▸ hidle⟩)
        fun _ _ h => ⟨_, hidle, h.symm⟩

end EntryPoints

end Fabric.Sbft
