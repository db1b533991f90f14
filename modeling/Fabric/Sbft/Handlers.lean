import Fabric.Sbft.Ordering

/-!
# View changes, connections and the interface of a replica

The handlers that move a replica between views and bring it up to date
(`viewchange.go`, `newview.go`, `connection.go`), and its entry points
(`simplebft.go`): `receive`, `request`, `connection`, the timers, and `new`, which
creates a replica over its history.
-/

namespace Fabric.Sbft

variable {β : Type} [DecidableEq β] (P : Primitives β)

/-- Why a signed view change is refused. -/
inductive ViewChangeError where
  | signature
  | unmarshal
  | checkpoint (e : BatchError)
  | viewMismatch
deriving DecidableEq

/-- Check a signature and decode what was signed. -/
def checkSig (sig : Signed β) (signer : ℕ) : Except ViewChangeError (ViewChange β) :=
  if ¬ P.checkSig sig.data signer sig.signature then .error .signature
  else match P.unmarshalViewChange sig.data with
    | none => .error .unmarshal
    | some vc => .ok vc

/-- Check the view changes of a new view in the given order. -/
def checkVset (cfg : Config) (view : ℕ) : List (ℕ × Option (Signed β)) →
    Except Panic (Except (ℕ × ViewChangeError) (List (ViewChange β)))
  | [] => .ok (.ok [])
  | (vcsrc, svc) :: rest => do
    let svc ← derefE svc
    match checkSig P svc vcsrc with
    | .error e => .ok (.error (vcsrc, e))
    | .ok vc => do
      let cp ← derefE vc.checkpoint
      if vc.view ≠ view then .ok (.error (vcsrc, .viewMismatch))
      else match checkBatch P cfg cp false true with
        | .error e => .ok (.error (vcsrc, .checkpoint e))
        | .ok _ => do
          match ← checkVset cfg view rest with
          | .error e => .ok (.error e)
          | .ok vcs => .ok (.ok (vc :: vcs))

/-- Check the view changes of a new view, visiting them in map order. -/
def checkNewViewSignatures (nv : NewView β) :
    M β (Except (ℕ × ViewChangeError) (List (ViewChange β))) := do
  let entries ← rangeOrder nv.vset.toList
  let s ← get
  liftE (checkVset P s.config nv.view entries)

/-- As the new primary, announce the view once the view changes suffice. A primary that does not
hold the selected batch announces a null request. -/
def maybeSendNewView : M β Unit := do
  let s ← get
  if (s.lastNewViewSent.map fun nv => nv.view) = some s.view then return
  let joined := s.replicaState.zipIdx.filter fun e =>
    (e.1.viewchange.map fun vc => vc.view) = some s.view
  let vset := Std.ExtTreeMap.ofList (joined.map fun e => (e.2, e.1.signedViewchange))
  let some (xset, _) ← liftE (makeXset P s.config s.view
    (joined.filterMap fun e => e.1.viewchange)) | return
  let mut xset := xset
  let mut batch := none
  if let some x := xset then
    if s.cur.digest = x.digest then
      let pp ← deref s.cur.preprep
      batch := pp.batch
    else
      xset := none
  let nv : NewView β := ⟨s.view, vset, xset, batch⟩
  modify fun s => { s with lastNewViewSent := some nv }
  broadcast (.newView nv)

/-- Deliver the checkpoint of a new view if the replica is behind it, with the payloads that were
preprepared there. -/
def maybeDeliverUsingXset (nv : NewView β) : M β Unit := do
  let .ok vcs ← checkNewViewSignatures P nv | throw .newViewSignatures
  let s ← get
  let some (_, prevBatch) ← liftE (makeXset P s.config s.view vcs) | throw .invalidNewview
  let last ← seq P
  let prev ← liftE (decodeHeader P prevBatch)
  if last < prev.seq then
    let mut prevBatch := prevBatch
    if prev.seq = s.cur.seq.seq then
      let pp ← deref s.cur.preprep
      let b ← deref pp.batch
      prevBatch := { prevBatch with payloads := b.payloads }
    modifyCur fun cur => { cur with checkpointDone := true }
    deliverBatch P prevBatch

/-- Enter the view if its new view has arrived. Its batch, if any, takes the place of what was in
flight. -/
def processNewView : M β Unit := do
  let s ← get
  if s.activeView then return
  let info ← replicaInfo s.primaryID
  let some nv := info.newview | return
  if nv.view ≠ s.view then return
  enter (.processNewView nv)
  modify fun s => { s with activeView := true }
  discardBacklog s.primaryID
  maybeDeliverUsingXset P nv
  modifyCur fun cur => { cur with checkpointDone := true, seq := { cur.seq with seq := 0 } }
  match nv.batch with
  | some b =>
    let hd ← liftE (decodeHeader P b)
    let s ← get
    handleCheckedPreprepare P ⟨some ⟨s.view, hd.seq⟩, some b⟩
  | none =>
    cancelViewChangeTimer
    maybeSendNextBatch P
  processBacklog P

/-- The view change a replica signs on entering view `view`. -/
def viewChangeFor (view : ℕ) (cur : ReqInfo β) (last : Batch β) : ViewChange β where
  view := view
  pset := if cur.sentCommit then [cur.subject] else []
  qset := if cur.preprep.isSome then [cur.subject] else []
  checkpoint := some { last with payloads := [] }

/-- Leave the current view for the next one. -/
def sendViewChange : M β Unit := do
  enter .sendViewChange
  modify fun s => { s with view := uint64 (s.view + 1) }
  let s ← get
  cancelTimer s.cur.timeout
  modify fun s => { s with
    activeView := false
    replicaState := s.replicaState.map fun info =>
      if (info.viewchange.map fun vc => decide (vc.view < s.view)) = some true
      then { info with viewchange := none } else info }
  let vc := viewChangeFor s.view s.cur (lastBatch P s.trace)
  emit (.signViewChange vc)
  let data := P.marshalViewChange vc
  let svc : Signed β := ⟨data, P.sign s.id data⟩
  cancelTimer s.viewChangeTimer
  cancelTimer s.cur.timeout
  broadcast (.viewChange svc)
  processNewView P

/-- Handle a view change of another replica, or the replica's own. -/
def handleViewChange (svc : Signed β) (src : ℕ) : M β Unit := do
  let .ok vc := checkSig P svc src | return
  let s ← get
  let cp ← deref vc.checkpoint
  let .ok _ := checkBatch P s.config cp false true | return
  if vc.view < s.view then return
  let info ← replicaInfo src
  if (info.viewchange.map fun ovc => decide (vc.view ≤ ovc.view)) = some true then return
  modifyInfo src fun info =>
    { info with viewchange := some vc, signedViewchange := some svc }
  let s ← get
  let views := s.replicaState.filterMap fun info => info.viewchange.map fun vc => vc.view
  let min := views.foldl Nat.min vc.view
  if views.length = s.config.oneCorrectQuorum ∧ s.view < min then
    modify fun s => { s with view := min - 1 }
    sendViewChange P
    return
  if views.length = s.config.noFaultyQuorum then
    let timer ← startTimer .viewChangeTimeout
    modify fun s => { s with viewChangeTimer := some timer }
  if s.isPrimary then maybeSendNewView P

/-- Handle a new view. -/
def handleNewView (nv : NewView β) (src : ℕ) : M β Unit := do
  let s ← get
  if src ≠ s.primaryIDView nv.view then return
  let info ← replicaInfo (s.primaryIDView nv.view)
  if (info.newview.map fun onv => decide (nv.view ≤ onv.view)) = some true then return
  let .ok vcs ← checkNewViewSignatures P nv | sendViewChange P
  let x ← liftE (makeXset P s.config s.view vcs)
  if (x.map fun x => x.1) ≠ some nv.xset then
    sendViewChange P
    return
  match nv.xset with
  | none =>
    if nv.batch.isSome then
      sendViewChange P
      return
  | some x =>
    -- the log statement of the refusal dereferences the batch
    let b ← deref nv.batch
    if b.hash P ≠ P.bytes x.digest then
      sendViewChange P
      return
  if let some b := nv.batch then
    if let .error _ := checkBatch P s.config b true false then
      sendViewChange P
      return
  modifyInfo (s.primaryIDView nv.view) fun info => { info with newview := some nv }
  if s.view < nv.view then
    modify fun s => { s with view := nv.view, activeView := false }
  processNewView P

/-- Send a replica that has connected our last batch, view change and votes. -/
def connection (replica : ℕ) : M β Unit := do
  enter (.connection replica)
  let s ← get
  let batch := { lastBatch P s.trace with payloads := [] }
  let newView := if s.isPrimary ∧ s.activeView then s.lastNewViewSent else none
  emit (.send (.hello ⟨some batch, newView⟩) replica)
  let own ← replicaInfo s.id
  if let some svc := own.signedViewchange then
    emit (.send (.viewChange svc) replica)
  let .ok batchheader := checkBatch P s.config batch false true | throw .invalidLastBatch
  if batchheader.seq < s.cur.seq.seq ∧ s.activeView then
    if s.isPrimary then
      let pp ← deref s.cur.preprep
      emit (.send (.preprepare pp) replica)
    else
      emit (.send (.prepare s.cur.subject) replica)
    if s.cur.sentCommit then
      emit (.send (.commit s.cur.subject) replica)
    if s.cur.executed then
      let c ← makeCheckpoint P
      emit (.send (.checkpoint c) replica)

/-- Handle the hello of a replica that connected. -/
def handleHello (h : Hello β) (src : ℕ) : M β Unit := do
  enter (.handleHello h src)
  let s ← get
  let b ← deref h.batch
  let .ok bh := checkBatch P s.config b false true | return
  let last ← seq P
  if last < bh.seq then deliverBatch P b
  if let some nv := h.newView then
    if s.primaryIDView nv.view ≠ src then return
    let .ok vcs ← checkNewViewSignatures P nv | return
    let some _ ← liftE (makeXset P s.config s.view vcs) | return
    if s.view ≤ nv.view then
      modify fun s => { s with view := nv.view, activeView := true }
    maybeDeliverUsingXset P nv
  modifyInfo src fun info => { info with hello := some h }
  discardBacklog src
  processBacklog P

/-- A message arrived. -/
def receive (m : Msg β) (src : ℕ) : M β Unit := do
  emit (.recv m src)
  match m with
  | .hello h => handleHello P h src
  | .request req => handleRequest P req
  | .viewChange svc => handleViewChange P svc src
  | .newView nv => handleNewView P nv src
  | _ =>
    if ← testBacklog m src then recordBacklogMsg m src
    else handleQueueableMessage P (processBacklog P) m src

/-- A client submitted a request. -/
def request (req : β) : M β Unit := broadcast (.request ⟨req⟩)

/-- What a timer does when it fires. -/
def runTimer : TimerFn → M β Unit
  | .requestTimeout => sendViewChange P
  | .maybeSendNextBatch => maybeSendNextBatch P
  | .viewChangeTimeout => sendViewChange P

/-- A timer fired; one that is not running does nothing. -/
def fireTimer (timer : ℕ) : M β Unit := do
  let s ← get
  match s.timers.find? fun t => t.1 = timer with
  | none => pure ()
  | some (_, fn) =>
    cancelTimer (some timer)
    runTimer P fn

/-- The variables of a replica before it reads what was persisted. -/
def SBFT.blank (cfg : Config) (id : ℕ) : SBFT β where
  config := cfg
  id := id
  view := 0
  batch := []
  batchTimer := none
  cur :=
    { seq := ⟨0, 0⟩, digest := none, timeout := none, preprep := none, prep := none,
      commit := none, sentCommit := true, executed := true, checkpoint := none,
      checkpointDone := true }
  activeView := false
  lastNewViewSent := none
  viewChangeTimer := none
  replicaState := List.replicate cfg.N ⟨[], none, none, none, none⟩
  pending := ∅
  timers := []
  nextTimer := 0
  choices := []

/-- Read back what was persisted. The executed flag is set if any execution was
persisted and the persisted commit is for the request in flight. -/
def restore : M β Unit := do
  emit .restart
  let s ← get
  if let some pp := restorePreprepare s.trace then
    let sv ← deref pp.seq
    modify fun s => { s with view := sv.view }
    let n ← seq P
    if n < sv.seq then acceptPreprepare P pp
  let s ← get
  let c := restoreCommit s.trace
  if c = some s.cur.subject then
    modifyCur fun cur => { cur with sentCommit := true }
  if (restoreExecute s.trace).isSome ∧ c = some s.cur.subject then
    modifyCur fun cur => { cur with executed := true }
  let n ← seq P
  if n = 0 then
    modify fun s => { s with activeView := true }
  cancelViewChangeTimer

/-- Create a replica over a history; refused if the group is too small for its faults. -/
def new (cfg : Config) (id : ℕ) (trace : List (Event β)) :
    Option (EStateM.Result Panic (Replica β) Unit) :=
  if cfg.N < uint64 (cfg.F * 3 + 1) then none
  else some (restore P { SBFT.blank cfg id with trace := trace })

end Fabric.Sbft
