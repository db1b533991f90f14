import Fabric.Sbft.Handlers

/-!
# The protocol core of a replica

An abstract account of what a replica does. The core keeps the variables that matter for the
order of batches. A step is a piece of a handler between two points at which the replica may be
observed: it lists what must hold for it and the core it leads to.

Every handler is a sequence of such steps (`Refinement`), so that an invariant of the replica is a
statement about the steps.

## Main definitions

- `Step`, `Steps`: one step of a core and several
- `Restarted`: the cores that a replica may have after a restart
-/

namespace Fabric.Sbft

open Fabric.Common

variable {β : Type} (P : Primitives β)

/-- The part of a replica that matters for the order of batches. -/
structure Core (β : Type) where
  config : Config
  id : ℕ
  view : ℕ
  activeView : Bool
  cur : ReqInfo β
  lastNewViewSent : Option (NewView β)
  trace : List (Event β)

/-- The core of a replica. -/
@[simps] def Replica.core (s : Replica β) : Core β where
  config := s.config
  id := s.id
  view := s.view
  activeView := s.activeView
  cur := s.cur
  lastNewViewSent := s.lastNewViewSent
  trace := s.trace

/-! ### New views that pass the checks -/

variable {nv : NewView β} {best : Batch β}

section NewViews

variable [DecidableEq β]

/-- The view changes of a new view check out, and the selection rule yields `x` and `best`. -/
def NewView.Justified (cfg : Config) (nv : NewView β) (x : Option (Subject β))
    (best : Batch β) : Prop :=
  ∃ entries vcs view, entries.Perm nv.vset.toList ∧
    checkVset P cfg nv.view entries = .ok (.ok vcs) ∧
    makeXset P cfg view vcs = .ok (some (x, best))

/-- A new view with the request that its view changes select. -/
def NewView.Acceptable (cfg : Config) (nv : NewView β) : Prop :=
  (∃ best, nv.Justified P cfg nv.xset best) ∧
  (nv.xset = none → nv.batch = none) ∧
  ∀ x, nv.xset = some x → ∃ b hd, nv.batch = some b ∧ b.hash P = P.bytes x.digest ∧
    checkBatch P cfg b true false = .ok hd

variable {P} in
theorem NewView.Acceptable.exists_checkBatch {cfg : Config} {b : Batch β} (h : nv.Acceptable P cfg)
    (hb : nv.batch = some b) :
    ∃ x hd, nv.xset = some x ∧ b.hash P = P.bytes x.digest ∧
      checkBatch P cfg b true false = .ok hd := by
  cases hx : nv.xset with
  | none => simp [h.2.1 hx] at hb
  | some x =>
    obtain ⟨b', hd, hb', hhash, hcheck⟩ := h.2.2 x hx
    obtain rfl : b' = b := by simpa [hb'] using hb
    exact ⟨x, hd, rfl, hhash, hcheck⟩

end NewViews

/-! ### Pieces of steps -/

namespace Core

variable (c : Core β)

/-- What is recorded on entry to a handler. -/
@[simps] def status : Status β := ⟨c.view, c.activeView, c.cur⟩

/-- The primary of the core's view. -/
def primaryID : ℕ := c.view % c.config.N

/-- The sequence number of the last delivered batch. -/
def last : ℕ := lastSeq P c.trace

/-- Append events, given latest first. -/
@[simps] def push (es : List (Event β)) : Core β := { c with trace := es ++ c.trace }

/-- The position of the next proposal. -/
def next : SeqView := ⟨c.view, uint64 (c.last P + 1)⟩

/-- The request in flight after a preprepare was accepted. -/
@[simps] def accepted (pp : Preprepare β) (sv : SeqView) (b : Batch β) (timeout : ℕ) : ReqInfo β :=
  { seq := sv, digest := some (b.hash P), timeout := some timeout, preprep := some pp,
    prep := some ∅, commit := some ∅, sentCommit := false, executed := false,
    checkpoint := some ∅, checkpointDone := false }

/-- The vote for an accepted preprepare; a primary does not vote. -/
def voteEvents (sub : Subject β) : List (Event β) :=
  if c.primaryID = c.id then [] else broadcastEvents c.config.N (.prepare sub)

/-- Accept a checked preprepare and vote for it. -/
@[simps] def accept (pp : Preprepare β) (sv : SeqView) (b : Batch β) (timeout : ℕ) : Core β :=
  { c with
    cur := accepted P pp sv b timeout
    trace :=
      c.voteEvents ⟨some sv, some (b.hash P)⟩ ++
      .persist (.preprepare pp) :: .call (.handleCheckedPreprepare pp) c.status :: c.trace }

/-- The proposal of a primary. -/
def proposal (data : List β) : Preprepare β :=
  ⟨some (c.next P), some (makeBatch P (c.next P).seq (some (P.hash (lastBatch P c.trace).header))
    data)⟩

/-- Count a prepare. -/
@[simps] def votePrepare (p : Subject β) (src : ℕ) (votes : GoMap (Subject β)) : Core β :=
  { c with
    cur := { c.cur with prep := some (votes.insert src p) }
    trace := .call (.handlePrepare p src) c.status :: c.trace }

/-- Count a commit. -/
@[simps] def voteCommit (p : Subject β) (src : ℕ) (votes : GoMap (Subject β)) : Core β :=
  { c with
    cur := { c.cur with commit := some (votes.insert src p) }
    trace := .call (.handleCommit p src) c.status :: c.trace }

/-- Count a checkpoint. -/
@[simps] def voteCheckpoint (cp : Checkpoint β) (src : ℕ) (votes : GoMap (Checkpoint β)) : Core β :=
  { c with
    cur := { c.cur with checkpoint := some (votes.insert src cp) }
    trace := .call (.handleCheckpoint cp src) c.status :: c.trace }

@[simp] theorem subject_votePrepare (p : Subject β) (src : ℕ) (votes : GoMap (Subject β)) :
    (c.votePrepare p src votes).cur.subject = c.cur.subject := rfl

@[simp] theorem subject_voteCommit (p : Subject β) (src : ℕ) (votes : GoMap (Subject β)) :
    (c.voteCommit p src votes).cur.subject = c.cur.subject := rfl

/-- Announce that the request in flight is prepared. -/
@[simps] def sendCommit : Core β :=
  { c with
    cur := { c.cur with sentCommit := true }
    trace := broadcastEvents c.config.N (.commit c.cur.subject) ++
      .persist (.commit c.cur.subject) :: c.trace }

/-- The checkpoint message for the request in flight. -/
def checkpointMsg : Msg β :=
  .checkpoint ⟨c.cur.seq.seq, c.cur.digest, P.sign c.id (P.bytes c.cur.digest)⟩

/-- Execute the request in flight. -/
@[simps] def execute : Core β :=
  { c with
    cur := { c.cur with executed := true }
    trace := broadcastEvents c.config.N (c.checkpointMsg P) ++
      .signCheckpoint c.cur.subject :: .persist (.execute c.cur.subject) :: c.trace }

/-- Deliver the request in flight. -/
@[simps] def finish (b : Batch β) : Core β :=
  { c with
    cur := { c.cur with checkpointDone := true }
    trace := .deliver b :: c.trace }

/-- The delivery of the batch of a hello, if the replica is behind it. -/
def helloEvents (b : Batch β) : List (Event β) :=
  if c.last P < seqOf P b then [.deliver b] else []

/-- Catch up with the batch of a hello. -/
@[simps] def hello (h : Hello β) (src : ℕ) (b : Batch β) : Core β :=
  { c with trace := c.helloEvents P b ++ .call (.handleHello h src) c.status :: c.trace }

/-- Join the view of a new view that came with a hello, unless it is over. -/
@[simps] def joinView (nv : NewView β) : Core β :=
  { c with
    view := max c.view nv.view
    activeView := decide (c.view ≤ nv.view) || c.activeView }

/-- The checkpoint of a new view, with the payloads of the request in flight at that number. -/
def xsetBatch (best : Batch β) : Batch β :=
  if seqOf P best = c.cur.seq.seq then
    match c.cur.preprep.bind Preprepare.batch with
    | some b => { best with payloads := b.payloads }
    | none => best
  else best

/-- The delivery of the checkpoint of a new view, if the replica is behind it. -/
def xsetEvents (best : Batch β) : List (Event β) :=
  if c.last P < seqOf P best then [.deliver (c.xsetBatch P best)] else []

/-- Catch up with the checkpoint of a new view. -/
@[simps] def deliverXset (best : Batch β) : Core β :=
  { c with
    cur := { c.cur with
      checkpointDone := decide (c.last P < seqOf P best) || c.cur.checkpointDone }
    trace := c.xsetEvents P best ++ c.trace }

@[simp] theorem xsetBatch_hello (h : Hello β) (src : ℕ) (b best : Batch β) :
    (c.hello P h src b).xsetBatch P best = c.xsetBatch P best := rfl

@[simp] theorem xsetBatch_joinView (nv : NewView β) (best : Batch β) :
    (c.joinView nv).xsetBatch P best = c.xsetBatch P best := rfl

variable {P c} in
theorem deliverXset_of_lt (h : c.last P < seqOf P best) :
    c.deliverXset P best = c.finish (c.xsetBatch P best) := by
  simp [deliverXset, finish, xsetEvents, h]

variable {P c} in
theorem deliverXset_of_not_lt (h : ¬ c.last P < seqOf P best) : c.deliverXset P best = c := by
  simp [deliverXset, xsetEvents, h]

/-- Enter a view and drop what was in flight. -/
@[simps] def enterView (nv : NewView β) (best : Batch β) : Core β :=
  { c with
    activeView := true
    cur := { c.cur with checkpointDone := true, seq := { c.cur.seq with seq := 0 } }
    trace := c.xsetEvents P best ++ .call (.processNewView nv) c.status :: c.trace }

/-- Wait for a later view to begin. -/
@[simps] def jump (w : ℕ) : Core β := { c with view := w, activeView := false }

/-- The view change a replica signs when it leaves view `w`. -/
def viewChange (w : ℕ) : ViewChange β :=
  viewChangeFor (uint64 (w + 1)) c.cur (lastBatch P c.trace)

/-- That view change with its signature. -/
def signedViewChange (w : ℕ) : Signed β :=
  let data := P.marshalViewChange (c.viewChange P w)
  ⟨data, P.sign c.id data⟩

/-- Leave view `w`. -/
@[simps] def sendViewChange (w : ℕ) : Core β :=
  { c with
    view := uint64 (w + 1)
    activeView := false
    trace := broadcastEvents c.config.N (.viewChange (c.signedViewChange P w)) ++
      .signViewChange (c.viewChange P w) ::
      .call .sendViewChange ⟨w, c.activeView, c.cur⟩ :: c.trace }

/-- Announce a view. -/
@[simps] def sendNewView (nv : NewView β) : Core β :=
  { c with
    lastNewViewSent := some nv
    trace := broadcastEvents c.config.N (.newView nv) ++ c.trace }

section Last

variable {P c}

theorem last_push {es : List (Event β)} (h : ∀ e ∈ es, ∀ b, e ≠ .deliver b) :
    (c.push es).last P = c.last P := lastSeq_append_of_ne P c.trace h

@[simp] theorem last_finish {b : Batch β} : (c.finish b).last P = seqOf P b := rfl

@[simp] theorem last_joinView : (c.joinView nv).last P = c.last P := rfl

@[simp] theorem last_accept {pp : Preprepare β} {sv : SeqView} {b : Batch β} {timeout : ℕ} :
    (c.accept P pp sv b timeout).last P = c.last P := by
  unfold last accept voteEvents
  split_ifs <;> simp

@[simp] theorem last_hello {h : Hello β} {src : ℕ} {b : Batch β} :
    (c.hello P h src b).last P = max (c.last P) (seqOf P b) := by
  unfold last hello helloEvents
  split_ifs with hlt
  · exact (max_eq_right hlt.le).symm
  · exact (max_eq_left (not_lt.mp hlt)).symm

@[simp] theorem header_xsetBatch : (c.xsetBatch P best).header = best.header := by
  unfold xsetBatch
  split_ifs
  · split <;> rfl
  · rfl

@[simp] theorem seqOf_xsetBatch : seqOf P (c.xsetBatch P best) = seqOf P best :=
  seqOf_eq_of_header_eq P header_xsetBatch

theorem lastSeq_xsetEvents {t : List (Event β)} (ht : lastSeq P t = c.last P) :
    lastSeq P (c.xsetEvents P best ++ t) = max (c.last P) (seqOf P best) := by
  unfold xsetEvents
  split_ifs with hlt
  · rw [List.singleton_append, lastSeq_deliver, seqOf_xsetBatch]
    exact (max_eq_right hlt.le).symm
  · exact ht.trans (max_eq_left (not_lt.mp hlt)).symm

@[simp] theorem last_deliverXset : (c.deliverXset P best).last P = max (c.last P) (seqOf P best) :=
  lastSeq_xsetEvents rfl

@[simp] theorem last_enterView : (c.enterView P nv best).last P = max (c.last P) (seqOf P best) :=
  lastSeq_xsetEvents rfl

end Last

section Membership

variable {P c} {e : Event β}

@[simp] theorem mem_voteEvents {sub : Subject β} : e ∈ c.voteEvents sub ↔
    c.primaryID ≠ c.id ∧ ∃ dest < c.config.N, e = .send (.prepare sub) dest := by
  unfold voteEvents
  split_ifs with h <;> simp [h]

@[simp] theorem mem_helloEvents {b : Batch β} : e ∈ c.helloEvents P b ↔
    c.last P < seqOf P b ∧ e = .deliver b := by
  unfold helloEvents
  split_ifs with h <;> simp [h]

@[simp] theorem mem_xsetEvents : e ∈ c.xsetEvents P best ↔
    c.last P < seqOf P best ∧ e = .deliver (c.xsetBatch P best) := by
  unfold xsetEvents
  split_ifs with h <;> simp [h]

end Membership

/-- Whether messages on the request in flight are sent on a new connection. -/
def Resends : Prop := c.last P < c.cur.seq.seq ∧ c.activeView = true

end Core

/-- Events that do not concern the order of batches. -/
inductive Quiet : Event β → Prop
  | request (req : Request β) (dest : ℕ) : Quiet (.send (.request req) dest)
  | reconnect (replica : ℕ) : Quiet (.reconnect replica)

/-- What a replica does on a new connection to `r`. -/
inductive Greeting (c : Core β) (r : ℕ) : Event β → Prop
  | hello : Greeting c r (.send (.hello ⟨some { lastBatch P c.trace with payloads := [] },
      if c.primaryID = c.id ∧ c.activeView then c.lastNewViewSent else none⟩) r)
  | viewChange (svc : Signed β) : Greeting c r (.send (.viewChange svc) r)
  | preprepare (pp : Preprepare β) (hahead : c.Resends P) (hpp : c.cur.preprep = some pp) :
      Greeting c r (.send (.preprepare pp) r)
  | prepare (hahead : c.Resends P) : Greeting c r (.send (.prepare c.cur.subject) r)
  | commit (hahead : c.Resends P) (hsent : c.cur.sentCommit = true) :
      Greeting c r (.send (.commit c.cur.subject) r)
  | signCheckpoint (hahead : c.Resends P) (hexecuted : c.cur.executed = true) :
      Greeting c r (.signCheckpoint c.cur.subject)
  | checkpoint (hahead : c.Resends P) (hexecuted : c.cur.executed = true) :
      Greeting c r (.send (c.checkpointMsg P) r)

variable [DecidableEq β]

/-- Why a replica accepts `pp` for the batch `b` at `sv`, and the core at the time it does. -/
inductive Accepts (c : Core β) : Core β → Preprepare β → SeqView → Batch β → Prop
  /-- The primary proposes a batch. -/
  | propose (data : List β) (hprimary : c.primaryID = c.id) (hactive : c.activeView = true)
      (hdone : c.cur.checkpointDone = true) :
      Accepts c (c.push (broadcastEvents c.config.N (.preprepare (c.proposal P data)) ++
        [.persist (.preprepare (c.proposal P data))])) (c.proposal P data) (c.next P)
        (makeBatch P (c.next P).seq (some (P.hash (lastBatch P c.trace).header)) data)
  /-- The primary's proposal arrives. -/
  | preprepare (pp : Preprepare β) (b : Batch β) (hd : BatchHeader β)
      (hrecv : .recv (.preprepare pp) c.primaryID ∈ c.trace) (hother : c.primaryID ≠ c.id)
      (hready : c.activeView = true ∨ c.cur.checkpointDone = true)
      (hseq : pp.seq = some (c.next P)) (hcur : c.cur.seq.seq ≠ (c.next P).seq)
      (hbatch : pp.batch = some b) (hcheck : checkBatch P c.config b true false = .ok hd)
      (hhd : hd.seq = (c.next P).seq)
      (hprev : P.bytes hd.prevHash = (lastBatch P c.trace).hash P) :
      Accepts c c pp (c.next P) b
  /-- A view is entered whose new view has a batch. -/
  | newView (nv : NewView β) (x : Option (Subject β)) (best b : Batch β)
      (hactive : c.activeView = false) (hview : nv.view = c.view)
      (hrecv : .recv (.newView nv) c.primaryID ∈ c.trace) (hok : nv.Acceptable P c.config)
      (hjust : nv.Justified P c.config x best) (hbatch : nv.batch = some b) :
      Accepts c (c.enterView P nv best) ⟨some ⟨c.view, seqOf P b⟩, some b⟩ ⟨c.view, seqOf P b⟩ b

/-- One step of a replica's core. -/
inductive Step : Core β → Core β → Prop
  /-- A handler is entered and has no effect. -/
  | call (c : Core β) (k : Call β) : Step c (c.push [.call k c.status])
  /-- Nothing that concerns the order of batches happens. -/
  | quiet (c : Core β) (es : List (Event β)) (hquiet : ∀ e ∈ es, Quiet e) : Step c (c.push es)
  /-- A preprepare is accepted. -/
  | accept (c c₀ : Core β) (pp : Preprepare β) (sv : SeqView) (b : Batch β) (timeout : ℕ)
      (haccepts : Accepts P c c₀ pp sv b) : Step c (c₀.accept P pp sv b timeout)
  /-- A proposal is prepared as soon as it is accepted: only in a group so small that
  no prepare is needed. -/
  | acceptCommit (c : Core β) (hsent : c.cur.sentCommit = false) (hprep : c.cur.prep = some ∅)
      (hquorum : c.config.noFaultyQuorum - 1 = 0) (hview : c.cur.seq.view = c.view)
      (hdone : c.cur.checkpointDone = false)
      (hready : c.activeView = true ∨ c.primaryID ≠ c.id) : Step c c.sendCommit
  /-- A prepare is counted. -/
  | prepare (c : Core β) (src : ℕ) (votes : GoMap (Subject β))
      (hrecv : .recv (.prepare c.cur.subject) src ∈ c.trace) (hactive : c.activeView = true)
      (hvotes : c.cur.prep = some votes) : Step c (c.votePrepare c.cur.subject src votes)
  /-- A prepare is counted and completes the quorum. -/
  | prepareCommit (c : Core β) (src : ℕ) (votes : GoMap (Subject β))
      (hrecv : .recv (.prepare c.cur.subject) src ∈ c.trace) (hactive : c.activeView = true)
      (hvotes : c.cur.prep = some votes) (hsent : c.cur.sentCommit = false)
      (hquorum : c.config.noFaultyQuorum - 1 ≤ (votes.insert src c.cur.subject).size) :
      Step c (c.votePrepare c.cur.subject src votes).sendCommit
  /-- A commit is counted. -/
  | commit (c : Core β) (src : ℕ) (votes : GoMap (Subject β))
      (hrecv : .recv (.commit c.cur.subject) src ∈ c.trace) (hactive : c.activeView = true)
      (hvotes : c.cur.commit = some votes) : Step c (c.voteCommit c.cur.subject src votes)
  /-- A commit is counted and completes the quorum. -/
  | commitExecute (c : Core β) (src : ℕ) (votes : GoMap (Subject β))
      (hrecv : .recv (.commit c.cur.subject) src ∈ c.trace) (hactive : c.activeView = true)
      (hvotes : c.cur.commit = some votes) (hexecuted : c.cur.executed = false)
      (hquorum : c.config.noFaultyQuorum ≤ (votes.insert src c.cur.subject).size) :
      Step c ((c.voteCommit c.cur.subject src votes).execute P)
  /-- A checkpoint is counted. -/
  | checkpoint (c : Core β) (cp : Checkpoint β) (src : ℕ) (votes : GoMap (Checkpoint β))
      (hrecv : .recv (.checkpoint cp) src ∈ c.trace) (hactive : c.activeView = true)
      (hdone : c.cur.checkpointDone = false) (hseq : cp.seq = c.cur.seq.seq)
      (hsig : P.checkSig (P.bytes cp.digest) src cp.signature = true)
      (hvotes : c.cur.checkpoint = some votes) : Step c (c.voteCheckpoint cp src votes)
  /-- A checkpoint is counted and a weak quorum delivers the request in flight. -/
  | checkpointDeliver (c : Core β) (cp : Checkpoint β) (src : ℕ) (votes : GoMap (Checkpoint β))
      (replicas : List (ℕ × Checkpoint β)) (pp : Preprepare β) (b : Batch β)
      (hrecv : .recv (.checkpoint cp) src ∈ c.trace) (hactive : c.activeView = true)
      (hdone : c.cur.checkpointDone = false) (hseq : cp.seq = c.cur.seq.seq)
      (hsig : P.checkSig (P.bytes cp.digest) src cp.signature = true)
      (hvotes : c.cur.checkpoint = some votes)
      (hreplicas : ∀ e ∈ replicas, (votes.insert src cp)[e.1]? = some e.2 ∧
        P.bytes e.2.digest = P.bytes c.cur.digest)
      (hnodup : (replicas.map Prod.fst).Nodup)
      (hquorum : c.config.oneCorrectQuorum ≤ replicas.length)
      (hpp : c.cur.preprep = some pp) (hbatch : pp.batch = some b) :
      Step c ((c.voteCheckpoint cp src votes).finish { b with
        signatures := Std.ExtTreeMap.ofList (replicas.map fun e => (e.1, e.2.signature)) })
  /-- The batch of a hello is delivered, if it is ahead. -/
  | hello (c : Core β) (h : Hello β) (src : ℕ) (b : Batch β) (hd : BatchHeader β)
      (hrecv : .recv (.hello h) src ∈ c.trace) (hbatch : h.batch = some b)
      (hcheck : checkBatch P c.config b false true = .ok hd) : Step c (c.hello P h src b)
  /-- In addition, the view of a hello is joined and its checkpoint delivered. -/
  | helloNewView (c : Core β) (h : Hello β) (src : ℕ) (b : Batch β) (hd : BatchHeader β)
      (nv : NewView β) (x : Option (Subject β)) (best : Batch β)
      (hrecv : .recv (.hello h) src ∈ c.trace) (hbatch : h.batch = some b)
      (hcheck : checkBatch P c.config b false true = .ok hd) (hnv : h.newView = some nv)
      (hsrc : nv.view % c.config.N = src) (hjust : nv.Justified P c.config x best) :
      Step c (((c.hello P h src b).joinView nv).deliverXset P best)
  /-- A view is entered whose new view has no batch. -/
  | newViewNull (c : Core β) (nv : NewView β) (x : Option (Subject β)) (best : Batch β)
      (hactive : c.activeView = false) (hview : nv.view = c.view)
      (hrecv : .recv (.newView nv) c.primaryID ∈ c.trace) (hok : nv.Acceptable P c.config)
      (hjust : nv.Justified P c.config x best) (hbatch : nv.batch = none) :
      Step c (c.enterView P nv best)
  /-- A new view for a later view arrives. -/
  | jump (c : Core β) (w : ℕ) (hw : c.view < w)
      (hrecv : ∃ nv src t, c.trace = .recv (.newView nv) src :: t) : Step c (c.jump w)
  /-- The replica gives up on view `w` and all before it. -/
  | sendViewChange (c : Core β) (w : ℕ) (hw : c.view ≤ w) : Step c (c.sendViewChange P w)
  /-- The primary announces its view. -/
  | sendNewView (c : Core β) (nv : NewView β) (hprimary : c.primaryID = c.id)
      (hview : nv.view = c.view)
      (hlast : (c.lastNewViewSent.map fun nv => nv.view) ≠ some c.view) :
      Step c (c.sendNewView nv)
  /-- A connection is established. -/
  | greet (c : Core β) (r : ℕ) (es : List (Event β)) (hes : ∀ e ∈ es, Greeting P c r e) :
      Step c (c.push (es ++ [.call (.connection r) c.status]))

/-- Any number of steps. -/
def Steps : Core β → Core β → Prop := Relation.ReflTransGen (Step P)

variable {P} {c c' : Core β}

namespace Accepts

variable {c₀ : Core β} {pp : Preprepare β} {sv : SeqView} {b : Batch β}

section

variable (h : Accepts P c c₀ pp sv b)
include h

theorem config_eq : c₀.config = c.config := by cases h <;> rfl

theorem id_eq : c₀.id = c.id := by cases h <;> rfl

theorem view_eq : c₀.view = c.view := by cases h <;> rfl

theorem primaryID_eq : c₀.primaryID = c.primaryID := by
  rw [Core.primaryID, h.view_eq, h.config_eq, Core.primaryID]

theorem trace_suffix : c.trace <:+ c₀.trace := by
  cases h <;> simp

theorem seq_eq : pp.seq = some sv := by
  cases h <;> first | rfl | assumption

theorem batch_eq : pp.batch = some b := by
  cases h <;> first | rfl | assumption

theorem seq_view : sv.view = c.view := by cases h <;> rfl

end

end Accepts

theorem Step.frame (h : Step P c c') :
    c'.config = c.config ∧ c'.id = c.id ∧ c.trace <:+ c'.trace := by
  cases h
  case accept haccepts =>
    refine ⟨haccepts.config_eq, haccepts.id_eq, haccepts.trace_suffix.trans ?_⟩
    simp
  all_goals refine ⟨by simp, by simp, ?_⟩; simp

theorem Steps.frame (h : Steps P c c') :
    c'.config = c.config ∧ c'.id = c.id ∧ c.trace <:+ c'.trace := by
  induction h with
  | refl => exact ⟨rfl, rfl, List.suffix_refl _⟩
  | tail _ hstep ih =>
    obtain ⟨hcfg, hid, htrace⟩ := hstep.frame
    exact ⟨hcfg.trans ih.1, hid.trans ih.2.1, ih.2.2.trans htrace⟩

variable (P)

/-- The view a replica restarts in. -/
def restoredView (t : List (Event β)) : ℕ :=
  (((restorePreprepare t).bind Preprepare.seq).map SeqView.view).getD 0

/-- The core that restarts over `t`. The request in flight is read back if it is ahead of the chain.
-/
inductive Restarted (cfg : Config) (id : ℕ) (t : List (Event β)) : Core β → Prop
  | idle (active : Bool) (hactive : active = true → lastSeq P t = 0) :
      Restarted cfg id t ⟨cfg, id, restoredView t, active, (SBFT.blank cfg id).cur, none,
        .restart :: t⟩
  | inFlight (active : Bool) (hactive : active = true → lastSeq P t = 0) (pp : Preprepare β)
      (sv : SeqView) (b : Batch β) (timeout : ℕ) (sentCommit executed : Bool)
      (hpp : restorePreprepare t = some pp) (hseq : pp.seq = some sv) (hbatch : pp.batch = some b)
      (hahead : lastSeq P t < sv.seq)
      (hcommit : sentCommit = true ↔ restoreCommit t = some ⟨some sv, some (b.hash P)⟩)
      (hexecuted : executed = true ↔
        (restoreExecute t).isSome ∧ restoreCommit t = some ⟨some sv, some (b.hash P)⟩) :
      Restarted cfg id t ⟨cfg, id, sv.view, active,
        { Core.accepted P pp sv b timeout with sentCommit := sentCommit, executed := executed },
        none, .persist (.preprepare pp) :: .restart :: t⟩

end Fabric.Sbft
