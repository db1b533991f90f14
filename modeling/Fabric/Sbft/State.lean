import Mathlib.Data.List.AList
import Fabric.Common.History
import Fabric.Common.MapOrder
import Fabric.Sbft.Batch

/-!
# Replica state

The state of one replica (`SBFT` in `simplebft.go`), what it does to its
environment, and the elementary operations its handlers are written in.

The environment (`System` in `simplebft.go`) is the history of the replica: the
chain is the sequence of delivered batches and a persisted record is the last one
written under its key, so that a restart keeps exactly the history. The history
also records the messages received and, for every handler that was entered, the
part of the state it was entered in.
-/

namespace Fabric.Sbft

open Fabric.Common

/-- What a timer runs when it fires. -/
inductive TimerFn where
  | requestTimeout
  | maybeSendNextBatch
  | viewChangeTimeout
deriving DecidableEq

variable (β : Type)

/-- The request in flight. The vote maps are nil until a preprepare is accepted, and `timeout` is
`none` for the dummy canceller. -/
structure ReqInfo where
  seq : SeqView
  digest : Option β
  timeout : Option ℕ
  preprep : Option (Preprepare β)
  prep : Option (GoMap (Subject β))
  commit : Option (GoMap (Subject β))
  sentCommit : Bool
  executed : Bool
  checkpoint : Option (GoMap (Checkpoint β))
  checkpointDone : Bool

/-- What a replica remembers of each replica. -/
structure ReplicaInfo where
  backLog : List (Msg β)
  hello : Option (Hello β)
  signedViewchange : Option (Signed β)
  viewchange : Option (ViewChange β)
  newview : Option (NewView β)

/-- The variables of a replica. `timers` holds the running timers, `nextTimer` the next unused one.
`choices` resolves the iteration order of Go maps, see `rangeOrder`. -/
structure SBFT where
  config : Config
  id : ℕ
  view : ℕ
  batch : List (Request β)
  batchTimer : Option ℕ
  cur : ReqInfo β
  activeView : Bool
  lastNewViewSent : Option (NewView β)
  viewChangeTimer : Option ℕ
  replicaState : List (ReplicaInfo β)
  pending : AList (fun _ : β => Request β)
  timers : List (ℕ × TimerFn)
  nextTimer : ℕ
  choices : List ℕ

/-- A persisted record: its key with the data written under it. -/
inductive Record where
  | preprepare (pp : Preprepare β)
  | commit (c : Subject β)
  | execute (ex : Subject β)

/-- The handlers whose entry is recorded. -/
inductive Call where
  | handleCheckedPreprepare (pp : Preprepare β)
  | handlePreprepare (pp : Preprepare β) (src : ℕ)
  | handlePrepare (p : Subject β) (src : ℕ)
  | handleCommit (c : Subject β) (src : ℕ)
  | handleCheckpoint (c : Checkpoint β) (src : ℕ)
  | handleHello (h : Hello β) (src : ℕ)
  | processNewView (nv : NewView β)
  | sendViewChange
  | connection (replica : ℕ)

/-- The part of the state recorded on entry to a handler. -/
structure Status where
  view : ℕ
  activeView : Bool
  cur : ReqInfo β

/-- What happens at a replica, in the order it happens. -/
inductive Event where
  | recv (m : Msg β) (src : ℕ)
  | call (c : Call β) (st : Status β)
  | send (m : Msg β) (dest : ℕ)
  | deliver (b : Batch β)
  | persist (r : Record β)
  | signCheckpoint (sub : Subject β)
  | signViewChange (vc : ViewChange β)
  | reconnect (replica : ℕ)
  | restart

/-- A replica with its history, latest event first. -/
structure Replica extends SBFT β where
  trace : List (Event β)

/-- How a replica's process can stop. -/
inductive Panic where
  | nilDereference
  | nilMapWrite
  | indexOutOfRange
  | decodeHeader
  | backlogOwnMessage
  | newViewSignatures
  | invalidNewview
  | invalidLastBatch
  | weakCheckpointMismatch
deriving DecidableEq

variable {β}

namespace Event

/-- The message an event received. -/
def received? : Event β → Option (Msg β)
  | .recv m _ => some m
  | _ => none

/-- The view change an event signed. -/
def signedViewChange? : Event β → Option (ViewChange β)
  | .signViewChange vc => some vc
  | _ => none

/-- The subject an event signed a checkpoint for. -/
def signedCheckpoint? : Event β → Option (Subject β)
  | .signCheckpoint sub => some sub
  | _ => none

/-- The subject an event sent a prepare or commit for. -/
def vote? : Event β → Option (Subject β)
  | .send (.prepare sub) _ | .send (.commit sub) _ => some sub
  | _ => none

/-- Whether an event is a restart. -/
def isRestart : Event β → Bool
  | .restart => true
  | _ => false

/-! The handler an event entered: its argument and the state it was entered in. -/

/-- Entry to `handleCheckedPreprepare`. -/
def accepts? : Event β → Option (Preprepare β × Status β)
  | .call (.handleCheckedPreprepare pp) st => some (pp, st)
  | _ => none

/-- Entry to `handleHello`. -/
def hello? : Event β → Option (Hello β × Status β)
  | .call (.handleHello h _) st => some (h, st)
  | _ => none

/-- Entry to `handlePrepare`. -/
def prepare? : Event β → Option (Subject β × Status β)
  | .call (.handlePrepare p _) st => some (p, st)
  | _ => none

/-- Entry to `handlePrepare`, with the sender. -/
def prepareFrom? : Event β → Option (Subject β × ℕ × Status β)
  | .call (.handlePrepare p src) st => some (p, src, st)
  | _ => none

/-- Entry to `handleCommit`. -/
def commit? : Event β → Option (Subject β × Status β)
  | .call (.handleCommit c _) st => some (c, st)
  | _ => none

/-- Entry to `sendViewChange`. -/
def leavesView? : Event β → Option (Status β)
  | .call .sendViewChange st => some st
  | _ => none

/-- Entry to `connection`. -/
def connects? : Event β → Option (Status β)
  | .call (.connection _) st => some st
  | _ => none

/-- Entry to `handleCheckpoint`. -/
def checkpoint? : Event β → Option (Checkpoint β × Status β)
  | .call (.handleCheckpoint c _) st => some (c, st)
  | _ => none

/-- Entry to `processNewView`. -/
def entersView? : Event β → Option (NewView β × Status β)
  | .call (.processNewView nv) st => some (nv, st)
  | _ => none

end Event

/-- The subject of the request in flight. -/
def ReqInfo.subject (cur : ReqInfo β) : Subject β := ⟨some cur.seq, cur.digest⟩

@[simp] theorem ReqInfo.subject_seq (cur : ReqInfo β) : cur.subject.seq = some cur.seq := rfl

@[simp] theorem ReqInfo.subject_digest (cur : ReqInfo β) : cur.subject.digest = cur.digest := rfl

/-- The part of the state recorded on entry to a handler. -/
def SBFT.status (s : SBFT β) : Status β := ⟨s.view, s.activeView, s.cur⟩

/-- Programs over a replica; a panic keeps what was done before. -/
abbrev M (β : Type) := EStateM Panic (Replica β)

section Chain

variable (P : Primitives β) {t t' : List (Event β)} {es : List (Event β)} {e : Event β}

/-- The batch a chain starts from. -/
def genesis : Batch β := makeBatch P 0 none []

/-- The last delivered batch, or the genesis batch. -/
def lastBatch : List (Event β) → Batch β
  | [] => genesis P
  | .deliver b :: _ => b
  | _ :: t => lastBatch t

/-- The sequence number of the last delivered batch. -/
def lastSeq (t : List (Event β)) : ℕ := seqOf P (lastBatch P t)

@[simp] theorem lastBatch_deliver (b : Batch β) (t : List (Event β)) :
    lastBatch P (.deliver b :: t) = b := rfl

@[simp] theorem lastBatch_cons_of_ne (t : List (Event β)) (h : ∀ b, e ≠ .deliver b) :
    lastBatch P (e :: t) = lastBatch P t := by
  cases e with
  | deliver b => exact absurd rfl (h b)
  | _ => rfl

theorem lastBatch_append_of_ne (t : List (Event β))
    (h : ∀ e ∈ es, ∀ b, e ≠ .deliver b) : lastBatch P (es ++ t) = lastBatch P t := by
  induction es with
  | nil => rfl
  | cons e _ ih =>
    rw [List.cons_append, lastBatch_cons_of_ne P _ (h e List.mem_cons_self)]
    exact ih fun e' he' => h e' (List.mem_cons_of_mem e he')

@[simp] theorem lastSeq_deliver (b : Batch β) (t : List (Event β)) :
    lastSeq P (.deliver b :: t) = seqOf P b := rfl

@[simp] theorem lastSeq_cons_of_ne (t : List (Event β)) (h : ∀ b, e ≠ .deliver b) :
    lastSeq P (e :: t) = lastSeq P t := by
  rw [lastSeq, lastBatch_cons_of_ne P t h, lastSeq]

theorem lastSeq_append_of_ne (t : List (Event β))
    (h : ∀ e ∈ es, ∀ b, e ≠ .deliver b) : lastSeq P (es ++ t) = lastSeq P t := by
  rw [lastSeq, lastBatch_append_of_ne P t h, lastSeq]

theorem lastBatch_eq_of_not_added (hs : t <:+ t')
    (h : ∀ b, ¬ Added t t' (.deliver b)) : lastBatch P t' = lastBatch P t := by
  obtain ⟨es, rfl⟩ := hs
  refine lastBatch_append_of_ne P t ?_
  rintro e he b rfl
  exact h b ((added_append (List.suffix_refl t)).mpr (.inl he))

theorem lastSeq_eq_of_not_added (hs : t <:+ t')
    (h : ∀ b, ¬ Added t t' (.deliver b)) : lastSeq P t' = lastSeq P t := by
  rw [lastSeq, lastBatch_eq_of_not_added P hs h, lastSeq]

end Chain

/-- The last preprepare that was persisted. -/
def restorePreprepare : List (Event β) → Option (Preprepare β) :=
  List.findSome? fun | .persist (.preprepare pp) => some pp | _ => none

/-- The last commit that was persisted. -/
def restoreCommit : List (Event β) → Option (Subject β) :=
  List.findSome? fun | .persist (.commit c) => some c | _ => none

/-- The last executed subject that was persisted. -/
def restoreExecute : List (Event β) → Option (Subject β) :=
  List.findSome? fun | .persist (.execute ex) => some ex | _ => none

/-- Append an event to the history. -/
def emit (e : Event β) : M β Unit := modify fun s => { s with trace := e :: s.trace }

/-- Record the entry to a handler. -/
def enter (c : Call β) : M β Unit := do
  let s ← get
  emit (.call c s.status)

/-- Follow a pointer. -/
def deref {α : Type} : Option α → M β α
  | some a => pure a
  | none => throw .nilDereference

/-- Read `s.replicaState[src]`. -/
def replicaInfo (src : ℕ) : M β (ReplicaInfo β) := do
  let s ← get
  match s.replicaState[src]? with
  | some info => pure info
  | none => throw .indexOutOfRange

/-- Update `s.replicaState[src]`. -/
def modifyInfo (src : ℕ) (f : ReplicaInfo β → ReplicaInfo β) : M β Unit := do
  let _ ← replicaInfo src
  modify fun s => { s with replicaState := s.replicaState.modify src f }

/-- Update the request in flight. -/
def modifyCur (f : ReqInfo β → ReqInfo β) : M β Unit := modify fun s => { s with cur := f s.cur }

/-- The order in which `range` visits a Go map: an arbitrary one, from the next choices. -/
def rangeOrder {α : Type} (entries : List α) : M β (List α) := do
  let s ← get
  set { s with choices := s.choices.drop entries.length }
  pure (reorder (s.choices.take entries.length) entries)

/-- Start a timer. -/
def startTimer (fn : TimerFn) : M β ℕ := do
  let s ← get
  set { s with timers := (s.nextTimer, fn) :: s.timers, nextTimer := s.nextTimer + 1 }
  pure s.nextTimer

/-- Cancel a timer; cancelling the dummy canceller does nothing. -/
def cancelTimer (timer : Option ℕ) : M β Unit :=
  modify fun s => { s with timers := s.timers.filter fun t => some t.1 ≠ timer }

end Fabric.Sbft
