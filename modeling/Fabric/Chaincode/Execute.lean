import Fabric.Common.Machine
import Fabric.Chaincode.RangeQuery

/-!
# Transactions on the stream of a chaincode

All transactions of a chaincode share its stream and the state machine of its handler, which is in
one state for all of them. A message that has no transition in this state ends the stream.
-/

namespace Fabric.Chaincode

open Fabric.Common Option

inductive State
  | created | established | init | ready | transaction | busyInit | busyXact | ended
  deriving DecidableEq

inductive MsgType
  | register | init | ready | transaction | putState | delState | invokeChaincode | completed
  | getState | rangeQueryState | rangeQueryStateNext | rangeQueryStateClose | error | response
  deriving DecidableEq

def transition : MsgType → State → Option State
  | .register, .created => some .established
  | .init, .established => some .init
  | .ready, .established => some .ready
  | .transaction, .ready => some .transaction
  | .putState, .transaction | .delState, .transaction | .invokeChaincode, .transaction =>
    some .busyXact
  | .putState, .init | .delState, .init | .invokeChaincode, .init => some .busyInit
  | .completed, .init | .completed, .ready | .completed, .transaction => some .ready
  | .getState, s | .rangeQueryState, s | .rangeQueryStateNext, s | .rangeQueryStateClose, s =>
    if s ∈ [.ready, .init, .busyInit, .transaction, .busyXact] then some s else none
  | .error, .init => some .ended
  | .error, .transaction => some .ready
  | .error, .busyInit | .response, .busyInit => some .init
  | .error, .busyXact | .response, .busyXact => some .transaction
  | _, _ => none

/-- Where a transaction stands whose message has been handled: the chaincode runs, or waits for the
routine that serves it, or for the reply to be handled. -/
inductive Place
  | running | reading (type : MsgType) | writing | awaiting
  deriving DecidableEq

/-- Where a request brings the transaction; other messages are no requests. -/
def MsgType.place (type : MsgType) : Option Place :=
  match type with
  | putState | delState | invokeChaincode => some .writing
  | getState | rangeQueryState | rangeQueryStateNext | rangeQueryStateClose => some (.reading type)
  | _ => none

/-- Whether a query has made the peer panic. -/
def peerPanics {α : Type} : Except Failure α → Bool
  | .error .peerPanic => true
  | _ => false

/-- Whether the routine that serves a read panics: that of a range query may, by what it gets from
the ledger or what is left of the results. -/
def MsgType.panics (type : MsgType) (scan : Except String ResultsIterator) : Bool :=
  match type with
  | .rangeQueryState => peerPanics (Chaincode.rangeQueryState scan)
  | .rangeQueryStateNext => peerPanics (handleRangeQueryStateNext scan.toOption)
  | _ => false

structure Handler where
  state : State
  isTransaction : List String
  txCtxs : List String
  /-- the routines that wait to pass a message to `processStream` -/
  nextState : List (MsgType × String)
  executed : List String
  shim : List (String × Place)
  /-- what the chaincode has answered -/
  answers : List (String × MsgType)
  /-- what the calls of `Execute` are notified of -/
  responses : List (String × MsgType)
  ended : Bool
  panicked : Bool

inductive Label
  | execute (txid : String)
  | next (type : MsgType) (txid : String)
  | request (txid : String) (type : MsgType)
  | finish (txid : String) (type : MsgType)
  | read (txid : String) (type : MsgType) (scan : Except String ResultsIterator)
  | write (txid : String) (ok : Bool)
  | returns (txid : String)
  | timeout (txid : String)

namespace Handler

def enterReadyState (h : Handler) (type : MsgType) (txid : String) : Handler :=
  { h with
    isTransaction := h.isTransaction.erase txid
    responses := if txid ∈ h.txCtxs then h.responses ++ [(txid, type)] else h.responses }

/-- Entering a state is only noticed if it is another one. -/
def handleMessage (h : Handler) (type : MsgType) (txid : String) : Option Handler :=
  (transition type h.state).map fun dst =>
    if dst = h.state then h
    else if dst = .ready then { h with state := dst }.enterReadyState type txid
    else { h with state := dst }

/-- A message of `processStream`, and what follows if it has been handled. -/
def process (h : Handler) (type : MsgType) (txid : String) (next : Handler → Handler) : Handler :=
  match h.handleMessage type txid with
  | some h => next h
  | none => { h with ended := true }

/-- The transaction goes on at another place. -/
def moves (h : Handler) (txid : String) (p p' : Place) : Handler :=
  { h with shim := (txid, p') :: h.shim.erase (txid, p) }

/-- The state request of a transaction whose context is gone dereferences nil. -/
def step (h : Handler) (l : Label) : Option Handler :=
  if h.ended ∨ h.panicked then none else
  match l with
  | .execute txid =>
    if txid ∈ h.executed then none
    else some { h with
      executed := txid :: h.executed
      txCtxs := txid :: h.txCtxs
      isTransaction := txid :: h.isTransaction
      nextState := (.transaction, txid) :: h.nextState }
  | .next type txid =>
    if (type, txid) ∈ h.nextState then
      some ({ h with nextState := h.nextState.erase (type, txid) }.process type txid
        (moves · txid .awaiting .running))
    else none
  | .request txid type =>
    if (txid, .running) ∈ h.shim then
      type.place.map fun p => h.process type txid (moves · txid .running p)
    else none
  | .finish txid type =>
    if (txid, .running) ∈ h.shim ∧ type ∈ [.completed, .error] then
      some ({ h with
        shim := h.shim.erase (txid, .running)
        answers := h.answers ++ [(txid, type)] }.process type txid id)
    else none
  | .read txid type scan =>
    if (txid, .reading type) ∈ h.shim then
      some (if txid ∈ h.txCtxs ∧ type.panics scan = false then h.moves txid (.reading type) .running
        else { h with panicked := true })
    else none
  | .write txid ok =>
    if (txid, .writing) ∈ h.shim then
      some (if txid ∈ h.isTransaction ∧ txid ∉ h.txCtxs then { h with panicked := true }
        else { h.moves txid .writing .awaiting with
          nextState := (if txid ∈ h.isTransaction ∧ ok then .response else .error, txid) ::
            h.nextState })
    else none
  | .returns txid =>
    if txid ∈ h.txCtxs ∧ txid ∈ h.responses.map Prod.fst then
      some { h with txCtxs := h.txCtxs.erase txid }
    else none
  | .timeout txid =>
    if txid ∈ h.txCtxs then some { h with txCtxs := h.txCtxs.erase txid } else none

/-- Every transaction waits for its turn, is in progress, or has got its own response. -/
structure Served (h : Handler) : Prop where
  alive : h.ended = false ∧ h.panicked = false
  responses : h.responses = h.answers
  executed : ∀ txid ∈ h.executed, (.transaction, txid) ∈ h.nextState ∨
    txid ∈ h.shim.map Prod.fst ∨ txid ∈ h.responses.map Prod.fst

/-- A transaction begins only when no other one is in progress, no call of `Execute` gives up, and
no range query yields what the peer panics on. -/
def Alone (h : Handler) : Label → Prop
  | .next .transaction _ => h.shim = []
  | .read _ type scan => type.panics scan = false
  | .timeout _ => False
  | _ => True

instance (h : Handler) : DecidablePred h.Alone := fun l => by
  unfold Alone
  split <;> infer_instance

/-- The state of the handler while one transaction is in progress. -/
def stateAt : Place → State
  | .running | .reading _ => .transaction
  | .writing | .awaiting => .busyXact

/-- The context of a transaction is there and it has no response yet. -/
def Open (h : Handler) (txid : String) : Prop :=
  txid ∈ h.txCtxs ∧ txid ∈ h.isTransaction ∧ txid ∉ h.responses.map Prod.fst

structure Sound (h : Handler) : Prop where
  served : Served h
  progress : (h.shim = [] ∧ h.state = .ready) ∨
    ∃ txid p, h.shim = [(txid, p)] ∧ h.state = stateAt p ∧ h.Open txid
  waiting : ∀ type txid, (type, txid) ∈ h.nextState →
    (type = .transaction ∧ h.Open txid ∧ txid ∉ h.shim.map Prod.fst) ∨
      ((type = .response ∨ type = .error) ∧ (txid, .awaiting) ∈ h.shim)
  nodup : (h.nextState.map Prod.snd).Nodup
  known : ∀ txid, txid ∈ h.txCtxs ∨ txid ∈ h.responses.map Prod.fst → txid ∈ h.executed

variable {h h' : Handler} {l : Label} {txid : String}

section

variable {type : MsgType} {txid : String} {next : Handler → Handler}

theorem process_ready (h' : transition type h.state = some .ready) (hne : .ready ≠ h.state) :
    h.process type txid next = next ({ h with state := .ready }.enterReadyState type txid) := by
  simp [process, handleMessage, h', hne]

theorem process_eq (dst : State) (h' : transition type h.state = some dst) (hne : dst ≠ h.state)
    (hready : dst ≠ .ready) : h.process type txid next = next { h with state := dst } := by
  simp [process, handleMessage, h', hne, hready]

end

theorem Sound.progress_of_mem (hs : Sound h) {p : Place}
    (hmem : (txid, p) ∈ h.shim) : h.shim = [(txid, p)] ∧ h.state = stateAt p ∧ h.Open txid := by
  obtain ⟨hnone, -⟩ | ⟨t, p', hshim, hstate, hopen⟩ := hs.progress
  · simp [hnone] at hmem
  · obtain ⟨rfl, rfl⟩ : txid = t ∧ p = p' := by simpa [hshim] using hmem
    exact ⟨hshim, hstate, hopen⟩

theorem Sound.relocate (hs : Sound h) {p : Place} (hmem : (txid, p) ∈ h.shim)
    (hp : p = .awaiting → txid ∉ h.nextState.map Prod.snd) (p' : Place) :
    Sound { h with state := stateAt p', shim := [(txid, p')] } := by
  obtain ⟨hshim, -, hopen⟩ := hs.progress_of_mem hmem
  obtain ⟨⟨halive, hresp, hexec⟩, -, hwaiting, hnodup, hknown⟩ := hs
  rw [hshim] at hexec hwaiting
  refine ⟨⟨halive, hresp, hexec⟩, .inr ⟨txid, p', rfl, rfl, hopen⟩, ?_, hnodup, hknown⟩
  intro type t ht
  refine .inl ((hwaiting type t ht).resolve_right fun ⟨_, hplace⟩ => ?_)
  obtain ⟨rfl, rfl⟩ : t = txid ∧ .awaiting = p := by simpa using hplace
  exact hp rfl (List.mem_map_of_mem ht)

theorem Sound.step (hs : Sound h) (halone : h.Alone l) (hstep : h.step l = some h') : Sound h' := by
  obtain ⟨⟨halive, hresp, hexec⟩, hprogress, hwaiting, hnodup, hknown⟩ := id hs
  rw [Handler.step.eq_def, if_neg (by simp [halive])] at hstep
  cases l with simp only [ite_none_left_eq_some, ite_none_right_eq_some, map_eq_some_iff,
    Option.some.injEq] at hstep
  | timeout => exact halone.elim
  | execute =>
    obtain ⟨hnew, rfl⟩ := hstep
    refine ⟨⟨halive, hresp, ?_⟩, ?_, ?_, ?_, ?_⟩
    all_goals grind [Open]
  | returns =>
    obtain ⟨hret, rfl⟩ := hstep
    refine ⟨⟨halive, hresp, hexec⟩, ?_, ?_, hnodup, ?_⟩
    all_goals grind [Open]
  | next type txid =>
    obtain ⟨hmem, rfl⟩ := hstep
    -- no other message of the transaction waits
    have hperm := ((List.perm_cons_erase hmem).map Prod.snd).nodup_iff.mp hnodup
    obtain ⟨hother, hnodup⟩ := List.nodup_cons.mp hperm
    have hsub : ∀ x ∈ h.nextState.erase (type, txid), x ∈ h.nextState :=
      fun x => List.mem_of_mem_erase
    rcases hwaiting type txid hmem with ⟨rfl, hopen, -⟩ | ⟨htype, hplace⟩
    · have hshim : h.shim = [] := halone
      have hstate : h.state = .ready := by simpa [hshim] using hprogress
      rw [process_eq .transaction (by rw [hstate]; rfl) (by simp [hstate]) (by simp)]
      refine ⟨⟨halive, hresp, ?_⟩, .inr ⟨txid, .running, ?_, rfl, hopen⟩, ?_, hnodup, hknown⟩
      all_goals grind [Open, moves]
    · obtain ⟨hshim, hstate, -⟩ := hs.progress_of_mem hplace
      have herased : Sound { h with nextState := h.nextState.erase (type, txid) } := by
        refine ⟨⟨halive, hresp, ?_⟩, hprogress,
          fun type t ht => hwaiting type t (hsub _ ht), hnodup, hknown⟩
        grind
      have hmoved := herased.relocate hplace (fun _ => hother) .running
      rw [process_eq .transaction (by rw [hstate]; rcases htype with rfl | rfl <;> rfl)
        (by simp [hstate, stateAt]) (by simp)]
      simpa [moves, hshim, stateAt] using hmoved
  | request txid type =>
    obtain ⟨hmem, p, hp, rfl⟩ := hstep
    obtain ⟨hshim, hstate, -⟩ := hs.progress_of_mem hmem
    have heq : h.process type txid (moves · txid .running p) =
        { h with state := stateAt p, shim := [(txid, p)] } := by
      cases type <;> cases hp <;>
        simp [process, handleMessage, transition, moves, stateAt, hshim, hstate]
    rw [heq]
    exact hs.relocate hmem (by simp) p
  | finish =>
    obtain ⟨⟨hmem, htype⟩, rfl⟩ := hstep
    obtain ⟨hshim, hstate, hopen⟩ := hs.progress_of_mem hmem
    simp only [List.mem_cons, List.not_mem_nil, or_false] at htype
    rw [process_ready (by rw [hstate]; rcases htype with rfl | rfl <;> rfl)
      (by simp [hstate, stateAt]), id, enterReadyState, if_pos hopen.1]
    refine ⟨⟨halive, by rw [hresp], ?_⟩, .inl ⟨by simp [hshim], rfl⟩, ?_, hnodup, ?_⟩
    all_goals grind [Open]
  | read =>
    obtain ⟨hmem, rfl⟩ := hstep
    obtain ⟨hshim, hstate, hopen⟩ := hs.progress_of_mem hmem
    have hmoved := hs.relocate hmem (by simp) .running
    rw [if_pos ⟨hopen.1, halone⟩]
    simpa [moves, hshim, hstate, stateAt] using hmoved
  | write txid =>
    obtain ⟨hmem, rfl⟩ := hstep
    obtain ⟨hshim, hstate, hopen⟩ := hs.progress_of_mem hmem
    rw [if_neg (by simp [show txid ∈ h.txCtxs from hopen.1])]
    refine ⟨⟨halive, hresp, ?_⟩, .inr ⟨txid, .awaiting, ?_, hstate, hopen⟩, ?_, ?_, hknown⟩
    all_goals grind [Open, moves]

end Handler

end Fabric.Chaincode
