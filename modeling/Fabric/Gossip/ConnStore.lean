import Fabric.Common.Machine
import Fabric.Common.Wire
import Mathlib.Data.List.AList

/-!
# The connection store

The connections of a peer, by the PKI id that the other side has authenticated with. A call of
`getConnection` goes through several critical sections, and other calls run between them. A call
in progress is listed with the place it stands at, which tells the lock that it holds.
-/

namespace Fabric.Gossip

open Fabric.Common

/-- A PKI id; nil while only the endpoint of the peer is known. -/
abbrev PKIidType := Option Bytes

/-- The key of a PKI id in the maps of the store: nil is converted to the empty string. -/
def PKIidType.key (pkiID : PKIidType) : Bytes := pkiID.getD []

/-- A pointer to a connection. Its PKI id is the one that the peer has authenticated with. -/
structure Connection where
  ref : ℕ
  pkiID : Bytes
  deriving DecidableEq

/-- What `createConnection` comes to, before it compares the PKI id with the expected one. -/
inductive Remote
  | failed
  /-- the stream is refused; the error that is returned is that of dialling, which is nil -/
  | noStream
  | authenticated (pkiID : Bytes)
  deriving DecidableEq

/-- What `createConnection` returns: an error, nil without an error, or a connection. -/
inductive Created
  | failed
  | noStream
  | conn (c : Connection)
  deriving DecidableEq

def Created.conn? : Created → Option Connection
  | conn c => some c
  | _ => none

/-- Where a call of `getConnection` stands: the critical section that comes next. -/
inductive Call
  | getConnection (pkiID : PKIidType)
  | findLock (pkiID : PKIidType)
  | acquire (pkiID : PKIidType) (lock : ℕ)
  | lookup (pkiID : PKIidType) (lock : ℕ)
  | create (pkiID : PKIidType) (lock : ℕ)
  | unlock (pkiID : PKIidType) (lock : ℕ) (created : Created)
  | checkClosing (pkiID : PKIidType) (created : Created)
  | register (pkiID : PKIidType) (created : Created)
  | returned (pkiID : PKIidType) (conn : Option Connection)
  deriving DecidableEq

namespace Call

/-- The lock of the destination, where the call holds it. -/
def held : Call → Option ℕ
  | lookup _ lock | create _ lock | unlock _ lock _ => some lock
  | _ => none

/-- The connection that the call has created and not yet registered. -/
def pending : Call → Option Connection
  | unlock _ _ created | checkClosing _ created | register _ created => created.conn?
  | _ => none

/-- The connection that the call has returned, with the key it was asked for. -/
def grants : Call → Option (Bytes × Connection)
  | returned pkiID (some conn) => some (pkiID.key, conn)
  | _ => none

def isReturned : Call → Bool
  | returned _ _ => true
  | _ => false

end Call

/-- Where `shutdown` stands: the keys it has left, those added meanwhile, and the routines it
started. -/
structure Range where
  ranging : Bool
  left : List Bytes
  added : List Bytes
  closers : List Bytes
  deriving DecidableEq

/-- The store. Connections are listed when they are made and when they are closed. -/
structure ConnStore where
  isClosing : Bool
  pki2Conn : AList fun _ : Bytes => Connection
  destinationLocks : AList fun _ : Bytes => ℕ
  locks : ℕ
  made : List Connection
  closed : List Connection
  calls : List Call
  ranges : List Range
  panicked : Bool

variable {x : Bytes × Connection}

namespace ConnStore

def newConnStore : ConnStore := ⟨false, ∅, ∅, 0, [], [], [], [], false⟩

def entry (cs : ConnStore) (key : Bytes) : Option Connection := cs.pki2Conn.lookup key

def close (cs : ConnStore) (c : Connection) : ConnStore := { cs with closed := c :: cs.closed }

/-- A deleted entry is not produced any more. -/
def delete (cs : ConnStore) (key : Bytes) : ConnStore :=
  { cs with
    pki2Conn := cs.pki2Conn.erase key
    ranges := cs.ranges.map fun r =>
      { r with left := r.left.erase key, added := r.added.erase key } }

/-- An entry that is new may be produced. -/
def put (cs : ConnStore) (key : Bytes) (c : Connection) : ConnStore :=
  { cs with
    pki2Conn := cs.pki2Conn.insert key c
    ranges := if key ∈ cs.pki2Conn then cs.ranges
      else cs.ranges.map fun r => { r with added := key :: r.added } }

def newConnection (cs : ConnStore) (pkiID : Bytes) : Connection := ⟨cs.made.length, pkiID⟩

def resume (cs : ConnStore) (c : Call) : ConnStore := { cs with calls := c :: cs.calls }

def without (cs : ConnStore) (c : Call) : ConnStore := { cs with calls := cs.calls.erase c }

def closeConn (cs : ConnStore) (pkiID : PKIidType) : ConnStore :=
  match cs.entry pkiID.key with
  | some conn => (cs.close conn).delete conn.pkiID
  | none => cs

def closeByPKIid (cs : ConnStore) (pkiID : Bytes) : ConnStore :=
  match cs.entry pkiID with
  | some conn => (cs.close conn).delete pkiID
  | none => cs

def registerConn (cs : ConnStore) (pkiID : Bytes) : ConnStore :=
  { cs with made := cs.made ++ [cs.newConnection pkiID] }.put pkiID (cs.newConnection pkiID)

def onConnected (cs : ConnStore) (pkiID : Bytes) : ConnStore :=
  match cs.entry pkiID with
  | some c => (cs.close c).registerConn pkiID
  | none => cs.registerConn pkiID

/-- A peer that has authenticated with another PKI id than the expected one is an error. -/
def createConnection (cs : ConnStore) (expected : PKIidType) : Remote → Created
  | .failed => .failed
  | .noStream => .noStream
  | .authenticated pkiID =>
    if expected.isSome ∧ expected ≠ some pkiID then .failed else .conn (cs.newConnection pkiID)

/-- What `getConnection` does with what it has created: someone may have connected meanwhile. -/
def settle (cs : ConnStore) (pkiID : PKIidType) (created : Created) : ConnStore :=
  match cs.entry pkiID.key with
  | some conn =>
    match created with
    | .conn c => (cs.close c).resume (.returned pkiID (some conn))
    | _ => cs.resume (.returned pkiID (some conn))
  | none =>
    match created with
    | .failed => cs.resume (.returned pkiID none)
    -- the PKI id of a nil connection is read
    | .noStream => { cs with panicked := true }
    | .conn c => (cs.put c.pkiID c).resume (.returned pkiID (some c))

/-- Where a call stands after a section that changes nothing else. -/
def next (cs : ConnStore) : Call → Option Call
  | .getConnection pkiID => some (if cs.isClosing then .returned pkiID none else .findLock pkiID)
  | .acquire pkiID lock =>
    if some lock ∈ cs.calls.map Call.held then none else some (.lookup pkiID lock)
  | .lookup pkiID lock =>
    match cs.entry pkiID.key with
    | some conn => some (.returned pkiID (some conn))
    | none => some (.create pkiID lock)
  | .unlock pkiID _ created => some (.checkClosing pkiID created)
  -- the flag is read without a lock, and what was created is dropped
  | .checkClosing pkiID created =>
    some (if cs.isClosing then .returned pkiID none else .register pkiID created)
  | _ => none

/-- The next critical section of a call, which is not listed while it runs. -/
def advance (cs : ConnStore) : Call → Option ConnStore
  | .findLock pkiID =>
    match cs.destinationLocks.lookup pkiID.key with
    | some lock => some (cs.resume (.acquire pkiID lock))
    | none => some ({ cs with
        locks := cs.locks + 1
        destinationLocks := cs.destinationLocks.insert pkiID.key cs.locks
        }.resume (.acquire pkiID cs.locks))
  | .register pkiID created =>
    some ({ cs with destinationLocks := cs.destinationLocks.erase pkiID.key
      }.settle pkiID created)
  | .returned _ _ => some cs
  | call => (cs.next call).map cs.resume

/-- A new call, or the next thing that one of the calls in progress does. -/
inductive Label
  | getConnection (pkiID : PKIidType)
  | advance (call : Call)
  | create (pkiID : PKIidType) (lock : ℕ) (remote : Remote)
  | onConnected (pkiID : Bytes)
  | closeConn (pkiID : PKIidType)
  | closeByPKIid (pkiID : Bytes)
  | shutdown
  | produce (r : Range) (key : Bytes)
  | endRange (r : Range)
  | closer (r : Range) (key : Bytes)
  | endShutdown (r : Range)

/-- A call of `shutdown` goes on. -/
def reRange (cs : ConnStore) (r r' : Range) : ConnStore :=
  { cs with ranges := r' :: cs.ranges.erase r }

/-- One step; a panic ends the process. -/
def step (cs : ConnStore) (l : Label) : Option ConnStore :=
  if cs.panicked then none else
  match l with
  | .getConnection pkiID => some (cs.resume (.getConnection pkiID))
  | .advance call => if call ∈ cs.calls then (cs.without call).advance call else none
  | .create pkiID lock remote =>
    if .create pkiID lock ∈ cs.calls then
      let created := cs.createConnection pkiID remote
      some ({ cs.without (.create pkiID lock) with
        made := cs.made ++ created.conn?.toList }.resume (.unlock pkiID lock created))
    else none
  | .onConnected pkiID => some (cs.onConnected pkiID)
  | .closeConn pkiID => some (cs.closeConn pkiID)
  | .closeByPKIid pkiID => some (cs.closeByPKIid pkiID)
  | .shutdown => some { cs with
      isClosing := true
      ranges := ⟨true, cs.pki2Conn.keys, [], []⟩ :: cs.ranges }
  | .produce r key =>
    match cs.entry key with
    | some conn =>
      if r ∈ cs.ranges ∧ r.ranging ∧ (r.left ++ r.added).contains key then
        some (cs.reRange r { r with
          left := r.left.erase key
          added := r.added.erase key
          closers := conn.pkiID :: r.closers })
      else none
    | none => none
  | .endRange r =>
    if r ∈ cs.ranges ∧ r.ranging ∧ r.left = [] then
      some (cs.reRange r { r with ranging := false })
    else none
  | .closer r key =>
    if r ∈ cs.ranges ∧ r.closers.contains key then
      some ((cs.reRange r { r with closers := r.closers.erase key }).closeByPKIid key)
    else none
  | .endShutdown r =>
    if r ∈ cs.ranges ∧ r.ranging = false ∧ r.closers = [] then
      some { cs with ranges := cs.ranges.erase r }
    else none

/-! ### Where entries and connections come from -/

variable {cs cs' : ConnStore} {c conn : Connection} {call : Call} {key key' pkiID : Bytes}
  {id : PKIidType} {created : Created} {l : Label} {remote : Remote} {call' : Call}

@[simp] theorem entry_close : (cs.close c).entry key = cs.entry key := rfl

@[simp] theorem entry_resume : (cs.resume call).entry key = cs.entry key := rfl

@[simp] theorem entry_without : (cs.without call).entry key = cs.entry key := rfl

@[simp] theorem entry_reRange {r r' : Range} : (cs.reRange r r').entry key = cs.entry key := rfl

@[simp] theorem entry_delete :
    (cs.delete key').entry key = if key = key' then none else cs.entry key := by
  by_cases h : key = key'
  · rw [if_pos h, h]
    exact AList.lookup_erase _ _
  · rw [if_neg h]
    exact AList.lookup_erase_ne h

@[simp] theorem entry_put :
    (cs.put key' c).entry key = if key = key' then some c else cs.entry key := by
  by_cases h : key = key'
  · rw [if_pos h, h]
    exact AList.lookup_insert _
  · rw [if_neg h]
    exact AList.lookup_insert_ne h

@[simp] theorem entry_closeByPKIid :
    (cs.closeByPKIid key').entry key = if key = key' then none else cs.entry key := by
  unfold closeByPKIid
  grind [entry_delete, entry_close]

theorem entry_of_closeConn (h : (cs.closeConn id).entry key = some c) : cs.entry key = some c := by
  unfold closeConn at h
  grind [entry_delete, entry_close]

@[simp] theorem entry_onConnected : (cs.onConnected pkiID).entry key =
    if key = pkiID then some ⟨cs.made.length, pkiID⟩ else cs.entry key := by
  unfold onConnected
  split <;> exact entry_put

/-- The connections that calls have created and not yet registered. -/
def pendings (cs : ConnStore) : List Connection := cs.calls.filterMap Call.pending

/-- The connections that calls have returned, with the keys they were asked for. -/
def granted (cs : ConnStore) : List (Bytes × Connection) := cs.calls.filterMap Call.grants

theorem next_pending (h : cs.next call = some call') :
    call'.pending = call.pending ∨ cs.isClosing ∧ ∃ id created, call = .checkClosing id created ∧
      call'.pending = none := by
  cases call <;> grind [next, Call.pending]

theorem next_grants (h : cs.next call = some call') (hx : call'.grants = some x) :
    cs.entry x.1 = some x.2 := by
  cases call <;> grind [next, Call.grants]

/-- What the next section of a call does. -/
inductive Goes (cs : ConnStore) : Call → ConnStore → Prop
  | on (call : Call) (destinationLocks : AList fun _ : Bytes => ℕ) (locks : ℕ) (call' : Call)
    (hpending : call'.pending = call.pending ∨ cs.isClosing ∧
      ∃ id created, call = .checkClosing id created ∧ call'.pending = none)
    (hgrants : ∀ x, call'.grants = some x → cs.entry x.1 = some x.2) :
    Goes cs call ({ cs with
      destinationLocks := destinationLocks, locks := locks }.resume call')
  | returned (id : PKIidType) (conn : Option Connection) : Goes cs (.returned id conn) cs
  | register (id : PKIidType) (created : Created) : Goes cs (.register id created)
    ({ cs with destinationLocks := cs.destinationLocks.erase id.key }.settle id created)

theorem goes_of_step (h : cs.step (.advance call) = some cs') :
    call ∈ cs.calls ∧ Goes (cs.without call) call cs' := by
  simp only [step, Option.ite_none_left_eq_some, Option.ite_none_right_eq_some] at h
  obtain ⟨-, hmem, h⟩ := h
  refine ⟨hmem, ?_⟩
  cases call with
  | findLock =>
    simp only [advance] at h
    split at h <;> cases h
    all_goals exact .on _ _ _ _ (.inl rfl) (by simp [Call.grants])
  | register id created =>
    cases h
    exact .register id created
  | returned id conn =>
    cases h
    exact .returned id conn
  | _ =>
    simp only [advance, Option.map_eq_some_iff] at h
    obtain ⟨call', hnext, rfl⟩ := h
    exact .on _ _ _ _ (next_pending hnext) (fun x => next_grants hnext)

theorem authenticated_of_createConnection
    (h : (cs.createConnection id remote).conn? = some c) : remote = .authenticated c.pkiID := by
  unfold createConnection at h
  grind [newConnection, Created.conn?]

theorem entry_settle (h : (cs.settle id created).entry key = some conn) : cs.entry key = some conn ∨
      created = .conn conn ∧ conn.pkiID = key ∧ cs.entry id.key = none := by
  unfold settle at h
  grind [entry_resume, entry_close, entry_put, entry]

theorem entry_of_step (h : cs.step l = some cs') (hentry : cs'.entry key = some conn) :
    cs.entry key = some conn ∨ (l = .onConnected key ∧ conn = ⟨cs.made.length, key⟩) ∨
      ∃ id, l = .advance (.register id (.conn conn)) ∧ conn.pkiID = key ∧
        .register id (.conn conn) ∈ cs.calls ∧ cs.entry id.key = none := by
  cases l with
  | advance =>
    obtain ⟨hmem, hgoes⟩ := goes_of_step h
    cases hgoes with
    | register id =>
      rcases entry_settle hentry with hold | ⟨rfl, hkey, hnone⟩
      · exact .inl hold
      · exact .inr (.inr ⟨id, rfl, hkey, hmem, hnone⟩)
    | _ => exact .inl hentry
  | _ =>
    simp only [step] at h
    grind [entry_closeByPKIid, entry_of_closeConn, entry_onConnected, entry_resume, entry_without,
      entry_reRange, entry, without]

theorem create_of_step {lock : ℕ}
    (h : cs.step (.create id lock remote) = some cs') : { cs.without (.create id lock) with
      made := cs.made ++ (cs.createConnection id remote).conn?.toList
      }.resume (.unlock id lock (cs.createConnection id remote)) = cs' := by
  simp only [step, Option.ite_none_left_eq_some, Option.ite_none_right_eq_some] at h
  exact Option.some.inj h.2.2

@[simp] theorem mem_pendings_resume :
    c ∈ (cs.resume call).pendings ↔ call.pending = some c ∨ c ∈ cs.pendings := by
  simp [pendings, resume]

theorem mem_pendings_of_without (h : c ∈ (cs.without call).pendings) : c ∈ cs.pendings :=
  (List.erase_sublist.filterMap _).subset h

theorem pendings_settle : (cs.settle id created).pendings = cs.pendings := by
  unfold settle
  grind [pendings, resume, put, close, Call.pending]

theorem pending_of_step (h : cs.step l = some cs') (hc : c ∈ cs'.pendings) :
    c ∈ cs.pendings ∨ ∃ id lock, l = .create id lock (.authenticated c.pkiID) := by
  cases l with
  | advance call =>
    obtain ⟨hmem, hgoes⟩ := goes_of_step h
    refine .inl ?_
    cases hgoes with
    | register => exact mem_pendings_of_without (pendings_settle ▸ hc)
    | returned => exact mem_pendings_of_without hc
    | on =>
      rcases mem_pendings_resume.mp hc with hc | hc
      · grind [pendings]
      · exact mem_pendings_of_without hc
  | create id lock =>
    obtain rfl := create_of_step h
    rcases mem_pendings_resume.mp hc with hc | hc
    · obtain rfl := authenticated_of_createConnection hc
      exact .inr ⟨id, lock, rfl⟩
    · exact .inl (mem_pendings_of_without hc)
  | _ =>
    simp only [step] at h
    grind [pendings, closeByPKIid, closeConn, onConnected, registerConn, close, delete, put,
      reRange, mem_pendings_resume, Call.pending]

theorem granted_settle (h : x ∈ (cs.settle id created).granted) :
    x ∈ cs.granted ∨ ∀ conn, (cs.settle id created).entry x.1 = some conn → conn = x.2 := by
  unfold settle at h ⊢
  grind [granted, resume, close, put, Call.grants, entry_resume, entry_close, entry_put]

theorem granted_of_returned (h : cs.step (.advance (.returned id (some conn))) = some cs') :
    (id.key, conn) ∈ cs.granted :=
  List.mem_filterMap.mpr ⟨_, (goes_of_step h).1, rfl⟩

theorem granted_of_step (h : cs.step l = some cs') (hx : x ∈ cs'.granted) :
    x ∈ cs.granted ∨ ∀ conn, cs'.entry x.1 = some conn → conn = x.2 := by
  cases l with
  | advance call =>
    obtain ⟨hmem, hgoes⟩ := goes_of_step h
    have hsub : ∀ {x}, x ∈ (cs.without call).granted → x ∈ cs.granted :=
      fun hx => (List.erase_sublist.filterMap _).subset hx
    cases hgoes with
    | register =>
      rcases granted_settle hx with hx | hx
      · exact .inl (hsub hx)
      · exact .inr hx
    | returned => exact .inl (hsub hx)
    | on _ _ _ _ _ hgrants =>
      rcases List.mem_filterMap.mp hx with ⟨other, _ | ⟨_, hother⟩, hx⟩
      · exact .inr fun conn hconn => Option.some.inj (hconn.symm.trans (hgrants _ hx))
      · exact .inl (hsub (List.mem_filterMap.mpr ⟨other, hother, hx⟩))
  | _ =>
    simp only [step] at h
    grind [granted, closeByPKIid, closeConn, onConnected, registerConn, close, delete, put,
      reRange, resume, without, Call.grants]

end ConnStore

end Fabric.Gossip
