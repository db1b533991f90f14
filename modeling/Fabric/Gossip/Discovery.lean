import Fabric.Common.Int64
import Fabric.Common.Machine
import Fabric.Gossip.Message

/-!
# Discovery

A peer keeps track of the others by the alive messages they sign, which it receives from them
and from third parties. A peer not heard of for some time is declared dead, and comes back with
a later message of its own.

One goroutine handles the messages. It reads the tables in one critical section and acts in a
later one; in between, others may declare peers dead. The machine takes one critical section at
a time.
-/

namespace Fabric.Gossip

open Fabric.Common

/-! ### Times -/

/-- `time.Time`: seconds since the year 1, and nanoseconds. -/
structure Time where
  sec : ℤ
  nsec : ℤ
deriving DecidableEq

namespace Time

/-- The seconds from the year 1 to 1970. -/
def unixToInternal : ℤ := 62135596800

/-- `time.Unix` brings the nanoseconds into the range of one second. -/
def unix (sec nsec : ℤ) : Time :=
  if nsec < 0 ∨ 1000000000 ≤ nsec then
    let n := nsec.tdiv 1000000000
    let sec := int64 (sec + n)
    let nsec := int64 (nsec - int64 (n * 1000000000))
    if nsec < 0 then ⟨int64 (int64 (sec - 1) + unixToInternal), nsec + 1000000000⟩
    else ⟨int64 (sec + unixToInternal), nsec⟩
  else ⟨int64 (sec + unixToInternal), nsec⟩

def unixNano (t : Time) : ℤ :=
  int64 (int64 (int64 (t.sec - unixToInternal) * 1000000000) + t.nsec)

theorem tdiv_cases (x : ℤ) : (0 ≤ x ∧ x.tdiv 1000000000 = x / 1000000000) ∨
    (x < 0 ∧ x.tdiv 1000000000 = -(-x / 1000000000)) := by
  rcases lt_or_ge x 0 with hx | hx
  · right
    refine ⟨hx, ?_⟩
    rw [← Int.tdiv_eq_ediv_of_nonneg (by omega), Int.neg_tdiv, neg_neg]
  · exact .inl ⟨hx, Int.tdiv_eq_ediv_of_nonneg hx⟩

theorem unix_spec {x : ℤ} (hlo : -2 ^ 63 ≤ x) (hhi : x < 2 ^ 63) :
    ∃ sec, unix 0 x = ⟨sec + unixToInternal, x - sec * 1000000000⟩ ∧
      -2 ^ 60 ≤ sec ∧ sec ≤ 2 ^ 60 := by
  unfold unix unixToInternal
  by_cases hx : x < 0 ∨ 1000000000 ≤ x
  · rw [if_pos hx]
    dsimp only
    generalize hn : x.tdiv 1000000000 = n
    -- the remainder is less than a second away from zero, and has the sign of `x`
    have hbound : -9223372036 ≤ n ∧ n ≤ 9223372036 ∧ -1000000000 < x - n * 1000000000 ∧
        x - n * 1000000000 < 1000000000 := by
      rcases tdiv_cases x with ⟨h0, hdiv⟩ | ⟨h0, hdiv⟩ <;> omega
    rw [int64_of_range (n := 0 + n) (by omega) (by omega), zero_add,
      int64_of_range (n := n * 1000000000) (by omega) (by omega),
      int64_of_range (by omega) (by omega)]
    split
    · rw [int64_of_range (n := n - 1) (by omega) (by omega), int64_of_range (by omega) (by omega)]
      refine ⟨n - 1, ?_, by omega, by omega⟩
      congr 1
      omega
    · rw [int64_of_range (by omega) (by omega)]
      exact ⟨n, rfl, by omega, by omega⟩
  · rw [if_neg hx, int64_of_range (by omega) (by omega)]
    exact ⟨0, by simp, by omega, by omega⟩

theorem unixNano_unix {x : ℤ} (hlo : -2 ^ 63 ≤ x) (hhi : x < 2 ^ 63) : unixNano (unix 0 x) = x := by
  obtain ⟨sec, hunix, hge, hle⟩ := unix_spec hlo hhi
  rw [unixNano, hunix, int64_add_left]
  rw [add_sub_cancel_right, int64_of_range (n := sec) (by omega) (by omega), add_sub_cancel,
    int64_of_range hlo hhi]

end Time

def tsToTime (ts : UInt64) : Time := .unix 0 (int64 ts.toNat)

theorem unixNano_tsToTime (ts : UInt64) : UInt64.ofInt (tsToTime ts).unixNano = ts := by
  obtain ⟨hlo, hhi⟩ := int64_range (ts.toNat)
  have hlt := ts.toNat_lt
  rw [tsToTime, Time.unixNano_unix hlo hhi, UInt64.ofInt, int64_emod,
    Int.emod_eq_of_lt (by omega) (by omega), Int.toNat_natCast, UInt64.ofNat_toNat]

/-- What a table records of the time of a message. -/
structure Timestamp where
  incTime : Time
  seqNum : UInt64
deriving DecidableEq

def Timestamp.ofPeerTime (t : PeerTime) : Timestamp := ⟨tsToTime t.incNumber, t.seqNum⟩

/-- The time that is compared with the times of messages. -/
def Timestamp.time (ts : Timestamp) : PeerTime := ⟨UInt64.ofInt ts.incTime.unixNano, ts.seqNum⟩

@[simp] theorem Timestamp.time_ofPeerTime (t : PeerTime) : (Timestamp.ofPeerTime t).time = t := by
  rw [Timestamp.time, Timestamp.ofPeerTime, unixNano_tsToTime]

def before (a : Timestamp) (b : PeerTime) : Bool :=
  (UInt64.ofInt a.incTime.unixNano = b.incNumber ∧ a.seqNum < b.seqNum) ∨
    UInt64.ofInt a.incTime.unixNano < b.incNumber

theorem before_iff {a : Timestamp} {b : PeerTime} : before a b ↔ a.time.rank < b.rank := by
  rw [PeerTime.rank, PeerTime.rank, Prod.Lex.toLex_lt_toLex, Timestamp.time, before,
    decide_eq_true_iff, UInt64.lt_iff_toNat_lt, UInt64.lt_iff_toNat_lt, UInt64.toNat_inj, or_comm]

/-! ### The tables -/

/-- An alive message with all its parts. -/
structure Alive where
  member : Member
  time : PeerTime
  signature : Bytes
deriving DecidableEq

abbrev Alive.pkiID (a : Alive) : Bytes := a.member.pkiID

def Alive.message (a : Alive) : AliveMessage := ⟨some a.member, some a.time, a.signature⟩

/-- How a message can stop the process: at an absent part, an unknown identity, or a `Panicf`. -/
inductive Crash
  | nilPointer (field : Absent)
  | unknownMember
  | neitherAliveNorDead
  | aliveAndDead
deriving DecidableEq

def read {α : Type} (field : Absent) (pointer : Option α) : Except Crash α :=
  (deref field pointer).mapError .nilPointer

@[simp] theorem read_some {α : Type} (field : Absent) (a : α) : read field (some a) = .ok a := rfl

/-- `gossipDiscoveryImpl`; `alive` and `dead` are the lists of `cachedMembership`. -/
structure Discovery where
  pkiID : Bytes
  deadLastTS : Bytes → Option Timestamp
  aliveLastTS : Bytes → Option Timestamp
  id2Member : Bytes → Option NetworkMember
  alive : List Alive
  dead : List Alive

namespace Discovery

def newDiscovery (pkiID : Bytes) : Discovery where
  pkiID := pkiID
  deadLastTS _ := none
  aliveLastTS _ := none
  id2Member _ := none
  alive := []
  dead := []

/-- `samePKIidAliveMessage` -/
def hasPKIid (pkiID : Bytes) (a : Alive) : Bool := a.pkiID = pkiID

@[simp] theorem hasPKIid_iff {pkiID : Bytes} {a : Alive} : hasPKIid pkiID a ↔ a.pkiID = pkiID :=
  decide_eq_true_iff

/-- The first message about the same peer is replaced. -/
def replace (cached : List Alive) (am : Alive) : List Alive :=
  match cached.findIdx? (hasPKIid am.pkiID) with
  | none => cached ++ [am]
  | some i => cached.set i am

def learnAlive (d : Discovery) (am : AliveMessage) : Except Crash Discovery := do
  let member ← read .membership am.membership
  if member.pkiID = d.pkiID then return d
  let time ← read .timestamp am.timestamp
  return { d with
    aliveLastTS := Function.update d.aliveLastTS member.pkiID (some (.ofPeerTime time))
    alive := d.alive ++ [⟨member, time, am.signature⟩] }

def learnDead (d : Discovery) (dm : AliveMessage) : Except Crash Discovery := do
  let member ← read .membership dm.membership
  if member.pkiID = d.pkiID then return d
  let time ← read .timestamp dm.timestamp
  return { d with
    deadLastTS := Function.update d.deadLastTS member.pkiID (some (.ofPeerTime time))
    dead := d.dead ++ [⟨member, time, dm.signature⟩] }

def updateMember (d : Discovery) (am : AliveMessage) : Except Crash Discovery := do
  let member ← read .membership am.membership
  return { d with
    id2Member := Function.update d.id2Member member.pkiID
      (some ⟨member.endpoint, member.metadata, member.pkiID⟩) }

/-- The members are updated in any case, also under the peer's own identity. -/
def learnNewMembers (d : Discovery) (aliveMembers deadMembers : List AliveMessage) :
    Except Crash Discovery := do
  let d ← aliveMembers.foldlM learnAlive d
  let d ← deadMembers.foldlM learnDead d
  (aliveMembers ++ deadMembers).foldlM updateMember d

/-- The member's data are updated before it is checked that the member has not expired. -/
def learnExistingMembers (d : Discovery) (am : AliveMessage) : Except Crash Discovery := do
  let member ← read .membership am.membership
  match d.id2Member member.pkiID with
  | none => throw .unknownMember
  | some known =>
    let d := { d with
      id2Member := Function.update d.id2Member member.pkiID
        (some { known with endpoint := member.endpoint, metadata := member.metadata }) }
    if (d.deadLastTS member.pkiID).isSome then return d
    if (d.aliveLastTS member.pkiID).isNone then return d
    let time ← read .timestamp am.timestamp
    return { d with
      aliveLastTS := Function.update d.aliveLastTS member.pkiID (some (.ofPeerTime time))
      alive := replace d.alive ⟨member, time, am.signature⟩ }

def resurrectMember (d : Discovery) (am : AliveMessage) (t : PeerTime) :
    Except Crash Discovery := do
  let member ← read .membership am.membership
  return { d with
    aliveLastTS := Function.update d.aliveLastTS member.pkiID (some (.ofPeerTime t))
    id2Member := Function.update d.id2Member member.pkiID
      (some ⟨member.endpoint, member.metadata, member.pkiID⟩)
    deadLastTS := Function.update d.deadLastTS member.pkiID none
    dead := d.dead.eraseP (hasPKIid member.pkiID)
    alive := if d.alive.any (hasPKIid member.pkiID) then d.alive
      else d.alive ++ [⟨member, t, am.signature⟩] }

/-- One iteration of `expireDeadMembers`, with the members whose connections are to be closed. -/
def expireMember : Discovery × List (Option NetworkMember) → Bytes →
    Discovery × List (Option NetworkMember)
  | (d, members), pkiID =>
    match d.aliveLastTS pkiID with
    | none => (d, members)
    | some lastTS =>
      ({ d with
        deadLastTS := Function.update d.deadLastTS pkiID (some lastTS)
        aliveLastTS := Function.update d.aliveLastTS pkiID none
        dead := d.dead ++ (d.alive.find? (hasPKIid pkiID)).toList
        alive := d.alive.eraseP (hasPKIid pkiID) }, members ++ [d.id2Member pkiID])

def expireDeadMembers (d : Discovery) (dead : List Bytes) :
    Discovery × List (Option NetworkMember) := dead.foldl expireMember (d, [])

end Discovery

/-! ### The handler -/

/-- What the handler still has to do for a message that it received. -/
inductive Entry
  | alive (m : Option AliveMessage)
  | dead (m : AliveMessage)
  | respond (m : Option AliveMessage)
deriving DecidableEq

/-- The next critical section for an alive message. -/
inductive Stage
  | learnNew (aliveMembers deadMembers : List AliveMessage)
  | lookup (m : AliveMessage)
  | resurrect (m : AliveMessage) (t : PeerTime)
  | lookupAlive (m : AliveMessage)
  | learnExisting (m : AliveMessage)
deriving DecidableEq

/-- `handleMsgFromComm` -/
def handleMsgFromComm (m : GossipMessage) : List Entry :=
  match m.content with
  | some (.memReq memReq) => [.alive memReq.selfInformation, .respond memReq.selfInformation]
  | some (.aliveMsg alive) => [.alive (some alive)]
  | some (.memRes memResp) => memResp.alive.map (.alive ∘ some) ++ memResp.dead.map .dead
  | _ => []

/-- Up to the end of the critical section that looks the peer up in `id2Member`. -/
def Entry.start (validate : AliveMessage → Bool) (d : Discovery) :
    Entry → Except Crash (Option Stage)
  | .alive m => do
    let m ← read .selfInformation m
    let member ← read .membership m.membership
    if ¬ validate m then return none
    if member.pkiID = d.pkiID then return none
    if (d.id2Member member.pkiID).isNone then return some (.learnNew [m] [])
    return some (.lookup m)
  | .dead m => do
    let member ← read .membership m.membership
    if ¬ validate m then return none
    if (d.id2Member member.pkiID).isNone then return some (.learnNew [] [m])
    return some (.learnNew [] [])
  -- the response is sent to the member that asked; it changes no table
  | .respond m => do
    let m ← read .selfInformation m
    let _ ← read .membership m.membership
    return none

/-- One more critical section of `handleAliveMessage`. -/
def Stage.advance (d : Discovery) : Stage → Except Crash (Discovery × Option Stage)
  | .learnNew aliveMembers deadMembers => do
    let d ← d.learnNewMembers aliveMembers deadMembers
    return (d, none)
  | .lookup m => do
    let member ← read .membership m.membership
    match d.aliveLastTS member.pkiID, d.deadLastTS member.pkiID with
    | none, none => throw .neitherAliveNorDead
    | some _, some _ => throw .aliveAndDead
    | none, some lastDeadTS => do
      let ts ← read .timestamp m.timestamp
      if before lastDeadTS ts then return (d, some (.resurrect m ts))
      return (d, none)
    | some _, none => return (d, some (.lookupAlive m))
  | .resurrect m t => do
    let d ← d.resurrectMember m t
    return (d, none)
  -- a peer that has expired in between is ignored
  | .lookupAlive m => do
    let member ← read .membership m.membership
    match d.aliveLastTS member.pkiID with
    | none => return (d, none)
    | some lastAliveTS => do
      let ts ← read .timestamp m.timestamp
      if before lastAliveTS ts then return (d, some (.learnExisting m))
      return (d, none)
  | .learnExisting m => do
    let d ← d.learnExistingMembers m
    return (d, none)

/-- The tables, and where the handler stands; nothing happens after a crash. -/
structure Node where
  disc : Discovery
  entries : List Entry
  stage : Option Stage
  crash : Option Crash

inductive NodeLabel
  | receive (m : GossipMessage)
  | start
  | advance
  | expire (dead : List Bytes)
deriving DecidableEq

namespace Node

def newNode (pkiID : Bytes) : Node := ⟨.newDiscovery pkiID, [], none, none⟩

/-- The handler goes on with its messages, or another goroutine declares peers dead. -/
def step (validate : AliveMessage → Bool) (s : Node) : NodeLabel → Option Node
  | .receive m =>
    if s.crash = none ∧ s.stage = none ∧ s.entries = [] then
      some { s with entries := handleMsgFromComm m }
    else none
  | .start =>
    match s.crash, s.stage, s.entries with
    | none, none, e :: entries => some <|
      match e.start validate s.disc with
      | .ok stage => { s with entries := entries, stage := stage }
      | .error crash => { s with crash := some crash }
    | _, _, _ => none
  | .advance =>
    match s.crash, s.stage with
    | none, some stage => some <|
      match stage.advance s.disc with
      | .ok (d, stage) => { s with disc := d, stage := stage }
      | .error crash => { s with crash := some crash }
    | _, _ => none
  | .expire dead =>
    if s.crash = none then
      let (d, members) := s.disc.expireDeadMembers dead
      some { s with
        disc := d
        crash := if members.all Option.isSome then none else some .unknownMember }
    else none

end Node

end Fabric.Gossip
