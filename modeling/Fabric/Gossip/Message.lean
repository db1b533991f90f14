import Fabric.Common.Program
import Fabric.Common.Wire
import Mathlib.Data.Prod.Lex

/-!
# Gossip messages

The messages of the gossip network as protocol buffers decode them. A message field of a
message may be absent, and reading through an absent one stops the process; an element of a
repeated field is never absent.
-/

namespace Fabric.Gossip

open Fabric.Common

/-- The logical time of a peer's life. -/
@[ext] structure PeerTime where
  incNumber : UInt64
  seqNum : UInt64
deriving DecidableEq

structure Member where
  endpoint : Bytes
  metadata : Bytes
  pkiID : Bytes
deriving DecidableEq

structure AliveMessage where
  membership : Option Member
  timestamp : Option PeerTime
  signature : Bytes
deriving DecidableEq

structure MembershipRequest where
  selfInformation : Option AliveMessage
  known : List Bytes
deriving DecidableEq

structure MembershipResponse where
  alive : List AliveMessage
  dead : List AliveMessage
deriving DecidableEq

/-- A ledger block. -/
structure Payload where
  seqNum : UInt64
  hash : Bytes
  data : Bytes
deriving DecidableEq

structure DataMessage where
  payload : Option Payload
deriving DecidableEq

structure StateInfo where
  metadata : Bytes
  timestamp : Option PeerTime
  pkiID : Bytes
  signature : Bytes
deriving DecidableEq

structure GossipHello where
  nonce : UInt64
deriving DecidableEq

structure DataDigest where
  nonce : UInt64
  seqMap : List UInt64
deriving DecidableEq

structure DataRequest where
  nonce : UInt64
  seqMap : List UInt64
deriving DecidableEq

structure DataUpdate where
  nonce : UInt64
  data : List DataMessage
deriving DecidableEq

structure RemoteStateRequest where
  seqNums : List UInt64
deriving DecidableEq

structure RemoteStateResponse where
  payloads : List Payload
deriving DecidableEq

/-- The alternatives of `isGossipMessage_Content`. -/
inductive Content
  | aliveMsg (m : AliveMessage)
  | memReq (m : MembershipRequest)
  | memRes (m : MembershipResponse)
  | dataMsg (m : DataMessage)
  | hello (m : GossipHello)
  | dataDig (m : DataDigest)
  | dataReq (m : DataRequest)
  | dataUpdate (m : DataUpdate)
  | chanCmd (payload : Bytes)
  | empty
  | conn (sig pkiID : Bytes)
  | stateInfo (m : StateInfo)
  | stateRequest (m : RemoteStateRequest)
  | stateResponse (m : RemoteStateResponse)
deriving DecidableEq

/-- A message; one that decodes without any of the alternatives has no content. -/
structure GossipMessage where
  nonce : UInt64
  content : Option Content
deriving DecidableEq

namespace GossipMessage

def getAliveMsg (m : GossipMessage) : Option AliveMessage :=
  match m.content with
  | some (.aliveMsg a) => some a
  | _ => none

def getDataMsg (m : GossipMessage) : Option DataMessage :=
  match m.content with
  | some (.dataMsg d) => some d
  | _ => none

def isAliveMsg (m : GossipMessage) : Bool := m.getAliveMsg.isSome

def isDataMsg (m : GossipMessage) : Bool := m.getDataMsg.isSome

end GossipMessage

/-- A peer as the discovery layer knows it. -/
structure NetworkMember where
  endpoint : Bytes
  metadata : Bytes
  pkiID : Bytes
deriving DecidableEq

/-! ### Absent messages -/

/-- A message field that the code reads through. -/
inductive Absent
  | payload
  | membership
  | timestamp
  | selfInformation
deriving DecidableEq

/-- Read through a pointer; the process stops at a nil pointer. -/
def deref {α : Type} (field : Absent) : Option α → Except Absent α
  | some a => .ok a
  | none => .error field

@[simp] theorem deref_some {α : Type} (field : Absent) (a : α) : deref field (some a) = .ok a := rfl

def AliveMessage.isComplete (m : AliveMessage) : Bool := m.membership.isSome && m.timestamp.isSome

/-- The parts that the handlers read through are there. -/
def GossipMessage.isComplete (m : GossipMessage) : Bool :=
  match m.content with
  | some (.aliveMsg alive) => alive.isComplete
  | some (.memReq memReq) => memReq.selfInformation.any AliveMessage.isComplete
  | some (.memRes memRes) => (memRes.alive ++ memRes.dead).all AliveMessage.isComplete
  | some (.dataMsg dataMsg) => dataMsg.payload.isSome
  | some (.dataUpdate dataUpdate) => dataUpdate.data.all fun data => data.payload.isSome
  | _ => true

/-! ### Times -/

/-- Times of a peer are ordered by the number of its incarnation first. -/
def PeerTime.rank (t : PeerTime) : ℕ ×ₗ ℕ := toLex (t.incNumber.toNat, t.seqNum.toNat)

theorem PeerTime.rank_injective : Function.Injective PeerTime.rank := by
  intro t u h
  obtain ⟨hinc, hseq⟩ := Prod.mk.inj (toLex.injective h)
  exact PeerTime.ext (UInt64.toNat_inj.mp hinc) (UInt64.toNat_inj.mp hseq)

theorem PeerTime.rank_le_iff {t u : PeerTime} : t.rank ≤ u.rank ↔
    t.incNumber < u.incNumber ∨ t.incNumber = u.incNumber ∧ t.seqNum ≤ u.seqNum := by
  rw [PeerTime.rank, PeerTime.rank, Prod.Lex.toLex_le_toLex, UInt64.lt_iff_toNat_lt,
    UInt64.le_iff_toNat_le, UInt64.toNat_inj]

end Fabric.Gossip
