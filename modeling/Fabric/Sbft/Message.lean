import Mathlib.Algebra.Order.Ring.Nat

/-!
# Wire messages of simplebft

The protobuf messages of `simplebft.proto`, and what the replica code takes from its libraries.

Byte strings form an arbitrary type `β`. A `[]byte` that the code compares with `nil` or
through `reflect.DeepEqual` is an `Option β`, with `none` for the nil slice; where nil and
empty are indistinguishable it is a plain `β`. Pointers to sub-messages and map values are
`Option`s, because a decoder leaves what is absent nil.
-/

namespace Fabric.Sbft

/-- A Go map with `uint64` keys. -/
abbrev GoMap (α : Type) := Std.ExtTreeMap ℕ α

/-- Arithmetic on the `uint64` counters of the protocol wraps around. -/
def uint64 (n : ℕ) : ℕ := n % 2 ^ 64

theorem uint64_of_lt {n : ℕ} (h : n < 2 ^ 64) : uint64 n = n := Nat.mod_eq_of_lt h

/-- The size of the group, the faults it tolerates, and the size of a full batch. -/
structure Config where
  N : ℕ
  F : ℕ
  batchSizeBytes : ℕ
deriving DecidableEq

/-- Position of a request: the view it is proposed in and its sequence number. -/
structure SeqView where
  view : ℕ
  seq : ℕ
deriving DecidableEq

variable (β : Type)

/-- A client request. -/
structure Request where
  payload : β
deriving DecidableEq

/-- The decoded header of a batch. -/
structure BatchHeader where
  seq : ℕ
  prevHash : Option β
  dataHash : Option β
deriving DecidableEq

/-- A batch: its encoded header, its payloads, and checkpoint signatures over the
hash of the header. -/
structure Batch where
  header : β
  payloads : List β
  signatures : GoMap β
deriving DecidableEq

/-- The primary's proposal. -/
structure Preprepare where
  seq : Option SeqView
  batch : Option (Batch β)
deriving DecidableEq

/-- What replicas vote on: a position and the hash of a batch header. -/
structure Subject where
  seq : Option SeqView
  digest : Option β
deriving DecidableEq

/-- A replica's statement on entering a view. -/
structure ViewChange where
  view : ℕ
  pset : List (Subject β)
  qset : List (Subject β)
  checkpoint : Option (Batch β)
deriving DecidableEq

/-- Bytes with a signature over them. -/
structure Signed where
  data : β
  signature : β
deriving DecidableEq

/-- The new primary's justification of its view. -/
structure NewView where
  view : ℕ
  vset : GoMap (Option (Signed β))
  xset : Option (Subject β)
  batch : Option (Batch β)
deriving DecidableEq

/-- A signed statement that a batch was executed. -/
structure Checkpoint where
  seq : ℕ
  digest : Option β
  signature : β
deriving DecidableEq

/-- Sent on every new connection. -/
structure Hello where
  batch : Option (Batch β)
  newView : Option (NewView β)
deriving DecidableEq

/-- A message between replicas; `empty` is a message whose `oneof` is not set. -/
inductive Msg where
  | request (req : Request β)
  | preprepare (pp : Preprepare β)
  | prepare (p : Subject β)
  | commit (c : Subject β)
  | viewChange (svc : Signed β)
  | newView (nv : NewView β)
  | checkpoint (c : Checkpoint β)
  | hello (h : Hello β)
  | empty
deriving DecidableEq

variable {β}

/-- A byte field that survives the proto3 codec: nil, or not empty. -/
def CanonicalBytes (len : β → ℕ) (b : Option β) : Prop := ∀ x, b = some x → len x ≠ 0

/-- A header that survives the proto3 codec, which omits empty byte fields. -/
def BatchHeader.Canonical (len : β → ℕ) (h : BatchHeader β) : Prop :=
  CanonicalBytes len h.prevHash ∧ CanonicalBytes len h.dataHash

/-- A view change that survives the proto3 codec. -/
def ViewChange.Canonical (len : β → ℕ) (vc : ViewChange β) : Prop :=
  ∀ s ∈ vc.pset ++ vc.qset, CanonicalBytes len s.digest

/-- What simplebft uses of its libraries: SHA-256 (`hash`), concatenation and length of byte
strings, the protobuf codecs, and `Sign` and `CheckSig`. The laws are the assumptions of the
protocol: the hash is collision-free and neither yields the encoding of a view change nor decodes to
one, decoding inverts encoding, and signatures verify. -/
structure Primitives (β : Type) where
  empty : β
  len : β → ℕ
  append : β → β → β
  hash : β → β
  marshalHeader : BatchHeader β → β
  unmarshalHeader : β → Option (BatchHeader β)
  marshalViewChange : ViewChange β → β
  unmarshalViewChange : β → Option (ViewChange β)
  sign : ℕ → β → β
  checkSig : β → ℕ → β → Bool
  hash_injective : Function.Injective hash
  len_empty : len empty = 0
  len_hash : ∀ b, len (hash b) ≠ 0
  unmarshalHeader_marshalHeader : ∀ h, h.Canonical len → unmarshalHeader (marshalHeader h) = some h
  unmarshalViewChange_marshalViewChange :
    ∀ vc, vc.Canonical len → unmarshalViewChange (marshalViewChange vc) = some vc
  hash_ne_marshalViewChange : ∀ b vc, hash b ≠ marshalViewChange vc
  unmarshalViewChange_hash : ∀ b, unmarshalViewChange (hash b) = none
  checkSig_sign : ∀ i data, checkSig data i (sign i data) = true

/-- The bytes of a possibly nil slice. -/
def Primitives.bytes (P : Primitives β) (b : Option β) : β := b.getD P.empty

@[simp] theorem Primitives.bytes_some (P : Primitives β) (b : β) : P.bytes (some b) = b := rfl

end Fabric.Sbft
