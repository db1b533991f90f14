import Fabric.Sbft.State

/-!
# Symbolic primitives

Byte strings as terms, in the manner of symbolic cryptography: hashing and signing
are constructors, so that hashes do not collide and signatures verify only for
their signer and data.
-/

namespace Fabric.Sbft

/-- Symbolic byte strings. -/
inductive Term where
  | nat (n : ℕ)
  | pair (a b : Term)
  | hash (t : Term)
  | sig (signer : ℕ) (data : Term)
deriving DecidableEq

namespace Term

/-- Encode an optional value. -/
def ofOption {α : Type} (f : α → Term) : Option α → Term
  | none => nat 0
  | some a => pair (nat 1) (f a)

/-- Decode an optional value. -/
def toOption {α : Type} (f : Term → Option α) : Term → Option (Option α)
  | nat 0 => some none
  | pair (nat 1) t => (f t).map some
  | _ => none

/-- Encode a list. -/
def ofList {α : Type} (f : α → Term) : List α → Term
  | [] => nat 0
  | a :: l => pair (f a) (ofList f l)

/-- Decode a list. -/
def toList {α : Type} (f : Term → Option α) : Term → Option (List α)
  | nat 0 => some []
  | pair t ts => do
    let a ← f t
    let l ← toList f ts
    pure (a :: l)
  | _ => none

variable {α : Type} {f : α → Term} {g : Term → Option α}

theorem toOption_ofOption (h : ∀ a, g (f a) = some a) (a : Option α) :
    toOption g (ofOption f a) = some a := by
  cases a with
  | none => rfl
  | some => simp [ofOption, toOption, h]

theorem toList_ofList (h : ∀ a, g (f a) = some a) (l : List α) :
    toList g (ofList f l) = some l := by
  induction l with
  | nil => rfl
  | cons _ _ ih => simp [ofList, toList, h, ih]

/-- Encode a batch header. -/
def ofHeader (h : BatchHeader Term) : Term :=
  pair (nat h.seq) (pair (ofOption id h.prevHash) (ofOption id h.dataHash))

/-- Decode a batch header. -/
def toHeader : Term → Option (BatchHeader Term)
  | pair (nat seq) (pair prev data) => do
    let prevHash ← toOption some prev
    let dataHash ← toOption some data
    pure ⟨seq, prevHash, dataHash⟩
  | _ => none

theorem toHeader_ofHeader (h : BatchHeader Term) : toHeader (ofHeader h) = some h := by
  simp [toHeader, ofHeader, toOption_ofOption (f := id) (fun _ => rfl)]

/-- Encode a position. -/
def ofSeqView (sv : SeqView) : Term := pair (nat sv.view) (nat sv.seq)

/-- Decode a position. -/
def toSeqView : Term → Option SeqView
  | pair (nat view) (nat seq) => some ⟨view, seq⟩
  | _ => none

/-- Encode a subject. -/
def ofSubject (s : Subject Term) : Term :=
  pair (ofOption ofSeqView s.seq) (ofOption id s.digest)

/-- Decode a subject. -/
def toSubject : Term → Option (Subject Term)
  | pair sv d => do
    let seq ← toOption toSeqView sv
    let digest ← toOption some d
    pure ⟨seq, digest⟩
  | _ => none

theorem toSubject_ofSubject (s : Subject Term) : toSubject (ofSubject s) = some s := by
  simp [toSubject, ofSubject, toOption_ofOption (f := id) (fun _ => rfl),
    toOption_ofOption (f := ofSeqView) (g := toSeqView) (fun _ => rfl)]

/-- Encode a map entry. -/
def ofEntry (e : ℕ × Term) : Term := pair (nat e.1) e.2

/-- Decode a map entry. -/
def toEntry : Term → Option (ℕ × Term)
  | pair (nat k) t => some (k, t)
  | _ => none

/-- Encode a batch. -/
def ofBatch (b : Batch Term) : Term :=
  pair b.header (pair (ofList id b.payloads) (ofList ofEntry b.signatures.toList))

/-- Decode a batch. -/
def toBatch : Term → Option (Batch Term)
  | pair header (pair ps sigs) => do
    let payloads ← toList some ps
    let entries ← toList toEntry sigs
    pure ⟨header, payloads, Std.ExtTreeMap.ofList entries⟩
  | _ => none

theorem ofList_toList_map (m : GoMap Term) : Std.ExtTreeMap.ofList m.toList = m := by
  apply Std.ExtTreeMap.ext_getElem?
  intro k
  cases h : m[k]? with
  | none =>
    simpa using h
  | some =>
    exact Std.ExtTreeMap.getElem?_ofList_of_mem (Nat.compare_eq_eq.mpr rfl)
      Std.ExtTreeMap.distinct_keys_toList (Std.ExtTreeMap.mem_toList_iff_getElem?_eq_some.mpr h)

theorem toBatch_ofBatch (b : Batch Term) : toBatch (ofBatch b) = some b := by
  simp [toBatch, ofBatch, toList_ofList (f := id) (fun _ => rfl),
    toList_ofList (f := ofEntry) (g := toEntry) (fun _ => rfl), ofList_toList_map]

/-- Encode a view change. -/
def ofViewChange (vc : ViewChange Term) : Term :=
  pair (nat vc.view) (pair (ofList ofSubject vc.pset)
    (pair (ofList ofSubject vc.qset) (ofOption ofBatch vc.checkpoint)))

/-- Decode a view change. -/
def toViewChange : Term → Option (ViewChange Term)
  | pair (nat view) (pair p (pair q cp)) => do
    let pset ← toList toSubject p
    let qset ← toList toSubject q
    let checkpoint ← toOption toBatch cp
    pure ⟨view, pset, qset, checkpoint⟩
  | _ => none

theorem toViewChange_ofViewChange (vc : ViewChange Term) :
    toViewChange (ofViewChange vc) = some vc := by
  simp [toViewChange, ofViewChange, toList_ofList toSubject_ofSubject,
    toOption_ofOption toBatch_ofBatch]

/-- Length of a term as a byte string: only the empty string has length zero. -/
def len : Term → ℕ
  | nat 0 => 0
  | _ => 1

end Term

/-- Hashing, signing and encoding of symbolic byte strings. -/
def symbolic : Primitives Term where
  empty := .nat 0
  len := Term.len
  append := .pair
  hash := .hash
  marshalHeader := .ofHeader
  unmarshalHeader := Term.toHeader
  marshalViewChange := .ofViewChange
  unmarshalViewChange := Term.toViewChange
  sign := .sig
  checkSig data i sig := sig = .sig i data
  hash_injective := fun _ _ h => Term.hash.inj h
  len_empty := rfl
  len_hash := by simp [Term.len]
  unmarshalHeader_marshalHeader := fun h _ => Term.toHeader_ofHeader h
  unmarshalViewChange_marshalViewChange := fun vc _ => Term.toViewChange_ofViewChange vc
  hash_ne_marshalViewChange := by simp [Term.ofViewChange]
  unmarshalViewChange_hash := fun _ => rfl
  checkSig_sign := by simp

/-- Four replicas, one of which may be faulty, with one request to a batch. -/
def fourReplicas : Config := ⟨4, 1, 1⟩

/-- The first batch of a chain, with the request `n`. -/
def firstBatch (n : ℕ) : Batch Term :=
  makeBatch symbolic 1 (some (symbolic.hash (genesis symbolic).header)) [.nat n]

/-- The vote for the first batch of a chain in view `v`. -/
def firstSubject (v n : ℕ) : Subject Term := ⟨some ⟨v, 1⟩, some ((firstBatch n).hash symbolic)⟩

/-- A view change with the signature of replica `r`. -/
def signedBy (r : ℕ) (vc : ViewChange Term) : Signed Term :=
  ⟨.ofViewChange vc, .sig r (.ofViewChange vc)⟩

end Fabric.Sbft
