import Fabric.Common.Wire

/-!
# Read-write sets

The result of simulating a transaction (`rwset.go`): for each namespace the keys it read
from storage, with their versions, and the keys it writes. Absent Go slices are `none`, so
that a deletion differs from an empty value.
-/

namespace Fabric.Ledger

open Fabric.Common List

/-- A key and its version at the time of the simulation. -/
structure KVRead where
  key : Bytes
  version : ℕ
deriving DecidableEq

/-- A key and the value to set. -/
structure KVWrite where
  key : Bytes
  isDelete : Bool
  value : Option Bytes
deriving DecidableEq

def newKVWrite (key : Bytes) (value : Option Bytes) : KVWrite := ⟨key, value.isNone, value⟩

def KVWrite.setValue (w : KVWrite) (value : Option Bytes) : KVWrite :=
  { w with value, isDelete := value.isNone }

/-- The reads and writes of one namespace. -/
structure NsReadWriteSet where
  nameSpace : Bytes
  reads : List KVRead
  writes : List KVWrite
deriving DecidableEq

/-- The reads and writes of a transaction. -/
structure TxReadWriteSet where
  nsRWs : List NsReadWriteSet
deriving DecidableEq

/-! ### Marshalling -/

def KVRead.marshal (r : KVRead) : Bytes := encodeRawBytes r.key ++ encodeVarint r.version

def KVRead.unmarshal : Decoder KVRead := do
  let key ← decodeRawBytes
  let version ← decodeVarint
  pure ⟨key, version⟩

def KVWrite.marshal (w : KVWrite) : Bytes :=
  let deleteMarker := if w.isDelete then 1 else 0
  encodeRawBytes w.key ++ (encodeVarint deleteMarker ++
    if deleteMarker = 0 then encodeRawBytes (w.value.getD []) else [])

def KVWrite.unmarshal : Decoder KVWrite := do
  let key ← decodeRawBytes
  let deleteMarker ← decodeVarint
  if deleteMarker = 1 then pure ⟨key, true, none⟩
  else
    let value ← decodeRawBytes
    pure ⟨key, false, some value⟩

def NsReadWriteSet.marshal (nsRW : NsReadWriteSet) : Bytes :=
  encodeRawBytes nsRW.nameSpace ++
    (encodeVarint (nsRW.reads.length % 2 ^ 64) ++ (nsRW.reads.flatMap KVRead.marshal ++
      (encodeVarint (nsRW.writes.length % 2 ^ 64) ++ nsRW.writes.flatMap KVWrite.marshal)))

/-- Decode as many values as the length in front says, none if it is negative as an
`int`. -/
def decodeCounted {α : Type} (d : Decoder α) : Decoder (List α) := do
  let n ← decodeVarint
  decodeN d (int n).toNat

def NsReadWriteSet.unmarshal : Decoder NsReadWriteSet := do
  let nameSpace ← decodeRawBytes
  let reads ← decodeCounted KVRead.unmarshal
  let writes ← decodeCounted KVWrite.unmarshal
  pure ⟨nameSpace, reads, writes⟩

def TxReadWriteSet.marshal (txRW : TxReadWriteSet) : Bytes :=
  encodeVarint (txRW.nsRWs.length % 2 ^ 64) ++ txRW.nsRWs.flatMap NsReadWriteSet.marshal

/-- The bytes after the last entry are ignored. -/
def TxReadWriteSet.unmarshal (b : Bytes) : Except DecodeError TxReadWriteSet := do
  let (nsRWs, _) ← decodeCounted NsReadWriteSet.unmarshal b
  pure ⟨nsRWs⟩

/-! ### Round trip -/

/-- Versions are 64-bit integers and a write is a deletion if it has no value. -/
structure TxReadWriteSet.Consistent (txRW : TxReadWriteSet) : Prop where
  version : ∀ nsRW ∈ txRW.nsRWs, ∀ r ∈ nsRW.reads, r.version < 2 ^ 64
  isDelete : ∀ nsRW ∈ txRW.nsRWs, ∀ w ∈ nsRW.writes, w.isDelete = w.value.isNone

/-- The lengths of the strings and slices are those that an `int` can hold. -/
structure NsReadWriteSet.Sized (nsRW : NsReadWriteSet) : Prop where
  nameSpace : nsRW.nameSpace.length < 2 ^ 63
  reads : nsRW.reads.length < 2 ^ 63
  writes : nsRW.writes.length < 2 ^ 63
  read : ∀ r ∈ nsRW.reads, r.key.length < 2 ^ 63
  write : ∀ w ∈ nsRW.writes, w.key.length < 2 ^ 63 ∧ ∀ v ∈ w.value, v.length < 2 ^ 63

theorem decodes_counted {α : Type} {d : Decoder α} {enc : α → Bytes} {l : List α}
    (hlen : l.length < 2 ^ 63) (h : ∀ a ∈ l, Decodes d (enc a) a) :
    Decodes (decodeCounted d) (encodeVarint (l.length % 2 ^ 64) ++ l.flatMap enc) l := by
  have hmod : l.length % 2 ^ 64 = l.length := Nat.mod_eq_of_lt (by omega)
  rw [hmod]
  apply (decodes_encodeVarint (by omega)).bind
  rw [int_of_lt hlen]
  exact Decodes.decodeN h

theorem KVRead.decodes_marshal {r : KVRead} (hkey : r.key.length < 2 ^ 63)
    (hversion : r.version < 2 ^ 64) : Decodes KVRead.unmarshal r.marshal r := by
  apply (decodes_encodeRawBytes hkey).bind
  simpa using (decodes_encodeVarint hversion).map (KVRead.mk r.key)

theorem KVWrite.decodes_marshal {w : KVWrite} (hkey : w.key.length < 2 ^ 63)
    (hvalue : ∀ v ∈ w.value, v.length < 2 ^ 63) (hdelete : w.isDelete = w.value.isNone) :
    Decodes KVWrite.unmarshal w.marshal w := by
  obtain ⟨key, isDelete, value⟩ := w
  obtain rfl : isDelete = value.isNone := hdelete
  apply (decodes_encodeRawBytes hkey).bind
  apply (decodes_encodeVarint (by split <;> decide)).bind
  cases value with
  | none => exact Decodes.pure _
  | some v => simpa using (decodes_encodeRawBytes (hvalue v rfl)).map fun a =>
      KVWrite.mk key false (some a)

theorem KVRead.marshal_ne_nil (r : KVRead) : r.marshal ≠ [] := by
  simp [marshal, encodeVarint_ne_nil]

theorem KVWrite.marshal_ne_nil (w : KVWrite) : w.marshal ≠ [] := by
  simp [marshal, encodeVarint_ne_nil]

theorem NsReadWriteSet.marshal_ne_nil (nsRW : NsReadWriteSet) : nsRW.marshal ≠ [] := by
  simp [marshal, encodeVarint_ne_nil]

theorem length_le_flatMap {α : Type} {enc : α → Bytes} (henc : ∀ a, enc a ≠ []) (l : List α) :
    l.length ≤ (l.flatMap enc).length ∧ ∀ a ∈ l, (enc a).length ≤ (l.flatMap enc).length := by
  induction l with
  | nil => simp
  | cons a _ ih =>
    have hpos := length_pos_iff.mpr (henc a)
    obtain ⟨hlen, hmem⟩ := ih
    simp only [flatMap_cons, length_append, length_cons, mem_cons]
    refine ⟨by omega, ?_⟩
    rintro b (rfl | hb)
    · omega
    · exact (hmem b hb).trans (Nat.le_add_left _ _)

theorem NsReadWriteSet.decodes_marshal {nsRW : NsReadWriteSet} (hsized : nsRW.Sized)
    (hversion : ∀ r ∈ nsRW.reads, r.version < 2 ^ 64)
    (hdelete : ∀ w ∈ nsRW.writes, w.isDelete = w.value.isNone) :
    Decodes unmarshal nsRW.marshal nsRW := by
  apply (decodes_encodeRawBytes hsized.nameSpace).bind
  rw [← append_assoc (encodeVarint (nsRW.reads.length % 2 ^ 64))]
  apply Decodes.bind
  · exact decodes_counted hsized.reads fun r hr =>
      KVRead.decodes_marshal (hsized.read r hr) (hversion r hr)
  · have hcounted := decodes_counted hsized.writes fun w hw =>
      KVWrite.decodes_marshal (hsized.write w hw).1 (hsized.write w hw).2 (hdelete w hw)
    simpa using hcounted.map (mk nsRW.nameSpace nsRW.reads)

theorem NsReadWriteSet.Sized.of_marshal {nsRW : NsReadWriteSet}
    (hsize : nsRW.marshal.length < 2 ^ 63)
    (hdelete : ∀ w ∈ nsRW.writes, w.isDelete = w.value.isNone) : nsRW.Sized := by
  have hns := length_lt_encodeRawBytes nsRW.nameSpace
  obtain ⟨hreads, hread⟩ := length_le_flatMap KVRead.marshal_ne_nil nsRW.reads
  obtain ⟨hwrites, hwrite⟩ := length_le_flatMap KVWrite.marshal_ne_nil nsRW.writes
  simp only [marshal, length_append] at hsize
  refine ⟨by omega, by omega, by omega, fun r hr => ?_, fun w hw => ⟨?_, fun v hv => ?_⟩⟩
  · have hle := hread r hr
    have hkey := length_lt_encodeRawBytes r.key
    rw [KVRead.marshal, length_append] at hle
    omega
  · have hle := hwrite w hw
    have hkey := length_lt_encodeRawBytes w.key
    rw [KVWrite.marshal, length_append] at hle
    omega
  · have hle := hwrite w hw
    have hvalue := length_lt_encodeRawBytes v
    have hset : w.isDelete = false := by rw [hdelete w hw, Option.mem_def.mp hv]; rfl
    simp only [KVWrite.marshal, hset, Option.mem_def.mp hv, length_append,
      Bool.false_eq_true, if_false, if_true, Option.getD_some] at hle
    omega

variable {txRW : TxReadWriteSet}

theorem TxReadWriteSet.decodes_marshal (hlen : txRW.nsRWs.length < 2 ^ 63)
    (hsized : ∀ nsRW ∈ txRW.nsRWs, nsRW.Sized) (h : txRW.Consistent) :
    Decodes (decodeCounted NsReadWriteSet.unmarshal) txRW.marshal txRW.nsRWs :=
  decodes_counted hlen fun nsRW hns =>
    NsReadWriteSet.decodes_marshal (hsized nsRW hns) (h.version nsRW hns) (h.isDelete nsRW hns)

theorem TxReadWriteSet.unmarshal_of_decodes
    (h : Decodes (decodeCounted NsReadWriteSet.unmarshal) txRW.marshal txRW.nsRWs) :
    unmarshal txRW.marshal = .ok txRW := by
  have hdec := h []
  rw [append_nil] at hdec
  simp [unmarshal, hdec, bind, Except.bind, pure, Except.pure]

/-- Every read-write set that Go can hold is read back as it was. -/
theorem TxReadWriteSet.roundTrip {txRW : TxReadWriteSet} (hlen : txRW.nsRWs.length < 2 ^ 63)
    (hsized : ∀ nsRW ∈ txRW.nsRWs, nsRW.Sized) (h : txRW.Consistent) :
    TxReadWriteSet.unmarshal txRW.marshal = .ok txRW :=
  unmarshal_of_decodes (decodes_marshal hlen hsized h)

theorem TxReadWriteSet.roundTrip_deletion : TxReadWriteSet.unmarshal
      (TxReadWriteSet.marshal ⟨[⟨[1], [⟨[], 7⟩], [⟨[2], true, none⟩, ⟨[3], false, some []⟩]⟩]⟩) =
      .ok ⟨[⟨[1], [⟨[], 7⟩], [⟨[2], true, none⟩, ⟨[3], false, some []⟩]⟩]⟩ := by
  refine roundTrip (by decide) (forall_mem_singleton.mpr ⟨?_, ?_, ?_, ?_, ?_⟩) ⟨?_, ?_⟩ <;>
    simp

theorem TxReadWriteSet.unmarshal_marshal
    (hsize : txRW.marshal.length < 2 ^ 63) (h : txRW.Consistent) :
    unmarshal txRW.marshal = .ok txRW := by
  obtain ⟨hlen, hmem⟩ := length_le_flatMap NsReadWriteSet.marshal_ne_nil txRW.nsRWs
  simp only [marshal, length_append] at hsize
  refine unmarshal_of_decodes (decodes_marshal (by omega) (fun nsRW hns => ?_) h)
  have hle := hmem nsRW hns
  exact .of_marshal (by omega) (h.isDelete nsRW hns)

theorem TxReadWriteSet.marshal_injective {txRW txRW' : TxReadWriteSet}
    (hsize : txRW.marshal.length < 2 ^ 63) (h : txRW.Consistent) (h' : txRW'.Consistent)
    (heq : txRW.marshal = txRW'.marshal) : txRW = txRW' := by
  have hdec := unmarshal_marshal hsize h
  rw [heq, unmarshal_marshal (heq ▸ hsize) h'] at hdec
  exact (Except.ok.inj hdec).symm

end Fabric.Ledger
