import Fabric.BlockStore.Block
import Fabric.Common.BigEndian
import Mathlib.Data.Nat.Digits.Lemmas

/-!
# The block index

`blockindex.go`: the database maps the number and the hash of a block and the identifier of
a transaction to a place in a file. The same database holds the number of the last block that
was indexed and the checkpoint of the block files.
-/

namespace Fabric.BlockStore

open Fabric.Common List

/-- An `int` as a 64-bit unsigned integer. -/
def uint64 (x : ℤ) : ℕ := (x % 2 ^ 64).toNat

theorem uint64_lt (x : ℤ) : uint64 x < 2 ^ 64 := by
  unfold uint64
  omega

theorem int_uint64 {x : ℤ} (h : -2 ^ 63 ≤ x) (h' : x < 2 ^ 63) : int (uint64 x) = x := by
  unfold int uint64
  split <;> omega

/-! ### Keys -/

/-- The bytes of a text without special characters. -/
def ascii (s : String) : Bytes := s.toList.map fun c => UInt8.ofNat c.toNat

/-- The bytes of a number without leading zeros, behind their number. -/
def encodeOrderPreservingVarUint64 (number : ℕ) : Bytes :=
  let bytes := (bigEndian number).dropWhile (· = 0)
  encodeVarint bytes.length ++ bytes

/-- The number and the bytes that are consumed, unless an index is out of range. -/
def decodeOrderPreservingVarUint64 (bytes : Bytes) : Option (ℕ × ℤ) :=
  let size := int (decodeVarintPrefix bytes).1
  if 0 ≤ size ∧ size ≤ 8 ∧ size + 1 ≤ bytes.length then
    some (bigEndianValue
      (List.replicate (8 - size.toNat) 0 ++ (bytes.drop 1).take size.toNat), size + 1)
  else none

/-- A number as it is printed. -/
def decimal (n : ℕ) : Bytes :=
  if n = 0 then [48] else (Nat.digits 10 n).reverse.map fun d => UInt8.ofNat (48 + d)

def constructBlockNumKey (blockNum : ℕ) : Bytes :=
  ascii "n" ++ encodeOrderPreservingVarUint64 blockNum

def constructBlockHashKey (blockHash : Bytes) : Bytes := ascii "h" ++ blockHash

def constructTxIDKey (txID : Bytes) : Bytes := ascii "t" ++ txID

def constructTxID (blockNum txNum : ℕ) : Bytes := decimal blockNum ++ ascii ":" ++ decimal txNum

def indexCheckpointKey : Bytes := ascii "indexCheckpointKey"

def blkMgrInfoKey : Bytes := ascii "blkMgrInfo"

/-- The keys of the database. -/
inductive IndexKey
  | blockNum (n : ℕ)
  | blockHash (hash : Bytes)
  | txID (n i : ℕ)
  | indexCheckpoint
  | blkMgrInfo
deriving DecidableEq

namespace IndexKey

def bytes : IndexKey → Bytes
  | blockNum n => constructBlockNumKey n
  | blockHash hash => constructBlockHashKey hash
  | txID n i => constructTxIDKey (constructTxID n i)
  | indexCheckpoint => indexCheckpointKey
  | blkMgrInfo => blkMgrInfoKey

/-- The first byte, which tells the kinds apart. -/
def tag : IndexKey → UInt8
  | blockNum _ => 110
  | blockHash _ => 104
  | txID _ _ => 116
  | indexCheckpoint => 105
  | blkMgrInfo => 98

theorem head?_bytes (k : IndexKey) : k.bytes.head? = some k.tag := by
  cases k <;> rfl

/-- Block numbers are 64-bit integers. -/
def Valid : IndexKey → Prop
  | blockNum n => n < 2 ^ 64
  | _ => True

end IndexKey

variable {m n : ℕ}

/-- The bytes of a number without leading zeros. -/
def significantBytes (number : ℕ) : Bytes := (bigEndian number).dropWhile (· = 0)

theorem length_significantBytes_le (n : ℕ) : (significantBytes n).length ≤ 8 := by
  exact (dropWhile_suffix _).length_le

theorem encodeOrderPreservingVarUint64_eq (n : ℕ) : encodeOrderPreservingVarUint64 n =
    UInt8.ofNat (significantBytes n).length :: significantBytes n := by
  have hle := length_significantBytes_le n
  exact congrArg (· ++ _) (encodeVarint_of_lt (hle.trans_lt (by decide)))

theorem bigEndianValue_significantBytes (hn : n < 2 ^ 64) :
    bigEndianValue (significantBytes n) = n := by
  rw [significantBytes, bigEndianValue_dropWhile, bigEndianValue_bigEndian hn]

section

variable (hm : m < 2 ^ 64) (hn : n < 2 ^ 64)
include hm hn

theorem lt_of_length_significantBytes_lt
    (h : (significantBytes m).length < (significantBytes n).length) : m < n := by
  have hlow := bigEndianValue_lt (significantBytes m)
  have hhigh := le_bigEndianValue_dropWhile (ne_nil_of_length_pos (Nat.zero_lt_of_lt h))
  rw [bigEndianValue_significantBytes hm] at hlow
  rw [bigEndianValue_bigEndian hn] at hhigh
  refine hlow.trans_le (le_trans ?_ hhigh)
  exact Nat.pow_le_pow_right (by decide) (Nat.mul_le_mul_left 8 (Nat.le_sub_one_of_lt h))

theorem encodeOrderPreservingVarUint64_lt_iff :
    encodeOrderPreservingVarUint64 m < encodeOrderPreservingVarUint64 n ↔ m < n := by
  have hle := length_significantBytes_le m
  have hle' := length_significantBytes_le n
  have hsize : ∀ k, k ≤ 8 → (UInt8.ofNat k).toNat = k := fun k hk =>
    UInt8.toNat_ofNat_of_lt (by simpa using hk.trans_lt (by decide))
  rw [encodeOrderPreservingVarUint64_eq, encodeOrderPreservingVarUint64_eq, cons_lt_cons_iff,
    UInt8.lt_iff_toNat_lt, ← UInt8.toNat_inj, hsize _ hle, hsize _ hle']
  obtain hlt | heq | hgt := lt_trichotomy (significantBytes m).length (significantBytes n).length
  · exact iff_of_true (.inl hlt) (lt_of_length_significantBytes_lt hm hn hlt)
  · rw [lt_iff_bigEndianValue_lt heq, bigEndianValue_significantBytes hm,
      bigEndianValue_significantBytes hn]
    simp [heq]
  · have hlt := lt_of_length_significantBytes_lt hn hm hgt
    exact iff_of_false (by omega) (by omega)

theorem eq_of_isPrefix_encodeOrderPreservingVarUint64
    (h : encodeOrderPreservingVarUint64 m <+: encodeOrderPreservingVarUint64 n) : m = n := by
  have hle := length_significantBytes_le m
  have hle' := length_significantBytes_le n
  rw [encodeOrderPreservingVarUint64_eq, encodeOrderPreservingVarUint64_eq, cons_prefix_cons] at h
  have hlen : (significantBytes m).length = (significantBytes n).length := by
    have hsize := congrArg UInt8.toNat h.1
    simp only [UInt8.toNat_ofNat'] at hsize
    omega
  rw [← bigEndianValue_significantBytes hm, h.2.eq_of_length hlen,
    bigEndianValue_significantBytes hn]

theorem encodeOrderPreservingVarUint64_inj
    (h : encodeOrderPreservingVarUint64 m = encodeOrderPreservingVarUint64 n) : m = n :=
  eq_of_isPrefix_encodeOrderPreservingVarUint64 hm hn (h ▸ prefix_rfl)

end

theorem decodeOrderPreservingVarUint64_append (hn : n < 2 ^ 64) (rest : Bytes) :
    decodeOrderPreservingVarUint64 (encodeOrderPreservingVarUint64 n ++ rest) =
      some (n, ((encodeOrderPreservingVarUint64 n).length : ℤ)) := by
  have hle := length_significantBytes_le n
  have hsize : (decodeVarintPrefix (encodeOrderPreservingVarUint64 n ++ rest)).1 =
      (significantBytes n).length := by
    rw [encodeOrderPreservingVarUint64, append_assoc]
    exact congrArg Prod.fst (decodeVarintPrefix_encodeVarint (hle.trans_lt (by decide)) _)
  rw [decodeOrderPreservingVarUint64, hsize, int_of_lt (by omega),
    encodeOrderPreservingVarUint64_eq]
  simp only [cons_append, length_cons, drop_one, tail_cons, Int.toNat_natCast, length_append]
  rw [if_pos (by omega), bigEndianValue_replicate, take_left, bigEndianValue_significantBytes hn]
  rfl

/-- The keys are ordered as the numbers, none is the beginning of another one, and each is read
back from the front of any bytes. -/
theorem orderPreserving (m n : UInt64) (rest : Bytes) :
    (m < n ↔ encodeOrderPreservingVarUint64 m.toNat < encodeOrderPreservingVarUint64 n.toNat) ∧
    (m ≠ n → ¬ encodeOrderPreservingVarUint64 m.toNat <+: encodeOrderPreservingVarUint64 n.toNat) ∧
    decodeOrderPreservingVarUint64 (encodeOrderPreservingVarUint64 n.toNat ++ rest) =
      some (n.toNat, ((encodeOrderPreservingVarUint64 n.toNat).length : ℤ)) := by
  have hm := m.toNat_lt
  have hn := n.toNat_lt
  refine ⟨?_, fun hne h => hne ?_, decodeOrderPreservingVarUint64_append hn rest⟩
  · rw [UInt64.lt_iff_toNat_lt, encodeOrderPreservingVarUint64_lt_iff hm hn]
  · exact UInt64.toNat_inj.mp (eq_of_isPrefix_encodeOrderPreservingVarUint64 hm hn h)

/-- The number that is printed as some digits. -/
def decimalValue (b : Bytes) : ℕ := Nat.ofDigits 10 (b.reverse.map fun x => x.toNat - 48)

theorem decimalValue_decimal (n : ℕ) : decimalValue (decimal n) = n := by
  unfold decimal
  split_ifs with hn
  · rw [hn]
    rfl
  · have hdigit : (Nat.digits 10 n).map ((fun x => x.toNat - 48) ∘ fun d => UInt8.ofNat (48 + d)) =
        (Nat.digits 10 n).map id := by
      apply map_congr_left
      intro d hd
      have hlt := Nat.digits_lt_base (by decide) hd
      simp only [Function.comp_apply, UInt8.toNat_ofNat', id_eq]
      omega
    rw [decimalValue, ← map_reverse, reverse_reverse, map_map, hdigit, map_id, Nat.ofDigits_digits]

theorem decimal_inj (h : decimal m = decimal n) : m = n := by
  rw [← decimalValue_decimal m, h, decimalValue_decimal]

theorem colon_notMem_decimal (n : ℕ) : 58 ∉ decimal n := by
  unfold decimal
  split_ifs with hn
  · decide
  · intro hmem
    obtain ⟨d, hd, heq⟩ := mem_map.mp hmem
    have hlt := Nat.digits_lt_base (by decide) (mem_reverse.mp hd)
    have htoNat := congrArg UInt8.toNat heq
    simp only [UInt8.toNat_ofNat', UInt8.reduceToNat] at htoNat
    omega

theorem constructTxID_inj {i j : ℕ} (h : constructTxID m i = constructTxID n j) :
    m = n ∧ i = j := by
  have hcons : ∀ m i, constructTxID m i = decimal m ++ 58 :: decimal i := fun m i =>
    append_assoc _ _ _
  rw [hcons, hcons, append_cons_inj_of_notMem (colon_notMem_decimal m)
    (colon_notMem_decimal i)] at h
  exact ⟨decimal_inj h.1, decimal_inj h.2.2⟩

theorem IndexKey.bytes_inj {k k' : IndexKey} (hk : k.Valid) (hk' : k'.Valid)
    (h : k.bytes = k'.bytes) : k = k' := by
  have htag : k.tag = k'.tag := by
    rw [← Option.some.injEq, ← head?_bytes, ← head?_bytes, h]
  cases k <;> cases k' <;> simp [tag] at htag
  case blockNum => rw [encodeOrderPreservingVarUint64_inj hk hk' (append_cancel_left h)]
  case blockHash => rw [append_cancel_left h]
  case txID =>
    have heq := append_cancel_left h
    rw [(constructTxID_inj heq).1, (constructTxID_inj heq).2]
  case indexCheckpoint | blkMgrInfo => rfl

/-! ### The database -/

/-- The database of a block store. -/
abbrev DB := Bytes → Option Bytes

namespace DB

def empty : DB := fun _ => none

def get (db : DB) (k : IndexKey) : Option Bytes := db k.bytes

def put (db : DB) (k : IndexKey) (value : Bytes) : DB := Function.update db k.bytes (some value)

def writeBatch (db : DB) (batch : List (IndexKey × Bytes)) : DB :=
  batch.foldl (fun db entry => db.put entry.1 entry.2) db

variable {db : DB} {k k' : IndexKey} {value : Bytes} {batch : List (IndexKey × Bytes)}

@[simp] theorem get_empty (k : IndexKey) : empty.get k = none := rfl

@[simp] theorem get_put_self : (db.put k value).get k = some value := Function.update_self ..

theorem get_put_of_ne (hk : k.Valid) (hk' : k'.Valid) (hne : k' ≠ k) :
    (db.put k value).get k' = db.get k' :=
  Function.update_of_ne (fun heq => hne (IndexKey.bytes_inj hk' hk heq)) _ _

theorem get_writeBatch_of_notMem (hbatch : ∀ entry ∈ batch, entry.1.Valid) (hk : k.Valid)
    (h : k ∉ batch.map Prod.fst) : (db.writeBatch batch).get k = db.get k := by
  induction batch generalizing db with
  | nil => rfl
  | cons entry batch ih =>
    rw [map_cons, mem_cons, not_or] at h
    have hrest : ((db.put entry.1 entry.2).writeBatch batch).get k = _ :=
      ih (fun e he => hbatch e (mem_cons_of_mem _ he)) h.2
    exact hrest.trans (get_put_of_ne (hbatch entry mem_cons_self) hk h.1)

theorem get_writeBatch_of_mem (hbatch : ∀ entry ∈ batch, entry.1.Valid)
    (hnodup : (batch.map Prod.fst).Nodup) (h : (k, value) ∈ batch) :
    (db.writeBatch batch).get k = some value := by
  induction batch generalizing db with
  | nil => cases h
  | cons _ batch ih =>
    rw [map_cons, nodup_cons] at hnodup
    have hvalid : ∀ e ∈ batch, e.1.Valid := fun e he => hbatch e (mem_cons_of_mem _ he)
    rcases mem_cons.mp h with rfl | hmem
    · -- the entries behind it have other keys
      have hrest : ((db.put k value).writeBatch batch).get k = _ :=
        get_writeBatch_of_notMem hvalid (hbatch _ mem_cons_self) hnodup.1
      exact hrest.trans get_put_self
    · exact ih hvalid hnodup.2 hmem

end DB

/-! ### Pointers -/

/-- A place in a file, and how many bytes stand there if it is the place of a transaction. -/
structure FileLocPointer where
  fileSuffixNum : ℤ
  offset : ℤ
  bytesLength : ℤ
deriving DecidableEq

namespace FileLocPointer

def marshal (flp : FileLocPointer) : Bytes :=
  encodeVarint (uint64 flp.fileSuffixNum) ++ encodeVarint (uint64 flp.offset) ++
    encodeVarint (uint64 flp.bytesLength)

/-- The fields up to the first one that cannot be read: nobody looks at the error. -/
def unmarshal (b : Bytes) : FileLocPointer :=
  match decodeVarint b with
  | .error _ => ⟨0, 0, 0⟩
  | .ok (i, b) =>
    match decodeVarint b with
    | .error _ => ⟨int i, 0, 0⟩
    | .ok (j, b) =>
      match decodeVarint b with
      | .error _ => ⟨int i, int j, 0⟩
      | .ok (k, _) => ⟨int i, int j, int k⟩

theorem unmarshal_marshal_eq (flp : FileLocPointer) : unmarshal flp.marshal =
    ⟨int (uint64 flp.fileSuffixNum), int (uint64 flp.offset), int (uint64 flp.bytesLength)⟩ := by
  have hdecodes : ∀ x rest, decodeVarint (encodeVarint (uint64 x) ++ rest) = .ok (uint64 x, rest) :=
    fun x => decodes_encodeVarint (uint64_lt x)
  have hlast : ∀ x, decodeVarint (encodeVarint (uint64 x)) = .ok (uint64 x, []) := fun x => by
    rw [← append_nil (encodeVarint _), hdecodes]
  rw [unmarshal, marshal, append_assoc, hdecodes]
  dsimp only
  rw [hdecodes]
  dsimp only
  rw [hlast]

/-- The fields are those of files. -/
structure InRange (flp : FileLocPointer) : Prop where
  fileSuffixNum : 0 ≤ flp.fileSuffixNum ∧ flp.fileSuffixNum < 2 ^ 63
  offset : 0 ≤ flp.offset ∧ flp.offset < 2 ^ 63
  bytesLength : 0 ≤ flp.bytesLength ∧ flp.bytesLength < 2 ^ 63

theorem unmarshal_marshal {flp : FileLocPointer} (h : flp.InRange) :
    unmarshal flp.marshal = flp := by
  obtain ⟨hfile, hoffset, hlength⟩ := h
  rw [unmarshal_marshal_eq, int_uint64 (by omega) hfile.2, int_uint64 (by omega) hoffset.2,
    int_uint64 (by omega) hlength.2]

end FileLocPointer

/-- A pointer to what stands at an offset behind another one. -/
def newFileLocationPointer (fileSuffixNum beginningOffset offset bytesLength : ℤ) :
    FileLocPointer :=
  ⟨fileSuffixNum, int (uint64 (beginningOffset + offset)), bytesLength⟩

/-! ### The index -/

inductive IndexableAttr
  | blockNum
  | blockHash
  | txID
deriving DecidableEq

structure BlockIdxInfo where
  blockNum : ℕ
  blockHash : Bytes
  flp : FileLocPointer
  txOffsets : List ℤ

/-- The place of a transaction between two offsets. -/
def BlockIdxInfo.txFlp (info : BlockIdxInfo) (i j : ℤ) : FileLocPointer :=
  newFileLocationPointer info.flp.fileSuffixNum info.flp.offset i (int (uint64 (j - i)))

/-- The entries of the transactions from a number on. -/
def BlockIdxInfo.txEntries (info : BlockIdxInfo) : ℕ → List ℤ → List (IndexKey × Bytes)
  | txNum, i :: j :: txOffsets =>
    (.txID info.blockNum txNum, (info.txFlp i j).marshal) ::
      info.txEntries (txNum + 1) (j :: txOffsets)
  | _, _ => []

/-- What is written for a block. -/
def BlockIdxInfo.entries (attrs : List IndexableAttr) (info : BlockIdxInfo) :
    List (IndexKey × Bytes) :=
  (if .blockHash ∈ attrs then [(.blockHash info.blockHash, info.flp.marshal)] else []) ++
    (if .blockNum ∈ attrs then [(.blockNum info.blockNum, info.flp.marshal)] else []) ++
    (if .txID ∈ attrs then info.txEntries 0 info.txOffsets else []) ++
    [(.indexCheckpoint, encodeVarint info.blockNum)]

def indexBlock (attrs : List IndexableAttr) (info : BlockIdxInfo) (db : DB) : DB :=
  if attrs = [] then db else db.writeBatch (info.entries attrs)

/-- The number of the last block that was indexed, or zero. -/
def getLastBlockIndexed (db : DB) : ℕ :=
  match db.get .indexCheckpoint with
  | none => 0
  | some b => (decodeVarintPrefix b).1

inductive IndexError
  | attrNotIndexed
  | notFoundInIndex
deriving DecidableEq

/-- Look up the place under a key, if its attribute is indexed. -/
def getLoc (attrs : List IndexableAttr) (db : DB) (attr : IndexableAttr) (key : Bytes) :
    Except IndexError FileLocPointer :=
  if attr ∈ attrs then
    match db key with
    | none => .error .notFoundInIndex
    | some b => .ok (.unmarshal b)
  else .error .attrNotIndexed

def getBlockLocByHash (attrs : List IndexableAttr) (db : DB) (blockHash : Bytes) :
    Except IndexError FileLocPointer := getLoc attrs db .blockHash (constructBlockHashKey blockHash)

def getBlockLocByBlockNum (attrs : List IndexableAttr) (db : DB) (blockNum : ℕ) :
    Except IndexError FileLocPointer := getLoc attrs db .blockNum (constructBlockNumKey blockNum)

def getTxLoc (attrs : List IndexableAttr) (db : DB) (txID : Bytes) :
    Except IndexError FileLocPointer := getLoc attrs db .txID (constructTxIDKey txID)

section Lookup

variable {attrs : List IndexableAttr} {attr : IndexableAttr} {db db' : DB} {k : IndexKey}

theorem getLoc_of_get {value : Bytes} (hattr : attr ∈ attrs) (h : db.get k = some value) :
    getLoc attrs db attr k.bytes = .ok (.unmarshal value) := by
  rw [DB.get] at h
  rw [getLoc, if_pos hattr, h]

theorem getLoc_of_get_none (hattr : attr ∈ attrs) (h : db.get k = none) :
    getLoc attrs db attr k.bytes = .error .notFoundInIndex := by
  rw [DB.get] at h
  rw [getLoc, if_pos hattr, h]

theorem getLoc_congr (h : db'.get k = db.get k) :
    getLoc attrs db' attr k.bytes = getLoc attrs db attr k.bytes := by
  rw [DB.get, DB.get] at h
  rw [getLoc, getLoc, h]

end Lookup

/-! ### What indexing a block changes -/

section Entries

variable {attrs : List IndexableAttr} {info : BlockIdxInfo} {db : DB} {k : IndexKey} {value : Bytes}

theorem BlockIdxInfo.map_fst_txEntries (info : BlockIdxInfo) (txNum : ℕ) (txOffsets : List ℤ) :
    (info.txEntries txNum txOffsets).map Prod.fst =
      (List.range' txNum (txOffsets.length - 1)).map (.txID info.blockNum) := by
  induction txOffsets generalizing txNum with
  | nil => rfl
  | cons _ txOffsets ih =>
    cases txOffsets with
    | nil => rfl
    | cons =>
      rw [txEntries, map_cons, ih]
      rfl

theorem BlockIdxInfo.mem_txEntries {txNum : ℕ} {txOffsets : List ℤ} {i j : ℤ}
    (hi : txOffsets[n]? = some i) (hj : txOffsets[n + 1]? = some j) :
    (.txID info.blockNum (txNum + n), (info.txFlp i j).marshal) ∈
      info.txEntries txNum txOffsets := by
  induction txOffsets generalizing txNum n with
  | nil => cases hi
  | cons _ txOffsets ih =>
    cases txOffsets with
    | nil => simp at hj
    | cons =>
      rw [txEntries, mem_cons]
      cases n with
      | zero =>
        cases hi
        cases hj
        exact .inl rfl
      | succ n =>
        right
        rw [Nat.add_comm n 1, ← Nat.add_assoc]
        exact ih hi hj

theorem BlockIdxInfo.valid_entries (hnum : info.blockNum < 2 ^ 64) :
    ∀ entry ∈ info.entries attrs, entry.1.Valid := by
  have htx : ∀ entry ∈ info.txEntries 0 info.txOffsets, entry.1.Valid := by
    intro entry hentry
    have hmem := mem_map_of_mem (f := Prod.fst) hentry
    rw [info.map_fst_txEntries, mem_map] at hmem
    obtain ⟨i, -, hi⟩ := hmem
    rw [← hi]
    exact True.intro
  intro entry hentry
  simp only [entries, mem_append, mem_ite_nil_right, mem_singleton] at hentry
  rcases hentry with ((⟨-, rfl⟩ | ⟨-, rfl⟩) | ⟨-, hentry⟩) | rfl
  · exact True.intro
  · exact hnum
  · exact htx entry hentry
  · exact True.intro

theorem BlockIdxInfo.mem_keys : k ∈ (info.entries attrs).map Prod.fst ↔
    (.blockHash ∈ attrs ∧ k = .blockHash info.blockHash) ∨
    (.blockNum ∈ attrs ∧ k = .blockNum info.blockNum) ∨
    (.txID ∈ attrs ∧ ∃ i < info.txOffsets.length - 1, k = .txID info.blockNum i) ∨
    k = .indexCheckpoint := by
  have htx : k ∈ (info.txEntries 0 info.txOffsets).map Prod.fst ↔
      ∃ i < info.txOffsets.length - 1, k = .txID info.blockNum i := by
    simp [info.map_fst_txEntries, eq_comm]
  rw [entries, map_append, map_append, map_append, mem_append, mem_append, mem_append]
  by_cases hhash : IndexableAttr.blockHash ∈ attrs <;>
    by_cases hnum : IndexableAttr.blockNum ∈ attrs <;>
      by_cases htxID : IndexableAttr.txID ∈ attrs <;>
        simp only [hhash, hnum, htxID, if_true, if_false, htx, map_cons, map_nil,
          mem_singleton, not_mem_nil, true_and, false_and, or_assoc]

theorem BlockIdxInfo.nodup_keys : ((info.entries attrs).map Prod.fst).Nodup := by
  have htx : ((List.range' 0 (info.txOffsets.length - 1)).map
      (IndexKey.txID info.blockNum)).Nodup := by
    apply List.Nodup.map _ nodup_range'
    intro i j hij
    cases hij
    rfl
  rw [entries, map_append, map_append]
  by_cases hhash : IndexableAttr.blockHash ∈ attrs <;>
    by_cases hnum : IndexableAttr.blockNum ∈ attrs <;>
      by_cases htxID : IndexableAttr.txID ∈ attrs <;>
        simp only [hhash, hnum, htxID, if_true, info.map_fst_txEntries] <;>
        simp [nodup_append, htx]

section

variable (hnum : info.blockNum < 2 ^ 64)
include hnum

open BlockIdxInfo

theorem get_indexBlock_of_notMem (hk : k.Valid)
    (h : k ∉ (info.entries attrs).map Prod.fst) : (indexBlock attrs info db).get k = db.get k := by
  unfold indexBlock
  split_ifs
  · rfl
  · exact DB.get_writeBatch_of_notMem (valid_entries hnum) hk h

theorem get_indexBlock_of_mem (hattrs : attrs ≠ [])
    (h : (k, value) ∈ info.entries attrs) : (indexBlock attrs info db).get k = some value := by
  unfold indexBlock
  rw [if_neg hattrs]
  exact DB.get_writeBatch_of_mem (valid_entries hnum) nodup_keys h

theorem indexBlock_blockNum (hn : n < 2 ^ 64) : (indexBlock attrs info db).get (.blockNum n) =
      if .blockNum ∈ attrs ∧ n = info.blockNum then some info.flp.marshal
      else db.get (.blockNum n) := by
  split_ifs with h
  · obtain ⟨hattr, rfl⟩ := h
    apply get_indexBlock_of_mem hnum (ne_nil_of_mem hattr)
    simp [entries, hattr]
  · refine get_indexBlock_of_notMem hnum hn ?_
    simpa [BlockIdxInfo.mem_keys] using h

theorem indexBlock_blockHash (hash : Bytes) : (indexBlock attrs info db).get (.blockHash hash) =
      if .blockHash ∈ attrs ∧ hash = info.blockHash then some info.flp.marshal
      else db.get (.blockHash hash) := by
  split_ifs with h
  · obtain ⟨hattr, rfl⟩ := h
    apply get_indexBlock_of_mem hnum (ne_nil_of_mem hattr)
    simp [entries, hattr]
  · refine get_indexBlock_of_notMem hnum True.intro ?_
    simpa [BlockIdxInfo.mem_keys] using h

theorem indexBlock_txID (hattr : .txID ∈ attrs) {i j : ℤ}
    (hi : info.txOffsets[n]? = some i) (hj : info.txOffsets[n + 1]? = some j) :
    (indexBlock attrs info db).get (.txID info.blockNum n) = some (info.txFlp i j).marshal := by
  have hmem : (IndexKey.txID info.blockNum (0 + n), (info.txFlp i j).marshal) ∈
    info.txEntries 0 info.txOffsets := info.mem_txEntries hi hj
  rw [Nat.zero_add] at hmem
  apply get_indexBlock_of_mem hnum (ne_nil_of_mem hattr)
  simp [entries, hattr, hmem]

theorem indexBlock_txID_of_not
    (h : .txID ∈ attrs → m = info.blockNum → info.txOffsets.length - 1 ≤ n) :
    (indexBlock attrs info db).get (.txID m n) = db.get (.txID m n) := by
  refine get_indexBlock_of_notMem hnum True.intro ?_
  rw [BlockIdxInfo.mem_keys]
  rintro (⟨-, hk⟩ | ⟨-, hk⟩ | ⟨hattr, i, hi, hk⟩ | hk)
  · cases hk
  · cases hk
  · cases hk
    exact absurd (h hattr rfl) (Nat.not_le.mpr hi)
  · cases hk

theorem indexBlock_indexCheckpoint (hattrs : attrs ≠ []) :
    (indexBlock attrs info db).get .indexCheckpoint = some (encodeVarint info.blockNum) := by
  apply get_indexBlock_of_mem hnum hattrs
  simp [entries]

theorem indexBlock_blkMgrInfo :
    (indexBlock attrs info db).get .blkMgrInfo = db.get .blkMgrInfo := by
  refine get_indexBlock_of_notMem hnum True.intro ?_
  simp [BlockIdxInfo.mem_keys]

end

end Entries

end Fabric.BlockStore
