import Fabric.Common.Wire

/-!
# Serialized blocks

`ser_block2.go`: a block is serialized as the previous hash, the transactions one after the
other, and a trailer with the offsets of the transactions. The last four bytes say where the
trailer begins.
-/

namespace Fabric.BlockStore

open Fabric.Common List

structure Block2 where
  previousBlockHash : Bytes
  transactions : List Bytes
deriving DecidableEq

/-- What decoding a block stops with: an error of `proto.Buffer`, or a panic. -/
inductive BlockError
  | decode (e : DecodeError)
  | sliceOutOfRange
deriving DecidableEq

/-- Four bytes of an integer, least significant byte first. -/
def intToBytes (i : ℕ) : Bytes :=
  [UInt8.ofNat i, UInt8.ofNat (i / 2 ^ 8), UInt8.ofNat (i / 2 ^ 16), UInt8.ofNat (i / 2 ^ 24)]

def bytesToInt (b : Bytes) : ℕ := b.foldr (fun x n => x.toNat + 2 ^ 8 * n) 0

/-- The offsets of byte strings from a position on, and that of their end. -/
def offsetsFrom (position : ℕ) : List Bytes → List ℕ
  | [] => [position]
  | b :: bs => position :: offsetsFrom (position + b.length) bs

namespace Block2

variable (block : Block2)

/-- The previous hash and the transactions. -/
def body : Bytes := encodeRawBytes block.previousBlockHash ++ block.transactions.flatten

def trailerOffset : ℕ := block.body.length

/-- The offsets of the transactions and of the trailer. -/
def txOffsets : List ℕ :=
  offsetsFrom (encodeRawBytes block.previousBlockHash).length block.transactions

def trailer : Bytes :=
  encodeVarint block.transactions.length ++ block.txOffsets.dropLast.flatMap encodeVarint

def bytes : Bytes :=
  block.body ++ block.trailer ++ intToBytes (block.trailerOffset % 2 ^ 32)

end Block2

/-- The offsets are known for a block that was serialized, and computed otherwise. -/
structure SerBlock2 where
  txOffsets : Option (List ℤ)
  blockBytes : Bytes

def constructSerBlock2 (block : Block2) : SerBlock2 :=
  ⟨some (block.txOffsets.map Int.ofNat), block.bytes⟩

def newSerBlock2 (blockBytes : Bytes) : SerBlock2 := ⟨none, blockBytes⟩

def extractPreviousBlockHash (blockBytes : Bytes) : Except BlockError Bytes :=
  match decodeRawBytes blockBytes with
  | .ok (previousBlockHash, _) => .ok previousBlockHash
  | .error e => .error (.decode e)

/-- The number of transactions and their offsets. -/
def decodeTrailer : Decoder (List ℕ) := do
  let numTxs ← decodeVarint
  decodeN decodeVarint (int numTxs).toNat

def extractTxOffsets (blockBytes : Bytes) : Except BlockError (List ℤ) :=
  if blockBytes.length < 4 then .error .sliceOutOfRange
  else
    let trailerOffset := bytesToInt (blockBytes.drop (blockBytes.length - 4))
    if blockBytes.length < trailerOffset then .error .sliceOutOfRange
    else
      match decodeTrailer (blockBytes.drop trailerOffset) with
      | .ok (txOffsets, _) => .ok (txOffsets.map int ++ [(trailerOffset : ℤ)])
      | .error e => .error (.decode e)

def getTxOffsets (serBlock : SerBlock2) : Except BlockError (List ℤ) :=
  match serBlock.txOffsets with
  | some txOffsets => .ok txOffsets
  | none => do
    let _ ← extractPreviousBlockHash serBlock.blockBytes
    extractTxOffsets serBlock.blockBytes

/-- The slice `b[i:j]`. -/
def slice (b : Bytes) (i j : ℤ) : Except BlockError Bytes :=
  if 0 ≤ i ∧ i ≤ j ∧ j ≤ b.length then .ok ((b.drop i.toNat).take (j - i).toNat)
  else .error .sliceOutOfRange

/-- The slices between consecutive offsets. -/
def slices (b : Bytes) : List ℤ → Except BlockError (List Bytes)
  | i :: j :: offsets => do
    let tx ← slice b i j
    let txs ← slices b (j :: offsets)
    pure (tx :: txs)
  | _ => .ok []

def toBlock2 (serBlock : SerBlock2) : Except BlockError Block2 := do
  let previousBlockHash ← extractPreviousBlockHash serBlock.blockBytes
  let txOffsets ← extractTxOffsets serBlock.blockBytes
  let transactions ← slices serBlock.blockBytes txOffsets
  pure ⟨previousBlockHash, transactions⟩

/-! ### Offsets -/

theorem length_offsetsFrom (position : ℕ) (bs : List Bytes) :
    (offsetsFrom position bs).length = bs.length + 1 := by
  induction bs generalizing position with
  | nil => rfl
  | cons _ _ ih => rw [offsetsFrom, length_cons, ih, length_cons]

theorem offsetsFrom_ne_nil (position : ℕ) (bs : List Bytes) : offsetsFrom position bs ≠ [] := by
  cases bs <;> simp [offsetsFrom]

theorem offsetsFrom_eq (position : ℕ) (bs : List Bytes) : offsetsFrom position bs =
    (offsetsFrom position bs).dropLast ++ [position + bs.flatten.length] := by
  induction bs generalizing position with
  | nil => simp [offsetsFrom]
  | cons _ _ ih =>
    rw [offsetsFrom, dropLast_cons_of_ne_nil (offsetsFrom_ne_nil _ _), cons_append,
      flatten_cons, length_append, ← Nat.add_assoc, ← ih]

theorem le_of_mem_offsetsFrom {position o : ℕ} {bs : List Bytes} (h : o ∈ offsetsFrom position bs) :
    position ≤ o ∧ o ≤ position + bs.flatten.length := by
  induction bs generalizing position with
  | nil => simpa [offsetsFrom, Nat.le_antisymm_iff, and_comm] using h
  | cons _ _ ih =>
    rw [offsetsFrom, mem_cons] at h
    rw [flatten_cons, length_append]
    rcases h with rfl | h
    · omega
    · have := ih h
      omega

theorem exists_offsetsFrom_eq_cons (position : ℕ) (bs : List Bytes) :
    ∃ offsets, offsetsFrom position bs = position :: offsets := by
  cases bs with
  | nil => exact ⟨_, rfl⟩
  | cons => exact ⟨_, rfl⟩

theorem slices_offsetsFrom {front back : Bytes} (bs : List Bytes) :
    slices (front ++ bs.flatten ++ back)
      ((offsetsFrom front.length bs).map Int.ofNat) = .ok bs := by
  induction bs generalizing front with
  | nil => rfl
  | cons b bs ih =>
    have hslice : slice (front ++ (b :: bs).flatten ++ back) (Int.ofNat front.length)
        (Int.ofNat (front.length + b.length)) = .ok b := by
      have hlen : (front ++ (b :: bs).flatten ++ back).length =
          front.length + b.length + bs.flatten.length + back.length := by
        rw [length_append, length_append, flatten_cons, length_append]
        omega
      simp only [slice, Int.ofNat_eq_natCast]
      rw [if_pos (by omega)]
      simp
    have hrest : slices (front ++ b ++ bs.flatten ++ back)
      ((offsetsFrom (front ++ b).length bs).map Int.ofNat) = .ok bs := ih
    obtain ⟨offsets, hoffsets⟩ := exists_offsetsFrom_eq_cons (front.length + b.length) bs
    rw [length_append, append_assoc front b, ← flatten_cons, hoffsets] at hrest
    rw [offsetsFrom, hoffsets, map_cons, map_cons, slices, hslice]
    rw [map_cons] at hrest
    rw [hrest]
    rfl

theorem getElem?_offsetsFrom {position t : ℕ} {txs : List Bytes} (ht : t ≤ txs.length) :
    (offsetsFrom position txs)[t]? = some (position + (txs.take t).flatten.length) := by
  induction txs generalizing position t with
  | nil =>
    rw [Nat.le_zero.mp ht]
    rfl
  | cons _ _ ih =>
    cases t with
    | zero => rfl
    | succ =>
      rw [offsetsFrom, List.getElem?_cons_succ, ih (Nat.le_of_succ_le_succ ht), take_succ_cons,
        flatten_cons, length_append, Nat.add_assoc]

/-- The offset of a transaction, or of the trailer. -/
def Block2.txOffset (block : Block2) (t : ℕ) : ℕ :=
  (encodeRawBytes block.previousBlockHash).length + (block.transactions.take t).flatten.length

theorem Block2.txOffset_succ {block : Block2} {t : ℕ} {tx : Bytes}
    (ht : block.transactions[t]? = some tx) :
    block.txOffset (t + 1) = block.txOffset t + tx.length := by
  rw [txOffset, txOffset, take_add_one, ht]
  simp [Nat.add_assoc]

/-! ### Serialized blocks -/

/-- A block whose bytes a process can hold: no slice is that long. -/
structure SizedBlock2 where
  block : Block2
  fits : block.bytes.length < 2 ^ 56
deriving DecidableEq

@[simp] theorem length_intToBytes (i : ℕ) : (intToBytes i).length = 4 := rfl

theorem bytesToInt_intToBytes {i : ℕ} (h : i < 2 ^ 32) : bytesToInt (intToBytes i) = i := by
  simp [bytesToInt, intToBytes]
  omega

theorem length_le_length_flatMap_encodeVarint (l : List ℕ) :
    l.length ≤ (l.flatMap encodeVarint).length := by
  induction l with
  | nil => rfl
  | cons x =>
    have hpos := length_pos_iff.mpr (encodeVarint_ne_nil x)
    rw [flatMap_cons, length_append, length_cons]
    omega

namespace Block2

variable {block : Block2}

open Block2

theorem length_bytes (block : Block2) :
    block.bytes.length = block.trailerOffset + block.trailer.length + 4 := by
  rw [bytes, length_append, length_append]
  rfl

theorem trailerOffset_eq (block : Block2) : block.trailerOffset =
    (encodeRawBytes block.previousBlockHash).length + block.transactions.flatten.length :=
  length_append

theorem drop_bytes (block : Block2) : block.bytes.drop (block.bytes.length - 4) =
    intToBytes (block.trailerOffset % 2 ^ 32) := by
  have hlen : block.bytes.length - 4 = (block.body ++ block.trailer).length := by
    rw [length_bytes, length_append]
    exact Nat.add_sub_cancel _ _
  rw [hlen]
  exact drop_left

theorem extractPreviousBlockHash_bytes (h : block.previousBlockHash.length < 2 ^ 63) :
    extractPreviousBlockHash block.bytes = .ok block.previousBlockHash := by
  have hdecodes := decodes_encodeRawBytes h
  rw [extractPreviousBlockHash, bytes, body]
  simp only [append_assoc]
  rw [hdecodes]

section Offsets

variable (h : block.trailerOffset < 2 ^ 32)

include h

theorem previousBlockHash_lt : block.previousBlockHash.length < 2 ^ 63 := by
  have htrailer := block.trailerOffset_eq
  have hraw := length_lt_encodeRawBytes block.previousBlockHash
  omega

theorem txOffset_lt {o : ℕ} (ho : o ∈ block.txOffsets) : o < 2 ^ 63 := by
  have htrailer := block.trailerOffset_eq
  have hle := (le_of_mem_offsetsFrom ho).2
  omega

theorem map_int_txOffsets : block.txOffsets.dropLast.map int ++ [(block.trailerOffset : ℤ)] =
    block.txOffsets.map Int.ofNat := by
  have hmap := map_congr_left fun o ho => int_of_lt (txOffset_lt h (dropLast_subset _ ho))
  have hoffsets : block.txOffsets = block.txOffsets.dropLast ++ [block.trailerOffset] := by
    rw [trailerOffset_eq]
    exact offsetsFrom_eq _ _
  conv_rhs => rw [hoffsets, map_append]
  rw [hmap]
  rfl

variable (hcount : block.transactions.length < 2 ^ 63)

include hcount

theorem decodes_trailer : Decodes decodeTrailer block.trailer block.txOffsets.dropLast := by
  have hlen : block.txOffsets.dropLast.length = block.transactions.length := by
    rw [length_dropLast, txOffsets, length_offsetsFrom, Nat.add_sub_cancel]
  apply (decodes_encodeVarint (by omega)).bind
  rw [int_of_lt hcount, ← hlen]
  apply Decodes.decodeN
  intro o ho
  have hlt := txOffset_lt h (dropLast_subset _ ho)
  exact decodes_encodeVarint (by omega)

theorem extractTxOffsets_bytes :
    extractTxOffsets block.bytes = .ok (block.txOffsets.map Int.ofNat) := by
  have hlen := block.length_bytes
  have hbody : block.bytes.drop block.trailerOffset =
      block.trailer ++ intToBytes (block.trailerOffset % 2 ^ 32) := by
    rw [bytes, append_assoc]
    exact drop_left
  rw [extractTxOffsets, if_neg (by omega)]
  rw [drop_bytes, Nat.mod_eq_of_lt h, bytesToInt_intToBytes h, if_neg (by omega), hbody,
    decodes_trailer h hcount]
  exact congrArg Except.ok (map_int_txOffsets h)

theorem getTxOffsets_bytes :
    getTxOffsets (newSerBlock2 block.bytes) = .ok (block.txOffsets.map Int.ofNat) := by
  rw [getTxOffsets, newSerBlock2]
  rw [extractPreviousBlockHash_bytes (previousBlockHash_lt h), extractTxOffsets_bytes h hcount]
  rfl

theorem toBlock2_bytes : toBlock2 (newSerBlock2 block.bytes) = .ok block := by
  have hslices : slices block.bytes (block.txOffsets.map Int.ofNat) = .ok block.transactions := by
    rw [bytes, append_assoc]
    exact slices_offsetsFrom _
  rw [toBlock2, newSerBlock2]
  rw [extractPreviousBlockHash_bytes (previousBlockHash_lt h), extractTxOffsets_bytes h hcount]
  change (slices block.bytes _ >>= _) = _
  rw [hslices]
  rfl

end Offsets

theorem drop_txOffset {t : ℕ} {tx : Bytes} (ht : block.transactions[t]? = some tx) :
    (block.bytes.drop (block.txOffset t)).take tx.length = tx := by
  obtain ⟨hlt, htx⟩ := List.getElem?_eq_some_iff.mp ht
  have hflatten : block.transactions.flatten = (block.transactions.take t).flatten ++
      (tx ++ (block.transactions.drop (t + 1)).flatten) := by
    conv_lhs => rw [← take_append_drop t block.transactions]
    rw [flatten_append, drop_eq_getElem_cons hlt, htx, flatten_cons]
  rw [bytes, body, hflatten, txOffset, ← drop_drop]
  simp only [append_assoc]
  rw [drop_left, drop_left, take_left]

theorem txOffset_le (block : Block2) (t : ℕ) : block.txOffset t ≤ block.bytes.length := by
  have hlen := block.length_bytes
  have htrailer := block.trailerOffset_eq
  have htake : block.transactions.flatten.length = (block.transactions.take t).flatten.length +
      (block.transactions.drop t).flatten.length := by
    rw [← length_append, ← flatten_append, take_append_drop]
  rw [txOffset]
  omega

/-- A block is read back as it was, and the offsets that are computed with the bytes and those
that are read from them delimit its transactions. -/
theorem serialization_roundTrip (h : block.trailerOffset < 2 ^ 32)
    (hcount : block.transactions.length < 2 ^ 63) :
    toBlock2 (constructSerBlock2 block) = .ok block ∧
    ∃ offsets, getTxOffsets (constructSerBlock2 block) = .ok offsets ∧
      getTxOffsets (newSerBlock2 (constructSerBlock2 block).blockBytes) = .ok offsets ∧
      offsets.length = block.transactions.length + 1 ∧
      ∀ i tx, block.transactions[i]? = some tx → ∃ o o', offsets[i]? = some o ∧
        offsets[i + 1]? = some o' ∧ slice (constructSerBlock2 block).blockBytes o o' = .ok tx := by
  refine ⟨toBlock2_bytes h hcount, _, rfl, getTxOffsets_bytes h hcount, ?_, fun i tx htx => ?_⟩
  · rw [length_map, txOffsets, length_offsetsFrom]
  · obtain ⟨hi, -⟩ := List.getElem?_eq_some_iff.mp htx
    have hoffset : ∀ t, t ≤ block.transactions.length →
        (block.txOffsets.map Int.ofNat)[t]? = some (block.txOffset t) := by
      intro t ht
      rw [List.getElem?_map, txOffsets, getElem?_offsetsFrom ht]
      rfl
    refine ⟨_, _, hoffset i hi.le, hoffset (i + 1) hi, ?_⟩
    have hle := block.txOffset_le (i + 1)
    rw [txOffset_succ htx] at hle ⊢
    have hsub : ((block.txOffset i + tx.length : ℕ) - block.txOffset i : ℤ).toNat = tx.length := by
      omega
    change slice block.bytes _ _ = _
    rw [slice, if_pos (by omega), hsub, Int.toNat_natCast, drop_txOffset htx]

theorem serialization_roundTrip_empty :
    toBlock2 (constructSerBlock2 ⟨[1, 2], [[], [3], []]⟩) = .ok ⟨[1, 2], [[], [3], []]⟩ :=
  (serialization_roundTrip (by decide +kernel) (by decide)).1

end Block2

namespace SizedBlock2

variable (b : SizedBlock2)

/-- The bytes of the block. -/
abbrev bytes : Bytes := b.block.bytes

theorem length_transactions_lt : b.block.transactions.length < 2 ^ 63 := by
  have hfits := b.fits
  have hlen := b.block.length_bytes
  have hoffsets := length_le_length_flatMap_encodeVarint b.block.txOffsets.dropLast
  rw [length_dropLast, Block2.txOffsets, length_offsetsFrom] at hoffsets
  rw [Block2.trailer, length_append] at hlen
  simp only [Block2.txOffsets] at *
  omega

theorem extractPreviousBlockHash_bytes :
    extractPreviousBlockHash b.bytes = .ok b.block.previousBlockHash := by
  have hfits := b.fits
  have hlen := b.block.length_bytes
  have htrailer := b.block.trailerOffset_eq
  have hraw := length_lt_encodeRawBytes b.block.previousBlockHash
  exact Block2.extractPreviousBlockHash_bytes (by omega)

theorem getTxOffsets_bytes (h : b.block.trailerOffset < 2 ^ 32) :
    getTxOffsets (newSerBlock2 b.bytes) = .ok (b.block.txOffsets.map Int.ofNat) :=
  Block2.getTxOffsets_bytes h b.length_transactions_lt

theorem toBlock2_bytes (h : b.block.trailerOffset < 2 ^ 32) :
    toBlock2 (newSerBlock2 b.bytes) = .ok b.block :=
  Block2.toBlock2_bytes h b.length_transactions_lt

theorem txOffset_le (t : ℕ) : b.block.txOffset t ≤ b.bytes.length := b.block.txOffset_le t

theorem getTxOffsets_ne_panic : getTxOffsets (newSerBlock2 b.bytes) ≠ .error .sliceOutOfRange := by
  have hlen : b.bytes.length = _ := b.block.length_bytes
  have hoffset : bytesToInt (intToBytes (b.block.trailerOffset % 2 ^ 32)) ≤ b.bytes.length := by
    rw [bytesToInt_intToBytes (Nat.mod_lt _ (by decide))]
    omega
  rw [getTxOffsets, newSerBlock2]
  dsimp only
  rw [extractPreviousBlockHash_bytes]
  change extractTxOffsets b.bytes ≠ _
  rw [extractTxOffsets, if_neg (by omega)]
  rw [Block2.drop_bytes, if_neg (by omega)]
  split <;> simp

end SizedBlock2

end Fabric.BlockStore
