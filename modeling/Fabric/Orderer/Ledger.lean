import Fabric.Common.Directory
import Fabric.Orderer.Cutter

/-!
# The ledgers of the orderer

Two implementations of `rawledger`: one keeps a number of blocks in memory, as a linked list,
and one writes every block to a file of its own. A file ledger can be made anew over the
directory of an earlier one.

The nodes of the linked list are kept in the order in which they were linked. A cursor on the
list is the place of the node that it comes to next.
-/

namespace Fabric.Orderer

open Fabric.Common List

/-! ### Blocks -/

structure BlockHeader where
  number : UInt64
  previousHash : Bytes
  dataHash : Bytes
deriving DecidableEq

structure Block where
  header : BlockHeader
  data : List Bytes
  metadata : List Bytes
deriving DecidableEq

/-- `proto.Marshal` for what is put into blocks and hashed, and the hash. -/
structure Marshal where
  envelope : Envelope → Bytes
  blockHeader : BlockHeader → Bytes
  blockData : List Bytes → Bytes
  computeCryptoHash : Bytes → Bytes

variable (M : Marshal)

def BlockHeader.hash (header : BlockHeader) : Bytes := M.computeCryptoHash (M.blockHeader header)

/-- The hash of `BlockData`. -/
def dataHash (data : List Bytes) : Bytes := M.computeCryptoHash (M.blockData data)

/-- The block that a ledger makes of messages. -/
def nextBlock (number : UInt64) (previousHash : Bytes) (messages : List Envelope)
    (metadata : List Bytes) : Block :=
  let data := messages.map M.envelope
  ⟨⟨number, previousHash, dataHash M data⟩, data, metadata⟩

theorem numbers_concat {chain : List Block} {block : Block}
    (h : ∀ i block, chain[i]? = some block → block.header.number = UInt64.ofNat i)
    (hnumber : block.header.number = UInt64.ofNat chain.length) (i : ℕ) (block' : Block)
    (hblock' : (chain ++ [block])[i]? = some block') :
    block'.header.number = UInt64.ofNat i := by
  rw [List.getElem?_append] at hblock'
  split_ifs at hblock' with hi
  · exact h i block' hblock'
  · obtain ⟨hi', rfl⟩ := List.getElem?_eq_some_iff.mp hblock'
    obtain rfl : i = chain.length := by
      simp only [length_singleton] at hi'
      omega
    simpa using hnumber

/-! ### Readers -/

/-- `SeekInfo_StartType` -/
inductive StartType
  | newest
  | oldest
  | specified
  | unknown (n : ℕ)
deriving DecidableEq

/-- A cursor of the ledger, or the iterator that always reports that nothing was found. -/
inductive Iterator (C : Type)
  | cursor (c : C)
  | notFound
deriving DecidableEq

/-- What `Next` returns. -/
inductive NextResult
  | success (block : Block)
  | notFound
  | serviceUnavailable
deriving DecidableEq

/-! ### The ledger in memory -/

/-- The nodes before the newest one; those before `oldest` cannot be reached any more. -/
structure RamLedger where
  maxSize : ℤ
  size : ℤ
  older : List Block
  newest : Block
  oldest : ℕ
deriving DecidableEq

namespace RamLedger

/-- The block before the first one; its number is the highest one. -/
def preGenesis : Block := ⟨⟨0xffffffffffffffff, [], []⟩, [], []⟩

def newChain (maxSize : ℤ) : RamLedger := ⟨maxSize, 1, [], preGenesis, 0⟩

def nodes (rl : RamLedger) : List Block := rl.older ++ [rl.newest]

def height (rl : RamLedger) : UInt64 := rl.newest.header.number + 1

def appendBlock (rl : RamLedger) (block : Block) : RamLedger :=
  let older := rl.older ++ [rl.newest]
  if rl.size + 1 > rl.maxSize then ⟨rl.maxSize, rl.size, older, block, rl.oldest + 1⟩
  else ⟨rl.maxSize, rl.size + 1, older, block, rl.oldest⟩

/-- `New`, for the chain of the system. -/
def new (maxSize : ℤ) (systemGenesis : Block) : RamLedger :=
  (newChain maxSize).appendBlock systemGenesis

def append (rl : RamLedger) (messages : List Envelope) (metadata : List Bytes) :
    RamLedger × Block :=
  let block := nextBlock M (rl.newest.header.number + 1) (rl.newest.header.hash M) messages metadata
  (rl.appendBlock block, block)

/-- A cursor at the place `next`, with the number `blockNum`. The block before the first one is
skipped; without a node to skip the call does not return. -/
def cursorAt (rl : RamLedger) (next : ℕ) (blockNum : UInt64) : Option (Iterator ℕ × UInt64) :=
  if blockNum = 0xffffffffffffffff then
    if next < rl.nodes.length then some (.cursor (next + 1), blockNum + 1) else none
  else some (.cursor next, blockNum)

/-- `Iterator`, unless the process stops on a nil pointer or the call does not return. -/
def iterator (rl : RamLedger) (startType : StartType) (specified : UInt64) :
    Option (Iterator ℕ × UInt64) :=
  match startType with
  | .oldest => do
    let oldest ← rl.nodes[rl.oldest]?
    rl.cursorAt rl.oldest oldest.header.number
  | .newest => rl.cursorAt rl.older.length rl.newest.header.number
  | .specified => do
    let oldest ← rl.nodes[rl.oldest]?
    if specified + 1 < oldest.header.number + 1 ∨ specified > rl.newest.header.number + 1 then
      some (.notFound, 0)
    else if specified = oldest.header.number then rl.cursorAt rl.oldest oldest.header.number
    else
      -- the walk from the oldest node to the one before the specified block
      let steps ← (rl.nodes.drop rl.oldest).findIdx? fun block =>
        block.header.number = specified - 1
      rl.cursorAt (rl.oldest + steps + 1) (specified - 1 + 1)
  | .unknown _ => none

/-- `Next`, unless it has to wait. -/
def next (rl : RamLedger) : Iterator ℕ → Option (NextResult × Iterator ℕ)
  | .cursor c => rl.nodes[c]?.map fun block => (.success block, .cursor (c + 1))
  | .notFound => some (.notFound, .notFound)

variable {M} {rl : RamLedger} {chain : List Block} {block : Block}

theorem nodes_appendBlock (rl : RamLedger) (block : Block) :
    (rl.appendBlock block).nodes = rl.nodes ++ [block] := by
  unfold appendBlock
  split_ifs <;> rfl

/-- The list has the blocks of the chain behind the first node, and they are numbered. -/
structure Stores (rl : RamLedger) (chain : List Block) : Prop where
  nodes : rl.nodes = preGenesis :: chain
  numbers : ∀ i block, chain[i]? = some block → block.header.number = UInt64.ofNat i
  oldest : rl.oldest ≤ chain.length

namespace Stores

theorem of_newChain (maxSize : ℤ) : (newChain maxSize).Stores [] where
  nodes := rfl
  numbers := by simp
  oldest := le_rfl

theorem length_older (h : rl.Stores chain) : rl.older.length = chain.length := by
  have hnodes := congrArg List.length h.nodes
  simpa [RamLedger.nodes] using hnodes

theorem newest_concat (h : rl.Stores (chain ++ [block])) : rl.newest = block := by
  have hnodes := h.nodes
  rw [← cons_append] at hnodes
  simpa using (append_inj' hnodes rfl).2

theorem newest_nil (h : rl.Stores []) : rl.newest = preGenesis := by
  have hnodes := h.nodes
  exact (append_eq_singleton_iff.mp hnodes).elim (fun hnewest => by simpa using hnewest.2)
    fun hnil => by simp at hnil

theorem height (h : rl.Stores chain) : rl.newest.header.number + 1 = UInt64.ofNat chain.length := by
  obtain rfl | ⟨chain, last, rfl⟩ := chain.eq_nil_or_concat'
  · rw [h.newest_nil]
    rfl
  · rw [h.newest_concat, h.numbers chain.length last (by simp), length_append, UInt64.ofNat_add]
    rfl

theorem appendBlock (h : rl.Stores chain)
    (hnumber : block.header.number = UInt64.ofNat chain.length) :
    (rl.appendBlock block).Stores (chain ++ [block]) where
  nodes := by
    rw [nodes_appendBlock, h.nodes]
    rfl
  numbers := numbers_concat h.numbers hnumber
  oldest := by
    have hoversize := h.oldest
    unfold RamLedger.appendBlock
    split_ifs <;> simp <;> omega

theorem append (h : rl.Stores chain) (messages : List Envelope) (metadata : List Bytes) :
    (rl.append M messages metadata).1.Stores (chain ++ [(rl.append M messages metadata).2]) :=
  h.appendBlock h.height

end Stores

end RamLedger

/-! ### The ledger in files -/

/-- The texts of blocks: `jsonpb`. A text that breaks off is not the text of a block. -/
structure BlockFile (α : Type) where
  marshal : Block → List α
  unmarshal : List α → Option Block
  unmarshal_marshal : ∀ block, unmarshal (marshal block) = some block
  unmarshal_of_broken : ∀ block text, text <+: marshal block → text ≠ marshal block →
    unmarshal text = none

/-- A file ledger, with the files of its directory. -/
structure FileLedger (α : Type) where
  files : Directory (List α)
  height : UInt64
  lastHash : Bytes
deriving DecidableEq

namespace FileLedger

variable {α : Type} (F : BlockFile α)

/-- The block, or nothing where the text is not that of a block, if the file is found. -/
def readBlock (files : Directory (List α)) (number : UInt64) : Option (Option Block) :=
  (files.read number).map F.unmarshal

def writeBlock (files : Directory (List α)) (block : Block) : Directory (List α) :=
  files.write block.header.number (F.marshal block)

/-- The height and the last hash, unless a block is missing or cannot be read. -/
def initializeBlockHeight (files : Directory (List α)) : Option (UInt64 × Bytes) := do
  let height ← files.listing.foldlM
    (fun nextNumber number => if number ≠ nextNumber then none else some (nextNumber + 1)) 0
  if height = 0 then some (0, [])
  else
    let found ← readBlock F files (height - 1)
    let block ← found
    some (height, block.header.hash M)

def newChain (files : Directory (List α)) : Option (FileLedger α) :=
  (initializeBlockHeight M F files).map fun (height, lastHash) => ⟨files, height, lastHash⟩

/-- `New`, for the directory of the chain of the system, unless the process stops. -/
def new (files : Directory (List α)) (systemGenesis : Block) : Option (FileLedger α) := do
  let fl ← newChain M F files
  if fl.height > 0 then
    let block ← readBlock F fl.files 0
    if block = some systemGenesis then some fl else none
  else some ⟨writeBlock F fl.files systemGenesis, 1, systemGenesis.header.hash M⟩

/-- `Append`; the hash of the last block stays what it was. -/
def append (fl : FileLedger α) (messages : List Envelope) (metadata : List Bytes) :
    FileLedger α × Block :=
  let block := nextBlock M fl.height fl.lastHash messages metadata
  (⟨writeBlock F fl.files block, fl.height + 1, fl.lastHash⟩, block)

def iterator (fl : FileLedger α) (startType : StartType) (specified : UInt64) :
    Iterator UInt64 × UInt64 :=
  match startType with
  | .oldest => (.cursor 0, 0)
  | .newest => (.cursor (fl.height - 1), fl.height - 1)
  | .specified => if specified > fl.height then (.notFound, 0) else (.cursor specified, specified)
  | .unknown _ => (.notFound, 0)

/-- `Next`, unless it has to wait. -/
def next (fl : FileLedger α) : Iterator UInt64 → Option (NextResult × Iterator UInt64)
  | .cursor c => (readBlock F fl.files c).map fun
    | some block => (.success block, .cursor (c + 1))
    | none => (.serviceUnavailable, .cursor c)
  | .notFound => some (.notFound, .notFound)

/-! ### The files of a chain -/

/-- The files of the blocks of a chain. -/
def filesOf (chain : List Block) : Directory (List α) := Directory.numbered (chain.map F.marshal)

variable {M F} {chain : List Block} {block : Block}

theorem readBlock_filesOf (h : chain.length ≤ 2 ^ 64) {i : ℕ} (hi : i < 2 ^ 64) :
    readBlock F (filesOf F chain) (UInt64.ofNat i) = chain[i]?.map some := by
  have hlen : (chain.map F.marshal).length ≤ 2 ^ 64 := by simpa using h
  rw [readBlock, filesOf, Directory.read_numbered hlen hi, List.getElem?_map, Option.map_map]
  congr 1
  funext block
  exact F.unmarshal_marshal block

theorem writeBlock_filesOf (h : chain.length < 2 ^ 64)
    (hnumber : block.header.number = UInt64.ofNat chain.length) :
    writeBlock F (filesOf F chain) block = filesOf F (chain ++ [block]) := by
  have hlen : (chain.map F.marshal).length < 2 ^ 64 := by simpa using h
  rw [writeBlock, filesOf, filesOf, map_append, map_singleton,
    Directory.numbered_concat hlen, hnumber, length_map]

theorem foldlM_count (n : ℕ) : ((List.range n).map UInt64.ofNat).foldlM
    (fun nextNumber number => if number ≠ nextNumber then none else some (nextNumber + 1))
    (0 : UInt64) = some (UInt64.ofNat n) := by
  induction n with
  | zero => rfl
  | succ _ ih =>
    rw [range_succ, map_append, foldlM_append, ih]
    simp [UInt64.ofNat_add]

theorem newChain_filesOf (h : chain.length < 2 ^ 64) : newChain M F (filesOf F chain) =
    some ⟨filesOf F chain, UInt64.ofNat chain.length,
      (chain.getLast?.map fun block => block.header.hash M).getD []⟩ := by
  have hlen : (chain.map F.marshal).length ≤ 2 ^ 64 := by simpa using h.le
  have hlisting : (filesOf F chain).listing = (List.range chain.length).map UInt64.ofNat := by
    rw [filesOf, Directory.listing_numbered hlen, length_map]
  have hcount := foldlM_count chain.length
  simp only [newChain, initializeBlockHeight, hlisting, hcount]
  obtain rfl | ⟨chain, block, rfl⟩ := chain.eq_nil_or_concat'
  · rfl
  · rw [length_append] at h
    have hheight : UInt64.ofNat (chain ++ [block]).length ≠ 0 := by
      rw [length_append]
      intro hzero
      exact absurd (Directory.ofNat_inj_of_lt h (by decide) hzero) (Nat.succ_ne_zero _)
    have hlast : UInt64.ofNat (chain ++ [block]).length - 1 = UInt64.ofNat chain.length := by
      rw [length_append, UInt64.ofNat_add]
      exact UInt64.add_sub_cancel _ _
    have hread : readBlock F (filesOf F (chain ++ [block])) (UInt64.ofNat chain.length) =
        some (some block) := by
      rw [readBlock_filesOf (by simp; omega) (by omega)]
      simp
    simp only [Option.bind_eq_bind, Option.bind_some, if_neg hheight, hlast, hread,
      List.getLast?_append]
    rfl

/-- The files are those of the chain, and its blocks are numbered. -/
structure Stores (F : BlockFile α) (fl : FileLedger α) (chain : List Block) : Prop where
  files : fl.files = filesOf F chain
  height : fl.height = UInt64.ofNat chain.length
  numbers : ∀ i block, chain[i]? = some block → block.header.number = UInt64.ofNat i

namespace Stores

variable {fl : FileLedger α}

theorem of_newChain : ∃ fl, newChain M F [] = some fl ∧ fl.Stores F [] :=
  ⟨⟨[], 0, []⟩, rfl, rfl, rfl, by simp⟩

theorem of_new (h : block.header.number = 0) : ∃ fl, new M F [] block = some fl ∧
    fl.Stores F [block] ∧ fl.lastHash = block.header.hash M := by
  have hfiles : writeBlock F (filesOf F []) block = filesOf F ([] ++ [block]) :=
    writeBlock_filesOf (by decide) h
  refine ⟨⟨writeBlock F [] block, 1, block.header.hash M⟩, rfl, ⟨hfiles, rfl, ?_⟩, rfl⟩
  have hnil : ∀ i block, ([] : List Block)[i]? = some block →
      block.header.number = UInt64.ofNat i := by simp
  exact numbers_concat hnil h

theorem readBlock (h : fl.Stores F chain) (hroom : chain.length ≤ 2 ^ 64) {i : ℕ}
    (hi : i < 2 ^ 64) :
    FileLedger.readBlock F fl.files (UInt64.ofNat i) = chain[i]?.map some := by
  rw [h.files, readBlock_filesOf hroom hi]

theorem append (h : fl.Stores F chain) (hroom : chain.length < 2 ^ 64) (messages : List Envelope)
    (metadata : List Bytes) : (fl.append M F messages metadata).1.Stores F
      (chain ++ [(fl.append M F messages metadata).2]) where
  files := by
    have hnumber := h.height
    rw [← writeBlock_filesOf hroom hnumber, ← h.files]
    rfl
  height := by
    rw [length_append, UInt64.ofNat_add, ← h.height]
    rfl
  numbers := numbers_concat h.numbers h.height

end Stores

end FileLedger

end Fabric.Orderer
