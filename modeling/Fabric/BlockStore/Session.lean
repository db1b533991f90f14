import Fabric.BlockStore.Reopen

/-!
# A session

A store is created, and blocks are added until the process ends. Whatever part of the calls
fails, the store serves the blocks of the others, as a list to which blocks are appended: by
number, by hash and in order to iterators, and their transactions by block and position.

The blocks must be smaller than 4 GiB: the offset of the trailer has four bytes.
-/

namespace Fabric.BlockStore

open Fabric.Common List Block2

variable {hash : Bytes → Bytes} {attrs : List IndexableAttr} {blocks : List SizedBlock2}
  {mgr mgr' : BlockfileMgr} {l : Layout} {b : SizedBlock2}

/-! ### Iterators -/

/-- The results of calls of `Next` that follow each other. -/
def BlocksItr.nexts (mgr : BlockfileMgr) : ℕ → BlocksItr → List NextResult
  | 0, _ => []
  | n + 1, itr => (itr.next mgr).1 :: nexts mgr n (itr.next mgr).2

/-- What `Next` comes to for a block number: the bytes of the block, or it waits. -/
def nextOf (blocks : List SizedBlock2) (blockNum : ℕ) : NextResult :=
  match blocks[blockNum - 1]? with
  | some b => .block (some b.bytes)
  | none => .waits

/-- The iterator is open and has come to a block number. -/
structure BlocksItr.At (l : Layout) (mgr : BlockfileMgr) (blockNum : ℕ)
    (itr : BlocksItr) : Prop where
  pos : 1 ≤ blockNum
  blockNumToRetrieve : itr.blockNumToRetrieve = blockNum
  maxBlockNumAvailable : itr.maxBlockNumAvailable ≤ l.blocks.length
  closeMarker : itr.closeMarker = false
  stream : ∀ stream, itr.stream = some stream → stream.endFileNum = -1 ∧
    Reads mgr.disk stream.currentFileStream (l.placed.drop (blockNum - 1))

section Iterators

variable {itr : BlocksItr} {blockNum : ℕ} {x : Placed}

section

variable (h : itr.At l mgr blockNum) (hholds : Holds hash l mgr) (hattr : .blockNum ∈ mgr.attrs)
include h hholds hattr

theorem BlocksItr.At.initStream (hx : l.placed[blockNum - 1]? = some x) :
    ∃ s, itr.initStream mgr = .ok ⟨s, -1⟩ ∧ Reads mgr.disk s (l.placed.drop (blockNum - 1)) := by
  unfold BlocksItr.initStream
  cases hstream : itr.stream with
  | some stream =>
    obtain ⟨hend, hreads⟩ := h.stream stream hstream
    refine ⟨stream.currentFileStream, ?_, hreads⟩
    rw [← hend]
  | none =>
    have hnum : itr.blockNumToRetrieve = blockNum - 1 + 1 := by
      rw [h.blockNumToRetrieve]
      have hpos := h.pos
      omega
    have hmem := mem_of_getElem? hx
    obtain ⟨front, back, hfile, -⟩ := Layout.exists_file hmem
    rw [← hholds.files] at hfile
    have hopen : newBlockStream mgr.disk x.flp.fileSuffixNum x.flp.offset (-1) = _ :=
      newBlockStream_eq hfile _
    refine ⟨⟨x.file, .start x.offset⟩, ?_, ?_⟩
    · rw [hnum, hholds.getBlockLocByBlockNum hattr hx]
      dsimp only
      rw [hopen]
    · exact Layout.reads_drop hholds.files hx

theorem BlocksItr.At.next : (itr.next mgr).1 = nextOf l.blocks blockNum ∧
      ((itr.next mgr).2.At l mgr (blockNum + 1) ∨
        (itr.next mgr).2 = itr ∧ l.blocks.length < blockNum) := by
  have hlast : mgr.cpInfo.lastBlockNumber = l.blocks.length := by
    rw [hholds.cpInfo]
    rfl
  have hpos := h.pos
  have hmax := h.maxBlockNumAvailable
  unfold BlocksItr.next
  rw [h.blockNumToRetrieve, hlast, h.closeMarker]
  by_cases hwait : l.blocks.length < blockNum
  · rw [if_pos ⟨by omega, hwait, rfl⟩, nextOf, List.getElem?_eq_none (by omega)]
    exact ⟨rfl, .inr ⟨rfl, hwait⟩⟩
  · obtain ⟨x, hx⟩ : ∃ x, l.placed[blockNum - 1]? = some x :=
      ⟨_, List.getElem?_eq_getElem (by rw [l.length_placed]; omega)⟩
    have hb : l.blocks[blockNum - 1]? = some x.block := by
      rw [← l.map_block_placed, List.getElem?_map, hx]
      rfl
    rw [if_neg (fun hc => hwait hc.2.1), nextOf, hb]
    generalize hmax' : (if itr.maxBlockNumAvailable < blockNum then l.blocks.length
      else itr.maxBlockNumAvailable) = max'
    have hle : max' ≤ l.blocks.length := by
      rw [← hmax']
      split_ifs <;> omega
    have hat : BlocksItr.At l mgr blockNum ⟨max', blockNum, itr.stream, false⟩ :=
      ⟨hpos, rfl, hle, rfl, h.stream⟩
    obtain ⟨s, hinit, hreads⟩ := hat.initStream hholds hattr hx
    rw [drop_of_getElem? hx] at hreads
    obtain ⟨s', hnext, hreads'⟩ := hreads.next (.inl (by decide : (-1) < 0))
    simp only [hinit, hnext]
    refine ⟨rfl, .inl ⟨by omega, rfl, hle, rfl, ?_⟩⟩
    rintro stream hstream
    cases hstream
    rw [Nat.sub_add_cancel hpos] at hreads'
    exact ⟨rfl, hreads'⟩

theorem BlocksItr.At.nexts (n : ℕ) :
    itr.nexts mgr n = (List.range n).map fun k => nextOf l.blocks (blockNum + k) := by
  induction n generalizing itr blockNum with
  | zero => rfl
  | succ _ ih =>
    obtain ⟨hresult, hnext⟩ := h.next hholds hattr
    rw [BlocksItr.nexts, hresult, range_succ_eq_map, map_cons, map_map]
    refine congrArg (List.cons _) ?_
    rcases hnext with hnext | ⟨hsame, hwait⟩
    · rw [ih hnext]
      refine map_congr_left fun k _ => ?_
      rw [Function.comp_apply, Nat.add_assoc, Nat.add_comm 1]
    · -- it waits, and the others do
      rw [hsame, ih h]
      refine map_congr_left fun k _ => ?_
      rw [Function.comp_apply, nextOf, nextOf, List.getElem?_eq_none (by omega),
        List.getElem?_eq_none (by omega)]

end

theorem at_newBlockItr (hholds : Holds hash l mgr) {startNum : ℕ} (hpos : 1 ≤ startNum) :
    (newBlockItr mgr startNum).At l mgr startNum := by
  refine ⟨hpos, rfl, ?_, rfl, ?_⟩
  · simp only [newBlockItr, hholds.cpInfo]
    exact le_rfl
  · intro stream hstream
    cases hstream

end Iterators

/-! ### What the store serves -/

/-- The store answers as the list of the blocks does, where it has an index. -/
structure Serves (hash : Bytes → Bytes) (blocks : List SizedBlock2)
    (mgr : BlockfileMgr) : Prop where
  info : mgr.bcInfo = chainInfo hash blocks
  height : mgr.bcInfo.height = blocks.length
  byNumber : .blockNum ∈ mgr.attrs → ∀ i, i + 1 < 2 ^ 64 →
    mgr.retrieveBlockByNumber (i + 1) = found (blocks[i]?.map SizedBlock2.block)
  byHash : .blockHash ∈ mgr.attrs → ∀ blockHash, mgr.retrieveBlockByHash blockHash =
    found ((blocks.reverse.find? fun b => hash b.bytes = blockHash).map SizedBlock2.block)
  byTxID : .txID ∈ mgr.attrs → ∀ i t, i + 1 < 2 ^ 64 →
    ∀ (τ : Type) (extractTransaction : Bytes → Option τ),
      mgr.retrieveTransactionByID extractTransaction (constructTxID (i + 1) t) =
        (found (blocks[i]?.bind fun b => b.block.transactions[t]?) >>= fun tx =>
          (extractTransaction tx).elim (.error .transaction) .ok)
  iterates : .blockNum ∈ mgr.attrs → ∀ startNum, 1 ≤ startNum → ∀ n,
    (newBlockItr mgr startNum).nexts mgr n =
      (List.range n).map fun k => nextOf blocks (startNum + k)
  oneFile : .blockNum ∈ mgr.attrs → ∀ i b, blocks[i]? = some b → ∃ (file : ℕ) (front back : Bytes),
      getBlockLocByBlockNum mgr.attrs mgr.db (i + 1) = .ok ⟨file, front.length, 0⟩ ∧
        mgr.disk.files[file]? = some (front ++ (frame b.bytes ++ back))
  size : ∃ file, mgr.disk.files[mgr.cpInfo.latestFileChunkSuffixNum]? = some file ∧
    file.length = mgr.cpInfo.latestFileChunksize

theorem Holds.serves (h : Holds hash l mgr) (htxs : HoldsTxs l mgr)
    (hsmall : ∀ b ∈ l.blocks, b.block.trailerOffset < 2 ^ 32) : Serves hash l.blocks mgr where
  info := h.bcInfo
  height := by rw [h.bcInfo, height_chainInfo]
  byNumber hattr _ hi := h.retrieveBlockByNumber hattr hsmall hi
  byHash hattr := h.retrieveBlockByHash hattr hsmall
  byTxID hattr _ _ hi _ := h.retrieveTransactionByID htxs hattr hi
  iterates hattr _ hpos n := (at_newBlockItr h hpos).nexts h hattr n
  oneFile hattr i b hb := by
    obtain ⟨x, hx, rfl⟩ := exists_placed hb
    obtain ⟨front, back, hfile, hoffset⟩ := Layout.exists_file (mem_of_getElem? hx)
    rw [← h.files] at hfile
    refine ⟨x.file, front, back, ?_, hfile⟩
    rw [h.getBlockLocByBlockNum hattr hx, Placed.flp, hoffset]
  size := by
    have hlength : l.front.length = (l.front.map chunkBytes).length := (length_map _).symm
    refine ⟨chunkBytes l.last, ?_, by rw [h.cpInfo]; rfl⟩
    rw [h.files, h.cpInfo, l.files_eq, Layout.checkpoint, hlength, List.getElem?_concat_length]

theorem Serves.retrieveBlockByHash (h : Serves hash blocks mgr) (hattr : .blockHash ∈ mgr.attrs)
    (hsmall : ∀ b ∈ blocks, b.block.trailerOffset < 2 ^ 32)
    (hcollision : ∀ b ∈ blocks, ∀ c ∈ blocks, hash b.bytes = hash c.bytes → b.bytes = c.bytes)
    (hb : b ∈ blocks) : mgr.retrieveBlockByHash (hash b.bytes) = .ok b.block := by
  have hsome : (blocks.reverse.find? fun c => hash c.bytes = hash b.bytes).isSome := by
    rw [List.find?_isSome]
    exact ⟨b, mem_reverse.mpr hb, by simp⟩
  obtain ⟨c, hfind⟩ := Option.isSome_iff_exists.mp hsome
  have hc := mem_reverse.mp (mem_of_find?_eq_some hfind)
  have hbytes := hcollision c hc b hb (by simpa using List.find?_some hfind)
  -- equal bytes are read back as equal blocks
  have hblock : c.block = b.block := by
    have hread := c.toBlock2_bytes (hsmall c hc)
    rw [hbytes, b.toBlock2_bytes (hsmall b hb)] at hread
    exact (Except.ok.inj hread).symm
  rw [h.byHash hattr, hfind, Option.map_some, hblock]
  rfl

/-! ### Sessions -/

/-- How much of the disk is used, by the bytes and the number of the files. -/
def Layout.used (l : Layout) : ℕ := (l.files.map List.length).sum + l.files.length

theorem Layout.used_add (l : Layout) (b : SizedBlock2) :
    (l.add b).used = l.used + (frame b.bytes).length := by
  simp only [used, files_add, l.files_eq, map_append, map_cons, sum_append, sum_cons, length_append,
    length_singleton]
  omega

theorem Layout.used_roll (l : Layout) : l.roll.used = l.used + 1 := by
  simp [used, l.files_roll, Nat.add_assoc]

/-- What blocks may use: each of them may begin a file. -/
def roomFor (blocks : List SizedBlock2) : ℕ := (blocks.map fun b => (frame b.bytes).length + 1).sum

/-- The manager holds some blocks more, which use no more than `room`. -/
structure Grows (hash : Bytes → Bytes) (l : Layout) (mgr : BlockfileMgr) (bs : List SizedBlock2)
    (room : ℕ) (l' : Layout) (mgr' : BlockfileMgr) : Prop where
  holds : Holds hash l' mgr'
  holdsTxs : HoldsTxs l' mgr'
  attrs : mgr'.attrs = mgr.attrs
  placed : l.placed <+: l'.placed
  blocks : l'.blocks = l.blocks ++ bs
  used : l'.used ≤ l.used + room

variable {bs : List SizedBlock2} {calls : List (SizedBlock2 × Option Fault)}

theorem Grows.trans {l₁ l₂ : Layout} {mgr₁ mgr₂ : BlockfileMgr} {bs' : List SizedBlock2}
    {room room' : ℕ} (h : Grows hash l mgr bs room l₁ mgr₁)
    (h' : Grows hash l₁ mgr₁ bs' room' l₂ mgr₂) :
    Grows hash l mgr (bs ++ bs') (room + room') l₂ mgr₂ where
  holds := h'.holds
  holdsTxs := h'.holdsTxs
  attrs := h'.attrs.trans h.attrs
  placed := h.placed.trans h'.placed
  blocks := by rw [h'.blocks, h.blocks, append_assoc]
  used := by
    have hused := h.used
    have hused' := h'.used
    omega

theorem addBlock_grows {fault : Option Fault} (h : Holds hash l mgr) (htxs : HoldsTxs l mgr) :
    Ends (addBlock hash b.block fault) mgr
      (fun _ mgr' => fault = none ∧ ∃ l', Grows hash l mgr [b] ((frame b.bytes).length + 1) l' mgr')
      (fun e mgr' => (e = .openWriterPanic → 2 ^ 63 ≤ l.used + 1) ∧
        (fault ≠ none ∨ 2 ^ 63 ≤ l.used + ((frame b.bytes).length + 1)) ∧
        ∃ l', Grows hash l mgr [] ((frame b.bytes).length + 1) l' mgr') := by
  have hroll : ∀ l', l' = l ∨ l' = l.roll →
      l'.placed = l.placed ∧ l'.blocks = l.blocks ∧ l'.used ≤ l.used + 1 := by
    rintro l' (rfl | rfl)
    · exact ⟨rfl, rfl, Nat.le_succ _⟩
    · exact ⟨l.placed_roll, l.blocks_roll, l.used_roll.le⟩
  refine (addBlock_ends h).mono ?_ ?_
  · rintro _ mgr' ⟨hfault, l', hl', hholds, hattrs, htxs'⟩
    obtain ⟨hplaced, hblocks, hused⟩ := hroll l' hl'
    refine ⟨hfault, l'.add b, hholds, htxs' htxs, hattrs, ?_, ?_, ?_⟩
    · rw [l'.placed_add, hplaced]
      exact prefix_append _ _
    · rw [l'.blocks_add, hblocks]
    · rw [l'.used_add]
      omega
  · rintro e mgr' ⟨hpanic, hcause, l', hl', hholds, hattrs, htxs'⟩
    obtain ⟨hplaced, hblocks, hused⟩ := hroll l' hl'
    unfold Disk.Full at hpanic hcause
    rw [h.files] at hpanic hcause
    refine ⟨hpanic, hcause, l', hholds, htxs' htxs, hattrs, ?_, ?_, by omega⟩
    · rw [hplaced]
    · rw [hblocks, append_nil]

/-- Add blocks one after the other. -/
def addBlocks (hash : Bytes → Bytes) : List SizedBlock2 → MgrM Unit
  | [] => pure ()
  | b :: bs => do
    addBlock hash b.block none
    addBlocks hash bs

theorem addBlocks_ends (h : Holds hash l mgr) (htxs : HoldsTxs l mgr) :
    Ends (addBlocks hash bs) mgr (fun _ mgr' => ∃ l', Grows hash l mgr bs (roomFor bs) l' mgr')
      (fun _ _ => 2 ^ 63 ≤ l.used + roomFor bs) := by
  induction bs generalizing l mgr with
  | nil => exact ⟨l, h, htxs, rfl, prefix_rfl, (append_nil _).symm, le_rfl⟩
  | cons b bs ih =>
    have hroom : roomFor (b :: bs) = (frame b.bytes).length + 1 + roomFor bs := sum_cons
    unfold addBlocks
    rw [ends_bind]
    refine (addBlock_grows h htxs).mono ?_ ?_
    · rintro _ mgr₁ ⟨-, l₁, hadd⟩
      have hused := hadd.used
      refine (ih hadd.holds hadd.holdsTxs).mono ?_ fun _ _ hfull => by omega
      rintro _ mgr₂ ⟨l₂, hadds⟩
      exact ⟨l₂, hadd.trans hadds⟩
    · rintro e mgr₁ ⟨-, hcause, -⟩
      have hfull := hcause.resolve_left (fun hfault => hfault rfl)
      omega

/-- Add blocks, some of which may not be written. The blocks of the other calls are returned. -/
def addCalls (hash : Bytes → Bytes) : List (SizedBlock2 × Option Fault) → BlockfileMgr →
    Option (List SizedBlock2 × BlockfileMgr)
  | [], mgr => some ([], mgr)
  | (b, fault) :: calls, mgr =>
    match (addBlock hash b.block fault).run mgr with
    | .ok _ mgr' => (addCalls hash calls mgr').map fun r => (b :: r.1, r.2)
    | .error .openWriterPanic _ => none
    | .error _ mgr' => addCalls hash calls mgr'

theorem addCalls_grows (h : Holds hash l mgr) (htxs : HoldsTxs l mgr)
    (hcalls : addCalls hash calls mgr = some (bs, mgr')) : bs.Sublist (calls.map Prod.fst) ∧
      ∃ l', Grows hash l mgr bs (roomFor (calls.map Prod.fst)) l' mgr' := by
  induction calls generalizing l mgr bs with
  | nil =>
    cases hcalls
    exact ⟨.refl _, l, h, htxs, rfl, prefix_rfl, (append_nil _).symm, le_rfl⟩
  | cons call _ ih =>
    obtain ⟨b, fault⟩ := call
    have hadd : Ends (addBlock hash b.block fault) mgr _ _ := addBlock_grows h htxs
    unfold addCalls at hcalls
    split at hcalls
    · rename_i mgr₁ hrun
      obtain ⟨⟨bs', mgr₂⟩, hrest, hresult⟩ := Option.map_eq_some_iff.mp hcalls
      cases hresult
      obtain ⟨-, l₁, hgrows⟩ := hadd.of_run_eq_ok hrun
      obtain ⟨hsub, l₂, hgrows'⟩ := ih hgrows.holds hgrows.holdsTxs hrest
      exact ⟨hsub.cons_cons _, l₂, hgrows.trans hgrows'⟩
    · cases hcalls
    · rename_i mgr₁ _ hrun
      obtain ⟨-, -, l₁, hgrows⟩ := hadd.of_run_eq_error hrun
      obtain ⟨hsub, l₂, hgrows'⟩ := ih hgrows.holds hgrows.holdsTxs hcalls
      exact ⟨hsub.cons _, l₂, hgrows.trans hgrows'⟩

theorem exists_addCalls (h : Holds hash l mgr) (htxs : HoldsTxs l mgr)
    (hroom : l.used + roomFor (calls.map Prod.fst) < 2 ^ 63) :
    ∃ mgr', addCalls hash calls mgr =
      some ((calls.filter fun call => call.2.isNone).map Prod.fst, mgr') := by
  induction calls generalizing l mgr with
  | nil => exact ⟨mgr, rfl⟩
  | cons call calls ih =>
    obtain ⟨b, fault⟩ := call
    have hcons : roomFor (((b, fault) :: calls).map Prod.fst) =
      (frame b.bytes).length + 1 + roomFor (calls.map Prod.fst) := sum_cons
    have hadd : Ends (addBlock hash b.block fault) mgr _ _ := addBlock_grows h htxs
    unfold addCalls
    cases hrun : (addBlock hash b.block fault).run mgr with
    | ok =>
      obtain ⟨rfl, l₁, hgrows⟩ := hadd.of_run_eq_ok hrun
      have hused := hgrows.used
      obtain ⟨mgr', hrest⟩ := ih hgrows.holds hgrows.holdsTxs (by omega)
      refine ⟨mgr', ?_⟩
      dsimp only
      rw [hrest]
      rfl
    | error e =>
      obtain ⟨hpanic, hcause, l₁, hgrows⟩ := hadd.of_run_eq_error hrun
      have hfault := hcause.resolve_right (by omega)
      have hused := hgrows.used
      obtain ⟨mgr', hrest⟩ := ih hgrows.holds hgrows.holdsTxs (by omega)
      have hsome : fault.isNone = false := by
        cases fault with
        | none => exact absurd rfl hfault
        | some => rfl
      refine ⟨mgr', ?_⟩
      cases e with
      | openWriterPanic =>
        have hfull := hpanic rfl
        omega
      | serialize | append | save => simpa [hsome] using hrest

section Sessions

variable {maxBlockfileSize : ℤ}

/-- A store serves the blocks that were added to it, as long as the disk has room for them. -/
theorem serves_addBlocks {bs : List SizedBlock2}
    (hcreate : newBlockfileMgr hash maxBlockfileSize attrs .empty .empty = .ok mgr)
    (hattrs : ∀ attr, attr ∈ attrs) (hsmall : ∀ b ∈ bs, b.block.trailerOffset < 2 ^ 32)
    (hcollision : ∀ b ∈ bs, ∀ c ∈ bs, hash b.bytes = hash c.bytes → b.bytes = c.bytes) :
    (1 + roomFor bs < 2 ^ 63 → ∃ mgr', (addBlocks hash bs).run mgr = .ok () mgr') ∧
      ∀ mgr', (addBlocks hash bs).run mgr = .ok () mgr' → Serves hash bs mgr' ∧
        ∀ b ∈ bs, mgr'.retrieveBlockByHash (hash b.bytes) = .ok b.block := by
  obtain ⟨hholds, htxs, rfl⟩ := holds_create hcreate
  have hadds : Ends (addBlocks hash bs) mgr _ _ := addBlocks_ends hholds htxs
  constructor
  · intro hroom
    have hused : (Layout.used ⟨[], []⟩) = 1 := rfl
    obtain ⟨_, mgr', hrun, -⟩ :=
      (hadds.mono (fun _ _ => id) fun _ _ hfull => by omega).exists_run_eq_ok
    exact ⟨mgr', hrun⟩
  · intro mgr' hrun
    obtain ⟨l', hgrows⟩ := hadds.of_run_eq_ok hrun
    have hblocks := hgrows.blocks
    have hserves := hgrows.holds.serves hgrows.holdsTxs (by rwa [hblocks])
    have hattr : .blockHash ∈ mgr'.attrs := by
      rw [hgrows.attrs]
      exact hattrs _
    rw [hblocks] at hserves
    exact ⟨hserves, fun b hb => hserves.retrieveBlockByHash hattr hsmall hcollision hb⟩

/-- Calls that fail leave no trace: the store serves the blocks of the others. -/
theorem serves_addCalls {calls : List (SizedBlock2 × Option Fault)}
    (hcreate : newBlockfileMgr hash maxBlockfileSize attrs .empty .empty = .ok mgr)
    (hsmall : ∀ call ∈ calls, call.1.block.trailerOffset < 2 ^ 32) :
    (1 + roomFor (calls.map Prod.fst) < 2 ^ 63 → ∃ mgr', addCalls hash calls mgr =
      some ((calls.filter fun call => call.2.isNone).map Prod.fst, mgr')) ∧
      ∀ bs mgr', addCalls hash calls mgr = some (bs, mgr') → Serves hash bs mgr' := by
  obtain ⟨hholds, htxs, rfl⟩ := holds_create hcreate
  constructor
  · intro hroom
    exact exists_addCalls hholds htxs hroom
  · intro bs mgr' hcalls
    obtain ⟨hsub, l', hgrows⟩ := addCalls_grows hholds htxs hcalls
    have hblocks := hgrows.blocks
    have hserves := hgrows.holds.serves hgrows.holdsTxs (by
      intro b hb
      rw [hblocks] at hb
      obtain ⟨call, hcall, rfl⟩ := mem_map.mp (hsub.subset hb)
      exact hsmall call hcall)
    rwa [hblocks] at hserves

end Sessions

/-! ### Two blocks -/

def allAttrs : List IndexableAttr := [.blockNum, .blockHash, .txID]

theorem mem_allAttrs (attr : IndexableAttr) : attr ∈ allAttrs := by
  cases attr <;> decide

theorem serves_txBlocks : ∃ mgr mgr', newBlockfileMgr id 10 allAttrs .empty .empty = .ok mgr ∧
    (addBlocks id [txBlock, txBlock]).run mgr = .ok () mgr' ∧
      Serves id [txBlock, txBlock] mgr' := by
  obtain ⟨mgr, hcreate⟩ := exists_create id 10 allAttrs
  have hsmall : ∀ b ∈ [txBlock, txBlock], b.block.trailerOffset < 2 ^ 32 := by decide +kernel
  have hserves := serves_addBlocks hcreate mem_allAttrs hsmall fun _ _ _ _ heq => heq
  obtain ⟨mgr', hrun⟩ := hserves.1 (by decide +kernel)
  exact ⟨mgr, mgr', hcreate, hrun, (hserves.2 mgr' hrun).1⟩

/-- The first block is written when saving fails, and of the third one some bytes are written. -/
theorem serves_failed : ∃ mgr mgr', newBlockfileMgr id 10 allAttrs .empty .empty = .ok mgr ∧
    addCalls id [(txBlock, some .saveCheckpoint), (txBlock, none), (txBlock, some (.appendBlock 3))]
      mgr = some ([txBlock], mgr') ∧ Serves id [txBlock] mgr' := by
  obtain ⟨mgr, hcreate⟩ := exists_create id 10 allAttrs
  have hsmall : ∀ call ∈ [(txBlock, some Fault.saveCheckpoint), (txBlock, none),
      (txBlock, some (.appendBlock 3))], call.1.block.trailerOffset < 2 ^ 32 := by decide +kernel
  have hserves := serves_addCalls hcreate hsmall
  obtain ⟨mgr', hcalls⟩ := hserves.1 (by decide +kernel)
  exact ⟨mgr, mgr', hcreate, hcalls, hserves.2 _ mgr' hcalls⟩

/-! ### A block of 4 GiB -/

theorem bytes_zeros (n : ℕ) : bytes ⟨[], [List.replicate n 0]⟩ =
    encodeVarint 0 ++ (List.replicate n 0 ++ [1, 1] ++ intToBytes ((n + 1) % 2 ^ 32)) := by
  have hraw : encodeRawBytes [] = encodeVarint 0 := append_nil _
  have hzero : encodeVarint 0 = [0] := encodeVarint_of_lt (by decide)
  have hone : encodeVarint 1 = [1] := encodeVarint_of_lt (by decide)
  simp [bytes, body, trailer, txOffsets, trailerOffset, hraw, hzero, hone, offsetsFrom]

def zeroBlock (n : ℕ) (h : n < 2 ^ 40) : SizedBlock2 where
  block := ⟨[], [List.replicate n 0]⟩
  fits := by
    have hzero : encodeVarint 0 = [0] := encodeVarint_of_lt (by decide)
    rw [bytes_zeros, hzero]
    simp
    omega

theorem toBlock2_zeroBlock {n : ℕ} (h : n < 2 ^ 40) (hmod : (n + 1) % 2 ^ 32 = 0) :
    toBlock2 (newSerBlock2 (zeroBlock n h).bytes) = .ok ⟨[], []⟩ := by
  have htrailer : Decodes decodeTrailer (encodeVarint 0) [] := by
    rw [← append_nil (encodeVarint 0)]
    exact (decodes_encodeVarint (by decide)).bind (Decodes.pure _)
  have hoffset : (zeroBlock n h).block.trailerOffset % 2 ^ 32 = 0 := by
    have hzero : encodeVarint 0 = [0] := encodeVarint_of_lt (by decide)
    rw [← hmod]
    simp [zeroBlock, trailerOffset, body, encodeRawBytes, hzero]
  have hextract : extractTxOffsets (zeroBlock n h).bytes = .ok [0] := by
    have hlen : (zeroBlock n h).bytes.length = _ := (zeroBlock n h).block.length_bytes
    have hbytes : (zeroBlock n h).bytes = _ := bytes_zeros n
    rw [extractTxOffsets, if_neg (by omega), drop_bytes, hoffset]
    dsimp only
    rw [bytesToInt_intToBytes (by decide), drop_zero, hbytes, htrailer]
    rfl
  rw [toBlock2, newSerBlock2, SizedBlock2.extractPreviousBlockHash_bytes, hextract]
  rfl

/-- The number of bytes before the trailer of a block is `2 ^ 32`. -/
def hugeBlock : SizedBlock2 := zeroBlock (2 ^ 32 - 1) (by decide)

theorem not_serves_hugeBlock (hholds : Holds id l mgr) (hattr : .blockNum ∈ mgr.attrs)
    (hblocks : l.blocks = [hugeBlock]) : ¬ Serves id [hugeBlock] mgr := by
  intro hserves
  have hb : l.blocks[0]? = some hugeBlock := by rw [hblocks, List.getElem?_cons_zero]
  obtain ⟨x, hx, hblock⟩ := Holds.exists_placed hb
  have hread : toBlock2 (newSerBlock2 x.block.bytes) = .ok ⟨[], []⟩ := by
    rw [hblock]
    exact toBlock2_zeroBlock (by decide) (by decide)
  have hone := hserves.byNumber hattr 0 (by decide)
  rw [BlockfileMgr.retrieveBlockByNumber, hholds.getBlockLocByBlockNum hattr hx,
    hholds.fetchBlock (mem_of_getElem? hx) hread] at hone
  have htxs := congrArg transactions (Except.ok.inj hone)
  cases htxs

theorem roomFor_lt (b : SizedBlock2) : roomFor [b] < 2 ^ 57 := by
  have hroom : roomFor [b] = (frame b.bytes).length + 1 + 0 := sum_cons
  have hframe := length_frame b.bytes
  have hhead : (encodeVarint b.bytes.length).length ≤ 8 := length_encodeVarint_le_headSize b.fits
  have hfits := b.fits
  simp only [SizedBlock2.bytes] at *
  omega

/-- The block is added, and not returned. -/
theorem not_serves_added : ∃ mgr mgr', newBlockfileMgr id 10 allAttrs .empty .empty = .ok mgr ∧
    (addBlocks id [hugeBlock]).run mgr = .ok () mgr' ∧ ¬ Serves id [hugeBlock] mgr' := by
  obtain ⟨mgr, hcreate⟩ := exists_create id 10 allAttrs
  obtain ⟨hholds, htxs, hattrs⟩ := holds_create hcreate
  have hroom := roomFor_lt hugeBlock
  have hused : (Layout.used ⟨[], []⟩) = 1 := rfl
  have hadds : Ends (addBlocks id [hugeBlock]) mgr _ _ := addBlocks_ends hholds htxs
  obtain ⟨_, mgr', hrun, l', hgrows⟩ :=
    (hadds.mono (fun _ _ => id) fun _ _ hfull => by omega).exists_run_eq_ok
  have hattr : .blockNum ∈ mgr'.attrs := by
    rw [hgrows.attrs, hattrs]
    exact mem_allAttrs _
  exact ⟨mgr, mgr', hcreate, hrun, not_serves_hugeBlock hgrows.holds hattr hgrows.blocks⟩

theorem addCalls_again (h : Holds id l mgr) (htxs : HoldsTxs l mgr) (b : SizedBlock2)
    (hroom : l.used ≤ 1) : ∃ mgr', addCalls id [(b, some .saveCheckpoint), (b, none)] mgr =
      some ([b], mgr') := by
  have hlt := roomFor_lt b
  have htwice : roomFor [b, b] = roomFor [b] + roomFor [b] := by simp [roomFor]
  exact exists_addCalls h htxs (by simp only [map_cons, map_nil]; omega)

/-- The block is not written by the first call, is added by the second one, and not returned. -/
theorem not_serves_failed : ∃ mgr mgr', newBlockfileMgr id 10 allAttrs .empty .empty = .ok mgr ∧
    addCalls id [(hugeBlock, some .saveCheckpoint), (hugeBlock, none)] mgr =
      some ([hugeBlock], mgr') ∧ ¬ Serves id [hugeBlock] mgr' := by
  obtain ⟨mgr, hcreate⟩ := exists_create id 10 allAttrs
  obtain ⟨hholds, htxs, hattrs⟩ := holds_create hcreate
  obtain ⟨mgr', hcalls⟩ := addCalls_again hholds htxs hugeBlock le_rfl
  obtain ⟨-, l', hgrows⟩ := addCalls_grows hholds htxs hcalls
  have hattr : .blockNum ∈ mgr'.attrs := by
    rw [hgrows.attrs, hattrs]
    exact mem_allAttrs _
  exact ⟨mgr, mgr', hcreate, hcalls, not_serves_hugeBlock hgrows.holds hattr hgrows.blocks⟩

end Fabric.BlockStore
