import Fabric.BlockStore.Index
import Fabric.Common.BufferedReader
import Fabric.Common.Frames

/-!
# Block files and streams

`blockfile_rw.go` and `block_stream.go`: blocks are appended to files that are numbered one
after the other, and read back by streams, from one file or through the files that follow.
-/

namespace Fabric.BlockStore

open Fabric.Common List

/-! ### Files -/

/-- The files in the order of their numbers. Their sizes and numbers are 63-bit integers, on
the whole disk. -/
structure Disk where
  files : List Bytes
  fits : (files.map List.length).sum + files.length < 2 ^ 63

theorem sum_length_modify_le {c : ℕ} {f : Bytes → Bytes} (hf : ∀ b, (f b).length ≤ b.length + c)
    (files : List Bytes) (n : ℕ) :
    ((files.modify n f).map List.length).sum ≤ (files.map List.length).sum + c := by
  induction files generalizing n with
  | nil => simp
  | cons b _ ih =>
    cases n with
    | zero =>
      have hb := hf b
      simp only [modify_zero_cons, map_cons, sum_cons]
      omega
    | succ n =>
      have hn := ih n
      simp only [modify_succ_cons, map_cons, sum_cons]
      omega

namespace Disk

def empty : Disk := ⟨[], by decide⟩

/-- The file of a number, which is an `int`. -/
def file? (disk : Disk) (n : ℤ) : Option Bytes := if 0 ≤ n then disk.files[n.toNat]? else none

/-- Open a file for writing. A new file is the next one, and there may be no room for it. -/
def openWriter (disk : Disk) (n : ℕ) : Option Disk :=
  if n < disk.files.length then some disk
  else if h : (disk.files.map List.length).sum + (disk.files.length + 1) < 2 ^ 63 then
    some ⟨disk.files ++ [[]], by simpa using h⟩
  else none

/-- Append bytes to a file, if there is room. -/
def append (disk : Disk) (n : ℕ) (b : Bytes) : Option Disk :=
  if h : (disk.files.map List.length).sum + disk.files.length + b.length < 2 ^ 63 then
    some ⟨disk.files.modify n (· ++ b), by
      have hle := sum_length_modify_le (c := b.length) (f := (· ++ b)) (by simp) disk.files n
      rw [length_modify]
      omega⟩
  else none

/-- Cut a file to a size. -/
def truncateFile (disk : Disk) (n targetSize : ℕ) : Disk :=
  ⟨disk.files.modify n (·.take targetSize), by
    have hle := sum_length_modify_le (c := 0) (f := (·.take targetSize)) (by simp) disk.files n
    have hfits := disk.fits
    rw [length_modify]
    omega⟩

/-- There is no room for so many bytes more. -/
def Full (disk : Disk) (n : ℕ) : Prop :=
  2 ^ 63 ≤ (disk.files.map List.length).sum + disk.files.length + n

variable {disk disk' : Disk} {n : ℕ} {b : Bytes}

theorem ext_files (h : disk.files = disk'.files) : disk = disk' := by
  cases disk
  cases disk'
  cases h
  rfl

theorem files_openWriter (h : disk.openWriter disk.files.length = some disk') :
    disk'.files = disk.files ++ [[]] := by
  rw [openWriter, if_neg (lt_irrefl _)] at h
  split at h
  · cases h
    rfl
  · cases h

theorem full_of_openWriter (h : disk.openWriter n = none) : disk.Full 1 := by
  unfold openWriter at h
  split at h
  · cases h
  · split at h
    · cases h
    · unfold Full
      omega

theorem files_append (h : disk.append n b = some disk') :
    disk'.files = disk.files.modify n (· ++ b) := by
  unfold append at h
  split at h
  · cases h
    rfl
  · cases h

theorem full_of_append (h : disk.append n b = none) : disk.Full b.length := by
  unfold append at h
  split at h
  · cases h
  · unfold Full
    omega

@[simp] theorem files_truncateFile (disk : Disk) (n targetSize : ℕ) :
    (disk.truncateFile n targetSize).files = disk.files.modify n (·.take targetSize) := rfl

end Disk

/-! ### Streams -/

inductive StreamError
  | noSuchFile
  | negativeOffset
  | unexpectedEndOfBlockfile
  | eof
  | varintPanic
deriving DecidableEq

/-- A stream of the blocks of one file. -/
structure BlockfileStream where
  fileNum : ℕ
  reader : BufReader UInt8
deriving DecidableEq

structure BlockPlacementInfo where
  fileNum : ℕ
  blockStartOffset : ℕ
  blockBytesOffset : ℕ
deriving DecidableEq

def newBlockfileStream (disk : Disk) (fileNum startOffset : ℤ) :
    Except StreamError BlockfileStream :=
  match disk.file? fileNum with
  | none => .error .noSuchFile
  | some _ =>
    if startOffset < 0 then .error .negativeOffset
    else .ok ⟨fileNum.toNat, .start startOffset.toNat⟩

namespace BlockfileStream

/-- The offset behind the blocks that were read. -/
def currentOffset (s : BlockfileStream) : ℕ := s.reader.position

/-- The next block and its place, or nothing at the end of the file. -/
def nextBlockBytesAndPlacementInfo (disk : Disk) (s : BlockfileStream) :
    Except StreamError (Option (Bytes × BlockPlacementInfo) × BlockfileStream) :=
  let file := disk.files.getD s.fileNum []
  if s.currentOffset = file.length then .ok (none, s)
  else if file.length < s.currentOffset then .error .negativeOffset
  else
    let remainingBytes := file.length - s.currentOffset
    match s.reader.peek file (min headSize remainingBytes) with
    | (_, none) => .error .eof
    | (reader, some lenBytes) =>
      match readHead remainingBytes lenBytes with
      | .torn => .error .unexpectedEndOfBlockfile
      | .malformed => .error .varintPanic
      | .frame n length =>
        match (reader.discard n).readFull file length with
        | (_, none) => .error .eof
        | (reader, some blockBytes) =>
          .ok (some (blockBytes, ⟨s.fileNum, s.currentOffset, s.currentOffset + n⟩),
            { s with reader })

end BlockfileStream

/-- A stream of the blocks of several files, up to the last one or without an end. -/
structure BlockStream where
  currentFileStream : BlockfileStream
  endFileNum : ℤ
deriving DecidableEq

def newBlockStream (disk : Disk) (startFileNum startOffset endFileNum : ℤ) :
    Except StreamError BlockStream := do
  let currentFileStream ← newBlockfileStream disk startFileNum startOffset
  pure ⟨currentFileStream, endFileNum⟩

namespace BlockStream

/-- The next block, where so many files follow the current one. -/
def nextFrom (disk : Disk) : ℕ → BlockStream →
    Except StreamError (Option (Bytes × BlockPlacementInfo) × BlockStream)
  | later, s => do
    let (block, currentFileStream) ← s.currentFileStream.nextBlockBytesAndPlacementInfo disk
    let s := { s with currentFileStream }
    if block = none ∧ ((currentFileStream.fileNum : ℤ) < s.endFileNum ∨ s.endFileNum < 0) then
      match later with
      | 0 => .error .noSuchFile
      | later + 1 =>
        nextFrom disk later
          { s with currentFileStream := ⟨currentFileStream.fileNum + 1, .start 0⟩ }
    else pure (block, s)

def nextBlockBytesAndPlacementInfo (disk : Disk) (s : BlockStream) :
    Except StreamError (Option (Bytes × BlockPlacementInfo) × BlockStream) :=
  s.nextFrom disk (disk.files.length - 1 - s.currentFileStream.fileNum)

end BlockStream

/-- The loop of `scanForLastCompleteBlock`, which counts the blocks. Every block takes a byte,
so that the size of the file bounds their number. -/
def scanLoop (disk : Disk) : ℕ → BlockfileStream → ℕ → Except StreamError (ℕ × ℕ)
  | 0, s, numBlocks => .ok (s.currentOffset, numBlocks)
  | fuel + 1, s, numBlocks =>
    match s.nextBlockBytesAndPlacementInfo disk with
    | .ok (some _, s) => scanLoop disk fuel s (numBlocks + 1)
    | .ok (none, _) => .ok (s.currentOffset, numBlocks)
    | .error .unexpectedEndOfBlockfile => .ok (s.currentOffset, numBlocks)
    | .error e => .error e

/-- Where the last whole block ends, and how many there are from an offset on. -/
def scanForLastCompleteBlock (disk : Disk) (fileNum startingOffset : ℕ) :
    Except StreamError (ℕ × ℕ) := do
  let s ← newBlockfileStream disk fileNum startingOffset
  scanLoop disk ((disk.files.getD fileNum []).length + 1) s 0

/-! ### The next block of a file -/

namespace BlockfileStream

variable {disk : Disk} {s : BlockfileStream} {file b rest p : Bytes}

/-- What the reader of a stream holds is in its file. -/
def Coherent (disk : Disk) (s : BlockfileStream) : Prop :=
  s.reader.Coherent (disk.files.getD s.fileNum [])

section

variable (hfile : disk.files[s.fileNum]? = some file)
include hfile

theorem getD_file : disk.files.getD s.fileNum [] = file := by
  rw [getD_eq_getElem?_getD, hfile, Option.getD_some]

theorem next_end (hoffset : s.currentOffset = file.length) :
    s.nextBlockBytesAndPlacementInfo disk = .ok (none, s) := by
  rw [nextBlockBytesAndPlacementInfo, getD_file hfile]
  exact if_pos hoffset

theorem next_frame (hcoherent : s.Coherent disk)
    (hdrop : file.drop s.currentOffset = frame b ++ rest) (hb : b.length < 2 ^ 56) :
    ∃ s' : BlockfileStream, s.nextBlockBytesAndPlacementInfo disk =
        .ok (some (b, ⟨s.fileNum, s.currentOffset,
          s.currentOffset + (encodeVarint b.length).length⟩), s') ∧
      s'.fileNum = s.fileNum ∧ s'.Coherent disk ∧
      s'.currentOffset = s.currentOffset + (frame b).length := by
  have hlen := congrArg List.length hdrop
  have hpos := length_frame_pos b
  have hframe := length_frame b
  rw [length_drop, length_append] at hlen
  rw [Coherent, getD_file hfile] at hcoherent
  have hpeek : ∃ r', s.reader.peek file (min headSize (file.length - s.currentOffset)) = _ ∧ _ :=
    hcoherent.peek_eq ((Nat.min_le_left _ _).trans (by decide))
      (by simp only [currentOffset] at *; omega)
  obtain ⟨r, hpeek, hr, hposition, -⟩ := hpeek
  -- what is peeked at holds the whole length
  have hhead : readHead (file.length - s.currentOffset) ((file.drop s.reader.position).take
      (min headSize (file.length - s.currentOffset))) =
        .frame (encodeVarint b.length).length b.length := by
    rw [show file.drop s.reader.position = frame b ++ rest from hdrop]
    exact readHead_frame hb (by omega)
  have hread : ∃ r', (r.discard (encodeVarint b.length).length).readFull file b.length = _ ∧ _ :=
    (hr.discard _).readFull_eq (by
      simp only [BufReader.discard, currentOffset] at *
      omega)
  obtain ⟨r', hread, hr', hposition'⟩ := hread
  have hbytes : (file.drop (r.discard (encodeVarint b.length).length).position).take b.length =
      b := by
    have hposition'' : (r.discard (encodeVarint b.length).length).position =
        s.currentOffset + (encodeVarint b.length).length := by
      rw [BufReader.discard, hposition]
      rfl
    rw [hposition'', ← drop_drop, hdrop, frame, append_assoc, drop_left, take_left]
  refine ⟨⟨s.fileNum, r'⟩, ?_, rfl, ?_, ?_⟩
  · rw [nextBlockBytesAndPlacementInfo, getD_file hfile]
    dsimp only
    rw [if_neg (by omega), if_neg (by omega), hpeek]
    dsimp only
    rw [hhead]
    dsimp only
    rw [hread, hbytes]
  · change r'.Coherent (disk.files.getD s.fileNum [])
    rw [getD_file hfile]
    exact hr'
  · rw [currentOffset, hposition', BufReader.discard]
    simp only [currentOffset]
    omega

theorem next_torn (hcoherent : s.Coherent disk)
    (hoffset : s.currentOffset ≤ file.length) (hdrop : file.drop s.currentOffset = p)
    (hp : p <+: frame b) (hne : p ≠ frame b) (hnil : p ≠ []) (hb : b.length < 2 ^ 56) :
    s.nextBlockBytesAndPlacementInfo disk = .error .unexpectedEndOfBlockfile := by
  have hlen := congrArg List.length hdrop
  have hpos := length_pos_iff.mpr hnil
  rw [length_drop] at hlen
  rw [Coherent, getD_file hfile] at hcoherent
  have hpeek : ∃ r', s.reader.peek file (min headSize (file.length - s.currentOffset)) = _ ∧ _ :=
    hcoherent.peek_eq ((Nat.min_le_left _ _).trans (by decide))
      (by simp only [currentOffset] at *; omega)
  obtain ⟨r, hpeek, -⟩ := hpeek
  rw [nextBlockBytesAndPlacementInfo, getD_file hfile]
  dsimp only
  rw [if_neg (by omega), if_neg (by omega), hpeek]
  dsimp only
  rw [show file.drop s.reader.position = p from hdrop, hlen, readHead_torn hb hp hne]

end

end BlockfileStream

/-! ### Scanning a file -/

/-- A beginning of a block, such as a writer leaves that stops in the middle. -/
def Torn (p : Bytes) : Prop := ∃ b : Bytes, b.length < 2 ^ 56 ∧ p <+: frame b ∧ p ≠ frame b

theorem torn_nil : Torn [] := by
  refine ⟨[], by decide, nil_prefix, fun h => ?_⟩
  have hpos := length_frame_pos []
  rw [← h] at hpos
  exact lt_irrefl 0 hpos

variable {disk : Disk} {s : BlockfileStream} {file p : Bytes} {bs : List Bytes}

theorem scanLoop_eq (hfile : disk.files[s.fileNum]? = some file) (hcoherent : s.Coherent disk)
    (hoffset : s.currentOffset ≤ file.length)
    (hdrop : file.drop s.currentOffset = frames bs ++ p) (hbs : ∀ b ∈ bs, b.length < 2 ^ 56)
    (hp : Torn p) {fuel : ℕ} (hfuel : bs.length < fuel) (numBlocks : ℕ) :
    scanLoop disk fuel s numBlocks =
      .ok (s.currentOffset + (frames bs).length, numBlocks + bs.length) := by
  induction bs generalizing s fuel numBlocks with
  | nil =>
    obtain ⟨fuel, rfl⟩ := Nat.exists_eq_succ_of_ne_zero (Nat.ne_of_gt hfuel)
    by_cases hnil : p = []
    · -- the file ends behind a block
      have hend : s.currentOffset = file.length := by
        have hlen := congrArg List.length hdrop
        rw [hnil, length_drop] at hlen
        simp only [frames_nil, append_nil, length_nil] at hlen
        omega
      rw [scanLoop, s.next_end hfile hend]
      rfl
    · obtain ⟨b, hb, hprefix, hne⟩ := hp
      rw [scanLoop, s.next_torn hfile hcoherent hoffset hdrop hprefix hne hnil hb]
      rfl
  | cons b bs ih =>
    obtain ⟨fuel, rfl⟩ := Nat.exists_eq_succ_of_ne_zero (Nat.ne_of_gt (Nat.zero_lt_of_lt hfuel))
    rw [frames_cons, append_assoc] at hdrop
    obtain ⟨s', hnext, hfileNum, hcoherent', hoffset'⟩ :=
      s.next_frame hfile hcoherent hdrop (hbs b mem_cons_self)
    have hdrop' : file.drop s'.currentOffset = frames bs ++ p := by
      rw [hoffset', ← drop_drop, hdrop, drop_left]
    have hle : s'.currentOffset ≤ file.length := by
      have hlen := congrArg List.length hdrop
      rw [length_drop, length_append] at hlen
      omega
    rw [← hfileNum] at hfile
    rw [scanLoop, hnext]
    dsimp only
    rw [ih hfile hcoherent' hle hdrop' (fun c hc => hbs c (mem_cons_of_mem b hc))
      (by simpa using hfuel), frames_cons, length_append, length_cons]
    congr 2
    · omega
    · omega

theorem scanForLastCompleteBlock_eq {fileNum : ℕ} {front : Bytes}
    (hfile : disk.files[fileNum]? = some (front ++ (frames bs ++ p)))
    (hbs : ∀ b ∈ bs, b.length < 2 ^ 56) (hp : Torn p) :
    scanForLastCompleteBlock disk fileNum front.length =
      .ok (front.length + (frames bs).length, bs.length) := by
  have hopen : newBlockfileStream disk fileNum front.length =
      .ok ⟨fileNum, .start front.length⟩ := by
    rw [newBlockfileStream, Disk.file?, Int.toNat_natCast, hfile]
    rfl
  have hcount : bs.length < (disk.files.getD fileNum []).length + 1 := by
    have hle := length_le_length_frames bs
    rw [getD_eq_getElem?_getD, hfile, Option.getD_some, length_append, length_append]
    omega
  rw [scanForLastCompleteBlock, hopen]
  have hscan := scanLoop_eq (s := ⟨fileNum, .start front.length⟩) hfile
    (BufReader.coherent_start _ _) (by simp [BlockfileStream.currentOffset, BufReader.start])
    drop_left hbs hp hcount 0
  rw [Nat.zero_add] at hscan
  exact hscan

end Fabric.BlockStore
