import Fabric.BlockStore.Manager

/-!
# Where the blocks are

The abstract view of the block files: a chain of blocks, cut into chunks, one for each file.
A block is added to the last chunk, or a new chunk is begun. A stream that stands between
two blocks reads all blocks that follow, also those that are added later.
-/

namespace Fabric.BlockStore

open Fabric.Common List BlockStream

/-! ### Chunks -/

/-- What a file holds. -/
def chunkBytes (c : List SizedBlock2) : Bytes := frames (c.map SizedBlock2.bytes)

@[simp] theorem chunkBytes_nil : chunkBytes [] = [] := rfl

@[simp] theorem chunkBytes_cons (b : SizedBlock2) (c : List SizedBlock2) :
    chunkBytes (b :: c) = frame b.bytes ++ chunkBytes c := by
  rfl

@[simp] theorem chunkBytes_append (c c' : List SizedBlock2) :
    chunkBytes (c ++ c') = chunkBytes c ++ chunkBytes c' := by
  rw [chunkBytes, map_append, frames_append]
  rfl

/-- A block and its place. -/
structure Placed where
  file : ℕ
  offset : ℕ
  block : SizedBlock2
deriving DecidableEq

/-- The places of blocks that follow each other in a file. -/
def placeFrom (file offset : ℕ) : List SizedBlock2 → List Placed
  | [] => []
  | b :: c => ⟨file, offset, b⟩ :: placeFrom file (offset + (frame b.bytes).length) c

/-- The places of the blocks of chunks that follow each other. -/
def placedFrom (file : ℕ) : List (List SizedBlock2) → List Placed
  | [] => []
  | c :: cs => placeFrom file 0 c ++ placedFrom (file + 1) cs

theorem placeFrom_append (file offset : ℕ) (c c' : List SizedBlock2) :
    placeFrom file offset (c ++ c') =
      placeFrom file offset c ++ placeFrom file (offset + (chunkBytes c).length) c' := by
  induction c generalizing offset with
  | nil => rfl
  | cons _ _ ih =>
    rw [cons_append, placeFrom, placeFrom, ih, cons_append, chunkBytes_cons,
      length_append, Nat.add_assoc]

theorem placedFrom_append (file : ℕ) (cs cs' : List (List SizedBlock2)) :
    placedFrom file (cs ++ cs') = placedFrom file cs ++ placedFrom (file + cs.length) cs' := by
  induction cs generalizing file with
  | nil => rfl
  | cons _ _ ih =>
    rw [cons_append, placedFrom, placedFrom, ih, append_assoc, length_cons,
      Nat.add_assoc, Nat.add_comm 1]

theorem map_block_placeFrom (file offset : ℕ) (c : List SizedBlock2) :
    (placeFrom file offset c).map Placed.block = c := by
  induction c generalizing offset with
  | nil => rfl
  | cons _ _ ih => rw [placeFrom, map_cons, ih]

theorem map_block_placedFrom (file : ℕ) (cs : List (List SizedBlock2)) :
    (placedFrom file cs).map Placed.block = cs.flatten := by
  induction cs generalizing file with
  | nil => rfl
  | cons _ _ ih => rw [placedFrom, map_append, map_block_placeFrom, ih, flatten_cons]

/-! ### Layouts -/

/-- The chunks of the files that are full, and that of the current file. -/
structure Layout where
  front : List (List SizedBlock2)
  last : List SizedBlock2

namespace Layout

variable (l : Layout) (b : SizedBlock2)

def chunks : List (List SizedBlock2) := l.front ++ [l.last]

/-- The chain. -/
def blocks : List SizedBlock2 := l.chunks.flatten

def placed : List Placed := placedFrom 0 l.chunks

/-- What the files hold. -/
def files : List Bytes := l.chunks.map chunkBytes

/-- Add a block to the current file. -/
def add : Layout := ⟨l.front, l.last ++ [b]⟩

/-- Begin a new file. -/
def roll : Layout := ⟨l.front ++ [l.last], []⟩

/-- The place of the next block. -/
def next : Placed := ⟨l.front.length, (chunkBytes l.last).length, b⟩

@[simp] theorem blocks_add : (l.add b).blocks = l.blocks ++ [b] := by
  simp [blocks, chunks, add]

@[simp] theorem blocks_roll : l.roll.blocks = l.blocks := by
  simp [blocks, chunks, roll]

@[simp] theorem placed_add : (l.add b).placed = l.placed ++ [l.next b] := by
  simp [placed, chunks, add, next, placedFrom_append, placedFrom, placeFrom_append, placeFrom]

@[simp] theorem placed_roll : l.roll.placed = l.placed := by
  simp [placed, chunks, roll, placedFrom_append, placedFrom, placeFrom]

theorem map_block_placed : l.placed.map Placed.block = l.blocks := map_block_placedFrom 0 _

theorem length_placed : l.placed.length = l.blocks.length := by
  rw [← map_block_placed, length_map]

theorem files_eq : l.files = l.front.map chunkBytes ++ [chunkBytes l.last] := by
  rw [files, chunks, map_append]
  rfl

theorem length_files : l.files.length = l.front.length + 1 := by
  rw [files_eq, length_append, length_map, length_singleton]

theorem files_roll : l.roll.files = l.files ++ [[]] := by
  rw [files_eq, files_eq, roll, map_append]
  rfl

theorem length_blocks_le : l.blocks.length ≤ (l.files.map List.length).sum := by
  have hchunks : ∀ cs : List (List SizedBlock2),
      cs.flatten.length ≤ ((cs.map chunkBytes).map List.length).sum := by
    intro cs
    induction cs with
    | nil => rfl
    | cons c _ ih =>
      have hc := length_le_length_frames (c.map SizedBlock2.bytes)
      rw [length_map] at hc
      rw [flatten_cons, length_append]
      exact Nat.add_le_add hc ih
  exact hchunks l.chunks

end Layout

/-! ### Streams -/

/-- The blocks that stand in the files from an offset of one of them on. -/
def Stands (files : List Bytes) (fileNum offset : ℕ) (rest : List Placed) : Prop :=
  ∃ front post cs, files.drop fileNum = (front ++ chunkBytes post) :: cs.map chunkBytes ∧
    offset = front.length ∧
    rest = placeFrom fileNum offset post ++ placedFrom (fileNum + 1) cs

/-- The blocks in front of a stream: those of its file from its offset on, and later files'. -/
def Reads (disk : Disk) (s : BlockfileStream) (rest : List Placed) : Prop :=
  s.Coherent disk ∧ Stands disk.files s.fileNum s.currentOffset rest

variable {files : List Bytes} {file front : Bytes} {cs : List (List SizedBlock2)} {endFileNum : ℤ}
  {c : List SizedBlock2} {offset : ℕ}

section Streams

variable {disk disk' : Disk} {s : BlockfileStream} {x : Placed} {rest : List Placed} {i : ℕ}
  {ps qs : List Placed} {post : List SizedBlock2} {l : Layout} {fileNum : ℕ} {b : SizedBlock2}

theorem getElem?_of_drop_eq_cons {later : List Bytes} {n : ℕ} (h : files.drop n = file :: later) :
    files[n]? = some file := by
  rw [← List.head?_drop, h, List.head?_cons]

/-- A stream that may read all files: it has no end, or ends with the last one. -/
def ReachesEnd (disk : Disk) (endFileNum : ℤ) : Prop :=
  endFileNum < 0 ∨ (disk.files.length : ℤ) - 1 ≤ endFileNum

theorem next_cons (hcoherent : s.Coherent disk)
    (hfiles : disk.files.drop s.fileNum = (front ++ chunkBytes (b :: post)) :: cs.map chunkBytes)
    (hoffset : s.currentOffset = front.length) (later : ℕ) :
    ∃ s', nextFrom disk later ⟨s, endFileNum⟩ = .ok (some (b.bytes, ⟨s.fileNum, s.currentOffset,
          s.currentOffset + (encodeVarint b.bytes.length).length⟩), ⟨s', endFileNum⟩) ∧
      Reads disk s' (placeFrom s.fileNum (s.currentOffset + (frame b.bytes).length) post ++
        placedFrom (s.fileNum + 1) cs) := by
  have hfile := getElem?_of_drop_eq_cons hfiles
  have hdrop : (front ++ chunkBytes (b :: post)).drop s.currentOffset =
      frame b.bytes ++ chunkBytes post := by
    rw [hoffset, drop_left, chunkBytes_cons]
  obtain ⟨s', hnext, hfileNum, hcoherent', hoffset'⟩ :=
    s.next_frame hfile hcoherent hdrop b.fits
  refine ⟨s', ?_, hcoherent', front ++ frame b.bytes, post, cs, ?_, ?_, ?_⟩
  · unfold nextFrom
    rw [hnext]
    simp
  · rw [hfileNum, hfiles, chunkBytes_cons, append_assoc]
  · rw [hoffset', hoffset, length_append]
  · rw [hfileNum, hoffset']

theorem later_eq (hfiles : disk.files.drop s.fileNum = file :: cs.map chunkBytes) :
    disk.files.length - 1 - s.fileNum = cs.length := by
  have hlen := congrArg List.length hfiles
  rw [length_drop, length_cons, length_map] at hlen
  omega

theorem drop_next {n : ℕ} (hfiles : disk.files.drop n = file :: (c :: cs).map chunkBytes) :
    disk.files.drop (n + 1) = ([] ++ chunkBytes c) :: cs.map chunkBytes := by
  rw [drop_add_one_eq_tail_drop, hfiles]
  rfl

theorem nextFrom_skip
    (hfiles : disk.files.drop s.fileNum = (front ++ chunkBytes []) :: (c :: cs).map chunkBytes)
    (hoffset : s.currentOffset = front.length) (hend : ReachesEnd disk endFileNum) (later : ℕ) :
    nextFrom disk (later + 1) ⟨s, endFileNum⟩ =
      nextFrom disk later ⟨⟨s.fileNum + 1, .start 0⟩, endFileNum⟩ := by
  have hlater := later_eq hfiles
  have hmove : (s.fileNum) < endFileNum ∨ endFileNum < 0 := by
    rw [length_cons] at hlater
    rcases hend with hend | hend <;> omega
  have hnext := s.next_end (getElem?_of_drop_eq_cons hfiles) (by simpa using hoffset)
  conv_lhs => unfold nextFrom
  rw [hnext]
  simp [hmove]

theorem nextFrom_eq (hcoherent : s.Coherent disk)
    (hfiles : disk.files.drop s.fileNum = (front ++ chunkBytes post) :: cs.map chunkBytes)
    (hoffset : s.currentOffset = front.length) (hend : ReachesEnd disk endFileNum)
    (hrest : x :: rest = placeFrom s.fileNum s.currentOffset post ++
      placedFrom (s.fileNum + 1) cs) :
    ∃ s', nextFrom disk cs.length ⟨s, endFileNum⟩ = .ok (some (x.block.bytes, ⟨x.file, x.offset,
          x.offset + (encodeVarint x.block.bytes.length).length⟩), ⟨s', endFileNum⟩) ∧
      Reads disk s' rest := by
  induction cs generalizing s front post with
  | nil =>
    cases post with
    | nil => cases hrest
    | cons =>
      cases hrest
      exact next_cons hcoherent hfiles hoffset _
  | cons _ _ ih =>
    cases post with
    | nil =>
      rw [length_cons, nextFrom_skip hfiles hoffset hend]
      exact ih (BufReader.coherent_start _ 0) (drop_next hfiles) rfl hrest
    | cons =>
      cases hrest
      exact next_cons hcoherent hfiles hoffset _

theorem Reads.next (h : Reads disk s (x :: rest)) (hend : ReachesEnd disk endFileNum) :
    ∃ s', nextBlockBytesAndPlacementInfo disk ⟨s, endFileNum⟩ =
        .ok (some (x.block.bytes, ⟨x.file, x.offset,
          x.offset + (encodeVarint x.block.bytes.length).length⟩), ⟨s', endFileNum⟩) ∧
      Reads disk s' rest := by
  obtain ⟨hcoherent, front, post, cs, hfiles, hoffset, hrest⟩ := h
  rw [nextBlockBytesAndPlacementInfo, later_eq hfiles]
  exact nextFrom_eq hcoherent hfiles hoffset hend hrest

theorem Reads.next_end (h : Reads disk s []) (hend : endFileNum = (disk.files.length : ℤ) - 1) :
    ∃ s', nextBlockBytesAndPlacementInfo disk ⟨s, endFileNum⟩ = .ok (none, s') := by
  obtain ⟨hcoherent, front, post, cs, hfiles, hoffset, hrest⟩ := h
  rw [nextBlockBytesAndPlacementInfo, later_eq hfiles]
  clear hcoherent
  induction cs generalizing s front post with
  | nil =>
    cases post with
    | nil =>
      -- the stream stands at the end of the last file
      have hlater := later_eq hfiles
      have hlen := congrArg List.length hfiles
      have hstop : ¬ ((s.fileNum) < endFileNum ∨ endFileNum < 0) := by
        rw [length_drop, length_cons] at hlen
        rw [length_nil] at hlater
        omega
      have hnext := s.next_end (getElem?_of_drop_eq_cons hfiles) (by simpa using hoffset)
      unfold nextFrom
      rw [hnext]
      simp [hstop]
    | cons => cases hrest
  | cons c _ ih =>
    cases post with
    | nil =>
      rw [length_cons, nextFrom_skip hfiles hoffset (.inr hend.ge)]
      exact ih [] c (drop_next hfiles) rfl hrest
    | cons => cases hrest

theorem Stands.add (h : Stands (files ++ [file]) fileNum offset rest) :
    Stands (files ++ [file ++ frame b.bytes]) fileNum offset
      (rest ++ [⟨files.length, file.length, b⟩]) := by
  obtain ⟨front, post, cs, hfiles, hoffset, hrest⟩ := h
  have hlen := congrArg List.length hfiles
  rw [length_drop, length_append, length_singleton, length_cons, length_map] at hlen
  rcases eq_nil_or_concat' cs with rfl | ⟨cs, c, rfl⟩
  · -- it is added to the same file
    have hfileNum : fileNum = files.length := by
      rw [length_nil] at hlen
      omega
    rw [hfileNum, drop_left, map_nil, singleton_inj] at hfiles
    refine ⟨front, post ++ [b], [], ?_, hoffset, ?_⟩
    · rw [hfileNum, drop_left, hfiles, map_nil, chunkBytes_append,
        chunkBytes_cons, chunkBytes_nil, append_nil, append_assoc]
    · rw [hrest, hfiles, placeFrom_append, placeFrom, placeFrom, hoffset, hfileNum]
      simp [placedFrom]
  · have hfileNum : fileNum < files.length := by
      rw [length_append, length_singleton] at hlen
      omega
    rw [drop_append_of_le_length hfileNum.le, map_append, ← cons_append] at hfiles
    obtain ⟨hfront, hlast⟩ := append_inj' hfiles rfl
    rw [map_cons, map_nil, singleton_inj] at hlast
    refine ⟨front, post, cs ++ [c ++ [b]], ?_, hoffset, ?_⟩
    · rw [drop_append_of_le_length hfileNum.le, hfront, hlast]
      simp
    · have hlen' : fileNum + 1 + cs.length = files.length := by
        rw [length_append, length_singleton] at hlen
        omega
      rw [hrest, hlast]
      simp [placedFrom_append, placedFrom, placeFrom_append, placeFrom, hlen']

theorem Stands.roll (h : Stands files fileNum offset rest) :
    Stands (files ++ [[]]) fileNum offset rest := by
  obtain ⟨front, post, cs, hfiles, hoffset, hrest⟩ := h
  have hlen := congrArg List.length hfiles
  rw [length_drop, length_cons] at hlen
  refine ⟨front, post, cs ++ [[]], ?_, hoffset, ?_⟩
  · rw [drop_append_of_le_length (by omega), hfiles, map_append]
    rfl
  · rw [hrest, placedFrom_append]
    simp [placedFrom, placeFrom]

theorem exists_of_placeFrom_eq {file : ℕ} (h : placeFrom file offset c = ps ++ x :: qs) :
    ∃ pre post, c = pre ++ x.block :: post ∧ x.file = file ∧
      x.offset = offset + (chunkBytes pre).length ∧
      x :: qs = placeFrom file x.offset (x.block :: post) := by
  induction c generalizing offset ps with
  | nil => simp [placeFrom] at h
  | cons b c ih =>
    cases ps with
    | nil =>
      obtain ⟨rfl, rfl⟩ := h
      exact ⟨[], c, rfl, rfl, rfl, rfl⟩
    | cons =>
      rw [placeFrom, cons_append, List.cons.injEq] at h
      obtain ⟨pre, post, hc, hfile, hoffset, hqs⟩ := ih h.2
      refine ⟨b :: pre, post, by rw [hc]; rfl, hfile, ?_, hqs⟩
      rw [hoffset, chunkBytes_cons, length_append, Nat.add_assoc]

theorem stands_placedFrom {file : ℕ}
    (hfiles : files.drop file = cs.map chunkBytes) (h : placedFrom file cs = ps ++ x :: qs) :
    Stands files x.file x.offset (x :: qs) := by
  induction cs generalizing file ps with
  | nil => simp [placedFrom] at h
  | cons _ cs ih =>
    have hdrop : files.drop (file + 1) = cs.map chunkBytes := by
      rw [drop_add_one_eq_tail_drop, hfiles]
      rfl
    rw [placedFrom, append_eq_append_iff] at h
    rcases h with ⟨ps', -, h⟩ | ⟨qs', h, h'⟩
    · exact ih hdrop h
    · cases qs' with
      | nil =>
        have hnil : placedFrom (file + 1) cs = [] ++ x :: qs := h'.symm
        exact ih hdrop hnil
      | cons =>
        rw [cons_append] at h'
        obtain ⟨rfl, rfl⟩ := h'
        obtain ⟨pre, post, rfl, rfl, hoffset, hqs⟩ := exists_of_placeFrom_eq h
        refine ⟨chunkBytes pre, x.block :: post, cs, ?_, ?_, ?_⟩
        · rw [hfiles, map_cons, chunkBytes_append]
        · rw [Nat.zero_add] at hoffset
          exact hoffset
        · rw [← cons_append, hqs]

theorem exists_file_of_mem_placedFrom {file : ℕ} (hfiles : files.drop file = cs.map chunkBytes)
    (hx : x ∈ placedFrom file cs) :
    ∃ front back, files[x.file]? = some (front ++ (frame x.block.bytes ++ back)) ∧
      front.length = x.offset := by
  induction cs generalizing file with
  | nil => cases hx
  | cons _ _ ih =>
    rw [placedFrom, mem_append] at hx
    rcases hx with hx | hx
    · obtain ⟨ps, qs, hsplit⟩ := append_of_mem hx
      obtain ⟨pre, post, rfl, rfl, hoffset, -⟩ := exists_of_placeFrom_eq hsplit
      refine ⟨chunkBytes pre, chunkBytes post, ?_, by rw [hoffset, Nat.zero_add]⟩
      rw [getElem?_of_drop_eq_cons hfiles, chunkBytes_append, chunkBytes_cons]
    · refine ih ?_ hx
      rw [drop_add_one_eq_tail_drop, hfiles]
      rfl

theorem Layout.exists_file (hx : x ∈ l.placed) :
    ∃ front back, l.files[x.file]? = some (front ++ (frame x.block.bytes ++ back)) ∧
      front.length = x.offset :=
  exists_file_of_mem_placedFrom drop_zero hx

theorem drop_of_getElem? {α : Type} {as : List α} {a : α} (h : as[i]? = some a) :
    as.drop i = a :: as.drop (i + 1) := by
  obtain ⟨hlt, rfl⟩ := List.getElem?_eq_some_iff.mp h
  exact drop_eq_getElem_cons hlt

theorem Layout.stands_drop (hx : l.placed[i]? = some x) :
    Stands l.files x.file x.offset (l.placed.drop i) := by
  have hdrop := drop_of_getElem? hx
  have hsplit : l.placed = l.placed.take i ++ x :: l.placed.drop (i + 1) := by
    rw [← hdrop, take_append_drop]
  rw [hdrop]
  exact stands_placedFrom drop_zero hsplit

theorem Layout.reads_drop (hdisk : disk.files = l.files)
    (hx : l.placed[i]? = some x) : Reads disk ⟨x.file, .start x.offset⟩ (l.placed.drop i) := by
  refine ⟨BufReader.coherent_start _ _, ?_⟩
  rw [hdisk]
  exact l.stands_drop hx

theorem Layout.reads_all (hdisk : disk.files = l.files) : Reads disk ⟨0, .start 0⟩ l.placed := by
  obtain ⟨c, cs, hchunks⟩ : ∃ c cs, l.chunks = c :: cs :=
    exists_cons_of_ne_nil (by simp [chunks])
  refine ⟨BufReader.coherent_start _ _, [], c, cs, ?_, rfl, ?_⟩
  · rw [hdisk, files, hchunks]
    rfl
  · rw [placed, hchunks]
    rfl

end Streams

end Fabric.BlockStore
