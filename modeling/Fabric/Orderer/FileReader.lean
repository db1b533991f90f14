import Fabric.Orderer.HashChain

/-!
# A reader of the file ledger

One goroutine appends blocks to a file ledger while another reads them with a cursor: it calls
`ReadyChan`, waits for the channel and calls `Next`. `Append` creates the file of a block, writes
it piece by piece, closes the channel in the field `signal` and replaces it.

Channels are known by their numbers, in the order in which they are made. The blocks whose files
are complete are noted in `written`.
-/

namespace Fabric.Orderer

open Fabric.Common List

variable {α : Type}

/-- Where `Append` is. -/
inductive AppendPC (α : Type)
  | idle
  | create (block : Block)
  /-- the file is open, and the rest of its text is still to be written -/
  | write (block : Block) (rest : List α)
  | closeSignal
  | newSignal
deriving DecidableEq

/-- Where the reader is. -/
inductive ReadPC (α : Type)
  /-- before a call of `ReadyChan` -/
  | ready
  /-- `ReadyChan` has read the field `signal` -/
  | stat (signal : ℕ)
  /-- the channel that `ReadyChan` returned; none is the one that is closed for ever -/
  | waitReady (signal : Option ℕ)
  /-- `Next`, with what it has read of the file -/
  | openFile
  | read (buffer : List α)
  | readSignal
  | waitNext (signal : ℕ)
deriving DecidableEq

/-- The ledger with its signal, the appender and the reader. Channels before `closed` are closed. -/
structure FileReader (α : Type) where
  ledger : FileLedger α
  signal : ℕ
  closed : ℕ
  writer : AppendPC α
  blockNumber : UInt64
  reader : ReadPC α
  returned : List NextResult
  written : List Block
deriving DecidableEq

/-- The operations of the two goroutines. -/
inductive FileLabel
  | append (messages : List Envelope) (metadata : List Bytes)
  | create
  | write (n : ℕ)
  | finish
  | closeSignal
  | newSignal
  | readyChan
  | stat
  | wake
  | openFile
  | read (n : ℕ)
  | readSignal
deriving DecidableEq

/-- The operations of a call of `Next` that does not wait. -/
def FileLabel.isNext : FileLabel → Bool
  | .openFile => true
  | .read _ => true
  | _ => false

variable {block : Block} {buffer : List α}

namespace FileReader

/-- A cursor on a ledger while nothing is appended. -/
def start (ledger : FileLedger α) (written : List Block) (blockNumber : UInt64) : FileReader α :=
  ⟨ledger, 0, 0, .idle, blockNumber, .ready, [], written⟩

variable (M : Marshal) (F : BlockFile α) (s : FileReader α)

/-- The text of the file of the reader's block. -/
def text : Option (List α) := s.ledger.files.read s.blockNumber

/-- The appender has put text into a file. -/
def putText (number : UInt64) (text : List α) (writer : AppendPC α) : FileReader α :=
  { s with ledger.files := s.ledger.files.write number text, writer := writer }

/-- `Next` returns. -/
def returns (result : NextResult) : FileReader α :=
  match result with
  | .success block =>
    { s with blockNumber := s.blockNumber + 1, reader := .ready,
             returned := s.returned ++ [.success block] }
  | result => { s with reader := .ready, returned := s.returned ++ [result] }

/-- Part of the file is read. It is decoded as soon as it is the text of a block. -/
def readFile (buffer text : List α) (n : ℕ) : Option (FileReader α) :=
  let available := text.drop buffer.length
  if available = [] then
    match F.unmarshal buffer with
    | some block => some (s.returns (.success block))
    | none => some (s.returns .serviceUnavailable)
  else if 1 ≤ n ∧ n ≤ available.length then
    match F.unmarshal (buffer ++ available.take n) with
    | some block => some (s.returns (.success block))
    | none => some { s with reader := .read (buffer ++ available.take n) }
  else none

def step : FileLabel → Option (FileReader α)
  | .append messages metadata => match s.writer with
    | .idle =>
      let block := nextBlock M s.ledger.height s.ledger.lastHash messages metadata
      some { s with writer := .create block }
    | _ => none
  | .create => match s.writer with
    | .create block => some (s.putText block.header.number [] (.write block (F.marshal block)))
    | _ => none
  | .write n => match s.writer with
    | .write block rest =>
      if 1 ≤ n ∧ n ≤ rest.length then
        let done := (s.ledger.files.read block.header.number).getD []
        some (s.putText block.header.number (done ++ rest.take n) (.write block (rest.drop n)))
      else none
    | _ => none
  | .finish => match s.writer with
    | .write block [] =>
      some { s with ledger.height := s.ledger.height + 1, writer := .closeSignal,
                    written := s.written ++ [block] }
    | _ => none
  | .closeSignal => match s.writer with
    | .closeSignal => some { s with closed := s.signal + 1, writer := .newSignal }
    | _ => none
  | .newSignal => match s.writer with
    | .newSignal => some { s with signal := s.signal + 1, writer := .idle }
    | _ => none
  | .readyChan => match s.reader with
    | .ready => some { s with reader := .stat s.signal }
    | _ => none
  | .stat => match s.reader with
    | .stat signal => match s.text with
      | none => some { s with reader := .waitReady (some signal) }
      | some _ => some { s with reader := .waitReady none }
    | _ => none
  | .wake => match s.reader with
    | .waitReady none => some { s with reader := .openFile }
    | .waitReady (some signal) =>
      if signal < s.closed then some { s with reader := .openFile } else none
    | .waitNext signal => if signal < s.closed then some { s with reader := .openFile } else none
    | _ => none
  | .openFile => match s.reader with
    | .openFile => match s.text with
      | none => some { s with reader := .readSignal }
      | some _ => some { s with reader := .read [] }
    | _ => none
  | .read n => match s.reader, s.text with
    | .read buffer, some text => s.readFile F buffer text n
    | _, _ => none
  | .readSignal => match s.reader with
    | .readSignal => some { s with reader := .waitNext s.signal }
    | _ => none

/-- `ReadyChan` reads the signal while no `Append` is between its file and a new signal, and looks
for the file of its block while that is not being written. -/
def Undisturbed (s : FileReader α) : FileLabel → Prop
  | .append _ _ => s.ledger.height + 1 ≠ 0
  | .readyChan => s.writer ≠ .closeSignal ∧ s.writer ≠ .newSignal
  | .stat => match s.writer with
    | .write block _ => block.header.number ≠ s.blockNumber
    | _ => True
  | _ => True

/-- The signal that the reader waits for. -/
def waitsFor : Option ℕ := match s.reader with
  | .waitReady signal => signal
  | .waitNext signal => some signal
  | _ => none

variable {M F s} {s' : FileReader α} {label : FileLabel} {first signal closed : ℕ}
    {written : List Block}
  {ledger : FileLedger α} {writer : AppendPC α}

/-! ### The appender -/

/-- Where the appender is, with the text of the file behind `n` complete ones. -/
inductive Phase (F : BlockFile α) (n signal closed : ℕ) : AppendPC α → Option (List α) → Prop
  | idle (hclosed : closed = signal) : Phase F n signal closed .idle none
  | create (block : Block) (hclosed : closed = signal)
    (hnumber : block.header.number = UInt64.ofNat n) (hroom : n + 1 < 2 ^ 64) :
    Phase F n signal closed (.create block) none
  | write (block : Block) (done rest : List α) (hclosed : closed = signal)
    (hnumber : block.header.number = UInt64.ofNat n) (hroom : n + 1 < 2 ^ 64)
    (htext : done ++ rest = F.marshal block) :
    Phase F n signal closed (.write block rest) (some done)
  | closeSignal (hclosed : closed = signal) : Phase F n signal closed .closeSignal none
  | newSignal (hclosed : closed = signal + 1) : Phase F n signal closed .newSignal none

/-- The files are those of the written blocks, and perhaps one that is being written. -/
structure Appends (F : BlockFile α) (s : FileReader α) : Prop where
  numbers : ∀ i block, s.written[i]? = some block → block.header.number = UInt64.ofNat i
  room : s.written.length < 2 ^ 64
  height : s.ledger.height = UInt64.ofNat s.written.length
  files : ∃ tail, Phase F s.written.length s.signal s.closed s.writer tail ∧
    ∀ i < 2 ^ 64, s.ledger.files.read (UInt64.ofNat i) =
      if i = s.written.length then tail else s.written[i]?.map F.marshal

theorem appends_start {blockNumber : UInt64}
    (h : ledger.Stores F written) (hroom : written.length < 2 ^ 64) :
    Appends F (start ledger written blockNumber) where
  numbers := h.numbers
  room := hroom
  height := h.height
  files := by
    refine ⟨none, .idle rfl, fun i hi => ?_⟩
    have hlen : (written.map F.marshal).length ≤ 2 ^ 64 := by simpa using hroom.le
    have hread : ledger.files.read (UInt64.ofNat i) = written[i]?.map F.marshal := by
      rw [h.files, FileLedger.filesOf, Directory.read_numbered hlen hi, List.getElem?_map]
    split_ifs with hlast
    · rw [start, hread, hlast]
      simp [start]
    · exact hread

theorem Appends.exists_phase (h : Appends F s) {writer : AppendPC α} (hwriter : s.writer = writer) :
    ∃ tail, Phase F s.written.length s.signal s.closed writer tail ∧
      ∀ i < 2 ^ 64, s.ledger.files.read (UInt64.ofNat i) =
        if i = s.written.length then tail else s.written[i]?.map F.marshal :=
  hwriter ▸ h.files

theorem Appends.putText (h : Appends F s) {text : List α} {writer : AppendPC α}
    (hnumber : block.header.number = UInt64.ofNat s.written.length)
    (hphase : Phase F s.written.length s.signal s.closed writer (some text)) :
    Appends F (s.putText block.header.number text writer) where
  numbers := h.numbers
  room := h.room
  height := h.height
  files := by
    obtain ⟨tail, -, hread⟩ := h.files
    refine ⟨some text, hphase, fun i hi => ?_⟩
    change (s.ledger.files.write _ _).read _ = if i = s.written.length then _ else _
    rw [Directory.read_write, hnumber, hread i hi]
    by_cases hlast : i = s.written.length
    · simp [hlast]
    · have hne : UInt64.ofNat i ≠ UInt64.ofNat s.written.length := fun heq =>
        hlast (Directory.ofNat_inj_of_lt hi h.room heq)
      rw [if_neg hne, if_neg hlast, if_neg hlast]
      rfl

theorem Appends.finish (h : Appends F s) (hwriter : s.writer = .write block []) :
    Appends F { s with ledger.height := s.ledger.height + 1, writer := .closeSignal,
                       written := s.written ++ [block] } := by
  obtain ⟨tail, hphase, hread⟩ := h.files
  rw [hwriter] at hphase
  cases hphase with
  | write _ _ _ hclosed hnumber hroom htext =>
    rw [append_nil] at htext
    subst htext
    refine ⟨numbers_concat h.numbers hnumber, by simpa using hroom, ?_, none, .closeSignal hclosed,
      fun i hi => ?_⟩
    · rw [length_append, UInt64.ofNat_add, ← h.height]
      rfl
    · rw [hread i hi, length_append]
      by_cases hlast : i = s.written.length
      · simp [hlast]
      · rw [if_neg hlast, List.getElem?_append]
        by_cases hlt : i < s.written.length
        · rw [if_neg (by omega), if_pos hlt]
        · rw [List.getElem?_eq_none (by omega)]
          split_ifs with hnext
          · rfl
          · rw [List.getElem?_eq_none (by simp; omega)]

theorem Appends.append (h : Appends F s) (hroom : s.ledger.height + 1 ≠ 0)
    (hwriter : s.writer = .idle) (hnumber : block.header.number = s.ledger.height) :
    Appends F { s with writer := .create block } := by
  obtain ⟨_, ⟨hclosed⟩, hread⟩ := h.exists_phase hwriter
  have hlt : s.written.length + 1 < 2 ^ 64 := by
    rw [h.height, ← UInt64.ofNat_one, ← UInt64.ofNat_add] at hroom
    by_contra hge
    have hlast : s.written.length + 1 = 2 ^ 64 := by
      have := h.room
      omega
    exact hroom (by rw [hlast]; rfl)
  exact ⟨h.numbers, h.room, h.height, none, .create _ hclosed (hnumber.trans h.height) hlt, hread⟩

/-! ### The reader -/

/-- The signal is not closed before the block at the place is written. -/
def Announces (s : FileReader α) (place signal : ℕ) : Prop :=
  signal ≤ s.signal ∧ (signal < s.closed ∨ s.writer = .closeSignal → place < s.written.length)

/-- A reader of the block at a place that comes to the file when it is complete. -/
def ReadsAt (F : BlockFile α) (s : FileReader α) (place : ℕ) : ReadPC α → Prop
  | .ready => True
  | .stat signal => s.Announces place signal
  | .waitReady none => place < s.written.length
  | .waitReady (some signal) => s.Announces place signal ∧
    (place < s.written.length → signal < s.closed ∨ s.writer = .closeSignal)
  | .openFile => place < s.written.length
  | .read buffer => ∃ block, s.written[place]? = some block ∧ buffer <+: F.marshal block
  | .readSignal => False
  | .waitNext _ => False

/-- The reader has got the blocks from the first one on, and is at the next one. -/
structure Reads (F : BlockFile α) (first : ℕ) (s : FileReader α) : Prop where
  place_le : first + s.returned.length ≤ s.written.length
  blockNumber : s.blockNumber = UInt64.ofNat (first + s.returned.length)
  returned : s.returned = ((s.written.drop first).take s.returned.length).map .success
  reader : s.ReadsAt F (first + s.returned.length) s.reader

theorem reads_start (hfirst : first ≤ written.length) :
    Reads F first (start ledger written (UInt64.ofNat first)) where
  place_le := hfirst
  blockNumber := rfl
  returned := rfl
  reader := trivial

theorem ReadsAt.mono {place : ℕ} {pc : ReadPC α} (h : s.ReadsAt F place pc)
    (hwritten : s.written <+: s'.written)
    (hannounces : ∀ signal, s.Announces place signal → s'.Announces place signal ∧
      ((place < s.written.length → signal < s.closed ∨ s.writer = .closeSignal) →
        place < s'.written.length → signal < s'.closed ∨ s'.writer = .closeSignal)) :
    s'.ReadsAt F place pc := by
  cases pc with
  | ready => trivial
  | stat signal => exact (hannounces signal h).1
  | waitReady signal =>
    cases signal with
    | none => exact Nat.lt_of_lt_of_le h hwritten.length_le
    | some signal => exact ⟨(hannounces signal h.1).1, (hannounces signal h.1).2 h.2⟩
  | openFile => exact Nat.lt_of_lt_of_le h hwritten.length_le
  | read =>
    obtain ⟨block, hblock, hbuffer⟩ := h
    refine ⟨block, ?_, hbuffer⟩
    obtain ⟨more, hmore⟩ := hwritten
    rw [← hmore, List.getElem?_append_left (List.getElem?_eq_some_iff.mp hblock).1, hblock]
  | readSignal => exact h
  | waitNext => exact h

/-- What the reader knows stays true while nothing happens to its blocks and signals. -/
theorem Reads.mono (h : Reads F first s) (hwritten : s.written <+: written)
    (hannounces : ∀ place signal', place ≤ s.written.length → s.Announces place signal' →
      Announces ⟨ledger, signal, closed, writer, s.blockNumber, s.reader, s.returned, written⟩ place
        signal' ∧
      ((place < s.written.length → signal' < s.closed ∨ s.writer = .closeSignal) →
        place < written.length → signal' < closed ∨ writer = .closeSignal)) :
    Reads F first ⟨ledger, signal, closed, writer, s.blockNumber, s.reader, s.returned,
      written⟩ where
  place_le := h.place_le.trans hwritten.length_le
  blockNumber := h.blockNumber
  returned := by
    have hplace := h.place_le
    obtain ⟨more, rfl⟩ := hwritten
    rw [drop_append_of_le_length (by omega), take_append_of_le_length (by simp; omega)]
    exact h.returned
  reader := h.reader.mono hwritten fun signal' => hannounces _ signal' h.place_le

theorem Reads.quiet (h : Reads F first s) (hsignal : s.signal ≤ signal)
    (hwriter : s.writer ≠ .closeSignal) (hwriter' : writer ≠ .closeSignal) :
    Reads F first
      ⟨ledger, signal, s.closed, writer, s.blockNumber, s.reader, s.returned, s.written⟩ := by
  refine h.mono (prefix_refl _) fun place signal' _ hann => ?_
  refine ⟨⟨hann.1.trans hsignal, fun hwake => ?_⟩, fun hwoken hlt => ?_⟩
  · exact hann.2 (.inl (hwake.resolve_right hwriter'))
  · exact .inl ((hwoken hlt).resolve_right hwriter)

theorem Appends.text_eq (h : Appends F s) {place : ℕ} (hnumber : s.blockNumber = UInt64.ofNat place)
    (hblock : s.written[place]? = some block) :
    s.text = some (F.marshal block) := by
  obtain ⟨tail, -, hread⟩ := h.files
  have hlt := (List.getElem?_eq_some_iff.mp hblock).1
  have hroom := h.room
  rw [text, hnumber, hread place (by omega), if_neg (by omega), hblock]
  rfl

theorem Appends.text_eq_none (h : Appends F s) (hundisturbed : s.Undisturbed .stat)
    (hnumber : s.blockNumber = UInt64.ofNat s.written.length) : s.text = none := by
  obtain ⟨tail, hphase, hread⟩ := h.files
  rw [text, hnumber, hread _ h.room, if_pos rfl]
  generalize hwriter : s.writer = writer at hphase
  cases hphase with
  | idle | create | closeSignal | newSignal => rfl
  | write _ _ _ _ hblock =>
    simp only [Undisturbed, hwriter] at hundisturbed
    exact absurd (hblock.trans hnumber.symm) hundisturbed

theorem Appends.announces (h : Appends F s) (hundisturbed : s.Undisturbed .readyChan)
    (place : ℕ) : s.Announces place s.signal := by
  obtain ⟨tail, hphase, -⟩ := h.files
  obtain ⟨hclose, hnew⟩ := hundisturbed
  have hclosed : s.closed = s.signal := by
    generalize hwriter : s.writer = writer at hphase
    cases hphase with
    | newSignal => exact absurd hwriter hnew
    | idle hclosed => exact hclosed
    | create _ hclosed => exact hclosed
    | write _ _ _ hclosed => exact hclosed
    | closeSignal hclosed => exact hclosed
  refine ⟨le_rfl, ?_⟩
  rintro (hlt | hwriter)
  · rw [hclosed] at hlt
    exact absurd hlt (lt_irrefl _)
  · exact absurd hwriter hclose

theorem readFile_cases {n : ℕ} (hbuffer : buffer <+: F.marshal block)
    (h : s.readFile F buffer (F.marshal block) n = some s') :
    s' = s.returns (.success block) ∨
      ∃ buffer', buffer' <+: F.marshal block ∧ s' = { s with reader := .read buffer' } := by
  obtain ⟨rest, hrest⟩ := hbuffer
  have hdrop : (F.marshal block).drop buffer.length = rest := by rw [← hrest, drop_left]
  unfold readFile at h
  rw [hdrop] at h
  dsimp only at h
  split_ifs at h with hend hn
  · -- nothing is left: the buffer is the whole text
    rw [hend, append_nil] at hrest
    rw [hrest, F.unmarshal_marshal] at h
    cases h
    exact .inl rfl
  · have hpart : buffer ++ rest.take n <+: F.marshal block := by
      rw [← hrest, prefix_append_right_inj]
      exact take_prefix _ _
    by_cases hwhole : buffer ++ rest.take n = F.marshal block
    · rw [hwhole, F.unmarshal_marshal] at h
      cases h
      exact .inl rfl
    · rw [F.unmarshal_of_broken block _ hpart hwhole] at h
      cases h
      exact .inr ⟨_, hpart, rfl⟩

theorem Reads.success (h : Reads F first s)
    (hblock : s.written[first + s.returned.length]? = some block) :
    Reads F first (s.returns (.success block)) := by
  have hlt := (List.getElem?_eq_some_iff.mp hblock).1
  refine ⟨?_, ?_, ?_, trivial⟩
  · simp only [returns, length_append, length_singleton]
    omega
  · simp only [returns, length_append, length_singleton]
    rw [h.blockNumber, ← Nat.add_assoc, UInt64.ofNat_add _ 1]
    rfl
  · simp only [returns, length_append, length_singleton]
    rw [take_add_one, map_append, ← h.returned, List.getElem?_drop, hblock]
    rfl

/-- The reader leaves everything of the appender as it is. -/
theorem Appends.setReader (h : Appends F s) (blockNumber : UInt64) (reader : ReadPC α)
    (returned : List NextResult) : Appends F { s with blockNumber, reader, returned } :=
  ⟨h.numbers, h.room, h.height, h.files⟩

theorem Reads.setReader (h : Reads F first s) {reader : ReadPC α}
    (hat : s.ReadsAt F (first + s.returned.length) reader) : Reads F first { s with reader } :=
  ⟨h.place_le, h.blockNumber, h.returned, hat⟩

theorem Reads.text_eq (h : Reads F first s) (hwrites : Appends F s)
    (hlt : first + s.returned.length < s.written.length) :
    s.text = some (F.marshal s.written[first + s.returned.length]) :=
  hwrites.text_eq h.blockNumber (List.getElem?_eq_getElem hlt)

theorem step_invariant (hundisturbed : s.Undisturbed label) (hwrites : Appends F s)
    (h : Reads F first s) (hstep : s.step M F label = some s') :
    Appends F s' ∧ Reads F first s' := by
  have hat := h.reader
  cases label with simp only [step] at hstep
  -- the appender leaves the reader where it is
  | append =>
    split at hstep <;> cases hstep
    rename_i hwriter
    exact ⟨hwrites.append hundisturbed hwriter rfl, h.quiet le_rfl (by simp [hwriter]) (by simp)⟩
  | create =>
    split at hstep <;> cases hstep
    rename_i block hwriter
    obtain ⟨_, hphase, -⟩ := hwrites.exists_phase hwriter
    cases hphase with
    | create _ hclosed hnumber hroom =>
      exact ⟨hwrites.putText hnumber (.write _ [] _ hclosed hnumber hroom rfl),
        h.quiet le_rfl (by simp [hwriter]) (by simp)⟩
  | write =>
    split at hstep <;> try cases hstep
    rename_i block rest hwriter
    split_ifs at hstep
    cases hstep
    obtain ⟨_, hphase, hread⟩ := hwrites.exists_phase hwriter
    cases hphase with
    | write _ _ _ hclosed hnumber hroom htext =>
      refine ⟨hwrites.putText hnumber (.write _ _ _ hclosed hnumber hroom ?_),
        h.quiet le_rfl (by simp [hwriter]) (by simp)⟩
      rw [hnumber, hread _ hwrites.room, if_pos rfl, append_assoc, take_append_drop]
      exact htext
  | finish =>
    split at hstep <;> cases hstep
    rename_i block hwriter
    refine ⟨hwrites.finish hwriter, h.mono (prefix_append _ _) fun place signal hplace hann => ?_⟩
    refine ⟨⟨hann.1, fun _ => ?_⟩, fun _ _ => .inr rfl⟩
    simpa [Nat.lt_succ_iff] using hplace
  | closeSignal =>
    split at hstep <;> cases hstep
    rename_i hwriter
    obtain ⟨_, ⟨⟩, hread⟩ := hwrites.exists_phase hwriter
    refine ⟨⟨hwrites.numbers, hwrites.room, hwrites.height, none, .newSignal rfl, hread⟩,
      h.mono (prefix_refl _) fun place signal _ hann => ?_⟩
    exact ⟨⟨hann.1, fun _ => hann.2 (.inr hwriter)⟩, fun _ _ => .inl (Nat.lt_succ_of_le hann.1)⟩
  | newSignal =>
    split at hstep <;> cases hstep
    rename_i hwriter
    obtain ⟨_, hphase, hread⟩ := hwrites.exists_phase hwriter
    cases hphase with
    | newSignal hclosed =>
      exact ⟨⟨hwrites.numbers, hwrites.room, hwrites.height, none, .idle hclosed, hread⟩,
        h.quiet (Nat.le_succ _) (by simp [hwriter]) (by simp)⟩
  -- the reader changes nothing of the appender
  | readyChan =>
    split at hstep <;> cases hstep
    exact ⟨hwrites.setReader _ _ _, h.setReader (hwrites.announces hundisturbed _)⟩
  | stat =>
    split at hstep <;> try cases hstep
    rename_i signal hreader
    rw [hreader] at hat
    split at hstep <;> cases hstep <;> refine ⟨hwrites.setReader _ _ _, h.setReader ?_⟩
    · rename_i hnone
      refine ⟨hat, fun hlt => ?_⟩
      cases hnone.symm.trans (h.text_eq hwrites hlt)
    · rename_i hsome
      refine h.place_le.lt_of_ne fun hlast => ?_
      cases hsome.symm.trans (hwrites.text_eq_none hundisturbed (hlast ▸ h.blockNumber))
  | wake =>
    split at hstep <;> try cases hstep
    · rename_i hreader
      rw [hreader] at hat
      exact ⟨hwrites.setReader _ _ _, h.setReader hat⟩
    · rename_i signal hreader
      rw [hreader] at hat
      obtain ⟨hclosed, hstep⟩ := Option.ite_none_right_eq_some.mp hstep
      cases hstep
      exact ⟨hwrites.setReader _ _ _, h.setReader (hat.1.2 (.inl hclosed))⟩
    · rename_i hreader
      rw [hreader] at hat
      exact hat.elim
  | openFile =>
    split at hstep <;> try cases hstep
    rename_i hreader
    rw [hreader] at hat
    rw [h.text_eq hwrites hat] at hstep
    cases hstep
    exact ⟨hwrites.setReader _ _ _, h.setReader ⟨_, List.getElem?_eq_getElem hat, nil_prefix⟩⟩
  | read =>
    split at hstep <;> try cases hstep
    rename_i buffer text hreader htext
    rw [hreader] at hat
    obtain ⟨block, hblock, hbuffer⟩ := hat
    rw [hwrites.text_eq h.blockNumber hblock] at htext
    cases htext
    obtain rfl | ⟨buffer', hbuffer', rfl⟩ := readFile_cases hbuffer hstep
    · exact ⟨hwrites.setReader _ _ _, h.success hblock⟩
    · exact ⟨hwrites.setReader _ _ _, h.setReader ⟨block, hblock, hbuffer'⟩⟩
  | readSignal =>
    split at hstep <;> cases hstep
    rename_i hreader
    rw [hreader] at hat
    exact hat.elim

/-! ### Runs -/

/-- `Next` has returned the blocks from the first one on. If the block of the reader is written, the
reader does not wait, or the signal that it waits for is or will be closed. -/
structure Follows (M : Marshal) (F : BlockFile α) (first : ℕ) (s : FileReader α) : Prop where
  returned : s.returned = ((s.written.drop first).take s.returned.length).map .success
  wakes : ∀ signal, s.waitsFor = some signal → first + s.returned.length < s.written.length →
    signal < s.closed ∨ s.writer = .closeSignal
  next : (s.reader = .openFile ∨ ∃ buffer, s.reader = .read buffer) → ∃ labels s' block,
    (∀ label ∈ labels, label.isNext = true) ∧ runSteps (step M F) s labels = some s' ∧
    s.written[first + s.returned.length]? = some block ∧
      s'.returned = s.returned ++ [.success block]

theorem readFile_rest {rest : List α} (h : buffer ++ rest = F.marshal block) :
    s.readFile F buffer (F.marshal block) rest.length = some (s.returns (.success block)) := by
  have hdrop : (F.marshal block).drop buffer.length = rest := by rw [← h, drop_left]
  unfold readFile
  rw [hdrop]
  dsimp only
  split_ifs with hend hn
  · rw [hend, append_nil] at h
    rw [h, F.unmarshal_marshal]
  · rw [take_length, h, F.unmarshal_marshal]
  · exact absurd ⟨length_pos_iff.mpr hend, le_rfl⟩ hn

theorem Reads.next (hwrites : Appends F s) (h : Reads F first s)
    (hreader : s.reader = .read buffer) :
    ∃ n s' block, s.step M F (.read n) = some s' ∧
      s.written[first + s.returned.length]? = some block ∧
      s'.returned = s.returned ++ [.success block] := by
  have hat := h.reader
  rw [hreader] at hat
  obtain ⟨block, hblock, rest, hrest⟩ := hat
  refine ⟨rest.length, s.returns (.success block), block, ?_, hblock, rfl⟩
  simp only [step, hreader, hwrites.text_eq h.blockNumber hblock]
  exact readFile_rest hrest

theorem Reads.follows (hwrites : Appends F s) (h : Reads F first s) : Follows M F first s where
  returned := h.returned
  wakes := by
    intro signal hwaits hlt
    have hat := h.reader
    unfold waitsFor at hwaits
    split at hwaits
    · rename_i hreader
      rw [hwaits] at hreader
      rw [hreader] at hat
      exact hat.2 hlt
    · rename_i hreader
      rw [hreader] at hat
      exact hat.elim
    · cases hwaits
  next := by
    rintro (hreader | ⟨buffer, hreader⟩)
    · -- the file is opened first
      have hat := h.reader
      rw [hreader] at hat
      have hopen : s.step M F .openFile = some { s with reader := .read [] } := by
        simp [step, hreader, h.text_eq hwrites hat]
      obtain ⟨hwrites', hreads'⟩ := step_invariant (show s.Undisturbed .openFile from trivial)
        hwrites h hopen
      obtain ⟨n, s', block, hread, hblock, hreturned⟩ := Reads.next hwrites' hreads' rfl
      refine ⟨[.openFile, .read n], s', block, by simp [FileLabel.isNext], ?_, hblock, hreturned⟩
      rw [runSteps_cons, hopen, Option.bind_some, runSteps_cons, hread]
      rfl
    · obtain ⟨n, s', block, hread, hblock, hreturned⟩ := Reads.next hwrites h hreader
      refine ⟨[.read n], s', block, by simp [FileLabel.isNext], ?_, hblock, hreturned⟩
      rw [runSteps_cons, hread]
      rfl

/-- Every interleaving of an appender with a reader of any start, along which `ReadyChan` is
undisturbed. -/
theorem followsAppender_of_run {ledger : FileLedger α} {written : List Block}
    {labels : List FileLabel} (hstores : ledger.Stores F written) (hroom : written.length < 2 ^ 64)
    (hfirst : first ≤ written.length)
    (halong : Along (step M F) Undisturbed (start ledger written (UInt64.ofNat first)) labels)
    (hrun : runSteps (step M F) (start ledger written (UInt64.ofNat first)) labels = some s) :
    Follows M F first s := by
  have hinvariant : Appends F s ∧ Reads F first s := by
    refine runSteps_invariant (I := fun s => Appends F s ∧ Reads F first s)
      ⟨appends_start hstores hroom, reads_start hfirst⟩ ?_ halong hrun
    rintro s label s' hundisturbed ⟨hwrites, hreads⟩ hstep
    exact step_invariant hundisturbed hwrites hreads hstep
  exact hinvariant.2.follows hinvariant.1

instance decidableUndisturbed [DecidableEq α] (s : FileReader α) :
    (label : FileLabel) → Decidable (s.Undisturbed label)
  | .append _ _ => inferInstanceAs (Decidable (s.ledger.height + 1 ≠ 0))
  | .readyChan => inferInstanceAs (Decidable (s.writer ≠ .closeSignal ∧ s.writer ≠ .newSignal))
  | .stat =>
    match h : s.writer with
    | .write block _ =>
      decidable_of_iff (block.header.number ≠ s.blockNumber) (by simp [Undisturbed, h])
    | .idle | .create _ | .closeSignal | .newSignal => .isTrue (by simp [Undisturbed, h])
  | .create | .write _ | .finish | .closeSignal | .newSignal | .wake | .openFile | .read _
  | .readSignal => .isTrue trivial

/-- A ledger for examples, with the genesis block only. -/
def exampleLedger : FileLedger Block :=
  ⟨FileLedger.filesOf exampleBlockFile [exampleGenesis], 1,
    exampleGenesis.header.hash exampleMarshal⟩

theorem exampleLedger_stores : exampleLedger.Stores exampleBlockFile [exampleGenesis] := by
  refine ⟨rfl, rfl, fun i block hblock => ?_⟩
  obtain ⟨hi, rfl⟩ := List.getElem?_eq_some_iff.mp hblock
  obtain rfl : i = 0 := by simpa using hi
  rfl

theorem follows_exampleRun : ∃ s, runSteps (step exampleMarshal exampleBlockFile)
    (start exampleLedger [exampleGenesis] 1) [.readyChan, .stat,
      .append [⟨some [5], []⟩] [], .create,
      .write 1, .finish, .closeSignal, .wake, .openFile, .read 1] = some s ∧
    s.returned.length = 1 ∧ Follows exampleMarshal exampleBlockFile 1 s := by
  refine exists_and_of_checked (fun _ => True) (by decide +kernel) ?_
  rintro s hrun -
  exact followsAppender_of_run exampleLedger_stores (by decide) (by decide) (by decide +kernel) hrun

/-- A reader that finds an empty file is told that the service is unavailable. A reader that gets a
block before its signal is closed waits for the signal behind the next one. -/
theorem not_follows_run :
    (∃ s, runSteps (step exampleMarshal exampleBlockFile) (start exampleLedger [exampleGenesis] 1)
      [.append [⟨some [5], []⟩] [], .create, .readyChan, .stat, .wake, .openFile,
        .read 0] = some s ∧
      s.returned = [.serviceUnavailable]) ∧
    ∃ s, runSteps (step exampleMarshal exampleBlockFile) (start exampleLedger [exampleGenesis] 1)
      [.append [⟨some [5], []⟩] [], .create, .write 1, .finish, .readyChan, .stat, .wake, .openFile,
        .read 1, .readyChan, .stat, .closeSignal, .newSignal, .wake, .openFile,
        .append [⟨some [6], []⟩] [], .create, .write 1, .finish, .closeSignal, .newSignal,
        .readSignal] = some s ∧
      s.waitsFor = some 2 ∧ s.closed = 2 ∧ s.writer = .idle ∧ s.returned.length = 1 ∧
      s.written.length = 3 := by
  constructor
  · decide +kernel
  · decide +kernel

end FileReader

end Fabric.Orderer
