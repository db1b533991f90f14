import Mathlib.Data.List.Infix

/-!
# Buffered readers

A reader that takes more from a file than it is asked for and keeps the rest. What it holds is
what stands in the file behind its position, and stays so as long as the file only grows.
-/

namespace Fabric.Common

open List

variable {α : Type}

/-- A reader: the position of the next element it delivers, and the elements from there on
that it already holds. -/
structure BufReader (α : Type) where
  position : ℕ
  buffered : List α
deriving DecidableEq

namespace BufReader

variable {file more : List α} {r : BufReader α} {n : ℕ}

/-- The number of elements a reader can hold. -/
def capacity : ℕ := 4096

/-- A reader that starts at a position. -/
def start (position : ℕ) : BufReader α := ⟨position, []⟩

/-- Read some elements ahead. -/
def fill (file : List α) (r : BufReader α) (k : ℕ) : BufReader α :=
  { r with buffered := r.buffered ++ (file.drop (r.position + r.buffered.length)).take k }

/-- Drop elements that the reader holds. -/
def discard (r : BufReader α) (n : ℕ) : BufReader α := ⟨r.position + n, r.buffered.drop n⟩

/-- Look at the next elements, of which the reader can hold that many. -/
def peek (file : List α) (r : BufReader α) (n : ℕ) : BufReader α × Option (List α) :=
  let r := if r.buffered.length < n then r.fill file (capacity - r.buffered.length) else r
  (r, if r.buffered.length < n then none else some (r.buffered.take n))

/-- Deliver elements from a position on, with nothing held: many elements are read
directly, few through the buffer. -/
def readMore (file : List α) (position n : ℕ) : BufReader α × Option (List α) :=
  if capacity ≤ n then
    let read := (file.drop position).take n
    (start (position + read.length), if read.length < n then none else some read)
  else
    let r := (start position).fill file capacity
    (r.discard n, if r.buffered.length < n then none else some (r.buffered.take n))

/-- Deliver exactly `n` elements, first those that the reader holds. -/
def readFull (file : List α) (r : BufReader α) (n : ℕ) : BufReader α × Option (List α) :=
  if n ≤ r.buffered.length then (r.discard n, some (r.buffered.take n))
  else
    let (r', read) := readMore file (r.position + r.buffered.length) (n - r.buffered.length)
    (r', read.map (r.buffered ++ ·))

/-- What the reader holds stands in the file at its position. -/
def Coherent (file : List α) (r : BufReader α) : Prop := r.buffered <+: file.drop r.position

theorem coherent_start (file : List α) (position : ℕ) : (start position).Coherent file :=
  nil_prefix

namespace Coherent

section

variable (h : r.Coherent file)
include h

/-- A reader stays coherent while the file grows. -/
theorem append : r.Coherent (file ++ more) := by
  unfold Coherent at *
  rw [drop_append]
  exact h.trans (prefix_append _ _)

theorem eq_take : r.buffered = (file.drop r.position).take r.buffered.length :=
  prefix_iff_eq_take.mp h

theorem fill_eq (k : ℕ) :
    (r.fill file k).buffered = (file.drop r.position).take (r.buffered.length + k) := by
  rw [fill, take_add, ← h.eq_take, drop_drop]

theorem fill (k : ℕ) : (r.fill file k).Coherent file := by
  rw [Coherent, h.fill_eq]
  exact take_prefix _ _

theorem discard (n : ℕ) : (r.discard n).Coherent file := by
  unfold Coherent BufReader.discard
  rw [← drop_drop]
  exact List.IsPrefix.drop h n

theorem take_buffered (hn : n ≤ r.buffered.length) :
    r.buffered.take n = (file.drop r.position).take n := by
  rw [h.eq_take, take_take, Nat.min_eq_left hn]

/-- The next elements are seen if the file has so many. -/
theorem peek_eq (hn : n ≤ capacity) (hfile : r.position + n ≤ file.length) :
    ∃ r' : BufReader α, r.peek file n = (r', some ((file.drop r.position).take n)) ∧
      r'.Coherent file ∧ r'.position = r.position ∧ n ≤ r'.buffered.length := by
  by_cases hheld : r.buffered.length < n
  · have hlen : n ≤ (r.fill file (capacity - r.buffered.length)).buffered.length := by
      rw [h.fill_eq, length_take, length_drop]
      omega
    refine ⟨r.fill file (capacity - r.buffered.length), ?_, h.fill _, rfl, hlen⟩
    rw [peek, if_pos hheld, if_neg (Nat.not_lt.mpr hlen), (h.fill _).take_buffered hlen]
    rfl
  · refine ⟨r, ?_, h, rfl, Nat.not_lt.mp hheld⟩
    rw [peek, if_neg hheld, if_neg hheld, h.take_buffered (Nat.not_lt.mp hheld)]

end

end Coherent

theorem readMore_eq {position : ℕ} (hfile : position + n ≤ file.length) :
    ∃ r' : BufReader α, readMore file position n = (r', some ((file.drop position).take n)) ∧
      r'.Coherent file ∧ r'.position = position + n := by
  unfold readMore
  by_cases hmany : capacity ≤ n
  · have hlen : ((file.drop position).take n).length = n := by
      rw [length_take, length_drop]
      omega
    rw [if_pos hmany]
    dsimp only
    rw [hlen, if_neg (lt_irrefl n)]
    exact ⟨_, rfl, coherent_start _ _, rfl⟩
  · have hstart := coherent_start file position
    have hfill := hstart.fill capacity
    have hlen : n ≤ ((start position).fill file capacity).buffered.length := by
      rw [hstart.fill_eq, length_take, length_drop]
      simp only [start]
      omega
    rw [if_neg hmany]
    dsimp only
    rw [if_neg (Nat.not_lt.mpr hlen), hfill.take_buffered hlen]
    exact ⟨_, rfl, hfill.discard n, rfl⟩

/-- So many elements are delivered if the file has them. -/
theorem Coherent.readFull_eq (h : r.Coherent file) (hfile : r.position + n ≤ file.length) :
    ∃ r' : BufReader α, r.readFull file n = (r', some ((file.drop r.position).take n)) ∧
      r'.Coherent file ∧ r'.position = r.position + n := by
  unfold readFull
  by_cases hheld : n ≤ r.buffered.length
  · rw [if_pos hheld, h.take_buffered hheld]
    exact ⟨_, rfl, h.discard n, rfl⟩
  · -- what is held comes first, and the rest stands behind it
    have hsplit : (file.drop r.position).take n = r.buffered ++
        (file.drop (r.position + r.buffered.length)).take (n - r.buffered.length) := by
      have hn : n = r.buffered.length + (n - r.buffered.length) := by omega
      rw [← drop_drop]
      conv_lhs => rw [hn, take_add, ← h.eq_take]
    have hmore := readMore_eq (n := n - r.buffered.length)
      (show r.position + r.buffered.length + _ ≤ file.length by omega)
    obtain ⟨r', hread, hcoherent, hposition⟩ := hmore
    rw [if_neg hheld, hread]
    refine ⟨r', ?_, hcoherent, by omega⟩
    rw [hsplit]
    rfl

end BufReader

end Fabric.Common
