import Mathlib.Data.List.Sort
import Mathlib.Data.Nat.Bitwise
import Mathlib.Data.List.Induction

/-!
# Directories of numbered files

A directory whose files are named by numbers of 64 bits. Reading the directory lists the names
in order. Where they are numbered consecutively from zero, the directory is determined by the
list of their contents.
-/

namespace Fabric.Common

open List

variable {β : Type}

/-- The files of a directory, by their numbers. -/
abbrev Directory (β : Type) := List (UInt64 × β)

namespace Directory

def read (d : Directory β) (n : UInt64) : Option β := (d.find? fun file => file.1 = n).map Prod.snd

/-- Create a file, or replace what it holds. -/
def write (d : Directory β) (n : UInt64) (text : β) : Directory β :=
  d.filter (fun file => file.1 ≠ n) ++ [(n, text)]

/-- The numbers of the files, in order. -/
def listing (d : Directory β) : List UInt64 := (d.map Prod.fst).insertionSort (· ≤ ·)

variable {d : Directory β} {n m : UInt64} {text : β} {l : List β}

@[simp] theorem read_nil : read ([] : Directory β) n = none := rfl

theorem read_append (d d' : Directory β) : read (d ++ d') n = (read d n).or (read d' n) := by
  simp [read, Option.map_or]

theorem read_cons (file : UInt64 × β) (d : Directory β) :
    read (file :: d) n = if file.1 = n then some file.2 else read d n := by
  by_cases h : file.1 = n <;> simp [read, h]

theorem read_filter :
    read (d.filter fun file => file.1 ≠ n) m = if m = n then none else d.read m := by
  induction d with
  | nil => simp
  | cons file _ ih =>
    by_cases hn : file.1 = n
    · rw [filter_cons_of_neg (by simpa using hn), ih, read_cons]
      by_cases hm : m = n
      · simp [hm]
      · simp [hn, Ne.symm hm]
    · rw [filter_cons_of_pos (by simpa using hn), read_cons, read_cons, ih]
      by_cases hm : m = n
      · simp [hm, hn]
      · simp [hm]

@[simp] theorem read_write : (d.write n text).read m = if m = n then some text else d.read m := by
  rw [write, read_append, read_filter, read_cons]
  by_cases h : m = n
  · simp [h]
  · simp [h, Ne.symm h]

/-! ### Consecutive files -/

/-- The directory with the given contents, numbered from zero. -/
def numbered (l : List β) : Directory β := ((List.range l.length).map UInt64.ofNat).zip l

theorem map_fst_numbered : (numbered l).map Prod.fst = (List.range l.length).map UInt64.ofNat :=
  map_fst_zip (by simp)

theorem ofNat_inj_of_lt {i j : ℕ} (hi : i < 2 ^ 64) (hj : j < 2 ^ 64)
    (h : UInt64.ofNat i = UInt64.ofNat j) : i = j := by
  have := congrArg UInt64.toNat h
  rwa [UInt64.toNat_ofNat_of_lt' hi, UInt64.toNat_ofNat_of_lt' hj] at this

/-- A new file behind the last one. -/
theorem numbered_concat (h : l.length < 2 ^ 64) (text : β) :
    numbered (l ++ [text]) = (numbered l).write (UInt64.ofNat l.length) text := by
  have hnew : (numbered l).filter (fun file => file.1 ≠ UInt64.ofNat l.length) = numbered l := by
    rw [filter_eq_self]
    intro file hfile
    have hname : file.1 ∈ (numbered l).map Prod.fst := mem_map_of_mem hfile
    rw [map_fst_numbered] at hname
    obtain ⟨i, hi, hfile⟩ := mem_map.mp hname
    rw [mem_range] at hi
    have hne : file.1 ≠ UInt64.ofNat l.length := by
      rw [← hfile]
      intro heq
      exact absurd (ofNat_inj_of_lt (hi.trans h) h heq) hi.ne
    simpa using hne
  rw [write, hnew, numbered, length_append, length_singleton, range_succ,
    map_append, zip_append (by simp)]
  rfl

theorem read_numbered (h : l.length ≤ 2 ^ 64) {i : ℕ} (hi : i < 2 ^ 64) :
    (numbered l).read (UInt64.ofNat i) = l[i]? := by
  induction l using List.reverseRecOn with
  | nil => rfl
  | append_singleton l _ ih =>
    rw [length_append] at h
    rw [numbered_concat h, read_write, ih (by omega)]
    by_cases hlast : i = l.length
    · subst hlast
      simp
    · have hne : UInt64.ofNat i ≠ UInt64.ofNat l.length := fun heq =>
        hlast (ofNat_inj_of_lt hi h heq)
      rw [if_neg hne, List.getElem?_append]
      split_ifs with hlt
      · rfl
      · rw [List.getElem?_eq_none (by omega), List.getElem?_eq_none (by simp; omega)]

theorem listing_numbered (h : l.length ≤ 2 ^ 64) :
    (numbered l).listing = (List.range l.length).map UInt64.ofNat := by
  rw [listing, map_fst_numbered]
  apply List.Pairwise.insertionSort_eq
  rw [pairwise_map]
  apply pairwise_lt_range.imp_of_mem
  intro i j hi hj hlt
  rw [mem_range] at hi hj
  exact (UInt64.ofNat_le_iff_le (hi.trans_le h) (hj.trans_le h)).mpr hlt.le

end Directory

end Fabric.Common
