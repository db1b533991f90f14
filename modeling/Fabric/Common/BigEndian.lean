import Fabric.Common.Wire
import Mathlib.Tactic.Ring

/-!
# Big-endian numbers

Unsigned numbers as a fixed number of bytes, most significant first.
-/

namespace Fabric.Common

open List

/-- Eight bytes, most significant first. -/
def bigEndian (number : ℕ) : Bytes :=
  (List.range 8).reverse.map fun i => UInt8.ofNat (number / 2 ^ (8 * i))

@[simp] theorem length_bigEndian (number : ℕ) : (bigEndian number).length = 8 := by
  simp [bigEndian]

/-- The number that some bytes stand for, most significant first. -/
def bigEndianValue (b : Bytes) : ℕ := b.foldl (fun n x => 2 ^ 8 * n + x.toNat) 0

theorem bigEndianValue_dropWhile (b : Bytes) :
    bigEndianValue (b.dropWhile (· = 0)) = bigEndianValue b := by
  induction b with
  | nil => rfl
  | cons x _ ih =>
    by_cases hx : x = 0
    · rw [dropWhile_cons_of_pos (by simpa using hx), ih, hx]
      rfl
    · rw [dropWhile_cons_of_neg (by simpa using hx)]

/-- Reading the lowest bytes of a number, the higher ones having been read. -/
theorem foldl_bytes (n k : ℕ) :
    ((List.range k).reverse.map fun i => UInt8.ofNat (n / 2 ^ (8 * i))).foldl
      (fun n x => 2 ^ 8 * n + x.toNat) (n / 2 ^ (8 * k)) = n := by
  induction k with
  | zero => simp
  | succ k ih =>
    have hbyte : 2 ^ 8 * (n / 2 ^ (8 * (k + 1))) + (UInt8.ofNat (n / 2 ^ (8 * k))).toNat =
        n / 2 ^ (8 * k) := by
      rw [Nat.mul_succ, Nat.pow_add, ← Nat.div_div_eq_div_mul]
      exact Nat.div_add_mod _ _
    rw [range_succ, reverse_append, reverse_singleton, singleton_append,
      map_cons, foldl_cons, hbyte, ih]

theorem bigEndianValue_bigEndian {n : ℕ} (h : n < 2 ^ 64) : bigEndianValue (bigEndian n) = n := by
  have hread := foldl_bytes n 8
  rwa [Nat.div_eq_of_lt h] at hread

/-! ### Order -/

theorem foldl_bigEndian (b : Bytes) (k : ℕ) :
    b.foldl (fun n x => 2 ^ 8 * n + x.toNat) k = k * 2 ^ (8 * b.length) + bigEndianValue b := by
  rw [bigEndianValue]
  induction b generalizing k with
  | nil => simp
  | cons x _ ih =>
    rw [foldl_cons, foldl_cons, ih, ih (2 ^ 8 * 0 + x.toNat), length_cons]
    ring

theorem bigEndianValue_cons (x : UInt8) (b : Bytes) :
    bigEndianValue (x :: b) = x.toNat * 2 ^ (8 * b.length) + bigEndianValue b := by
  rw [bigEndianValue, foldl_cons, foldl_bigEndian, Nat.mul_zero, Nat.zero_add]

theorem bigEndianValue_lt (b : Bytes) : bigEndianValue b < 2 ^ (8 * b.length) := by
  induction b with
  | nil => simp [bigEndianValue]
  | cons x b =>
    have hx := Nat.mul_le_mul_right (2 ^ (8 * b.length)) (Nat.le_of_lt_succ x.toNat_lt)
    rw [bigEndianValue_cons, length_cons, Nat.mul_succ, Nat.pow_add]
    omega

/-- Among byte strings of one length the order of the bytes is that of the numbers. -/
theorem lt_iff_bigEndianValue_lt {a b : Bytes} (h : a.length = b.length) :
    a < b ↔ bigEndianValue a < bigEndianValue b := by
  induction a generalizing b with
  | nil => simp [length_eq_zero_iff.mp h.symm]
  | cons x a ih =>
    obtain _ | ⟨y, b⟩ := b
    · cases h
    · have hlen := Nat.succ.inj h
      have ha := hlen ▸ bigEndianValue_lt a
      have hb := bigEndianValue_lt b
      rw [cons_lt_cons_iff, ih hlen, bigEndianValue_cons, bigEndianValue_cons, hlen,
        UInt8.lt_iff_toNat_lt]
      obtain hxy | hxy | hxy := lt_trichotomy x.toNat y.toNat
      · have hmul := Nat.mul_le_mul_right (2 ^ (8 * b.length)) (Nat.succ_le_of_lt hxy)
        rw [Nat.succ_mul] at hmul
        exact ⟨fun _ => by omega, fun _ => .inl hxy⟩
      · obtain rfl := UInt8.toNat_inj.mp hxy
        simp
      · have hmul := Nat.mul_le_mul_right (2 ^ (8 * b.length)) (Nat.succ_le_of_lt hxy)
        rw [Nat.succ_mul] at hmul
        refine ⟨?_, fun hlt => by omega⟩
        rintro (hlt | ⟨rfl, -⟩)
        · omega
        · exact absurd hxy (Nat.lt_irrefl _)

theorem le_bigEndianValue_dropWhile {b : Bytes} (h : b.dropWhile (· = 0) ≠ []) :
    2 ^ (8 * ((b.dropWhile (· = 0)).length - 1)) ≤ bigEndianValue b := by
  have hhead := head_dropWhile_not (· = (0 : UInt8)) h
  rw [← bigEndianValue_dropWhile]
  obtain ⟨x, rest, heq⟩ := exists_cons_of_ne_nil h
  simp only [heq, decide_eq_false_iff_not] at hhead
  have hx := Nat.pos_of_ne_zero fun h0 => hhead (UInt8.toNat_inj.mp h0)
  rw [heq, bigEndianValue_cons]
  exact (Nat.le_mul_of_pos_left _ hx).trans (Nat.le_add_right _ _)

theorem bigEndianValue_replicate (k : ℕ) (b : Bytes) :
    bigEndianValue (List.replicate k 0 ++ b) = bigEndianValue b := by
  induction k with
  | zero => rfl
  | succ _ ih => simp [replicate_succ, bigEndianValue_cons, ih]

end Fabric.Common
