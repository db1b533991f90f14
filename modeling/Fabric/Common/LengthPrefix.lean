import Mathlib.Data.List.Basic
import Mathlib.Tactic.IntervalCases
import Fabric.Common.Wire

/-!
# Decimal lengths before texts

A text is written after its length in decimal digits. One such text can be read back from its
end, because longer texts have longer encodings. The beginning of a sequence of them cannot always
be read, since the text may start with a digit.
-/

namespace Fabric.Common

open List

/-- The decimal digits of a number. -/
def itoa (n : ℕ) : Bytes := (Nat.toDigits 10 n).map fun c => c.toNat.toUInt8

/-- A text after its length. -/
def lengthPrefixed (text : Bytes) : Bytes := itoa text.length ++ text

def isDigit (b : UInt8) : Bool := 48 ≤ b && b ≤ 57

theorem toNat_toUInt8_of_mem_toDigits {n : ℕ} {c : Char} (h : c ∈ Nat.toDigits 10 n) :
    c.toNat.toUInt8.toNat = c.toNat ∧ isDigit c.toNat.toUInt8 = true := by
  have hdigit := Nat.isDigit_of_mem_toDigits (by decide) le_rfl h
  simp only [Char.isDigit, Bool.and_eq_true, decide_eq_true_eq] at hdigit
  have hbyte : c.toNat.toUInt8.toNat = c.toNat := by
    exact Nat.mod_eq_of_lt (hdigit.2.trans_lt (by decide))
  simp only [isDigit, Bool.and_eq_true, decide_eq_true_eq, UInt8.le_iff_toNat_le, hbyte]
  exact ⟨trivial, hdigit⟩

/-- The characters are read back from the bytes. -/
theorem map_ofNat_itoa (n : ℕ) :
    (itoa n).map (fun b => Char.ofNat b.toNat) = Nat.toDigits 10 n := by
  rw [itoa, map_map]
  refine (map_congr_left fun c hc => ?_).trans (map_id _)
  simp [(toNat_toUInt8_of_mem_toDigits hc).1]

theorem itoa_injective : Function.Injective itoa := by
  intro m n h
  have hdigits := congrArg (List.map fun b => Char.ofNat b.toNat) h
  rw [map_ofNat_itoa, map_ofNat_itoa] at hdigits
  rw [← @Nat.ofDigitChars_ten_toDigits m, hdigits, Nat.ofDigitChars_ten_toDigits]

theorem itoa_append {n d : ℕ} (hn : 0 < n) (hd : d < 10) :
    itoa (10 * n + d) = itoa n ++ itoa d := by
  rw [itoa, itoa, itoa, ← map_append, Nat.toDigits_append_toDigits (by decide) hn hd]

theorem isDigit_of_mem_itoa {n : ℕ} {b : UInt8} (h : b ∈ itoa n) : isDigit b = true := by
  obtain ⟨c, hc, rfl⟩ := mem_map.mp h
  exact (toNat_toUInt8_of_mem_toDigits hc).2

theorem length_itoa_le {m n : ℕ} (h : m ≤ n) : (itoa m).length ≤ (itoa n).length := by
  have hpos : 0 < (Nat.toDigits 10 n).length := Nat.length_toDigits_pos
  have hlt := (Nat.length_toDigits_le_iff (by decide) hpos).mp le_rfl
  simpa [itoa] using (Nat.length_toDigits_le_iff (by decide) hpos).mpr (h.trans_lt hlt)

/-- The first digit is zero for the number zero only. -/
theorem exists_itoa_eq_cons {n : ℕ} (hn : 0 < n) :
    ∃ b rest, itoa n = b :: rest ∧ 49 ≤ b ∧ b ≤ 57 := by
  induction n using Nat.strong_induction_on with
  | _ n ih =>
    by_cases hlt : n < 10
    · interval_cases n <;> exact ⟨_, [], rfl, by decide, by decide⟩
    · obtain ⟨b, rest, heq, hb⟩ := ih (n / 10) (by omega) (by omega)
      refine ⟨b, rest ++ itoa (n % 10), ?_, hb⟩
      rw [← cons_append, ← heq, ← itoa_append (by omega) (by omega), Nat.div_add_mod]

@[simp] theorem lengthPrefixed_ne_nil (text : Bytes) : lengthPrefixed text ≠ [] := by
  simp [lengthPrefixed, itoa]

theorem lengthPrefixed_injective : Function.Injective lengthPrefixed := by
  intro x y h
  have hlength : x.length = y.length := by
    have hsum := congrArg List.length h
    simp only [lengthPrefixed, length_append] at hsum
    have hle := @length_itoa_le x.length y.length
    have hge := @length_itoa_le y.length x.length
    omega
  unfold lengthPrefixed at h
  rw [hlength] at h
  exact append_cancel_left h

/-- The first element outside of a class ends the run of elements in it. -/
theorem append_cons_inj_of_run {α : Type} {p : α → Bool} {u u' r r' : List α} {c c' : α}
    (hu : ∀ a ∈ u, p a = true) (hu' : ∀ a ∈ u', p a = true) (hc : p c = false)
    (hc' : p c' = false) (h : u ++ c :: r = u' ++ c' :: r') : u = u' ∧ c = c' ∧ r = r' := by
  have hrun := congrArg (List.takeWhile p) h
  rw [takeWhile_append_of_pos hu, takeWhile_append_of_pos hu',
    takeWhile_cons_of_neg (by simp [hc]), takeWhile_cons_of_neg (by simp [hc']),
    append_nil, append_nil] at hrun
  subst hrun
  exact ⟨rfl, List.cons.inj (append_cancel_left h)⟩

theorem append_cons_inj_of_run_right {α : Type} {p : α → Bool} {u u' r r' : List α} {c c' : α}
    (hu : ∀ a ∈ u, p a = true) (hu' : ∀ a ∈ u', p a = true) (hc : p c = false)
    (hc' : p c' = false) (h : r ++ c :: u = r' ++ c' :: u') : r = r' ∧ c = c' ∧ u = u' := by
  have hreverse := congrArg List.reverse h
  simp only [reverse_append, reverse_cons, append_assoc] at hreverse
  obtain ⟨hrun, hend, hrest⟩ := append_cons_inj_of_run (by simpa using hu) (by simpa using hu')
    hc hc' hreverse
  exact ⟨reverse_inj.mp hrest, hend, reverse_inj.mp hrun⟩

/-- Two texts can be read in another way: the second length as a part of the first text. -/
theorem exists_lengthPrefixed_collision (mid : Bytes) : ∃ x y x' y', x ≠ x' ∧
    lengthPrefixed x ++ (mid ++ lengthPrefixed y) =
      lengthPrefixed x' ++ (mid ++ lengthPrefixed y') := by
  -- the first length `d` is followed by one more digit `e` when the first text is the longer one
  obtain ⟨d, e, hd, he, hsum⟩ : ∃ d e, 0 < d ∧ e < 10 ∧
      9 * d + e = mid.length + 8 + (itoa (mid.length + 10)).length := by
    have hpos : 0 < (itoa (mid.length + 10)).length := by simp [itoa, Nat.length_toDigits_pos]
    refine ⟨(mid.length + 8 + (itoa (mid.length + 10)).length) / 9,
      (mid.length + 8 + (itoa (mid.length + 10)).length) % 9, by omega, by omega, ?_⟩
    exact Nat.div_add_mod _ _
  have hdigit : (itoa e).length = 1 := by simp [itoa, Nat.toDigits_of_lt_base he]
  have hx : (itoa e ++ List.replicate (d - 1) 0).length = d := by
    simp only [length_append, length_replicate]
    omega
  have hy : (List.replicate 9 0 ++ (mid ++ itoa 0)).length = mid.length + 10 := by
    simp [itoa]
  have hx' : (List.replicate (d - 1) 0 ++ (mid ++ (itoa (mid.length + 10) ++
      List.replicate 9 0))).length = 10 * d + e := by
    simp only [length_append, length_replicate]
    omega
  refine ⟨itoa e ++ List.replicate (d - 1) 0, List.replicate 9 0 ++ (mid ++ itoa 0),
    List.replicate (d - 1) 0 ++ (mid ++ (itoa (mid.length + 10) ++ List.replicate 9 0)), [],
    fun heq => ?_, ?_⟩
  · exact absurd (congrArg List.length heq) (by omega)
  · unfold lengthPrefixed
    rw [hx, hy, hx', itoa_append hd he]
    simp

end Fabric.Common
