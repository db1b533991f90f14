import Mathlib.Data.List.Perm.Basic

/-!
# Orders of enumeration

The order in which a Go program sees the entries of a map is not specified. It is a
reordering of their list, determined by a list of choices; every permutation is one.
-/

namespace Fabric.Common

open List

/-- Reorder a list: each choice takes, modulo the length, one of the elements that
are left, and the rest follows in order once the choices are used up. -/
def reorder {α : Type} : List ℕ → List α → List α
  | k :: ks, a :: l =>
    let i := k % (l.length + 1)
    ((a :: l)[i]?).toList ++ reorder ks ((a :: l).eraseIdx i)
  | _, l => l

variable {α : Type} {l : List α}

theorem reorder_perm (ks : List ℕ) (l : List α) : (reorder ks l).Perm l := by
  induction ks generalizing l with
  | nil => cases l <;> rfl
  | cons k _ ih =>
    cases l with
    | nil => rfl
    | cons a l =>
      have hi : k % (l.length + 1) < (a :: l).length := by
        simpa using Nat.mod_lt k (Nat.succ_pos l.length)
      simp only [reorder, List.getElem?_eq_getElem hi]
      exact ((ih _).cons _).trans (getElem_cons_eraseIdx_perm hi)

theorem exists_reorder_eq {l l' : List α} (h : l'.Perm l) :
    ∃ ks : List ℕ, ks.length = l.length ∧ reorder ks l = l' := by
  induction l' generalizing l with
  | nil =>
    rw [nil_perm.mp h]
    exact ⟨[], rfl, rfl⟩
  | cons b l' ih =>
    obtain ⟨i, hi, hb⟩ := mem_iff_getElem.mp (h.subset mem_cons_self)
    -- the first choice takes `b`, the others permute what is left
    have herase : l'.Perm (l.eraseIdx i) := by
      apply (perm_cons b).mp
      apply h.trans
      rw [← hb]
      exact (getElem_cons_eraseIdx_perm hi).symm
    obtain ⟨ks, hlen, hks⟩ := ih herase
    cases l with
    | nil => exact absurd hi (Nat.not_lt_zero i)
    | cons _ l =>
      refine ⟨i :: ks, ?_, ?_⟩
      · rw [length_cons, hlen, length_eraseIdx_of_lt hi]
        simp
      · have hmod : i % (l.length + 1) = i := Nat.mod_eq_of_lt hi
        simp only [reorder, hmod, List.getElem?_eq_getElem hi, hb, hks, Option.toList_some,
          singleton_append]

/-- There is nothing to reorder in a list with at most one element. -/
theorem reorder_of_length_le_one (h : l.length ≤ 1) (ks : List ℕ) : reorder ks l = l := by
  have hperm := reorder_perm ks l
  match l, h with
  | [], _ => exact perm_nil.mp hperm
  | [a], _ => exact perm_singleton.mp hperm

/-- Two different elements have two orders. -/
theorem exists_reorder_ne (hnodup : l.Nodup) (h : 1 < l.length) :
    ∃ ks : List ℕ, ks.length = l.length ∧ reorder ks l ≠ l := by
  match l, h with
  | a :: b :: l, _ =>
    obtain ⟨ks, hlen, hks⟩ := exists_reorder_eq (List.Perm.swap a b l)
    refine ⟨ks, hlen, fun heq => ?_⟩
    obtain rfl : b = a := (List.cons.inj (hks.symm.trans heq)).1
    simp at hnodup

end Fabric.Common
