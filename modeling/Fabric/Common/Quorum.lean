import Mathlib.Data.Finset.Card

/-!
# Quorums

Counting arguments for sets of processes of which some are faulty.
-/

namespace Fabric.Common

open List

variable {α : Type} [DecidableEq α] {U A B faulty : Finset α} {γ δ : Type}

theorem exists_not_mem_of_card_lt (h : faulty.card < A.card) : ∃ a ∈ A, a ∉ faulty := by
  by_contra hall
  push Not at hall
  exact absurd (Finset.card_le_card hall) (by omega)

/-- Inclusion and exclusion inside a universe. -/
theorem card_add_card_le (hA : A ⊆ U) (hB : B ⊆ U) : A.card + B.card ≤ U.card + (A ∩ B).card := by
  have hunion := Finset.card_le_card (Finset.union_subset hA hB)
  have hsum := Finset.card_union_add_card_inter A B
  omega

/-- Two quorums of a universe whose sizes add up to more than the universe and the
faulty processes share a correct process. -/
theorem exists_correct_common (hA : A ⊆ U) (hB : B ⊆ U)
    (hcard : U.card + faulty.card < A.card + B.card) :
    ∃ a, a ∈ A ∧ a ∈ B ∧ a ∉ faulty := by
  have hinter := card_add_card_le hA hB
  have hlt : faulty.card < (A ∩ B).card := by omega
  obtain ⟨a, ha, hfaulty⟩ := exists_not_mem_of_card_lt hlt
  exact ⟨a, (Finset.mem_inter.mp ha).1, (Finset.mem_inter.mp ha).2, hfaulty⟩

theorem exists_right_of_forall₂ {R : γ → δ → Prop} {l : List γ} {l' : List δ}
    (h : List.Forall₂ R l l') {a : γ} (ha : a ∈ l) : ∃ b ∈ l', R a b := by
  induction h with
  | nil => cases ha
  | @cons _ d _ _ hR _ ih =>
    rcases mem_cons.mp ha with rfl | ha
    · exact ⟨d, mem_cons_self, hR⟩
    · obtain ⟨b, hb, hab⟩ := ih ha
      exact ⟨b, mem_cons_of_mem d hb, hab⟩

/-- Votes of distinct voters, listed in the order of `entries`: those that are
counted have as many voters. -/
theorem exists_keys_of_countP {R : α × γ → δ → Prop} {entries : List (α × γ)}
    {votes : List δ} (h : List.Forall₂ R entries votes) (hnodup : (entries.map Prod.fst).Nodup)
    (p : δ → Bool) : ∃ S : Finset α, S.card = votes.countP p ∧
      ∀ k ∈ S, ∃ e v, (k, e) ∈ entries ∧ R (k, e) v ∧ p v = true := by
  induction h with
  | nil => exact ⟨∅, by simp, by simp⟩
  | @cons entry vote entries _ hR _ ih =>
    rw [map_cons, nodup_cons] at hnodup
    obtain ⟨S, hcard, hS⟩ := ih hnodup.2
    have hS' : ∀ k ∈ S, ∃ e v, (k, e) ∈ entry :: entries ∧ R (k, e) v ∧ p v = true := by
      intro k hk
      obtain ⟨e, v, he, hv⟩ := hS k hk
      exact ⟨e, v, mem_cons_of_mem _ he, hv⟩
    cases hp : p vote with
    | false => exact ⟨S, by simp [hcard, hp], hS'⟩
    | true =>
      have hnew : entry.1 ∉ S := by
        intro hmem
        obtain ⟨e, -, he, -⟩ := hS _ hmem
        exact hnodup.1 (mem_map.mpr ⟨_, he, rfl⟩)
      refine ⟨insert entry.1 S, by simp [Finset.card_insert_of_notMem hnew, hcard, hp], ?_⟩
      intro k hk
      rcases Finset.mem_insert.mp hk with rfl | hk
      · exact ⟨entry.2, vote, mem_cons_self, hR, hp⟩
      · exact hS' k hk

end Fabric.Common
