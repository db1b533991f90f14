import Mathlib.Data.List.MinMax
import Mathlib.Data.List.Pairwise

/-!
# Frontiers

What is worth keeping of a stream of items, some of which make others superfluous. The items
are preordered: an item below another one is not needed beside it. Keeping an item unless it
lies below a kept one, and dropping what lies below it, leaves maximal items of the stream, and
of equivalent ones the first.
-/

namespace Fabric.Common

open List

variable {α : Type} (le : α → α → Prop)

/-- What is kept once `a` has come. -/
def absorb [DecidableRel le] (kept : List α) (a : α) : List α :=
  if ∃ b ∈ kept, le a b then kept else kept.filter (fun b => ¬ le b a) ++ [a]

/-- Neither item makes the other one superfluous. -/
def Apart (a b : α) : Prop := ¬ le a b ∧ ¬ le b a

instance : Std.Symm (Apart le) := ⟨fun _ _ h => h.symm⟩

/-- The items that are kept of a stream. -/
structure Frontier (seen kept : List α) : Prop where
  apart : kept.Pairwise (Apart le)
  covers : ∀ a ∈ seen, ∃ b ∈ kept, le a b
  first : ∀ a ∈ kept, ∃ l r, seen = l ++ a :: r ∧ ∀ b ∈ l, ¬ le a b

variable {le} {seen seen' kept kept' : List α} {a b : α}

namespace Frontier

theorem nil : Frontier le [] [] where
  apart := List.Pairwise.nil
  covers := by simp
  first := by simp

theorem mem_seen (h : Frontier le seen kept) (ha : a ∈ kept) : a ∈ seen := by
  obtain ⟨l, r, rfl, -⟩ := h.first a ha
  simp

theorem eq_of_le (h : Frontier le seen kept) (ha : a ∈ kept) (hb : b ∈ kept) (hle : le a b) :
    a = b := by
  by_contra hne
  exact (h.apart.forall ha hb hne).1 hle

variable [IsPreorder α le]

section

variable (h : Frontier le seen kept)
include h

/-- Nothing in the stream lies strictly above what is kept. -/
theorem le_of_le (ha : a ∈ kept) (hb : b ∈ seen) (hle : le a b) : le b a := by
  obtain ⟨c, hc, hbc⟩ := h.covers b hb
  obtain rfl := h.eq_of_le ha hc (IsTrans.trans a b c hle hbc)
  exact hbc

theorem nodup : kept.Nodup := by
  apply h.apart.imp
  rintro a b hapart rfl
  exact hapart.1 (Std.Refl.refl a)

/-- Streams of the same items have the same frontier, up to equivalence. -/
theorem exists_equiv (h' : Frontier le seen' kept')
    (hsub : seen ⊆ seen') (hsub' : seen' ⊆ seen) (ha : a ∈ kept) :
    ∃ b ∈ kept', le a b ∧ le b a := by
  obtain ⟨b, hb, hab⟩ := h'.covers a (hsub (h.mem_seen ha))
  exact ⟨b, hb, hab, h.le_of_le ha (hsub' (h'.mem_seen hb)) hab⟩

/-- Of a part of the stream that a measure orders totally, the first greatest item is kept. -/
theorem filter_eq_argmax {β : Type} [LinearOrder β] [DecidableEq α] (p : α → Bool) (f : α → β)
    (hp : ∀ a b, p a → (le a b ↔ p b ∧ f a ≤ f b)) :
    kept.filter p = ((seen.filter p).argmax f).toList := by
  rcases eq_nil_or_concat (seen.filter p) with hnil | ⟨l, a, ha⟩
  · rw [hnil, argmax_nil, Option.toList_none, filter_eq_nil_iff]
    intro b hb
    exact filter_eq_nil_iff.mp hnil b (h.mem_seen hb)
  · have ha : a ∈ seen.filter p := by simp [ha]
    obtain ⟨ha, hpa⟩ := mem_filter.mp ha
    obtain ⟨b, hb, hab⟩ := h.covers a ha
    have hpb := ((hp a b hpa).mp hab).1
    -- everything else that is kept of the part is comparable to `b`
    have huniq : ∀ c ∈ kept.filter p, c = b := by
      intro c hc
      obtain ⟨hc, hpc⟩ := mem_filter.mp hc
      rcases le_total (f c) (f b) with hle | hle
      · exact h.eq_of_le hc hb ((hp c b hpc).mpr ⟨hpb, hle⟩)
      · exact (h.eq_of_le hb hc ((hp b c hpb).mpr ⟨hpc, hle⟩)).symm
    have hkept : kept.filter p = [b] := by
      have hrep := eq_replicate_of_mem huniq
      have hnd : (kept.filter p).Nodup := h.nodup.filter p
      rw [hrep, nodup_replicate] at hnd
      have hpos := length_pos_of_mem (mem_filter.mpr ⟨hb, hpb⟩)
      rw [hrep, show (kept.filter p).length = 1 by omega]
      rfl
    rw [hkept]
    suffices hmax : (seen.filter p).argmax f = some b by rw [hmax]; rfl
    rw [argmax_eq_some_iff]
    refine ⟨mem_filter.mpr ⟨h.mem_seen hb, hpb⟩, ?_, ?_⟩
    · intro c hc
      obtain ⟨hc, hpc⟩ := mem_filter.mp hc
      rcases le_total (f c) (f b) with hle | hle
      · exact hle
      · exact ((hp c b hpc).mp (h.le_of_le hb hc ((hp b c hpb).mpr ⟨hpc, hle⟩))).2
    · -- nothing before the first occurrence of `b` is as great
      intro c hc hle
      obtain ⟨l, r, hseen, hl⟩ := h.first b hb
      have hbefore : ∀ d ∈ l.filter p, ¬ f b ≤ f d := by
        intro d hd hle
        obtain ⟨hd, hpd⟩ := mem_filter.mp hd
        exact hl d hd ((hp b d hpb).mpr ⟨hpd, hle⟩)
      rw [hseen, filter_append, filter_cons_of_pos hpb] at hc ⊢
      rw [idxOf_append_of_notMem fun hmem => hbefore b hmem le_rfl,
        idxOf_append_of_notMem fun hmem => hbefore c hmem hle, idxOf_cons_self]
      omega

/-- Whether something lies above a newcomer can be seen from what is kept. -/
theorem exists_above_iff : (∃ b ∈ kept, le a b) ↔ ∃ b ∈ seen, le a b := by
  constructor
  · rintro ⟨b, hb, hab⟩
    exact ⟨b, h.mem_seen hb, hab⟩
  · rintro ⟨b, hb, hab⟩
    obtain ⟨c, hc, hbc⟩ := h.covers b hb
    exact ⟨c, hc, IsTrans.trans a b c hab hbc⟩

end

/-- Items none of which makes another one superfluous are all kept. -/
theorem of_apart (h : kept.Pairwise (Apart le)) : Frontier le kept kept where
  apart := h
  covers a ha := ⟨a, ha, Std.Refl.refl a⟩
  first a ha := by
    obtain ⟨l, r, rfl⟩ := append_of_mem ha
    refine ⟨l, r, rfl, ?_⟩
    intro b hb
    exact ((pairwise_append.mp h).2.2 b hb a mem_cons_self).2

variable [DecidableRel le]

/-- What is kept of a longer stream. -/
theorem absorb (h : Frontier le seen kept) (a : α) :
    Frontier le (seen ++ [a]) (absorb le kept a) := by
  by_cases habove : ∃ b ∈ kept, le a b
  · -- the newcomer is covered already
    rw [Common.absorb, if_pos habove]
    refine ⟨h.apart, ?_, ?_⟩
    · intro b hb
      rcases mem_append.mp hb with hb | hb
      · exact h.covers b hb
      · rwa [mem_singleton.mp hb]
    · intro b hb
      obtain ⟨l, r, rfl, hl⟩ := h.first b hb
      exact ⟨l, r ++ [a], by simp, hl⟩
  · rw [Common.absorb, if_neg habove]
    push Not at habove
    refine ⟨?_, ?_, ?_⟩
    · rw [pairwise_append]
      refine ⟨h.apart.filter _, pairwise_singleton _ _, ?_⟩
      intro b hb c hc
      rw [mem_singleton.mp hc]
      obtain ⟨hb, hba⟩ := mem_filter.mp hb
      exact ⟨of_decide_eq_true hba, habove b hb⟩
    · intro b hb
      rcases mem_append.mp hb with hb | hb
      · -- what covered `b` is kept or lies below the newcomer
        obtain ⟨c, hc, hbc⟩ := h.covers b hb
        by_cases hca : le c a
        · exact ⟨a, by simp, IsTrans.trans b c a hbc hca⟩
        · exact ⟨c, by simp [hc, hca], hbc⟩
      · rw [mem_singleton.mp hb]
        exact ⟨a, by simp, Std.Refl.refl a⟩
    · intro b hb
      rcases mem_append.mp hb with hb | hb
      · obtain ⟨l, r, rfl, hl⟩ := h.first b (mem_of_mem_filter hb)
        exact ⟨l, r ++ [a], by simp, hl⟩
      · rw [mem_singleton.mp hb]
        refine ⟨seen, [], rfl, ?_⟩
        intro c hc hac
        obtain ⟨d, hd, hcd⟩ := h.covers c hc
        exact habove d hd (IsTrans.trans a c d hac hcd)

theorem foldl_absorb (h : Frontier le seen kept) (news : List α) :
    Frontier le (seen ++ news) (news.foldl (Common.absorb le) kept) := by
  induction news generalizing seen kept with
  | nil => simpa using h
  | cons a _ ih => simpa using ih (h.absorb a)

end Frontier

end Fabric.Common
