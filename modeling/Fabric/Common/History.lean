import Mathlib.Data.List.Infix

/-!
# Histories

A history is a list of events, latest first. A property of a history that speaks of
each event together with what happened before it survives cutting the history
short, which is what a crash does to it.
-/

namespace Fabric.Common

open List

variable {α : Type} {φ ψ : α → List α → Prop} {e : α} {t t' block : List α} {es : List α}

/-- Every event of the history satisfies `φ` relative to the history before it. -/
def Always (φ : α → List α → Prop) : List α → Prop
  | [] => True
  | e :: t => φ e t ∧ Always φ t

@[simp] theorem always_nil : Always φ [] := trivial

@[simp] theorem always_cons : Always φ (e :: t) ↔ φ e t ∧ Always φ t := Iff.rfl

instance decidableAlways [∀ e t, Decidable (φ e t)] : (t : List α) → Decidable (Always φ t)
  | [] => .isTrue trivial
  | e :: t => @instDecidableAnd (φ e t) (Always φ t) _ (decidableAlways t)

theorem Always.suffix (h : Always φ t) (hs : t' <:+ t) : Always φ t' := by
  induction t with
  | nil =>
    rw [suffix_nil] at hs
    exact hs ▸ h
  | cons _ _ ih =>
    rcases suffix_cons_iff.mp hs with rfl | hs
    · exact h
    · exact ih h.2 hs

/-- The property at an event of the history. -/
theorem Always.at (h : Always φ t) (hs : e :: t' <:+ t) : φ e t' := (h.suffix hs).1

theorem always_iff_forall_suffix : Always φ t ↔ ∀ e t', e :: t' <:+ t → φ e t' := by
  constructor
  · intro h e t' hs
    exact h.at hs
  · intro h
    induction t with
    | nil => trivial
    | cons e t ih =>
      refine ⟨h e t (suffix_refl _), ih fun e' t' hs => ?_⟩
      exact h e' t' (hs.trans (suffix_cons e t))

theorem Always.mono (h : Always φ t) (hφ : ∀ e t', e :: t' <:+ t → φ e t' → ψ e t') :
    Always ψ t := by
  rw [always_iff_forall_suffix] at h ⊢
  exact fun e t' hs => hφ e t' hs (h e t' hs)

theorem Always.and (h : Always φ t) (h' : Always ψ t) : Always (fun e t => φ e t ∧ ψ e t) t := by
  rw [always_iff_forall_suffix] at *
  exact fun e t' hs => ⟨h e t' hs, h' e t' hs⟩

/-- A property of single events. -/
theorem always_iff_forall_mem {p : α → Prop} : Always (fun e _ => p e) t ↔ ∀ e ∈ t, p e := by
  induction t with
  | nil => simp
  | cons _ _ ih => simp [ih]

/-- A block of events of which each has the property whatever came before it. -/
theorem always_append_iff (hb : ∀ e ∈ block, ∀ t, φ e t) : Always φ (block ++ t) ↔ Always φ t := by
  induction block with
  | nil => rfl
  | cons e _ ih =>
    rw [cons_append, always_cons, ih fun e' he' => hb e' (mem_cons_of_mem e he')]
    exact ⟨And.right, fun h => ⟨hb e mem_cons_self _, h⟩⟩

/-- An event of a history splits it. -/
theorem exists_suffix_of_mem (h : e ∈ t) : ∃ t', e :: t' <:+ t := by
  obtain ⟨newer, older, rfl⟩ := append_of_mem h
  exact ⟨older, suffix_append newer _⟩

theorem Always.of_mem (h : Always φ t) (he : e ∈ t) : ∃ t', e :: t' <:+ t ∧ φ e t' := by
  obtain ⟨t', hs⟩ := exists_suffix_of_mem he
  exact ⟨t', hs, h.at hs⟩

/-! ### Events added to a history -/

attribute [simp] suffix_cons_iff

/-- A history that is cut short ends before a block of events or within it. -/
@[simp] theorem suffix_append_iff :
    t <:+ es ++ t' ↔ t <:+ t' ∨ ∃ es', es' <:+ es ∧ t = es' ++ t' := by
  constructor
  · intro h
    rcases suffix_or_suffix_of_suffix h (suffix_append es t') with hle | ⟨es', rfl⟩
    · exact .inl hle
    · exact .inr ⟨es', suffix_append_self_iff.mp h, rfl⟩
  · rintro (h | ⟨es', ⟨newer, rfl⟩, rfl⟩)
    · exact suffix_append_of_suffix h
    · exact ⟨newer, by simp⟩

/-- The event `e` was added to `t` on the way to `t'`. -/
def Added (t t' : List α) (e : α) : Prop := ∃ u, e :: u <:+ t' ∧ t <:+ u

@[simp] theorem not_added_self : ¬ Added t t e := by
  rintro ⟨u, hu, htu⟩
  have hlen := hu.length_le.trans htu.length_le
  rw [length_cons] at hlen
  omega

@[simp] theorem added_cons {e' : α} (h : t <:+ t') :
    Added t (e' :: t') e ↔ e = e' ∨ Added t t' e := by
  constructor
  · rintro ⟨u, hu, htu⟩
    rcases suffix_cons_iff.mp hu with heq | hu
    · exact .inl (List.cons.inj heq).1
    · exact .inr ⟨u, hu, htu⟩
  · rintro (rfl | ⟨u, hu, htu⟩)
    · exact ⟨t', suffix_refl _, h⟩
    · exact ⟨u, hu.trans (suffix_cons _ _), htu⟩

@[simp] theorem added_append (h : t <:+ t') : Added t (es ++ t') e ↔ e ∈ es ∨ Added t t' e := by
  induction es with
  | nil => simp
  | cons _ _ ih =>
    rw [cons_append, added_cons (suffix_append_of_suffix h), ih, mem_cons, or_assoc]

/-- An event of the longer history is one of the shorter or was added. -/
theorem mem_or_added (hs : t <:+ t') (h : e ∈ t') : e ∈ t ∨ Added t t' e := by
  obtain ⟨es, rfl⟩ := hs
  rw [added_append (suffix_refl t)]
  exact (mem_append.mp h).symm.imp id .inl

/-- A property holds throughout the longer history if it held throughout the shorter
and holds of what was added. -/
theorem Always.extend (h : Always φ t) (hs : t <:+ t')
    (hnew : ∀ e u, Added t t' e → t <:+ u → e :: u <:+ t' → φ e u) : Always φ t' := by
  rw [always_iff_forall_suffix] at h ⊢
  intro e u hu
  rcases suffix_or_suffix_of_suffix hu hs with hle | hge
  · exact h e u hle
  · rcases suffix_cons_iff.mp hge with rfl | hge
    · exact h e u (suffix_refl _)
    · exact hnew e u ⟨u, hu, hge⟩ hge hu

end Fabric.Common
