import Mathlib.Data.Option.Basic

/-!
# Locks

A lock that one thread at a time can hold, and the part of each thread that it guards.
-/

namespace Fabric.Common

variable {α : Type*} {lock lock' : Option α} {inside inside' : α → Prop} {a b : α}

/-- A thread holds the lock exactly while it is inside. -/
def Guards (lock : Option α) (inside : α → Prop) : Prop := ∀ a, lock = some a ↔ inside a

/-- An operation of a thread keeps the lock, takes it or gives it back, as `before` and `after` say.
-/
inductive Passes (a : α) (before after : Prop) : Option α → Option α → Prop
  | keep {lock : Option α} (h : after ↔ before) : Passes a before after lock lock
  | acquire (h : after) : Passes a before after none (some a)
  | release {lock : Option α} (hbefore : before) (hafter : ¬after) : Passes a before after lock none

/-- If no other thread held the lock, none does. -/
theorem Passes.free_or_own {before after : Prop} (h : Passes a before after lock lock')
    (hlock : lock = none ∨ lock = some a) : lock' = none ∨ lock' = some a := by
  cases h with
  | keep => exact hlock
  | acquire => exact .inr rfl
  | release => exact .inl rfl

/-- At most one thread is inside. -/
theorem Guards.exclusive (h : Guards lock inside) (ha : inside a) (hb : inside b) : a = b := by
  have hlock := (h a).mpr ha
  rw [(h b).mpr hb] at hlock
  exact (Option.some.inj hlock).symm

theorem Guards.of_passes (h : Guards lock inside)
    (hpass : Passes a (inside a) (inside' a) lock lock')
    (hothers : ∀ b, b ≠ a → (inside' b ↔ inside b)) : Guards lock' inside' := by
  intro b
  by_cases hb : b = a
  · subst hb
    cases hpass with
    | keep hsame => exact (h b).trans hsame.symm
    | acquire hafter => exact iff_of_true rfl hafter
    | release _ hafter => exact iff_of_false (by simp) hafter
  · rw [hothers b hb]
    cases hpass with
    | keep _ => exact h b
    | acquire _ =>
      -- the lock was free, so nobody was inside
      refine iff_of_false (fun hlock => hb (Option.some.inj hlock).symm) fun hin => ?_
      have hlock := (h b).mpr hin
      simp at hlock
    | release hbefore _ =>
      exact iff_of_false (by simp) fun hin => hb (h.exclusive hin hbefore)

end Fabric.Common
