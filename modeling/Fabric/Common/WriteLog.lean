import Mathlib.Data.List.Induction

/-!
# Write logs

A log of writes to the cells of a state. Replaying the log gives the state; the number of
writes to a cell is its version, and while the version of a cell stays the same, so does
its value.
-/

namespace Fabric.Common

open List Function

variable {K V : Type} [DecidableEq K] {log log' : List (K × V)} {k : K} {st : K → V} {st' : K → V}

/-- The state after the writes of a log, in order. -/
def replay (log : List (K × V)) (st : K → V) : K → V :=
  log.foldl (fun st w => Function.update st w.1 w.2) st

/-- How often a log writes to a cell. -/
def writeCount (log : List (K × V)) (k : K) : ℕ := log.countP (·.1 = k)

@[simp] theorem replay_nil : replay [] st = st := rfl

@[simp] theorem replay_append : replay (log ++ log') st = replay log' (replay log st) :=
  foldl_append

@[simp] theorem replay_cons (w : K × V) :
    replay (w :: log) st = replay log (update st w.1 w.2) := rfl

@[simp] theorem writeCount_nil : writeCount ([] : List (K × V)) k = 0 := rfl

@[simp] theorem writeCount_append :
    writeCount (log ++ log') k = writeCount log k + writeCount log' k := countP_append

@[simp] theorem writeCount_singleton (w : K × V) : writeCount [w] k = if w.1 = k then 1 else 0 := by
  simp [writeCount]

theorem writeCount_eq_zero_iff : writeCount log k = 0 ↔ k ∉ log.map Prod.fst := by
  simp only [writeCount, countP_eq_zero, decide_eq_true_eq, mem_map, not_exists, not_and]

theorem replay_of_writeCount_eq_zero (h : writeCount log k = 0) : replay log st k = st k := by
  induction log generalizing st with
  | nil => rfl
  | cons _ _ ih =>
    rw [writeCount_eq_zero_iff, map_cons, mem_cons, not_or] at h
    rw [replay_cons, ih (writeCount_eq_zero_iff.mpr h.2), update_of_ne h.1]

/-- A cell that is written has the value of one of the writes. -/
theorem exists_mem_replay_eq (h : k ∈ log.map Prod.fst) :
    ∃ w ∈ log, w.1 = k ∧ replay log st k = w.2 := by
  induction log generalizing st with
  | nil => simp at h
  | cons w log ih =>
    by_cases hlater : k ∈ log.map Prod.fst
    · obtain ⟨w', hmem, hk, hvalue⟩ := @ih (update st w.1 w.2) hlater
      exact ⟨w', mem_cons_of_mem w hmem, hk, hvalue⟩
    · obtain rfl : k = w.1 := by simpa [hlater] using h
      refine ⟨w, mem_cons_self, rfl, ?_⟩
      rw [replay_cons, replay_of_writeCount_eq_zero (writeCount_eq_zero_iff.mpr hlater)]
      exact update_self ..

/-- The value of a cell that is written does not depend on the state before. -/
theorem replay_congr_of_mem (h : k ∈ log.map Prod.fst) : replay log st k = replay log st' k := by
  induction log generalizing st st' with
  | nil => simp at h
  | cons w log ih =>
    rw [replay_cons, replay_cons]
    by_cases hlater : k ∈ log.map Prod.fst
    · exact ih hlater
    · obtain rfl : k = w.1 := by simpa [hlater] using h
      have hcount := writeCount_eq_zero_iff.mpr hlater
      rw [replay_of_writeCount_eq_zero hcount, replay_of_writeCount_eq_zero hcount,
        update_self, update_self]

/-- The value of a cell depends on the state before only at the cell. -/
theorem replay_congr (h : st k = st' k) : replay log st k = replay log st' k := by
  by_cases hmem : k ∈ log.map Prod.fst
  · exact replay_congr_of_mem hmem
  · have hcount := writeCount_eq_zero_iff.mpr hmem
    rw [replay_of_writeCount_eq_zero hcount, replay_of_writeCount_eq_zero hcount, h]

/-- While the number of writes to a cell stays the same, so does its value. -/
theorem replay_append_of_writeCount_eq (h : writeCount (log ++ log') k = writeCount log k) :
    replay (log ++ log') st k = replay log st k := by
  rw [writeCount_append] at h
  rw [replay_append, replay_of_writeCount_eq_zero (by omega)]

section Map

variable {K' : Type} [DecidableEq K'] {f : K → K'}

/-- Renaming the cells of a log, where no other cell is renamed to the one in question. -/
theorem replay_map (h : ∀ w ∈ log, f w.1 = f k → w.1 = k) (st : K' → V) :
    replay (log.map fun w => (f w.1, w.2)) st (f k) = replay log (fun k => st (f k)) k := by
  induction log using List.reverseRecOn with
  | nil => rfl
  | append_singleton _ w ih =>
    have hlog := ih fun w' hw' => h w' (mem_append_left _ hw')
    simp only [map_append, map_cons, map_nil, replay_append, replay_cons, replay_nil,
      update_apply, hlog]
    have hiff : f k = f w.1 ↔ k = w.1 := by
      constructor
      · intro heq
        exact (h w (by simp) heq.symm).symm
      · rintro rfl
        rfl
    simp only [hiff]

theorem writeCount_map (h : ∀ w ∈ log, f w.1 = f k → w.1 = k) :
    writeCount (log.map fun w => (f w.1, w.2)) (f k) = writeCount log k := by
  rw [writeCount, countP_map]
  apply countP_congr
  intro w hw
  simp only [comp_apply, decide_eq_true_eq]
  constructor
  · exact h w hw
  · rintro rfl
    rfl

end Map

end Fabric.Common
