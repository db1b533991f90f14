import Mathlib.Tactic.Common

/-!
# Maps that are replaced in two phases

A map whose replacement is prepared beside it: a proposal is begun, entries are added to
it, and it is committed or abandoned. Calls out of turn are refused.
-/

namespace Fabric.Common

/-- A map and the proposal for its replacement, if one was begun. -/
structure Staged (κ ν : Type) [Ord κ] where
  committed : Std.ExtTreeMap κ ν
  pending : Option (Std.ExtTreeMap κ ν)

namespace Staged

variable {κ ν ε : Type} [Ord κ]

/-- The empty map. -/
def empty : Staged κ ν := ⟨∅, none⟩

/-- Begin a proposal, unless there is one. -/
def begin (busy : ε) (s : Staged κ ν) : Except ε (Staged κ ν) :=
  match s.pending with
  | some _ => .error busy
  | none => .ok { s with pending := some ∅ }

theorem pending_of_begin {busy : ε} {s s' : Staged κ ν} (h : s.begin busy = .ok s') :
    s.pending = none := by
  unfold begin at h
  split at h
  · cases h
  · assumption

/-- Abandon the proposal. -/
def rollback (s : Staged κ ν) : Staged κ ν := { s with pending := none }

/-- Replace the map by the proposal. -/
def commit (idle : ε) (s : Staged κ ν) : Except ε (Staged κ ν) :=
  match s.pending with
  | none => .error idle
  | some pending => .ok ⟨pending, none⟩

/-- Add an entry to the proposal. -/
def propose [Std.TransOrd κ] (idle : ε) (key : κ) (value : ν) (s : Staged κ ν) :
    Except ε (Staged κ ν) :=
  match s.pending with
  | none => .error idle
  | some pending => .ok { s with pending := some (pending.insert key value) }

end Staged

end Fabric.Common
