import Mathlib.Data.Nat.Basic

/-!
# Channels of tokens

A buffered channel whose elements carry no data is its capacity and the number of tokens in it.
For a goroutine that is alone with the channel, putting a token into a full channel, or taking one
from an empty channel, blocks for ever.
-/

namespace Fabric.Common

structure TokenChan where
  capacity : ℕ
  length : ℕ
  length_le : length ≤ capacity
deriving DecidableEq

namespace TokenChan

variable {c c' : TokenChan} {n : ℕ}

/-- An empty channel. -/
def make (capacity : ℕ) : TokenChan := ⟨capacity, 0, Nat.zero_le capacity⟩

/-- Put a token into the channel, unless it is full. -/
def put (c : TokenChan) : Option TokenChan :=
  if h : c.length < c.capacity then some ⟨c.capacity, c.length + 1, h⟩ else none

/-- Take a token from the channel, unless it is empty. -/
def take (c : TokenChan) : Option TokenChan :=
  if c.length = 0 then none
  else some ⟨c.capacity, c.length - 1, Nat.le_trans (Nat.sub_le c.length 1) c.length_le⟩

/-- Put `n` tokens into the channel, one after another. -/
def fill (c : TokenChan) : ℕ → Option TokenChan
  | 0 => some c
  | n + 1 => c.put.bind fun c => c.fill n

theorem take_eq_some (h : c.take = some c') :
    c'.capacity = c.capacity ∧ c'.length + 1 = c.length := by
  unfold take at h
  split_ifs at h with hempty
  cases h
  exact ⟨rfl, Nat.succ_pred_eq_of_ne_zero hempty⟩

/-- A token that was taken can be put back. -/
theorem put_of_take (h : c.take = some c') : c'.put = some c := by
  obtain ⟨hcapacity, hlength⟩ := take_eq_some h
  have hroom : c'.length < c'.capacity := by
    rw [hcapacity]
    exact Nat.lt_of_lt_of_le (by omega) c.length_le
  rw [put]
  cases c
  simp_all

/-- A channel with room for all tokens can be filled. -/
theorem fill_of_room (h : c.length + n ≤ c.capacity) :
    c.fill n = some ⟨c.capacity, c.length + n, h⟩ := by
  induction n generalizing c with
  | zero => rfl
  | succ _ ih =>
    have hput : c.put = some ⟨c.capacity, c.length + 1, by omega⟩ := dif_pos (by omega)
    rw [fill, hput, Option.bind_some, ih (by simpa [Nat.add_assoc, Nat.add_comm 1] using h)]
    simp [Nat.add_assoc, Nat.add_comm 1]

end TokenChan

end Fabric.Common
