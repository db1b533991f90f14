import Fabric.Common.Wire

/-!
# Files of frames

A frame is a byte string behind its length, and a file is a sequence of frames. A writer
that stops in the middle leaves a beginning of a frame at the end. A reader looks at no more
than eight bytes for the length, and tells the end of the file, a torn frame and a whole one
apart by the number of bytes that are left.
-/

namespace Fabric.Common

open List

/-! ### Lengths -/

theorem length_encodeVarint_le {x k : ℕ} (h : x < 2 ^ (7 * (k + 1))) :
    (encodeVarint x).length ≤ k + 1 := by
  induction k generalizing x with
  | zero =>
    rw [encodeVarint_of_lt (by simpa using h)]
    rfl
  | succ k ih =>
    by_cases hx : x < 128
    · rw [encodeVarint_of_lt hx]
      simp
    · have hdiv : x / 128 < 2 ^ (7 * (k + 1)) := by
        rw [Nat.div_lt_iff_lt_mul (by decide)]
        rwa [Nat.mul_succ, Nat.pow_add] at h
      rw [encodeVarint_of_le (Nat.not_lt.mp hx)]
      exact Nat.succ_le_succ (ih hdiv)

/-- The digits of a length that was cut all announce another one. -/
theorem decodeVarintLoop_of_isPrefix {x shift acc : ℕ} {p : Bytes} (hp : p <+: encodeVarint x)
    (hne : p ≠ encodeVarint x) : ∃ e, decodeVarintLoop shift acc p = .error e := by
  induction x using Nat.strong_induction_on generalizing p shift acc with
  | _ x ih =>
  cases p with
  | nil => exact ⟨_, rfl⟩
  | cons =>
    by_cases hx : x < 128
    · rw [encodeVarint_of_lt hx, cons_prefix_cons] at hp
      rw [encodeVarint_of_lt hx, hp.1, prefix_nil.mp hp.2] at hne
      exact absurd rfl hne
    · have hbyte : (UInt8.ofNat (x % 128 + 128)).toNat = x % 128 + 128 := by simp; omega
      have hmore : ¬ UInt8.ofNat (x % 128 + 128) < 0x80 := by
        rw [UInt8.lt_iff_toNat_lt, hbyte]
        exact Nat.not_lt.mpr (Nat.le_add_left _ _)
      rw [encodeVarint_of_le (Nat.not_lt.mp hx), cons_prefix_cons] at hp
      obtain ⟨rfl, hp⟩ := hp
      rw [encodeVarint_of_le (Nat.not_lt.mp hx)] at hne
      rw [decodeVarintLoop]
      by_cases hshift : shift < 64
      · rw [if_pos hshift]
        simp only [hmore]
        exact ih (x / 128) (by omega) hp fun heq => hne (by rw [heq])
      · exact ⟨_, if_neg hshift⟩

theorem decodeVarintPrefix_of_isPrefix {x : ℕ} {p : Bytes} (hp : p <+: encodeVarint x)
    (hne : p ≠ encodeVarint x) : decodeVarintPrefix p = (0, 0) := by
  have herror : ∃ e, decodeVarintLoop 0 0 p = .error e := decodeVarintLoop_of_isPrefix hp hne
  obtain ⟨e, he⟩ := herror
  rw [decodeVarintPrefix, he]

/-! ### Frames -/

/-- A byte string with its length in front. -/
def frame (b : Bytes) : Bytes := encodeVarint b.length ++ b

/-- Byte strings with their lengths in front, one after the other. -/
def frames (bs : List Bytes) : Bytes := bs.flatMap frame

@[simp] theorem frames_nil : frames [] = [] := rfl

@[simp] theorem frames_cons (b : Bytes) (bs : List Bytes) :
    frames (b :: bs) = frame b ++ frames bs := flatMap_cons

@[simp] theorem frames_append (bs bs' : List Bytes) :
    frames (bs ++ bs') = frames bs ++ frames bs' := flatMap_append

theorem length_frame (b : Bytes) :
    (frame b).length = (encodeVarint b.length).length + b.length := length_append

theorem length_frame_pos (b : Bytes) : 0 < (frame b).length := by
  have hpos := length_pos_iff.mpr (encodeVarint_ne_nil b.length)
  rw [length_frame]
  omega

/-- There are no more frames than bytes. -/
theorem length_le_length_frames (bs : List Bytes) : bs.length ≤ (frames bs).length := by
  induction bs with
  | nil => rfl
  | cons b =>
    have hpos := length_frame_pos b
    rw [frames_cons, length_append, length_cons]
    omega

/-- What a reader finds in front of it: a frame that was cut, no length at all, or a frame
of some length behind a number of bytes. -/
inductive Head
  | torn
  | malformed
  | frame (n length : ℕ)
deriving DecidableEq

/-- The number of bytes that are looked at for the length. -/
def headSize : ℕ := 8

/-- What the next bytes say, with the number of bytes that are left in the file. -/
def readHead (remaining : ℕ) (lenBytes : Bytes) : Head :=
  let (length, n) := decodeVarintPrefix lenBytes
  if n = 0 then
    if remaining < headSize then .torn else .malformed
  else if remaining < n + length then .torn
  else .frame n length

theorem length_encodeVarint_le_headSize {b : Bytes} (hb : b.length < 2 ^ 56) :
    (encodeVarint b.length).length ≤ headSize := length_encodeVarint_le hb

/-- A whole frame is found, whatever follows it and however much of that is counted. -/
theorem readHead_frame {b rest : Bytes} {remaining : ℕ} (hb : b.length < 2 ^ 56)
    (hremaining : (frame b).length ≤ remaining) :
    readHead remaining ((frame b ++ rest).take (min headSize remaining)) =
      .frame (encodeVarint b.length).length b.length := by
  have hhead := length_encodeVarint_le_headSize hb
  have hlen := length_frame b
  have hpos := length_pos_iff.mpr (encodeVarint_ne_nil b.length)
  have htake : (frame b ++ rest).take (min headSize remaining) = encodeVarint b.length ++
      (b ++ rest).take (min headSize remaining - (encodeVarint b.length).length) := by
    rw [frame, append_assoc, take_append, take_of_length_le (by omega)]
  rw [htake, readHead, decodeVarintPrefix_encodeVarint (by omega)]
  dsimp only
  rw [if_neg (by omega), if_neg (by omega)]

/-- A frame that was cut anywhere is recognized. -/
theorem readHead_torn {b p : Bytes} (hb : b.length < 2 ^ 56) (hp : p <+: frame b)
    (hne : p ≠ frame b) : readHead p.length (p.take (min headSize p.length)) = .torn := by
  have hhead := length_encodeVarint_le_headSize hb
  have hlen := length_frame b
  have hlt := lt_of_le_of_ne hp.length_le fun heq => hne (hp.eq_of_length heq)
  by_cases hcut : p.length < (encodeVarint b.length).length
  · -- the cut goes through the length
    have hprefix := prefix_of_prefix_length_le hp (prefix_append _ _) hcut.le
    have hzero := decodeVarintPrefix_of_isPrefix hprefix fun heq => by simp [heq] at hcut
    rw [take_of_length_le (by omega), readHead, hzero]
    dsimp only
    rw [if_pos rfl, if_pos (by omega)]
  · have hprefix := prefix_of_prefix_length_le (prefix_append _ _) hp (by omega)
    obtain ⟨rest, rfl⟩ := hprefix
    have hpos := length_pos_iff.mpr (encodeVarint_ne_nil b.length)
    rw [length_append] at hlt
    rw [length_append, take_append, take_of_length_le (by omega), readHead,
      decodeVarintPrefix_encodeVarint (by omega)]
    dsimp only
    rw [if_neg (by omega), if_pos (by omega)]

end Fabric.Common
