import Mathlib.Data.Nat.Bitwise

/-!
# Self-delimiting encodings

The primitive encodings of protocol buffers: base-128 integers and byte strings with their
length in front. A decoder takes a value off the front of the bytes; bytes that decode to a value
whatever follows them are an encoding of it, and such encodings compose along the sequencing of
decoders.
-/

namespace Fabric.Common

open List

/-- A Go string or byte slice. -/
abbrev Bytes := List UInt8

/-- The errors of `proto.Buffer`. -/
inductive DecodeError
  | unexpectedEOF
  | overflow
  | badByteLength
deriving DecidableEq

/-- A decoder takes a value off the front of the bytes. -/
abbrev Decoder (α : Type) := StateT Bytes (Except DecodeError) α

/-- The bytes decode to the value, whatever follows them. -/
def Decodes {α : Type} (d : Decoder α) (bs : Bytes) (a : α) : Prop :=
  ∀ rest, d (bs ++ rest) = .ok (a, rest)

variable {α γ : Type} {d : Decoder α} {bs bs' : Bytes} {a : α} {x : ℕ}

namespace Decodes

theorem pure (a : α) : Decodes (Pure.pure a) [] a := fun _ => rfl

theorem bind {f : α → Decoder γ} {c : γ} (h : Decodes d bs a) (hf : Decodes (f a) bs' c) :
    Decodes (d >>= f) (bs ++ bs') c := by
  intro rest
  rw [append_assoc]
  change (d (bs ++ (bs' ++ rest)) >>= fun p => f p.1 p.2) = _
  rw [h]
  exact hf rest

theorem map (f : α → γ) (h : Decodes d bs a) : Decodes (f <$> d) bs (f a) := by
  have hpure := Decodes.pure (f a)
  simpa using h.bind (f := fun a => Pure.pure (f a)) hpure

end Decodes

/-- Decode a number of values. -/
def decodeN (d : Decoder α) : ℕ → Decoder (List α)
  | 0 => pure []
  | n + 1 => do
    let a ← d
    let as ← decodeN d n
    pure (a :: as)

theorem Decodes.decodeN {enc : α → Bytes} {l : List α} (h : ∀ a ∈ l, Decodes d (enc a) a) :
    Decodes (decodeN d l.length) (l.flatMap enc) l := by
  induction l with
  | nil => exact Decodes.pure []
  | cons a _ ih =>
    have hl := ih fun b hb => h b (mem_cons_of_mem a hb)
    rw [flatMap_cons]
    apply (h a mem_cons_self).bind
    simpa using hl.map (a :: ·)

/-! ### Integers -/

/-- A 64-bit unsigned integer as an `int`. -/
def int (n : ℕ) : ℤ := if n < 2 ^ 63 then n else n - 2 ^ 64

theorem int_of_lt {n : ℕ} (h : n < 2 ^ 63) : int n = n := if_pos h

/-- The base-128 encoding of a 64-bit unsigned integer, least significant digit first. -/
def encodeVarint (x : ℕ) : Bytes :=
  if x < 1 <<< 7 then [UInt8.ofNat x]
  else UInt8.ofNat (x &&& 0x7f ||| 0x80) :: encodeVarint (x >>> 7)
termination_by x
decreasing_by
  rw [Nat.shiftRight_eq_div_pow]
  simp only [Nat.reduceShiftLeft] at *
  omega

/-- The loop of `DecodeVarint`, at a shift and with the digits read so far. -/
def decodeVarintLoop (shift x : ℕ) : Bytes → Except DecodeError (ℕ × Bytes)
  | [] => .error (if shift < 64 then .unexpectedEOF else .overflow)
  | b :: rest =>
    if shift < 64 then
      let x := x ||| (b.toNat &&& 0x7f) <<< shift % 2 ^ 64
      if b < 0x80 then .ok (x, rest) else decodeVarintLoop (shift + 7) x rest
    else .error .overflow

/-- `Buffer.DecodeVarint`. -/
def decodeVarint : Decoder ℕ := decodeVarintLoop 0 0

/-- The function `DecodeVarint`, which returns the number of bytes it read, or zeros if
there is no integer. -/
def decodeVarintPrefix (bs : Bytes) : ℕ × ℕ :=
  match decodeVarintLoop 0 0 bs with
  | .ok (x, rest) => (x, bs.length - rest.length)
  | .error _ => (0, 0)

theorem encodeVarint_of_lt (h : x < 128) : encodeVarint x = [UInt8.ofNat x] := by
  rw [encodeVarint, if_pos (by simpa using h)]

theorem encodeVarint_of_le (h : 128 ≤ x) :
    encodeVarint x = UInt8.ofNat (x % 128 + 128) :: encodeVarint (x / 128) := by
  have hdigit : x &&& 0x7f ||| 0x80 = x % 128 + 128 := by
    have hmod := Nat.and_two_pow_sub_one_eq_mod x 7
    have hor := Nat.two_pow_add_eq_or_of_lt (Nat.mod_lt x (by decide : 0 < 2 ^ 7)) 1
    rw [hmod, Nat.or_comm, ← hor.trans rfl]
    omega
  rw [encodeVarint, if_neg (by simpa using h), hdigit, Nat.shiftRight_eq_div_pow]

/-- One digit is put above those read so far. -/
theorem or_shiftLeft_digit {acc n shift : ℕ} (hacc : acc < 2 ^ shift)
    (hn : n * 2 ^ shift < 2 ^ 64) :
    acc ||| n <<< shift % 2 ^ 64 = acc + n * 2 ^ shift := by
  rw [Nat.shiftLeft_eq, Nat.mod_eq_of_lt hn, Nat.or_comm, Nat.mul_comm,
    ← Nat.two_pow_add_eq_or_of_lt hacc, Nat.add_comm]

theorem decodeVarintLoop_encodeVarint (rest : Bytes) {acc shift : ℕ}
    (hacc : acc < 2 ^ shift) (hshift : shift < 64) (hx : x * 2 ^ shift < 2 ^ 64) :
    decodeVarintLoop shift acc (encodeVarint x ++ rest) = .ok (acc + x * 2 ^ shift, rest) := by
  induction x using Nat.strong_induction_on generalizing acc shift with
  | _ x ih =>
  by_cases hsmall : x < 128
  · have hbyte : (UInt8.ofNat x).toNat = x := by simp; omega
    have hlast : UInt8.ofNat x < 0x80 := UInt8.lt_iff_toNat_lt.mpr (by rw [hbyte]; exact hsmall)
    have hdigit := (Nat.and_two_pow_sub_one_eq_mod x 7).trans (Nat.mod_eq_of_lt hsmall)
    rw [encodeVarint_of_lt hsmall]
    simp only [singleton_append, decodeVarintLoop, hshift, if_true, hlast, hbyte, hdigit,
      or_shiftLeft_digit hacc hx]
  · -- the low digit comes first and the others follow seven bits further up
    have hsplit := Nat.div_add_mod x 128
    have hbyte : (UInt8.ofNat (x % 128 + 128)).toNat = x % 128 + 128 := by simp; omega
    have hmore : ¬ UInt8.ofNat (x % 128 + 128) < 0x80 := by
      rw [UInt8.lt_iff_toNat_lt, hbyte]
      exact Nat.not_lt.mpr (Nat.le_add_left _ _)
    have hdigit : x % 128 + 128 &&& 0x7f = x % 128 := by
      rw [Nat.and_two_pow_sub_one_eq_mod _ 7]
      omega
    have hlow := (Nat.mul_le_mul_right _ (Nat.mod_le x 128)).trans_lt hx
    have hpow : 2 ^ (shift + 7) = 128 * 2 ^ shift := by rw [Nat.pow_add, Nat.mul_comm]
    have hvalue : x / 128 * 2 ^ (shift + 7) + x % 128 * 2 ^ shift = x * 2 ^ shift := by
      rw [hpow, ← Nat.mul_assoc, ← Nat.add_mul, Nat.mul_comm (x / 128), hsplit]
    have hhigh : x / 128 * 2 ^ (shift + 7) < 2 ^ 64 := by omega
    have hacc' : acc + x % 128 * 2 ^ shift < 2 ^ (shift + 7) := by
      have hlt : x % 128 ≤ 127 := Nat.le_of_lt_succ (Nat.mod_lt x (by decide))
      have hmul := Nat.mul_le_mul_right (2 ^ shift) hlt
      omega
    have hshift' : shift + 7 < 64 := by
      have hone : 1 ≤ x / 128 := by omega
      have hle := (Nat.le_mul_of_pos_left _ hone).trans_lt hhigh
      exact (Nat.pow_lt_pow_iff_right (by decide)).mp hle
    rw [encodeVarint_of_le (Nat.not_lt.mp hsmall)]
    simp only [cons_append, decodeVarintLoop, hshift, if_true, hmore, if_false, hbyte, hdigit,
      or_shiftLeft_digit hacc hlow]
    rw [ih (x / 128) (by omega) hacc' hshift' hhigh]
    congr 2
    omega

theorem decodes_encodeVarint (hx : x < 2 ^ 64) : Decodes decodeVarint (encodeVarint x) x := by
  intro rest
  have hloop : decodeVarintLoop 0 0 (encodeVarint x ++ rest) = .ok (0 + x * 2 ^ 0, rest) :=
    decodeVarintLoop_encodeVarint rest (by decide) (by decide) (by simpa using hx)
  simpa [decodeVarint] using hloop

theorem decodeVarintPrefix_encodeVarint (hx : x < 2 ^ 64) (rest : Bytes) :
    decodeVarintPrefix (encodeVarint x ++ rest) = (x, (encodeVarint x).length) := by
  have hdec : decodeVarintLoop 0 0 (encodeVarint x ++ rest) = .ok (x, rest) :=
    decodes_encodeVarint hx rest
  simp [decodeVarintPrefix, hdec]

theorem decodeVarintLoop_lt {bs rest : Bytes} {shift acc x : ℕ} (hacc : acc < 2 ^ 64)
    (h : decodeVarintLoop shift acc bs = .ok (x, rest)) : x < 2 ^ 64 := by
  induction bs generalizing shift acc with
  | nil => simp [decodeVarintLoop] at h
  | cons b _ ih =>
    have hdigit : acc ||| (b.toNat &&& 0x7f) <<< shift % 2 ^ 64 < 2 ^ 64 :=
      Nat.or_lt_two_pow hacc (Nat.mod_lt _ (by decide))
    rw [decodeVarintLoop] at h
    split_ifs at h
    · cases h
      exact hdigit
    · exact ih hdigit h

theorem decodeVarintPrefix_lt (bs : Bytes) : (decodeVarintPrefix bs).1 < 2 ^ 64 := by
  unfold decodeVarintPrefix
  split
  · exact decodeVarintLoop_lt (Nat.two_pow_pos 64) ‹_›
  · exact Nat.two_pow_pos 64

theorem encodeVarint_ne_nil (x : ℕ) : encodeVarint x ≠ [] := by
  rw [encodeVarint]
  split <;> simp

/-! ### Byte strings -/

/-- `Buffer.EncodeRawBytes` and `Buffer.EncodeStringBytes`. -/
def encodeRawBytes (b : Bytes) : Bytes := encodeVarint (b.length % 2 ^ 64) ++ b

/-- `Buffer.DecodeRawBytes` and `Buffer.DecodeStringBytes`. -/
def decodeRawBytes : Decoder Bytes := do
  let n ← decodeVarint
  if int n < 0 then throw .badByteLength
  else
    let bs ← get
    if bs.length < n then throw .unexpectedEOF
    else
      set (bs.drop n)
      pure (bs.take n)

theorem decodes_encodeRawBytes {b : Bytes} (hb : b.length < 2 ^ 63) :
    Decodes decodeRawBytes (encodeRawBytes b) b := by
  have hlen : b.length % 2 ^ 64 = b.length := Nat.mod_eq_of_lt (by omega)
  have hint : ¬ int b.length < 0 := by
    rw [int_of_lt hb]
    omega
  unfold encodeRawBytes decodeRawBytes
  rw [hlen]
  apply (decodes_encodeVarint (by omega)).bind
  intro rest
  have hfits : ¬ (b ++ rest).length < b.length := by simp
  rw [if_neg hint]
  change (if (b ++ rest).length < b.length then throw DecodeError.unexpectedEOF
    else do set ((b ++ rest).drop b.length); pure ((b ++ rest).take b.length) : Decoder Bytes)
      (b ++ rest) = _
  rw [if_neg hfits, drop_left, take_left]
  rfl

theorem length_lt_encodeRawBytes (b : Bytes) : b.length < (encodeRawBytes b).length := by
  have hpos := length_pos_iff.mpr (encodeVarint_ne_nil (b.length % 2 ^ 64))
  rw [encodeRawBytes, length_append]
  omega

end Fabric.Common
