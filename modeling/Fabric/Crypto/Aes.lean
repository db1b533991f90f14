import Fabric.Common.Program
import Fabric.Common.Wire

/-!
# Encryption in CBC mode with padding

A ciphertext is an initialisation vector and whole blocks. The text that they decrypt to ends with
as many bytes of padding as its last byte says.
-/

namespace Fabric.Crypto

open Fabric.Common List

inductive AesError
  | keySize
  | ciphertextTooShort
  | ciphertextSize
  | invalidPadding
  | indexOutOfRange
deriving DecidableEq

def blockSize : ℕ := 16

/-- A block cipher by its keys. -/
structure BlockCipher where
  decrypt : (key block : Bytes) → Bytes
  length_decrypt : ∀ key block, block.length = blockSize → (decrypt key block).length = blockSize

/-! ### Padding -/

def pkcs7Padding (src : Bytes) : Bytes :=
  let padding := blockSize - src.length % blockSize
  src ++ replicate padding padding.toUInt8

/-- The indices are those of the last byte and of the padding. -/
def pkcs7UnPadding (src : Bytes) : Except AesError Bytes :=
  match src.getLast? with
  | none => .error .indexOutOfRange
  | some last =>
    let unpadding := last.toNat
    if blockSize < unpadding ∨ unpadding = 0 then .error .invalidPadding
    else if src.length < unpadding then .error .indexOutOfRange
    else if (src.drop (src.length - unpadding)).any (· != last) then .error .invalidPadding
    else .ok (src.take (src.length - unpadding))

theorem pkcs7UnPadding_eq_ok {src p : Bytes} (hsrc : src.length % blockSize = 0)
    (h : pkcs7UnPadding src = .ok p) : src = pkcs7Padding p := by
  unfold pkcs7UnPadding at h
  split at h
  · cases h
  · rename_i last hlast
    dsimp only at h
    split_ifs at h with hrange hlength hpad
    cases h
    -- the text ends with `last.toNat` bytes `last`, and is as long as whole blocks
    have hdrop : src.drop (src.length - last.toNat) = replicate last.toNat last := by
      refine eq_replicate_iff.mpr ⟨by rw [length_drop]; omega, ?_⟩
      simpa using hpad
    have hpadding : blockSize - (src.take (src.length - last.toNat)).length % blockSize =
        last.toNat := by
      rw [length_take]
      unfold blockSize at *
      omega
    rw [pkcs7Padding, hpadding]
    calc src = src.take (src.length - last.toNat) ++ src.drop (src.length - last.toNat) :=
          (take_append_drop _ _).symm
      _ = _ := by simp [hdrop]

theorem pkcs7UnPadding_inRange {src : Bytes} (hsrc : src.length % blockSize = 0) (hne : src ≠ []) :
    pkcs7UnPadding src ≠ .error .indexOutOfRange := by
  unfold pkcs7UnPadding
  split
  · exact absurd (getLast?_eq_none_iff.mp ‹_›) hne
  · have hpos := length_pos_iff.mpr hne
    dsimp only
    split_ifs with hrange hlength hpad
    · simp
    · unfold blockSize at *
      omega
    · simp
    · simp

/-! ### Decryption -/

variable (C : BlockCipher)

/-- Each block is combined with the block before it. -/
def cryptBlocks (key : Bytes) : (blocks : ℕ) → (iv src : Bytes) → Bytes
  | 0, _, _ => []
  | blocks + 1, iv, src =>
    zipWith (· ^^^ ·) (C.decrypt key (src.take blockSize)) iv ++
      cryptBlocks key blocks (src.take blockSize) (src.drop blockSize)

def cbcDecrypt (key src : Bytes) : Except AesError Bytes :=
  if key.length ∉ [16, 24, 32] then .error .keySize
  else if src.length < blockSize then .error .ciphertextTooShort
  else if (src.drop blockSize).length % blockSize ≠ 0 then .error .ciphertextSize
  else .ok (cryptBlocks C key ((src.drop blockSize).length / blockSize) (src.take blockSize)
    (src.drop blockSize))

def cbcPKCS7Decrypt (key src : Bytes) : Except AesError Bytes := do
  let pt ← cbcDecrypt C key src
  pkcs7UnPadding pt

variable {C} {key src pt : Bytes}

theorem length_cryptBlocks {blocks : ℕ} {iv : Bytes} (hiv : iv.length = blockSize)
    (hsrc : src.length = blocks * blockSize) :
    (cryptBlocks C key blocks iv src).length = blocks * blockSize := by
  induction blocks generalizing iv src with
  | zero => rfl
  | succ _ ih =>
    rw [Nat.succ_mul] at hsrc ⊢
    have hblock : (src.take blockSize).length = blockSize := by
      rw [length_take]
      omega
    rw [cryptBlocks, length_append, length_zipWith, C.length_decrypt key _ hblock, hiv,
      ih hblock (by rw [length_drop]; omega)]
    omega

/-- The text is as long as the ciphertext after the initialisation vector. -/
theorem length_of_cbcDecrypt (h : cbcDecrypt C key src = .ok pt) :
    pt.length % blockSize = 0 ∧ pt.length + blockSize = src.length := by
  unfold cbcDecrypt at h
  split_ifs at h with hkey hshort hsize
  cases h
  have hblocks := Nat.div_mul_cancel (Nat.dvd_of_mod_eq_zero (not_not.mp hsize))
  rw [length_cryptBlocks (by rw [length_take]; omega) hblocks.symm, hblocks]
  refine ⟨not_not.mp hsize, ?_⟩
  rw [length_drop]
  omega

theorem cbcDecrypt_ne_indexOutOfRange : cbcDecrypt C key src ≠ .error .indexOutOfRange := by
  unfold cbcDecrypt
  split_ifs <;> simp

/-- Decryption stays in range, and returns a text only if it is what was padded. -/
def Tolerates (C : BlockCipher) (key src : Bytes) : Prop :=
  cbcPKCS7Decrypt C key src ≠ .error .indexOutOfRange ∧
    ∀ p, cbcPKCS7Decrypt C key src = .ok p → cbcDecrypt C key src = .ok (pkcs7Padding p)

/-- All ciphertexts are tolerated except those without any block. -/
theorem tolerates_iff (C : BlockCipher) (key src : Bytes) (hkey : key.length ∈ [16, 24, 32]) :
    Tolerates C key src ↔ src.length ≠ blockSize := by
  constructor
  · rintro ⟨hrange, -⟩ hsrc
    refine hrange ?_
    have hdrop : src.drop blockSize = [] := drop_eq_nil_of_le hsrc.le
    rw [cbcPKCS7Decrypt, cbcDecrypt, if_neg (not_not.mpr hkey), if_neg hsrc.not_lt, hdrop]
    rfl
  · intro hsrc
    unfold Tolerates cbcPKCS7Decrypt
    cases hpt : cbcDecrypt C key src with
    | error =>
      refine ⟨fun h => cbcDecrypt_ne_indexOutOfRange (hpt.trans h), fun p h => ?_⟩
      cases h
    | ok pt =>
      obtain ⟨hblocks, hlength⟩ := length_of_cbcDecrypt hpt
      have hne : pt ≠ [] := by
        rintro rfl
        exact hsrc (by simpa using hlength.symm)
      refine ⟨pkcs7UnPadding_inRange hblocks hne, fun p hp => ?_⟩
      rw [← pkcs7UnPadding_eq_ok hblocks hp]

/-- A cipher that leaves the blocks as they are. -/
def BlockCipher.plain : BlockCipher := ⟨fun _ block => block, fun _ _ h => h⟩

theorem tolerates_two_blocks : (replicate 16 (0 : UInt8)).length ∈ [16, 24, 32] ∧
    Tolerates .plain (replicate 16 0) (replicate 48 0) :=
  ⟨by decide, (tolerates_iff _ _ _ (by decide)).mpr (by decide)⟩

theorem not_tolerates_vector_only :
    ¬ Tolerates .plain (replicate 16 0) (replicate 16 0) := fun h => h.1 rfl

end Fabric.Crypto
