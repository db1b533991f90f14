import Fabric.Common.BigEndian
import Fabric.Gossip.Message
import Mathlib.Data.List.Nodup

/-!
# Anti-entropy

A peer compares the height of its ledger with the heights that the others advertise, and asks one
of those that are furthest ahead for all the blocks it is missing. Their numbers are collected by
a loop that counts with 64-bit numbers up to the advertised height. Above the greatest number
there is no number at which the loop could stop.
-/

namespace Fabric.Gossip

open Fabric.Common List

/-! ### Metadata -/

/-- What a peer advertises: the number of the last block of its ledger. -/
structure NodeMetastate where
  ledgerHeight : UInt64
deriving DecidableEq

def NodeMetastate.bytes (n : NodeMetastate) : Bytes := bigEndian n.ledgerHeight.toNat

/-- Fewer than eight bytes are an error; further bytes are not read. -/
def fromBytes (buf : Bytes) : Option NodeMetastate :=
  if buf.length < 8 then none else some ⟨UInt64.ofNat (bigEndianValue (buf.take 8))⟩

/-! ### The step -/

/-- The height that a peer advertises. -/
def advertised (p : NetworkMember) : Option UInt64 := (fromBytes p.metadata).map (·.ledgerHeight)

/-- The maximum once one more peer has been looked at. -/
def raise (max : UInt64) (p : NetworkMember) : UInt64 :=
  match advertised p with
  | some height => if max < height then height else max
  | none => max

/-- The greatest of the ledger's height and the heights that the peers advertise. -/
def maxHeight (current : UInt64) (peers : List NetworkMember) : UInt64 := peers.foldl raise current

/-- The loop `for i := start; i <= end; i++`, unless it has not ended after some iterations. -/
def appendSeqNums (iterations : ℕ) (i last : UInt64) (seqNums : List UInt64) :
    Option (List UInt64) :=
  if i ≤ last then
    match iterations with
    | 0 => none
    | iterations + 1 => appendSeqNums iterations (i + 1) last (seqNums ++ [i])
  else some seqNums

/-- The request and the peer it is sent to; `pick` is the random choice among those that can serve.
-/
def requestBlocksInRange (iterations pick : ℕ) (peers : List NetworkMember)
    (start last : UInt64) : Option (Option (NetworkMember × RemoteStateRequest)) :=
  let candidates := peers.filter fun p => (advertised p).any fun height => height ≥ last
  match candidates[pick % candidates.length]? with
  | none => some none
  | some peer =>
    (appendSeqNums iterations start last []).map fun seqNums => some (peer, ⟨seqNums⟩)

/-- What one step requests, unless its loop has not ended after some iterations. -/
def antiEntropy (iterations pick : ℕ) (current : UInt64) (peers : List NetworkMember) :
    Option (Option (NetworkMember × RemoteStateRequest)) :=
  let max := maxHeight current peers
  if current = max then some none
  else requestBlocksInRange iterations pick peers (current + 1) max

/-- The numbers that a step asks for. -/
def requested (out : Option (NetworkMember × RemoteStateRequest)) : List UInt64 :=
  (out.map fun request => request.2.seqNums).getD []

/-- The step ends, and asks for each block from the ledger's height up to the greatest height once.
-/
def RequestsGap (pick : ℕ) (current : UInt64) (peers : List NetworkMember) : Prop :=
  ∃ iterations out, antiEntropy iterations pick current peers = some out ∧ (requested out).Nodup ∧
    ∀ n, n ∈ requested out ↔ current < n ∧ n ≤ maxHeight current peers

/-! ### The loop -/

/-- The greatest number of 64 bits. -/
def maxUInt64 : UInt64 := 0xffffffffffffffff

variable {i last : UInt64} {seqNums : List UInt64}

theorem le_maxUInt64 (n : UInt64) : n ≤ maxUInt64 := by
  have hlt := n.toNat_lt
  rw [UInt64.le_iff_toNat_le, show maxUInt64.toNat = 2 ^ 64 - 1 from rfl]
  omega

theorem toNat_succ {n : UInt64} (h : n ≠ maxUInt64) : (n + 1).toNat = n.toNat + 1 := by
  have hne := mt UInt64.toNat_inj.mp h
  have hlt := n.toNat_lt
  rw [show maxUInt64.toNat = 2 ^ 64 - 1 from rfl] at hne
  rw [UInt64.toNat_add, UInt64.toNat_one]
  omega

theorem appendSeqNums_maxUInt64 (iterations : ℕ) :
    appendSeqNums iterations i maxUInt64 seqNums = none := by
  induction iterations generalizing i seqNums with
  | zero => rw [appendSeqNums, if_pos (le_maxUInt64 i)]
  | succ _ ih =>
    rw [appendSeqNums, if_pos (le_maxUInt64 i)]
    exact ih

theorem appendSeqNums_eq (hlast : last ≠ maxUInt64) (seqNums : List UInt64) (count : ℕ)
    (hcount : i.toNat + count = last.toNat + 1) :
    appendSeqNums count i last seqNums =
      some (seqNums ++ (List.range' i.toNat count).map UInt64.ofNat) := by
  -- on the number of iterations that are left
  induction count generalizing i seqNums with
  | zero =>
    have hgt : ¬ i ≤ last := by
      rw [UInt64.le_iff_toNat_le]
      omega
    rw [appendSeqNums, if_neg hgt]
    simp
  | succ _ ih =>
    have hle : i ≤ last := by
      rw [UInt64.le_iff_toNat_le]
      omega
    have hne : i ≠ maxUInt64 := by
      rintro rfl
      exact hlast (UInt64.le_antisymm (le_maxUInt64 last) hle)
    have hsucc := toNat_succ hne
    rw [appendSeqNums, if_pos hle]
    rw [ih _ (by omega), hsucc, List.range'_succ]
    simp

/-! ### The greatest height -/

variable {current : UInt64} {peers : List NetworkMember}

theorem raise_spec (max : UInt64) (p : NetworkMember) :
    max ≤ raise max p ∧ (∀ height, advertised p = some height → height ≤ raise max p) ∧
    (raise max p = max ∨ advertised p = some (raise max p)) := by
  unfold raise
  cases advertised p with
  | none => exact ⟨UInt64.le_refl max, by simp, .inl rfl⟩
  | some height =>
    by_cases hlt : max < height
    · simp [hlt, UInt64.le_of_lt hlt]
    · simp [hlt, UInt64.not_lt.mp hlt]

theorem maxHeight_spec (current : UInt64) (peers : List NetworkMember) :
    current ≤ maxHeight current peers ∧
    (∀ p ∈ peers, ∀ height, advertised p = some height → height ≤ maxHeight current peers) ∧
    (maxHeight current peers = current ∨
      ∃ p ∈ peers, advertised p = some (maxHeight current peers)) := by
  induction peers generalizing current with
  | nil => exact ⟨UInt64.le_refl _, by simp, .inl rfl⟩
  | cons p peers ih =>
    obtain ⟨hraise, hall, hsome⟩ := ih (raise current p)
    obtain ⟨hcur, hp, hone⟩ := raise_spec current p
    rw [show maxHeight current (p :: peers) = maxHeight (raise current p) peers from rfl]
    refine ⟨UInt64.le_trans hcur hraise, ?_, ?_⟩
    · intro q hq height hheight
      rcases mem_cons.mp hq with rfl | hq
      · exact UInt64.le_trans (hp height hheight) hraise
      · exact hall q hq height hheight
    -- the maximum is that of the peers that follow, or what this peer has raised it to
    · rcases hsome with hsame | ⟨q, hq, hheight⟩
      · rw [hsame]
        exact hone.imp_right fun hheight => ⟨p, mem_cons_self, hheight⟩
      · exact .inr ⟨q, mem_cons_of_mem p hq, hheight⟩

theorem exists_candidate (pick : ℕ) (h : current ≠ maxHeight current peers) :
    ∃ peer, let candidates := peers.filter fun p =>
        (advertised p).any fun height => height ≥ maxHeight current peers
      candidates[pick % candidates.length]? = some peer := by
  -- the ledger itself is behind, so the greatest height is that of a peer
  obtain ⟨p, hp, hheight⟩ := (maxHeight_spec current peers).2.2.resolve_left (Ne.symm h)
  have hmem : p ∈ peers.filter fun p =>
      (advertised p).any fun height => height ≥ maxHeight current peers :=
    mem_filter.mpr ⟨hp, by simp [hheight]⟩
  refine ⟨_, List.getElem?_eq_getElem (Nat.mod_lt pick (length_pos_of_mem hmem))⟩

/-! ### Termination -/

theorem antiEntropy_eq (pick : ℕ) (h : current ≠ maxHeight current peers) :
    ∃ peer, ∀ iterations, antiEntropy iterations pick current peers =
      (appendSeqNums iterations (current + 1) (maxHeight current peers) []).map fun seqNums =>
        some (peer, ⟨seqNums⟩) := by
  obtain ⟨peer, hpeer⟩ := exists_candidate pick h
  refine ⟨peer, ?_⟩
  intro iterations
  rw [antiEntropy, if_neg h, requestBlocksInRange]
  rw [hpeer]

theorem requestsGap_of_eq (pick : ℕ) (h : current = maxHeight current peers) :
    RequestsGap pick current peers := by
  refine ⟨0, none, by rw [antiEntropy, if_pos h], nodup_nil, ?_⟩
  intro n
  rw [← h]
  simp [requested]

theorem requestsGap_of_ne_maxUInt64 (pick : ℕ) (h : maxHeight current peers ≠ maxUInt64) :
    RequestsGap pick current peers := by
  by_cases heq : current = maxHeight current peers
  · exact requestsGap_of_eq pick heq
  · obtain ⟨peer, hpeer⟩ := antiEntropy_eq pick heq
    have hlt : current.toNat < (maxHeight current peers).toNat := by
      have hle := UInt64.le_iff_toNat_le.mp (maxHeight_spec current peers).1
      have hne := mt UInt64.toNat_inj.mp heq
      omega
    have htop := (maxHeight current peers).toNat_lt
    have hne : current ≠ maxUInt64 := by
      intro hcurrent
      have hle := (maxHeight_spec current peers).1
      rw [hcurrent] at hle h
      exact h (UInt64.le_antisymm (le_maxUInt64 _) hle)
    have hsucc := toNat_succ hne
    have hloop := appendSeqNums_eq (i := current + 1) h []
      ((maxHeight current peers).toNat - current.toNat) (by omega)
    rw [nil_append] at hloop
    refine ⟨_, some (peer, ⟨_⟩), by rw [hpeer, hloop]; rfl, ?_, ?_⟩
    · -- numbers below 2⁶⁴ stay different as machine numbers
      apply List.Nodup.map_on _ nodup_range'
      intro a ha b hb hab
      rw [mem_range'_1] at ha hb
      have := congrArg UInt64.toNat hab
      rw [UInt64.toNat_ofNat', UInt64.toNat_ofNat'] at this
      omega
    · intro n
      simp only [requested, Option.map_some, Option.getD_some, mem_map, mem_range'_1]
      rw [UInt64.lt_iff_toNat_lt, UInt64.le_iff_toNat_le]
      constructor
      · rintro ⟨a, ha, rfl⟩
        rw [UInt64.toNat_ofNat']
        omega
      · rintro ⟨hgt, hle⟩
        exact ⟨n.toNat, by omega, UInt64.ofNat_toNat⟩

theorem not_requestsGap (pick : ℕ) (h : current ≠ maxUInt64)
    (hmax : maxHeight current peers = maxUInt64) : ¬ RequestsGap pick current peers := by
  rintro ⟨iterations, out, hout, -⟩
  obtain ⟨peer, hpeer⟩ := antiEntropy_eq pick (hmax ▸ h)
  rw [hpeer, hmax, appendSeqNums_maxUInt64] at hout
  cases hout

/-- The step requests what is missing, unless a peer advertises the greatest number and the ledger
is not at that height itself. -/
theorem requestsGap_iff (pick : ℕ) (current : UInt64) (peers : List NetworkMember) :
    RequestsGap pick current peers ↔
      current = maxUInt64 ∨ ∀ p ∈ peers, advertised p ≠ some maxUInt64 := by
  obtain ⟨-, hall, hsome⟩ := maxHeight_spec current peers
  constructor
  · intro hgap
    by_contra hcond
    push Not at hcond
    obtain ⟨hne, p, hp, hheight⟩ := hcond
    have hmax := UInt64.le_antisymm (le_maxUInt64 _) (hall p hp maxUInt64 hheight)
    exact not_requestsGap pick hne hmax hgap
  · intro hcond
    by_cases hmax : maxHeight current peers = maxUInt64
    · -- the ledger itself is at the greatest height
      apply requestsGap_of_eq
      rcases hcond with rfl | hpeers
      · exact hmax.symm
      · rcases hsome with hsame | ⟨p, hp, hheight⟩
        · exact hsame.symm
        · exact absurd (hmax ▸ hheight) (hpeers p hp)
    · exact requestsGap_of_ne_maxUInt64 pick hmax

/-- A peer whose metadata is eight bytes 0xff stops anti-entropy at an empty ledger. -/
theorem not_requestsGap_top : ¬ RequestsGap 0 0 [⟨[1], List.replicate 8 0xff, [2]⟩] :=
  not_requestsGap 0 (by decide) (by decide +kernel)

end Fabric.Gossip
