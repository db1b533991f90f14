import Fabric.Sbft.Message

/-!
# Batches

Construction and checking of batches (`batch.go`) and the Merkle hash over their
payloads (`crypto.go`).
-/

namespace Fabric.Sbft

variable {β : Type} (P : Primitives β) {b b' : Batch β}

/-- One pass of the Merkle reduction: hash adjacent digests in pairs and carry an
odd one over. -/
def merkleLevel : List β → List β
  | a :: b :: rest => P.hash (P.append a b) :: merkleLevel rest
  | ds => ds

/-- The reduction loop, run for at most the given number of passes. -/
def merkleReduce : ℕ → List β → List β
  | 0, ds => ds
  | n + 1, ds => if 1 < ds.length then merkleReduce n (merkleLevel P ds) else ds

/-- Reduce a list of digests to its Merkle root; nil for the empty list. -/
def merkleHashDigests (digests : List β) : Option β :=
  (merkleReduce P digests.length digests).head?

/-- The hash over a batch's payloads. -/
def merkleHashData (data : List β) : Option β :=
  merkleHashDigests P (data.map P.hash)

theorem merkleLevel_length_lt {ds : List β} (h : 1 < ds.length) :
    (merkleLevel P ds).length < ds.length := by
  fun_induction merkleLevel P ds with
  | case1 _ _ rest =>
    simp only [List.length_cons]
    by_cases hrest : 1 < rest.length
    · omega
    · have hle : (merkleLevel P rest).length ≤ rest.length := by
        rcases rest with _ | ⟨c, _ | ⟨d, rest⟩⟩
        · simp [merkleLevel]
        · simp [merkleLevel]
        · simp at hrest
      omega
  | case2 ds hds =>
    match ds, hds, h with
    | a :: b :: rest, hds, _ => exact absurd rfl (hds a b rest)

section Hashes

variable {P} {ds : List β}

theorem merkleLevel_hashes (h : ∀ d ∈ ds, ∃ x, d = P.hash x) :
    ∀ d ∈ merkleLevel P ds, ∃ x, d = P.hash x := by
  fun_induction merkleLevel P ds with
  | case1 a b _ ih =>
    have hrest := ih fun d hd => h d (List.mem_cons_of_mem a (List.mem_cons_of_mem b hd))
    exact List.forall_mem_cons.mpr ⟨⟨_, rfl⟩, hrest⟩
  | case2 => exact h

theorem merkleReduce_hashes (n : ℕ) (h : ∀ d ∈ ds, ∃ x, d = P.hash x) :
    ∀ d ∈ merkleReduce P n ds, ∃ x, d = P.hash x := by
  induction n generalizing ds with
  | zero => exact h
  | succ _ ih =>
    unfold merkleReduce
    split_ifs
    · exact ih (merkleLevel_hashes h)
    · exact h

theorem map_hash_hashes (data : List β) : ∀ d ∈ data.map P.hash, ∃ x, d = P.hash x := by
  intro d hd
  obtain ⟨x, -, rfl⟩ := List.mem_map.mp hd
  exact ⟨x, rfl⟩

theorem merkleHashData_eq_some {data : List β} {d : β} (h : merkleHashData P data = some d) :
    ∃ x, d = P.hash x :=
  merkleReduce_hashes _ (map_hash_hashes data) d (List.mem_of_mem_head? h)

theorem merkleReduce_singleton (n : ℕ) (d : β) : merkleReduce P n [d] = [d] := by
  cases n <;> rfl

/-- The root over several digests is the hash of two digests. -/
theorem head?_merkleReduce {n : ℕ} (hn : ds.length ≤ n) (hlen : 1 < ds.length)
    (h : ∀ d ∈ ds, ∃ x, d = P.hash x) :
    ∃ a b, (merkleReduce P n ds).head? = some (P.hash (P.append (P.hash a) (P.hash b))) := by
  induction n generalizing ds with
  | zero => omega
  | succ n ih =>
    have hless := merkleLevel_length_lt P hlen
    obtain _ | ⟨d, _ | ⟨d', _ | ⟨d'', rest⟩⟩⟩ := ds
    · simp at hlen
    · simp at hlen
    · obtain ⟨a, rfl⟩ := h d (by simp)
      obtain ⟨b, rfl⟩ := h d' (by simp)
      exact ⟨a, b, congrArg List.head? (merkleReduce_singleton n _)⟩
    · refine ih (by omega) ?_ (merkleLevel_hashes h)
      cases rest <;> simp [merkleLevel]

end Hashes

/-- Hash of a batch: the hash of its encoded header. -/
def Batch.hash (b : Batch β) : β := P.hash b.header

/-- Assemble a batch over `data`. -/
def makeBatch (seq : ℕ) (prevHash : Option β) (data : List β) : Batch β where
  header := P.marshalHeader
    { seq := seq, prevHash := prevHash, dataHash := merkleHashData P data }
  payloads := data
  signatures := ∅

theorem unmarshalHeader_makeBatch (seq : ℕ) (prev : Option β) (data : List β) :
    P.unmarshalHeader (makeBatch P seq (prev.map P.hash) data).header =
      some ⟨seq, prev.map P.hash, merkleHashData P data⟩ := by
  refine P.unmarshalHeader_marshalHeader _ ⟨fun x hx => ?_, fun x hx => ?_⟩
  · obtain ⟨y, -, rfl⟩ := Option.map_eq_some_iff.mp hx
    exact P.len_hash y
  · obtain ⟨y, rfl⟩ := merkleHashData_eq_some hx
    exact P.len_hash y

/-- The sequence number in a batch's header; zero for a header that does not decode. -/
def seqOf (b : Batch β) : ℕ := ((P.unmarshalHeader b.header).map BatchHeader.seq).getD 0

theorem seqOf_makeBatch (seq : ℕ) (prev : Option β) (data : List β) :
    seqOf P (makeBatch P seq (prev.map P.hash) data) = seq := by
  simp [seqOf, unmarshalHeader_makeBatch]

theorem header_eq_of_hash_eq (h : b.hash P = b'.hash P) : b.header = b'.header := P.hash_injective h

theorem seqOf_eq_of_header_eq (h : b.header = b'.header) : seqOf P b = seqOf P b' := by
  rw [seqOf, seqOf, h]

/-- Why `checkBatch` refuses a batch. -/
inductive BatchError where
  | unmarshal
  | invalidHash
  | insufficientSignatures (need got : ℕ)
  | invalidSignature
deriving DecidableEq

/-- Size of a set of replicas that includes a correct one. -/
def Config.oneCorrectQuorum (cfg : Config) : ℕ := cfg.F + 1

/-- Size of a set that the correct replicas can form on their own. -/
def Config.noFaultyQuorum (cfg : Config) : ℕ := cfg.N - cfg.F

variable [DecidableEq β] {hd : BatchHeader β} {checkData needSigs : Bool} {b : Batch β}
  {cfg : Config}

/-- Check a batch and decode its header. Without previous hash it needs no signatures. -/
def checkBatch (cfg : Config) (b : Batch β) (checkData needSigs : Bool) :
    Except BatchError (BatchHeader β) :=
  match P.unmarshalHeader b.header with
  | none => .error .unmarshal
  | some batchheader =>
    if checkData ∧ merkleHashData P b.payloads ≠ batchheader.dataHash then
      .error .invalidHash
    else if batchheader.prevHash ≠ none ∧ needSigs ∧ b.signatures.size < cfg.oneCorrectQuorum then
      .error (.insufficientSignatures cfg.oneCorrectQuorum b.signatures.size)
    else if b.signatures.toList.all fun (r, sig) => P.checkSig (b.hash P) r sig then
      .ok batchheader
    else
      .error .invalidSignature

/-- An accepted batch decodes, with the required data hash and signatures, which verify. -/
theorem checkBatch_eq_ok (h : checkBatch P cfg b checkData needSigs = .ok hd) :
    P.unmarshalHeader b.header = some hd ∧
    (checkData = true → merkleHashData P b.payloads = hd.dataHash) ∧
    (hd.prevHash ≠ none → needSigs = true → cfg.oneCorrectQuorum ≤ b.signatures.size) ∧
    ∀ r sig, b.signatures[r]? = some sig → P.checkSig (b.hash P) r sig = true := by
  unfold checkBatch at h
  split at h
  · cases h
  · rename_i hd' hdec
    split_ifs at h with hdata hsigs hall
    obtain rfl : hd' = hd := by simpa using h
    refine ⟨hdec, ?_, ?_, ?_⟩
    · intro hc
      by_contra hne
      exact hdata ⟨hc, hne⟩
    · intro hp hn
      by_contra hlt
      exact hsigs ⟨hp, hn, by omega⟩
    · intro r sig hr
      rw [List.all_eq_true] at hall
      exact hall (r, sig) (Std.ExtTreeMap.mem_toList_iff_getElem?_eq_some.mpr hr)

theorem seqOf_of_checkBatch (h : checkBatch P cfg b checkData needSigs = .ok hd) :
    seqOf P b = hd.seq := by
  simp [seqOf, (checkBatch_eq_ok P h).1]

end Fabric.Sbft
