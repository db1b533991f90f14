import Fabric.Common.Quorum
import Fabric.ConfigTx.Update

/-!
# Signatures of configuration items

An item is accepted if the policy that governs it is satisfied by its signatures. The
manager hands the signature headers to the policy in place of the signatures, so what is
verified is the signature of an entry only where the two coincide.
-/

namespace Fabric.ConfigTx

open Fabric.Common List Authenticator SignaturePolicy ConfigurationSignature

variable {P : Protobuf} {ch : CryptoHelper}

/-! ### Evaluation -/

/-- The signature beside the first of the ids that is the one asked for. -/
def firstSignature (id : Bytes) (ids signatures : List Bytes) : Option Bytes :=
  (ids.zip signatures).lookup id

section Evaluation

variable {msg : Bytes} {ids signatures : List Bytes}

/-- Whether the signature of an identity is verified. -/
def leafVerdict (ch : CryptoHelper) (msg : Bytes) (ids signatures : List Bytes) (id : Bytes) :
    Bool :=
  (firstSignature id ids signatures).any (ch msg id)

/-- The call for the signature of an identity, if there is one. -/
def leafCalls (msg : Bytes) (ids signatures : List Bytes) (id : Bytes) : List VerifyCall :=
  (firstSignature id ids signatures).toList.map fun signature => ⟨msg, id, signature⟩

theorem signedBy_eq {id : Bytes} (h : ids.length = signatures.length) (log : List VerifyCall) :
    signedBy ch id msg ids signatures log =
      .ok (leafVerdict ch msg ids signatures id, leafCalls msg ids signatures id ++ log) := by
  induction ids generalizing signatures with
  | nil => rfl
  | cons i _ ih =>
    cases signatures with
    | nil => cases h
    | cons =>
      rw [signedBy]
      by_cases hid : i = id
      · subst hid
        simp [leafVerdict, leafCalls, firstSignature]
        rfl
      · have hne : (id == i) = false := by simpa using Ne.symm hid
        rw [if_neg hid, ih (by simpa using h)]
        simp [leafVerdict, leafCalls, firstSignature, lookup_cons, hne]

mutual

/-- The result of an evaluation. -/
def Authenticator.verdict (leaf : Bytes → Bool) : Authenticator → Bool
  | .nOutOf policies n => decide (n ≤ Authenticator.verdictCount leaf policies 0)
  | .signedBy id => leaf id

def Authenticator.verdictCount (leaf : Bytes → Bool) : List Authenticator → ℤ → ℤ
  | [], verified => verified
  | a :: as, verified =>
    Authenticator.verdictCount leaf as (if a.verdict leaf then int32 (verified + 1) else verified)

end

mutual

/-- The calls of an evaluation, latest first. -/
def Authenticator.calls (leaf : Bytes → List VerifyCall) : Authenticator → List VerifyCall
  | .nOutOf policies _ => Authenticator.allCalls leaf policies
  | .signedBy id => leaf id

def Authenticator.allCalls (leaf : Bytes → List VerifyCall) : List Authenticator → List VerifyCall
  | [] => []
  | a :: as => Authenticator.allCalls leaf as ++ a.calls leaf

end

mutual

theorem Authenticator.authenticate_eq (h : ids.length = signatures.length) :
    ∀ (a : Authenticator) (log : List VerifyCall), a.authenticate ch msg ids signatures log =
      .ok (a.verdict (leafVerdict ch msg ids signatures),
        a.calls (leafCalls msg ids signatures) ++ log)
  | .signedBy id, log => by
    rw [authenticate, signedBy_eq h, verdict, calls]
  | .nOutOf policies n, log => by
    have hcount := countVerified_eq h policies 0 log
    rw [authenticate, verdict, calls]
    change (countVerified ch msg ids signatures policies 0 log >>= fun r =>
      Except.ok (decide (n ≤ r.1), r.2)) = _
    rw [hcount]
    rfl

theorem Authenticator.countVerified_eq (h : ids.length = signatures.length) :
    ∀ (as : List Authenticator) (verified : ℤ) (log : List VerifyCall),
      countVerified ch msg ids signatures as verified log =
        .ok (verdictCount (leafVerdict ch msg ids signatures) as verified,
          allCalls (leafCalls msg ids signatures) as ++ log)
  | [], verified, log => rfl
  | a :: as, verified, log => by
    rw [countVerified, verdictCount, allCalls]
    change (a.authenticate ch msg ids signatures log >>= fun r =>
      countVerified ch msg ids signatures as
        (if r.1 then int32 (verified + 1) else verified) r.2) = _
    rw [authenticate_eq h a log, append_assoc]
    exact countVerified_eq h as _ _

end

end Evaluation

/-! ### The meaning of a policy -/

mutual

/-- The policy is satisfied if its leaves are as given. -/
def SignaturePolicy.satisfied (leaf : ℤ → Bool) : SignaturePolicy → Bool
  | .signedBy index => leaf index
  | .nOutOf n policies => decide (n ≤ SignaturePolicy.satisfiedCount leaf policies)
  | .unset => false

def SignaturePolicy.satisfiedCount (leaf : ℤ → Bool) : List SignaturePolicy → ℤ
  | [] => 0
  | p :: ps => (if p.satisfied leaf then 1 else 0) + SignaturePolicy.satisfiedCount leaf ps

end

section Meaning

variable {identities : List Bytes} {leaf : Bytes → Bool} {leaf' : ℤ → Bool}

theorem compile_signedBy_eq_ok {j : ℤ} {a : Authenticator}
    (h : compile identities (.signedBy j) = .ok a) :
    ∃ id, identities[j.toNat]? = some id ∧ a = .signedBy id := by
  rw [compile] at h
  split_ifs at h with hrange
  cases h
  -- the index is in range, also where the number of identities is not an `int32`
  have hlen : j.toNat < identities.length := by
    have := int32_le (n := identities.length) (by omega)
    omega
  have hid := List.getElem?_eq_getElem hlen
  exact ⟨_, hid, by rw [hid]; rfl⟩

mutual

theorem satisfied_of_verdict
    (hleaf : ∀ j id, identities[j.toNat]? = some id → leaf id = true → leaf' j = true) :
    ∀ (p : SignaturePolicy) (a : Authenticator), compile identities p = .ok a →
      a.verdict leaf = true → p.satisfied leaf' = true
  | .unset, a, hcompile, _ => by cases hcompile
  | .signedBy j, a, hcompile, hverdict => by
    obtain ⟨id, hid, rfl⟩ := compile_signedBy_eq_ok hcompile
    rw [verdict] at hverdict
    exact hleaf j id hid hverdict
  | .nOutOf n ps, a, hcompile, hverdict => by
    rw [compile] at hcompile
    obtain ⟨as, hall, ha⟩ := bind_eq_ok_iff.mp hcompile
    cases ha
    have hcount := satisfiedCount_of_verdictCount hleaf ps as hall 0 (by omega)
    simp only [verdict, decide_eq_true_eq] at hverdict
    simp only [satisfied, decide_eq_true_eq]
    omega

theorem satisfiedCount_of_verdictCount
    (hleaf : ∀ j id, identities[j.toNat]? = some id → leaf id = true → leaf' j = true) :
    ∀ (ps : List SignaturePolicy) (as : List Authenticator), compileAll identities ps = .ok as →
      ∀ verified : ℤ, -2 ^ 31 ≤ verified → verdictCount leaf as verified ≤
        verified + satisfiedCount leaf' ps
  | [], as, hcompile, verified, _ => by
    cases hcompile
    simp [verdictCount, satisfiedCount]
  | p :: ps, as, hcompile, verified, hverified => by
    rw [compileAll] at hcompile
    obtain ⟨a, ha, hrest⟩ := bind_eq_ok_iff.mp hcompile
    obtain ⟨as', has, heq⟩ := bind_eq_ok_iff.mp hrest
    cases heq
    rw [verdictCount, satisfiedCount]
    by_cases hverdict : a.verdict leaf = true
    · have hle := int32_le (n := verified + 1) (by omega)
      have hcount := satisfiedCount_of_verdictCount hleaf ps as' has _ (le_int32 (verified + 1))
      rw [if_pos hverdict, if_pos (satisfied_of_verdict hleaf p a ha hverdict)]
      omega
    · have hcount := satisfiedCount_of_verdictCount hleaf ps as' has verified hverified
      rw [if_neg hverdict]
      split_ifs <;> omega

end

end Meaning

/-! ### Compiled policies -/

mutual

/-- Every node of the policy has the property. -/
def SignaturePolicy.Each (φ : SignaturePolicy → Prop) : SignaturePolicy → Prop
  | .signedBy j => φ (.signedBy j)
  | .nOutOf n ps => φ (.nOutOf n ps) ∧ SignaturePolicy.EachOf φ ps
  | .unset => φ .unset

def SignaturePolicy.EachOf (φ : SignaturePolicy → Prop) : List SignaturePolicy → Prop
  | [] => True
  | p :: ps => p.Each φ ∧ SignaturePolicy.EachOf φ ps

end

/-- The node has a type, and an index of an identity is below a number. -/
def InRange (n : ℤ) : SignaturePolicy → Prop
  | .signedBy j => 0 ≤ j ∧ j < n
  | .nOutOf _ _ => True
  | .unset => False

/-- The policies that are satisfied at a threshold can be counted in an `int32`. -/
def Counted (leaf : ℤ → Bool) : SignaturePolicy → Prop
  | .nOutOf _ ps => SignaturePolicy.satisfiedCount leaf ps < 2 ^ 31
  | _ => True

section Compilation

variable {identities : List Bytes} {leaf : Bytes → Bool} {leaf' : ℤ → Bool}
  {φ ψ : SignaturePolicy → Prop}

mutual

theorem exists_compile_iff : ∀ p : SignaturePolicy,
    (∃ a, compile identities p = .ok a) ↔ p.Each (InRange (int32 identities.length))
  | .unset => by
    rw [SignaturePolicy.Each]
    exact iff_of_false (by rintro ⟨a, ha⟩; cases ha) id
  | .signedBy j => by
    rw [compile, SignaturePolicy.Each, InRange]
    split_ifs with hrange
    · exact iff_of_false (by rintro ⟨a, ha⟩; cases ha) (by omega)
    · exact iff_of_true ⟨_, rfl⟩ (by omega)
  | .nOutOf n ps => by
    rw [SignaturePolicy.Each, ← exists_compileAll_iff ps]
    constructor
    · rintro ⟨a, ha⟩
      rw [compile] at ha
      obtain ⟨as, has, -⟩ := bind_eq_ok_iff.mp ha
      exact ⟨trivial, as, has⟩
    · rintro ⟨-, as, has⟩
      exact ⟨.nOutOf as n, by rw [compile, has]; rfl⟩

theorem exists_compileAll_iff : ∀ ps : List SignaturePolicy,
    (∃ as, compileAll identities ps = .ok as) ↔
      SignaturePolicy.EachOf (InRange (int32 identities.length)) ps
  | [] => iff_of_true ⟨[], rfl⟩ trivial
  | p :: ps => by
    rw [SignaturePolicy.EachOf, ← exists_compile_iff p, ← exists_compileAll_iff ps]
    constructor
    · rintro ⟨as, has⟩
      rw [compileAll] at has
      obtain ⟨a, ha, hrest⟩ := bind_eq_ok_iff.mp has
      obtain ⟨as', has', -⟩ := bind_eq_ok_iff.mp hrest
      exact ⟨⟨a, ha⟩, as', has'⟩
    · rintro ⟨⟨a, ha⟩, as, has⟩
      exact ⟨a :: as, by rw [compileAll, ha, has]; rfl⟩

end

theorem SignaturePolicy.satisfiedCount_nonneg (leaf' : ℤ → Bool) (ps : List SignaturePolicy) :
    0 ≤ satisfiedCount leaf' ps := by
  induction ps with
  | nil => rfl
  | cons =>
    rw [satisfiedCount]
    split_ifs <;> omega

mutual

/-- What a policy is compiled to says whether it is satisfied, as long as nothing overflows. -/
theorem verdict_eq_satisfied (hleaf : ∀ j id, identities[j.toNat]? = some id → leaf id = leaf' j) :
    ∀ (p : SignaturePolicy) (a : Authenticator), compile identities p = .ok a →
      p.Each (Counted leaf') → a.verdict leaf = p.satisfied leaf'
  | .unset, a, hcompile, _ => by cases hcompile
  | .signedBy j, a, hcompile, _ => by
    obtain ⟨id, hid, rfl⟩ := compile_signedBy_eq_ok hcompile
    rw [verdict, satisfied, hleaf j id hid]
  | .nOutOf n ps, a, hcompile, hcount => by
    rw [compile] at hcompile
    obtain ⟨as, hall, ha⟩ := bind_eq_ok_iff.mp hcompile
    cases ha
    rw [SignaturePolicy.Each, Counted] at hcount
    rw [verdict, satisfied,
      verdictCount_eq_satisfiedCount hleaf ps as hall hcount.2 0 le_rfl (by omega), zero_add]

theorem verdictCount_eq_satisfiedCount
    (hleaf : ∀ j id, identities[j.toNat]? = some id → leaf id = leaf' j) :
    ∀ (ps : List SignaturePolicy) (as : List Authenticator), compileAll identities ps = .ok as →
      SignaturePolicy.EachOf (Counted leaf') ps → ∀ verified : ℤ, 0 ≤ verified →
        verified + satisfiedCount leaf' ps < 2 ^ 31 → verdictCount leaf as verified =
            verified + satisfiedCount leaf' ps
  | [], as, hcompile, _, verified, _, _ => by
    cases hcompile
    simp [verdictCount, satisfiedCount]
  | p :: ps, as, hcompile, hcount, verified, hverified, hlt => by
    rw [compileAll] at hcompile
    obtain ⟨a, ha, hrest⟩ := bind_eq_ok_iff.mp hcompile
    obtain ⟨as', has, heq⟩ := bind_eq_ok_iff.mp hrest
    cases heq
    have hnonneg := satisfiedCount_nonneg leaf' ps
    rw [satisfiedCount] at hlt ⊢
    rw [verdictCount, verdict_eq_satisfied hleaf p a ha hcount.1]
    have hrec := verdictCount_eq_satisfiedCount hleaf ps as' has hcount.2
    split_ifs at hlt ⊢
    · have hnext : int32 (verified + 1) = verified + 1 :=
        Int.bmod_eq_of_le (by omega) (by omega)
      rw [hnext, hrec _ (by omega) (by omega), add_assoc]
    · rw [hrec _ hverified (by omega), zero_add]

end

mutual

theorem SignaturePolicy.Each.imp (h : ∀ q, φ q → ψ q) : ∀ {p : SignaturePolicy}, p.Each φ → p.Each ψ
  | .unset, hp => h _ hp
  | .signedBy _, hp => h _ hp
  | .nOutOf _ _, hp => ⟨h _ hp.1, SignaturePolicy.EachOf.imp h hp.2⟩

theorem SignaturePolicy.EachOf.imp (h : ∀ q, φ q → ψ q) :
    ∀ {ps : List SignaturePolicy}, SignaturePolicy.EachOf φ ps → SignaturePolicy.EachOf ψ ps
  | [], _ => trivial
  | _ :: _, hps => ⟨SignaturePolicy.Each.imp h hps.1, SignaturePolicy.EachOf.imp h hps.2⟩

end

end Compilation

/-- The answer of a compiled policy for ids with their signatures. -/
def Authenticator.answer (ch : CryptoHelper) (msg : Bytes) (signed : List (Bytes × Bytes))
    (a : Authenticator) : Option Bool :=
  (a.authenticate ch msg (signed.map Prod.fst) (signed.map Prod.snd) []).toOption.map Prod.fst

/-- Whether some entry is by the identity of that index, with a signature that verifies. -/
def signs (ch : CryptoHelper) (msg : Bytes) (identities : List Bytes)
    (signed : List (Bytes × Bytes)) (j : ℤ) : Bool :=
  identities[j.toNat]?.any fun id => signed.any fun e => e.1 == id && ch msg id e.2

theorem leafVerdict_eq {msg id : Bytes} {signed : List (Bytes × Bytes)}
    (h : (signed.map Prod.fst).Nodup) :
    leafVerdict ch msg (signed.map Prod.fst) (signed.map Prod.snd) id =
      signed.any fun e => e.1 == id && ch msg id e.2 := by
  rw [leafVerdict, firstSignature, ← zip_of_prod rfl rfl]
  induction signed with
  | nil => rfl
  | cons e signed ih =>
    obtain ⟨hnew, hnodup⟩ := nodup_cons.mp h
    rw [lookup_cons, any_cons]
    by_cases hid : e.1 = id
    · -- the other entries are by other identities
      have hrest : (signed.any fun e => e.1 == id && ch msg id e.2) = false := by
        rw [any_eq_false]
        intro e' he' hsigned
        simp only [Bool.and_eq_true, beq_iff_eq] at hsigned
        exact hnew (hid ▸ hsigned.1 ▸ mem_map_of_mem he')
      simp [hid, hrest]
    · have hne : (id == e.1) = false := by simpa using Ne.symm hid
      have hne' : (e.1 == id) = false := by simpa using hid
      simp only [hne, hne']
      exact ih hnodup

section Answers

variable {identities : List Bytes} {p : SignaturePolicy} {a : Authenticator} {msg : Bytes}
  {signed signed' : List (Bytes × Bytes)}

theorem Authenticator.answer_eq (a : Authenticator) (msg : Bytes)
    (signed : List (Bytes × Bytes)) : a.answer ch msg signed = some (a.verdict
      (leafVerdict ch msg (signed.map Prod.fst) (signed.map Prod.snd))) := by
  rw [answer, a.authenticate_eq (by simp)]
  rfl

theorem answer_eq_satisfied (ha : compile identities p = .ok a)
    (h : (signed.map Prod.fst).Nodup) (hcount : p.Each (Counted (signs ch msg identities signed))) :
    a.answer ch msg signed = some (p.satisfied (signs ch msg identities signed)) := by
  rw [a.answer_eq]
  refine congrArg some (verdict_eq_satisfied (fun j id hid => ?_) p a ha hcount)
  rw [leafVerdict_eq h, signs, hid, Option.any_some]

theorem answer_perm (h : (signed.map Prod.fst).Nodup) (hperm : signed.Perm signed') :
    a.answer ch msg signed = a.answer ch msg signed' := by
  have hleaf : leafVerdict ch msg (signed.map Prod.fst) (signed.map Prod.snd) =
      leafVerdict ch msg (signed'.map Prod.fst) (signed'.map Prod.snd) := by
    funext id
    rw [leafVerdict_eq h, leafVerdict_eq ((hperm.map _).nodup_iff.mp h), hperm.any_eq]
  rw [a.answer_eq, a.answer_eq, hleaf]

/-- A policy compiles exactly if its nodes have types and their indices are in range, if the
number of identities is an `int32` or no index is lost with it. What it is compiled to then
answers as the thresholds say, if these are not too large to be counted. -/
theorem compile_correct (identities : List Bytes) (p : SignaturePolicy) :
    (((∃ a, compile identities p = .ok a) ↔ p.Each (InRange identities.length)) ↔
      (p.Each (InRange identities.length) → p.Each (InRange (int32 identities.length)))) ∧
    ∀ a, compile identities p = .ok a → ∀ ch msg signed, (signed.map Prod.fst).Nodup →
      (∀ signed', signed.Perm signed' → a.answer ch msg signed = a.answer ch msg signed') ∧
      (p.Each (Counted (signs ch msg identities signed)) →
        a.answer ch msg signed = some (p.satisfied (signs ch msg identities signed)) ∧
        ∀ signed' ⊆ signed, (signed'.map Prod.fst).Nodup →
          a.answer ch msg signed' = some true → a.answer ch msg signed = some true) := by
  constructor
  · rw [exists_compile_iff]
    refine ⟨fun h => h.mpr, fun h => ⟨fun hp => ?_, h⟩⟩
    have hle := int32_le (n := identities.length) (by omega)
    refine hp.imp fun q hq => ?_
    cases q with
    | signedBy => exact ⟨hq.1, hq.2.trans_le hle⟩
    | nOutOf => trivial
    | unset => exact hq.elim
  · intro a ha ch msg signed hnodup
    refine ⟨fun signed' hperm => answer_perm hnodup hperm, fun hcount => ?_⟩
    have hanswer := answer_eq_satisfied ha hnodup hcount
    refine ⟨hanswer, fun signed' hsub hnodup' htrue => ?_⟩
    -- what is signed by fewer pairs is signed by all of them
    rw [a.answer_eq, Option.some.injEq] at htrue
    rw [hanswer]
    refine congrArg some (satisfied_of_verdict (fun j id hid hleaf => ?_) p a ha htrue)
    rw [leafVerdict_eq hnodup', any_eq_true] at hleaf
    obtain ⟨e, he, hsigns⟩ := hleaf
    rw [signs, hid, Option.any_some, any_eq_true]
    exact ⟨e, hsub he, hsigns⟩

/-- As many empty identities as an `int32` cannot count. -/
def manyIdentities : List Bytes := List.replicate (2 ^ 31) []

/-- The first identity is there, and a policy that asks for its signature does not compile. -/
theorem not_compile_manyIdentities :
    (SignaturePolicy.signedBy 0).Each (InRange manyIdentities.length) ∧
      ∀ a, compile manyIdentities (.signedBy 0) ≠ .ok a := by
  have hlen : manyIdentities.length = 2 ^ 31 := length_replicate
  rw [hlen]
  refine ⟨⟨le_rfl, by decide⟩, fun a ha => ?_⟩
  have hrange := (exists_compile_iff _).mp ⟨a, ha⟩
  rw [hlen] at hrange
  exact absurd hrange.2 (by decide)

end Answers

/-! ### The signatures of an item -/

/-- The creator of a signature. -/
def ConfigurationSignature.creator? (P : Protobuf) (sig : ConfigurationSignature) : Option Bytes :=
  (P.signatureHeader sig.signatureHeader).map SignatureHeader.creator

/-- Some signature is by the identity and verifies. -/
def SignedConfigurationItem.isSignedBy (P : Protobuf) (ch : CryptoHelper)
    (entry : SignedConfigurationItem) (id : Bytes) : Bool :=
  entry.signatures.any fun sig =>
    decide (sig.creator? P = some id) && ch entry.configurationItem id sig.signature

/-- The policy is satisfied by the item's signatures, and these were given to the crypto helper. -/
structure GenuinelySigned (P : Protobuf) (ch : CryptoHelper) (entry : SignedConfigurationItem)
    (args : SignatureArguments) (policy : CompiledPolicy) : Prop where
  satisfied : policy.tree.satisfied (fun j =>
    policy.source.identities[j.toNat]?.any (entry.isSignedBy P ch)) = true
  passed : ∀ verdict calls, policy.evaluator.authenticate ch entry.configurationItem
      args.identities args.signatures [] = .ok (verdict, calls) → ∀ call ∈ calls,
    ∃ sig ∈ entry.signatures, sig.creator? P = some call.id ∧ call.signature = sig.signature

mutual

/-- The identities whose signatures a policy asks for. -/
def Authenticator.leaves : Authenticator → List Bytes
  | .nOutOf policies _ => Authenticator.allLeaves policies
  | .signedBy id => [id]

def Authenticator.allLeaves : List Authenticator → List Bytes
  | [] => []
  | a :: as => Authenticator.allLeaves as ++ a.leaves

end

/-- The header of the first signature by an identity that is asked for is also a signature by it. -/
def PassesSignatures (P : Protobuf) (entry : SignedConfigurationItem) (policy : CompiledPolicy) :
    Prop :=
  ∀ id ∈ policy.evaluator.leaves,
    ∀ sig ∈ entry.signatures.find? (fun sig => sig.creator? P = some id),
      ∃ sig' ∈ entry.signatures, sig'.creator? P = some id ∧ sig.signatureHeader = sig'.signature

section Items

variable {args : SignatureArguments} {policy : CompiledPolicy} {entry : SignedConfigurationItem}

theorem signatureArguments_eq_ok {sigs : List ConfigurationSignature}
    (h : signatureArguments P sigs = .ok args) :
    args.identities.length = args.signatures.length ∧
      ∀ id, firstSignature id args.identities args.signatures =
        (sigs.find? fun sig => sig.creator? P = some id).map
          signatureHeader := by
  induction sigs generalizing args with
  | nil =>
    cases h
    exact ⟨rfl, fun _ => rfl⟩
  | cons sig _ ih =>
    rw [signatureArguments] at h
    split at h
    · cases h
    · rename_i header hheader
      obtain ⟨args', hargs, heq⟩ := bind_eq_ok_iff.mp h
      cases heq
      obtain ⟨hlen, hfirst⟩ := ih hargs
      refine ⟨by simpa using hlen, fun id => ?_⟩
      have hcreator : sig.creator? P = some header.creator := by
        rw [creator?, hheader, Option.map_some]
      by_cases hid : header.creator = id
      · simp [firstSignature, hcreator, hid]
      · have hne : (id == header.creator) = false := by simpa using Ne.symm hid
        rw [firstSignature, zip_cons_cons, lookup_cons, hne]
        simpa [hcreator, hid, firstSignature] using hfirst id

section Leaves

variable {given : Bytes → List VerifyCall} {call : VerifyCall} {leaf leaf' : Bytes → Bool}

mutual

theorem Authenticator.mem_calls :
    ∀ a : Authenticator, call ∈ a.calls given ↔ ∃ id ∈ a.leaves, call ∈ given id
  | .signedBy id => by simp [calls, leaves]
  | .nOutOf policies n => by
    rw [calls, leaves]
    exact mem_allCalls policies

theorem Authenticator.mem_allCalls :
    ∀ as : List Authenticator, call ∈ allCalls given as ↔ ∃ id ∈ allLeaves as, call ∈ given id
  | [] => by simp [allCalls, allLeaves]
  | a :: as => by
    rw [allCalls, allLeaves, mem_append, mem_allCalls as, mem_calls a]
    simp [or_and_right, exists_or]

end

mutual

theorem Authenticator.verdict_congr :
    ∀ a : Authenticator, (∀ id ∈ a.leaves, leaf id = leaf' id) → a.verdict leaf = a.verdict leaf'
  | .signedBy id, h => h id (by simp [leaves])
  | .nOutOf policies n, h => by
    rw [leaves] at h
    rw [verdict, verdict, verdictCount_congr policies 0 h]

theorem Authenticator.verdictCount_congr : ∀ (as : List Authenticator) (verified : ℤ),
      (∀ id ∈ allLeaves as, leaf id = leaf' id) →
        verdictCount leaf as verified = verdictCount leaf' as verified
  | [], _, _ => rfl
  | a :: as, verified, h => by
    simp only [allLeaves, mem_append] at h
    rw [verdictCount, verdictCount, verdict_congr a fun id hid => h id (.inr hid),
      verdictCount_congr as _ fun id hid => h id (.inl hid)]

end

end Leaves

/-! ### Accepted items -/

/-- An accepted item is genuinely signed exactly if the headers that are passed are signatures. -/
theorem genuinelySigned_of_verdict (hargs : signatureArguments P entry.signatures = .ok args)
    (hverdict : policy.evaluator.verdict (leafVerdict ch entry.configurationItem args.identities
      args.signatures) = true) :
    GenuinelySigned P ch entry args policy ↔ PassesSignatures P entry policy := by
  obtain ⟨hlen, hfirst⟩ := signatureArguments_eq_ok hargs
  have hauth : policy.evaluator.authenticate ch entry.configurationItem args.identities
    args.signatures [] = _ := policy.evaluator.authenticate_eq hlen []
  rw [append_nil] at hauth
  constructor
  · -- the call for a leaf passes the header of its first signature
    rintro ⟨-, hpassed⟩ id hid sig hsig
    have hcall : (⟨entry.configurationItem, id, sig.signatureHeader⟩) ∈
        leafCalls entry.configurationItem args.identities args.signatures id := by
      simp [leafCalls, hfirst, Option.mem_def.mp hsig]
    exact hpassed _ _ hauth _ ((mem_calls _).mpr ⟨id, hid, hcall⟩)
  · intro hpasses
    have hsigned : ∀ id ∈ policy.evaluator.leaves, ∀ signature,
        firstSignature id args.identities args.signatures = some signature →
          ∃ sig ∈ entry.signatures, sig.creator? P = some id ∧ signature = sig.signature := by
      intro id hid signature hsignature
      rw [hfirst, Option.map_eq_some_iff] at hsignature
      obtain ⟨sig, hsig, rfl⟩ := hsignature
      exact hpasses id hid sig hsig
    constructor
    · -- only the leaves of the policy count, and for these the header is a signature
      have hleaves : policy.evaluator.verdict (fun id => decide (id ∈ policy.evaluator.leaves) &&
          leafVerdict ch entry.configurationItem args.identities args.signatures id) = true := by
        rw [← hverdict]
        exact policy.evaluator.verdict_congr fun id hid => by simp [hid]
      refine satisfied_of_verdict (fun j id hj hleaf => ?_) policy.tree policy.evaluator
        policy.compile_eq hleaves
      simp only [leafVerdict, Bool.and_eq_true, decide_eq_true_eq, Option.any_eq_true] at hleaf
      obtain ⟨hid, signature, hsignature, hverified⟩ := hleaf
      obtain ⟨sig, hsig, hcreator, rfl⟩ := hsigned id hid signature hsignature
      simp only [hj, Option.any_some, SignedConfigurationItem.isSignedBy, any_eq_true]
      exact ⟨sig, hsig, by simp [hcreator, hverified]⟩
    · intro verdict calls heq call hcall
      rw [hauth] at heq
      cases heq
      obtain ⟨id, hid, hcall⟩ := (mem_calls _).mp hcall
      simp only [leafCalls, mem_map, Option.mem_toList] at hcall
      obtain ⟨signature, hsignature, rfl⟩ := hcall
      exact hsigned id hid signature hsignature

theorem evaluate_eq_ok {headers identities signatures : List Bytes}
    {payload : Bytes} (hlen : identities.length = signatures.length)
    (h : evaluate ch (some policy) headers payload identities signatures = .ok ()) :
    policy.evaluator.verdict (leafVerdict ch payload identities signatures) = true := by
  have hauth : policy.evaluator.authenticate ch payload identities signatures [] = _ :=
    policy.evaluator.authenticate_eq hlen []
  cases hverdict : policy.evaluator.verdict (leafVerdict ch payload identities signatures) with
  | true => rfl
  | false =>
    rw [evaluate, hauth, hverdict] at h
    cases h

variable {cm cm' : ConfigurationManager} {choices : List ℕ} {configtx : ConfigurationEnvelope}
  {config : ConfigurationItem}

/-- An accepted item under a signature policy is genuinely signed exactly if the headers that are
passed are signatures. -/
theorem genuinelySigned_iff (happly : outcome (apply P ch choices configtx) cm = some (none, cm'))
    (hentry : entry ∈ configtx.items)
    (hconfig : P.configurationItem entry.configurationItem = some config)
    (hpolicy : cm.itemPolicy config = .signature (some policy)) :
    ∃ args, signatureArguments P entry.signatures = .ok args ∧
      (GenuinelySigned P ch entry args policy ↔ PassesSignatures P entry policy) := by
  obtain ⟨-, hrun⟩ := (outcome_eq_some happly).resolve_right (by simp)
  have hidle : Ends (apply P ch choices configtx) cm _ _ := idle_of_apply
  have hends : Ends (apply P ch choices configtx) cm _ _ := apply_ends (hidle.of_run_eq_ok hrun)
  obtain ⟨-, items, hchecked, -⟩ := hends.of_run_eq_ok hrun
  obtain ⟨config', -, hcheck⟩ := exists_right_of_forall₂ hchecked.check hentry
  obtain ⟨hconfig', ⟨args, hargs, hevaluate⟩, -⟩ := checkItem_eq_ok hcheck
  obtain rfl : config' = config := by simpa [hconfig] using hconfig'.symm
  rw [hpolicy, ItemPolicy.evaluate] at hevaluate
  exact ⟨args, hargs, genuinelySigned_of_verdict hargs
    (evaluate_eq_ok (signatureArguments_eq_ok hargs).1 hevaluate)⟩

end Items

/-- A crypto helper that verifies the signature `[9]` alone. -/
def onlyNine : CryptoHelper := fun _ _ signature => decide (signature = [9])

/-- The fabric item with a signature of the identity `[9]`. -/
def signedItem (signature : Bytes) : SignedConfigurationItem :=
  ⟨[3, 1, 7, 1, 6], [⟨[9], signature⟩]⟩

/-- The signed item beside the policy that governs it. -/
def signedItems (signature : Bytes) : ConfigurationEnvelope :=
  ⟨[signedItem signature, ⟨[0, 0, 7, 7, 9], [⟨[9], [9]⟩]⟩]⟩

/-- The policy asks for `[9]`, and the envelope is accepted with the right signature and another. -/
theorem apply_signedItems {signature : Bytes} (h : signature ∈ [[9], [4]]) : ∃ cm cm' policy,
    managerAfter byteFormat onlyNine [] (twoItems 0) [] = some cm ∧
      outcome (apply byteFormat onlyNine [] (signedItems signature)) cm = some (none, cm') ∧
      cm.itemPolicy ⟨some ⟨some []⟩, .fabric, 1, [7], [1], [6]⟩ = .signature (some policy) ∧
      policy.evaluator.leaves = [[9]] ∧ policy.tree.satisfied (fun _ => false) = false := by
  have hall : ∀ signature ∈ [[9], [4]],
      (managerAfter byteFormat onlyNine [] (twoItems 0) []).any fun cm =>
        decide ((cm.configuration .fabric)[([1] : Bytes)]? =
            some ⟨some ⟨some []⟩, .fabric, 0, [7], [1], [5]⟩) &&
          ((cm.pm.getPolicy [7]).any fun policy => decide (policy.evaluator.leaves = [[9]] ∧
            policy.tree.satisfied (fun _ => false) = false)) &&
          (outcome (apply byteFormat onlyNine [] (signedItems signature)) cm).any
            fun r => decide (r.1 = none) := by
    decide +kernel
  obtain ⟨cm, hcm, hcond⟩ := (Option.any_eq_true ..).mp (hall signature h)
  simp only [Bool.and_eq_true, decide_eq_true_eq, Option.any_eq_true] at hcond
  obtain ⟨⟨hold, policy, hpolicy, hleaves⟩, ⟨err, cm'⟩, happly, rfl⟩ := hcond
  refine ⟨cm, cm', policy, hcm, happly, ?_, hleaves⟩
  rw [ConfigurationManager.itemPolicy, hold]
  exact congrArg ItemPolicy.signature hpolicy

theorem genuinelySigned_signedItem : ∃ cm cm' policy args,
    managerAfter byteFormat onlyNine [] (twoItems 0) [] = some cm ∧
      outcome (apply byteFormat onlyNine [] (signedItems [9])) cm = some (none, cm') ∧
      cm.itemPolicy ⟨some ⟨some []⟩, .fabric, 1, [7], [1], [6]⟩ = .signature (some policy) ∧
      GenuinelySigned byteFormat onlyNine (signedItem [9]) args policy := by
  obtain ⟨cm, cm', policy, hcm, happly, hpolicy, hleaves, -⟩ :=
    @apply_signedItems [9] (by decide)
  have hentry : signedItem [9] ∈ (signedItems [9]).items := mem_cons_self
  obtain ⟨args, -, hiff⟩ := genuinelySigned_iff happly hentry rfl hpolicy
  refine ⟨cm, cm', policy, args, hcm, happly, hpolicy, hiff.mpr ?_⟩
  intro id hid sig hsig
  rw [hleaves, mem_singleton] at hid
  subst hid
  obtain rfl : ⟨[9], [9]⟩ = sig := by
    simpa [signedItem, creator?, byteFormat] using hsig
  exact ⟨_, mem_cons_self, rfl, rfl⟩

/-- An item is accepted whose only signature the crypto helper does not verify. -/
theorem not_genuinelySigned_signedItem : ∃ cm cm' policy,
    managerAfter byteFormat onlyNine [] (twoItems 0) [] = some cm ∧
      outcome (apply byteFormat onlyNine [] (signedItems [4])) cm = some (none, cm') ∧
      cm.itemPolicy ⟨some ⟨some []⟩, .fabric, 1, [7], [1], [6]⟩ = .signature (some policy) ∧
      ∀ args, ¬ GenuinelySigned byteFormat onlyNine (signedItem [4]) args policy := by
  obtain ⟨cm, cm', policy, hcm, happly, hpolicy, -, htree⟩ := @apply_signedItems [4] (by decide)
  refine ⟨cm, cm', policy, hcm, happly, hpolicy, fun args hsigned => ?_⟩
  have hnone : ∀ id, (signedItem [4]).isSignedBy byteFormat onlyNine id = false := by
    simp [SignedConfigurationItem.isSignedBy, signedItem, onlyNine]
  have hsatisfied := hsigned.satisfied
  simp [funext hnone, htree] at hsatisfied

end Fabric.ConfigTx
