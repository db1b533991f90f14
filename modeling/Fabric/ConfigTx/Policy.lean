import Fabric.Common.Staged
import Fabric.Common.Wire

/-!
# Signature policies

`cauthdsl.go` and `policy.go`: a signature policy is a tree of thresholds over signatures
of identities. It is compiled once, which resolves the identities, and evaluated on the
signatures of an item. The closures that `compile` builds are represented by what they
capture. Calls of the crypto helper are recorded.
-/

namespace Fabric.ConfigTx

open Fabric.Common

/-- What stops the process. -/
inductive Panic
  | bytesBegin
  | bytesCommit
  | policiesBegin
  | policiesCommit
  | nilMap
  | nilPointer
  | indexOutOfRange
deriving DecidableEq

/-- A number as an `int32`. -/
def int32 (n : ℤ) : ℤ := n.bmod (2 ^ 32)

theorem int32_le {n : ℤ} (h : -2 ^ 31 ≤ n) : int32 n ≤ n := by
  unfold int32
  rw [Int.bmod_def]
  split <;> omega

theorem le_int32 (n : ℤ) : -2 ^ 31 ≤ int32 n := by
  unfold int32
  rw [Int.bmod_def]
  split <;> omega

/-! ### Policies as they are decoded -/

/-- `cb.SignaturePolicy`; a node may have no type. -/
inductive SignaturePolicy
  | signedBy (index : ℤ)
  | nOutOf (n : ℤ) (policies : List SignaturePolicy)
  | unset
deriving Repr

/-- `cb.SignaturePolicyEnvelope`; the policy may be absent. -/
structure SignaturePolicyEnvelope where
  version : ℤ
  policy : Option SignaturePolicy
  identities : List Bytes
deriving Repr

/-- `cb.Policy`: no type, or a signature policy, which may be absent. -/
structure Policy where
  type : Option (Option SignaturePolicyEnvelope)
deriving Repr

/-- Why a policy is refused. -/
inductive PolicyError
  | unmarshal
  | unknownPolicyType
  | nilSignaturePolicy
  | version (version : ℤ)
  | identityIndex (index : ℤ) (length : ℕ)
  | unknownType
deriving DecidableEq

/-! ### Compilation -/

/-- The closures that `compile` builds. -/
inductive Authenticator
  | nOutOf (policies : List Authenticator) (n : ℤ)
  | signedBy (signedByID : Bytes)
deriving Repr

mutual

def compile (identities : List Bytes) : SignaturePolicy → Except PolicyError Authenticator
  | .nOutOf n policies => do
    let policies ← compileAll identities policies
    pure (.nOutOf policies n)
  | .signedBy index =>
    if index < 0 ∨ int32 identities.length ≤ index then
      throw (.identityIndex index identities.length)
    else pure (.signedBy (identities[index.toNat]?.getD []))
  | .unset => throw .unknownType

/-- The loop over the policies of a threshold. -/
def compileAll (identities : List Bytes) :
    List SignaturePolicy → Except PolicyError (List Authenticator)
  | [] => pure []
  | p :: ps => do
    let a ← compile identities p
    let as ← compileAll identities ps
    pure (a :: as)

end

/-! ### Evaluation -/

/-- `CryptoHelper.VerifySignature`. -/
abbrev CryptoHelper := Bytes → Bytes → Bytes → Bool

/-- A call of the crypto helper. -/
structure VerifyCall where
  msg : Bytes
  id : Bytes
  signature : Bytes
deriving DecidableEq

/-- Evaluation may be out of range, and calls the crypto helper. -/
abbrev EvalM := StateT (List VerifyCall) (Except Panic)

def verifySignature (ch : CryptoHelper) (msg id signature : Bytes) : EvalM Bool := do
  modify (⟨msg, id, signature⟩ :: ·)
  pure (ch msg id signature)

/-- The first of the ids that is the one asked for must have signed. -/
def signedBy (ch : CryptoHelper) (signedByID msg : Bytes) : List Bytes → List Bytes → EvalM Bool
  | [], _ => pure false
  | id :: ids, signatures =>
    if id = signedByID then
      match signatures with
      | [] => throw .indexOutOfRange
      | signature :: _ => verifySignature ch msg id signature
    else signedBy ch signedByID msg ids signatures.tail

mutual

def Authenticator.authenticate (ch : CryptoHelper) (msg : Bytes) (ids signatures : List Bytes) :
    Authenticator → EvalM Bool
  | .nOutOf policies n => do
    let verified ← Authenticator.countVerified ch msg ids signatures policies 0
    pure (decide (n ≤ verified))
  | .signedBy signedByID => ConfigTx.signedBy ch signedByID msg ids signatures

/-- The loop that counts the policies that are satisfied. -/
def Authenticator.countVerified (ch : CryptoHelper) (msg : Bytes) (ids signatures : List Bytes) :
    List Authenticator → ℤ → EvalM ℤ
  | [], verified => pure verified
  | a :: as, verified => do
    let satisfied ← a.authenticate ch msg ids signatures
    Authenticator.countVerified ch msg ids signatures as
      (if satisfied then int32 (verified + 1) else verified)

end

/-! ### The policy manager -/

/-- A policy of the policy manager, with its source. -/
structure CompiledPolicy where
  source : SignaturePolicyEnvelope
  tree : SignaturePolicy
  evaluator : Authenticator
  policy_eq : source.policy = some tree
  compile_eq : compile source.identities tree = .ok evaluator

/-- A policy that is refused, or whose compilation stops the process. -/
inductive NewPolicyError
  | error (e : PolicyError)
  | panic (p : Panic)
deriving DecidableEq

def newSignaturePolicyEvaluator (policy : SignaturePolicyEnvelope) :
    Except NewPolicyError CompiledPolicy :=
  if policy.version ≠ 0 then .error (.error (.version policy.version))
  else
    match hp : policy.policy with
    | none => .error (.panic .nilPointer)
    | some tree =>
      match hc : compile policy.identities tree with
      | .error e => .error (.error e)
      | .ok evaluator => .ok ⟨policy, tree, evaluator, hp, hc⟩

def newPolicy (policySource : Policy) : Except NewPolicyError CompiledPolicy :=
  match policySource.type with
  | none => .error (.error .unknownPolicyType)
  | some none => .error (.error .nilSignaturePolicy)
  | some (some sigPolicy) => newSignaturePolicyEvaluator sigPolicy

/-- Why an item is refused by its policy. -/
inductive EvaluateError
  | defaultPolicy
  | notAuthenticated
  | panic (p : Panic)
deriving DecidableEq

/-- The policy `p`, or `nil`, on the signatures of an item. The headers are not used. -/
def evaluate (ch : CryptoHelper) (p : Option CompiledPolicy) (_headers : List Bytes)
    (payload : Bytes) (identities signatures : List Bytes) : Except EvaluateError Unit :=
  match p with
  | none => .error .defaultPolicy
  | some p =>
    match p.evaluator.authenticate ch payload identities signatures [] with
    | .error e => .error (.panic e)
    | .ok (true, _) => .ok ()
    | .ok (false, _) => .error .notAuthenticated

/-- The policy manager, which is the handler of the policy items. -/
abbrev ManagerImpl := Staged Bytes CompiledPolicy

namespace ManagerImpl

def beginConfig : ManagerImpl → Except Panic ManagerImpl := Staged.begin .policiesBegin

def rollbackConfig : ManagerImpl → ManagerImpl := Staged.rollback

def commitConfig : ManagerImpl → Except Panic ManagerImpl := Staged.commit .policiesCommit

/-- The policy of that name, or `nil`. -/
def getPolicy (pm : ManagerImpl) (id : Bytes) : Option CompiledPolicy := pm.committed[id]?

end ManagerImpl

end Fabric.ConfigTx
