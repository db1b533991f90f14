import Fabric.Common.MapOrder
import Fabric.Common.Program
import Fabric.ConfigTx.Policy

/-!
# The configuration manager

`configtx.go` and `bytes_handler.go`: a configuration is a set of items by type and key. An
envelope with a new configuration is checked against the present one and its items are
proposed to the handlers of their types; then the proposal is committed, or abandoned if the
envelope is refused or was only to be validated. The handlers are the policy manager for
policies, and a `BytesHandler` for each other type.

Decoding by protocol buffers is a parameter. Where Go enumerates a map, a list of choices
determines the order.
-/

namespace Fabric.ConfigTx

open Fabric.Common

/-! ### Messages -/

/-- `cb.ConfigurationItem_ConfigurationType`; other numbers decode too. -/
inductive ConfigurationType
  | policy
  | chain
  | orderer
  | fabric
  | unknown (n : ℤ)
deriving DecidableEq

/-- `cb.ConfigurationItem_ConfigurationType_name`. -/
def ConfigurationType.names : List ConfigurationType := [.policy, .chain, .orderer, .fabric]

/-- The chain ID is `none` if it is nil. -/
structure ChainHeader where
  chainID : Option Bytes
deriving DecidableEq

structure ConfigurationItem where
  header : Option ChainHeader
  type : ConfigurationType
  lastModified : UInt64
  modificationPolicy : Bytes
  key : Bytes
  value : Bytes
deriving DecidableEq

structure SignatureHeader where
  creator : Bytes
deriving DecidableEq

structure ConfigurationSignature where
  signatureHeader : Bytes
  signature : Bytes
deriving DecidableEq

structure SignedConfigurationItem where
  configurationItem : Bytes
  signatures : List ConfigurationSignature
deriving DecidableEq

structure ConfigurationEnvelope where
  items : List SignedConfigurationItem
deriving DecidableEq

/-- `proto.Unmarshal` for the messages that are decoded. -/
structure Protobuf where
  configurationItem : Bytes → Option ConfigurationItem
  signatureHeader : Bytes → Option SignatureHeader
  policy : Bytes → Option Policy

/-- Why an envelope is refused. -/
inductive ConfigError
  | emptyEnvelope
  | unmarshalItem
  | headerNotSet (item : ConfigurationItem)
  | chainIDNil (item : ConfigurationItem)
  | mismatchedChainIDs (chainID other : Bytes)
  | sequenceJumped (sequence seq : UInt64)
  | wrongChain (expected got : Bytes)
  | unmarshalSignatureHeader
  | evaluate (e : EvaluateError)
  | newWithOldSequence (key : Bytes) (type : ConfigurationType) (lastModified : UInt64)
  | modifiedWithOldSequence (key : Bytes) (type : ConfigurationType) (lastModified seq : UInt64)
  | propose (e : PolicyError)
  | missingKey (key : Bytes) (type : ConfigurationType)
deriving DecidableEq

/-! ### Handlers -/

/-- A handler that tracks the values of the items. -/
abbrev BytesHandler := Staged Bytes Bytes

namespace BytesHandler

def beginConfig : BytesHandler → Except Panic BytesHandler := Staged.begin .bytesBegin

def rollbackConfig : BytesHandler → BytesHandler := Staged.rollback

def commitConfig : BytesHandler → Except Panic BytesHandler := Staged.commit .bytesCommit

def proposeConfig (configItem : ConfigurationItem) : BytesHandler → Except Panic BytesHandler :=
  Staged.propose .nilMap configItem.key configItem.value

end BytesHandler

/-- The handlers of the known types. -/
structure Handlers where
  policy : ManagerImpl
  chain : BytesHandler
  orderer : BytesHandler
  fabric : BytesHandler

def Handlers.new : Handlers := ⟨.empty, .empty, .empty, .empty⟩

abbrev ConfigMap := ConfigurationType → Std.ExtTreeMap Bytes ConfigurationItem

/-- A map without items for every type. -/
def makeConfigMap : ConfigMap := fun _ => ∅

structure ConfigurationManager where
  sequence : UInt64
  chainID : Bytes
  configuration : ConfigMap
  handlers : Handlers

/-- The policy manager is also the handler of the policies. -/
def ConfigurationManager.pm (cm : ConfigurationManager) : ManagerImpl := cm.handlers.policy

/-- An envelope is refused, or the process stops. -/
inductive Stop
  | error (e : ConfigError)
  | panic (p : Panic)
deriving DecidableEq

/-- Programs on a configuration manager. -/
abbrev ConfigM := EStateM Stop ConfigurationManager

/-- Stop where the result is an exception. -/
def orStop {ε α : Type} (stop : ε → Stop) : Except ε α → ConfigM α
  | .ok a => pure a
  | .error e => throw (stop e)

def modifyHandlers (f : Handlers → Handlers) : ConfigM Unit :=
  modify fun cm => { cm with handlers := f cm.handlers }

def beginHandlers : ConfigM Unit := do
  let policy ← orStop .panic (← get).handlers.policy.beginConfig
  modifyHandlers fun h => { h with policy }
  let chain ← orStop .panic (← get).handlers.chain.beginConfig
  modifyHandlers fun h => { h with chain }
  let orderer ← orStop .panic (← get).handlers.orderer.beginConfig
  modifyHandlers fun h => { h with orderer }
  let fabric ← orStop .panic (← get).handlers.fabric.beginConfig
  modifyHandlers fun h => { h with fabric }

def Handlers.rollback (h : Handlers) : Handlers :=
  ⟨h.policy.rollbackConfig, h.chain.rollbackConfig, h.orderer.rollbackConfig,
    h.fabric.rollbackConfig⟩

def rollbackHandlers : ConfigM Unit := modifyHandlers Handlers.rollback

def commitHandlers : ConfigM Unit := do
  let policy ← orStop .panic (← get).handlers.policy.commitConfig
  modifyHandlers fun h => { h with policy }
  let chain ← orStop .panic (← get).handlers.chain.commitConfig
  modifyHandlers fun h => { h with chain }
  let orderer ← orStop .panic (← get).handlers.orderer.commitConfig
  modifyHandlers fun h => { h with orderer }
  let fabric ← orStop .panic (← get).handlers.fabric.commitConfig
  modifyHandlers fun h => { h with fabric }

variable (P : Protobuf)

/-- The policy of a policy item. -/
def policyOf (configItem : ConfigurationItem) : Except Stop CompiledPolicy :=
  match P.policy configItem.value with
  | none => .error (.error (.propose .unmarshal))
  | some policy =>
    match newPolicy policy with
    | .error (.error e) => .error (.error (.propose e))
    | .error (.panic p) => .error (.panic p)
    | .ok cPolicy => .ok cPolicy

/-- Propose an item to the handler of its type; an unknown type has none. -/
def proposeConfig (configItem : ConfigurationItem) : ConfigM Unit := do
  let h := (← get).handlers
  match configItem.type with
  | .policy =>
    let cPolicy ← orStop id (policyOf P configItem)
    let policy ← orStop .panic (h.policy.propose .nilMap configItem.key cPolicy)
    modifyHandlers fun h => { h with policy }
  | .chain =>
    let chain ← orStop .panic (h.chain.proposeConfig configItem)
    modifyHandlers fun h => { h with chain }
  | .orderer =>
    let orderer ← orStop .panic (h.orderer.proposeConfig configItem)
    modifyHandlers fun h => { h with orderer }
  | .fabric =>
    let fabric ← orStop .panic (h.fabric.proposeConfig configItem)
    modifyHandlers fun h => { h with fabric }
  | .unknown _ => throw (.panic .nilPointer)

/-! ### Envelopes -/

/-- The chain ID, once one was found, and the highest sequence number so far. -/
def computeStep (acc : Option Bytes × UInt64) (signedItem : SignedConfigurationItem) :
    Except ConfigError (Option Bytes × UInt64) :=
  match P.configurationItem signedItem.configurationItem with
  | none => .error .unmarshalItem
  | some item =>
    let m := if acc.2 < item.lastModified then item.lastModified else acc.2
    match item.header with
    | none => .error (.headerNotSet item)
    | some header =>
      match header.chainID, acc.1 with
      | none, _ => .error (.chainIDNil item)
      | some chainID, none => .ok (some chainID, m)
      | some other, some chainID =>
        if chainID = other then .ok (some chainID, m)
        else .error (.mismatchedChainIDs chainID other)

def computeChainIDAndSequence (configtx : ConfigurationEnvelope) :
    Except ConfigError (Option Bytes × UInt64) :=
  match configtx.items with
  | [] => .error .emptyEnvelope
  | items => items.foldlM (computeStep P) (none, 0)

def defaultModificationPolicyID : Bytes := "DefaultModificationPolicy".toUTF8.toList

/-- The policy that an item has to satisfy. -/
inductive ItemPolicy
  | acceptAll
  | signature (policy : Option CompiledPolicy)

/-- The default policy, which accepts everything if it is not set. -/
def ConfigurationManager.defaultModificationPolicy (cm : ConfigurationManager) : ItemPolicy :=
  match cm.pm.getPolicy defaultModificationPolicyID with
  | none => .acceptAll
  | some policy => .signature (some policy)

/-- The policy of the present item, or the default policy for a new item. -/
def ConfigurationManager.itemPolicy (cm : ConfigurationManager) (config : ConfigurationItem) :
    ItemPolicy :=
  match (cm.configuration config.type)[config.key]? with
  | some oldItem => .signature (cm.pm.getPolicy oldItem.modificationPolicy)
  | none => cm.defaultModificationPolicy

def ItemPolicy.evaluate (ch : CryptoHelper) (policy : ItemPolicy) (headers : List Bytes)
    (payload : Bytes) (identities signatures : List Bytes) : Except EvaluateError Unit :=
  match policy with
  | .acceptAll => .ok ()
  | .signature policy => ConfigTx.evaluate ch policy headers payload identities signatures

/-- The arguments for the evaluation of a policy. -/
structure SignatureArguments where
  headers : List Bytes
  identities : List Bytes
  signatures : List Bytes

/-- The loop over the signatures of an item. -/
def signatureArguments : List ConfigurationSignature → Except ConfigError SignatureArguments
  | [] => .ok ⟨[], [], []⟩
  | configSig :: sigs =>
    match P.signatureHeader configSig.signatureHeader with
    | none => .error .unmarshalSignatureHeader
    | some sigHeader => do
      let args ← signatureArguments sigs
      pure ⟨configSig.signature :: args.headers, sigHeader.creator :: args.identities,
        configSig.signatureHeader :: args.signatures⟩

/-- An item that is new or was modified has the sequence number of the envelope. -/
def checkLastModified (seq : UInt64) (oldItem : Option ConfigurationItem)
    (config : ConfigurationItem) : Except ConfigError Unit :=
  match oldItem with
  | some val =>
    let isModified := val.lastModified ≠ config.lastModified ∨ config.value ≠ val.value
    if isModified ∧ config.lastModified ≠ seq then
      .error (.modifiedWithOldSequence config.key config.type config.lastModified seq)
    else .ok ()
  | none =>
    if config.lastModified ≠ seq then
      .error (.newWithOldSequence config.key config.type config.lastModified)
    else .ok ()

/-- The checks of an item, before it is proposed to its handler. -/
def checkItem (ch : CryptoHelper) (cm : ConfigurationManager) (seq : UInt64)
    (entry : SignedConfigurationItem) : Except Stop ConfigurationItem :=
  match P.configurationItem entry.configurationItem with
  | none => .error (.error .unmarshalItem)
  | some config =>
    match signatureArguments P entry.signatures with
    | .error e => .error (.error e)
    | .ok args =>
      match (cm.itemPolicy config).evaluate ch args.headers entry.configurationItem
        args.identities args.signatures with
      | .error (.panic p) => .error (.panic p)
      | .error e => .error (.error (.evaluate e))
      | .ok _ =>
        match checkLastModified seq (cm.configuration config.type)[config.key]? config with
        | .error e => .error (.error e)
        | .ok _ => .ok config

variable {P} in
theorem checkItem_eq_ok {ch : CryptoHelper} {cm : ConfigurationManager} {seq : UInt64}
    {entry : SignedConfigurationItem} {config : ConfigurationItem}
    (h : checkItem P ch cm seq entry = .ok config) :
    P.configurationItem entry.configurationItem = some config ∧
      (∃ args, signatureArguments P entry.signatures = .ok args ∧
        (cm.itemPolicy config).evaluate ch args.headers entry.configurationItem args.identities
          args.signatures = .ok ()) ∧
      checkLastModified seq (cm.configuration config.type)[config.key]? config = .ok () := by
  unfold checkItem at h
  split at h
  · cases h
  · rename_i config' hconfig
    split at h
    · cases h
    · rename_i args hargs
      split at h
      · cases h
      · cases h
      · rename_i hevaluate
        split at h
        · cases h
        · rename_i hmodified
          cases h
          exact ⟨hconfig, ⟨args, hargs, hevaluate⟩, hmodified⟩

/-- One item of the envelope. -/
def processItem (ch : CryptoHelper) (seq : UInt64) (configMap : ConfigMap)
    (entry : SignedConfigurationItem) : ConfigM ConfigMap := do
  let config ← orStop id (checkItem P ch (← get) seq entry)
  proposeConfig P config
  pure (Function.update configMap config.type
    ((configMap config.type).insert config.key config))

/-- The items that are not in the new configuration. -/
def missingKeys (configuration configMap : ConfigMap) : List (ConfigurationType × Bytes) :=
  ConfigurationType.names.flatMap fun ctype =>
    ((configuration ctype).keys.filter fun id => !(configMap ctype).contains id).map
      fun id => (ctype, id)

/-- The part of `processConfig` up to the check for implicit deletion. -/
def processItems (ch : CryptoHelper) (configtx : ConfigurationEnvelope) : ConfigM ConfigMap := do
  let (chainID, seq) ← orStop .error (computeChainIDAndSequence P configtx)
  let cm ← get
  if seq ≠ cm.sequence + 1 then throw (.error (.sequenceJumped cm.sequence seq))
  else if chainID.getD [] ≠ cm.chainID then
    throw (.error (.wrongChain cm.chainID (chainID.getD [])))
  else configtx.items.foldlM (processItem P ch seq) makeConfigMap

theorem missingKeys_eq_nil {configuration configMap : ConfigMap} :
    missingKeys configuration configMap = [] ↔
      ∀ t ∈ ConfigurationType.names, ∀ k ∈ configuration t, k ∈ configMap t := by
  simp [missingKeys]

def processConfig (ch : CryptoHelper) (choices : List ℕ) (configtx : ConfigurationEnvelope) :
    ConfigM ConfigMap := do
  let configMap ← processItems P ch configtx
  match reorder choices (missingKeys (← get).configuration configMap) with
  | [] => pure configMap
  | (ctype, id) :: _ => throw (.error (.missingKey id ctype))

/-- Run a program; if it is refused, abandon the proposal. -/
def orRollback {α : Type} (x : ConfigM α) : ConfigM α :=
  tryCatch x fun
    | .error e => do
      rollbackHandlers
      throw (.error e)
    | .panic p => throw (.panic p)

def validate (ch : CryptoHelper) (choices : List ℕ) (configtx : ConfigurationEnvelope) :
    ConfigM Unit := do
  beginHandlers
  let _ ← orRollback (processConfig P ch choices configtx)
  rollbackHandlers

def apply (ch : CryptoHelper) (choices : List ℕ) (configtx : ConfigurationEnvelope) :
    ConfigM Unit := do
  beginHandlers
  let configMap ← orRollback (processConfig P ch choices configtx)
  modify fun cm => { cm with configuration := configMap, sequence := cm.sequence + 1 }
  commitHandlers

/-- A manager with the configuration of its first envelope. -/
def newConfigurationManager (ch : CryptoHelper) (choices : List ℕ)
    (configtx : ConfigurationEnvelope) : Except Stop ConfigurationManager :=
  match computeChainIDAndSequence P configtx with
  | .error e => .error (.error e)
  | .ok (chainID, seq) =>
    match (apply P ch choices configtx).run
      ⟨seq - 1, chainID.getD [], makeConfigMap, .new⟩ with
    | .ok _ cm => .ok cm
    | .error e _ => .error e

end Fabric.ConfigTx
