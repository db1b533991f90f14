import Fabric.Orderer.Cutter

/-!
# Taking configuration blocks apart

`configtxutils.go`: a configuration block has one transaction with a configuration envelope, and
the envelope has signed items. Decoding by protocol buffers is a parameter.
-/

namespace Fabric.Utils

open Fabric.Common Fabric.ConfigTx
open Fabric.Orderer (Envelope Header configurationTransaction)

/-- The data are `none` if they are nil. -/
structure Payload where
  header : Option Header
  data : Option Bytes

structure Block where
  data : Option (List Bytes)

structure Unmarshal where
  envelope : Bytes → Option Envelope
  payload : Bytes → Option Payload
  configurationEnvelope : Bytes → Option ConfigurationEnvelope
  configurationItem : Bytes → Option ConfigurationItem

/-- An error that is returned, or a panic. -/
inductive Failure
  | error
  | indexOutOfRange
  | nilPointer
deriving DecidableEq

def orFail {α : Type} (failure : Failure) : Option α → Except Failure α
  | some a => .ok a
  | none => .error failure

variable (U : Unmarshal)

/-! ### Blocks -/

/-- A nil payload decodes like an empty one. -/
def breakOutEnvelope (acc : List Payload × List Bytes) (envelopeBytes : Bytes) :
    Except Failure (List Payload × List Bytes) := do
  let envelope ← orFail .error (U.envelope envelopeBytes)
  let payload ← orFail .error (U.payload (envelope.payload.getD []))
  return (acc.1 ++ [payload], acc.2 ++ [envelope.signature])

def breakOutBlockData (data : List Bytes) : Except Failure (List Payload × List Bytes) :=
  data.foldlM (breakOutEnvelope U) ([], [])

def breakOutPayloadDataToConfigurationEnvelope (payloadData : Option Bytes) :
    Except Failure ConfigurationEnvelope :=
  orFail .error (payloadData.bind U.configurationEnvelope)

/-- The first transaction of those that were broken out. -/
def breakOutFirst (payloads : List Payload) (envelopeSignatures : List Bytes) :
    Except Failure (ConfigurationEnvelope × Bytes) := do
  let payload ← orFail .indexOutOfRange payloads[0]?
  let header ← orFail .nilPointer payload.header
  let chainHeader ← orFail .nilPointer header.chainHeader
  if chainHeader.type ≠ configurationTransaction then .error .error else
    let configEnvelope ← breakOutPayloadDataToConfigurationEnvelope U payload.data
    let envelopeSignature ← orFail .indexOutOfRange envelopeSignatures[0]?
    return (configEnvelope, envelopeSignature)

/-- The error of `BreakOutBlockData` is not looked at; its slices are nil then. -/
def breakOutBlockToConfigurationEnvelope :
    Option Block → Except Failure (ConfigurationEnvelope × Bytes)
  | some ⟨some data⟩ =>
    if 1 < data.length then .error .error
    else match breakOutBlockData U data with
      | .ok (payloads, envelopeSignatures) => breakOutFirst U payloads envelopeSignatures
      | .error _ => breakOutFirst U [] []
  | _ => .error .error

/-- A single transaction that decodes and has its headers. -/
def transaction? : List Bytes → Option (Envelope × Payload)
  | [bytes] => do
    let envelope ← U.envelope bytes
    let payload ← U.payload (envelope.payload.getD [])
    let header ← payload.header
    let _ ← header.chainHeader
    return (envelope, payload)
  | _ => none

/-- There is no panic, and what is returned is the configuration envelope of the transaction. -/
def FaithfulBlock (block : Option Block) : Prop :=
  match breakOutBlockToConfigurationEnvelope U block with
  | .error failure => failure = .error
  | .ok (configEnvelope, envelopeSignature) => ∃ data envelope payload,
    block = some ⟨some data⟩ ∧ transaction? U data = some (envelope, payload) ∧
      payload.data.bind U.configurationEnvelope = some configEnvelope ∧
      envelopeSignature = envelope.signature

/-- A block with at most one transaction has one that decodes. -/
def ReadableBlock (block : Option Block) : Prop :=
  ∀ data, block = some ⟨some data⟩ → data.length ≤ 1 → (transaction? U data).isSome

/-! ### Items -/

/-- The slice of the signatures of an item is not made before the first is appended to it. -/
def appendSignature (i : ℕ) (configSignatures : List (List ConfigurationSignature))
    (signature : ConfigurationSignature) : Except Failure (List (List ConfigurationSignature)) := do
  let signatures ← orFail .indexOutOfRange configSignatures[i]?
  return configSignatures.set i (signatures ++ [signature])

def breakOutItem (acc : List ConfigurationItem × List (List ConfigurationSignature))
    (signed : SignedConfigurationItem × ℕ) :
    Except Failure (List ConfigurationItem × List (List ConfigurationSignature)) := do
  let configItem ← orFail .error (U.configurationItem signed.1.configurationItem)
  let configSignatures ← signed.1.signatures.foldlM (appendSignature signed.2) acc.2
  return (acc.1 ++ [configItem], configSignatures)

def breakOutConfigEnvelopeToConfigItems (configEnvelope : Option ConfigurationEnvelope) :
    Except Failure (List ConfigurationItem × List (List ConfigurationSignature)) := do
  let configEnvelope ← orFail .error configEnvelope
  configEnvelope.items.zipIdx.foldlM (breakOutItem U) ([], [])

/-- As many items and lists of signatures as the envelope has, in their order. -/
def FaithfulItems (configEnvelope : ConfigurationEnvelope) : Prop :=
  ∃ items signatures, breakOutConfigEnvelopeToConfigItems U (some configEnvelope) =
    .ok (items, signatures) ∧
    items.map some = configEnvelope.items.map (U.configurationItem ·.configurationItem) ∧
    signatures = configEnvelope.items.map SignedConfigurationItem.signatures

variable {U}

theorem faithfulBlock_singleton (bytes : Bytes) :
    FaithfulBlock U (some ⟨some [bytes]⟩) ↔ (transaction? U [bytes]).isSome := by
  unfold FaithfulBlock breakOutBlockToConfigurationEnvelope transaction?
  simp only [breakOutBlockData, List.foldlM_cons, List.foldlM_nil, breakOutEnvelope, bind_pure]
  -- each part of the transaction may be absent
  rcases henvelope : U.envelope bytes with _ | envelope
  · simp [orFail, breakOutFirst]
  rcases hpayload : U.payload (envelope.payload.getD []) with _ | payload
  · simp [orFail, breakOutFirst, hpayload]
  rcases hheader : payload.header with _ | ⟨_ | chainHeader⟩
  · simp [orFail, breakOutFirst, hpayload, hheader]
  · simp [orFail, breakOutFirst, hpayload, hheader]
  by_cases htype : chainHeader.type = configurationTransaction
  · rcases hdata : payload.data.bind U.configurationEnvelope with _ | configEnvelope
    · simp [orFail, breakOutFirst, hpayload, hheader, hdata,
        breakOutPayloadDataToConfigurationEnvelope]
    · simp [orFail, breakOutFirst, hpayload, hheader, htype, henvelope, hdata,
        breakOutPayloadDataToConfigurationEnvelope]
  · simp [orFail, breakOutFirst, hpayload, hheader, htype]

theorem faithfulBlock_iff (block : Option Block) :
    FaithfulBlock U block ↔ ReadableBlock U block := by
  rcases block with _ | ⟨_ | ⟨_ | ⟨bytes, _ | ⟨bytes', data⟩⟩⟩⟩
  iterate 2 simp [FaithfulBlock, ReadableBlock, breakOutBlockToConfigurationEnvelope]
  · simp [FaithfulBlock, ReadableBlock, breakOutBlockToConfigurationEnvelope, breakOutBlockData,
      breakOutFirst, orFail, transaction?]
  · simp [faithfulBlock_singleton, ReadableBlock]
  · simp [FaithfulBlock, ReadableBlock, breakOutBlockToConfigurationEnvelope]

/-- No list of signatures is ever added. -/
theorem signatures_eq_nil {signed : List (SignedConfigurationItem × ℕ)}
    {items items' : List ConfigurationItem} {signatures : List (List ConfigurationSignature)}
    (h : signed.foldlM (breakOutItem U) (items, []) = .ok (items', signatures)) :
    signatures = [] := by
  induction signed generalizing items with
  | nil =>
    cases h
    rfl
  | cons s _ ih =>
    obtain ⟨⟨items₁, signatures₁⟩, hs, h⟩ := bind_eq_ok_iff.mp h
    obtain ⟨item, -, hs⟩ := bind_eq_ok_iff.mp hs
    obtain ⟨signatures₂, hfold, hs⟩ := bind_eq_ok_iff.mp hs
    cases hs
    -- the first signature of an item has no list to be appended to
    cases hlist : s.1.signatures with
    | nil =>
      rw [hlist] at hfold
      cases hfold
      exact ih h
    | cons =>
      rw [hlist] at hfold
      cases hfold

/-- A block is taken apart faithfully exactly if it can be read, and an envelope only if it has no
items. -/
theorem faithful_iff (U : Unmarshal) : (∀ block, FaithfulBlock U block ↔ ReadableBlock U block) ∧
    ∀ configEnvelope : ConfigurationEnvelope,
      FaithfulItems U configEnvelope ↔ configEnvelope.items = [] := by
  refine ⟨faithfulBlock_iff, fun configEnvelope => ⟨?_, fun h => ?_⟩⟩
  · rintro ⟨items, signatures, hitems, -, hsignatures⟩
    rw [signatures_eq_nil hitems] at hsignatures
    exact List.map_eq_nil_iff.mp hsignatures.symm
  · refine ⟨[], [], ?_, by simp [h], by simp [h]⟩
    simp [breakOutConfigEnvelopeToConfigItems, orFail, h]

/-- A block without transactions, and an item with a signature. -/
theorem not_faithful : ¬ FaithfulBlock ⟨fun _ => none, fun _ => none, fun _ => none, fun _ => none⟩
      (some ⟨some []⟩) ∧
    ¬ FaithfulItems ⟨fun _ => none, fun _ => none, fun _ => none,
      fun _ => some ⟨none, .chain, 0, [], [], []⟩⟩ ⟨[⟨[], [⟨[], []⟩]⟩]⟩ := by
  refine ⟨fun h => ?_, ?_⟩
  · cases h
  · rintro ⟨items, signatures, h, -⟩
    cases h

end Fabric.Utils
