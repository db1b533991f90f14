import Fabric.Orderer.Readers
import Fabric.Orderer.Solo

/-!
# Starting the orderer on its ledger

The orderer starts by reading its ledger from the oldest block on, and looks for the last
configuration transaction among the blocks with one transaction. It panics where such a block
has no envelope whose payload decodes and has its headers; the filters of the solo consenter let
any payload in. All configurations are decoded into one object, so one whose data do not decode
leaves its traces in what was found before.
-/

namespace Fabric.Orderer

open Fabric.Common Fabric.ConfigTx List

variable {S C α : Type} {M : Marshal} {F : BlockFile α}

/-! ### The loop -/

/-- `rawledger.Reader`: an iterator, unless the call stops the process or does not return, and
`Next`, unless it has to wait. -/
structure Reader (C : Type) where
  iterator : StartType → UInt64 → Option (Iterator C × UInt64)
  next : Iterator C → Option (NextResult × Iterator C)

def FileLedger.reader (F : BlockFile α) (fl : FileLedger α) : Reader UInt64 :=
  ⟨fun startType specified => some (fl.iterator startType specified), fl.next F⟩

def RamLedger.reader (rl : RamLedger) : Reader ℕ := ⟨rl.iterator, rl.next⟩

/-- `proto.Unmarshal`; an envelope may come back with an empty payload for an absent one. -/
structure Codec (M : Marshal) extends Unmarshal where
  envelope : Bytes → Option Envelope
  /-- What a failed call leaves in the configuration envelope that it was to fill. -/
  residue : Bytes → ConfigurationEnvelope
  envelope_marshal : ∀ message, ∃ message', envelope (M.envelope message) = some message' ∧
    message'.payload.getD [] = message.payload.getD []

/-- What stops the process at startup. -/
inductive StartupPanic
  | status
  | indexOutOfBounds
  | notEnvelope
  | notPayload
  | nilHeader
  | nilChainHeader
deriving DecidableEq

/-- A value that has to be there. -/
def orPanic {β : Type} (cause : StartupPanic) : Option β → Except StartupPanic β
  | some b => .ok b
  | none => .error cause

@[simp] theorem orPanic_some {β : Type} (cause : StartupPanic) (b : β) :
    orPanic cause (some b) = .ok b := rfl

@[simp] theorem orPanic_none {β : Type} (cause : StartupPanic) :
    orPanic cause (none : Option β) = .error cause := rfl

def extractEnvelopeOrPanic (D : Codec M) (block : Block) (index : ℕ) :
    Except StartupPanic Envelope := do
  let marshaledEnvelope ← orPanic .indexOutOfBounds block.data[index]?
  orPanic .notEnvelope (D.envelope marshaledEnvelope)

def extractPayloadOrPanic (D : Codec M) (envelope : Envelope) : Except StartupPanic Payload :=
  orPanic .notPayload (D.payload (envelope.payload.getD []))

/-- The object that configurations are decoded into, and whether `lastConfigTx` points to it. -/
structure Found where
  configurationEnvelope : ConfigurationEnvelope
  lastConfigTx : Bool
deriving DecidableEq

/-- A call of `Unmarshal` that fails has changed the object. -/
def Found.decode (D : Codec M) (found : Found) (data : Bytes) : Found :=
  match D.configurationEnvelope data with
  | some configurationEnvelope => ⟨configurationEnvelope, true⟩
  | none => ⟨D.residue data, found.lastConfigTx⟩

/-- What is returned. -/
def Found.result (found : Found) : Option ConfigurationEnvelope :=
  if found.lastConfigTx then some found.configurationEnvelope else none

/-- What the loop does with a block. -/
def inspect (D : Codec M) (found : Found) (block : Block) : Except StartupPanic Found := do
  if block.data.length ≠ 1 then return found
  let envelope ← extractEnvelopeOrPanic D block 0
  let payload ← extractPayloadOrPanic D envelope
  let header ← orPanic .nilHeader payload.header
  let chainHeader ← orPanic .nilChainHeader header.chainHeader
  if chainHeader.type ≠ configurationTransaction then return found
  return found.decode D payload.data

/-- The loop, unless it takes more iterations. -/
def scanBlocks (D : Codec M) (rl : Reader C) :
    ℕ → Iterator C → Found → Option (Except StartupPanic (Option ConfigurationEnvelope))
  | 0, _, _ => none
  | iterations + 1, it, found =>
    match rl.next it with
    -- there is no block yet: the default case
    | none => some (.ok found.result)
    | some (.success block, it) =>
      match inspect D found block with
      | .ok found => scanBlocks D rl iterations it found
      | .error cause => some (.error cause)
    | some (_, _) => some (.error .status)

def retrieveConfiguration (D : Codec M) (rl : Reader C) (iterations : ℕ) :
    Option (Except StartupPanic (Option ConfigurationEnvelope)) := do
  let (it, _) ← rl.iterator .oldest 0
  scanBlocks D rl iterations it ⟨⟨[]⟩, false⟩

/-! ### What it should return -/

/-- The chain header and the data of a message, if its payload decodes and has its headers. -/
def contents (D : Codec M) (message : Envelope) : Option (ChainHeader × Bytes) := do
  let payload ← D.payload (message.payload.getD [])
  let header ← payload.header
  let chainHeader ← header.chainHeader
  return (chainHeader, payload.data)

/-- The data of a message that claims to be a configuration transaction. -/
def configurationData (D : Codec M) (message : Envelope) : Option Bytes := do
  let (chainHeader, data) ← contents D message
  if chainHeader.type = configurationTransaction then some data else none

/-- The configuration of a block with one transaction, if that is a well-formed configuration
transaction. -/
def Block.configuration? (D : Codec M) (block : Block) : Option ConfigurationEnvelope :=
  match block.data with
  | [marshaledEnvelope] => do
    let envelope ← D.envelope marshaledEnvelope
    let data ← configurationData D envelope
    D.configurationEnvelope data
  | _ => none

def lastConfiguration (D : Codec M) (blocks : List Block) : Option ConfigurationEnvelope :=
  (blocks.filterMap (Block.configuration? D)).getLast?

/-- The orderer gets through the blocks of its ledger and finds the last configuration. -/
def Retrieves (D : Codec M) (rl : Reader C) (blocks : List Block) : Prop :=
  ∃ iterations, retrieveConfiguration D rl iterations = some (.ok (lastConfiguration D blocks))

/-! ### The condition -/

/-- The messages that have a batch of their own. -/
def singles (batches : List (List Envelope)) : List Envelope :=
  batches.filterMap fun
    | [message] => some message
    | _ => none

/-- Every message with a batch of its own has a payload with headers. If the last one that claims to
be a configuration does not decode, what is left of it is the last one that did. -/
structure Tolerable (D : Codec M) (batches : List (List Envelope)) : Prop where
  readable : ∀ message ∈ singles batches, (contents D message).isSome
  undisturbed : ∀ data config,
    ((singles batches).filterMap (configurationData D)).getLast? = some data →
    D.configurationEnvelope data = none →
    (((singles batches).filterMap (configurationData D)).filterMap
      D.configurationEnvelope).getLast? = some config →
    D.residue data = config

/-! ### The loop as a fold -/

/-- The iterator comes to these blocks, and then has to wait. -/
inductive Reads (rl : Reader C) : Iterator C → List Block → Prop
  | nil {it : Iterator C} (h : rl.next it = none) : Reads rl it []
  | cons {it it' : Iterator C} {block : Block} {blocks : List Block}
    (h : rl.next it = some (.success block, it')) (rest : Reads rl it' blocks) :
    Reads rl it (block :: blocks)

variable {D : Codec M} {rl : Reader C} {it : Iterator C} {blocks : List Block} {found : Found}
  {iterations : ℕ}

open Found

/-- The loop gives the result of the fold as soon as it gives one, which it does at the latest
when all the blocks are read. -/
theorem scanBlocks_spec (h : Reads rl it blocks) :
    (∀ r, scanBlocks D rl iterations it found = some r →
      (blocks.foldlM (inspect D) found).map result = r) ∧
    (blocks.length < iterations → (scanBlocks D rl iterations it found).isSome) := by
  induction h generalizing iterations found with
  | nil h =>
    cases iterations with
    | zero => simp [scanBlocks]
    | succ =>
      rw [scanBlocks, h]
      exact ⟨fun r => Option.some.inj, fun _ => rfl⟩
  | @cons _ _ block _ h _ ih =>
    cases iterations with
    | zero => simp [scanBlocks]
    | succ =>
      rw [foldlM_cons]
      simp only [scanBlocks, h]
      cases hblock : inspect D found block with
      | error => exact ⟨fun r => Option.some.inj, fun _ => rfl⟩
      | ok => exact ih.imp_right fun hlt hlt' => hlt (Nat.lt_of_succ_lt_succ hlt')

theorem exists_scanBlocks_iff (h : Reads rl it blocks) {config : Option ConfigurationEnvelope} :
    (∃ iterations, scanBlocks D rl iterations it found = some (.ok config)) ↔
      ∃ found', blocks.foldlM (inspect D) found = .ok found' ∧ found'.result = config := by
  rw [← map_eq_ok_iff]
  constructor
  · rintro ⟨iterations, hscan⟩
    exact (scanBlocks_spec h).1 _ hscan
  · intro hfold
    obtain ⟨r, hr⟩ := Option.isSome_iff_exists.mp ((scanBlocks_spec h).2 (Nat.lt_succ_self _))
    exact ⟨_, by rw [hr, ← (scanBlocks_spec h).1 r hr, hfold]⟩

/-! ### Blocks of batches -/

variable {block : Block} {message message' : Envelope} {batches : List (List Envelope)}
  {chain : List Block}

theorem contents_congr (h : message'.payload.getD [] = message.payload.getD []) :
    contents D message' = contents D message := by
  rw [contents, contents, h]

theorem inspect_of_length_ne (h : block.data.length ≠ 1) : inspect D found block = .ok found := by
  simp only [inspect, h, ne_eq]
  rfl

theorem inspect_readable (h : block.data = [M.envelope message]) {chainHeader : ChainHeader}
    {data : Bytes} (hcontents : contents D message = some (chainHeader, data)) :
    inspect D found block =
      .ok (((configurationData D message).map (found.decode D)).getD found) := by
  obtain ⟨message', henvelope, hpayload⟩ := D.envelope_marshal message
  have hdata : configurationData D message =
      if chainHeader.type = configurationTransaction then some data else none := by
    rw [configurationData, hcontents]
    rfl
  simp only [contents, Option.bind_eq_bind, Option.bind_eq_some_iff] at hcontents
  obtain ⟨payload, hdecode, header, hheader, chainHeader', hchain, heq⟩ := hcontents
  cases heq
  rw [hdata]
  split_ifs with htype
  all_goals simp [inspect, extractEnvelopeOrPanic, extractPayloadOrPanic, h, henvelope, hpayload,
    hdecode, hheader, hchain, htype]

theorem inspect_unreadable (found : Found) (h : block.data = [M.envelope message])
    (hcontents : contents D message = none) : ∃ cause, inspect D found block = .error cause := by
  obtain ⟨message', henvelope, hpayload⟩ := D.envelope_marshal message
  simp only [inspect, extractEnvelopeOrPanic, extractPayloadOrPanic, h, henvelope, hpayload,
    List.getElem?_cons_zero, orPanic_some, ok_bind]
  rw [contents] at hcontents
  -- one of the parts that `contents` asks for is absent, and the loop reads them in the same order
  cases hdecode : D.payload (message.payload.getD []) with
  | none => exact ⟨_, rfl⟩
  | some payload =>
    cases hheader : payload.header with
    | none => exact ⟨.nilHeader, by simp [hheader]⟩
    | some header =>
      cases hchain : header.chainHeader with
      | none => exact ⟨.nilChainHeader, by simp [hheader, hchain]⟩
      | some => simp [hdecode, hheader, hchain] at hcontents

/-- The blocks hold the envelopes of the batches. -/
def Hold (M : Marshal) (blocks : List Block) (batches : List (List Envelope)) : Prop :=
  blocks.map Block.data = batches.map (List.map M.envelope)

theorem Hold.drop (h : Hold M blocks batches) (n : ℕ) :
    Hold M (blocks.drop n) (batches.drop n) := by
  unfold Hold at h ⊢
  rw [map_drop, map_drop, h]

theorem Hold.length_eq (h : Hold M blocks batches) : blocks.length = batches.length := by
  simpa using congrArg List.length h

theorem Hold.cons_inv {batch : List Envelope} (h : Hold M blocks (batch :: batches)) :
    ∃ block rest, blocks = block :: rest ∧ block.data = batch.map M.envelope ∧
      Hold M rest batches := by
  cases blocks with
  | nil => cases h
  | cons block rest =>
    obtain ⟨hdata, hrest⟩ := List.cons.inj h
    exact ⟨block, rest, rfl, hdata, hrest⟩

theorem singles_cons (batch : List Envelope) (batches : List (List Envelope)) :
    (∃ message, batch = [message] ∧ singles (batch :: batches) = message :: singles batches) ∨
    (batch.length ≠ 1 ∧ singles (batch :: batches) = singles batches) := by
  match batch with
  | [] => exact .inr ⟨by simp, rfl⟩
  | [message] => exact .inl ⟨message, rfl, rfl⟩
  | _ :: _ :: _ => exact .inr ⟨by simp, rfl⟩

theorem foldlM_inspect (h : Hold M blocks batches)
    (hreadable : ∀ message ∈ singles batches, (contents D message).isSome) :
    blocks.foldlM (inspect D) found =
      .ok (((singles batches).filterMap (configurationData D)).foldl (decode D) found) := by
  induction batches generalizing blocks found with
  | nil =>
    obtain rfl : blocks = [] := map_eq_nil_iff.mp h
    rfl
  | cons batch batches ih =>
    obtain ⟨block, rest, rfl, hdata, hrest⟩ := h.cons_inv
    rw [foldlM_cons]
    obtain ⟨message, rfl, hsingles⟩ | ⟨hlen, hsingles⟩ := singles_cons batch batches
    · rw [hsingles] at hreadable ⊢
      obtain ⟨⟨chainHeader, data⟩, hcontents⟩ :=
        Option.isSome_iff_exists.mp (hreadable message mem_cons_self)
      have ih := @ih rest (((configurationData D message).map (found.decode D)).getD found) hrest
        fun m hm => hreadable m (mem_cons_of_mem message hm)
      rw [inspect_readable hdata hcontents]
      refine ih.trans ?_
      cases hconfig : configurationData D message with
      | none => rw [filterMap_cons_none hconfig]; rfl
      | some => rw [filterMap_cons_some hconfig]; rfl
    · rw [hsingles] at hreadable ⊢
      rw [inspect_of_length_ne (by simpa [hdata] using hlen)]
      exact ih hrest hreadable

theorem foldlM_inspect_unreadable (found : Found) (h : Hold M blocks batches)
    (hmem : message ∈ singles batches) (hcontents : contents D message = none) :
    ∃ cause, blocks.foldlM (inspect D) found = .error cause := by
  induction batches generalizing blocks found with
  | nil => cases hmem
  | cons batch batches ih =>
    obtain ⟨block, rest, rfl, hdata, hrest⟩ := h.cons_inv
    rw [foldlM_cons]
    cases hblock : inspect D found block with
    | error cause => exact ⟨cause, rfl⟩
    | ok found' =>
      obtain ⟨message', rfl, hsingles⟩ | ⟨-, hsingles⟩ := singles_cons batch batches
      · rcases mem_cons.mp hmem with rfl | hmem
        · obtain ⟨cause, herror⟩ := inspect_unreadable found hdata hcontents
          rw [hblock] at herror
          cases herror
        · exact ih found' hrest hmem
      · rw [hsingles] at hmem
        exact ih found' hrest hmem

theorem configuration?_single (h : block.data = [M.envelope message]) :
    block.configuration? D = (configurationData D message).bind D.configurationEnvelope := by
  obtain ⟨message', henvelope, hpayload⟩ := D.envelope_marshal message
  have hdata : configurationData D message' = configurationData D message := by
    rw [configurationData, configurationData, contents_congr hpayload]
  simp only [Block.configuration?, h, henvelope, Option.bind_eq_bind, Option.bind_some, hdata]

theorem configuration?_of_length_ne (h : block.data.length ≠ 1) :
    block.configuration? D = none := by
  unfold Block.configuration?
  split
  case h_1 hdata => simp [hdata] at h
  case h_2 => rfl

theorem lastConfiguration_eq (h : Hold M blocks batches) : lastConfiguration D blocks =
    (((singles batches).filterMap (configurationData D)).filterMap
      D.configurationEnvelope).getLast? := by
  rw [lastConfiguration]
  congr 1
  induction batches generalizing blocks with
  | nil =>
    obtain rfl : blocks = [] := map_eq_nil_iff.mp h
    rfl
  | cons batch batches ih =>
    obtain ⟨block, rest, rfl, hdata, hrest⟩ := h.cons_inv
    have ih := ih hrest
    rw [filterMap_filterMap] at ih ⊢
    obtain ⟨message, rfl, hsingles⟩ | ⟨hlen, hsingles⟩ := singles_cons batch batches
    · rw [hsingles, filterMap_cons, filterMap_cons, configuration?_single hdata, ih]
    · rw [hsingles, filterMap_cons, configuration?_of_length_ne (by simpa [hdata] using hlen), ih]

/-! ### The object that is decoded into -/

theorem foldl_decode_lastConfigTx (found : Found) (data : List Bytes) :
    (data.foldl (decode D) found).lastConfigTx =
      (found.lastConfigTx || !(data.filterMap D.configurationEnvelope).isEmpty) := by
  induction data generalizing found with
  | nil => simp
  | cons d _ ih =>
    rw [foldl_cons, ih, decode]
    cases hd : D.configurationEnvelope d with
    | none => simp [hd]
    | some => simp [hd]

theorem result_foldl_decode (data : List Bytes) : (data.foldl (decode D) ⟨⟨[]⟩, false⟩).result =
      (data.filterMap D.configurationEnvelope).getLast? ↔
    ∀ d config, data.getLast? = some d → D.configurationEnvelope d = none →
      (data.filterMap D.configurationEnvelope).getLast? = some config → D.residue d = config := by
  -- the last data decide, so the list is taken apart from its end
  obtain rfl | ⟨earlier, d, rfl⟩ := data.eq_nil_or_concat'
  · simp [result]
  · have hflag := foldl_decode_lastConfigTx (D := D) ⟨⟨[]⟩, false⟩ earlier
    rw [foldl_append]
    cases hd : D.configurationEnvelope d with
    | some => simp [decode, result, hd]
    | none =>
      -- nothing was found, or `lastConfigTx` points to what is left of the last data
      have hresult : ([d].foldl (decode D) (earlier.foldl (decode D) ⟨⟨[]⟩, false⟩)).result =
          if (earlier.filterMap D.configurationEnvelope).isEmpty then none
          else some (D.residue d) := by
        simp only [foldl_cons, decode, hd, hflag]
        cases (earlier.filterMap D.configurationEnvelope).isEmpty <;> rfl
      rw [hresult]
      cases hlast : (earlier.filterMap D.configurationEnvelope).getLast? with
      | none =>
        rw [List.getLast?_eq_none_iff] at hlast
        simp [hlast, hd]
      | some =>
        have hne : earlier.filterMap D.configurationEnvelope ≠ [] := by
          intro hnil
          simp [hnil] at hlast
        simp [hlast, hd, hne]

theorem exists_foldlM_iff (h : Hold M blocks batches) :
    (∃ found, blocks.foldlM (inspect D) ⟨⟨[]⟩, false⟩ = .ok found ∧
      found.result = lastConfiguration D blocks) ↔ Tolerable D batches := by
  rw [lastConfiguration_eq h]
  constructor
  · rintro ⟨found, hfold, hresult⟩
    -- the loop has got through, so it has met no message that cannot be read
    have hreadable : ∀ message ∈ singles batches, (contents D message).isSome := by
      intro message hmem
      by_contra hnone
      obtain ⟨cause, herror⟩ := foldlM_inspect_unreadable ⟨⟨[]⟩, false⟩ h hmem
        (by simpa using hnone)
      rw [hfold] at herror
      cases herror
    rw [foldlM_inspect h hreadable] at hfold
    cases hfold
    exact ⟨hreadable, (result_foldl_decode _).mp hresult⟩
  · rintro ⟨hreadable, hundisturbed⟩
    exact ⟨_, foldlM_inspect h hreadable, (result_foldl_decode _).mpr hundisturbed⟩

/-! ### The two ledgers -/

theorem Reads.of_getElem (rl : Reader C) (place : ℕ → Iterator C) {l : List Block}
    (h : ∀ i ≤ l.length, rl.next (place i) = l[i]?.map fun b => (.success b, place (i + 1))) {i : ℕ}
    (hi : i ≤ l.length) : Reads rl (place i) (l.drop i) := by
  -- on the number of blocks that are left
  induction hn : l.length - i generalizing i with
  | zero =>
    obtain rfl : i = l.length := by omega
    rw [drop_length]
    exact .nil (by rw [h _ le_rfl, List.getElem?_eq_none le_rfl]; rfl)
  | succ _ ih =>
    have hlt : i < l.length := by omega
    rw [drop_eq_getElem_cons hlt]
    refine .cons ?_ (ih hlt (by omega))
    rw [h i hi, List.getElem?_eq_getElem hlt]
    rfl

theorem FileLedger.Stores.reads {fl : FileLedger α} (h : fl.Stores F chain)
    (hroom : chain.length < 2 ^ 64) : Reads (fl.reader F) (.cursor 0) chain := by
  refine Reads.of_getElem (fl.reader F) (fun i => .cursor (UInt64.ofNat i)) ?_ (Nat.zero_le _)
  intro i hi
  have hread := h.readBlock hroom.le (i := i) (by omega)
  simp only [FileLedger.reader, FileLedger.next, hread, Option.map_map, UInt64.ofNat_add]
  rfl

theorem RamLedger.Stores.reads {rl : RamLedger} (h : rl.Stores chain) {i : ℕ}
    (hi : i ≤ chain.length) : Reads rl.reader (.cursor (i + 1)) (chain.drop i) := by
  have hreads := Reads.of_getElem rl.reader .cursor (fun _ _ => rfl)
    (i := i + 1) (by simp [h.nodes, hi])
  rwa [h.nodes] at hreads

/-! ### The ledger of the solo consenter -/

def createBroadcastRuleset : List (Rule S) := [emptyRejectRule, acceptRule]

/-- What `launchSolo` makes the consenter with, for any configuration manager. -/
def soloCutter (U : Unmarshal) (batchSize : ℕ)
    (validate : ConfigurationEnvelope → S → Option (Option ConfigError × S)) : Cutter S where
  unmarshal := U
  batchSize := batchSize
  filters := createBroadcastRuleset
  validate := validate

/-- The ledger in files after a run of the consenter, made anew. -/
def FileLedger.afterRun (M : Marshal) (F : BlockFile α) (genesis : Block) (c : Cutter S) (env : S)
    (events : List SoloEvent) : Option (FileLedger α) := do
  let s ← runSteps (Solo.step c) (.start env) events
  let fl ← FileLedger.build M F (some genesis) (s.appended.map fun batch => (batch, []))
  FileLedger.new M F fl.files genesis

/-- The ledger in memory after a run of the consenter. -/
def RamLedger.afterRun (M : Marshal) (maxSize : ℤ) (genesis : Block) (c : Cutter S) (env : S)
    (events : List SoloEvent) : Option RamLedger := do
  let s ← runSteps (Solo.step c) (.start env) events
  return RamLedger.build M maxSize (some genesis) (s.appended.map fun batch => (batch, []))

/-- A genesis block with one message, which is a well-formed configuration transaction. -/
structure Genesis (D : Codec M) where
  block : Block
  message : Envelope
  number : block.header.number = 0
  data : block.data = [M.envelope message]
  configuration : (block.configuration? D).isSome

theorem retrieves_iff_tolerable (h : Hold M blocks batches) {rl : Reader C} {n : UInt64}
    (hstart : rl.iterator .oldest 0 = some (it, n)) (hreads : Reads rl it blocks) :
    Retrieves D rl blocks ↔ Tolerable D batches := by
  rw [Retrieves, ← exists_foldlM_iff h, ← exists_scanBlocks_iff hreads]
  simp only [retrieveConfiguration, hstart, Option.bind_eq_bind, Option.bind_some]

/-- The orderer starts with the last configuration exactly if the batches are tolerable, on a ledger
in files, and in memory for the blocks that are kept. -/
theorem retrieves_iff (D : Codec M) (F : BlockFile α) (genesis : Genesis D) (batchSize : ℕ)
    (validate : ConfigurationEnvelope → S → Option (Option ConfigError × S)) {env : S}
    {events : List SoloEvent} {s : Solo S}
    (hrun : runSteps (Solo.step (soloCutter D.toUnmarshal batchSize validate)) (.start env) events =
      some s) (hroom : s.appended.length + 1 < 2 ^ 64) :
    (∃ fl chain, FileLedger.afterRun M F genesis.block
        (soloCutter D.toUnmarshal batchSize validate) env events = some fl ∧ fl.Stores F chain ∧
      (lastConfiguration D chain).isSome ∧
      (Retrieves D (fl.reader F) chain ↔ Tolerable D ([genesis.message] :: s.appended))) ∧
    ∀ maxSize, ∃ rl chain, RamLedger.afterRun M maxSize genesis.block
        (soloCutter D.toUnmarshal batchSize validate) env events = some rl ∧ rl.Stores chain ∧
      (Retrieves D rl.reader (chain.drop (rl.oldest - 1)) ↔
        Tolerable D (([genesis.message] :: s.appended).drop (rl.oldest - 1))) := by
  have hgenesis : ∀ block ∈ some genesis.block, block.header.number = 0 := by
    simpa using genesis.number
  -- the blocks hold the envelopes of the genesis block and of the batches
  have hhold : ∀ blocks, blocks.map Block.data =
      (s.appended.map fun batch => (batch, ([] : List Bytes))).map
        (fun batch => batch.1.map M.envelope) →
      Hold M (genesis.block :: blocks) ([genesis.message] :: s.appended) := by
    intro blocks hdata
    rw [Hold, map_cons, genesis.data, hdata, map_map]
    rfl
  constructor
  · obtain ⟨fl, blocks, hbuild, hfl, hdata⟩ := FileLedger.build_stores hgenesis
      (s.appended.map fun batch => (batch, [])) (by simp; omega)
    have hlen : (genesis.block :: blocks).length < 2 ^ 64 := by
      rwa [(hhold blocks hdata).length_eq]
    obtain ⟨fl', hnew, hfl', -⟩ := hfl.restart (M := M) hlen
    refine ⟨fl', genesis.block :: blocks, ?_, hfl', ?_, ?_⟩
    · rw [FileLedger.afterRun, hrun]
      simp only [Option.bind_eq_bind, Option.bind_some, hbuild, hnew]
    -- the genesis block has a configuration, so there is a last one
    · obtain ⟨config, hconfig⟩ := Option.isSome_iff_exists.mp genesis.configuration
      rw [lastConfiguration, filterMap_cons_some hconfig]
      rfl
    · exact retrieves_iff_tolerable (hhold blocks hdata) rfl (hfl'.reads hlen)
  · intro maxSize
    obtain ⟨blocks, hrl, hdata⟩ := RamLedger.build_stores hgenesis maxSize
      (s.appended.map fun batch => (batch, []))
    have hlen : (genesis.block :: blocks).length < 2 ^ 64 := by
      rwa [(hhold blocks hdata).length_eq]
    refine ⟨_, genesis.block :: blocks, by rw [RamLedger.afterRun, hrun]; rfl, hrl, ?_⟩
    exact retrieves_iff_tolerable ((hhold blocks hdata).drop _) (hrl.iterator_oldest hlen 0)
      (hrl.reads ((Nat.sub_le _ _).trans hrl.oldest))

/-- Payloads that begin with one are configurations, those that begin with two are messages. -/
def exampleCodec : Codec exampleMarshal where
  payload
    | kind :: data =>
      if kind = 1 then some ⟨some ⟨some ⟨configurationTransaction, []⟩⟩, data⟩
      else if kind = 2 then some ⟨some ⟨some ⟨2, []⟩⟩, data⟩
      else none
    | [] => none
  configurationEnvelope data := if data = [] then none else some ⟨data.map fun b => ⟨[b], []⟩⟩
  envelope bytes := some ⟨some bytes, []⟩
  residue _ := ⟨[]⟩
  envelope_marshal _ := ⟨_, rfl, rfl⟩

def exampleStart : Genesis exampleCodec where
  block := ⟨⟨0, [], []⟩, [[1, 7]], []⟩
  message := ⟨some [1, 7], []⟩
  number := rfl
  data := rfl
  configuration := rfl

/-- Batches of one message each. -/
def exampleSoloCutter : Cutter Unit :=
  soloCutter exampleCodec.toUnmarshal 1 fun _ env => some (none, env)

theorem retrieves_iff_reconfigured : ∃ fl chain,
    FileLedger.afterRun exampleMarshal exampleBlockFile exampleStart.block exampleSoloCutter ()
      [.message ⟨some [2, 5], []⟩, .message ⟨none, []⟩, .message ⟨some [1, 8], []⟩] = some fl ∧
    fl.Stores exampleBlockFile chain ∧
    Retrieves exampleCodec (fl.reader exampleBlockFile) chain := by
  have hrun : runSteps (Solo.step exampleSoloCutter) (.start ())
      [.message ⟨some [2, 5], []⟩, .message ⟨none, []⟩, .message ⟨some [1, 8], []⟩] =
      some ⟨⟨[], ()⟩, false, [[⟨some [2, 5], []⟩], [⟨some [1, 8], []⟩]]⟩ := by decide
  obtain ⟨⟨fl, chain, hafter, hstores, -, hiff⟩, -⟩ :=
    retrieves_iff exampleCodec exampleBlockFile exampleStart 1 _ hrun (by decide)
  refine ⟨fl, chain, hafter, hstores, hiff.mpr ⟨by decide, ?_⟩⟩
  intro data config hlast hnone
  -- the last configuration transaction decodes
  obtain rfl : [8] = data := Option.some.inj (Eq.trans (by decide) hlast)
  cases hnone

/-- The filters let in a payload that does not decode, on which the orderer panics when it starts,
and a configuration whose data do not decode, with which it starts. -/
theorem not_retrieves_admitted :
    (∃ fl, FileLedger.afterRun exampleMarshal exampleBlockFile exampleStart.block exampleSoloCutter
        () [.message ⟨some [0], []⟩] = some fl ∧
      retrieveConfiguration exampleCodec (fl.reader exampleBlockFile) 3 =
        some (.error .notPayload)) ∧
    ∃ fl, FileLedger.afterRun exampleMarshal exampleBlockFile exampleStart.block exampleSoloCutter
        () [.message ⟨some [1], []⟩] = some fl ∧
      retrieveConfiguration exampleCodec (fl.reader exampleBlockFile) 3 = some (.ok (some ⟨[]⟩)) ∧
      exampleStart.block.configuration? exampleCodec = some ⟨[⟨[7], []⟩]⟩ := by
  constructor
  · apply Option.map_eq_some_iff.mp
    decide +kernel
  · have hrun : (FileLedger.afterRun exampleMarshal exampleBlockFile exampleStart.block
        exampleSoloCutter () [.message ⟨some [1], []⟩]).map
          (fun fl => retrieveConfiguration exampleCodec (fl.reader exampleBlockFile) 3) =
        some (some (.ok (some ⟨[]⟩))) := by decide +kernel
    obtain ⟨fl, hafter, hretrieve⟩ := Option.map_eq_some_iff.mp hrun
    exact ⟨fl, hafter, hretrieve, by decide⟩

end Fabric.Orderer
