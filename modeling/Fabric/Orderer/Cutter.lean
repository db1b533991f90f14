import Fabric.ConfigTx.Manager

/-!
# The block cutter

Messages are classified by a list of rules, of which the first that does not forward the
message decides. Accepted messages are collected until a batch is full; a reconfiguration that
the configuration manager validates ends the batch and makes one of its own.

The rules and the manager may stop the process, or keep a state that the cutter passes on.
-/

namespace Fabric.Orderer

open Fabric.Common Fabric.ConfigTx Option

/-! ### Messages -/

structure Envelope where
  payload : Option Bytes
  signature : Bytes
deriving DecidableEq

structure ChainHeader where
  type : Int32
  chainID : Bytes
deriving DecidableEq

structure Header where
  chainHeader : Option ChainHeader
deriving DecidableEq

structure Payload where
  header : Option Header
  data : Bytes
deriving DecidableEq

/-- `HeaderType_CONFIGURATION_TRANSACTION` -/
def configurationTransaction : Int32 := 1

/-- `proto.Unmarshal` for the parts of an envelope. -/
structure Unmarshal where
  payload : Bytes → Option Payload
  configurationEnvelope : Bytes → Option ConfigurationEnvelope

/-! ### Filters -/

inductive Action
  | accept
  | reconfigure
  | reject
  | forward
deriving DecidableEq

/-- A rule classifies a message; it may have state, and may stop the process. -/
abbrev Rule (S : Type) := Envelope → S → Option (Action × S)

variable {S : Type}

def emptyRejectRule : Rule S := fun message s =>
  if message.payload = none then some (.reject, s) else some (.forward, s)

def acceptRule : Rule S := fun _ s => some (.accept, s)

/-- The first rule that does not forward the message decides. -/
def RuleSet.apply : List (Rule S) → Rule S
  | [], _, s => some (.forward, s)
  | rule :: rules, message, s => do
    let (action, s) ← rule message s
    match action with
    | .forward => RuleSet.apply rules message s
    | action => some (action, s)

/-! ### Batches -/

/-- What a receiver is made with. -/
structure Cutter (S : Type) where
  unmarshal : Unmarshal
  batchSize : ℕ
  filters : List (Rule S)
  validate : ConfigurationEnvelope → S → Option (Option ConfigError × S)

/-- The batch that is being collected, and the state of the filters and the manager. -/
structure Receiver (S : Type) where
  curBatch : List Envelope
  env : S
deriving DecidableEq

/-- The batches that the message completes, and whether it is included. -/
def ordered (c : Cutter S) (r : Receiver S) (msg : Envelope) :
    Option ((List (List Envelope) × Bool) × Receiver S) := do
  let (action, env) ← RuleSet.apply c.filters msg r.env
  match action with
  | .accept =>
    let curBatch := r.curBatch ++ [msg]
    if curBatch.length < c.batchSize then some (([], true), ⟨curBatch, env⟩)
    else some (([curBatch], true), ⟨[], env⟩)
  | .reconfigure =>
    match c.unmarshal.payload (msg.payload.getD []) with
    | none => some (([], false), ⟨r.curBatch, env⟩)
    | some payload =>
      match c.unmarshal.configurationEnvelope payload.data with
      | none => some (([], false), ⟨r.curBatch, env⟩)
      | some newConfig =>
        let (err, env) ← c.validate newConfig env
        match err with
        | some _ => some (([], false), ⟨r.curBatch, env⟩)
        | none =>
          -- a batch that nothing was added to is nil
          if r.curBatch = [] then some (([[msg]], true), ⟨[], env⟩)
          else some (([r.curBatch, [msg]], true), ⟨[], env⟩)
  | .reject => some (([], false), ⟨r.curBatch, env⟩)
  | .forward => some (([], false), ⟨r.curBatch, env⟩)

def cut (r : Receiver S) : List Envelope × Receiver S := (r.curBatch, ⟨[], r.env⟩)

/-- The batches a message completes, whether it is included, and the batch that is left. -/
inductive Cuts (batchSize : ℕ) (curBatch : List Envelope) (msg : Envelope) :
    Action → List (List Envelope) → Bool → List Envelope → Prop
  | drop (action : Action) : Cuts batchSize curBatch msg action [] false curBatch
  | collect (h : (curBatch ++ [msg]).length < batchSize) :
    Cuts batchSize curBatch msg .accept [] true (curBatch ++ [msg])
  | fill (h : ¬ (curBatch ++ [msg]).length < batchSize) :
    Cuts batchSize curBatch msg .accept [curBatch ++ [msg]] true []
  | reconfigure (h : curBatch = []) : Cuts batchSize curBatch msg .reconfigure [[msg]] true []
  | reconfigureAfter (h : curBatch ≠ []) :
    Cuts batchSize curBatch msg .reconfigure [curBatch, [msg]] true []

/-- The configuration that a message carries. -/
def configurationOf (U : Unmarshal) (msg : Envelope) : Option ConfigurationEnvelope := do
  let payload ← U.payload (msg.payload.getD [])
  U.configurationEnvelope payload.data

/-- How the manager is asked about a message: not at all, or to validate its configuration. -/
inductive Consults (c : Cutter S) (msg : Envelope) (env : S) : Action → Bool → S → Prop
  | pass {action : Action} {ok : Bool} (h : action = .reconfigure → ok = false) :
    Consults c msg env action ok env
  | validate {config : ConfigurationEnvelope} {err : Option ConfigError} {env' : S} {ok : Bool}
    (hconfig : configurationOf c.unmarshal msg = some config)
    (hvalidate : c.validate config env = some (err, env')) (hok : ok = true ↔ err = none) :
    Consults c msg env .reconfigure ok env'

variable {c : Cutter S} {r r' : Receiver S} {msg : Envelope} {batches : List (List Envelope)}
  {ok : Bool}

theorem ordered_cuts (h : ordered c r msg = some ((batches, ok), r')) :
    ∃ action env, RuleSet.apply c.filters msg r.env = some (action, env) ∧
      Cuts c.batchSize r.curBatch msg action batches ok r'.curBatch ∧
      Consults c msg env action ok r'.env := by
  obtain ⟨⟨action, env⟩, happly, h⟩ := bind_eq_some_iff.mp h
  refine ⟨action, env, happly, ?_⟩
  cases action with
  | accept =>
    dsimp only at h
    split_ifs at h with hlen
    · cases h
      exact ⟨.collect hlen, .pass (by simp)⟩
    · cases h
      exact ⟨.fill hlen, .pass (by simp)⟩
  | reconfigure =>
    dsimp only at h
    split at h
    · cases h
      exact ⟨.drop _, .pass fun _ => rfl⟩
    rename_i payload hpayload
    split at h
    · cases h
      exact ⟨.drop _, .pass fun _ => rfl⟩
    rename_i newConfig hnewConfig
    have hconfig : configurationOf c.unmarshal msg = some newConfig := by
      simp [configurationOf, hpayload, hnewConfig]
    obtain ⟨⟨err, env'⟩, hvalidate, h⟩ := bind_eq_some_iff.mp h
    cases err with
    | some =>
      cases h
      exact ⟨.drop _, .validate hconfig hvalidate (by simp)⟩
    | none =>
      split_ifs at h with hcur
      · cases h
        exact ⟨.reconfigure hcur, .validate hconfig hvalidate (by simp)⟩
      · cases h
        exact ⟨.reconfigureAfter hcur, .validate hconfig hvalidate (by simp)⟩
  | reject | forward =>
    cases h
    exact ⟨.drop _, .pass (by simp)⟩

end Fabric.Orderer
