import Mathlib.Data.List.Permutation
import Mathlib.Tactic.FinCases
import Fabric.ConfigTx.Crash

/-!
# Validations at the same time

The streams of the broadcast service and the consenter validate envelopes with one manager. A
call of `Validate` begins a proposal in every handler and abandons it in the end, and nothing
keeps two calls apart. The calls take turns, one call of a handler at a time.
-/

namespace Fabric.ConfigTx

open Fabric.Common List ConfigurationType

/-! ### The steps of a call -/

def beginConfig : ConfigurationType → ConfigM Unit
  | .policy => do
    let policy ← orStop .panic (← get).handlers.policy.beginConfig
    modifyHandlers fun h => { h with policy }
  | .chain => do
    let chain ← orStop .panic (← get).handlers.chain.beginConfig
    modifyHandlers fun h => { h with chain }
  | .orderer => do
    let orderer ← orStop .panic (← get).handlers.orderer.beginConfig
    modifyHandlers fun h => { h with orderer }
  | .fabric => do
    let fabric ← orStop .panic (← get).handlers.fabric.beginConfig
    modifyHandlers fun h => { h with fabric }
  | .unknown _ => throw (.panic .nilPointer)

def rollbackConfig : ConfigurationType → ConfigM Unit
  | .policy => modifyHandlers fun h => { h with policy := h.policy.rollbackConfig }
  | .chain => modifyHandlers fun h => { h with chain := h.chain.rollbackConfig }
  | .orderer => modifyHandlers fun h => { h with orderer := h.orderer.rollbackConfig }
  | .fabric => modifyHandlers fun h => { h with fabric := h.fabric.rollbackConfig }
  | .unknown _ => throw (.panic .nilPointer)

/-- Where a call of `Validate` stands: the handlers or the items that it still comes to. -/
inductive Stage
  | begins (types : List ConfigurationType)
  | items (seq : UInt64) (configMap : ConfigMap) (entries : List SignedConfigurationItem)
  | rollsBack (types : List ConfigurationType) (err : Option ConfigError)
  | returned (err : Option ConfigError)

/-- A call of `Validate`, with the choices of its orders of enumeration. -/
structure Validation where
  configtx : ConfigurationEnvelope
  beginChoices : List ℕ
  choices : List ℕ
  rollbackChoices : List ℕ

theorem outcome_bind_congr {α : Type} {x y : ConfigM α} {f : α → ConfigM Unit}
    {s s' : ConfigurationManager} (h : x.run s = y.run s') :
    outcome (x >>= f) s = outcome (y >>= f) s' := by
  simp only [outcome, EStateM.run, bind, EStateM.bind] at h ⊢
  rw [h]

namespace Validation

variable (P : Protobuf) (ch : CryptoHelper) (v : Validation)

/-- An error in the envelope makes the call abandon its proposal. -/
def orRefuse (x : ConfigM Stage) : ConfigM Stage :=
  tryCatch x fun
    | .error e => pure (.rollsBack (reorder v.rollbackChoices names) (some e))
    | .panic p => throw (.panic p)

/-- The checks of `processConfig` before its items. -/
def checkEnvelope : ConfigM UInt64 := do
  let (chainID, seq) ← orStop .error (computeChainIDAndSequence P v.configtx)
  let cm ← get
  if seq ≠ cm.sequence + 1 then throw (.error (.sequenceJumped cm.sequence seq))
  else if chainID.getD [] ≠ cm.chainID then
    throw (.error (.wrongChain cm.chainID (chainID.getD [])))
  else pure seq

/-- The check of `processConfig` after its items. -/
def checkMissing (configMap : ConfigMap) : ConfigM ConfigMap := do
  match reorder v.choices (missingKeys (← get).configuration configMap) with
  | [] => pure configMap
  | (ctype, id) :: _ => throw (.error (.missingKey id ctype))

/-- One step of a call, with at most one call of a handler. -/
def advance : Stage → ConfigM Stage
  | .begins (type :: types) => do
    beginConfig type
    pure (.begins types)
  | .begins [] => v.orRefuse do
    let seq ← v.checkEnvelope P
    pure (.items seq makeConfigMap v.configtx.items)
  | .items seq configMap (entry :: entries) => v.orRefuse do
    let configMap ← processItem P ch seq configMap entry
    pure (.items seq configMap entries)
  | .items _ configMap [] => v.orRefuse do
    let _ ← v.checkMissing configMap
    pure (.rollsBack (reorder v.rollbackChoices names) none)
  | .rollsBack (type :: types) err => do
    rollbackConfig type
    pure (.rollsBack types err)
  | .rollsBack [] err => pure (.returned err)
  | .returned err => pure (.returned err)

/-- How a call returns. -/
def returns : Option ConfigError → ConfigM Unit
  | none => pure ()
  | some e => throw (.error e)

/-- A proposal is built, and abandoned. -/
def thenRollback (x : ConfigM ConfigMap) : ConfigM Unit := do
  let _ ← orRollback x
  rollbackHandlers

/-- What is left of the call. -/
def rest : Stage → ConfigM Unit
  | .begins types => do
    types.forM beginConfig
    thenRollback (processConfig P ch v.choices v.configtx)
  | .items seq configMap entries =>
    thenRollback (entries.foldlM (processItem P ch seq) configMap >>= v.checkMissing)
  | .rollsBack types err => do
    types.forM rollbackConfig
    returns err
  | .returned err => returns err

variable {P ch v} {cm : ConfigurationManager} {stage : Stage}

theorem processConfig_eq : processConfig P ch v.choices v.configtx =
    (do let seq ← v.checkEnvelope P
        v.configtx.items.foldlM (processItem P ch seq) makeConfigMap >>= v.checkMissing) := by
  simp only [processConfig, processItems, checkEnvelope, bind_assoc]
  congr 1
  funext found
  congr 1
  funext cm
  split_ifs <;> rfl

section Orders

variable {types : List ConfigurationType}

/-- The handlers are called in any order. -/
theorem forM_beginConfig (h : cm.Idle) (htypes : types.Perm names) :
    (types.forM beginConfig).run cm = .ok () cm.begun := by
  obtain ⟨sequence, chainID, configuration, ⟨c₁, p₁⟩, ⟨c₂, p₂⟩, ⟨c₃, p₃⟩, ⟨c₄, p₄⟩⟩ := cm
  obtain ⟨rfl, rfl, rfl, rfl⟩ := ConfigurationManager.idle_iff.mp h
  have hmem := mem_permutations'.mpr htypes
  fin_cases hmem <;> rfl

theorem forM_rollbackConfig (htypes : types.Perm names) :
    types.forM rollbackConfig = rollbackHandlers := by
  have hmem := mem_permutations'.mpr htypes
  fin_cases hmem <;> rfl

end Orders

theorem thenRollback_bind {α : Type} {x : ConfigM α} {f : α → ConfigM ConfigMap} {next : α → Stage}
    (hnext : ∀ a, v.rest P ch (next a) = thenRollback (f a)) :
    thenRollback (x >>= f) = v.orRefuse (x >>= fun a => pure (next a)) >>= v.rest P ch := by
  funext cm
  simp only [thenRollback, orRollback, orRefuse, bind, EStateM.bind, tryCatch, tryCatchThe,
    MonadExceptOf.tryCatch, EStateM.tryCatch]
  cases x cm with
  | ok a cm' => exact (congrFun (hnext a) cm').symm
  | error e cm' =>
    cases e with
    | error =>
      change _ = ((reorder v.rollbackChoices names).forM rollbackConfig >>= _) cm'
      rw [forM_rollbackConfig (reorder_perm _ _)]
      rfl
    | panic => rfl

/-- What is left of a call is its next step and what is left then. -/
theorem rest_eq : v.rest P ch stage = v.advance P ch stage >>= v.rest P ch := by
  cases stage with
  | begins types =>
    cases types with
    | nil =>
      change thenRollback (processConfig P ch v.choices v.configtx) = _
      rw [processConfig_eq]
      exact thenRollback_bind fun _ => rfl
    | cons => simp [rest, advance]
  | items seq configMap entries =>
    cases entries with
    | nil =>
      have hbind : thenRollback (v.checkMissing configMap >>= pure) =
          v.advance P ch (.items seq configMap []) >>= v.rest P ch := by
        refine thenRollback_bind fun _ => ?_
        rw [rest, forM_rollbackConfig (reorder_perm _ _)]
        rfl
      rwa [bind_pure] at hbind
    | cons =>
      simp only [rest, foldlM_cons, bind_assoc]
      exact thenRollback_bind fun _ => rfl
  | rollsBack types =>
    cases types with
    | nil => rfl
    | cons => simp [rest, advance]
  | returned => rfl

@[simp] theorem outcome_returned (err : Option ConfigError) :
    outcome (v.rest P ch (.returned err)) cm = some (err, cm) := by
  cases err <;> rfl

theorem outcome_begins (h : cm.Idle) (choices : List ℕ) :
    outcome (v.rest P ch (.begins (reorder choices names))) cm =
      outcome (validate P ch v.choices v.configtx) cm := by
  obtain ⟨_, _, hbegin, rfl⟩ := (beginHandlers_ends h).exists_run_eq_ok
  have hbegins := forM_beginConfig h (reorder_perm choices names)
  exact outcome_bind_congr (hbegins.trans hbegin.symm)

end Validation

/-! ### Calls that take turns -/

/-- A manager and the calls of `Validate`, which have no stage until they begin. -/
structure Validations where
  cm : ConfigurationManager
  calls : List (Validation × Option Stage)
  panicked : Bool

namespace Validations

/-- The call has not begun, or has returned. -/
def rests : Option Stage → Bool
  | none | some (.returned _) => true
  | _ => false

/-- No call has begun. -/
def start (cm : ConfigurationManager) (calls : List Validation) : Validations :=
  ⟨cm, calls.map (·, none), false⟩

variable (P : Protobuf) (ch : CryptoHelper)

/-- The call `i` goes on. -/
def step (s : Validations) (i : ℕ) : Option Validations :=
  match s.calls[i]? with
  | none | some (_, some (.returned _)) => none
  | some (v, none) =>
    some { s with calls := s.calls.set i (v, some (.begins (reorder v.beginChoices names))) }
  | some (v, some stage) =>
    match (v.advance P ch stage).run s.cm with
    | .ok stage' cm => some { s with cm, calls := s.calls.set i (v, some stage') }
    | .error (.error e) cm =>
      some { s with cm, calls := s.calls.set i (v, some (.returned (some e))) }
    | .error (.panic _) cm => some { s with cm, panicked := true }

/-- A call begins only when no other call is under way. -/
def separate (s : Validations) (i : ℕ) : Bool :=
  s.calls[i]?.all (·.2.isSome) || s.calls.all (rests ·.2)

/-- At most one call is under way, and what is left of it leads to the outcome of the call. -/
structure Serial (cm : ConfigurationManager) (s : Validations) : Prop where
  running : s.panicked = false
  calm : ∀ call ∈ s.calls, ¬ Panics P ch cm call.1.configtx
  returned : ∀ v err, (v, some (.returned err)) ∈ s.calls →
    outcome (validate P ch v.choices v.configtx) cm = some (err, cm)
  alone : (s.cm = cm ∧ ∀ call ∈ s.calls, rests call.2) ∨
    ∃ (i : ℕ) (v : Validation) (stage : Stage), s.calls[i]? = some (v, some stage) ∧
      rests (some stage) = false ∧
      outcome (v.rest P ch stage) s.cm = outcome (validate P ch v.choices v.configtx) cm ∧
      ∀ j call, j ≠ i → s.calls[j]? = some call → rests call.2

variable {P ch} {cm cm' : ConfigurationManager} {s s' : Validations} {i : ℕ} {v : Validation}
  {o : Option Stage} {stage : Stage}

theorem Serial.exists_outcome (h : s.Serial P ch cm) (hidle : cm.Idle)
    (hi : s.calls[i]? = some (v, o)) :
    ∃ err, outcome (validate P ch v.choices v.configtx) cm = some (err, cm) := by
  have hvalidate : ∃ err, outcome (validate P ch v.choices v.configtx) cm = some (err, cm) ∧ _ :=
    outcome_validate hidle (h.calm _ (mem_of_getElem? hi))
  exact hvalidate.imp fun _ => And.left

theorem Serial.set (h : s.Serial P ch cm) (hidle : cm.Idle) (hi : s.calls[i]? = some (v, o))
    (hothers : ∀ j call, j ≠ i → s.calls[j]? = some call → rests call.2)
    (hrest : outcome (v.rest P ch stage) cm' = outcome (validate P ch v.choices v.configtx) cm) :
    Serial P ch cm { s with cm := cm', calls := s.calls.set i (v, some stage) } := by
  obtain ⟨err, houtcome⟩ := h.exists_outcome hidle hi
  refine ⟨h.running, ?_, ?_, ?_⟩
  · intro call hcall
    rcases mem_or_eq_of_mem_set hcall with hcall | rfl
    · exact h.calm call hcall
    · exact h.calm (v, o) (mem_of_getElem? hi)
  · intro w err' hcall
    rcases mem_or_eq_of_mem_set hcall with hcall | hcall
    · exact h.returned w err' hcall
    · cases hcall
      rw [Validation.outcome_returned, houtcome] at hrest
      cases hrest
      exact houtcome
  · have hset : ∀ j call, j ≠ i → (s.calls.set i (v, some stage))[j]? = some call →
        rests call.2 := by
      intro j call hj hcall
      rw [getElem?_set_ne hj.symm] at hcall
      exact hothers j call hj hcall
    have hself : (s.calls.set i (v, some stage))[i]? = some (v, some stage) :=
      getElem?_set_self (List.getElem?_eq_some_iff.mp hi).1
    cases hstage : rests (some stage) with
    | true =>
      cases stage <;> cases hstage
      rw [Validation.outcome_returned, houtcome] at hrest
      cases hrest
      refine .inl ⟨rfl, fun call hcall => ?_⟩
      obtain ⟨j, hj⟩ := mem_iff_getElem?.mp hcall
      by_cases hji : j = i
      · rw [hji, hself] at hj
        cases hj
        rfl
      · exact hset j call hji hj
    | false => exact .inr ⟨i, v, stage, hself, hstage, hrest, hset⟩

theorem Serial.step (h : s.Serial P ch cm) (hidle : cm.Idle) (hseparate : s.separate i)
    (hstep : s.step P ch i = some s') : s'.Serial P ch cm := by
  unfold Validations.step at hstep
  split at hstep
  · cases hstep
  · cases hstep
  · -- a call begins, so that all calls rest
    rename_i v hi
    have hrests : ∀ call ∈ s.calls, rests call.2 := by simpa [separate, hi] using hseparate
    cases hstep
    refine h.set hidle hi (fun j call _ hj => hrests call (mem_of_getElem? hj)) ?_
    rcases h.alone with ⟨hcm, -⟩ | ⟨k, w, stage, hk, hstage, -⟩
    · rw [hcm]
      exact Validation.outcome_begins hidle v.beginChoices
    · simp [hrests _ (mem_of_getElem? hk)] at hstage
  · rename_i v stage hreturned hi
    have hstage : rests (some stage) = false := by
      cases stage <;> first | rfl | exact (hreturned _ rfl).elim
    -- the call that goes on is the one that is under way
    rcases h.alone with ⟨-, hrests⟩ | ⟨k, w, stage', hk, -, hrest, hothers⟩
    · simp [hrests _ (mem_of_getElem? hi)] at hstage
    obtain rfl : i = k := by
      by_contra hne
      simp [hothers i _ hne hi] at hstage
    cases hi.symm.trans hk
    rw [Validation.rest_eq] at hrest
    split at hstep <;> rename_i hadvance <;> cases hstep
    · refine h.set hidle hi hothers ?_
      rw [← hrest]
      exact (outcome_bind_congr (f := v.rest P ch) hadvance).symm
    · refine h.set hidle hi hothers ?_
      rw [← hrest]
      exact (outcome_bind_congr hadvance).symm
    · obtain ⟨err, houtcome⟩ := h.exists_outcome hidle hi
      have hpanic := outcome_bind_congr (f := v.rest P ch) hadvance
      rw [hrest, houtcome] at hpanic
      cases hpanic

/-- No call panics, and each returns what it returns alone, if no call begins while another one is
under way and no envelope has an item that crashes. -/
theorem serial_run {calls : List Validation} {turns : List ℕ} (hreached : Reached P ch cm)
    (hcalm : ∀ v ∈ calls, ¬ Crashing P ch cm v.configtx)
    (halong : Along (step P ch) (fun s i => s.separate i) (start cm calls) turns)
    (hrun : runSteps (step P ch) (start cm calls) turns = some s) :
    s.panicked = false ∧ ∀ v err, (v, some (.returned err)) ∈ s.calls →
      outcome (validate P ch v.choices v.configtx) cm = some (err, cm) := by
  have hidle := hreached.accepted.mirrored.idle
  have hstart : (start cm calls).Serial P ch cm := by
    refine ⟨rfl, ?_, by simp [start], .inl ⟨rfl, by simp [start, rests]⟩⟩
    simpa [start, panics_iff_crashing hidle] using hcalm
  have hserial := runSteps_invariant hstart
    (fun s i s' hseparate h hstep => h.step hidle hseparate hstep) halong hrun
  exact ⟨hserial.running, hserial.returned⟩

/-- The call has returned without an error. -/
def accepted : Option Stage → Bool
  | some (.returned none) => true
  | _ => false

theorem eq_of_accepted (h : accepted o = true) : o = some (.returned none) := by
  unfold accepted at h
  split at h
  · rfl
  · cases h

/-- One of two calls begins when the other one has returned, and both accept the envelope. -/
theorem serial_run_twice : ∃ cm,
    managerAfter byteFormat (fun _ _ _ => true) [] (twoItems 0) [] = some cm ∧
      ∃ s, runSteps (step byteFormat fun _ _ _ => true)
        (start cm (replicate 2 ⟨twoItems 1, [], [], []⟩)) (replicate 14 0 ++ replicate 14 1) =
          some s ∧
      s.panicked = false ∧ ∀ call ∈ s.calls, call.2 = some (.returned none) ∧
        outcome (validate byteFormat (fun _ _ _ => true) call.1.choices call.1.configtx) cm =
          some (none, cm) := by
  refine exists_of_checked (fun cm => ∃ s, runSteps (step byteFormat fun _ _ _ => true)
      (start cm (replicate 2 ⟨twoItems 1, [], [], []⟩)) (replicate 14 0 ++ replicate 14 1) =
        some s ∧ (∀ call ∈ s.calls, accepted call.2) ∧
    Along (step byteFormat fun _ _ _ => true) (fun s i => s.separate i)
      (start cm (replicate 2 ⟨twoItems 1, [], [], []⟩)) (replicate 14 0 ++ replicate 14 1))
    (by decide +kernel) ?_
  rintro cm hcm ⟨s, hrun, hall, halong⟩
  have hserial := serial_run ⟨[], twoItems 0, [], hcm⟩ (by simp [not_crashing_twoItems]) halong hrun
  refine ⟨s, hrun, hserial.1, ?_⟩
  rintro ⟨v, o⟩ hcall
  obtain rfl := eq_of_accepted (hall _ hcall)
  exact ⟨rfl, hserial.2 v none hcall⟩

/-- A second call begins while the first one is under way, and the policy manager panics. -/
theorem panicked_overlap : ∃ cm,
    managerAfter byteFormat (fun _ _ _ => true) [] (twoItems 0) [] = some cm ∧
      (runSteps (step byteFormat fun _ _ _ => true)
        (start cm (replicate 2 ⟨twoItems 1, [], [], []⟩))
        [0, 0, 1, 1]).map panicked = some true :=
  by decide +kernel

end Validations

end Fabric.ConfigTx
