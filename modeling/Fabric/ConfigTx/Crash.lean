import Fabric.ConfigTx.Signatures

/-!
# Envelopes that stop the process

An item that passes its checks is proposed to the handler of its type. There is none for a type
without a name, and the policy compiler does not expect a signature policy envelope without a
policy. The process stops on both, and on nothing else.
-/

namespace Fabric.ConfigTx

open Fabric.Common

variable {P : Protobuf} {ch : CryptoHelper} {cm s : ConfigurationManager}
  {configtx : ConfigurationEnvelope} {config : ConfigurationItem} {entry : SignedConfigurationItem}
  {seq : UInt64} {choices : List ℕ}

/-! ### What becomes of an item -/

/-- The process stops when the item is proposed. -/
def ConfigurationItem.Crashes (P : Protobuf) (config : ConfigurationItem) : Prop :=
  (∃ n, config.type = .unknown n) ∨ config.type = .policy ∧
    ∃ identities, P.policy config.value = some ⟨some (some ⟨0, none, identities⟩)⟩

/-- What the handler of the type stops with, unless it takes the item. -/
def proposalStop (P : Protobuf) (config : ConfigurationItem) : Option Stop :=
  match config.type with
  | .policy => match policyOf P config with
    | .ok _ => none
    | .error e => some e
  | .unknown _ => some (.panic .nilPointer)
  | _ => none

theorem newSignaturePolicyEvaluator_eq_panic_iff {policy : SignaturePolicyEnvelope} :
    (∃ p, newSignaturePolicyEvaluator policy = .error (.panic p)) ↔
      policy.version = 0 ∧ policy.policy = none := by
  unfold newSignaturePolicyEvaluator
  split_ifs with hversion
  · simp [hversion]
  · rw [not_not] at hversion
    split
    · rename_i hnone
      simp [hversion, hnone]
    · -- a policy that is there compiles or is refused
      rename_i tree hsome
      split <;> simp [hsome]

theorem policyOf_eq_panic_iff : (∃ p, policyOf P config = .error (.panic p)) ↔
    ∃ identities, P.policy config.value = some ⟨some (some ⟨0, none, identities⟩)⟩ := by
  unfold policyOf
  cases hpolicy : P.policy config.value with
  | none => simp
  | some policy =>
    obtain ⟨type⟩ := policy
    rcases type with _ | _ | ⟨version, tree, identities⟩
    · simp [newPolicy]
    · simp [newPolicy]
    · have hnew : (∃ p, newSignaturePolicyEvaluator ⟨version, tree, identities⟩ =
          .error (.panic p)) ↔ version = 0 ∧ tree = none :=
        newSignaturePolicyEvaluator_eq_panic_iff
      have hsource : (∃ identities', some (⟨some (some ⟨version, tree, identities⟩)⟩ : Policy) =
          some ⟨some (some ⟨0, none, identities'⟩)⟩) ↔ version = 0 ∧ tree = none := by
        simp
      rw [hsource, ← hnew]
      dsimp only [newPolicy]
      cases newSignaturePolicyEvaluator ⟨version, tree, identities⟩ with
      | ok => simp
      | error e => cases e <;> simp

theorem proposalStop_eq_panic_iff :
    (∃ p, proposalStop P config = some (.panic p)) ↔ config.Crashes P := by
  unfold proposalStop ConfigurationItem.Crashes
  cases htype : config.type with
  | policy =>
    rw [← policyOf_eq_panic_iff]
    cases policyOf P config <;> simp
  | chain | orderer | fabric => simp
  | unknown => simp

/-- What the processing of an envelope stops with at an item, unless the item is taken. -/
def itemStop (P : Protobuf) (ch : CryptoHelper) (cm : ConfigurationManager) (seq : UInt64)
    (entry : SignedConfigurationItem) : Option Stop :=
  match checkItem P ch cm seq entry with
  | .error e => some e
  | .ok config => proposalStop P config

theorem checkItem_ne_panic (p : Panic) : checkItem P ch cm seq entry ≠ .error (.panic p) := by
  unfold checkItem
  cases P.configurationItem entry.configurationItem with
  | none => simp
  | some config =>
    cases hargs : signatureArguments P entry.signatures with
    | error => simp
    | ok args =>
      have hlen := (signatureArguments_eq_ok hargs).1
      have hevaluate : ∀ p, (cm.itemPolicy config).evaluate ch args.headers
          entry.configurationItem args.identities args.signatures ≠ .error (.panic p) := by
        intro p
        cases hpolicy : cm.itemPolicy config with
        | acceptAll => simp [ItemPolicy.evaluate]
        | signature policy =>
          cases policy with
          | none => simp [ItemPolicy.evaluate, evaluate]
          | some policy =>
            have hauth : policy.evaluator.authenticate ch entry.configurationItem args.identities
              args.signatures [] = _ := policy.evaluator.authenticate_eq hlen []
            simp only [ItemPolicy.evaluate, evaluate]
            split <;> simp_all
      dsimp only
      split
      · rename_i p' hpanic
        exact absurd hpanic (hevaluate p')
      · simp
      · split <;> simp

theorem itemStop_eq_panic_iff : (∃ p, itemStop P ch cm seq entry = some (.panic p)) ↔
    ∃ config, checkItem P ch cm seq entry = .ok config ∧ config.Crashes P := by
  unfold itemStop
  cases hcheck : checkItem P ch cm seq entry with
  | error e =>
    have hne : ∀ p, e ≠ .panic p := by
      rintro p rfl
      exact checkItem_ne_panic p hcheck
    simpa using hne
  | ok => simpa using proposalStop_eq_panic_iff

/-! ### What becomes of an envelope -/

section Items

variable {items : List ConfigurationItem} {configMap : ConfigMap}

theorem proposeConfig_verdict (h : Proposed P cm items configMap s) :
    Ends (proposeConfig P config) s (fun _ _ => proposalStop P config = none)
      (fun e _ => proposalStop P config = some e) := by
  unfold proposalStop
  cases ht : config.type with
  | policy =>
    cases hp : policyOf P config with
    | error => simp [proposeConfig, ht, hp]
    | ok p =>
      obtain ⟨policy, hpropose, -, -⟩ :=
        h.policy.propose (v := p) (by simp [hp, Except.toOption]) ht .nilMap
      simp [proposeConfig, ht, hp, hpropose]
  | chain =>
    obtain ⟨chain, hpropose, -, -⟩ := h.chain.propose rfl ht .nilMap
    simp [proposeConfig, BytesHandler.proposeConfig, ht, hpropose]
  | orderer =>
    obtain ⟨orderer, hpropose, -, -⟩ := h.orderer.propose rfl ht .nilMap
    simp [proposeConfig, BytesHandler.proposeConfig, ht, hpropose]
  | fabric =>
    obtain ⟨fabric, hpropose, -, -⟩ := h.fabric.propose rfl ht .nilMap
    simp [proposeConfig, BytesHandler.proposeConfig, ht, hpropose]
  | unknown => simp [proposeConfig, ht]

theorem processItem_verdict (h : Proposed P cm items configMap s) :
    Ends (processItem P ch seq configMap entry) s
      (fun _ _ => itemStop P ch cm seq entry = none)
      (fun e _ => itemStop P ch cm seq entry = some e) := by
  unfold processItem itemStop
  simp only [ends_bind]
  refine Ends.orStop (fun config hcheck => ?_) fun e hcheck => ?_
  · rw [← checkItem_rolledBack, h.rolledBack] at hcheck
    rw [hcheck]
    exact proposeConfig_verdict h
  · rw [← checkItem_rolledBack, h.rolledBack] at hcheck
    rw [hcheck]
    rfl

theorem foldlM_processItem_verdict {entries : List SignedConfigurationItem}
    (h : Proposed P cm items configMap s) :
    Ends (entries.foldlM (processItem P ch seq) configMap) s
      (fun _ _ => entries.findSome? (itemStop P ch cm seq) = none)
      (fun e _ => entries.findSome? (itemStop P ch cm seq) = some e) := by
  induction entries generalizing items configMap s with
  | nil => exact List.findSome?_nil
  | cons entry _ ih =>
    rw [List.foldlM_cons, ends_bind]
    refine ((processItem_verdict h).and (processItem_ends h seq entry)).mono ?_ ?_
    · rintro configMap' s' ⟨hnone, config, -, hs'⟩
      simp only [List.findSome?_cons, hnone]
      exact ih hs'
    · rintro e s' ⟨hsome, -⟩
      simp only [List.findSome?_cons, hsome]

end Items

/-- The envelope is the next one for the chain, and comes to an item that passes its checks and
crashes. -/
structure Crashing (P : Protobuf) (ch : CryptoHelper) (cm : ConfigurationManager)
    (configtx : ConfigurationEnvelope) : Prop where
  compute : ∃ chainID, computeChainIDAndSequence P configtx = .ok (chainID, cm.sequence + 1) ∧
    chainID.getD [] = cm.chainID
  crash : ∃ done entry rest config, configtx.items = done ++ entry :: rest ∧
    (∀ entry' ∈ done, itemStop P ch cm (cm.sequence + 1) entry' = none) ∧
    checkItem P ch cm (cm.sequence + 1) entry = .ok config ∧ config.Crashes P

theorem crashing_iff (hstart : ∃ chainID, computeChainIDAndSequence P configtx =
      .ok (chainID, cm.sequence + 1) ∧ chainID.getD [] = cm.chainID) :
    Crashing P ch cm configtx ↔
      ∃ p, configtx.items.findSome? (itemStop P ch cm (cm.sequence + 1)) = some (.panic p) := by
  constructor
  · rintro ⟨-, done, entry, rest, config, hitems, hdone, hcheck⟩
    obtain ⟨p, hp⟩ := itemStop_eq_panic_iff.mpr ⟨config, hcheck⟩
    exact ⟨p, List.findSome?_eq_some_iff.mpr ⟨done, entry, rest, hitems, hp, hdone⟩⟩
  · rintro ⟨p, hsome⟩
    obtain ⟨done, entry, rest, hitems, hp, hdone⟩ := List.findSome?_eq_some_iff.mp hsome
    obtain ⟨config, hcheck⟩ := itemStop_eq_panic_iff.mp ⟨p, hp⟩
    exact ⟨hstart, done, entry, rest, config, hitems, hdone, hcheck⟩

theorem panics_iff_crashing (h : cm.Idle) :
    Panics P ch cm configtx ↔ Crashing P ch cm configtx := by
  have hends : Ends (processItems P ch configtx) cm.begun
      (fun _ _ => ¬ Crashing P ch cm configtx)
      (fun e _ => (∃ p, e = .panic p) ↔ Crashing P ch cm configtx) := by
    unfold processItems
    simp only [ends_bind, ends_ite]
    refine Ends.orStop ?_ fun e hcompute => ?_
    · rintro ⟨chainID, seq⟩ hcompute
      refine ⟨fun hseq => ?_, fun hseq => ⟨fun hchain => ?_, fun hchain => ?_⟩⟩
      · -- an envelope with another sequence number is refused before its items
        refine ⟨by simp, ?_⟩
        rintro ⟨⟨chainID', hcompute', -⟩, -⟩
        rw [hcompute] at hcompute'
        cases hcompute'
        exact absurd rfl hseq
      · refine ⟨by simp, ?_⟩
        rintro ⟨⟨chainID', hcompute', hchain'⟩, -⟩
        rw [hcompute] at hcompute'
        cases hcompute'
        exact absurd hchain' hchain
      · obtain rfl : seq = cm.sequence + 1 := not_not.mp hseq
        have hstart : ∃ chainID', computeChainIDAndSequence P configtx =
            .ok (chainID', cm.sequence + 1) ∧ chainID'.getD [] = cm.chainID :=
          ⟨chainID, hcompute, not_not.mp hchain⟩
        refine (foldlM_processItem_verdict (Proposed.of_begun h)).mono ?_ ?_
        · intro _ _ hnone
          rw [crashing_iff hstart, hnone]
          simp
        · intro e _ hsome
          rw [crashing_iff hstart, hsome]
          simp
    · refine ⟨by simp, ?_⟩
      rintro ⟨⟨chainID', hcompute', -⟩, -⟩
      rw [hcompute] at hcompute'
      cases hcompute'
  constructor
  · rintro ⟨p, s, hrun⟩
    exact (hends.of_run_eq_error hrun).mp ⟨p, rfl⟩
  · intro hcrashing
    cases hrun : (processItems P ch configtx).run cm.begun with
    | ok => exact absurd hcrashing (hends.of_run_eq_ok hrun)
    | error _ s =>
      obtain ⟨p, rfl⟩ := (hends.of_run_eq_error hrun).mpr hcrashing
      exact ⟨p, s, hrun⟩

/-! ### Calls that return -/

/-- The call returns, and leaves a manager that can begin another proposal. -/
def Call.Returns (P : Protobuf) (ch : CryptoHelper) (cm : ConfigurationManager) (call : Call) :
    Prop :=
  ∃ err cm', outcome (call.program P ch) cm = some (err, cm') ∧
    ∃ s, beginHandlers.run cm' = .ok () s

theorem exists_beginHandlers (h : cm.Idle) : ∃ s, beginHandlers.run cm = .ok () s := by
  obtain ⟨_, s, hrun, -⟩ := (beginHandlers_ends h).exists_run_eq_ok
  exact ⟨s, hrun⟩

theorem outcome_apply (h : cm.Idle) (hpanics : ¬ Panics P ch cm configtx) :
    ∃ err cm', outcome (apply P ch choices configtx) cm = some (err, cm') ∧ cm'.Idle := by
  have hends : Ends (apply P ch choices configtx) cm _ _ := apply_ends h
  unfold outcome
  split <;> rename_i hrun
  · obtain ⟨-, items, -, hupdated⟩ := hends.of_run_eq_ok hrun
    exact ⟨none, _, rfl, hupdated.idle⟩
  · rename_i e _
    obtain ⟨-, hsame⟩ := hends.of_run_eq_error hrun
    exact ⟨some e, _, rfl, by rwa [hsame e rfl]⟩
  · exact absurd (hends.of_run_eq_error hrun).1 hpanics

theorem not_panics_of_validate (h : cm.Idle)
    (hreturns : (Call.validate choices configtx).Returns P ch cm) :
    ¬ Panics P ch cm configtx := by
  obtain ⟨err, cm', houtcome, -⟩ := hreturns
  have hends : Ends (validate P ch choices configtx) cm _ _ := validate_ends h
  rcases outcome_eq_some houtcome with ⟨rfl, hrun⟩ | ⟨e, rfl, hrun⟩
  · exact (hends.of_run_eq_ok hrun).2.2
  · exact (hends.of_run_eq_error hrun).1.2

/-- `Validate` and `Apply` return, and the manager can go on, unless an item crashes. -/
theorem returns_iff_not_crashing (hreached : Reached P ch cm) :
    (∀ choices, (Call.validate choices configtx).Returns P ch cm ∧
      (Call.apply choices configtx).Returns P ch cm) ↔ ¬ Crashing P ch cm configtx := by
  have hidle := hreached.accepted.mirrored.idle
  rw [← panics_iff_crashing hidle]
  constructor
  · intro h
    exact not_panics_of_validate hidle (h []).1
  · intro hpanics choices
    constructor
    · have hvalidate : ∃ err, outcome (validate P ch choices configtx) cm = some (err, cm) ∧ _ :=
        outcome_validate hidle hpanics
      obtain ⟨err, houtcome, -⟩ := hvalidate
      exact ⟨err, cm, houtcome, exists_beginHandlers hidle⟩
    · have happly : ∃ err cm', outcome (apply P ch choices configtx) cm = some (err, cm') ∧ _ :=
        outcome_apply hidle hpanics
      obtain ⟨err, cm', houtcome, hidle'⟩ := happly
      exact ⟨err, cm', houtcome, exists_beginHandlers hidle'⟩

theorem not_crashing_twoItems : ¬ Crashing byteFormat (fun _ _ _ => true) cm (twoItems 1) := by
  rintro ⟨-, done, entry, rest, config, hitems, -, hcheck, hcrash⟩
  have hmem : entry ∈ (twoItems 1).items := by simp [hitems]
  have hdecode := (checkItem_eq_ok hcheck).1
  simp only [twoItems, List.mem_cons, List.not_mem_nil, or_false] at hmem
  -- a fabric item and a policy that has a tree
  obtain rfl | rfl := hmem
  · cases hdecode
    simp [ConfigurationItem.Crashes] at hcrash
  · cases hdecode
    simp [ConfigurationItem.Crashes, byteFormat] at hcrash

theorem returns_twoItems : ∃ cm,
    managerAfter byteFormat (fun _ _ _ => true) [] (twoItems 0) [] = some cm ∧
      ∀ choices, (Call.validate choices (twoItems 1)).Returns byteFormat (fun _ _ _ => true) cm ∧
        (Call.apply choices (twoItems 1)).Returns byteFormat (fun _ _ _ => true) cm := by
  refine exists_of_checked (fun _ => True) (by decide +kernel) ?_
  rintro cm hcm -
  exact (returns_iff_not_crashing ⟨[], twoItems 0, [], hcm⟩).mpr not_crashing_twoItems

/-- The process stops on an item of a type without a name, also when the item is accepted. -/
theorem stops_unknownType : ∃ cm,
    managerAfter byteFormat (fun _ _ _ => true) [] (twoItems 0) [] = some cm ∧
      outcome (validate byteFormat (fun _ _ _ => true) [] ⟨[⟨[9, 1, 7, 1, 5], [⟨[9], [4]⟩]⟩]⟩) cm =
        none ∧
      outcome (apply byteFormat (fun _ _ _ => true) [] ⟨[⟨[9, 1, 7, 1, 5], [⟨[9], [4]⟩]⟩]⟩) cm =
        none := by
  decide +kernel

end Fabric.ConfigTx
