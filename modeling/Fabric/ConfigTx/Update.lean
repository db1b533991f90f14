import Fabric.Common.Machine
import Fabric.ConfigTx.Manager

/-!
# Configuration updates

An envelope is accepted or refused as a whole. Validation and a refused update leave the
manager as it was; an accepted update makes the configuration, the items of the handlers
and the policies those of the envelope.
-/

namespace Fabric.ConfigTx

open Fabric.Common List Option ConfigurationType ManagerImpl ConfigurationManager Staged

variable {P : Protobuf} {ch : CryptoHelper} {cm s : ConfigurationManager} {t : ConfigurationType}
  {config : ConfigurationItem} {items : List ConfigurationItem}

/-! ### The items of an envelope -/

/-- The last item for a type and a key. -/
def lastItem (items : List ConfigurationItem) (t : ConfigurationType) (k : Bytes) :
    Option ConfigurationItem :=
  items.reverse.find? fun i => i.type = t ∧ i.key = k

@[simp] theorem lastItem_nil (t : ConfigurationType) (k : Bytes) : lastItem [] t k = none := rfl

theorem lastItem_concat (items : List ConfigurationItem) (config : ConfigurationItem)
    (t : ConfigurationType) (k : Bytes) : lastItem (items ++ [config]) t k =
      if config.type = t ∧ config.key = k then some config else lastItem items t k := by
  simp only [lastItem]
  by_cases h : config.type = t ∧ config.key = k
  · simp [h]
  · simp [h]

theorem lastItem_concat_of_type_ne (h : config.type ≠ t) (k : Bytes) :
    lastItem (items ++ [config]) t k = lastItem items t k := by
  rw [lastItem_concat, if_neg fun heq => h heq.1]

theorem lastItem_eq_some {k : Bytes} (h : lastItem items t k = some config) :
    config ∈ items ∧ config.type = t ∧ config.key = k := by
  have hmem := mem_of_find?_eq_some h
  have hp := List.find?_some h
  simp only [decide_eq_true_eq] at hp
  exact ⟨mem_reverse.mp hmem, hp⟩

/-! ### Handlers with a proposal -/

section Stages

variable {ν : Type} {h : Staged Bytes ν} {items : List ConfigurationItem}
  {config : ConfigurationItem} {t : ConfigurationType} {f : ConfigurationItem → Option ν}

/-- The proposal of a handler has what the items of its type mean to it. -/
def Stages (h : Staged Bytes ν) (items : List ConfigurationItem) (t : ConfigurationType)
    (f : ConfigurationItem → Option ν) : Prop :=
  ∃ m, h.pending = some m ∧ ∀ k : Bytes, m[k]? = (lastItem items t k).bind f

theorem Stages.of_empty (hh : h.pending = some ∅) : Stages h [] t f := ⟨∅, hh, by simp⟩

theorem Stages.propose (hh : Stages h items t f) {v : ν} (hv : f config = some v)
    (ht : config.type = t) (e : Panic) : ∃ h', h.propose e config.key v = .ok h' ∧
      h'.rollback = h.rollback ∧ Stages h' (items ++ [config]) t f := by
  obtain ⟨m, hm, hget⟩ := hh
  refine ⟨{ h with pending := some (m.insert config.key v) }, by simp [Staged.propose, hm], rfl,
    _, rfl, fun k => ?_⟩
  rw [lastItem_concat, Std.ExtTreeMap.getElem?_insert]
  by_cases hk : config.key = k
  · simp [hk, ht, hv]
  · simp [hk, hget]

theorem Stages.of_type_ne (hh : Stages h items t f) (ht : config.type ≠ t) :
    Stages h (items ++ [config]) t f := by
  obtain ⟨m, hm, hget⟩ := hh
  refine ⟨m, hm, fun k => ?_⟩
  rw [lastItem_concat_of_type_ne ht, hget]

theorem Stages.commit (hh : Stages h items t f) (e : Panic) : ∃ h', h.commit e = .ok h' ∧
    h'.pending = none ∧ ∀ k : Bytes, h'.committed[k]? = (lastItem items t k).bind f := by
  obtain ⟨m, hm, hget⟩ := hh
  exact ⟨⟨m, none⟩, by simp [Staged.commit, hm], rfl, hget⟩

end Stages

/-! ### Managers with a proposal -/

namespace ConfigurationManager

/-- The manager without its proposal. -/
def rolledBack (cm : ConfigurationManager) : ConfigurationManager :=
  { cm with handlers := cm.handlers.rollback }

/-- No proposal is pending. -/
def Idle (cm : ConfigurationManager) : Prop := cm.rolledBack = cm

theorem idle_iff : cm.Idle ↔ cm.handlers.policy.pending = none ∧ cm.handlers.chain.pending = none ∧
    cm.handlers.orderer.pending = none ∧ cm.handlers.fabric.pending = none := by
  obtain ⟨sequence, chainID, configuration, ⟨c₁, p₁⟩, ⟨c₂, p₂⟩, ⟨c₃, p₃⟩, ⟨c₄, p₄⟩⟩ := cm
  simp [Idle, rolledBack, Handlers.rollback, rollbackConfig,
    BytesHandler.rollbackConfig, rollback, eq_comm]

/-- The manager with an empty proposal. -/
def begun (cm : ConfigurationManager) : ConfigurationManager :=
  { cm with handlers :=
    ⟨{ cm.handlers.policy with pending := some ∅ }, { cm.handlers.chain with pending := some ∅ },
      { cm.handlers.orderer with pending := some ∅ },
      { cm.handlers.fabric with pending := some ∅ }⟩ }

theorem rolledBack_begun (h : cm.Idle) : cm.begun.rolledBack = cm := h

end ConfigurationManager

/-- The manager `cm` with a proposal of items of known types whose policies compile. -/
structure Proposed (P : Protobuf) (cm : ConfigurationManager) (items : List ConfigurationItem)
    (configMap : ConfigMap) (s : ConfigurationManager) : Prop where
  rolledBack : s.rolledBack = cm
  configMap : ∀ t k, (configMap t)[k]? = lastItem items t k
  known : ∀ i ∈ items, i.type ∈ ConfigurationType.names
  compiles : ∀ i ∈ items, i.type = .policy → ∃ p, policyOf P i = .ok p
  policy : Stages s.handlers.policy items .policy fun i => (policyOf P i).toOption
  chain : Stages s.handlers.chain items .chain fun i => some i.value
  orderer : Stages s.handlers.orderer items .orderer fun i => some i.value
  fabric : Stages s.handlers.fabric items .fabric fun i => some i.value

section OrStop

variable {ε α : Type} {stop : ε → Stop} {Q : α → ConfigurationManager → Prop}
  {E : Stop → ConfigurationManager → Prop}

@[simp] theorem ends_orStop_ok (a : α) :
    Ends (orStop stop (.ok a : Except ε α)) s Q E ↔ Q a s := Iff.rfl

@[simp] theorem ends_orStop_error (e : ε) :
    Ends (orStop stop (.error e : Except ε α)) s Q E ↔ E (stop e) s := Iff.rfl

theorem Ends.orStop {x : Except ε α} (hQ : ∀ a, x = .ok a → Q a s)
    (hE : ∀ e, x = .error e → E (stop e) s) : Ends (ConfigTx.orStop stop x) s Q E := by
  cases x with
  | ok a => exact hQ a rfl
  | error e => exact hE e rfl

@[simp] theorem ends_modifyHandlers {Q : Unit → ConfigurationManager → Prop}
    (f : Handlers → Handlers) :
    Ends (modifyHandlers f) s Q E ↔ Q () { s with handlers := f s.handlers } := Iff.rfl

end OrStop

theorem Proposed.of_begun (h : cm.Idle) : Proposed P cm [] makeConfigMap cm.begun where
  rolledBack := cm.rolledBack_begun h
  configMap := by simp [makeConfigMap]
  known := by simp
  compiles := by simp
  policy := .of_empty rfl
  chain := .of_empty rfl
  orderer := .of_empty rfl
  fabric := .of_empty rfl

theorem beginHandlers_ends (h : cm.Idle) :
    Ends beginHandlers cm (fun _ s => s = cm.begun) (fun _ _ => False) := by
  obtain ⟨hpolicy, hchain, horderer, hfabric⟩ := idle_iff.mp h
  simp [beginHandlers, beginConfig, BytesHandler.beginConfig, begin, hpolicy,
    hchain, horderer, hfabric, begun]

theorem idle_of_beginHandlers : Ends beginHandlers cm (fun _ _ => cm.Idle) (fun _ _ => True) := by
  simp only [beginHandlers, ends_bind]
  refine Ends.orStop (fun policy hpolicy => ?_) fun _ _ => True.intro
  refine Ends.orStop (fun chain hchain => ?_) fun _ _ => True.intro
  refine Ends.orStop (fun orderer horderer => ?_) fun _ _ => True.intro
  refine Ends.orStop (fun fabric hfabric => ?_) fun _ _ => True.intro
  exact idle_iff.mpr ⟨pending_of_begin hpolicy, pending_of_begin hchain, pending_of_begin horderer,
    pending_of_begin hfabric⟩

section Items

variable {items : List ConfigurationItem} {config : ConfigurationItem} {configMap : ConfigMap}

theorem Proposed.concat (h : Proposed P cm items configMap s) {handlers : Handlers}
    (hback : handlers.rollback = s.handlers.rollback)
    (hknown : config.type ∈ names)
    (hcompiles : config.type = .policy → ∃ p, policyOf P config = .ok p)
    (hpolicy : Stages handlers.policy (items ++ [config]) .policy
      fun i => (policyOf P i).toOption)
    (hchain : Stages handlers.chain (items ++ [config]) .chain fun i => some i.value)
    (horderer : Stages handlers.orderer (items ++ [config]) .orderer fun i => some i.value)
    (hfabric : Stages handlers.fabric (items ++ [config]) .fabric fun i => some i.value) :
    Proposed P cm (items ++ [config]) (Function.update configMap config.type
      ((configMap config.type).insert config.key config)) { s with handlers } where
  rolledBack := by
    rw [← h.rolledBack]
    simp [ConfigurationManager.rolledBack, hback]
  configMap := by
    intro t k
    rw [lastItem_concat]
    by_cases ht : config.type = t
    · subst ht
      rw [Function.update_self, Std.ExtTreeMap.getElem?_insert]
      by_cases hk : config.key = k
      · simp [hk]
      · simp [h.configMap]
    · rw [Function.update_of_ne (Ne.symm ht), if_neg fun heq => ht heq.1, h.configMap]
  known := by
    simpa [or_imp, forall_and] using ⟨h.known, hknown⟩
  compiles := by
    simpa [or_imp, forall_and] using ⟨h.compiles, hcompiles⟩
  policy := hpolicy
  chain := hchain
  orderer := horderer
  fabric := hfabric

theorem proposeConfig_ends (h : Proposed P cm items configMap s) : Ends (proposeConfig P config) s
      (fun _ s' => Proposed P cm (items ++ [config]) (Function.update configMap config.type
        ((configMap config.type).insert config.key config)) s')
      (fun _ s' => s'.rolledBack = cm) := by
  -- the item concerns the handler of its type only
  cases ht : config.type with
  | policy =>
    cases hp : policyOf P config with
    | error => simpa [proposeConfig, ht, hp] using h.rolledBack
    | ok p =>
      obtain ⟨policy, hpropose, hback, hpolicy⟩ :=
        h.policy.propose (v := p) (by simp [hp, Except.toOption]) ht .nilMap
      simp only [proposeConfig, ht, hp, hpropose, ends_bind, ends_get, ends_orStop_ok]
      rw [← ht]
      refine h.concat ?_ (by simp [ht, names]) (fun _ => ⟨p, hp⟩) hpolicy
        (h.chain.of_type_ne (by simp [ht])) (h.orderer.of_type_ne (by simp [ht]))
        (h.fabric.of_type_ne (by simp [ht]))
      simp [Handlers.rollback, rollbackConfig, hback]
  | chain =>
    obtain ⟨chain, hpropose, hback, hchain⟩ :=
      h.chain.propose rfl ht .nilMap
    simp only [proposeConfig, BytesHandler.proposeConfig, ht, hpropose, ends_bind, ends_get]
    rw [← ht]
    refine h.concat ?_ (by simp [ht, names]) (by simp [ht])
      (h.policy.of_type_ne (by simp [ht])) hchain
      (h.orderer.of_type_ne (by simp [ht])) (h.fabric.of_type_ne (by simp [ht]))
    simp [Handlers.rollback, BytesHandler.rollbackConfig, hback]
  | orderer =>
    obtain ⟨orderer, hpropose, hback, horderer⟩ :=
      h.orderer.propose rfl ht .nilMap
    simp only [proposeConfig, BytesHandler.proposeConfig, ht, hpropose, ends_bind, ends_get]
    rw [← ht]
    refine h.concat ?_ (by simp [ht, names]) (by simp [ht])
      (h.policy.of_type_ne (by simp [ht])) (h.chain.of_type_ne (by simp [ht]))
      horderer (h.fabric.of_type_ne (by simp [ht]))
    simp [Handlers.rollback, BytesHandler.rollbackConfig, hback]
  | fabric =>
    obtain ⟨fabric, hpropose, hback, hfabric⟩ :=
      h.fabric.propose rfl ht .nilMap
    simp only [proposeConfig, BytesHandler.proposeConfig, ht, hpropose, ends_bind, ends_get]
    rw [← ht]
    refine h.concat ?_ (by simp [ht, names]) (by simp [ht])
      (h.policy.of_type_ne (by simp [ht])) (h.chain.of_type_ne (by simp [ht]))
      (h.orderer.of_type_ne (by simp [ht])) hfabric
    simp [Handlers.rollback, BytesHandler.rollbackConfig, hback]
  | unknown => simpa [proposeConfig, ht] using h.rolledBack

theorem checkItem_rolledBack (seq : UInt64) (entry : SignedConfigurationItem) :
    checkItem P ch s.rolledBack seq entry = checkItem P ch s seq entry := rfl

theorem processItem_ends (h : Proposed P cm items configMap s) (seq : UInt64)
    (entry : SignedConfigurationItem) :
    Ends (processItem P ch seq configMap entry) s
      (fun configMap' s' => ∃ config, checkItem P ch cm seq entry = .ok config ∧
        Proposed P cm (items ++ [config]) configMap' s')
      (fun _ s' => s'.rolledBack = cm) := by
  unfold processItem
  simp only [ends_bind]
  refine Ends.orStop (fun config hcheck => ?_) fun e _ => h.rolledBack
  rw [← checkItem_rolledBack, h.rolledBack] at hcheck
  exact (proposeConfig_ends h).imp fun _ s' hs' => ⟨config, hcheck, hs'⟩

theorem foldlM_processItem_ends {seq : UInt64} {entries : List SignedConfigurationItem}
    (h : Proposed P cm items configMap s) :
    Ends (entries.foldlM (processItem P ch seq) configMap) s
      (fun configMap' s' => ∃ configs, List.Forall₂ (fun entry config =>
          checkItem P ch cm seq entry = .ok config) entries configs ∧
        Proposed P cm (items ++ configs) configMap' s')
      (fun _ s' => s'.rolledBack = cm) := by
  induction entries generalizing items configMap s with
  | nil => exact ⟨[], .nil, by simpa using h⟩
  | cons entry _ ih =>
    rw [foldlM_cons, ends_bind]
    apply (processItem_ends h seq entry).imp
    rintro configMap' s' ⟨config, hcheck, hs'⟩
    apply (ih hs').imp
    rintro configMap'' s'' ⟨configs, hchecks, hs''⟩
    exact ⟨config :: configs, .cons hcheck hchecks, by simpa using hs''⟩

end Items

/-! ### Accepted and refused envelopes -/

/-- The items of the envelope pass the checks of the manager, and the resulting map and
manager. -/
structure Checked (P : Protobuf) (ch : CryptoHelper) (cm : ConfigurationManager)
    (configtx : ConfigurationEnvelope) (items : List ConfigurationItem) : Prop where
  compute : ∃ chainID, computeChainIDAndSequence P configtx = .ok (chainID, cm.sequence + 1) ∧
    chainID.getD [] = cm.chainID
  check : List.Forall₂ (fun entry config => checkItem P ch cm (cm.sequence + 1) entry = .ok config)
    configtx.items items

theorem processItems_ends (h : cm.Idle) (configtx : ConfigurationEnvelope) :
    Ends (processItems P ch configtx) cm.begun
      (fun configMap s => ∃ items, Checked P ch cm configtx items ∧ Proposed P cm items configMap s)
      (fun _ s => s.rolledBack = cm) := by
  have hback := cm.rolledBack_begun h
  unfold processItems
  simp only [ends_bind, ends_ite]
  refine Ends.orStop ?_ fun e _ => hback
  rintro ⟨chainID, seq⟩ hcompute
  refine ⟨fun _ => hback, fun hseq => ⟨fun _ => hback, fun hchain => ?_⟩⟩
  obtain rfl : seq = cm.sequence + 1 := not_not.mp hseq
  apply (foldlM_processItem_ends (Proposed.of_begun h)).imp
  rintro configMap s ⟨items, hchecks, hs⟩
  exact ⟨items, ⟨⟨chainID, hcompute, not_not.mp hchain⟩, hchecks⟩, by simpa using hs⟩

/-- The envelope passes all checks, also that for implicit deletion. -/
def Accepts (P : Protobuf) (ch : CryptoHelper) (cm : ConfigurationManager)
    (configtx : ConfigurationEnvelope) : Prop :=
  ∃ configMap s, (processItems P ch configtx).run cm.begun = .ok configMap s ∧
    missingKeys s.configuration configMap = []

/-- The process stops on the envelope. -/
def Panics (P : Protobuf) (ch : CryptoHelper) (cm : ConfigurationManager)
    (configtx : ConfigurationEnvelope) : Prop :=
  ∃ p s, (processItems P ch configtx).run cm.begun = .error (.panic p) s

/-- How the handling of an envelope fails, according to what the process stops with. -/
def Fails (P : Protobuf) (ch : CryptoHelper) (cm : ConfigurationManager)
    (configtx : ConfigurationEnvelope) : Stop → Prop
  | .error _ => ¬ Accepts P ch cm configtx ∧ ¬ Panics P ch cm configtx
  | .panic _ => Panics P ch cm configtx

theorem reorder_eq_nil {α : Type} {choices : List ℕ} {l : List α} :
    reorder choices l = [] ↔ l = [] := by
  rw [← length_eq_zero_iff, (reorder_perm choices l).length_eq, length_eq_zero_iff]

variable {configtx : ConfigurationEnvelope} {choices : List ℕ}

theorem processConfig_ends (h : cm.Idle) : Ends (processConfig P ch choices configtx) cm.begun
      (fun configMap s => Accepts P ch cm configtx ∧ ¬ Panics P ch cm configtx ∧
        missingKeys cm.configuration configMap = [] ∧
        ∃ items, Checked P ch cm configtx items ∧ Proposed P cm items configMap s)
      (fun e s => s.rolledBack = cm ∧ Fails P ch cm configtx e) := by
  unfold processConfig
  simp only [ends_bind, ends_get]
  refine ((processItems_ends h configtx).and (ends_run _ _)).mono ?_ ?_
  · rintro configMap s ⟨⟨items, hchecked, hs⟩, hrun⟩
    have hpanics : ¬ Panics P ch cm configtx := by
      rintro ⟨p, s', hrun'⟩
      simp [hrun] at hrun'
    have hmissing : missingKeys s.configuration configMap =
        missingKeys cm.configuration configMap := by rw [← hs.rolledBack]; rfl
    cases hm : reorder choices (missingKeys s.configuration configMap) with
    | nil =>
      have hnil := reorder_eq_nil.mp hm
      exact ⟨⟨configMap, s, hrun, hnil⟩, hpanics, hmissing ▸ hnil, items, hchecked, hs⟩
    | cons =>
      refine ⟨hs.rolledBack, ?_, hpanics⟩
      rintro ⟨configMap', s', hrun', hnil⟩
      rw [hrun] at hrun'
      cases hrun'
      rw [reorder_eq_nil.mpr hnil] at hm
      cases hm
  · rintro e s ⟨hback, hrun⟩
    refine ⟨hback, ?_⟩
    cases e with
    | panic p => exact ⟨p, s, hrun⟩
    | error =>
      constructor
      · rintro ⟨configMap, s', hrun', -⟩
        simp [hrun] at hrun'
      · rintro ⟨p, s', hrun'⟩
        simp [hrun] at hrun'

theorem orRollback_ends {α : Type} {x : ConfigM α} {Q : α → ConfigurationManager → Prop}
    {φ : Stop → Prop} (h : Ends x s Q fun e s' => s'.rolledBack = cm ∧ φ e) :
    Ends (orRollback x) s Q fun e s' => φ e ∧ ∀ err, e = .error err → s' = cm := by
  unfold orRollback
  rw [ends_tryCatch]
  refine h.mono (fun _ _ => id) ?_
  rintro (e | p) s' ⟨hback, he⟩
  · exact ⟨he, fun _ _ => hback⟩
  · exact ⟨he, fun err herr => by cases herr⟩

theorem validate_ends (h : cm.Idle) : Ends (validate P ch choices configtx) cm
      (fun _ s => s = cm ∧ Accepts P ch cm configtx ∧ ¬ Panics P ch cm configtx)
      (fun e s => Fails P ch cm configtx e ∧ ∀ err, e = .error err → s = cm) := by
  unfold validate
  simp only [ends_bind]
  refine (beginHandlers_ends h).mono ?_ fun _ _ hfalse => hfalse.elim
  rintro - s rfl
  apply (orRollback_ends (processConfig_ends h)).imp
  rintro configMap s ⟨haccepts, hpanics, -, items, -, hs⟩
  exact ⟨hs.rolledBack, haccepts, hpanics⟩

/-- The handler of a type that is not that of the policies. -/
def Handlers.bytes (h : Handlers) : ConfigurationType → Option BytesHandler
  | .chain => some h.chain
  | .orderer => some h.orderer
  | .fabric => some h.fabric
  | _ => none

/-- The manager `cm'` has the configuration of an envelope that the manager `cm` accepted. -/
structure Updated (P : Protobuf) (cm : ConfigurationManager) (configtx : ConfigurationEnvelope)
    (items : List ConfigurationItem) (cm' : ConfigurationManager) : Prop where
  decoded : configtx.items.map (fun entry => P.configurationItem entry.configurationItem) =
    items.map some
  sequence : cm'.sequence = cm.sequence + 1
  chainID : cm'.chainID = cm.chainID
  configuration : ∀ t k, (cm'.configuration t)[k]? = lastItem items t k
  bytes : ∀ t h, cm'.handlers.bytes t = some h → ∀ k : Bytes,
    h.committed[k]? = (lastItem items t k).map ConfigurationItem.value
  policies : ∀ k i, lastItem items .policy k = some i →
    ∃ p, policyOf P i = .ok p ∧ cm'.pm.getPolicy k = some p
  no_policy : ∀ k, lastItem items .policy k = none → cm'.pm.getPolicy k = none
  known : ∀ t k, lastItem items t k ≠ none → t ∈ ConfigurationType.names
  kept : ∀ t ∈ ConfigurationType.names, ∀ k ∈ cm.configuration t, k ∈ cm'.configuration t
  idle : cm'.Idle

theorem Checked.decoded (h : Checked P ch cm configtx items) :
    configtx.items.map (fun entry => P.configurationItem entry.configurationItem) =
      items.map some := by
  obtain ⟨-, hcheck⟩ := h
  generalize configtx.items = entries at hcheck ⊢
  induction hcheck with
  | nil => rfl
  | cons hentry _ ih => rw [map_cons, map_cons, (checkItem_eq_ok hentry).1, ih]

theorem Proposed.updated {configMap : ConfigMap}
    (h : Proposed P cm items configMap s) (hchecked : Checked P ch cm configtx items)
    (hmissing : missingKeys cm.configuration configMap = []) :
    Ends commitHandlers { s with configuration := configMap, sequence := s.sequence + 1 }
      (fun _ cm' => Updated P cm configtx items cm') (fun _ _ => False) := by
  obtain ⟨policy, hpolicy, hpolicyIdle, hpolicies⟩ := h.policy.commit .policiesCommit
  obtain ⟨chain, hchain, hchainIdle, hchains⟩ := h.chain.commit .bytesCommit
  obtain ⟨orderer, horderer, hordererIdle, horderers⟩ := h.orderer.commit .bytesCommit
  obtain ⟨fabric, hfabric, hfabricIdle, hfabrics⟩ := h.fabric.commit .bytesCommit
  simp only [commitHandlers, commitConfig, BytesHandler.commitConfig, hpolicy, hchain,
    horderer, hfabric, ends_bind, ends_get, ends_orStop_ok, ends_modifyHandlers]
  have hback := h.rolledBack
  refine ⟨hchecked.decoded, by rw [← hback]; rfl, by rw [← hback]; rfl, h.configMap, ?_, ?_, ?_,
    ?_, ?_, ?_⟩
  · intro t h' ht k
    cases t <;> cases ht
    · rw [hchains, map_eq_bind]; rfl
    · rw [horderers, map_eq_bind]; rfl
    · rw [hfabrics, map_eq_bind]; rfl
  · intro k i hi
    obtain ⟨hmem, ht, -⟩ := lastItem_eq_some hi
    obtain ⟨p, hp⟩ := h.compiles i hmem ht
    refine ⟨p, hp, ?_⟩
    simp [pm, getPolicy, hpolicies, hi, hp, Except.toOption]
  · intro k hk
    simp [pm, getPolicy, hpolicies, hk]
  · intro t k hk
    obtain ⟨i, hi⟩ := ne_none_iff_exists'.mp hk
    obtain ⟨hmem, rfl, -⟩ := lastItem_eq_some hi
    exact h.known i hmem
  · exact missingKeys_eq_nil.mp hmissing
  · exact idle_iff.mpr ⟨hpolicyIdle, hchainIdle, hordererIdle, hfabricIdle⟩

theorem apply_ends (h : cm.Idle) : Ends (apply P ch choices configtx) cm
      (fun _ cm' => (Accepts P ch cm configtx ∧ ¬ Panics P ch cm configtx) ∧
        ∃ items, Checked P ch cm configtx items ∧ Updated P cm configtx items cm')
      (fun e s => Fails P ch cm configtx e ∧ ∀ err, e = .error err → s = cm) := by
  unfold apply
  simp only [ends_bind]
  refine (beginHandlers_ends h).mono ?_ fun _ _ hfalse => hfalse.elim
  rintro - s rfl
  apply (orRollback_ends (processConfig_ends h)).imp
  rintro configMap s ⟨haccepts, hpanics, hmissing, items, hchecked, hs⟩
  refine (hs.updated hchecked hmissing).mono ?_ fun _ _ hfalse => hfalse.elim
  exact fun _ cm' hupdated => ⟨⟨haccepts, hpanics⟩, items, hchecked, hupdated⟩

theorem idle_of_apply : Ends (apply P ch choices configtx) cm (fun _ _ => cm.Idle)
    (fun _ _ => True) := by
  unfold apply
  simp only [ends_bind]
  apply idle_of_beginHandlers.imp
  intro _ s h
  refine Ends.trivial.imp fun configMap s' _ => ?_
  rw [ends_modify]
  exact Ends.trivial.imp fun _ _ _ => h

/-! ### Any sequence of calls -/

/-- What a call returns and leaves, unless the process stops. -/
def outcome (x : ConfigM Unit) (cm : ConfigurationManager) :
    Option (Option ConfigError × ConfigurationManager) :=
  match x.run cm with
  | .ok _ cm' => some (none, cm')
  | .error (.error e) cm' => some (some e, cm')
  | .error (.panic _) _ => none

/-- A call of the manager, with the choices of the order of enumeration. -/
inductive Call
  | validate (choices : List ℕ) (configtx : ConfigurationEnvelope)
  | apply (choices : List ℕ) (configtx : ConfigurationEnvelope)

def Call.program (P : Protobuf) (ch : CryptoHelper) : Call → ConfigM Unit
  | .validate choices configtx => ConfigTx.validate P ch choices configtx
  | .apply choices configtx => ConfigTx.apply P ch choices configtx

/-- The manager after a sequence of calls, unless the process stops. -/
def afterCalls (P : Protobuf) (ch : CryptoHelper) (cm : ConfigurationManager)
    (calls : List Call) : Option ConfigurationManager :=
  calls.foldlM (fun cm call => (outcome (call.program P ch) cm).map Prod.snd) cm

/-- A new manager after a sequence of calls. -/
def managerAfter (P : Protobuf) (ch : CryptoHelper) (choices : List ℕ)
    (genesis : ConfigurationEnvelope) (calls : List Call) : Option ConfigurationManager := do
  let cm ← (newConfigurationManager P ch choices genesis).toOption
  afterCalls P ch cm calls

/-- Managers after any calls. -/
def Reached (P : Protobuf) (ch : CryptoHelper) (cm : ConfigurationManager) : Prop :=
  ∃ choices genesis calls, managerAfter P ch choices genesis calls = some cm

variable {cm' : ConfigurationManager} {err : Option ConfigError}

theorem outcome_eq_some {x : ConfigM Unit} (h : outcome x cm = some (err, cm')) :
    err = none ∧ x.run cm = .ok () cm' ∨ ∃ e, err = some e ∧ x.run cm = .error (.error e) cm' := by
  unfold outcome at h
  split at h <;> cases h
  · exact .inl ⟨rfl, by assumption⟩
  · exact .inr ⟨_, rfl, by assumption⟩

/-- The configuration is the source of what the handlers and the policy manager hold. -/
structure Mirrored (P : Protobuf) (cm : ConfigurationManager) : Prop where
  known : ∀ t, ∀ k ∈ cm.configuration t, t ∈ ConfigurationType.names
  bytes : ∀ t h, cm.handlers.bytes t = some h → ∀ k : Bytes,
    h.committed[k]? = (cm.configuration t)[k]?.map ConfigurationItem.value
  policies : ∀ k i, (cm.configuration .policy)[k]? = some i →
    ∃ p, policyOf P i = .ok p ∧ cm.pm.getPolicy k = some p
  no_policy : ∀ k, (cm.configuration .policy)[k]? = none → cm.pm.getPolicy k = none
  idle : cm.Idle

theorem Updated.mirrored (h : Updated P cm configtx items cm') : Mirrored P cm' where
  known := by
    intro t k hk
    refine h.known t k ?_
    rw [← h.configuration]
    simpa using hk
  bytes := by simpa only [h.configuration] using h.bytes
  policies := by simpa only [h.configuration] using h.policies
  no_policy := by simpa only [h.configuration] using h.no_policy
  idle := h.idle

/-- The manager has the configuration of an envelope that was accepted. -/
def Accepted (P : Protobuf) (ch : CryptoHelper) (cm : ConfigurationManager) : Prop :=
  ∃ cm₀ configtx items, Checked P ch cm₀ configtx items ∧ Updated P cm₀ configtx items cm

theorem Accepted.mirrored (h : Accepted P ch cm) : Mirrored P cm := by
  obtain ⟨cm₀, configtx, items, -, hupdated⟩ := h
  exact hupdated.mirrored

theorem Call.accepted {call : Call} (h : Accepted P ch cm)
    (hcall : outcome (call.program P ch) cm = some (err, cm')) :
    Accepted P ch cm' := by
  have hidle := h.mirrored.idle
  cases call with
  | validate choices configtx =>
    have hends : Ends (ConfigTx.validate P ch choices configtx) cm _ _ := validate_ends hidle
    rcases outcome_eq_some hcall with ⟨-, hrun⟩ | ⟨e, -, hrun⟩
    · exact (hends.of_run_eq_ok hrun).1 ▸ h
    · exact (hends.of_run_eq_error hrun).2 e rfl ▸ h
  | apply choices configtx =>
    have hends : Ends (ConfigTx.apply P ch choices configtx) cm _ _ := apply_ends hidle
    rcases outcome_eq_some hcall with ⟨-, hrun⟩ | ⟨e, -, hrun⟩
    · obtain ⟨-, items, hitems⟩ := hends.of_run_eq_ok hrun
      exact ⟨cm, configtx, items, hitems⟩
    · exact (hends.of_run_eq_error hrun).2 e rfl ▸ h

theorem newConfigurationManager_accepted {genesis : ConfigurationEnvelope}
    (h : newConfigurationManager P ch choices genesis = .ok cm) : Accepted P ch cm := by
  unfold newConfigurationManager at h
  split at h
  · cases h
  · rename_i chainID seq _
    have hends : Ends (apply P ch choices genesis)
      ⟨seq - 1, chainID.getD [], makeConfigMap, .new⟩ _ _ := apply_ends rfl
    split at h <;> cases h
    rename_i hrun
    obtain ⟨-, items, hitems⟩ := hends.of_run_eq_ok hrun
    exact ⟨_, genesis, items, hitems⟩

theorem Reached.accepted (h : Reached P ch cm) : Accepted P ch cm := by
  obtain ⟨choices, genesis, calls, hcm⟩ := h
  simp only [managerAfter, bind_eq_bind, bind_eq_some_iff] at hcm
  obtain ⟨cm₀, hnew, hcalls⟩ := hcm
  have hcm₀ : Accepted P ch cm₀ := by
    cases hnew' : newConfigurationManager P ch choices genesis with
    | error => simp [hnew', Except.toOption] at hnew
    | ok cm =>
      obtain rfl : cm = cm₀ := by simpa [hnew', Except.toOption] using hnew
      exact newConfigurationManager_accepted hnew'
  refine runSteps_invariant (φ := fun _ _ => True) hcm₀ ?_ (along_of_forall fun _ _ => trivial)
    hcalls
  intro cm₁ call cm₂ _ h₁ hcall
  obtain ⟨r, hr, rfl⟩ := map_eq_some_iff.mp hcall
  exact Call.accepted h₁ hr

/-! ### Atomic updates -/

theorem outcome_validate (h : cm.Idle) (hpanics : ¬ Panics P ch cm configtx) :
    ∃ err, outcome (validate P ch choices configtx) cm = some (err, cm) ∧
      (err = none ↔ Accepts P ch cm configtx) := by
  have hends : Ends (validate P ch choices configtx) cm _ _ := validate_ends h
  unfold outcome
  split <;> rename_i hrun
  · obtain ⟨rfl, haccepts, -⟩ := hends.of_run_eq_ok hrun
    exact ⟨none, rfl, by simpa using haccepts⟩
  · rename_i e _
    obtain ⟨⟨hrefused, -⟩, hsame⟩ := hends.of_run_eq_error hrun
    refine ⟨some e, by rw [hsame e rfl], by simpa using hrefused⟩
  · exact absurd (hends.of_run_eq_error hrun).1 hpanics

/-- Updates are atomic and validation predicts them, for every manager that was reached and every
envelope on which the process does not stop. -/
theorem updates_atomic (choices' : List ℕ) {err : Option ConfigError} {cm' : ConfigurationManager}
    (hreached : Reached P ch cm)
    (happly : outcome (apply P ch choices configtx) cm = some (err, cm')) :
    (∃ err', outcome (validate P ch choices' configtx) cm = some (err', cm) ∧
      (err' = none ↔ err = none)) ∧
    (err ≠ none → cm' = cm ∧ cm'.Idle) ∧
    (err = none → (cm.sequence.toNat + 1 < 2 ^ 64 → cm'.sequence.toNat = cm.sequence.toNat + 1) ∧
      (∀ t, ∀ k ∈ cm.configuration t, k ∈ cm'.configuration t) ∧
      ∃ items, Updated P cm configtx items cm') := by
  have hmirrored := hreached.accepted.mirrored
  have hvalidates : ¬ Panics P ch cm configtx →
      ∃ err', outcome (validate P ch choices' configtx) cm = some (err', cm) ∧
        (err' = none ↔ Accepts P ch cm configtx) := outcome_validate hmirrored.idle
  have hends : Ends (apply P ch choices configtx) cm _ _ := apply_ends hmirrored.idle
  rcases outcome_eq_some happly with ⟨rfl, hrun⟩ | ⟨e, rfl, hrun⟩
  · obtain ⟨⟨haccepts, hpanics⟩, items, -, hupdated⟩ := hends.of_run_eq_ok hrun
    obtain ⟨err', hvalidate, herr'⟩ := hvalidates hpanics
    refine ⟨⟨err', hvalidate, by simpa [haccepts] using herr'⟩, by simp, fun _ => ⟨?_, ?_, ?_⟩⟩
    · intro hrange
      rw [hupdated.sequence]
      exact Nat.mod_eq_of_lt hrange
    · exact fun t k hk => hupdated.kept t (hmirrored.known t k hk) k hk
    · exact ⟨items, hupdated⟩
  · obtain ⟨⟨hrefused, hpanics⟩, hsame⟩ := hends.of_run_eq_error hrun
    obtain rfl := hsame e rfl
    obtain ⟨err', hvalidate, herr'⟩ := hvalidates hpanics
    refine ⟨⟨err', hvalidate, by simpa [hrefused] using herr'⟩, ?_, by simp⟩
    exact fun _ => ⟨rfl, hmirrored.idle⟩

/-- A wire format for examples: every field of an item is a byte, where 255 stands for the highest
sequence number, and a policy asks for the identity that is its encoding. -/
def byteFormat : Protobuf where
  configurationItem
    | [t, m, p, k, v] =>
      let type := match t with
        | 0 => .policy
        | 1 => .chain
        | 2 => .orderer
        | 3 => .fabric
        | t => .unknown t.toNat
      some ⟨some ⟨some []⟩, type, if m = 255 then 0xffffffffffffffff else m.toUInt64, [p], [k], [v]⟩
    | _ => none
  signatureHeader header := some ⟨header⟩
  policy value := some ⟨some (some ⟨0, some (.signedBy 0), [value]⟩)⟩

/-- A fabric item and a policy, with a sequence number. -/
def twoItems (m : UInt8) : ConfigurationEnvelope :=
  ⟨[⟨[3, m, 7, 1, 5], [⟨[9], [4]⟩]⟩, ⟨[0, m, 7, 7, 9], [⟨[9], [4]⟩]⟩]⟩

theorem updates_atomic_twoItems : ∃ cm,
    managerAfter byteFormat (fun _ _ _ => true) [] (twoItems 0) [] = some cm ∧
      ∃ cm', outcome (apply byteFormat (fun _ _ _ => true) [] (twoItems 1)) cm = some (none, cm') ∧
        cm'.sequence.toNat = cm.sequence.toNat + 1 := by
  refine exists_of_checked (fun cm => ∃ cm', outcome (apply byteFormat (fun _ _ _ => true) []
    (twoItems 1)) cm = some (none, cm') ∧ cm.sequence.toNat + 1 < 2 ^ 64) (by decide +kernel) ?_
  rintro cm hcm ⟨cm', happly, hrange⟩
  have hatomic := updates_atomic [] ⟨[], twoItems 0, [], hcm⟩ happly
  exact ⟨cm', happly, (hatomic.2.2 rfl).1 hrange⟩

/-- After the highest sequence number the next one is zero. -/
theorem sequence_wraps : ∃ cm,
    managerAfter byteFormat (fun _ _ _ => true) [] (twoItems 255) [] = some cm ∧
      ∃ cm', outcome (apply byteFormat (fun _ _ _ => true) [] (twoItems 0)) cm = some (none, cm') ∧
        cm'.sequence.toNat ≠ cm.sequence.toNat + 1 := by
  decide +kernel

end Fabric.ConfigTx
