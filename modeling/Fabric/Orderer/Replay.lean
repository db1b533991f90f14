import Fabric.ConfigTx.Update
import Fabric.Orderer.Solo

/-!
# Replaying configuration transactions

The configuration filter and the block cutter validate a configuration transaction and never
apply it: their manager stays the one the consenter was started with. Every configuration
transaction in a batch is therefore valid for that manager, and carries the sequence number
behind its own. Of two that are applied one after the other, the second is refused.
-/

namespace Fabric.Orderer

open Fabric.Common Fabric.ConfigTx List Solo

/-! ### The configuration filter -/

/-- `configFilter.Apply`; `choices` is the order in which the manager enumerates. -/
def configFilter (U : Unmarshal) (P : Protobuf) (ch : CryptoHelper) (choices : List ℕ) :
    Rule ConfigurationManager := fun message cm =>
  match U.payload (message.payload.getD []) with
  | none => some (.forward, cm)
  | some msgData =>
    if (msgData.header.bind Header.chainHeader).map ChainHeader.type ≠
        some configurationTransaction then some (.forward, cm)
    else
      match U.configurationEnvelope msgData.data with
      | none => some (.reject, cm)
      | some config => do
        let (err, cm) ← outcome (validate P ch choices config) cm
        if err ≠ none then some (.reject, cm) else some (.reconfigure, cm)

variable {T : Type} {configs : List ConfigurationEnvelope}

/-- A rule that uses the manager only. -/
def Rule.onManager (rule : Rule ConfigurationManager) : Rule (ConfigurationManager × T) :=
  fun message s => (rule message s.1).map fun (action, cm) => (action, (cm, s.2))

/-- A rule that does not use the manager. -/
def Rule.onRest (rule : Rule T) : Rule (ConfigurationManager × T) :=
  fun message s => (rule message s.2).map fun (action, t) => (action, (s.1, t))

/-- A cutter with the configuration filter between other rules. -/
def configCutter (U : Unmarshal) (P : Protobuf) (ch : CryptoHelper) (choices : List ℕ)
    (batchSize : ℕ) (before after : List (Rule T)) : Cutter (ConfigurationManager × T) where
  unmarshal := U
  batchSize := batchSize
  filters := before.map Rule.onRest ++ (configFilter U P ch choices).onManager ::
    after.map Rule.onRest
  validate := fun config s =>
    (outcome (validate P ch choices config) s.1).map fun (err, cm) => (err, (cm, s.2))

/-- The messages of the appended batches, with what the filters said of them. -/
def Solo.emitted {S : Type} (c : Cutter S) (env : S) (events : List SoloEvent) (s : Solo S) :
    List (Envelope × Action) :=
  (outputs (Solo.step c) (Solo.answers c) (.start env) events).take s.appended.flatten.length

/-- The reconfigurations among messages. -/
def reconfigurations (U : Unmarshal) (messages : List (Envelope × Action)) :
    List ConfigurationEnvelope :=
  messages.filterMap fun (msg, action) =>
    if action = .reconfigure then configurationOf U msg else none

/-- The envelopes can be applied in order. -/
def Replays (P : Protobuf) (ch : CryptoHelper) (choices : List ℕ) (cm : ConfigurationManager) :
    List ConfigurationEnvelope → Prop
  | [] => True
  | config :: configs => match outcome (apply P ch choices config) cm with
    | some (none, cm') => Replays P ch choices cm' configs
    | _ => False

theorem replays_cons {P : Protobuf} {ch : CryptoHelper} {choices : List ℕ}
    {cm : ConfigurationManager} {config : ConfigurationEnvelope} :
    Replays P ch choices cm (config :: configs) ↔
      ∃ cm', outcome (apply P ch choices config) cm = some (none, cm') ∧
        Replays P ch choices cm' configs := by
  rw [Replays]
  split
  · rename_i cm' houtcome
    simp [houtcome]
  · rename_i hother
    simp only [false_iff, not_exists, not_and]
    exact fun cm' houtcome => absurd houtcome (hother cm')

instance decidableReplays (P : Protobuf) (ch : CryptoHelper) (choices : List ℕ) :
    (cm : ConfigurationManager) → (configs : List ConfigurationEnvelope) →
      Decidable (Replays P ch choices cm configs)
  | _, [] => .isTrue trivial
  | cm, config :: configs =>
    match h : outcome (apply P ch choices config) cm with
    | some (none, cm') =>
      have := decidableReplays P ch choices cm' configs
      decidable_of_iff (Replays P ch choices cm' configs) (by rw [Replays, h])
    | some (some _, _) => .isFalse (by rw [Replays, h]; exact id)
    | none => .isFalse (by rw [Replays, h]; exact id)

variable {U : Unmarshal} {P : Protobuf} {ch : CryptoHelper} {choices : List ℕ} {batchSize : ℕ}
  {before after : List (Rule T)} {cm cm' : ConfigurationManager} {t : T}
  {config : ConfigurationEnvelope} {err : Option ConfigError}

/-! ### The manager does not change -/

theorem outcome_validate_eq_some (h : cm.Idle)
    (houtcome : outcome (validate P ch choices config) cm = some (err, cm')) :
    cm' = cm ∧ (err = none → Accepts P ch cm config ∧ ¬ Panics P ch cm config) := by
  have hends : Ends (validate P ch choices config) cm _ _ := validate_ends h
  rcases outcome_eq_some houtcome with ⟨rfl, hrun⟩ | ⟨e, rfl, hrun⟩
  · obtain ⟨rfl, haccepts⟩ := hends.of_run_eq_ok hrun
    exact ⟨rfl, fun _ => haccepts⟩
  · exact ⟨(hends.of_run_eq_error hrun).2 e rfl, by simp⟩

/-- A rule that leaves the manager as it is. -/
def Keeps (cm : ConfigurationManager) (rule : Rule (ConfigurationManager × T)) : Prop :=
  ∀ message t action s, rule message (cm, t) = some (action, s) → s.1 = cm

theorem keeps_onRest (rule : Rule T) : Keeps cm rule.onRest := by
  intro message t action s h
  obtain ⟨⟨action', t'⟩, -, h⟩ := Option.map_eq_some_iff.mp h
  cases h
  rfl

theorem keeps_configFilter (h : cm.Idle) :
    Keeps (T := T) cm (configFilter U P ch choices).onManager := by
  intro message t action s hrule
  obtain ⟨⟨action', cm'⟩, hfilter, heq⟩ := Option.map_eq_some_iff.mp hrule
  cases heq
  unfold configFilter at hfilter
  split at hfilter
  · cases hfilter
    rfl
  split_ifs at hfilter
  · cases hfilter
    rfl
  split at hfilter
  · cases hfilter
    rfl
  obtain ⟨⟨err, cm''⟩, houtcome, hfilter⟩ := Option.bind_eq_some_iff.mp hfilter
  have hsame := (outcome_validate_eq_some h houtcome).1
  dsimp only at hfilter
  split_ifs at hfilter
  · cases hfilter
    exact hsame
  · cases hfilter
    exact hsame

theorem keeps_apply {rules : List (Rule (ConfigurationManager × T))}
    (h : ∀ rule ∈ rules, Keeps cm rule) : Keeps cm (RuleSet.apply rules) := by
  induction rules with
  | nil =>
    intro message t action s hrule
    cases hrule
    rfl
  | cons rule _ ih =>
    intro message t action s hrule
    obtain ⟨⟨action', s'⟩, hfirst, hrest⟩ := Option.bind_eq_some_iff.mp hrule
    obtain ⟨cm', t'⟩ := s'
    obtain rfl : cm' = cm := h rule mem_cons_self message t action' _ hfirst
    cases action' with
    | forward => exact ih (fun r hr => h r (mem_cons_of_mem _ hr)) message t' action s hrest
    | accept | reconfigure | reject =>
      cases hrest
      rfl

/-- The cutter asks the manager `cm` and leaves it as it is. -/
structure Asks (P : Protobuf) (ch : CryptoHelper) (cm : ConfigurationManager)
    (c : Cutter (ConfigurationManager × T)) : Prop where
  filters : Keeps cm (RuleSet.apply c.filters)
  validate : ∀ config t err s, c.validate config (cm, t) = some (err, s) →
    s.1 = cm ∧ (err = none → Accepts P ch cm config ∧ ¬ Panics P ch cm config)

theorem asks_configCutter (h : cm.Idle) :
    Asks P ch cm (configCutter U P ch choices batchSize before after) where
  filters := by
    apply keeps_apply
    intro rule hrule
    simp only [configCutter, mem_append, mem_map, mem_cons] at hrule
    obtain ⟨rule, -, rfl⟩ | rfl | ⟨rule, -, rfl⟩ := hrule
    · exact keeps_onRest rule
    · exact keeps_configFilter h
    · exact keeps_onRest rule
  validate := by
    intro config t err s hvalidate
    obtain ⟨⟨err', cm'⟩, houtcome, heq⟩ := Option.map_eq_some_iff.mp hvalidate
    cases heq
    exact outcome_validate_eq_some h houtcome

/-! ### What is included is valid for the first manager -/

section Run

variable {c : Cutter (ConfigurationManager × T)} {events : List SoloEvent} {event : SoloEvent}
  {s s' : Solo (ConfigurationManager × T)} {r r' : Receiver (ConfigurationManager × T)}
  {msg : Envelope} {batches : List (List Envelope)} {ok : Bool}

/-- A message, with what the filters said of it: a reconfiguration is valid for the manager. -/
def Valid (U : Unmarshal) (P : Protobuf) (ch : CryptoHelper) (cm : ConfigurationManager)
    (tagged : Envelope × Action) : Prop :=
  tagged.2 = .reconfigure → ∃ config, configurationOf U tagged.1 = some config ∧
    Accepts P ch cm config ∧ ¬ Panics P ch cm config

theorem ordered_keeps (h : Asks P ch cm c) (hr : r.env.1 = cm)
    (hordered : ordered c r msg = some ((batches, ok), r')) : r'.env.1 = cm ∧
      ∀ action env, RuleSet.apply c.filters msg r.env = some (action, env) → ok = true →
        Valid c.unmarshal P ch cm (msg, action) := by
  obtain ⟨action, ⟨cm', t⟩, happly, -, hconsults⟩ := ordered_cuts hordered
  have hr' : r.env = (cm, r.env.2) := by rw [← hr]
  obtain rfl : cm' = cm := h.filters msg r.env.2 action (cm', t) (hr' ▸ happly)
  have haction : ∀ action' env, RuleSet.apply c.filters msg r.env = some (action', env) →
      action' = action := by
    intro action' env happly'
    rw [happly] at happly'
    cases happly'
    rfl
  generalize henv : r'.env = env' at hconsults
  cases hconsults with
  | pass hpass =>
    refine ⟨rfl, fun action' env happly' hok haction' => ?_⟩
    rw [haction action' env happly'] at haction'
    cases (hpass haction').symm.trans hok
  | @validate config err _ _ hconfig hvalidate hiff =>
    obtain ⟨hsame, hvalid⟩ := h.validate config t err env' hvalidate
    exact ⟨hsame, fun _ _ _ hok _ => ⟨config, hconfig, hvalid (hiff.mp hok)⟩⟩

theorem step_keeps (h : Asks P ch cm c) (hs : s.receiver.env.1 = cm)
    (hstep : s.step c event = some s') : s'.receiver.env.1 = cm ∧
      ∀ tagged ∈ s.answers c event, Valid c.unmarshal P ch cm tagged := by
  cases event with
  | timeout =>
    obtain ⟨-, rfl⟩ := step_timeout hstep
    exact ⟨hs, by simp [answers]⟩
  | message =>
    obtain ⟨batches, ok, receiver, hordered, rfl⟩ := step_message hstep
    obtain ⟨action, env, happly, -⟩ := ordered_cuts hordered
    obtain ⟨hreceiver, hvalid⟩ := ordered_keeps h hs hordered
    rw [answers_message happly hordered]
    refine ⟨hreceiver, fun tagged htagged => ?_⟩
    split_ifs at htagged with hok
    · rw [mem_singleton.mp htagged]
      exact hvalid action env happly hok
    · cases htagged

theorem run_keeps (h : Asks P ch cm c)
    (hrun : runSteps (step c) (.start (cm, t)) events = some s) : s.receiver.env.1 = cm ∧
      ∀ tagged ∈ outputs (step c) (answers c) (.start (cm, t)) events,
        Valid c.unmarshal P ch cm tagged := by
  have halong : Along (step c) (fun _ _ => True) (.start (cm, t)) events :=
    along_of_forall fun _ _ => trivial
  refine runSteps_induction (P := fun events s => s.receiver.env.1 = cm ∧
    ∀ tagged ∈ outputs (step c) (answers c) (.start (cm, t)) events,
      Valid c.unmarshal P ch cm tagged) ⟨rfl, by simp⟩ ?_ halong hrun
  rintro done event s₁ s₂ hdone - ⟨hs₁, hvalid⟩ hstep
  obtain ⟨hs₂, hanswers⟩ := step_keeps h hs₁ hstep
  rw [outputs_concat hdone hstep]
  refine ⟨hs₂, fun tagged htagged => ?_⟩
  obtain htagged | htagged := mem_append.mp htagged
  · exact hvalid tagged htagged
  · exact hanswers tagged htagged

end Run

/-! ### Replaying -/

/-- An accepted envelope can be applied; then none of those accepted before is accepted. -/
theorem apply_of_accepts (h : cm.Idle) (haccepts : Accepts P ch cm config)
    (hpanics : ¬ Panics P ch cm config) : ∃ cm' items,
      outcome (apply P ch choices config) cm = some (none, cm') ∧
        Updated P cm config items cm' := by
  have hends : Ends (apply P ch choices config) cm _ _ := apply_ends h
  unfold outcome
  split <;> rename_i hrun
  · obtain ⟨-, items, -, hupdated⟩ := hends.of_run_eq_ok hrun
    exact ⟨_, items, rfl, hupdated⟩
  · exact absurd haccepts (hends.of_run_eq_error hrun).1.1
  · exact absurd (hends.of_run_eq_error hrun).1 hpanics

theorem Accepts.sequence (h : cm.Idle) (haccepts : Accepts P ch cm config) :
    ∃ chainID, computeChainIDAndSequence P config = .ok (chainID, cm.sequence + 1) := by
  obtain ⟨configMap, s, hrun, -⟩ := haccepts
  obtain ⟨items, hchecked, -⟩ := (processItems_ends h config).of_run_eq_ok hrun
  obtain ⟨chainID, hcompute, -⟩ := hchecked.compute
  exact ⟨chainID, hcompute⟩

theorem replays_iff_length_le_one (h : cm.Idle)
    (hvalid : ∀ config ∈ configs, Accepts P ch cm config ∧ ¬ Panics P ch cm config) :
    Replays P ch choices cm configs ↔ configs.length ≤ 1 := by
  have happly : ∀ config ∈ configs, ∃ cm' items,
      outcome (apply P ch choices config) cm = some (none, cm') ∧ Updated P cm config items cm' :=
    fun config hmem => apply_of_accepts h (hvalid config hmem).1 (hvalid config hmem).2
  match configs with
  | [] => simp [Replays]
  | [config] =>
    obtain ⟨cm', items, houtcome, -⟩ := happly config (by simp)
    exact iff_of_true (replays_cons.mpr ⟨cm', houtcome, trivial⟩) le_rfl
  | first :: second :: rest =>
    refine iff_of_false ?_ (by simp)
    rw [replays_cons]
    rintro ⟨cm₁, hfirst, hrest⟩
    obtain ⟨cm₂, hsecond, -⟩ := replays_cons.mp hrest
    obtain ⟨cm', items, houtcome, hupdated⟩ := happly first (by simp)
    rw [hfirst] at houtcome
    cases houtcome
    -- the second envelope has the sequence number that the manager now has
    have hends : Ends (apply P ch choices second) cm₁ _ _ := apply_ends hupdated.idle
    rcases outcome_eq_some hsecond with ⟨-, hrun⟩ | ⟨e, he, -⟩
    · obtain ⟨chainID, hcompute⟩ :=
        Accepts.sequence hupdated.idle (hends.of_run_eq_ok hrun).1.1
      obtain ⟨chainID', hcompute'⟩ := Accepts.sequence h (hvalid second (by simp)).1
      rw [hcompute, hupdated.sequence] at hcompute'
      simp at hcompute'
    · cases he

theorem reconfigurations_append (messages messages' : List (Envelope × Action)) :
    reconfigurations U (messages ++ messages') =
      reconfigurations U messages ++ reconfigurations U messages' :=
  filterMap_append

variable {messages : List (Envelope × Action)}

theorem reconfigurations_eq_nil (h : ∀ msg, (msg, .reconfigure) ∉ messages) :
    reconfigurations U messages = [] := by
  rw [reconfigurations, filterMap_eq_nil_iff]
  rintro ⟨msg, action⟩ hmem
  apply if_neg
  rintro rfl
  exact h msg hmem

theorem length_reconfigurations (h : ∀ tagged ∈ messages, Valid U P ch cm tagged) :
    (reconfigurations U messages).length =
      messages.countP fun tagged => tagged.2 = .reconfigure := by
  induction messages with
  | nil => rfl
  | cons tagged _ ih =>
    obtain ⟨msg, action⟩ := tagged
    have hrest := ih fun tagged htagged => h tagged (mem_cons_of_mem _ htagged)
    rw [← singleton_append, reconfigurations_append, length_append, hrest, countP_append]
    by_cases haction : action = .reconfigure
    · obtain ⟨config, hconfig, -⟩ := h (msg, action) mem_cons_self haction
      simp [reconfigurations, haction, hconfig]
    · simp [reconfigurations, haction]

theorem accepts_of_mem_reconfigurations (h : ∀ tagged ∈ messages, Valid U P ch cm tagged)
    (hmem : config ∈ reconfigurations U messages) :
    Accepts P ch cm config ∧ ¬ Panics P ch cm config := by
  obtain ⟨⟨msg, action⟩, hmsg, heq⟩ := mem_filterMap.mp hmem
  dsimp only at heq
  split_ifs at heq with haction
  obtain ⟨config', hconfig', hvalid⟩ := h (msg, action) hmsg haction
  rw [hconfig'] at heq
  cases heq
  exact hvalid

theorem reconfigurations_emitted {S : Type} {c : Cutter S} {env : S} {events : List SoloEvent}
    {s : Solo S} (hrun : runSteps (step c) (.start env) events = some s) :
    reconfigurations U (emitted c env events s) =
      reconfigurations U (outputs (step c) (answers c) (.start env) events) := by
  obtain ⟨batches, pending, h⟩ := Batched.run hrun
  have hlength : s.appended.flatten.length = batches.flatten.length := by
    rw [← h.appended, ← map_flatten, length_map]
  rw [emitted, ← h.included, hlength, take_left, reconfigurations_append,
    reconfigurations_eq_nil fun _ => h.not_reconfigure, append_nil]

/-- Configuration transactions can be applied in order exactly if at most one was included. -/
theorem replays_iff {choices' : List ℕ} {events : List SoloEvent}
    {s : Solo (ConfigurationManager × T)} (hreached : Reached P ch cm)
    (hrun : runSteps (Solo.step (configCutter U P ch choices batchSize before after))
      (.start (cm, t)) events = some s) :
    Replays P ch choices' cm (reconfigurations U
      (Solo.emitted (configCutter U P ch choices batchSize before after) (cm, t) events s)) ↔
    (outputs (Solo.step (configCutter U P ch choices batchSize before after))
      (Solo.answers (configCutter U P ch choices batchSize before after)) (.start (cm, t))
      events).countP (fun tagged => tagged.2 = .reconfigure) ≤ 1 := by
  have hidle := hreached.accepted.mirrored.idle
  obtain ⟨-, hvalid⟩ := run_keeps (asks_configCutter hidle) hrun
  rw [reconfigurations_emitted hrun, ← length_reconfigurations hvalid]
  exact replays_iff_length_le_one hidle fun config => accepts_of_mem_reconfigurations hvalid

/-- The payload of a configuration transaction is the sequence number of `twoItems`. -/
def exampleUnmarshal : Unmarshal where
  payload data := some ⟨some ⟨some ⟨configurationTransaction, []⟩⟩, data⟩
  configurationEnvelope
    | [m] => some (twoItems m)
    | _ => none

/-- Batches of two messages, where the configuration filter decides and what it forwards is
accepted. -/
def exampleConfigCutter : Cutter (ConfigurationManager × Unit) :=
  configCutter exampleUnmarshal byteFormat (fun _ _ _ => true) [] 2 [] [acceptRule]

theorem replays_once : ∃ cm,
    managerAfter byteFormat (fun _ _ _ => true) [] (twoItems 0) [] = some cm ∧
      ∃ s, runSteps (Solo.step exampleConfigCutter) (.start (cm, ()))
          [.message ⟨some [1], []⟩] = some s ∧
        Replays byteFormat (fun _ _ _ => true) [] cm (reconfigurations exampleUnmarshal
          (Solo.emitted exampleConfigCutter (cm, ()) [.message ⟨some [1], []⟩] s)) := by
  refine exists_of_checked (fun cm => ∃ s, runSteps (Solo.step exampleConfigCutter)
      (.start (cm, ())) [.message ⟨some [1], []⟩] = some s ∧
    (outputs (Solo.step exampleConfigCutter) (Solo.answers exampleConfigCutter)
      (.start (cm, ())) [.message ⟨some [1], []⟩]).countP
        (fun tagged => tagged.2 = .reconfigure) ≤ 1) (by decide +kernel) ?_
  rintro cm hcm ⟨s, hrun, hcount⟩
  exact ⟨s, hrun, (replays_iff ⟨[], twoItems 0, [], hcm⟩ hrun).mpr hcount⟩

/-- Two copies of a configuration transaction are emitted, and only one can be applied. -/
theorem not_replays_twice : ∃ cm,
    managerAfter byteFormat (fun _ _ _ => true) [] (twoItems 0) [] = some cm ∧
      ∃ s, runSteps (Solo.step exampleConfigCutter) (.start (cm, ()))
          [.message ⟨some [1], []⟩, .message ⟨some [1], []⟩] = some s ∧
        ¬ Replays byteFormat (fun _ _ _ => true) [] cm (reconfigurations exampleUnmarshal
          (Solo.emitted exampleConfigCutter (cm, ())
            [.message ⟨some [1], []⟩, .message ⟨some [1], []⟩] s)) := by
  decide +kernel

end Fabric.Orderer
