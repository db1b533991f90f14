import Fabric.Ledger.Calls

/-!
# A transaction manager and its simulators

Clients open simulators on a transaction manager, call them and take their results; blocks
of such results are validated, prepared and committed. A simulator holds the read lock
until it is done, and a commit takes the write lock, so that it waits until no simulator is
open.
-/

namespace Fabric.Ledger

open Fabric.Common List LockBasedTxSimulator

/-- Results of a simulation, with the values that the simulator found in storage. -/
structure SimulationResults where
  bytes : Bytes
  seen : List (Key × Option Bytes)
deriving DecidableEq

/-- The values that a simulator found in storage. -/
def LockBasedTxSimulator.seen (s : LockBasedTxSimulator) : List (Key × Option Bytes) :=
  s.rwMap.toList.flatMap fun e => e.2.readMap.toList.map fun c => ((e.1, c.1), c.2.cachedValue)

/-- A transaction manager, its simulators and their results, and the transactions found valid in the
committed blocks and in the prepared one. -/
structure TxSystem (τ : Type) where
  txmgr : LockBasedTxMgr
  simulators : List LockBasedTxSimulator
  results : List SimulationResults
  committed : List τ
  prepared : List τ

inductive Action (τ : Type)
  | newTxSimulator
  | call (i : ℕ) (op : Op)
  | getTxSimulationResults (i : ℕ) (choices : List ℕ)
  | done (i : ℕ)
  | validateAndPrepare (block : Block τ)
  | commit
  | rollback

namespace TxSystem

variable {τ : Type} (E : τ → Option Bytes)

def init (τ : Type) : TxSystem τ := ⟨newLockBasedTxMgr, [], [], [], []⟩

/-- What an action does; it does not happen if it has to wait or if the process stops. -/
def step (sys : TxSystem τ) : Action τ → Option (TxSystem τ)
  | .newTxSimulator => some { sys with simulators := sys.simulators ++ [newTxSimulator] }
  | .call i op =>
    sys.simulators[i]?.bind fun s =>
      match (op.run sys.txmgr.db).run s with
      | .ok _ s' => some { sys with simulators := sys.simulators.set i s' }
      | .error _ _ => none
  | .getTxSimulationResults i choices =>
    sys.simulators[i]?.bind fun s =>
      match s.getTxSimulationResults choices with
      | .ok bytes => some { sys with results := sys.results ++ [⟨bytes, s.seen⟩] }
      | .error _ => none
  | .done i =>
    sys.simulators[i]?.bind fun s =>
      if s.isDone then none
      else some { sys with simulators := sys.simulators.set i { s with isDone := true } }
  | .validateAndPrepare block =>
    match (Ledger.validateAndPrepare E block).run sys.txmgr with
    | .ok (valid, _) txmgr => some { sys with txmgr, prepared := valid.transactions }
    | .error _ txmgr => some { sys with txmgr, prepared := [] }
  | .commit =>
    if sys.simulators.all LockBasedTxSimulator.isDone then
      match sys.txmgr.commit with
      | .ok txmgr =>
        some { sys with txmgr, committed := sys.committed ++ sys.prepared, prepared := [] }
      | .error _ => none
    else none
  | .rollback => some { sys with txmgr := sys.txmgr.rollback, prepared := [] }

/-- Clients use namespaces without separator, and blocks hold results of simulations. -/
def Admits (sys : TxSystem τ) : Action τ → Prop
  | .call _ op => NulFree op.nameSpace
  | .validateAndPrepare block =>
    ∀ env ∈ block.transactions, ∃ r ∈ sys.results, E env = some r.bytes
  | _ => True

instance (sys : TxSystem τ) (a : Action τ) : Decidable (sys.Admits E a) := by
  cases a <;> unfold Admits <;> infer_instance

/-- A sequence of actions that are admitted. -/
def run (sys : TxSystem τ) : List (Action τ) → Option (TxSystem τ)
  | [] => some sys
  | a :: as => if sys.Admits E a then (sys.step E a).bind fun sys' => sys'.run as else none

end TxSystem

/-! ### Preparing a block -/

section Prepare

variable {τ : Type} (E : τ → Option Bytes)

/-- The reads of the transaction have the versions that the log gives them. -/
def ReadsAt (log : List (Key × Option Bytes)) (txRWSet : TxReadWriteSet) : Prop :=
  ∀ e ∈ txRWSet.keyReads, e.2 = writeCount log e.1 % 2 ^ 64

/-- The transactions, valid after the writes of the log, do not read what an earlier one
writes. -/
def ValidAfter (log : List (Key × Option Bytes)) (valid : List τ) : Prop :=
  ∀ pre env post, valid = pre ++ env :: post → ∃ txRWSet, readWriteSet E env = .ok txRWSet ∧
    ReadsAt log txRWSet ∧ ∀ e ∈ txRWSet.keyReads, e.1 ∉ (pre.flatMap (envWrites E)).map Prod.fst

/-- The transactions found valid do not read what was written, in namespaces without separator. -/
structure Preparing (log : List (Key × Option Bytes)) (db : DB) (valid : List τ)
    (txmgr : LockBasedTxMgr) : Prop where
  eq : txmgr = preparing E db valid
  nulFree : ∀ w ∈ valid.flatMap (envWrites E), Ledger.NulFree w.1.1
  valid : ValidAfter E log valid

variable {E} {log : List (Key × Option Bytes)} {db : DB} {txmgr : LockBasedTxMgr}
  {txRWSet : TxReadWriteSet}

theorem ValidAfter.concat {valid : List τ} {env : τ}
    (h : ValidAfter E log valid) (hrw : readWriteSet E env = .ok txRWSet)
    (hreads : ReadsAt log txRWSet)
    (hfresh : ∀ e ∈ txRWSet.keyReads, e.1 ∉ (valid.flatMap (envWrites E)).map Prod.fst) :
    ValidAfter E log (valid ++ [env]) := by
  intro pre env' post heq
  rcases eq_nil_or_concat post with rfl | ⟨post, last, rfl⟩
  · obtain ⟨rfl, hlast⟩ := append_inj' heq rfl
    cases hlast
    exact ⟨txRWSet, hrw, hreads, hfresh⟩
  · rw [concat_eq_append, ← cons_append, ← append_assoc] at heq
    exact h pre env' post (append_inj' heq rfl).1

theorem prepareTx_preparing (hdb : Represents log db) {env : τ}
    (hrw : readWriteSet E env = .ok txRWSet) (hnul : txRWSet.NulFree)
    {acc : List τ × List InvalidTransaction}
    (h : Preparing E log db acc.1 txmgr) :
    Ends (prepareTx E acc env) txmgr (fun acc' => Preparing E log db acc'.1) fun _ _ => False := by
  have heq := h.eq
  subst heq
  unfold prepareTx
  rw [hrw]
  simp only [ends_bind, ends_get, ends_ite, preparing_addWriteSetToBatch hrw]
  refine ⟨fun hvalid => ⟨rfl, fun w hw => ?_, ?_⟩, fun _ => h⟩
  · rw [flatMap_append, flatMap_singleton] at hw
    rcases mem_append.mp hw with hw | hw
    · exact h.nulFree w hw
    · rw [envWrites, hrw] at hw
      exact hnul.keyWrites hw
  · rw [validateTx_iff] at hvalid
    refine h.valid.concat hrw (fun e he => ?_) fun e he hmem => ?_
    · have hversion := (hvalid e he).2
      rw [preparing, hdb e.1 (hnul.keyReads he)] at hversion
      exact hversion.symm
    · obtain ⟨w, hw, hkey⟩ := mem_map.mp hmem
      exact (hvalid e he).1 _ rfl (mem_updates.mpr ⟨w, hw, by rw [hkey]⟩)

theorem validateAndPrepare_preparing (hdb : Represents log db) {block : Block τ}
    (hblock : ∀ env ∈ block.transactions, ∃ txRWSet, readWriteSet E env = .ok txRWSet ∧
      txRWSet.NulFree) (h : txmgr.db = db) :
    Ends (validateAndPrepare E block) txmgr
      (fun out => Preparing E log db out.1.transactions) fun _ _ => False := by
  unfold validateAndPrepare
  rw [ends_bind, ends_modify, ends_bind]
  have hstart : Preparing E log db ([]) { txmgr with updateSet := some ∅ } :=
    ⟨by rw [h]; rfl, by simp, fun pre env post heq => by simp at heq⟩
  have hfold := Ends.foldlM
    (fun env henv acc txmgr hacc => by
      obtain ⟨txRWSet, hrw, hnul⟩ := hblock env henv
      exact prepareTx_preparing hdb hrw hnul hacc) (c := ([], [])) hstart
  exact hfold.imp fun acc txmgr' hacc => hacc

end Prepare

/-! ### The invariant -/

variable {s : LockBasedTxSimulator}

section Invariant

variable {τ : Type} {E : τ → Option Bytes}

/-- The simulator has made calls on the database, in namespaces without separator. -/
def Observes (db : DB) (s : LockBasedTxSimulator) : Prop :=
  ∃ ops, Simulated db ops s ∧ ∀ op ∈ ops, NulFree op.nameSpace

/-- The results are those of a simulation after the writes of the log. -/
def SimulationResults.At (log : List (Key × Option Bytes)) (r : SimulationResults) : Prop :=
  ∃ txRWSet, TxReadWriteSet.unmarshal r.bytes = .ok txRWSet ∧ txRWSet.NulFree ∧
    ReadsAt log txRWSet ∧ ∀ e ∈ r.seen, e.2 = replay log (fun _ => none) e.1 ∧
      e.1 ∈ txRWSet.keyReads.map Prod.fst

theorem LockBasedTxSimulator.mem_seen {e : Key × Option Bytes} :
    e ∈ s.seen ↔ ∃ cache, s.read e.1 = some cache ∧ cache.cachedValue = e.2 := by
  simp only [seen, mem_flatMap, mem_map, Prod.exists,
    Std.ExtTreeMap.mem_toList_iff_getElem?_eq_some]
  constructor
  · rintro ⟨ns, nsRWs, hns, key, cache, hcache, rfl⟩
    exact ⟨cache, by simp [read, hns, hcache], rfl⟩
  · rintro ⟨cache, hread, hvalue⟩
    obtain ⟨nsRWs, hns, hcache⟩ := Option.bind_eq_some_iff.mp hread
    exact ⟨e.1.1, nsRWs, hns, e.1.2, cache, hcache, by rw [hvalue]⟩

theorem Observes.results {log : List (Key × Option Bytes)} {db : DB} {choices : List ℕ}
    {bytes : Bytes} (hdb : Represents log db) (h : Observes db s)
    (hresults : s.getTxSimulationResults choices = .ok bytes) :
    SimulationResults.At log ⟨bytes, s.seen⟩ := by
  obtain ⟨ops, hsim, hnul⟩ := h
  have htouched {ns : Bytes} (hns : ns ∈ s.rwMap) : NulFree ns := by
    obtain ⟨op, hop, rfl⟩ := mem_map.mp ((hsim.touched ns).mp hns)
    exact hnul op hop
  have hread {k : Key} (hk : k ∈ storageReads ops) : NulFree k.1 := by
    apply htouched
    apply mem_of_read
    rw [hsim.read, if_pos hk]
    rfl
  unfold getTxSimulationResults at hresults
  simp only at hresults
  split_ifs at hresults with hsize
  cases hresults
  refine ⟨_, TxReadWriteSet.unmarshal_marshal hsize (hsim.consistent choices),
    fun nsRW hns => htouched (mem_getTxReadWriteSet hns).1, fun e he => ?_, fun e he => ?_⟩
  · obtain ⟨hmem, hversion⟩ := hsim.mem_keyReads.mp he
    rw [hversion, hdb e.1 (hread hmem)]
  · obtain ⟨cache, hcache, hvalue⟩ := mem_seen.mp he
    rw [hsim.read] at hcache
    split_ifs at hcache with hmem
    cases hcache
    constructor
    · rw [← hvalue]
      exact congrArg Prod.fst (hdb e.1 (hread hmem))
    · exact mem_map.mpr ⟨_, hsim.mem_keyReads.mpr ⟨hmem, rfl⟩, rfl⟩

namespace TxSystem

variable (E)

/-- The writes of the committed transactions. -/
def log (sys : TxSystem τ) : List (Key × Option Bytes) := sys.committed.flatMap (envWrites E)

/-- Database and update set hold the valid writes. What simulators and results say was true of a
committed state, the present one for an open simulator. -/
structure Sound (sys : TxSystem τ) : Prop where
  represents : Represents (sys.log E) sys.txmgr.db
  simulators : ∀ s ∈ sys.simulators, ∃ log db, log <+: sys.log E ∧ Represents log db ∧
    Observes db s ∧ (s.isDone = false → log = sys.log E ∧ db = sys.txmgr.db)
  results : ∀ r ∈ sys.results, ∃ log, log <+: sys.log E ∧ r.At log
  updates : ∀ u, sys.txmgr.updateSet = some u →
    u = Ledger.updates sys.txmgr.db (sys.prepared.flatMap (envWrites E))
  nulFree : ∀ w ∈ sys.prepared.flatMap (envWrites E), NulFree w.1.1
  valid : ValidAfter E (sys.log E) sys.prepared

variable {E} {sys sys' : TxSystem τ}

theorem validAfter_nil (log : List (Key × Option Bytes)) : ValidAfter E log [] := by
  intro pre env post heq
  simp at heq

theorem sound_init : (init τ).Sound E where
  represents := represents_empty
  simulators := by simp [init]
  results := by simp [init]
  updates := by simp [init, newLockBasedTxMgr]
  nulFree := by simp [init]
  valid := validAfter_nil _

section

variable (h : sys.Sound E)
include h

theorem Sound.setSimulator {i : ℕ} (hs : ∃ log db, log <+: sys.log E ∧ Represents
    log db ∧ Observes db s ∧ (s.isDone = false → log = sys.log E ∧ db = sys.txmgr.db)) :
    Sound E { sys with simulators := sys.simulators.set i s } where
  represents := h.represents
  simulators s' hs' := by
    rcases mem_or_eq_of_mem_set hs' with hold | rfl
    · exact h.simulators s' hold
    · exact hs
  results := h.results
  updates := h.updates
  nulFree := h.nulFree
  valid := h.valid

theorem Sound.call {i : ℕ} {op : Op} {s' : LockBasedTxSimulator}
    (hnul : NulFree op.nameSpace) (hs : sys.simulators[i]? = some s)
    (hrun : (op.run sys.txmgr.db).run s = .ok () s') :
    Sound E { sys with simulators := sys.simulators.set i s' } := by
  have hdone : s.isDone = false := by
    by_contra hdone
    exact (Op.run_of_isDone (Bool.not_eq_false _ ▸ hdone) op).of_run_eq_ok hrun
  obtain ⟨log, db, hlog, hdb, ⟨ops, hsim, hops⟩, hopen⟩ :=
    h.simulators s (mem_of_getElem? hs)
  obtain ⟨rfl, rfl⟩ := hopen hdone
  obtain ⟨hsim', hdone'⟩ := (op.run_simulated hsim hdone).of_run_eq_ok hrun
  apply h.setSimulator
  refine ⟨_, _, hlog, hdb, ⟨_, hsim', fun op' hop' => ?_⟩, fun _ => ⟨rfl, rfl⟩⟩
  rcases mem_append.mp hop' with hop' | hop'
  · exact hops op' hop'
  · rwa [mem_singleton.mp hop']

theorem Sound.readWriteSet {env : τ} {r : SimulationResults}
    (hr : r ∈ sys.results) (henv : E env = some r.bytes) :
    ∃ txRWSet, readWriteSet E env = .ok txRWSet ∧ txRWSet.NulFree := by
  obtain ⟨log, -, txRWSet, hrw, hnul, -⟩ := h.results r hr
  refine ⟨txRWSet, ?_, hnul⟩
  rw [Ledger.readWriteSet, henv]
  simp [hrw, Except.mapError]

theorem Sound.prepare {block : Block τ} (hadmits : sys.Admits E (.validateAndPrepare block)) :
    Ends (validateAndPrepare E block) sys.txmgr
      (fun out txmgr => Sound E { sys with txmgr, prepared := out.1.transactions })
      fun _ _ => False := by
  have hblock : ∀ env ∈ block.transactions, ∃ txRWSet,
      Ledger.readWriteSet E env = .ok txRWSet ∧ txRWSet.NulFree := by
    intro env henv
    obtain ⟨r, hr, hbytes⟩ := hadmits env henv
    exact h.readWriteSet hr hbytes
  apply (validateAndPrepare_preparing h.represents hblock rfl).imp
  intro out txmgr hprep
  have heq := hprep.eq
  subst heq
  exact ⟨h.represents, h.simulators, h.results, fun u hu => (Option.some.inj hu).symm,
    hprep.nulFree, hprep.valid⟩

theorem Sound.commit (hdone : ∀ s ∈ sys.simulators, s.isDone = true)
    {u : UpdateSet} (hu : sys.txmgr.updateSet = some u) :
    Sound E ⟨⟨u.writeBatch sys.txmgr.db, none⟩, sys.simulators, sys.results,
      sys.committed ++ sys.prepared, []⟩ := by
  have hlog : (sys.committed ++ sys.prepared).flatMap (envWrites E) =
      sys.log E ++ sys.prepared.flatMap (envWrites E) := flatMap_append
  constructor <;> simp only [log, hlog]
  · rw [h.updates u hu]
    exact h.represents.commit h.nulFree
  · intro s hs
    obtain ⟨log, db, hprefix, hdb, hobs, -⟩ := h.simulators s hs
    refine ⟨log, db, hprefix.trans (prefix_append _ _), hdb, hobs, fun hopen => ?_⟩
    rw [hdone s hs] at hopen
    cases hopen
  · intro r hr
    obtain ⟨log, hprefix, hat⟩ := h.results r hr
    exact ⟨log, hprefix.trans (prefix_append _ _), hat⟩
  · simp
  · simp
  · exact validAfter_nil _

theorem Sound.step {a : Action τ} (hadmits : sys.Admits E a)
    (hstep : sys.step E a = some sys') : sys'.Sound E := by
  cases a with
  | newTxSimulator =>
    cases hstep
    refine ⟨h.represents, fun s hs => ?_, h.results, h.updates, h.nulFree, h.valid⟩
    rcases mem_append.mp hs with hs | hs
    · exact h.simulators s hs
    · rw [mem_singleton.mp hs]
      exact ⟨_, _, prefix_rfl, h.represents, ⟨[], simulated_new, by simp⟩, fun _ => ⟨rfl, rfl⟩⟩
  | call =>
    obtain ⟨s, hs, hstep⟩ := Option.bind_eq_some_iff.mp hstep
    split at hstep
    · cases hstep
      exact h.call hadmits hs ‹_›
    · cases hstep
  | getTxSimulationResults =>
    obtain ⟨s, hs, hstep⟩ := Option.bind_eq_some_iff.mp hstep
    split at hstep
    · cases hstep
      obtain ⟨log, db, hlog, hdb, hobs, -⟩ := h.simulators s (mem_of_getElem? hs)
      refine ⟨h.represents, h.simulators, fun r hr => ?_, h.updates, h.nulFree, h.valid⟩
      rcases mem_append.mp hr with hr | hr
      · exact h.results r hr
      · rw [mem_singleton.mp hr]
        exact ⟨log, hlog, hobs.results hdb ‹_›⟩
    · cases hstep
  | done =>
    obtain ⟨s, hs, hstep⟩ := Option.bind_eq_some_iff.mp hstep
    split_ifs at hstep with hdone
    cases hstep
    obtain ⟨log, db, hlog, hdb, ⟨ops, hsim, hops⟩, -⟩ := h.simulators s (mem_of_getElem? hs)
    apply h.setSimulator
    exact ⟨log, db, hlog, hdb, ⟨ops, ⟨hsim.touched, hsim.read, hsim.write⟩, hops⟩,
      fun hopen => by cases hopen⟩
  | validateAndPrepare =>
    have hends := h.prepare hadmits
    simp only [TxSystem.step] at hstep
    split at hstep
    · cases hstep
      exact hends.of_run_eq_ok ‹_›
    · exact (hends.of_run_eq_error ‹_›).elim
  | commit =>
    simp only [TxSystem.step, LockBasedTxMgr.commit] at hstep
    split_ifs at hstep with hdone
    cases hu : sys.txmgr.updateSet with
    | none => simp [hu] at hstep
    | some =>
      simp only [hu, Option.some.injEq] at hstep
      rw [← hstep]
      exact h.commit (all_eq_true.mp hdone) hu
  | rollback =>
    cases hstep
    exact ⟨h.represents, h.simulators, h.results, fun u hu => (by cases hu), by simp,
      validAfter_nil _⟩

theorem sound_of_run {actions : List (Action τ)} (hrun : sys.run E actions = some sys') :
    sys'.Sound E := by
  induction actions generalizing sys with
  | nil =>
    cases hrun
    exact h
  | cons _ _ ih =>
    rw [run] at hrun
    split_ifs at hrun with hadmits
    obtain ⟨sys₁, hstep, hrest⟩ := Option.bind_eq_some_iff.mp hrun
    exact ih (h.step hadmits hstep) hrest

end

end TxSystem

end Invariant

end Fabric.Ledger
