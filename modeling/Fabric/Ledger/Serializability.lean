import Fabric.Ledger.TxSystem

/-!
# Serializability

What a valid transaction read during its simulation is what it would read if the valid
transactions were executed one after another: its read versions are still the committed
ones, and as long as no version has wrapped around, equal versions have equal values.
-/

namespace Fabric.Ledger

open Fabric.Common List LockBasedTxSimulator LockBasedTxMgr

variable {r : SimulationResults} {txRWSet : TxReadWriteSet}

/-- What results saw is the committed state, if versions agree and have not wrapped around. -/
theorem SimulationResults.At.seen_eq {old log : List (Key × Option Bytes)} (h : r.At old)
    (hold : old <+: log) (hversions : ∀ k, writeCount log k < 2 ^ 64)
    (hrw : TxReadWriteSet.unmarshal r.bytes = .ok txRWSet) (hreads : ReadsAt log txRWSet)
    {e : Key × Option Bytes} (he : e ∈ r.seen) :
    replay log (fun _ => none) e.1 = e.2 ∧ e.1 ∈ txRWSet.keyReads.map Prod.fst := by
  obtain ⟨rest, rfl⟩ := hold
  obtain ⟨txRWSet', hrw', -, hreads', hseen⟩ := h
  cases hrw.symm.trans hrw'
  obtain ⟨hvalue, hread⟩ := hseen e he
  refine ⟨?_, hread⟩
  obtain ⟨⟨k, version⟩, hmem, hk⟩ := mem_map.mp hread
  cases hk
  -- the version that was read is the number of writes, then and now
  have hcount : writeCount (old ++ rest) e.1 = writeCount old e.1 := by
    have hnow := hreads _ hmem
    rw [hreads' _ hmem, Nat.mod_eq_of_lt (hversions e.1), Nat.mod_eq_of_lt] at hnow
    · exact hnow.symm
    · refine Nat.lt_of_le_of_lt ?_ (hversions e.1)
      rw [writeCount_append]
      exact Nat.le_add_right _ _
  rw [hvalue, replay_append_of_writeCount_eq hcount]

namespace TxSystem

section Serializable

variable {τ : Type} {E : τ → Option Bytes} {sys : TxSystem τ}

/-- Committed values are those of the valid write sets one after another, and each valid transaction
finds, where its writes are applied, what its simulator found in storage. -/
structure Serializable (E : τ → Option Bytes) (sys : TxSystem τ) : Prop where
  committed : ∀ ns key, NulFree ns → (getCommittedValueAndVersion sys.txmgr.db ns key).1 =
    replay (sys.log E) (fun _ => none) (ns, key)
  prepared : ∀ pre env post, sys.prepared = pre ++ env :: post →
    ∀ r ∈ sys.results, E env = some r.bytes → ∀ e ∈ r.seen,
      replay (sys.log E ++ pre.flatMap (envWrites E)) (fun _ => none) e.1 = e.2

/-- Every run is serializable in which no key has been written `2 ^ 64` times. -/
theorem serializable_of_run {actions : List (Action τ)} (hrun : (init τ).run E actions = some sys)
    (hversions : ∀ k, writeCount (sys.log E) k < 2 ^ 64) : sys.Serializable E := by
  have h := sound_of_run sound_init hrun
  constructor
  · intro ns key hns
    exact congrArg Prod.fst (h.represents (ns, key) hns)
  · intro pre env post heq r hr henv e he
    obtain ⟨txRWSet, hrw, hreads, hfresh⟩ := h.valid pre env post heq
    have hunmarshal : TxReadWriteSet.unmarshal r.bytes = .ok txRWSet := by
      rw [readWriteSet, henv] at hrw
      cases hdec : TxReadWriteSet.unmarshal r.bytes with
      | ok => simpa [hdec, Except.mapError] using hrw
      | error => simp [hdec, Except.mapError] at hrw
    obtain ⟨old, hold, hat⟩ := h.results r hr
    obtain ⟨hvalue, hread⟩ := hat.seen_eq hold hversions hunmarshal hreads he
    -- no earlier transaction of the block writes the key
    obtain ⟨read, hmem, hkey⟩ := mem_map.mp hread
    have hcount := writeCount_eq_zero_iff.mpr (hkey ▸ hfresh read hmem)
    rw [replay_append, replay_of_writeCount_eq_zero hcount, hvalue]

end Serializable

/-- Results with the given reads and writes in one namespace. -/
def resultsOf (reads : List KVRead) (writes : List KVWrite) : Bytes :=
  TxReadWriteSet.marshal ⟨[⟨[97], reads, writes⟩]⟩

/-- A key is written; another simulator reads what was committed and writes the key again. -/
def readWriteRun : List (Action Bytes) :=
  [.newTxSimulator, .call 0 (.setState [97] [1] (some [5])), .getTxSimulationResults 0 [],
    .done 0, .validateAndPrepare ⟨[], [resultsOf [] [newKVWrite [1] (some [5])]]⟩, .commit,
    .newTxSimulator, .call 1 (.getState [97] [1]), .call 1 (.setState [97] [1] (some [6])),
    .getTxSimulationResults 1 [], .done 1,
    .validateAndPrepare ⟨[], [resultsOf [⟨[1], 1⟩] [newKVWrite [1] (some [6])]]⟩]

/-- The second transaction of the run is valid and has seen the write of the first. -/
theorem serializable_readWriteRun : ∃ sys : TxSystem Bytes,
    (init Bytes).run some readWriteRun = some sys ∧ sys.prepared.length = 1 ∧
      (∃ r ∈ sys.results, ((([97], [1]) : Key), some [5]) ∈ r.seen) ∧ sys.Serializable some := by
  refine exists_and_of_checked (fun sys => (∃ r ∈ sys.results, ((([97], [1])), some [5]) ∈ r.seen) ∧
    (sys.log some).length = 1) (by decide +kernel) ?_
  rintro sys hrun ⟨hseen, hlog⟩
  refine ⟨hseen, serializable_of_run hrun fun k => ?_⟩
  calc writeCount (sys.log some) k ≤ (sys.log some).length := countP_le_length
    _ < 2 ^ 64 := by rw [hlog]; decide

/-! ### Versions that wrap around -/

section Wrapped

variable {τ : Type} {E : τ → Option Bytes} {sys : TxSystem τ} {env : τ}

theorem run_append (sys : TxSystem τ) (actions actions' : List (Action τ)) :
    sys.run E (actions ++ actions') = (sys.run E actions).bind fun sys' => sys'.run E actions' := by
  induction actions generalizing sys with
  | nil => rfl
  | cons a _ ih =>
    simp only [cons_append, run]
    split_ifs with hadmits
    · cases sys.step E a with
      | none => rfl
      | some sys₁ => exact ih sys₁
    · rfl

theorem step_validateAndPrepare_singleton (hash : Bytes) (hrw : readWriteSet E env = .ok txRWSet)
    (hvalid : validateTx ⟨sys.txmgr.db, some ∅⟩ txRWSet = true) :
    ∃ u, sys.step E (.validateAndPrepare ⟨hash, [env]⟩) =
      some { sys with txmgr := ⟨sys.txmgr.db, some u⟩, prepared := [env] } := by
  have hends : Ends (validateAndPrepare E ⟨hash, [env]⟩) sys.txmgr
      (fun out txmgr => out = (⟨hash, [env]⟩, []) ∧ txmgr = preparing E sys.txmgr.db [env])
      fun _ _ => False := by
    simp only [validateAndPrepare, foldlM_cons, prepareTx, hrw, ends_bind, ends_ite]
    exact ⟨fun _ => ⟨rfl, preparing_addWriteSetToBatch hrw []⟩,
      fun hinvalid => absurd hvalid hinvalid⟩
  obtain ⟨out, txmgr, hrun, rfl, rfl⟩ := hends.exists_run_eq_ok
  exact ⟨_, by simp only [step, hrun]; rfl⟩

theorem run_commit_singleton (hrw : readWriteSet E env = .ok txRWSet)
    (hreads : txRWSet.keyReads = []) (hr : r ∈ sys.results) (henv : E env = some r.bytes)
    (hdone : sys.simulators.all isDone = true) :
    ∃ db, sys.run E [.validateAndPrepare ⟨[], [env]⟩, .commit] =
      some ⟨⟨db, none⟩, sys.simulators, sys.results, sys.committed ++ [env], []⟩ := by
  have hvalid : validateTx ⟨sys.txmgr.db, some ∅⟩ txRWSet = true := by
    rw [validateTx_iff, hreads]
    simp
  obtain ⟨u, hstep⟩ := step_validateAndPrepare_singleton [] hrw hvalid
  have hadmits : sys.Admits E (.validateAndPrepare ⟨[], [env]⟩) := by
    intro env' henv'
    rw [mem_singleton.mp henv']
    exact ⟨r, hr, henv⟩
  refine ⟨u.writeBatch sys.txmgr.db, ?_⟩
  rw [run, if_pos hadmits, hstep, Option.bind_some, run,
    if_pos (show Admits E _ .commit from trivial)]
  simp [step, hdone, commit, run]

theorem run_commit_replicate (hrw : readWriteSet E env = .ok txRWSet)
    (hreads : txRWSet.keyReads = []) (hr : r ∈ sys.results) (henv : E env = some r.bytes)
    (hdone : sys.simulators.all isDone = true) (n : ℕ) :
    ∃ sys' : TxSystem τ, sys.run E (List.replicate n
        [.validateAndPrepare ⟨[], [env]⟩, .commit]).flatten = some sys' ∧
      sys'.simulators = sys.simulators ∧ sys'.results = sys.results ∧
        sys'.committed = sys.committed ++ List.replicate n env := by
  induction n with
  | zero => exact ⟨sys, rfl, rfl, rfl, by simp⟩
  | succ _ ih =>
    obtain ⟨sys', hrun, hsim, hres, hcom⟩ := ih
    obtain ⟨db, hnext⟩ := run_commit_singleton hrw hreads
      (show r ∈ sys'.results from hres ▸ hr) henv (hsim ▸ hdone)
    refine ⟨⟨⟨db, none⟩, sys'.simulators, sys'.results, sys'.committed ++ [env], []⟩, ?_,
      hsim, hres, ?_⟩
    · rw [replicate_succ', flatten_append, run_append, hrun]
      exact hnext
    · simp [hcom, replicate_succ']

/-- One simulator finds a key absent, another one writes it. -/
def openingRun : List (Action Bytes) :=
  [.newTxSimulator, .call 0 (.getState [97] [1]), .getTxSimulationResults 0 [], .done 0,
    .newTxSimulator, .call 1 (.setState [97] [1] (some [5])), .getTxSimulationResults 1 [],
    .done 1]

/-- The results of the two simulators. -/
def absentRead : SimulationResults := ⟨resultsOf [⟨[1], 0⟩] [], [(([97], [1]), none)]⟩

def blindWrite : SimulationResults := ⟨resultsOf [] [newKVWrite [1] (some [5])], []⟩

theorem readWriteSet_absentRead :
    readWriteSet some absentRead.bytes = .ok ⟨[⟨[97], [⟨[1], 0⟩], []⟩]⟩ := by
  decide +kernel

theorem readWriteSet_blindWrite : readWriteSet some blindWrite.bytes =
    .ok ⟨[⟨[97], [], [newKVWrite [1] (some [5])]⟩]⟩ := by
  decide +kernel

/-- The write is committed `n` times. -/
def writesRun (n : ℕ) : List (Action Bytes) :=
  openingRun ++ (List.replicate n
    [.validateAndPrepare ⟨[], [blindWrite.bytes]⟩, .commit]).flatten

theorem exists_writesRun (n : ℕ) : ∃ sys : TxSystem Bytes,
    (init Bytes).run some (writesRun n) = some sys ∧ absentRead ∈ sys.results ∧
      sys.log some = List.replicate n (([97], [1]), some [5]) := by
  obtain ⟨sys₀, hopening, hdone, hresults, hcommitted⟩ : ∃ sys₀,
      (init Bytes).run some openingRun = some sys₀ ∧ sys₀.simulators.all isDone = true ∧
          sys₀.results = [absentRead, blindWrite] ∧ sys₀.committed = [] := by
    decide +kernel
  obtain ⟨sys, hcommits, -, hres, hcom⟩ := run_commit_replicate readWriteSet_blindWrite rfl
    (show blindWrite ∈ sys₀.results by simp [hresults]) rfl hdone n
  have henv : envWrites some blindWrite.bytes = [(([97], [1]), some [5])] := by
    rw [envWrites, readWriteSet_blindWrite]
    rfl
  refine ⟨sys, ?_, by simp [hres, hresults], ?_⟩
  · rw [writesRun, run_append, hopening]
    exact hcommits
  · rw [log, hcom, hcommitted, nil_append, flatMap_replicate, henv, flatten_replicate_singleton]

/-- The read of an absent key is valid again if versions do not distinguish the number of
writes from zero. -/
theorem not_serializable_of_mod_eq_zero {n : ℕ} (hpos : n ≠ 0) (hn : n % 2 ^ 64 = 0) :
    ∃ sys : TxSystem Bytes, (init Bytes).run some
      (writesRun n ++ [.validateAndPrepare ⟨[], [absentRead.bytes]⟩]) = some sys ∧
        ¬ sys.Serializable some := by
  obtain ⟨sys, hrun, hmem, hlog⟩ := exists_writesRun n
  have hvalid : validateTx ⟨sys.txmgr.db, some ∅⟩
      ⟨[⟨[97], [⟨[1], 0⟩], []⟩]⟩ = true := by
    have hdb := (sound_of_run sound_init hrun).represents (([97], [1])) (by decide)
    rw [hlog, writeCount, countP_replicate, if_pos (by decide), hn] at hdb
    rw [validateTx_iff]
    intro e he
    rw [mem_singleton.mp he]
    exact ⟨by simp, congrArg Prod.snd hdb⟩
  obtain ⟨u, hstep⟩ := step_validateAndPrepare_singleton [] readWriteSet_absentRead hvalid
  have hadmits : sys.Admits some (.validateAndPrepare ⟨[], [absentRead.bytes]⟩) := by
    intro env henv
    rw [mem_singleton.mp henv]
    exact ⟨absentRead, hmem, rfl⟩
  refine ⟨{ sys with txmgr := ⟨sys.txmgr.db, some u⟩, prepared := [absentRead.bytes] }, ?_,
    fun hserial => ?_⟩
  · rw [run_append, hrun, Option.bind_some, run, if_pos hadmits, hstep]
    rfl
  · have habsent := hserial.prepared [] _ [] rfl absentRead hmem rfl (([97], [1]), none) (by decide)
    rw [flatMap_nil, append_nil] at habsent
    have hwritten : (([97], [1])) ∈ (sys.log some).map Prod.fst := by simp [hlog, hpos]
    obtain ⟨w, hw, -, hvalue⟩ := exists_mem_replay_eq hwritten
    rw [hlog] at hw
    rw [eq_of_mem_replicate hw] at hvalue
    exact Option.some_ne_none _ (hvalue.symm.trans habsent)

/-- After so many writes the version is zero again, and a transaction that found no key is valid. -/
theorem not_serializable_wrapped : ∃ sys : TxSystem Bytes, (init Bytes).run some
    (writesRun (2 ^ 64) ++ [.validateAndPrepare ⟨[], [absentRead.bytes]⟩]) = some sys ∧
      ¬ sys.Serializable some :=
  not_serializable_of_mod_eq_zero (Nat.two_pow_pos 64).ne' (Nat.mod_self _)

end Wrapped

end TxSystem

end Fabric.Ledger
