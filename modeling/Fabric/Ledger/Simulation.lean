import Fabric.Common.WriteLog
import Fabric.Ledger.Simulator

/-!
# What a simulator records

After a sequence of calls a simulator holds the keys that were read before they were
written, with what the database has for them, and the last value written to each key.
-/

namespace Fabric.Ledger

open Fabric.Common Std.ExtTreeMap

/-- A key with its namespace. -/
abbrev Key := Bytes × Bytes

/-! ### Sequences of calls -/

namespace Op

def nameSpace : Op → Bytes
  | .getState ns _ | .setState ns _ _ | .deleteState ns _ => ns

/-- The key that a call asks for. -/
def read? : Op → Option Key
  | .getState ns key => some (ns, key)
  | _ => none

/-- The key that a call writes, with the new value. -/
def write? : Op → Option (Key × Option Bytes)
  | .setState ns key value => some ((ns, key), value)
  | .deleteState ns key => some ((ns, key), none)
  | .getState _ _ => none

end Op

/-- The writes of a sequence of calls. -/
def opWrites (ops : List Op) : List (Key × Option Bytes) := ops.filterMap Op.write?

def writtenKeys (ops : List Op) : List Key := (opWrites ops).map Prod.fst

/-- The keys that are read before they are written, if those in `written` are already. -/
def storageReadsFrom (written : List Key) : List Op → List Key
  | [] => []
  | op :: ops => (op.read?.filter (· ∉ written)).toList ++
    storageReadsFrom ((op.write?.map Prod.fst).toList ++ written) ops

/-- The keys that a sequence of calls reads from storage. -/
def storageReads (ops : List Op) : List Key := storageReadsFrom [] ops

variable {k : Key} {ops : List Op}

theorem mem_storageReadsFrom_append {written : List Key} {op : Op} :
    k ∈ storageReadsFrom written (ops ++ [op]) ↔ k ∈ storageReadsFrom written ops ∨
      op.read? = some k ∧ k ∉ written ∧ k ∉ writtenKeys ops := by
  induction ops generalizing written with
  | nil => simp [storageReadsFrom, writtenKeys, opWrites]
  | cons o ops ih =>
    have hwritten : writtenKeys (o :: ops) = (o.write?.map Prod.fst).toList ++ writtenKeys ops := by
      cases h : o.write? <;> simp [writtenKeys, opWrites, h]
    simp only [List.cons_append, storageReadsFrom, List.mem_append, ih, hwritten]
    tauto

theorem mem_storageReads_append {op : Op} : k ∈ storageReads (ops ++ [op]) ↔
      k ∈ storageReads ops ∨ op.read? = some k ∧ k ∉ writtenKeys ops := by
  simp [storageReads, mem_storageReadsFrom_append]

/-! ### Simulators -/

namespace LockBasedTxSimulator

/-- What the simulator has read for a key. -/
def read (s : LockBasedTxSimulator) (k : Key) : Option KVReadCache :=
  s.rwMap[k.1]?.bind fun nsRWs => nsRWs.readMap[k.2]?

/-- What the simulator writes to a key. -/
def write (s : LockBasedTxSimulator) (k : Key) : Option KVWrite :=
  s.rwMap[k.1]?.bind fun nsRWs => nsRWs.writeMap[k.2]?

theorem mem_of_bind {s : LockBasedTxSimulator} {ns : Bytes} {α : Type} {f : NsRWs → Option α}
    (h : (s.rwMap[ns]?.bind f).isSome) : ns ∈ s.rwMap :=
  mem_iff_isSome_getElem?.mpr (Option.isSome_of_isSome_bind h)

theorem mem_of_read {s : LockBasedTxSimulator} (h : (s.read k).isSome) : k.1 ∈ s.rwMap :=
  mem_of_bind h

theorem mem_of_write {s : LockBasedTxSimulator} (h : (s.write k).isSome) : k.1 ∈ s.rwMap :=
  mem_of_bind h

end LockBasedTxSimulator

/-- What is read from the database for a key. -/
def readCache (db : DB) (k : Key) : KVReadCache :=
  let (value, version) := getCommittedValueAndVersion db k.1 k.2
  ⟨⟨k.2, version⟩, value⟩

/-- The last value that is written to a key. -/
def lastWrite (ops : List Op) : Key → Option (Option Bytes) :=
  replay ((opWrites ops).map fun w => (w.1, some w.2)) fun _ => none

/-- The simulator has performed the calls on the database. -/
structure Simulated (db : DB) (ops : List Op) (s : LockBasedTxSimulator) : Prop where
  touched : ∀ ns, ns ∈ s.rwMap ↔ ns ∈ ops.map Op.nameSpace
  read : ∀ k, s.read k = if k ∈ storageReads ops then some (readCache db k) else none
  write : ∀ k, s.write k = (lastWrite ops k).map (newKVWrite k.2)

variable {db : DB} {ops : List Op} {s : LockBasedTxSimulator}

theorem simulated_new : Simulated db [] newTxSimulator where
  touched := by simp [newTxSimulator]
  read := by simp [newTxSimulator, LockBasedTxSimulator.read, storageReads, storageReadsFrom]
  write := by simp [newTxSimulator, LockBasedTxSimulator.write, lastWrite, opWrites]

/-- The holder of a namespace has what the simulator holds for its keys. -/
structure Holds (s : LockBasedTxSimulator) (ns : Bytes) (nsRWs : NsRWs) : Prop where
  read : ∀ key, nsRWs.readMap[key]? = s.read (ns, key)
  write : ∀ key, nsRWs.writeMap[key]? = s.write (ns, key)

section Put

variable (s : LockBasedTxSimulator) (ns : Bytes) (nsRWs : NsRWs)

/-- The simulator after the holder of a namespace is stored. -/
def LockBasedTxSimulator.put : LockBasedTxSimulator :=
  { s with rwMap := s.rwMap.insert ns nsRWs }

theorem LockBasedTxSimulator.read_put (k : Key) :
    (s.put ns nsRWs).read k = if k.1 = ns then nsRWs.readMap[k.2]? else s.read k := by
  by_cases hk : k.1 = ns
  · simp [read, put, hk]
  · simp [read, put, hk, getElem?_insert, Ne.symm hk]

theorem LockBasedTxSimulator.write_put (k : Key) :
    (s.put ns nsRWs).write k = if k.1 = ns then nsRWs.writeMap[k.2]? else s.write k := by
  by_cases hk : k.1 = ns
  · simp [write, put, hk]
  · simp [write, put, hk, getElem?_insert, Ne.symm hk]

theorem LockBasedTxSimulator.mem_put (ns' : Bytes) :
    ns' ∈ (s.put ns nsRWs).rwMap ↔ ns' = ns ∨ ns' ∈ s.rwMap := by
  rw [put, mem_insert, Std.compare_eq_iff_eq]
  exact or_congr_left eq_comm

@[simp] theorem ends_putNsRWHolder {Q : Unit → LockBasedTxSimulator → Prop}
    {E : Panic → LockBasedTxSimulator → Prop} :
    Ends (putNsRWHolder ns nsRWs) s Q E ↔ Q () (s.put ns nsRWs) := Iff.rfl

end Put

theorem getOrCreateNsRWHolder_ends (ns : Bytes) {Q : NsRWs → LockBasedTxSimulator → Prop}
    {E : Panic → LockBasedTxSimulator → Prop}
    (h : ∀ nsRWs s', Holds s ns nsRWs → s'.isDone = s.isDone → s'.read = s.read →
      s'.write = s.write → (∀ ns', ns' ∈ s'.rwMap ↔ ns' = ns ∨ ns' ∈ s.rwMap) →
      s'.rwMap[ns]? = some nsRWs → Q nsRWs s') :
    Ends (getOrCreateNsRWHolder ns) s Q E := by
  unfold getOrCreateNsRWHolder
  rw [ends_bind, ends_get]
  cases hns : s.rwMap[ns]? with
  | some nsRWs =>
    have hmem : ns ∈ s.rwMap := mem_iff_isSome_getElem?.mpr (by simp [hns])
    refine h nsRWs s ⟨?_, ?_⟩ rfl rfl rfl ?_ hns
    · simp [LockBasedTxSimulator.read, hns]
    · simp [LockBasedTxSimulator.write, hns]
    · intro ns'
      constructor
      · exact .inr
      · rintro (rfl | hmem')
        · exact hmem
        · exact hmem'
  | none =>
    have hread : ∀ key, newNsRWs.readMap[key]? = s.read (ns, key) := by
      simp [LockBasedTxSimulator.read, hns, newNsRWs]
    have hwrite : ∀ key, newNsRWs.writeMap[key]? = s.write (ns, key) := by
      simp [LockBasedTxSimulator.write, hns, newNsRWs]
    refine h newNsRWs (s.put ns newNsRWs) ⟨hread, hwrite⟩ rfl (funext fun k => ?_)
      (funext fun k => ?_) (s.mem_put ns newNsRWs) getElem?_insert_self
    · rw [s.read_put]
      split_ifs with hk
      · rw [hread, ← hk]
      · rfl
    · rw [s.write_put]
      split_ifs with hk
      · rw [hwrite, ← hk]
      · rfl

theorem lastWrite_append (ops : List Op) (op : Op) : lastWrite (ops ++ [op]) = match op.write? with
      | none => lastWrite ops
      | some w => Function.update (lastWrite ops) w.1 (some w.2) := by
  unfold lastWrite
  cases hop : op.write? with
  | none => simp [opWrites, hop]
  | some => simp [opWrites, hop]

theorem lastWrite_eq_none_iff : lastWrite ops k = none ↔ k ∉ writtenKeys ops := by
  have hkeys : ((opWrites ops).map fun w => (w.1, some w.2)).map Prod.fst = writtenKeys ops := by
    simp [writtenKeys]
  constructor
  · intro hnone hk
    obtain ⟨w, hw, -, hvalue⟩ := exists_mem_replay_eq (hkeys ▸ hk)
    obtain ⟨w', -, rfl⟩ := List.mem_map.mp hw
    exact Option.some_ne_none _ (hvalue.symm.trans hnone)
  · intro hk
    apply replay_of_writeCount_eq_zero
    rwa [writeCount_eq_zero_iff, hkeys]

theorem getState_simulated (h : Simulated db ops s) (hdone : s.isDone = false) (ns key : Bytes) :
    Ends (getState db ns key) s (fun _ s' => Simulated db (ops ++ [.getState ns key]) s' ∧
      s'.isDone = false) fun _ _ => False := by
  unfold getState checkDone
  simp only [ends_bind, ends_get, hdone, Bool.false_eq_true]
  apply getOrCreateNsRWHolder_ends
  intro nsRWs s' hholds hdone' hread hwrite htouched hns
  -- nothing is recorded if the key was written or read before
  have hsame (hold : (ns, key) ∈ writtenKeys ops ∨ (ns, key) ∈ storageReads ops) :
      Simulated db (ops ++ [.getState ns key]) s' ∧ s'.isDone = false := by
    refine ⟨⟨fun ns' => ?_, fun k => ?_, fun k => ?_⟩, hdone'.trans hdone⟩
    · simp [htouched, h.touched, Op.nameSpace, or_comm]
    · have hiff : k ∈ storageReads (ops ++ [.getState ns key]) ↔ k ∈ storageReads ops := by
        rw [mem_storageReads_append]
        constructor
        · rintro (hk | ⟨hk, hnot⟩)
          · exact hk
          · cases hk
            exact hold.resolve_left hnot
        · exact .inl
      rw [hread, h.read]
      simp only [hiff]
    · rw [hwrite, h.write, lastWrite_append]
      rfl
  cases hw : nsRWs.writeMap[key]? with
  | some =>
    refine hsame (.inl (not_not.mp fun hnot => ?_))
    rw [hholds.write, h.write, lastWrite_eq_none_iff.mpr hnot] at hw
    cases hw
  | none =>
    have hunwritten : (ns, key) ∉ writtenKeys ops := by
      rw [hholds.write, h.write, Option.map_eq_none_iff] at hw
      exact lastWrite_eq_none_iff.mp hw
    cases hr : nsRWs.readMap[key]? with
    | some =>
      refine hsame (.inr (not_not.mp fun hnot => ?_))
      rw [hholds.read, h.read, if_neg hnot] at hr
      cases hr
    | none =>
      simp only [ends_bind, ends_putNsRWHolder]
      refine ⟨⟨fun ns' => ?_, fun k => ?_, fun k => ?_⟩, hdone'.trans hdone⟩
      · rw [s'.mem_put, htouched, h.touched]
        simp [Op.nameSpace, or_comm]
      · rw [s'.read_put]
        by_cases hk : k = (ns, key)
        · subst hk
          have hmem : (ns, key) ∈ storageReads (ops ++ [.getState ns key]) :=
            mem_storageReads_append.mpr (.inr ⟨rfl, hunwritten⟩)
          simp [hmem, readCache]
        · have hiff : k ∈ storageReads (ops ++ [.getState ns key]) ↔ k ∈ storageReads ops := by
            rw [mem_storageReads_append]
            exact or_iff_left fun hnew => hk (Option.some.inj hnew.1).symm
          simp only [hiff, ← h.read, hread]
          split_ifs with hns
          · subst hns
            have hkey : key ≠ k.2 := fun heq => hk (Prod.ext rfl heq.symm)
            rw [getElem?_insert, if_neg (by simpa using hkey), hholds.read]
          · rfl
      · rw [s'.write_put, lastWrite_append]
        split_ifs with hns
        · subst hns
          exact (hholds.write k.2).trans (h.write k)
        · rw [hwrite]
          exact h.write k

theorem setState_simulated (h : Simulated db ops s) (hdone : s.isDone = false) (ns key : Bytes)
    (value : Option Bytes) :
    Ends (setState ns key value) s (fun _ s' => Simulated db (ops ++ [.setState ns key value]) s' ∧
      s'.isDone = false) fun _ _ => False := by
  unfold setState checkDone
  simp only [ends_bind, ends_get, hdone, Bool.false_eq_true]
  apply getOrCreateNsRWHolder_ends
  intro nsRWs s' hholds hdone' hread hwrite htouched hns
  rw [ends_putNsRWHolder]
  refine ⟨⟨fun ns' => ?_, fun k => ?_, fun k => ?_⟩, hdone'.trans hdone⟩
  · rw [s'.mem_put, htouched, h.touched]
    simp [Op.nameSpace, or_comm]
  · have hiff : k ∈ storageReads (ops ++ [.setState ns key value]) ↔ k ∈ storageReads ops := by
      rw [mem_storageReads_append]
      exact or_iff_left fun hnew => Option.some_ne_none k hnew.1.symm
    rw [s'.read_put]
    simp only [hiff, ← h.read, hread]
    split_ifs with hns
    · subst hns
      exact hholds.read k.2
    · rfl
  · rw [s'.write_put, lastWrite_append]
    simp only [Op.write?]
    by_cases hk : k = (ns, key)
    · subst hk
      cases hw : nsRWs.writeMap[key]? with
      | none => simp
      | some kvWrite =>
        -- a key that is written again keeps its name
        have hkey : kvWrite.key = key := by
          rw [hholds.write, h.write] at hw
          obtain ⟨v, -, rfl⟩ := Option.map_eq_some_iff.mp hw
          rfl
        simp [KVWrite.setValue, newKVWrite, hkey]
    · rw [Function.update_of_ne hk, ← h.write, hwrite]
      split_ifs with hns
      · subst hns
        have hkey : key ≠ k.2 := fun heq => hk (Prod.ext rfl heq.symm)
        rw [getElem?_insert, if_neg (by simpa using hkey), hholds.write]
      · rfl

theorem Simulated.deleteState {ns key : Bytes}
    (h : Simulated db (ops ++ [.setState ns key none]) s) :
    Simulated db (ops ++ [.deleteState ns key]) s where
  touched := by simpa [Op.nameSpace] using h.touched
  read := by simpa [mem_storageReads_append, Op.read?] using h.read
  write := by simpa [lastWrite_append, Op.write?] using h.write

theorem Op.run_simulated (h : Simulated db ops s) (hdone : s.isDone = false) (op : Op) :
    Ends (op.run db) s (fun _ s' => Simulated db (ops ++ [op]) s' ∧ s'.isDone = false)
      fun _ _ => False := by
  cases op with
  | getState ns key =>
    rw [Op.run, ends_bind]
    exact getState_simulated h hdone ns key
  | setState ns key value => exact setState_simulated h hdone ns key value
  | deleteState ns key =>
    exact (setState_simulated h hdone ns key none).imp fun _ s' hs' => ⟨hs'.1.deleteState, hs'.2⟩

theorem Op.run_of_isDone (h : s.isDone = true) (op : Op) :
    Ends (op.run db) s (fun _ _ => False) fun _ _ => True := by
  cases op <;>
    simp [Op.run, Ledger.getState, Ledger.setState, Ledger.deleteState, checkDone, h]

theorem simulate_simulated (db : DB) (ops : List Op) :
    Ends (simulate db ops) newTxSimulator (fun _ s => Simulated db ops s ∧ s.isDone = false)
      fun _ _ => False := by
  -- generalised over the calls performed before
  suffices hgen : ∀ ops' s, Simulated db ops' s → s.isDone = false →
      Ends (simulate db ops) s (fun _ s' => Simulated db (ops' ++ ops) s' ∧ s'.isDone = false)
        fun _ _ => False by
    exact hgen [] newTxSimulator simulated_new rfl
  induction ops with
  | nil =>
    intro ops' s h hdone
    rw [List.append_nil]
    exact ⟨h, hdone⟩
  | cons op _ ih =>
    intro ops' s h hdone
    rw [simulate, ends_bind]
    refine (op.run_simulated h hdone).imp fun _ s' hs' => ?_
    rw [List.append_cons]
    exact ih _ s' hs'.1 hs'.2

end Fabric.Ledger
