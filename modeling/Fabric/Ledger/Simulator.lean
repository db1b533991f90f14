import Fabric.Common.MapOrder
import Fabric.Common.Program
import Fabric.Ledger.TxMgr

/-!
# Simulators and queries

`lockbased_tx_simulator.go` and `lockbased_query_executer.go`: a simulator reads the
database, keeps what it has read and collects writes; its results list both, in the order
in which Go enumerates its maps. Range queries skip the keys that were deleted.
-/

namespace Fabric.Ledger

open Fabric.Common

/-- A key that was read from storage, with the value found there. -/
structure KVReadCache where
  kvRead : KVRead
  cachedValue : Option Bytes
deriving DecidableEq

structure NsRWs where
  readMap : Std.ExtTreeMap Bytes KVReadCache
  writeMap : Std.ExtTreeMap Bytes KVWrite

def newNsRWs : NsRWs := ⟨∅, ∅⟩

structure LockBasedTxSimulator where
  rwMap : Std.ExtTreeMap Bytes NsRWs
  isDone : Bool

def newTxSimulator : LockBasedTxSimulator := ⟨∅, false⟩

/-- Programs over a simulator that may stop in a panic. -/
abbrev Sim := EStateM Panic LockBasedTxSimulator

def checkDone : Sim Unit := do
  let s ← get
  if s.isDone then throw .methodAfterDone else pure ()

/-- Store the reads and writes of a namespace, which Go updates in place. -/
def putNsRWHolder (ns : Bytes) (nsRWs : NsRWs) : Sim Unit :=
  modify fun s => { s with rwMap := s.rwMap.insert ns nsRWs }

def getOrCreateNsRWHolder (ns : Bytes) : Sim NsRWs := do
  let s ← get
  match s.rwMap[ns]? with
  | some nsRWs => pure nsRWs
  | none =>
    putNsRWHolder ns newNsRWs
    pure newNsRWs

/-- Written keys are read from the write set, and a key is read from storage once. -/
def getState (db : DB) (ns key : Bytes) : Sim (Option Bytes) := do
  checkDone
  let nsRWs ← getOrCreateNsRWHolder ns
  match nsRWs.writeMap[key]? with
  | some kvWrite => pure kvWrite.value
  | none =>
    match nsRWs.readMap[key]? with
    | some readCache => pure readCache.cachedValue
    | none =>
      let (value, version) := getCommittedValueAndVersion db ns key
      putNsRWHolder ns
        { nsRWs with readMap := nsRWs.readMap.insert key ⟨⟨key, version⟩, value⟩ }
      pure value

def setState (ns key : Bytes) (value : Option Bytes) : Sim Unit := do
  checkDone
  let nsRWs ← getOrCreateNsRWHolder ns
  let kvWrite := match nsRWs.writeMap[key]? with
    | some kvWrite => kvWrite.setValue value
    | none => newKVWrite key value
  putNsRWHolder ns { nsRWs with writeMap := nsRWs.writeMap.insert key kvWrite }

def deleteState (ns key : Bytes) : Sim Unit := setState ns key none

/-! ### Simulation results -/

/-- The keys of a map in the order of `MapKeys`. The source does not sort them. -/
def getSortedKeys (keys : List Bytes) : StateM (List ℕ) (List Bytes) := do
  let choices ← get
  set (choices.drop keys.length)
  pure (reorder (choices.take keys.length) keys)

/-- The reads and writes of one namespace. -/
def getNsReadWriteSet (ns : Bytes) (nsRWs : NsRWs) : StateM (List ℕ) NsReadWriteSet := do
  let sortedReadKeys ← getSortedKeys nsRWs.readMap.keys
  let sortedWriteKeys ← getSortedKeys nsRWs.writeMap.keys
  pure ⟨ns, sortedReadKeys.filterMap fun key => nsRWs.readMap[key]?.map KVReadCache.kvRead,
    sortedWriteKeys.filterMap fun key => nsRWs.writeMap[key]?⟩

def LockBasedTxSimulator.getTxReadWriteSet (s : LockBasedTxSimulator) :
    StateM (List ℕ) TxReadWriteSet := do
  let sortedNamespaces ← getSortedKeys s.rwMap.keys
  let nsRWs ← sortedNamespaces.mapM fun ns => getNsReadWriteSet ns (s.rwMap.getD ns newNsRWs)
  pure ⟨nsRWs⟩

/-- The results of a simulation, for an order of enumeration. -/
def LockBasedTxSimulator.getTxSimulationResults (s : LockBasedTxSimulator) (choices : List ℕ) :
    Except Panic Bytes :=
  let b := (s.getTxReadWriteSet.run choices).1.marshal
  if b.length < 2 ^ 63 then .ok b else .error .growSlice

/-! ### Range queries -/

/-- A result of a range query. -/
structure KV where
  key : Bytes
  value : Bytes
deriving DecidableEq

/-- The next entry that was not deleted, as a result and with its version. -/
def nextLive : List (Bytes × Bytes) → Except Panic (Option (KV × ℕ) × List (Bytes × Bytes))
  | [] => .ok (none, [])
  | e :: rest => do
    let committedKV ← scanEntry e
    match committedKV.value with
    | none => nextLive rest
    | some value => .ok (some (⟨committedKV.key, value⟩, committedKV.version), rest)

/-- `qKVItr.Next`. -/
def KVScanner.next (scanner : KVScanner) : Except Panic (Option KV × KVScanner) := do
  let (kv, rest) ← nextLive scanner.dbItr
  pure (kv.map Prod.fst, { scanner with dbItr := rest })

def getStateRangeScanIterator (db : DB) (ns startKey endKey : Bytes) : Sim KVScanner := do
  checkDone
  pure (getCommittedRangeScanner db ns startKey endKey)

/-- `sKVItr.Next`, which records the read. -/
def sNext (scanner : KVScanner) : Sim (Option KV × KVScanner) := do
  match nextLive scanner.dbItr with
  | .error e => throw e
  | .ok (none, rest) => pure (none, { scanner with dbItr := rest })
  | .ok (some (kv, version), rest) =>
    let nsRWs ← getOrCreateNsRWHolder scanner.nameSpace
    putNsRWHolder scanner.nameSpace { nsRWs with
      readMap := nsRWs.readMap.insert kv.key ⟨⟨kv.key, version⟩, some kv.value⟩ }
    pure (some kv, { scanner with dbItr := rest })

/-- The results of calling `next` until there is none, at most `n` times. -/
def KVScanner.collect : ℕ → KVScanner → Except Panic (List KV)
  | 0, _ => .ok []
  | n + 1, scanner => do
    match ← scanner.next with
    | (none, _) => pure []
    | (some kv, scanner) => do
      let kvs ← KVScanner.collect n scanner
      pure (kv :: kvs)

/-- The same through a simulator. -/
def sCollect : ℕ → KVScanner → Sim (List KV)
  | 0, _ => pure []
  | n + 1, scanner => do
    match ← sNext scanner with
    | (none, _) => pure []
    | (some kv, scanner) => do
      let kvs ← sCollect n scanner
      pure (kv :: kvs)

/-! ### Sequences of calls -/

/-- A call on a simulator. -/
inductive Op
  | getState (ns key : Bytes)
  | setState (ns key : Bytes) (value : Option Bytes)
  | deleteState (ns key : Bytes)
deriving DecidableEq

def Op.run (db : DB) : Op → Sim Unit
  | .getState ns key => do
    let _ ← Ledger.getState db ns key
    pure ()
  | .setState ns key value => Ledger.setState ns key value
  | .deleteState ns key => Ledger.deleteState ns key

/-- A sequence of calls on one state of the database. -/
def simulate (db : DB) : List Op → Sim Unit
  | [] => pure ()
  | op :: ops => do
    op.run db
    simulate db ops

end Fabric.Ledger
