import Fabric.Ledger.RWSet

/-!
# The lock-based transaction manager

`lockbased_txmgr.go`: the state database maps composite keys to encoded values with
versions; a block is validated against it and prepared as an update set, which a commit
writes to the database. The database is an ordered map whose input and output do not fail
here.
-/

namespace Fabric.Ledger

open Fabric.Common List

/-- What stops the process. -/
inductive Panic
  | methodAfterDone
  | commitBeforePrepare
  | nothingToCommit
  | indexOutOfRange
  | growSlice
deriving DecidableEq

/-- Why a block is refused. -/
inductive PrepareError
  | malformedEnvelope
  | malformedResults (e : DecodeError)
deriving DecidableEq

/-! ### Keys and values of the database -/

def compositeKeySep : Bytes := [0x00]

def constructCompositeKey (ns key : Bytes) : Bytes := ns ++ compositeKeySep ++ key

/-- The parts before and after the first separator. Without separator, Go's index is out
of range. -/
def splitCompositeKey (compositeKey : Bytes) : Except Panic (Bytes × Bytes) :=
  match compositeKey.dropWhile (· ≠ 0x00) with
  | [] => .error .indexOutOfRange
  | _ :: key => .ok (compositeKey.takeWhile (· ≠ 0x00), key)

/-- A value, or none if the key was deleted, with the version of the key. -/
structure VersionedValue where
  value : Option Bytes
  version : ℕ
deriving DecidableEq

def encodeValue (value : Option Bytes) (version : ℕ) : Bytes :=
  let deleteMarker := if value.isNone then 1 else 0
  encodeVarint version ++ (encodeVarint deleteMarker ++ value.getD [])

def decodeValue (encodedValue : Bytes) : Option Bytes × ℕ :=
  let (version, len1) := decodeVarintPrefix encodedValue
  let (deleteMarker, len2) := decodeVarintPrefix (encodedValue.drop len1)
  if deleteMarker = 1 then (none, version)
  else (some (encodedValue.drop (len1 + len2)), version)

/-! ### The manager -/

abbrev DB := Std.ExtTreeMap Bytes Bytes

abbrev UpdateSet := Std.ExtTreeMap Bytes VersionedValue

structure LockBasedTxMgr where
  db : DB
  updateSet : Option UpdateSet

def newLockBasedTxMgr : LockBasedTxMgr := ⟨∅, none⟩

def getCommittedValueAndVersion (db : DB) (ns key : Bytes) : Option Bytes × ℕ :=
  match db[constructCompositeKey ns key]? with
  | none => (none, 0)
  | some encodedValue => decodeValue encodedValue

def getCommitedVersion (db : DB) (ns key : Bytes) : ℕ := (getCommittedValueAndVersion db ns key).2

/-- The key is in no earlier write set of the block and has the version that was read. -/
def LockBasedTxMgr.validateRead (txmgr : LockBasedTxMgr) (ns : Bytes) (kvRead : KVRead) : Bool :=
  !txmgr.updateSet.any (·.contains (constructCompositeKey ns kvRead.key)) &&
    getCommitedVersion txmgr.db ns kvRead.key == kvRead.version

def LockBasedTxMgr.validateTx (txmgr : LockBasedTxMgr) (txRWSet : TxReadWriteSet) : Bool :=
  txRWSet.nsRWs.all fun nsRWSet => nsRWSet.reads.all (txmgr.validateRead nsRWSet.nameSpace)

/-- Add a write to the update set, with the next version of the key. -/
def addWrite (db : DB) (ns : Bytes) (u : UpdateSet) (kvWrite : KVWrite) : UpdateSet :=
  let compositeKey := constructCompositeKey ns kvWrite.key
  let currentVersion := match u[compositeKey]? with
    | some versionedVal => versionedVal.version
    | none => getCommitedVersion db ns kvWrite.key
  u.insert compositeKey ⟨kvWrite.value, (currentVersion + 1) % 2 ^ 64⟩

def LockBasedTxMgr.addWriteSetToBatch (txmgr : LockBasedTxMgr) (txRWSet : TxReadWriteSet) :
    LockBasedTxMgr :=
  { txmgr with updateSet := some (txRWSet.nsRWs.foldl
      (fun u nsRWSet => nsRWSet.writes.foldl (addWrite txmgr.db nsRWSet.nameSpace) u)
      (txmgr.updateSet.getD ∅)) }

inductive Cause
  | rwConflictDuringCommit
deriving DecidableEq

/-- The transaction itself is left blank. -/
structure InvalidTransaction where
  cause : Cause
deriving DecidableEq

/-- A block, with its transactions as envelopes of type `τ`. -/
structure Block (τ : Type) where
  previousBlockHash : Bytes
  transactions : List τ
deriving DecidableEq

section Prepare

variable {τ : Type}

/-- The read-write set of an envelope. Taking or decoding the results may fail. -/
def readWriteSet (getActionFromEnvelope : τ → Option Bytes) (env : τ) :
    Except PrepareError TxReadWriteSet :=
  match getActionFromEnvelope env with
  | none => .error .malformedEnvelope
  | some results => (TxReadWriteSet.unmarshal results).mapError .malformedResults

variable (getActionFromEnvelope : τ → Option Bytes)

/-- Validate the next transaction, given those found valid so far and the causes for the others. -/
def prepareTx (acc : List τ × List InvalidTransaction) (env : τ) :
    EStateM PrepareError LockBasedTxMgr (List τ × List InvalidTransaction) := do
  match readWriteSet getActionFromEnvelope env with
  | .error e => throw e
  | .ok txRWSet =>
    let txmgr ← get
    if txmgr.validateTx txRWSet then
      set (txmgr.addWriteSetToBatch txRWSet)
      pure (acc.1 ++ [env], acc.2)
    else
      pure (acc.1, acc.2 ++ [⟨.rwConflictDuringCommit⟩])

/-- Validate a block. A malformed transaction ends it with an error, and leaves the update set. -/
def validateAndPrepare (block : Block τ) :
    EStateM PrepareError LockBasedTxMgr (Block τ × List InvalidTransaction) := do
  modify fun txmgr => { txmgr with updateSet := some ∅ }
  let (valid, invalidTxs) ← block.transactions.foldlM (prepareTx getActionFromEnvelope) ([], [])
  pure (⟨block.previousBlockHash, valid⟩, invalidTxs)

end Prepare

/-- Write the update set. Its keys are distinct, so their order does not matter. -/
def UpdateSet.writeBatch (u : UpdateSet) (db : DB) : DB :=
  db.insertMany (u.toList.map fun e => (e.1, encodeValue e.2.value e.2.version))

def LockBasedTxMgr.commit (txmgr : LockBasedTxMgr) : Except Panic LockBasedTxMgr :=
  match txmgr.updateSet with
  | none => .error .commitBeforePrepare
  | some u => .ok ⟨u.writeBatch txmgr.db, none⟩

def LockBasedTxMgr.rollback (txmgr : LockBasedTxMgr) : LockBasedTxMgr :=
  { txmgr with updateSet := none }

/-! ### Range scans -/

/-- The entries of the database from a first key to before a last one, where these are
given, in the order of their keys. -/
def getIterator (db : DB) (startKey endKey : Option Bytes) : List (Bytes × Bytes) :=
  db.toList.filter fun e =>
    startKey.all (fun k => (compare k e.1).isLE) && endKey.all (fun k => (compare e.1 k).isLT)

/-- A scanner has a namespace and the entries of the database that are left. -/
structure KVScanner where
  nameSpace : Bytes
  dbItr : List (Bytes × Bytes)

structure CommittedKV where
  key : Bytes
  version : ℕ
  value : Option Bytes
deriving DecidableEq

/-- An empty bound becomes an absent one. Values are copies here, where `kvScanner.next` returns
slices of the buffer of the LevelDB iterator, which the next call overwrites. -/
def getCommittedRangeScanner (db : DB) (ns startKey endKey : Bytes) : KVScanner where
  nameSpace := ns
  dbItr := getIterator db
    (if startKey ≠ [] then some (constructCompositeKey ns startKey) else none)
    (if endKey ≠ [] then some (constructCompositeKey ns endKey) else none)

/-- The entry of the database at the head of a scanner. -/
def scanEntry (e : Bytes × Bytes) : Except Panic CommittedKV := do
  let (_, key) ← splitCompositeKey e.1
  let (value, version) := decodeValue e.2
  pure ⟨key, version, value⟩

/-! ### Round trips -/

theorem decodeValue_encodeValue (value : Option Bytes) {version : ℕ} (h : version < 2 ^ 64) :
    decodeValue (encodeValue value version) = (value, version) := by
  have hmarker : (if value.isNone then 1 else 0) < 2 ^ 64 := by split <;> decide
  simp only [decodeValue, encodeValue, decodeVarintPrefix_encodeVarint h, drop_left,
    decodeVarintPrefix_encodeVarint hmarker]
  cases value with
  | none => rfl
  | some =>
    simp only [Option.isNone_some, Bool.false_eq_true, if_false, Option.getD_some, Nat.zero_ne_one]
    rw [← append_assoc, ← length_append, drop_left]

theorem decodeValue_lt (encodedValue : Bytes) : (decodeValue encodedValue).2 < 2 ^ 64 := by
  have hversion : (decodeValue encodedValue).2 = (decodeVarintPrefix encodedValue).1 := by
    simp only [decodeValue]
    split <;> rfl
  rw [hversion]
  exact decodeVarintPrefix_lt _

theorem committedVersion_lt (db : DB) (ns key : Bytes) :
    (getCommittedValueAndVersion db ns key).2 < 2 ^ 64 := by
  unfold getCommittedValueAndVersion
  split
  · decide
  · exact decodeValue_lt _

/-- A namespace without the separator. -/
def NulFree (ns : Bytes) : Prop := 0x00 ∉ ns

instance (ns : Bytes) : Decidable (NulFree ns) := inferInstanceAs (Decidable (0x00 ∉ ns))

theorem splitCompositeKey_construct {ns : Bytes} (h : NulFree ns) (key : Bytes) :
    splitCompositeKey (constructCompositeKey ns key) = .ok (ns, key) := by
  have hall : ∀ b ∈ ns, (b ≠ 0x00) = true := by
    intro b hb
    simp only [eq_iff_iff, iff_true]
    rintro rfl
    exact h hb
  have htake : (ns ++ (0x00 :: key)).takeWhile (· ≠ 0x00) = ns := by
    rw [takeWhile_append_of_pos (by simpa using hall)]
    simp
  have hdrop : (ns ++ (0x00 :: key)).dropWhile (· ≠ 0x00) = 0x00 :: key := by
    rw [dropWhile_append_of_pos (by simpa using hall)]
    simp
  simp only [splitCompositeKey, constructCompositeKey, compositeKeySep, append_assoc,
    singleton_append, hdrop, htake]

theorem constructCompositeKey_inj {ns ns' key key' : Bytes} (h : NulFree ns) (h' : NulFree ns')
    (heq : constructCompositeKey ns key = constructCompositeKey ns' key') :
    ns = ns' ∧ key = key' := by
  have hsplit := splitCompositeKey_construct h key
  rw [heq, splitCompositeKey_construct h' key'] at hsplit
  cases hsplit
  exact ⟨rfl, rfl⟩

end Fabric.Ledger
