import Mathlib.Data.List.AList
import Fabric.Common.LengthPrefix
import Fabric.Common.Program

/-!
# Tables in the state of a chaincode

A chaincode keeps tables in its key value state. The definition of a table is stored under its
name, and a row under the name and the texts of its key columns, each after its length. Groups of
rows are found by a range of keys. Encoded tables and rows are values of the state.
-/

namespace Fabric.Chaincode.Shim

open Fabric.Common

inductive ColumnType where
  | string | int32 | int64 | uint32 | uint64 | bytes | bool
deriving DecidableEq

/-- The definition of a column; its type may be a number without a name. -/
structure ColumnDefinition where
  name : Bytes
  type : Option ColumnType
  key : Bool

structure Table where
  name : Bytes
  columnDefinitions : List ColumnDefinition

inductive Value where
  | string (s : Bytes)
  | int32 (v : Int32)
  | int64 (v : Int64)
  | uint32 (v : UInt32)
  | uint64 (v : UInt64)
  | bytes (b : Bytes)
  | bool (b : Bool)
deriving DecidableEq

def Value.type : Value → ColumnType
  | string _ => .string
  | int32 _ => .int32
  | int64 _ => .int64
  | uint32 _ => .uint32
  | uint64 _ => .uint64
  | bytes _ => .bytes
  | bool _ => .bool

/-- A column of a row, the value of which may be missing. -/
abbrev Column := Option Value

abbrev Row := List Column

inductive TableError where
  | tableName
  | tableNotFound
  | unmarshalTable
  | unmarshalRow
  | tableExists (name : Bytes)
  | createTableFailed (cause : TableError)
  | noColumns
  | nilDefinition (i : ℕ)
  | emptyColumnName (i : ℕ)
  | duplicateColumn (name : Bytes)
  | columnType (name : Bytes)
  | noKey
  | columnCount (table : Bytes) (defined found : ℕ)
  | typeMismatch (table column : Bytes) (type : Option ColumnType)
deriving DecidableEq

/-- Encoding of tables and rows. -/
structure Codec (β : Type) where
  marshalTable : Table → β
  unmarshalTable : β → Option Table
  marshalRow : Row → β
  unmarshalRow : β → Option Row
  unmarshalTable_marshalTable : ∀ table, unmarshalTable (marshalTable table) = some table
  unmarshalRow_marshalRow : ∀ row, unmarshalRow (marshalRow row) = some row

/-! ### Keys -/

def getTableNameKey (name : Bytes) : Except TableError Bytes :=
  if name.isEmpty then .error .tableName else .ok (lengthPrefixed name)

/-- A number in decimal notation, after a sign if it is negative. -/
def formatInt (v : ℤ) : Bytes := if v < 0 then 45 :: itoa v.natAbs else itoa v.natAbs

/-- The text of a truth value: `true` or `false`. -/
def formatBool (b : Bool) : Bytes := if b then [116, 114, 117, 101] else [102, 97, 108, 115, 101]

def Column.keyString : Column → Bytes
  | none => []
  | some (.string s) => s
  | some (.int32 v) => formatInt v.toInt
  | some (.int64 v) => formatInt v.toInt
  | some (.uint32 v) => itoa v.toNat
  | some (.uint64 v) => itoa v.toNat
  | some (.bytes b) => b
  | some (.bool b) => formatBool b

/-- What the columns add to a key. -/
def keyTokens (keys : List Column) : Bytes :=
  keys.flatMap fun key => lengthPrefixed (Column.keyString key)

def buildKeyString (tableName : Bytes) (keys : List Column) : Except TableError Bytes := do
  let tableNameKey ← getTableNameKey tableName
  return tableNameKey ++ keyTokens keys

/-- The key columns among the columns of a row, if all have the types of their definitions. -/
def verifyColumns (table : Bytes) : List Column → List ColumnDefinition →
    Except TableError (List Column)
  | column :: columns, definition :: definitions =>
    if column.any (fun v => definition.type = some v.type) then do
      let keys ← verifyColumns table columns definitions
      return if definition.key then column :: keys else keys
    else .error (.typeMismatch table definition.name definition.type)
  | _, _ => .ok []

def getKeyAndVerifyRow (table : Table) (row : Row) : Except TableError (List Column) :=
  if row.length ≠ table.columnDefinitions.length then
    .error (.columnCount table.name table.columnDefinitions.length row.length)
  else verifyColumns table.name row table.columnDefinitions

/-! ### Operations -/

/-- The state of a chaincode. -/
abbrev State (β : Type) := AList fun _ : Bytes => β

/-- The entries from a first key up to another, in the order of their keys. -/
def rangeQueryState {β : Type} (state : State β) (startKey endKey : Bytes) :
    List (Sigma fun _ : Bytes => β) :=
  (state.entries.filter fun e => startKey ≤ e.1 && e.1 < endKey).mergeSort fun e e' => e.1 ≤ e'.1

section Operations

variable {β : Type} (C : Codec β) (state : State β)

def getTable (tableName : Bytes) : Except TableError Table := do
  let tableNameKey ← getTableNameKey tableName
  match state.lookup tableNameKey with
  | none => .error .tableNotFound
  | some tableBytes =>
    match C.unmarshalTable tableBytes with
    | none => .error .unmarshalTable
    | some table => .ok table

/-- The checks of the column definitions from number `i` on, after those with the names `seen`. -/
def checkDefinitions (i : ℕ) (seen : List Bytes) : List (Option ColumnDefinition) →
    Except TableError (List ColumnDefinition)
  | [] => .ok []
  | none :: _ => .error (.nilDefinition i)
  | some definition :: definitions =>
    if definition.name.isEmpty then .error (.emptyColumnName i)
    else if seen.contains definition.name then .error (.duplicateColumn definition.name)
    else if definition.type.isNone then .error (.columnType definition.name)
    else do
      let checked ← checkDefinitions (i + 1) (definition.name :: seen) definitions
      return definition :: checked

def createTable (name : Bytes) (columnDefinitions : List (Option ColumnDefinition)) :
    Except TableError (State β) :=
  match getTable C state name with
  | .ok _ => .error (.tableExists name)
  | .error err =>
    if err ≠ .tableNotFound then .error (.createTableFailed err)
    else if columnDefinitions.isEmpty then .error .noColumns
    else do
      let definitions ← checkDefinitions 0 [] columnDefinitions
      if definitions.all fun definition => !definition.key then .error .noKey
      else
        let tableNameKey ← getTableNameKey name
        return state.insert tableNameKey (C.marshalTable ⟨name, definitions⟩)

/-- `InsertRow`, and `ReplaceRow` with `update`: whether the row was written, and the state. -/
def insertRowInternal (tableName : Bytes) (row : Row) (update : Bool) :
    Except TableError (Bool × State β) := do
  let table ← getTable C state tableName
  let key ← getKeyAndVerifyRow table row
  let keyString ← buildKeyString tableName key
  let present := (state.lookup keyString).isSome
  if (present && !update) || (!present && update) then return (false, state)
  else return (true, state.insert keyString (C.marshalRow row))

def getRow (tableName : Bytes) (key : List Column) : Except TableError Row := do
  let keyString ← buildKeyString tableName key
  match state.lookup keyString with
  -- no bytes are those of a row without columns
  | none => .ok []
  | some rowBytes =>
    match C.unmarshalRow rowBytes with
    | none => .error .unmarshalRow
    | some row => .ok row

/-- How the goroutine that sends the rows ends. -/
inductive ChannelEnd where
  | closed
  | panicked
deriving DecidableEq

/-- The rows that are sent. The channel is closed at bytes that are no row, and the row is sent. -/
def sendRows : List (Sigma fun _ : Bytes => β) → List Row × ChannelEnd
  | [] => ([], .closed)
  | e :: entries =>
    match C.unmarshalRow e.2 with
    | none => ([], .panicked)
    | some row => (row :: (sendRows entries).1, (sendRows entries).2)

def getRows (tableName : Bytes) (key : List Column) :
    Except TableError (List Row × ChannelEnd) := do
  let keyString ← buildKeyString tableName key
  let table ← getTable C state tableName
  if table.columnDefinitions.length < 2 ∧ 0 < key.length then
    let row ← getRow C state tableName key
    return ([row], .closed)
  else return sendRows C (rangeQueryState state (keyString ++ [49]) (keyString ++ [58]))

def deleteTable (tableName : Bytes) : Except TableError (State β) := do
  let tableNameKey ← getTableNameKey tableName
  let rows := rangeQueryState state (tableNameKey ++ [49]) (tableNameKey ++ [58])
  return (rows.foldl (fun state e => state.erase e.1) state).erase tableNameKey

end Operations

/-- Tables and rows as they are. -/
def exampleCodec : Codec (Table ⊕ Row) where
  marshalTable := .inl
  unmarshalTable := Sum.getLeft?
  marshalRow := .inr
  unmarshalRow := Sum.getRight?
  unmarshalTable_marshalTable _ := rfl
  unmarshalRow_marshalRow _ := rfl

end Fabric.Chaincode.Shim
