import Mathlib.Data.List.Perm.Basic
import Fabric.Chaincode.TableKeys

/-!
# Rows found by a range of keys

Rows are read and deleted by the range of the keys that go on, after a name and the first key
columns, with a digit other than zero. A row whose next key column is empty is not in the range,
and entries of other tables may be. What is stored was written by `CreateTable` and `InsertRow`.
-/

namespace Fabric.Chaincode.Shim

open Fabric.Common List

variable {β : Type} {C : Codec β} {state : State β}

/-- The key for some of the key columns. -/
def partialKey (name : Bytes) (keys : List Column) : Bytes := lengthPrefixed name ++ keyTokens keys

/-- A definition or a row that is stored. -/
inductive Entry where
  | definition (table : Table)
  | row (table : Bytes) (keys : List Column) (row : Row)

namespace Entry

def table : Entry → Bytes
  | definition table => table.name
  | row table _ _ => table

def keys : Entry → List Column
  | definition _ => []
  | row _ keys _ => keys

def key (e : Entry) : Bytes := partialKey e.table e.keys

def value (C : Codec β) : Entry → β
  | definition table => C.marshalTable table
  | row _ _ columns => C.marshalRow columns

end Entry

inductive Op where
  | createTable (name : Bytes) (columnDefinitions : List (Option ColumnDefinition))
  | insertRow (tableName : Bytes) (row : Row)

/-- The state after a call, and the entry that the call has written. -/
def Op.run (C : Codec β) (state : State β) : Op → State β × Option Entry
  | createTable name columnDefinitions =>
    match Shim.createTable C state name columnDefinitions with
    | .error _ => (state, none)
    | .ok state' => (state', (checkDefinitions 0 [] columnDefinitions).toOption.map
      fun definitions =>
        .definition ⟨name, definitions⟩)
  | insertRow tableName row =>
    match insertRowInternal C state tableName row false with
    | .ok (true, state') => (state', do
        let table ← (getTable C state tableName).toOption
        let keys ← (getKeyAndVerifyRow table row).toOption
        return .row tableName keys row)
    | _ => (state, none)

/-- The state after some calls, and the entries that they have written. -/
def build (C : Codec β) (ops : List Op) : State β × List Entry :=
  ops.foldl (fun s op => ((op.run C s.1).1, (op.run C s.1).2.toList ++ s.2)) (∅, [])

/-- A table with two key columns of texts. -/
def createPairs (name : Bytes) : Op :=
  .createTable name ((pairTable name .string .string).columnDefinitions.map some)

/-! ### What the calls have written -/

theorem insertRowInternal_eq_ok {tableName : Bytes} {row : Row} {state' : State β}
    (h : insertRowInternal C state tableName row false = .ok (true, state')) :
    ∃ table keys, getTable C state tableName = .ok table ∧ getKeyAndVerifyRow table row = .ok keys ∧
      partialKey tableName keys ∉ state ∧
      state' = state.insert (partialKey tableName keys) (C.marshalRow row) := by
  obtain ⟨table, htable, h⟩ := bind_eq_ok_iff.mp h
  obtain ⟨keys, hkeys, h⟩ := bind_eq_ok_iff.mp h
  obtain ⟨keyString, hkey, h⟩ := bind_eq_ok_iff.mp h
  have hname : tableName ≠ [] := by
    rintro rfl
    cases hkey
  cases (buildKeyString_eq hname keys).symm.trans hkey
  cases hpresent : state.lookup (lengthPrefixed tableName ++ keyTokens keys) with
  | some => simp [hpresent] at h
  | none =>
    simp only [hpresent] at h
    cases h
    exact ⟨table, keys, htable, hkeys, AList.lookup_eq_none.mp hpresent, rfl⟩

theorem Op.run_cases (C : Codec β) (state : State β) (op : Op) : op.run C state = (state, none) ∨
    ∃ e : Entry, e.key ∉ state ∧ op.run C state = (state.insert e.key (e.value C), some e) := by
  cases op with
  | createTable name columnDefinitions =>
    cases h : Shim.createTable C state name columnDefinitions with
    | error => exact .inl (by simp only [run, h])
    | ok =>
      obtain ⟨definitions, hdefinitions, -, -, hnew, rfl⟩ := createTable_eq_ok h
      refine .inr ⟨.definition ⟨name, definitions⟩, ?_, ?_⟩
      · simpa [Entry.key, partialKey, Entry.table, Entry.keys, keyTokens] using hnew
      · simp only [run, h, hdefinitions]
        simp [Entry.key, partialKey, Entry.table, Entry.keys, Entry.value, keyTokens,
          Except.toOption]
  | insertRow tableName row =>
    rcases h : insertRowInternal C state tableName row false with err | ⟨- | -, state'⟩
    · exact .inl (by simp only [run, h])
    · exact .inl (by simp only [run, h])
    · obtain ⟨table, keys, htable, hkeys, hnew, rfl⟩ := insertRowInternal_eq_ok h
      refine .inr ⟨.row tableName keys row, hnew, ?_⟩
      simp only [run, h, htable, Except.toOption]
      simp [hkeys, Entry.key, Entry.table, Entry.keys, Entry.value]

theorem entries_build (C : Codec β) (ops : List Op) :
    (build C ops).1.entries.Perm ((build C ops).2.map fun e => ⟨e.key, e.value C⟩) := by
  induction ops using List.reverseRecOn with
  | nil => exact .nil
  | append_singleton ops op ih =>
    simp only [build, foldl_append, foldl_cons, foldl_nil] at ih ⊢
    obtain hrun | ⟨e, hnew, hrun⟩ := op.run_cases C (ops.foldl _ (∅, [])).1
    · rw [hrun]
      exact ih
    · rw [hrun, AList.entries_insert_of_notMem hnew]
      exact ih.cons _

/-! ### The range -/

/-- The key goes on with a digit other than zero. -/
def DigitFollows (start key : Bytes) : Prop :=
  ∃ b rest, key = start ++ b :: rest ∧ 49 ≤ b ∧ b ≤ 57

theorem digitFollows_iff {start key : Bytes} :
    DigitFollows start key ↔ start ++ [49] ≤ key ∧ key < start ++ [58] := by
  unfold DigitFollows
  induction start generalizing key with
  | nil =>
    cases key with
    | nil => simp
    | cons b =>
      have hbyte : (49 ≤ b ∧ b ≤ 57) ↔ (49 < b ∨ 49 = b) ∧ b < 58 := by
        simp only [UInt8.le_iff_toNat_le, UInt8.lt_iff_toNat_lt, ← UInt8.toNat_inj,
          UInt8.reduceToNat]
        omega
      simp [cons_le_cons_iff, cons_lt_cons_iff, ← hbyte]
  | cons a _ ih =>
    cases key with
    | nil => simp
    | cons c =>
      simp only [cons_append, cons_le_cons_iff, cons_lt_cons_iff]
      by_cases hac : a = c
      · simpa [hac] using ih
      · have hne := Ne.symm hac
        simp only [List.cons.injEq, hac, hne, false_and, exists_const, or_false, false_iff, not_and]
        exact fun hlt => UInt8.lt_asymm hlt

instance (start key : Bytes) : Decidable (DigitFollows start key) :=
  decidable_of_iff _ digitFollows_iff.symm

/-- The first of the columns has a text. -/
def Opens (keys : List Column) : Bool := keys.head?.any fun c => Column.keyString c ≠ []

theorem digitFollows_keyTokens (start : Bytes) (keys : List Column) :
    DigitFollows start (start ++ keyTokens keys) ↔ Opens keys = true := by
  unfold DigitFollows
  simp only [append_cancel_left_eq]
  cases keys with
  | nil => simp [keyTokens, Opens]
  | cons c =>
    rw [keyTokens_cons, token, lengthPrefixed]
    by_cases htext : Column.keyString c = []
    · -- the length of an empty text is the digit zero
      simp only [htext, Opens, List.head?_cons, Option.any_some, ne_eq, not_true_eq_false,
        decide_false, Bool.false_eq_true, iff_false]
      rintro ⟨b, rest, heq, hb, -⟩
      obtain rfl := (List.cons.inj heq).1
      exact absurd hb (by decide)
    · obtain ⟨b, rest, heq, hb⟩ := exists_itoa_eq_cons (length_pos_iff.mpr htext)
      simp only [heq, Opens, List.head?_cons, Option.any_some, ne_eq, htext, not_false_eq_true,
        decide_true, iff_true]
      exact ⟨b, _, rfl, hb⟩

/-- The entries whose keys go on with a digit other than zero. -/
def inRange (start : Bytes) (entries : List Entry) : List Entry :=
  entries.filter fun e => DigitFollows start e.key

theorem rangeQueryState_perm (C : Codec β) (ops : List Op) (start : Bytes) :
    (rangeQueryState (build C ops).1 (start ++ [49]) (start ++ [58])).Perm
      ((inRange start (build C ops).2).map fun e => ⟨e.key, e.value C⟩) := by
  refine (mergeSort_perm _ _).trans (((entries_build C ops).filter _).trans ?_)
  rw [filter_map]
  refine .of_eq (congrArg _ (filter_congr fun e _ => ?_))
  simp [digitFollows_iff]

/-! ### Reading rows -/

section GetRows

variable (name : Bytes) (key : List Column)

/-- The row, if it belongs to the table and its key begins with the given columns. -/
def Entry.matching : Entry → Option Row
  | .row table keys columns => if table = name ∧ key <+: keys then some columns else none
  | .definition _ => none

/-- The rows sent are those of the table that match, and the channel is closed once. -/
def GetsExactly (C : Codec β) (s : State β × List Entry) : Prop :=
  ∃ rows, getRows C s.1 name key = .ok (rows, .closed) ∧
    rows.Perm (s.2.filterMap (Entry.matching name key))

/-- The rows that match and have an empty text in the next key column. -/
def missed (entries : List Entry) : List Row :=
  entries.filterMap fun e =>
    if Opens (e.keys.drop key.length) then none else e.matching name key

/-- The other entries whose keys go on, after the given columns, with a digit other than zero. -/
def strays (entries : List Entry) : List Entry :=
  (inRange (partialKey name key) entries).filter
    fun e => !(e.matching name key).isSome

variable {name key} {entries : List (Sigma fun _ : Bytes => β)}

theorem sendRows_closed_iff :
    (sendRows C entries).2 = .closed ↔ ∀ e ∈ entries, (C.unmarshalRow e.2).isSome = true := by
  induction entries with
  | nil => simp [sendRows]
  | cons e _ ih => cases h : C.unmarshalRow e.2 <;> simp [sendRows, h, ih]

theorem sendRows_fst (h : (sendRows C entries).2 = .closed) :
    (sendRows C entries).1 = entries.filterMap fun e => C.unmarshalRow e.2 := by
  induction entries with
  | nil => rfl
  | cons _ _ ih =>
    unfold sendRows at h ⊢
    split at h
    · cases h
    · rename_i row hrow
      simp [hrow, ih h]

theorem Entry.digitFollows_of_matching {e : Entry} {row : Row}
    (h : e.matching name key = some row) : C.unmarshalRow (e.value C) = some row ∧
      (DigitFollows (partialKey name key) e.key ↔ Opens (e.keys.drop key.length) = true) := by
  cases e with
  | definition => cases h
  | row table keys =>
    simp only [matching, Option.ite_none_right_eq_some, Option.some.injEq] at h
    obtain ⟨⟨rfl, rest, rfl⟩, rfl⟩ := h
    refine ⟨C.unmarshalRow_marshalRow _, ?_⟩
    rw [Entry.key, Entry.table, Entry.keys, partialKey, partialKey, keyTokens_append,
      ← append_assoc, digitFollows_keyTokens, drop_left]

theorem getsExactly_iff_inRange {ops : List Op} {table : Table}
    (htable : getTable C (build C ops).1 name = .ok table)
    (hcolumns : 2 ≤ table.columnDefinitions.length) :
    GetsExactly name key C (build C ops) ↔ (∀ e ∈ inRange (partialKey name key) (build C ops).2,
        (C.unmarshalRow (e.value C)).isSome = true) ∧
      ((inRange (partialKey name key) (build C ops).2).filterMap
        fun e => C.unmarshalRow (e.value C)).Perm
          ((build C ops).2.filterMap (Entry.matching name key)) := by
  have hname : name ≠ [] := by
    rintro rfl
    cases htable
  have hrows : getRows C (build C ops).1 name key = .ok (sendRows C (rangeQueryState
      (build C ops).1 (partialKey name key ++ [49]) (partialKey name key ++ [58]))) := by
    simp only [getRows, buildKeyString_eq hname, htable, ok_bind]
    rw [if_neg (by omega)]
    rfl
  have hrange := rangeQueryState_perm C ops (partialKey name key)
  have hsent := hrange.filterMap fun e => C.unmarshalRow e.2
  rw [filterMap_map] at hsent
  have hclosed := @sendRows_closed_iff β C
    (rangeQueryState (build C ops).1 (partialKey name key ++ [49]) (partialKey name key ++ [58]))
  simp only [hrange.mem_iff, forall_mem_map] at hclosed
  rw [GetsExactly, hrows, ← hclosed]
  generalize rangeQueryState _ _ _ = entries at *
  constructor
  · rintro ⟨rows, hrows, hperm⟩
    have heq := Except.ok.inj hrows
    have hend := congrArg Prod.snd heq
    have hfst : (sendRows C entries).1 = rows := congrArg Prod.fst heq
    rw [← hfst, sendRows_fst hend] at hperm
    exact ⟨hend, hsent.symm.trans hperm⟩
  · rintro ⟨hend, hperm⟩
    refine ⟨(sendRows C entries).1, congrArg Except.ok (Prod.ext rfl hend), ?_⟩
    rw [sendRows_fst hend]
    exact hsent.trans hperm

theorem filterMap_filter_append_perm {α γ : Type} (p : α → Bool) (f : α → Option γ) (l : List α) :
    ((l.filter p).filterMap f ++ (l.filter fun a => !p a).filterMap f).Perm (l.filterMap f) := by
  rw [← filterMap_append]
  exact (filter_append_perm p l).filterMap f

/-- `GetRows` is exact for a partial key exactly if the entries that stray into its range are rows
and are, up to their order, those that it misses. -/
theorem getsExactly_iff (C : Codec β) (ops : List Op) {table : Table}
    (htable : getTable C (build C ops).1 name = .ok table)
    (hcolumns : 2 ≤ table.columnDefinitions.length) :
    GetsExactly name key C (build C ops) ↔
      (∀ e ∈ strays name key (build C ops).2, (C.unmarshalRow (e.value C)).isSome = true) ∧
      ((strays name key (build C ops).2).filterMap fun e => C.unmarshalRow (e.value C)).Perm
        (missed name key (build C ops).2) := by
  rw [getsExactly_iff_inRange htable hcolumns]
  generalize (build C ops).2 = entries
  -- the entries in the range are found or strays
  have hfound := filterMap_filter_append_perm (fun e => (e.matching name key).isSome)
    (fun e => C.unmarshalRow (e.value C)) (inRange (partialKey name key) entries)
  have hmatching : ((inRange (partialKey name key) entries).filter
      fun e => (e.matching name key).isSome).filterMap (fun e => C.unmarshalRow (e.value C)) =
      (inRange (partialKey name key) entries).filterMap (Entry.matching name key) := by
    rw [filterMap_filter]
    refine filterMap_congr fun e _ => ?_
    cases hrow : e.matching name key with
    | none => rfl
    | some => exact (e.digitFollows_of_matching hrow).1
  -- the rows that match are found or missed
  have hrest := filterMap_filter_append_perm
    (fun e => decide (DigitFollows (partialKey name key) e.key))
    (Entry.matching name key) entries
  have hmissed : (entries.filter fun e =>
      !decide (DigitFollows (partialKey name key) e.key)).filterMap
      (Entry.matching name key) = missed name key entries := by
    rw [filterMap_filter]
    refine filterMap_congr fun e _ => ?_
    cases hrow : e.matching name key with
    | none => simp
    | some =>
      have hdigit := (e.digitFollows_of_matching (C := C) hrow).2
      cases hopens : Opens (e.keys.drop key.length) <;> simp [hdigit, hopens]
  rw [hmatching] at hfound
  rw [hmissed] at hrest
  refine and_congr ⟨fun h e he => h e (mem_of_mem_filter he), fun h e he => ?_⟩ ?_
  · cases hrow : e.matching name key with
    | none => exact h e (mem_filter.mpr ⟨he, by simp [hrow]⟩)
    | some => rw [(e.digitFollows_of_matching hrow).1]; rfl
  · rw [← hfound.congr_left, ← List.Perm.congr_right hrest]
    exact perm_append_left_iff _

/-- Two of the three rows of a table begin with the text `a`. -/
theorem getsExactly_iff_three : GetsExactly [116] [some (.string [97])] exampleCodec
    (build exampleCodec [createPairs [116],
      .insertRow [116] [some (.string [97]), some (.string [98])],
      .insertRow [116] [some (.string [97]), some (.string [99])],
      .insertRow [116] [some (.string [98]), some (.string [99])]]) :=
  (@getsExactly_iff _ _ _ exampleCodec _ (pairTable [116] .string .string) (by rfl) (by decide)).mpr
    (by decide +kernel)

/-- A row with an empty text is not found, and one whose text begins with a digit is found. -/
theorem not_getsExactly : ¬GetsExactly [116] [some (.string [97])] exampleCodec (build exampleCodec
      [createPairs [116], .insertRow [116] [some (.string [97]), some (.string [])]]) ∧
    ¬GetsExactly [116] [some (.string [50])] exampleCodec (build exampleCodec [createPairs [116],
      .insertRow [116] [some (.string (49 :: List.replicate 11 97)), some (.string [98])]]) := by
  constructor
  all_goals
    rw [@getsExactly_iff_inRange _ _ _ _ _ (pairTable [116] .string .string) (by rfl) (by decide)]
    decide +kernel

end GetRows

/-! ### Deleting a table -/

section DeleteTable

variable {name : Bytes}

/-- The definition and the rows of the table are removed, and nothing else. -/
def DeletesExactly (name : Bytes) (s : State β × List Entry) : Prop :=
  ∃ state', deleteTable s.1 name = .ok state' ∧
    ∀ e ∈ s.2, state'.lookup e.key = if e.table = name then none else s.1.lookup e.key

theorem lookup_foldl_erase (entries : List (Sigma fun _ : Bytes => β)) (k : Bytes) :
    (entries.foldl (fun state e => state.erase e.1) state).lookup k =
      if entries.any fun e => e.1 = k then none else state.lookup k := by
  induction entries generalizing state with
  | nil => rfl
  | cons e _ ih =>
    rw [foldl_cons, ih, any_cons]
    by_cases hk : e.1 = k
    · subst hk
      simp
    · rw [AList.lookup_erase_ne (Ne.symm hk), decide_eq_false hk, Bool.false_or]

theorem lookup_deleteTable (C : Codec β) (ops : List Op) (hname : name ≠ []) :
    ∃ state', deleteTable (build C ops).1 name = .ok state' ∧ ∀ e ∈ (build C ops).2,
      state'.lookup e.key = if e.key = lengthPrefixed name ∨
        DigitFollows (lengthPrefixed name) e.key
        then none else (build C ops).1.lookup e.key := by
  refine ⟨_, by rw [deleteTable, getTableNameKey, if_neg (by simpa using hname)]; rfl, ?_⟩
  intro e he
  by_cases hkey : e.key = lengthPrefixed name
  · rw [if_pos (.inl hkey), hkey, AList.lookup_erase]
  have hrange : ((rangeQueryState (build C ops).1 (lengthPrefixed name ++ [49])
      (lengthPrefixed name ++ [58])).any fun e' => e'.1 = e.key) =
      decide (DigitFollows (lengthPrefixed name) e.key) := by
    rw [(rangeQueryState_perm C ops (lengthPrefixed name)).any_eq, any_map, Bool.eq_iff_iff]
    simp only [any_eq_true, Function.comp, decide_eq_true_eq, inRange, mem_filter]
    constructor
    · rintro ⟨e', ⟨-, hdigit⟩, heq⟩
      exact heq ▸ hdigit
    · exact fun hdigit => ⟨e, ⟨he, hdigit⟩, rfl⟩
  rw [AList.lookup_erase_ne hkey, lookup_foldl_erase, hrange]
  simp [hkey]

theorem deletesExactly_iff_removed (C : Codec β) (ops : List Op) (hname : name ≠ []) :
    DeletesExactly name (build C ops) ↔ ∀ e ∈ (build C ops).2,
      ((e.key = lengthPrefixed name ∨ DigitFollows (lengthPrefixed name) e.key) ↔
        e.table = name) := by
  obtain ⟨state', hdelete, hlookup⟩ := lookup_deleteTable C ops hname
  simp only [DeletesExactly, hdelete, Except.ok.injEq, exists_eq_left']
  refine forall₂_congr fun e he => ?_
  have hstored := AList.mem_lookup_iff.mpr ((entries_build C ops).mem_iff.mpr (mem_map_of_mem he))
  rw [hlookup e he, hstored]
  by_cases hkey : e.key = lengthPrefixed name ∨ DigitFollows (lengthPrefixed name) e.key <;>
    by_cases htable : e.table = name <;> simp [hkey]

/-- `DeleteTable` has its effect exactly if no row of the table has an empty text in its first key
column, and no other key is that of the definition or goes on after it with a nonzero digit. -/
theorem deletesExactly_iff (C : Codec β) (ops : List Op) (hname : name ≠ []) :
    DeletesExactly name (build C ops) ↔
      (∀ e ∈ (build C ops).2, e.table = name → ∀ c ∈ e.keys.head?, Column.keyString c ≠ []) ∧
      ∀ e ∈ (build C ops).2, e.table ≠ name →
        e.key ≠ lengthPrefixed name ∧ ¬DigitFollows (lengthPrefixed name) e.key := by
  rw [deletesExactly_iff_removed C ops hname, ← forall₂_and]
  refine forall₂_congr fun e he => ?_
  by_cases htable : e.table = name
  · rw [Entry.key, htable, partialKey, digitFollows_keyTokens]
    cases e.keys <;> simp [keyTokens, Opens]
  · simp [htable]

theorem deletesExactly_iff_two : DeletesExactly [116] (build exampleCodec
    [createPairs [116], .insertRow [116] [some (.string [97]), some (.string [])],
      createPairs [117], .insertRow [117] [some (.string [97]), some (.string [98])]]) :=
  (deletesExactly_iff exampleCodec _ (by decide)).mpr (by decide +kernel)

/-- A row with an empty text is left, and the definition of another table is deleted. -/
theorem not_deletesExactly : ¬DeletesExactly [116] (build exampleCodec
      [createPairs [116], .insertRow [116] [some (.string []), some (.string [98])]]) ∧
    ¬DeletesExactly [48] (build exampleCodec
      [createPairs [48], createPairs (49 :: List.replicate 9 120)]) := by
  constructor
  all_goals
    rw [deletesExactly_iff_removed _ _ (by decide)]
    decide +kernel

end DeleteTable

end Fabric.Chaincode.Shim
