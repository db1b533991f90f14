import Mathlib.Data.List.Chain
import Fabric.Chaincode.Table

/-!
# Keys of rows

The key of a row is read back only where the types of the key columns tell how: truth values have
two texts, and numbers end where such a text begins, so that one text column can stand between
them. Other neighbours give different rows the same key. Keys of different tables differ where no
table name begins with a digit.
-/

namespace Fabric.Chaincode.Shim

open Fabric.Common List Option Column

def Column.type (column : Column) : Option ColumnType := Option.map Value.type column

/-- The part of the key for a column. -/
abbrev token (column : Column) : Bytes := lengthPrefixed (Column.keyString column)

def ColumnType.isText : ColumnType → Bool
  | .string | .bytes => true
  | _ => false

/-- The types of the key columns. -/
def keyTypes (definitions : List ColumnDefinition) : List ColumnType :=
  definitions.filterMap fun definition => if definition.key then definition.type else none

/-- Rows with the same key have the same key columns. -/
def DistinctKeys (table : Table) : Prop :=
  ∀ row row' keys keys', getKeyAndVerifyRow table row = .ok keys →
    getKeyAndVerifyRow table row' = .ok keys' →
    buildKeyString table.name keys = buildKeyString table.name keys' → keys = keys'

/-- No row of the one table has the key of a row, or of the definition, of the other. -/
def Apart (table table' : Table) : Prop :=
  ∀ row keys, getKeyAndVerifyRow table row = .ok keys →
    buildKeyString table.name keys ≠ getTableNameKey table'.name ∧
    ∀ row' keys', getKeyAndVerifyRow table' row' = .ok keys' →
      buildKeyString table.name keys ≠ buildKeyString table'.name keys'

/-- A row of `table` that is inserted leaves the definition and the other rows of `table'` as they
are, and with them what inserting such a row reports. -/
def InsertsAlone {β : Type} (C : Codec β) (table table' : Table) : Prop :=
  ∀ state row keys update written state', getTable C state table.name = .ok table →
    getKeyAndVerifyRow table row = .ok keys →
    insertRowInternal C state table.name row update = .ok (written, state') →
    getTable C state' table'.name = getTable C state table'.name ∧
    ∀ row' keys', getKeyAndVerifyRow table' row' = .ok keys' →
      (table'.name = table.name → keys' ≠ keys) →
      getRow C state' table'.name keys' = getRow C state table'.name keys' ∧
      ∀ update', getTable C state table'.name = .ok table' →
        (insertRowInternal C state' table'.name row' update').map Prod.fst =
          (insertRowInternal C state table'.name row' update').map Prod.fst

/-- There is one text column at most, and of two neighbours one is a truth value. -/
def SelfDelimiting (types : List ColumnType) : Prop :=
  types.Pairwise (fun t t' => ¬(t.isText = true ∧ t'.isText = true)) ∧
  types.IsChain fun t t' => t = .bool ∨ t' = .bool

/-! ### Texts of columns -/

/-- A byte of a number. -/
def isNumeral (b : UInt8) : Bool := b = 45 || isDigit b

theorem formatInt_injective : Function.Injective formatInt := by
  have hsign : ∀ n rest, itoa n ≠ 45 :: rest := by
    intro n rest h
    have hdigit := isDigit_of_mem_itoa (h ▸ mem_cons_self)
    cases hdigit
  intro v w h
  unfold formatInt at h
  split_ifs at h with hv hw hw
  · have := itoa_injective (List.cons.inj h).2
    omega
  · exact absurd h.symm (hsign _ _)
  · exact absurd h (hsign _ _)
  · have := itoa_injective h
    omega

theorem isNumeral_of_mem_formatInt {v : ℤ} {b : UInt8} (h : b ∈ formatInt v) :
    isNumeral b = true := by
  unfold formatInt at h
  split_ifs at h
  · obtain rfl | h := mem_cons.mp h
    · rfl
    · simp [isNumeral, isDigit_of_mem_itoa h]
  · simp [isNumeral, isDigit_of_mem_itoa h]

variable {t : ColumnType} {c c' : Column}

theorem eq_of_keyString (h : c.type = some t) (h' : type c' = some t)
    (heq : keyString c = keyString c') : c = c' := by
  obtain ⟨v, rfl, rfl⟩ := map_eq_some_iff.mp h
  obtain ⟨v', rfl, hv'⟩ := map_eq_some_iff.mp h'
  cases v <;> cases v' <;> cases hv' <;> simp only [keyString] at heq
  case string.string | bytes.bytes => rw [heq]
  case int32.int32 => rw [Int32.toInt_inj.mp (formatInt_injective heq)]
  case int64.int64 => rw [Int64.toInt_inj.mp (formatInt_injective heq)]
  case uint32.uint32 => rw [UInt32.toNat_inj.mp (itoa_injective heq)]
  case uint64.uint64 => rw [UInt64.toNat_inj.mp (itoa_injective heq)]
  case bool.bool b b' => cases b <;> cases b' <;> first | rfl | cases heq

theorem eq_of_lengthPrefixed (h : c.type = some t) (h' : type c' = some t)
    (heq : token c = token c') : c = c' :=
  eq_of_keyString h h' (lengthPrefixed_injective heq)

theorem isNumeral_of_mem (h : type c = some t) (ht : t.isText = false) (hbool : t ≠ .bool) :
    ∀ b ∈ token c, isNumeral b = true := by
  have htext : ∀ b ∈ keyString c, isNumeral b = true := by
    intro b hb
    obtain ⟨v, rfl, rfl⟩ := map_eq_some_iff.mp h
    cases v with
    | string _ | bytes _ => cases ht
    | bool _ => exact absurd rfl hbool
    | int32 v | int64 v => exact isNumeral_of_mem_formatInt hb
    | uint32 v | uint64 v => simp [isNumeral, isDigit_of_mem_itoa hb]
  intro b hb
  obtain hb | hb := mem_append.mp hb
  · simp [isNumeral, isDigit_of_mem_itoa hb]
  · exact htext b hb

theorem exists_bool (h : type c = some .bool) : ∃ b, c = some (.bool b) := by
  obtain ⟨v, rfl, hv⟩ := map_eq_some_iff.mp h
  cases v <;> cases hv
  exact ⟨_, rfl⟩

/-! ### Reading a key -/

section Reading

variable {types : List ColumnType} {ks ks' : List Column} {u u' r r' : Bytes} {b b' : Bool}

theorem keyTokens_cons (c : Column) (ks : List Column) :
    keyTokens (c :: ks) = token c ++ keyTokens ks := rfl

theorem keyTokens_append (ks ks' : List Column) :
    keyTokens (ks ++ ks') = keyTokens ks ++ keyTokens ks' := flatMap_append

theorem eq_of_bool_append (h : lengthPrefixed (formatBool b) ++ r =
    lengthPrefixed (formatBool b') ++ r') : b = b' ∧ r = r' := by
  cases b <;> cases b' <;>
    simp +decide [lengthPrefixed, itoa, Nat.toDigits, Nat.toDigitsCore] at h ⊢ <;> exact h

theorem eq_of_append_bool (h : r ++ lengthPrefixed (formatBool b) =
    r' ++ lengthPrefixed (formatBool b')) : b = b' ∧ r = r' := by
  have hreverse := congrArg List.reverse h
  cases b <;> cases b' <;>
    simp +decide [formatBool, lengthPrefixed] at hreverse ⊢ <;>
    exact hreverse

theorem eq_of_run_append_bool (hu : ∀ a ∈ u, isNumeral a = true)
    (hu' : ∀ a ∈ u', isNumeral a = true)
    (h : u ++ (lengthPrefixed (formatBool b) ++ r) = u' ++ (lengthPrefixed (formatBool b') ++ r')) :
    u = u' := by
  have hsplit : ∀ b, ∃ d c rest, lengthPrefixed (formatBool b) = d :: c :: rest ∧
      isNumeral d = true ∧ isNumeral c = false := by
    intro b
    cases b <;> exact ⟨_, _, _, rfl, by decide, by decide⟩
  obtain ⟨d, c, rest, hb, hd, hc⟩ := hsplit b
  obtain ⟨d', c', rest', hb', hd', hc'⟩ := hsplit b'
  rw [hb, hb'] at h
  have hrun : (u ++ [d]) ++ c :: (rest ++ r) = (u' ++ [d']) ++ c' :: (rest' ++ r') := by
    simpa using h
  have heq := (append_cons_inj_of_run (by simpa [or_imp, forall_and] using ⟨hu, hd⟩)
    (by simpa [or_imp, forall_and] using ⟨hu', hd'⟩) hc hc' hrun).1
  exact (append_inj' heq rfl).1

theorem exists_keyTokens_eq_append (hks : ks.map type = types.map some)
    (hlast : types.getLast? = some .bool) : ∃ s, keyTokens ks = s ++ [101] := by
  obtain ⟨types, rfl⟩ := List.getLast?_eq_some_iff.mp hlast
  rw [map_append] at hks
  obtain ⟨ks, last, rfl, -, hlast⟩ := map_eq_append_iff.mp hks
  obtain ⟨c, rfl, hc⟩ := map_eq_singleton_iff.mp hlast
  obtain ⟨b, rfl⟩ := exists_bool hc
  rw [keyTokens_append]
  cases b
  · exact ⟨keyTokens ks ++ [53, 102, 97, 108, 115], by rw [append_assoc]; rfl⟩
  · exact ⟨keyTokens ks ++ [52, 116, 114, 117], by rw [append_assoc]; rfl⟩

theorem eq_of_append_keyTokens (htext : ∀ t ∈ types, t.isText = false)
    (hchain : types.IsChain fun t t' => t = .bool ∨ t' = .bool)
    (hhead : ∀ t ∈ types.head?, t = .bool) (hks : ks.map type = types.map some)
    (hks' : ks'.map type = types.map some) (h : r ++ keyTokens ks = r' ++ keyTokens ks') :
    r = r' ∧ ks = ks' := by
  induction types using List.reverseRecOn generalizing ks ks' with
  | nil =>
    obtain rfl : ks = [] := by simpa using hks
    obtain rfl : ks' = [] := by simpa using hks'
    exact ⟨by simpa using h, rfl⟩
  | append_singleton types t ih =>
    obtain ⟨hchain, -, hneighbour⟩ := isChain_append.mp hchain
    rw [map_append] at hks hks'
    obtain ⟨ks, last, rfl, hfront, hlast⟩ := map_eq_append_iff.mp hks
    obtain ⟨ks', last', rfl, hfront', hlast'⟩ := map_eq_append_iff.mp hks'
    obtain ⟨c, rfl, hc⟩ := map_eq_singleton_iff.mp hlast
    obtain ⟨c', rfl, hc'⟩ := map_eq_singleton_iff.mp hlast'
    have hlast : r ++ keyTokens ks = r' ++ keyTokens ks' ∧ c = c' := by
      simp only [keyTokens_append, keyTokens_cons, ← append_assoc] at h
      simp only [keyTokens, flatMap_nil, append_nil] at h
      by_cases hbool : t = .bool
      · subst hbool
        obtain ⟨b, rfl⟩ := exists_bool hc
        obtain ⟨b', rfl⟩ := exists_bool hc'
        obtain ⟨rfl, heq⟩ := eq_of_append_bool h
        exact ⟨heq, rfl⟩
      · -- the number follows a truth value
        have hprevious : types.getLast? = some .bool := by
          cases hlast : types.getLast? with
          | none =>
            rw [List.getLast?_eq_none_iff.mp hlast] at hhead
            exact absurd (hhead t rfl) hbool
          | some t' => rw [(hneighbour t' hlast t rfl).resolve_right hbool]
        obtain ⟨s, hs⟩ := exists_keyTokens_eq_append hfront hprevious
        obtain ⟨s', hs'⟩ := exists_keyTokens_eq_append hfront' hprevious
        have hnumber := htext t (by simp)
        change r ++ keyTokens ks ++ _ = r' ++ keyTokens ks' ++ _ at h
        rw [hs, hs'] at h ⊢
        have hends : (r ++ s) ++ 101 :: token c = (r' ++ s') ++ 101 :: token c' := by simpa using h
        obtain ⟨hrest, -, hrun⟩ := append_cons_inj_of_run_right
          (isNumeral_of_mem hc hnumber hbool) (isNumeral_of_mem hc' hnumber hbool)
          (by decide) (by decide) hends
        rw [← append_assoc, ← append_assoc, hrest]
        exact ⟨rfl, eq_of_lengthPrefixed hc hc' hrun⟩
    obtain ⟨rfl, rfl⟩ := ih (fun t ht => htext t (mem_append_left _ ht)) hchain
      (fun t ht => hhead t (by rw [List.head?_append, mem_def.mp ht]; rfl)) hfront hfront' hlast.1
    exact ⟨rfl, by rw [hlast.2]⟩

/-- Columns are read from the front up to the first text, which is what the columns after it
leave. -/
theorem keyTokens_injective (h : SelfDelimiting types) (hks : ks.map type = types.map some)
    (hks' : ks'.map type = types.map some) (heq : keyTokens ks = keyTokens ks') :
    ks = ks' := by
  induction types generalizing ks ks' with
  | nil =>
    obtain rfl : ks = [] := by simpa using hks
    obtain rfl : ks' = [] := by simpa using hks'
    rfl
  | cons t types ih =>
    obtain ⟨htexts, hrest⟩ := pairwise_cons.mp h.1
    obtain ⟨hneighbour, hchain⟩ := isChain_cons.mp h.2
    obtain ⟨c, ks, rfl, hc, htail⟩ := map_eq_cons_iff.mp hks
    obtain ⟨c', ks', rfl, hc', htail'⟩ := map_eq_cons_iff.mp hks'
    simp only [keyTokens_cons] at heq
    by_cases hbool : t = .bool
    · subst hbool
      obtain ⟨b, rfl⟩ := exists_bool hc
      obtain ⟨b', rfl⟩ := exists_bool hc'
      obtain ⟨rfl, hsame⟩ := eq_of_bool_append heq
      rw [ih ⟨hrest, hchain⟩ htail htail' hsame]
    have hhead : ∀ t' ∈ types.head?, t' = .bool :=
      fun t' ht' => (hneighbour t' ht').resolve_left hbool
    cases htext : t.isText with
    | true =>
      have hnone : ∀ t' ∈ types, t'.isText = false :=
        fun t' ht' => Bool.eq_false_iff.mpr fun h' => htexts t' ht' ⟨htext, h'⟩
      obtain ⟨hsame, rfl⟩ := eq_of_append_keyTokens hnone hchain hhead htail htail' heq
      rw [eq_of_lengthPrefixed hc hc' hsame]
    | false =>
      -- the run of the number ends with the columns or before a truth value
      have hrun : token c = token c' := by
        have hc₁ := isNumeral_of_mem hc htext hbool
        have hc₁' := isNumeral_of_mem hc' htext hbool
        cases types with
        | nil =>
          obtain rfl : ks = [] := by simpa using htail
          obtain rfl : ks' = [] := by simpa using htail'
          simpa using heq
        | cons t' =>
          obtain rfl := hhead t' rfl
          obtain ⟨c₂, ks, rfl, hc₂, -⟩ := map_eq_cons_iff.mp htail
          obtain ⟨c₂', ks', rfl, hc₂', -⟩ := map_eq_cons_iff.mp htail'
          obtain ⟨b, rfl⟩ := exists_bool hc₂
          obtain ⟨b', rfl⟩ := exists_bool hc₂'
          exact eq_of_run_append_bool hc₁ hc₁' heq
      rw [hrun] at heq
      rw [eq_of_lengthPrefixed hc hc' hrun,
        ih ⟨hrest, hchain⟩ htail htail' (append_cancel_left heq)]

end Reading

/-! ### Rows with the same key -/

section Collisions

variable {types : List ColumnType}

/-- A column with the text of a number, or a truth value. -/
def numeral (n : ℕ) : ColumnType → Column
  | .string => some (.string (itoa n))
  | .int32 => some (.int32 (.ofNat n))
  | .int64 => some (.int64 (.ofNat n))
  | .uint32 => some (.uint32 (.ofNat n))
  | .uint64 => some (.uint64 (.ofNat n))
  | .bytes => some (.bytes (itoa n))
  | .bool => some (.bool false)

@[simp] theorem type_numeral (n : ℕ) (t : ColumnType) : type (numeral n t) = some t := by
  cases t <;> rfl

@[simp] theorem type_comp_numeral (n : ℕ) : type ∘ numeral n = some :=
  funext (type_numeral n)

theorem keyString_numeral (n : ℕ) (hn : n ∈ [0, 1, 1012345678, 1234567811]) (ht : t ≠ .bool) :
    keyString (numeral n t) = itoa n := by
  revert n
  cases t <;> first | exact absurd rfl ht | decide +kernel

/-- A column with a text. -/
def textColumn (text : Bytes) (t : ColumnType) : Column :=
  if t = .string then some (.string text) else some (.bytes text)

theorem textColumn_of_isText (ht : t.isText = true) (text : Bytes) :
    type (textColumn text t) = some t ∧ keyString (textColumn text t) = text := by
  cases t <;> first | exact ⟨rfl, rfl⟩ | cases ht

/-- Different columns of the types that give the same key. -/
def Ambiguous (types : List ColumnType) : Prop :=
  ∃ ks ks', ks.map Column.type = types.map some ∧ ks'.map Column.type = types.map some ∧
    ks ≠ ks' ∧ keyTokens ks = keyTokens ks'

theorem ambiguous_of_pair (pre mid post : List ColumnType) {t' : ColumnType}
    {d d' : Column} (hc : type c = some t) (hd : type d = some t')
    (hc' : type c' = some t) (hd' : type d' = some t') (hne : c ≠ c')
    (heq : token c ++ (keyTokens (mid.map (numeral 0)) ++ token d) =
      token c' ++ (keyTokens (mid.map (numeral 0)) ++ token d')) :
    Ambiguous (pre ++ t :: (mid ++ t' :: post)) := by
  refine ⟨pre.map (numeral 0) ++ c :: (mid.map (numeral 0) ++ d :: post.map (numeral 0)),
    pre.map (numeral 0) ++ c' :: (mid.map (numeral 0) ++ d' :: post.map (numeral 0)),
    by simp [hc, hd], by simp [hc', hd'], ?_, ?_⟩
  · intro h
    exact hne (List.cons.inj (append_cancel_left h)).1
  · have hpost := congrArg (· ++ keyTokens (post.map (numeral 0))) heq
    simp only [append_assoc] at hpost
    simp only [keyTokens_append, keyTokens_cons, hpost]

theorem ambiguous_of_not_selfDelimiting (h : ¬SelfDelimiting types) : Ambiguous types := by
  rw [SelfDelimiting, not_and_or] at h
  rcases h with h | h
  · rw [pairwise_iff_forall_sublist] at h
    push Not at h
    obtain ⟨t, t', hsub, ht, ht'⟩ := h
    obtain ⟨front, back, rfl, hfront, hback⟩ := cons_sublist_iff.mp hsub
    obtain ⟨pre, mid, rfl⟩ := append_of_mem hfront
    obtain ⟨mid', post, rfl⟩ := append_of_mem (singleton_sublist.mp hback)
    obtain ⟨x, y, x', y', hne, heq⟩ :=
      exists_lengthPrefixed_collision (keyTokens ((mid ++ mid').map (numeral 0)))
    have hx := textColumn_of_isText ht x
    have hy := textColumn_of_isText ht' y
    have hx' := textColumn_of_isText ht x'
    have hy' := textColumn_of_isText ht' y'
    have hpair := ambiguous_of_pair pre (mid ++ mid') post hx.1 hy.1 hx'.1 hy'.1
      (fun hsame => hne (by rw [← hx.2, hsame, hx'.2]))
        (by rw [token, token, token, token, hx.2, hy.2, hx'.2, hy'.2, heq])
    simpa using hpair
  · rw [isChain_iff_forall_rel_of_append_cons_cons] at h
    push Not at h
    obtain ⟨t, t', pre, post, rfl, ht, ht'⟩ := h
    refine ambiguous_of_pair pre [] post (type_numeral 0 t) (type_numeral 1234567811 t')
      (type_numeral 1012345678 t) (type_numeral 1 t') (fun hsame => ?_) ?_
    · have htexts := congrArg keyString hsame
      rw [keyString_numeral 0 (by simp) ht, keyString_numeral _ (by simp) ht] at htexts
      exact absurd (itoa_injective htexts) (by decide)
    · simp only [token, keyString_numeral 0 (by simp) ht, keyString_numeral 1 (by simp) ht',
        keyString_numeral 1012345678 (by simp) ht, keyString_numeral 1234567811 (by simp) ht']
      decide +kernel

end Collisions

/-! ### Rows of a table -/

section Rows

variable {definitions : List ColumnDefinition} {row : Row} {keys : List Column} {name : Bytes}

theorem map_type_of_verifyColumns (hlength : row.length = definitions.length)
    (h : verifyColumns name row definitions = .ok keys) :
    keys.map type = (keyTypes definitions).map some := by
  induction definitions generalizing row keys with
  | nil =>
    cases length_eq_zero_iff.mp hlength
    cases h
    rfl
  | cons definition _ ih =>
    obtain ⟨column, row, rfl⟩ := exists_cons_of_length_eq_add_one hlength
    unfold verifyColumns at h
    split at h
    · rename_i htype
      obtain ⟨value, rfl, hvalue⟩ := (any_eq_true _ _).mp htype
      replace hvalue := of_decide_eq_true hvalue
      obtain ⟨rest, hrest, hkeys⟩ := bind_eq_ok_iff.mp h
      cases hkeys
      have hsame := ih (Nat.succ.inj hlength) hrest
      cases hkey : definition.key with
      | false => simpa [keyTypes, hkey] using hsame
      | true => simpa [keyTypes, hkey, hvalue, type] using hsame
    · cases h

theorem exists_verifyColumns_eq_ok (name : Bytes)
    (htypes : ∀ definition ∈ definitions, definition.type ≠ none)
    (hkeys : keys.map type = (keyTypes definitions).map some) :
    ∃ row, row.length = definitions.length ∧ verifyColumns name row definitions = .ok keys := by
  induction definitions generalizing keys with
  | nil => exact ⟨[], rfl, by simpa [keyTypes, verifyColumns] using hkeys.symm⟩
  | cons definition definitions ih =>
    obtain ⟨htype, htypes⟩ := forall_mem_cons.mp htypes
    obtain ⟨t, ht⟩ := ne_none_iff_exists'.mp htype
    -- a column that passes the check, in front of a row for the rest
    have hcons : ∀ column rest, type column = some t →
        rest.map type = (keyTypes definitions).map some →
        (if definition.key then column :: rest else rest) = keys →
        ∃ row, row.length = (definition :: definitions).length ∧
          verifyColumns name row (definition :: definitions) = .ok keys := by
      rintro column rest hcolumn hrest rfl
      obtain ⟨value, rfl, rfl⟩ := map_eq_some_iff.mp hcolumn
      obtain ⟨row, hlength, hrow⟩ := ih htypes hrest
      refine ⟨some value :: row, by simp [hlength], ?_⟩
      simp [verifyColumns, ht, hrow]
    cases hkey : definition.key with
    | false =>
      refine hcons (numeral 0 t) keys (type_numeral 0 t) ?_ (by simp [hkey])
      simpa [keyTypes, hkey] using hkeys
    | true =>
      simp only [keyTypes, filterMap_cons, hkey, ht] at hkeys
      obtain ⟨column, rest, rfl, hcolumn, hrest⟩ := map_eq_cons_iff.mp hkeys
      exact hcons column rest hcolumn hrest (by simp [hkey])

variable {β : Type} {C : Codec β} {state state' : State β} {table table' : Table}

theorem eq_of_checkDefinitions {i : ℕ} {seen : List Bytes} {checked : List ColumnDefinition}
    (h : checkDefinitions i seen (definitions.map some) = .ok checked) :
    checked = definitions ∧ ∀ definition ∈ definitions, definition.type ≠ none := by
  induction definitions generalizing i seen checked with
  | nil =>
    cases h
    simp
  | cons _ _ ih =>
    simp only [map_cons, checkDefinitions] at h
    split_ifs at h with hname hseen htype
    obtain ⟨rest, hrest, heq⟩ := bind_eq_ok_iff.mp h
    cases heq
    obtain ⟨rfl, htypes⟩ := ih hrest
    exact ⟨rfl, forall_mem_cons.mpr ⟨by simpa using htype, htypes⟩⟩

theorem buildKeyString_eq (hname : name ≠ []) (keys : List Column) :
    buildKeyString name keys = .ok (lengthPrefixed name ++ keyTokens keys) := by
  simp [buildKeyString, getTableNameKey, hname]

theorem createTable_eq_ok {columnDefinitions : List (Option ColumnDefinition)}
    (h : createTable C state name columnDefinitions = .ok state') :
    ∃ definitions, checkDefinitions 0 [] columnDefinitions = .ok definitions ∧ name ≠ [] ∧
      (∃ definition ∈ definitions, definition.key = true) ∧ lengthPrefixed name ∉ state ∧
      state' = state.insert (lengthPrefixed name) (C.marshalTable ⟨name, definitions⟩) := by
  unfold createTable at h
  split at h
  · cases h
  · rename_i err herr
    split_ifs at h with hfound
    obtain rfl := not_not.mp hfound
    -- the name is accepted, and there is nothing under its key
    by_cases hname : name = []
    · rw [hname] at herr
      cases herr
    have hkey : getTableNameKey name = .ok (lengthPrefixed name) := by simp [getTableNameKey, hname]
    have hnew : lengthPrefixed name ∉ state := by
      simp only [getTable, hkey, ok_bind] at herr
      split at herr
      · exact AList.lookup_eq_none.mp ‹_›
      · split at herr <;> cases herr
    obtain ⟨definitions, hdefinitions, hcreate⟩ := bind_eq_ok_iff.mp h
    split_ifs at hcreate with hkeys
    rw [hkey] at hcreate
    cases hcreate
    exact ⟨definitions, hdefinitions, hname, by simpa using hkeys, hnew, rfl⟩

theorem distinctKeys_iff (hname : table.name ≠ [])
    (htypes : ∀ definition ∈ table.columnDefinitions, definition.type ≠ none) :
    DistinctKeys table ↔ SelfDelimiting (keyTypes table.columnDefinitions) := by
  constructor
  · intro hdistinct
    by_contra hdelimited
    obtain ⟨keys, keys', hkeys, hkeys', hne, heq⟩ := ambiguous_of_not_selfDelimiting hdelimited
    obtain ⟨row, hlength, hrow⟩ := exists_verifyColumns_eq_ok table.name htypes hkeys
    obtain ⟨row', hlength', hrow'⟩ := exists_verifyColumns_eq_ok table.name htypes hkeys'
    refine hne (hdistinct row row' keys keys' ?_ ?_ ?_)
    · simpa [getKeyAndVerifyRow, hlength] using hrow
    · simpa [getKeyAndVerifyRow, hlength'] using hrow'
    · rw [buildKeyString_eq hname, buildKeyString_eq hname, heq]
  · intro hdelimited row row' keys keys' hrow hrow' heq
    unfold getKeyAndVerifyRow at hrow hrow'
    split_ifs at hrow hrow' with hlength hlength'
    rw [buildKeyString_eq hname, buildKeyString_eq hname, Except.ok.injEq] at heq
    exact keyTokens_injective hdelimited (map_type_of_verifyColumns (not_not.mp hlength) hrow)
      (map_type_of_verifyColumns (not_not.mp hlength') hrow') (append_cancel_left heq)

theorem name_eq_of_append {name' r r' : Bytes} (hname : name ≠ []) (hname' : name' ≠ [])
    (hdigit : ∀ b ∈ name.head?, isDigit b = false) (hdigit' : ∀ b ∈ name'.head?, isDigit b = false)
    (h : lengthPrefixed name ++ r = lengthPrefixed name' ++ r') : name = name' := by
  obtain ⟨b, rest, rfl⟩ := exists_cons_of_ne_nil hname
  obtain ⟨b', rest', rfl⟩ := exists_cons_of_ne_nil hname'
  simp only [lengthPrefixed, append_assoc] at h
  obtain ⟨hlength, rfl, hrest⟩ := append_cons_inj_of_run (fun _ => isDigit_of_mem_itoa)
    (fun _ => isDigit_of_mem_itoa) (hdigit b rfl) (hdigit' b' rfl) h
  have hsame := Nat.succ.inj (itoa_injective hlength)
  rw [(append_inj hrest hsame).1]

theorem buildKeyString_ne_getTableNameKey (hname : table.name ≠ [])
    (htypes : ∀ definition ∈ table.columnDefinitions, definition.type ≠ none)
    (hkey : ∃ definition ∈ table.columnDefinitions, definition.key = true)
    (hrow : getKeyAndVerifyRow table row = .ok keys) :
    buildKeyString table.name keys ≠ getTableNameKey table.name := by
  unfold getKeyAndVerifyRow at hrow
  split_ifs at hrow with hlength
  have hkeys := map_type_of_verifyColumns (not_not.mp hlength) hrow
  obtain ⟨definition, hmem, hkey⟩ := hkey
  obtain ⟨t, ht⟩ := ne_none_iff_exists'.mp (htypes definition hmem)
  have hmem : t ∈ keyTypes table.columnDefinitions :=
    mem_filterMap.mpr ⟨definition, hmem, by simp [hkey, ht]⟩
  -- a key column adds at least its length
  cases keys with
  | nil => simp [List.map_eq_nil_iff.mp hkeys.symm] at hmem
  | cons c keys => simp [buildKeyString, getTableNameKey, hname, keyTokens_cons]

theorem insertsAlone_of_ne
    (hdefinition : ∀ row keys, getKeyAndVerifyRow table row = .ok keys →
      buildKeyString table.name keys ≠ getTableNameKey table'.name)
    (hrows : ∀ row keys row' keys', getKeyAndVerifyRow table row = .ok keys →
      getKeyAndVerifyRow table' row' = .ok keys' → (table'.name = table.name → keys' ≠ keys) →
      buildKeyString table.name keys ≠ buildKeyString table'.name keys') :
    InsertsAlone C table table' := by
  intro state row keys update written state' htable hkeys hinsert
  have hlookup : ∀ key, buildKeyString table.name keys ≠ .ok key →
      state'.lookup key = state.lookup key := by
    intro key hne
    simp only [insertRowInternal, htable, hkeys, ok_bind] at hinsert
    obtain ⟨written, hwritten, hinsert⟩ := bind_eq_ok_iff.mp hinsert
    split_ifs at hinsert <;> cases hinsert
    · rfl
    · exact AList.lookup_insert_ne fun heq => hne (heq ▸ hwritten)
  have hgetTable : getTable C state' table'.name = getTable C state table'.name := by
    unfold getTable
    cases hkey : getTableNameKey table'.name with
    | error => rfl
    | ok key => simp only [ok_bind, hlookup key (hkey ▸ hdefinition row keys hkeys)]
  refine ⟨hgetTable, fun row' keys' hkeys' hother => ?_⟩
  have hne := hrows row keys row' keys' hkeys hkeys' hother
  cases hkey : buildKeyString table'.name keys' with
  | error =>
    refine ⟨by simp only [getRow, hkey, error_bind], fun update' htable' => ?_⟩
    simp only [insertRowInternal, hgetTable, htable', hkeys', hkey, ok_bind, error_bind]
  | ok key =>
    have hsame := hlookup key (hkey ▸ hne)
    refine ⟨by simp only [getRow, hkey, ok_bind, hsame], fun update' htable' => ?_⟩
    simp only [insertRowInternal, hgetTable, htable', hkeys', hkey, ok_bind, hsame]
    split <;> rfl

/-- The rows of a table have different keys exactly if its key columns delimit themselves, and keys
of tables whose names do not begin with a digit differ. No row has the key of the definition of its
own table. Where keys differ, inserting a row disturbs no other. -/
theorem keys_distinct_iff
    (h : createTable C state table.name (table.columnDefinitions.map some) = .ok state') :
    (DistinctKeys table ↔ SelfDelimiting (keyTypes table.columnDefinitions)) ∧
    (∀ row keys, getKeyAndVerifyRow table row = .ok keys →
      buildKeyString table.name keys ≠ getTableNameKey table.name) ∧
    (DistinctKeys table → InsertsAlone C table table) ∧
    ∀ table' : Table, table'.name ≠ table.name → (∀ b ∈ table.name.head?, isDigit b = false) →
      (∀ b ∈ table'.name.head?, isDigit b = false) →
      Apart table table' ∧ InsertsAlone C table table' := by
  obtain ⟨definitions, hdefinitions, hname, hkey, -⟩ := createTable_eq_ok h
  obtain ⟨rfl, htypes⟩ := eq_of_checkDefinitions hdefinitions
  have hown : ∀ row keys, getKeyAndVerifyRow table row = .ok keys →
      buildKeyString table.name keys ≠ getTableNameKey table.name :=
    fun row keys => buildKeyString_ne_getTableNameKey hname htypes hkey
  refine ⟨distinctKeys_iff hname htypes, hown, fun hdistinct => ?_, ?_⟩
  · refine insertsAlone_of_ne hown fun row keys row' keys' hrow hrow' hne heq => ?_
    exact hne rfl (hdistinct row row' keys keys' hrow hrow' heq).symm
  intro table' hne hdigit hdigit'
  have hapart : Apart table table' := by
    intro row keys _
    by_cases hname' : table'.name = []
    · simp [buildKeyString, getTableNameKey, hname, hname']
    have happend : ∀ r r', lengthPrefixed table.name ++ r ≠ lengthPrefixed table'.name ++ r' :=
      fun r r' heq => hne (name_eq_of_append hname hname' hdigit hdigit' heq).symm
    rw [buildKeyString_eq hname]
    refine ⟨fun heq => happend (keyTokens keys) [] ?_, fun row' keys' _ heq => ?_⟩
    · simpa [getTableNameKey, hname'] using heq
    · rw [buildKeyString_eq hname'] at heq
      exact happend _ _ (Except.ok.inj heq)
  exact ⟨hapart, insertsAlone_of_ne (fun row keys hrow => (hapart row keys hrow).1)
    fun row keys row' keys' hrow hrow' _ => (hapart row keys hrow).2 row' keys' hrow'⟩

end Rows

/-- A table with two key columns. -/
def pairTable (name : Bytes) (t t' : ColumnType) : Table :=
  ⟨name, [⟨[97], some t, true⟩, ⟨[98], some t', true⟩]⟩

/-- A number and a truth value. -/
theorem keys_distinct_iff_number : DistinctKeys (pairTable [116] .int64 .bool) ∧
    InsertsAlone exampleCodec (pairTable [116] .int64 .bool) (pairTable [116] .int64 .bool) ∧
    Apart (pairTable [116] .int64 .bool) (pairTable [117] .string .string) ∧
    InsertsAlone exampleCodec (pairTable [116] .int64 .bool)
      (pairTable [117] .string .string) := by
  have h := @keys_distinct_iff _ exampleCodec ∅ _ (pairTable [116] .int64 .bool) rfl
  have hdistinct := h.1.mpr ⟨by decide, by decide⟩
  exact ⟨hdistinct, h.2.2.1 hdistinct,
    h.2.2.2 _ (by decide) (by decide +kernel) (by decide +kernel)⟩

/-- Two rows have the same key, and a row of `0` has the key of the definition of `9xxxxxxxxx`. -/
theorem not_keys_distinct : ¬DistinctKeys (pairTable [116] .string .string) ∧
    (∃ state state', createTable exampleCodec ∅ [116]
        ((pairTable [116] .string .string).columnDefinitions.map some) = .ok state ∧
      insertRowInternal exampleCodec state [116]
        [numeral 0 .string, numeral 1234567811 .string] false = .ok (true, state') ∧
      insertRowInternal exampleCodec state' [116]
        [numeral 1012345678 .string, numeral 1 .string] false = .ok (false, state')) ∧
    ¬Apart ⟨[48], [⟨[97], some .string, true⟩]⟩
      ⟨57 :: List.replicate 9 120, [⟨[97], some .string, true⟩]⟩ := by
  refine ⟨?_, ⟨_, _, rfl, rfl, rfl⟩, ?_⟩
  · intro h
    have := h [numeral 0 .string, numeral 1234567811 .string]
      [numeral 1012345678 .string, numeral 1 .string] _ _ rfl rfl (by rfl)
    cases this
  · intro h
    exact (h [some (.string (List.replicate 9 120))] _ rfl).1 (by rfl)

end Fabric.Chaincode.Shim
