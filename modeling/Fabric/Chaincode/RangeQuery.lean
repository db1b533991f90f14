import Fabric.Ledger.RangeScan

/-!
# Range queries of a chaincode

A chaincode asks its peer for the keys of a range, gets a page of results, and asks for the next
page when it has read them and the reply says that there are more. The peer reads the results from
an iterator of the ledger, whose results may be of any type.
-/

namespace Fabric.Chaincode

open Fabric.Common Fabric.Ledger List

/-- A query result, by its dynamic type: a key with its value, or a pointer to one. -/
inductive QueryResult
  | value (kv : KV)
  | pointer (kv : KV)
  deriving DecidableEq

def QueryResult.kv : QueryResult → KV
  | value kv | pointer kv => kv

/-- The results that an iterator has left, and the error that it fails with after them. -/
structure ResultsIterator where
  results : List QueryResult
  error : Option String

def ResultsIterator.next (itr : ResultsIterator) :
    Except String (Option QueryResult × ResultsIterator) :=
  match itr.results, itr.error with
  | r :: results, _ => .ok (some r, { itr with results := results })
  | [], some e => .error e
  | [], none => .ok (none, itr)

/-- The iterator of the simulator returns a pointer for each entry that it yields. -/
def sKVItr (entries : List (Bytes × Bytes)) (error : Option String) : ResultsIterator :=
  ⟨(scanned entries).map fun kv => .pointer kv.1, error⟩

/-! ### The peer -/

/-- How a query can fail: a panic of either side, or an ERROR message. -/
inductive Failure
  | peerPanic
  | shimPanic
  | error (payload : String)
  deriving DecidableEq

def maxRangeQueryStateLimit : ℕ := 100

structure RangeQueryStateResponse where
  keysAndValues : List KV
  hasMore : Bool

/-- The loop of `handleRangeQueryState`. -/
def firstPage : ℕ → ResultsIterator → Except Failure (List KV × ResultsIterator)
  | 0, itr => .ok ([], itr)
  | i + 1, itr =>
    match itr.next with
    -- no message is set when the deferred function sends it
    | .error _ => .error .peerPanic
    | .ok (none, itr) => .ok ([], itr)
    | .ok (some (.value kv), itr) => (firstPage i itr).map (Prod.map (kv :: ·) id)
    -- the result is asserted to be a value
    | .ok (some (.pointer _), _) => .error .peerPanic

/-- The reply to RANGE_QUERY_STATE, and the iterator that is kept for the next page. -/
def handleRangeQueryState (itr : ResultsIterator) :
    Except Failure (RangeQueryStateResponse × Option ResultsIterator) := do
  let (keysAndValues, itr) ← firstPage maxRangeQueryStateLimit itr
  -- the loop declares a result of its own, so that of the function is still nil
  let qresult : Option QueryResult := none
  return (⟨keysAndValues, qresult.isSome⟩, if qresult.isSome then none else some itr)

/-- The loop of `handleRangeQueryStateNext`, which is left at a result that is not nil. -/
def nextPage : ℕ → ResultsIterator → Option QueryResult →
    Except Failure (List KV × Option QueryResult × ResultsIterator)
  | 0, itr, qresult => .ok ([], qresult, itr)
  | _ + 1, itr, _ =>
    match itr.next with
    | .error _ => .error .peerPanic
    | .ok (some r, itr) => .ok ([], some r, itr)
    -- nil is asserted to be a value
    | .ok (none, _) => .error .peerPanic

def handleRangeQueryStateNext : Option ResultsIterator →
    Except Failure (RangeQueryStateResponse × Option ResultsIterator)
  | none => .error (.error "Range query iterator not found")
  | some itr => do
    let (keysAndValues, qresult, itr) ← nextPage maxRangeQueryStateLimit itr none
    return (⟨keysAndValues, qresult.isSome⟩, if qresult.isSome then none else some itr)

/-! ### The chaincode -/

/-- The iterator of the chaincode, with the one that the peer keeps for it. -/
structure StateRangeQueryIterator where
  response : RangeQueryStateResponse
  currentLoc : ℕ
  peer : Option ResultsIterator

/-- A query, by what the ledger returns for the range. -/
def rangeQueryState : Except String ResultsIterator → Except Failure StateRangeQueryIterator
  | .error e => .error (.error e)
  | .ok itr => (handleRangeQueryState itr).map fun (response, peer) => ⟨response, 0, peer⟩

namespace StateRangeQueryIterator

variable {iter : StateRangeQueryIterator}

def hasNext (iter : StateRangeQueryIterator) : Bool :=
  iter.currentLoc < iter.response.keysAndValues.length || iter.response.hasMore

def next (iter : StateRangeQueryIterator) : Except Failure (KV × StateRangeQueryIterator) :=
  match iter.response.keysAndValues[iter.currentLoc]? with
  | some kv => .ok (kv, { iter with currentLoc := iter.currentLoc + 1 })
  | none =>
    if iter.response.hasMore then do
      let (response, peer) ← handleRangeQueryStateNext iter.peer
      match response.keysAndValues with
      | kv :: _ => return (kv, ⟨response, 1, peer⟩)
      | [] => .error .shimPanic
    else .error (.error "No such key")

/-- The chaincode reads at most `n` results; the flag says whether there is one more. -/
def drain : ℕ → StateRangeQueryIterator → Except Failure (List KV × Bool)
  | 0, iter => .ok ([], iter.hasNext)
  | n + 1, iter =>
    if iter.hasNext then do
      let (kv, iter) ← iter.next
      let (kvs, more) ← drain n iter
      return (kv :: kvs, more)
    else .ok ([], false)

theorem drain_eq (hmore : iter.response.hasMore = false) (n : ℕ) : drain n iter =
    .ok ((iter.response.keysAndValues.drop iter.currentLoc).take n,
      decide (iter.currentLoc + n < iter.response.keysAndValues.length)) := by
  induction n generalizing iter with
  | zero => simp [drain, hasNext, hmore]
  | succ n ih =>
    rw [drain]
    by_cases hlt : iter.currentLoc < iter.response.keysAndValues.length
    · rw [if_pos (by simp [hasNext, hlt]), next, List.getElem?_eq_getElem hlt]
      simp only [ok_bind, pure_eq_ok]
      rw [@ih { iter with currentLoc := iter.currentLoc + 1 } hmore, drop_eq_getElem_cons hlt]
      simp only [ok_bind, take_succ_cons, Nat.add_assoc, Nat.add_comm 1 n]
    · rw [if_neg (by simp [hasNext, hlt, hmore]), drop_eq_nil_of_le (Nat.le_of_not_lt hlt)]
      simp only [take_nil, Except.ok.injEq, Prod.mk.injEq, true_and]
      exact (decide_eq_false (by omega)).symm

end StateRangeQueryIterator

/-- A chaincode that reads the results of a range, at most `n`. -/
def query (n : ℕ) (scan : Except String ResultsIterator) : Except Failure (List KV × Bool) := do
  let iter ← rangeQueryState scan
  iter.drain n

/-- The chaincode reads exactly the results, and is told of an error of the ledger. -/
def Complete (scan : Except String ResultsIterator) : Prop :=
  match scan with
  | .error e => ∀ n, query n scan = .error (.error e)
  | .ok itr =>
    match itr.error with
    | none => ∃ n, query n scan = .ok (itr.results.map QueryResult.kv, false)
    | some e => ∃ n, query n scan = .error (.error e)

theorem query_eq (n : ℕ) (itr : ResultsIterator) : query n (.ok itr) =
    (firstPage maxRangeQueryStateLimit itr).map fun page =>
      (page.1.take n, decide (n < page.1.length)) := by
  rw [query, rangeQueryState, handleRangeQueryState]
  cases firstPage maxRangeQueryStateLimit itr with
  | error => rfl
  | ok =>
    simp only [ok_bind, pure_eq_ok, Except.map]
    rw [StateRangeQueryIterator.drain_eq rfl]
    simp

variable {n : ℕ} {itr itr' : ResultsIterator} {kvs : List KV}

theorem take_of_firstPage (h : firstPage n itr = .ok (kvs, itr')) :
    itr.results.take n = kvs.map .value ∧ (itr.results.length < n → itr.error = none) := by
  induction n generalizing itr kvs with
  | zero =>
    cases h
    simp
  | succ _ ih =>
    obtain ⟨results, error⟩ := itr
    rcases results with _ | ⟨r, results⟩
    · cases error <;> simp [firstPage, ResultsIterator.next] at h
      simp [h.1]
    · cases r with
      | pointer => cases h
      | value =>
        obtain ⟨⟨kvs, itr''⟩, hpage, heq⟩ := map_eq_ok_iff.mp h
        cases heq
        simpa using ih hpage

theorem firstPage_error {f : Failure} (h : firstPage n itr = .error f) : f = .peerPanic := by
  induction n generalizing itr with
  | zero => cases h
  | succ n ih =>
    rw [firstPage] at h
    split at h
    case h_3 itr' _ =>
      cases hpage : firstPage n itr' <;> rw [hpage] at h <;> cases h
      exact ih hpage
    all_goals
      cases h
    all_goals rfl

theorem firstPage_values (h : kvs.length ≤ n) :
    firstPage n ⟨kvs.map .value, none⟩ = .ok (kvs, ⟨[], none⟩) := by
  induction kvs generalizing n with
  | nil => cases n <;> rfl
  | cons _ _ ih =>
    obtain ⟨n, rfl⟩ := Nat.exists_eq_add_one_of_ne_zero (Nat.ne_zero_of_lt h)
    simp [firstPage, ResultsIterator.next, ih (Nat.le_of_succ_le_succ h), Except.map]

/-- A range reaches the chaincode exactly if its results are values that fit on one page and the
iterator does not fail. -/
theorem complete_iff (itr : ResultsIterator) : Complete (.ok itr) ↔ itr.error = none ∧
    itr.results.length ≤ maxRangeQueryStateLimit ∧
      ∃ kvs : List KV, itr.results = kvs.map .value := by
  constructor
  · intro h
    rw [Complete] at h
    cases herror : itr.error with
    | some =>
      simp only [herror, query_eq] at h
      obtain ⟨n, h⟩ := h
      cases hpage : firstPage maxRangeQueryStateLimit itr with
      | error =>
        rw [hpage, firstPage_error hpage] at h
        cases h
      | ok =>
        rw [hpage] at h
        cases h
    | none =>
      simp only [herror, query_eq, map_eq_ok_iff] at h
      obtain ⟨n, ⟨kvs, itr'⟩, hpage, heq⟩ := h
      simp only [Prod.mk.injEq, decide_eq_false_iff_not, Nat.not_lt] at heq
      rw [take_of_length_le heq.2] at heq
      have htake := (take_of_firstPage hpage).1
      have hlen := congrArg List.length htake
      rw [heq.1] at hlen
      simp only [length_take, length_map] at hlen
      have hle : itr.results.length ≤ maxRangeQueryStateLimit := by omega
      exact ⟨rfl, hle, kvs, by rwa [take_of_length_le hle] at htake⟩
  · rintro ⟨herror, hle, kvs, hkvs⟩
    obtain ⟨results, error⟩ := itr
    subst herror hkvs
    refine ⟨kvs.length, ?_⟩
    rw [query_eq, firstPage_values (by simpa using hle)]
    simp [Except.map, QueryResult.kv, Function.comp_def]

/-- The handler asserts values where the simulator yields pointers: a range reaches the chaincode
exactly if it is empty and the iterator does not fail, or the scan cannot be opened. -/
theorem complete_scan_iff (scan : Except String (List (Bytes × Bytes) × Option String)) :
    Complete (scan.map fun s => sKVItr s.1 s.2) ↔
      ∀ s, scan = .ok s → s.2 = none ∧ scanned s.1 = [] := by
  cases scan with
  | error => simp [Complete, query, rangeQueryState, Except.map]
  | ok s =>
    simp only [Except.map, complete_iff, Except.ok.injEq, forall_eq']
    refine and_congr_right fun _ => ⟨?_, fun hnil => ?_⟩
    · rintro ⟨-, kvs, hkvs⟩
      cases hscanned : scanned s.1 with
      | nil => rfl
      | cons => cases kvs <;> simp [sKVItr, hscanned] at hkvs
    · simp only [sKVItr, hnil]
      exact ⟨Nat.zero_le _, [], rfl⟩

/-- A range with one key. -/
theorem not_complete_one : ¬ Complete (.ok (sKVItr [(constructCompositeKey [97] [1],
      encodeValue (some [2]) 1)] none)) := by
  rw [complete_iff, show (sKVItr [(constructCompositeKey [97] [1], encodeValue (some [2]) 1)]
    none).results = [.pointer ⟨[1], [2]⟩] by decide +kernel]
  rintro ⟨-, -, kvs, hkvs⟩
  cases kvs <;> cases hkvs

end Fabric.Chaincode
