import Fabric.Orderer.HashChain

/-!
# The two ledgers compared by their readers

A reader gets an iterator with the number of its first block and calls `Next`, while blocks are
appended. The ledgers differ for one reader only: the one that asks for the newest block of a
chain that has none. The ledger in memory gives it block 0 as soon as there is one; the file
ledger reports the number before 0, the highest one, and waits for a block with that number.
-/

namespace Fabric.Orderer

open Fabric.Common List Option FileLedger

variable {α : Type} {M : Marshal} {F : BlockFile α}

/-! ### Readers -/

/-- Blocks that are appended while a reader reads. -/
inductive ReadCall
  | append (messages : List Envelope) (metadata : List Bytes)
  | next
deriving DecidableEq

def ReadCall.isAppend : ReadCall → Bool
  | .append _ _ => true
  | .next => false

/-- What a reader gets to see of a call of `Next`; a call that waits is made again. -/
inductive Reading
  | waits
  | block (number : UInt64)
  | notFound
  | serviceUnavailable
deriving DecidableEq

def NextResult.reading : NextResult → Reading
  | .success block => .block block.header.number
  | .notFound => .notFound
  | .serviceUnavailable => .serviceUnavailable

/-- What a reader with an iterator gets to see. -/
def readings {L C : Type} (append : L → List Envelope → List Bytes → L)
    (next : L → Iterator C → Option (NextResult × Iterator C)) (l : L) (it : Iterator C) :
    List ReadCall → List Reading
  | [] => []
  | .append messages metadata :: calls => readings append next (append l messages metadata) it calls
  | .next :: calls => match next l it with
    | none => .waits :: readings append next l it calls
    | some (result, it) => result.reading :: readings append next l it calls

/-! ### Iterators at the same place -/

/-- The iterators come to the same place of chains of `n` blocks, or find nothing. -/
inductive SamePlace (n : ℕ) : Iterator ℕ → Iterator UInt64 → Prop
  | place (i : ℕ) (h : i ≤ n) : SamePlace n (.cursor (i + 1)) (.cursor (UInt64.ofNat i))
  | notFound : SamePlace n .notFound .notFound

theorem SamePlace.mono {n m : ℕ} {it : Iterator ℕ} {it' : Iterator UInt64} (h : SamePlace n it it')
    (hle : n ≤ m) : SamePlace m it it' := by
  cases h with
  | place i hi => exact .place i (hi.trans hle)
  | notFound => exact .notFound

variable {rl : RamLedger} {fl : FileLedger α} {chain chain' : List Block} {it : Iterator ℕ}
  {it' : Iterator UInt64} {i : ℕ}

theorem next_samePlace (hrl : rl.Stores chain) (hfl : fl.Stores F chain')
    (hlen : chain'.length = chain.length) (hroom : chain.length < 2 ^ 64)
    (h : SamePlace chain.length it it') :
    (rl.next it = none ∧ fl.next F it' = none) ∨ ∃ result result' next next',
      rl.next it = some (result, next) ∧ fl.next F it' = some (result', next') ∧
        result.reading = result'.reading ∧ SamePlace chain.length next next' := by
  cases h with
  | notFound => exact .inr ⟨.notFound, .notFound, .notFound, .notFound, rfl, rfl, rfl, .notFound⟩
  | place i =>
    have hram : rl.next (.cursor (i + 1)) =
        chain[i]?.map fun block => (.success block, .cursor (i + 1 + 1)) := by
      rw [RamLedger.next, hrl.nodes, List.getElem?_cons_succ]
    have hread : readBlock F fl.files (UInt64.ofNat i) = chain'[i]?.map some :=
      hfl.readBlock (by omega) (by omega)
    -- there is a block at the place in both chains, or in neither
    by_cases hlt : i < chain.length
    · obtain ⟨block, hblock⟩ : ∃ block, chain[i]? = some block := ⟨_, List.getElem?_eq_getElem hlt⟩
      obtain ⟨block', hblock'⟩ : ∃ block, chain'[i]? = some block :=
        ⟨_, List.getElem?_eq_getElem (hlen ▸ hlt)⟩
      refine .inr ⟨.success block, .success block', _, .cursor (UInt64.ofNat (i + 1)), ?_, ?_, ?_,
        .place (i + 1) hlt⟩
      · rw [hram, hblock]
        rfl
      · rw [FileLedger.next, hread, hblock', UInt64.ofNat_add]
        rfl
      · rw [NextResult.reading, NextResult.reading, hrl.numbers i block hblock,
          hfl.numbers i block' hblock']
    · refine .inl ⟨?_, ?_⟩
      · rw [hram, List.getElem?_eq_none (by omega)]
        rfl
      · rw [FileLedger.next, hread, List.getElem?_eq_none (by omega)]
        rfl

theorem readings_eq (hrl : rl.Stores chain) (hfl : fl.Stores F chain')
    (hlen : chain'.length = chain.length) {calls : List ReadCall}
    (hroom : chain.length + calls.countP ReadCall.isAppend < 2 ^ 64)
    (h : SamePlace chain.length it it') :
    readings (fun rl messages metadata => (rl.append M messages metadata).1) RamLedger.next rl it
      calls =
    readings (fun fl messages metadata => (fl.append M F messages metadata).1)
      (next F) fl it' calls := by
  induction calls generalizing rl fl chain chain' it it' with
  | nil => rfl
  | cons call _ ih =>
    cases call with
    | append messages metadata =>
      rw [countP_cons_of_pos rfl] at hroom
      have hroom' : chain'.length < 2 ^ 64 := by omega
      have hrl' := hrl.append (M := M) messages metadata
      have hfl' := hfl.append (M := M) hroom' messages metadata
      refine ih hrl' hfl' (by simp [hlen]) (by simp; omega) (h.mono (by simp))
    | next =>
      rw [readings, readings]
      obtain ⟨hwait, hwait'⟩ | ⟨result, result', next, next', hnext, hnext', hreading, hplace⟩ :=
        next_samePlace hrl hfl hlen (by omega) h
      · rw [hwait, hwait']
        exact congrArg (Reading.waits :: ·) (ih hrl hfl hlen hroom h)
      · rw [hnext, hnext']
        simp only
        rw [hreading, ih hrl hfl hlen hroom hplace]

/-! ### Where iterators start -/

theorem ofNat_ne_highest {n : ℕ} (h : n + 1 < 2 ^ 64) : UInt64.ofNat n ≠ 0xffffffffffffffff := by
  intro heq
  have hnat : n = 2 ^ 64 - 1 := Directory.ofNat_inj_of_lt (by omega) (by decide) heq
  omega

theorem ofNat_succ_sub_one (n : ℕ) : UInt64.ofNat (n + 1) - 1 = UInt64.ofNat n := by
  rw [UInt64.ofNat_add]
  exact UInt64.add_sub_cancel _ _

namespace RamLedger

theorem cursorAt_succ (h : i + 1 < 2 ^ 64) :
    rl.cursorAt (i + 1) (UInt64.ofNat i) = some (.cursor (i + 1), UInt64.ofNat i) :=
  if_neg (ofNat_ne_highest h)

namespace Stores

section

variable (h : rl.Stores chain)
include h

theorem number_node {block : Block}
    (hblock : rl.nodes[i]? = some block) : block.header.number = UInt64.ofNat i - 1 := by
  rw [h.nodes] at hblock
  cases i with
  | zero =>
    cases hblock
    rfl
  | succ i => rw [h.numbers i block hblock, ofNat_succ_sub_one]

theorem exists_node (hi : i ≤ chain.length) : ∃ block, rl.nodes[i]? = some block := by
  rw [h.nodes]
  exact ⟨_, List.getElem?_eq_getElem (by simpa [Nat.lt_succ_iff] using hi)⟩

theorem cursorAt_node (hroom : chain.length < 2 ^ 64)
    (hi : i ≤ chain.length) : rl.cursorAt i (UInt64.ofNat i - 1) =
      some (.cursor (i - 1 + 1), UInt64.ofNat (i - 1)) := by
  cases i with
  | zero =>
    have hnode : 0 < rl.nodes.length := by simp [h.nodes]
    rw [cursorAt, if_pos hnode]
    rfl
  | succ =>
    rw [ofNat_succ_sub_one, cursorAt_succ (by omega)]
    rfl

theorem iterator_oldest (hroom : chain.length < 2 ^ 64)
    (specified : UInt64) : rl.iterator .oldest specified =
      some (.cursor (rl.oldest - 1 + 1), UInt64.ofNat (rl.oldest - 1)) := by
  obtain ⟨block, hblock⟩ := h.exists_node h.oldest
  rw [iterator, hblock, bind_eq_bind, bind_some, h.number_node hblock,
    h.cursorAt_node hroom h.oldest]

theorem iterator_newest (hroom : chain.length < 2 ^ 64)
    (specified : UInt64) : rl.iterator .newest specified =
      some (.cursor (chain.length - 1 + 1), UInt64.ofNat (chain.length - 1)) := by
  have hnumber : rl.newest.header.number = UInt64.ofNat chain.length - 1 := by
    rw [← h.height]
    exact (UInt64.add_sub_cancel _ _).symm
  rw [iterator, h.length_older, hnumber, h.cursorAt_node hroom le_rfl]

theorem findIdx?_nodes {j : ℕ} (hj : j ≤ chain.length)
    (hroom : chain.length < 2 ^ 64) (holdest : rl.oldest ≤ j) :
    (rl.nodes.drop rl.oldest).findIdx? (fun block => block.header.number = UInt64.ofNat j - 1) =
      some (j - rl.oldest) := by
  have hlength : rl.nodes.length = chain.length + 1 := by simp [h.nodes]
  have hnumber : ∀ k (hk : k < (rl.nodes.drop rl.oldest).length),
      ((rl.nodes.drop rl.oldest)[k]).header.number = UInt64.ofNat (rl.oldest + k) - 1 := by
    intro k hk
    apply h.number_node
    rw [← List.getElem?_drop, List.getElem?_eq_getElem hk]
  rw [List.findIdx?_eq_some_iff_getElem]
  refine ⟨by rw [length_drop]; omega, ?_, fun k hk => ?_⟩
  · rw [hnumber, Nat.add_sub_cancel' holdest]
    simp
  -- the numbers of the nodes before it are different
  · rw [hnumber]
    simp only [decide_eq_true_eq]
    intro heq
    have hplace := congrArg (· + 1) heq
    simp only [UInt64.sub_add_cancel] at hplace
    have := Directory.ofNat_inj_of_lt (by omega) (by omega) hplace
    omega

theorem iterator_specified (hroom : chain.length + 1 < 2 ^ 64) {j : ℕ}
    (hj : j < 2 ^ 64) : rl.iterator .specified (UInt64.ofNat j) =
      if j + 1 < rl.oldest ∨ chain.length < j then some (.notFound, 0)
      else some (.cursor (j + 1), UInt64.ofNat j) := by
  obtain ⟨oldest, hblock⟩ := h.exists_node h.oldest
  have hgt : UInt64.ofNat j > UInt64.ofNat chain.length ↔ chain.length < j :=
    UInt64.ofNat_lt_iff_lt (by omega : chain.length < 2 ^ 64) hj
  rw [iterator, hblock, bind_eq_bind, bind_some, h.number_node hblock, h.height]
  simp only [UInt64.sub_add_cancel, hgt]
  by_cases hlt : chain.length < j
  · rw [if_pos (.inr hlt), if_pos (.inr hlt)]
  have hj' : j + 1 < 2 ^ 64 := by omega
  have holdest := h.oldest
  have hnext : UInt64.ofNat j + 1 = UInt64.ofNat (j + 1) := (UInt64.ofNat_add j 1).symm
  have hfirst : UInt64.ofNat j + 1 < UInt64.ofNat rl.oldest ↔ j + 1 < rl.oldest := by
    rw [hnext]
    exact UInt64.ofNat_lt_iff_lt hj' (by omega : rl.oldest < 2 ^ 64)
  simp only [hfirst]
  by_cases hold : j + 1 < rl.oldest
  · rw [if_pos (.inl hold), if_pos (.inl hold)]
  -- the block is there or the next one to come
  have hoversize : UInt64.ofNat j = UInt64.ofNat rl.oldest - 1 ↔ j + 1 = rl.oldest := by
    constructor
    · intro heq
      apply Directory.ofNat_inj_of_lt hj' (by omega)
      rw [← hnext, heq, UInt64.sub_add_cancel]
    · intro heq
      rw [← heq, ofNat_succ_sub_one]
  by_cases heq : j + 1 = rl.oldest
  · -- the specified block is the oldest one
    rw [if_pos (hoversize.mpr heq), h.cursorAt_node (by omega) h.oldest, ← heq]
    rfl
  · rw [if_neg fun h => heq (hoversize.mp h),
      h.findIdx?_nodes (by omega) (by omega) (by omega), bind_eq_bind,
      bind_some, Nat.add_sub_cancel' (by omega), cursorAt_succ hj']

end

end Stores

end RamLedger

/-- Both ledgers start at the same place, except for the newest block of no blocks. -/
theorem iterator_samePlace (hrl : rl.Stores chain) (hfl : fl.Stores F chain')
    (hlen : chain'.length = chain.length) (hroom : chain.length + 1 < 2 ^ 64)
    (hevicted : rl.oldest ≤ 1) {startType : StartType} (specified : UInt64)
    (htype : ∀ n, startType ≠ .unknown n) (hne : ¬ (startType = .newest ∧ chain = [])) :
    ∃ it, rl.iterator startType specified = some (it, (fl.iterator startType specified).2) ∧
      SamePlace chain.length it (fl.iterator startType specified).1 := by
  have hheight : fl.height = UInt64.ofNat chain.length := by rw [hfl.height, hlen]
  cases startType with
  -- nothing was evicted, so the oldest block is the first one
  | oldest =>
    have hstart := hrl.iterator_oldest (by omega) specified
    rw [show rl.oldest - 1 = 0 by omega] at hstart
    exact ⟨_, hstart, .place 0 (Nat.zero_le _)⟩
  | newest =>
    obtain rfl | ⟨earlier, last, rfl⟩ := chain.eq_nil_or_concat'
    · exact absurd ⟨rfl, rfl⟩ hne
    have hhigh : fl.height - 1 = UInt64.ofNat ((earlier ++ [last]).length - 1) := by
      rw [hheight, length_append, length_singleton, ofNat_succ_sub_one]
      rfl
    refine ⟨.cursor ((earlier ++ [last]).length - 1 + 1), ?_, ?_⟩
    · rw [hrl.iterator_newest (by omega), iterator, hhigh]
    · rw [iterator, hhigh]
      exact .place _ (Nat.sub_le _ _)
  | specified =>
    obtain ⟨j, hj, rfl⟩ : ∃ j < 2 ^ 64, specified = UInt64.ofNat j :=
      ⟨specified.toNat, specified.toNat_lt, UInt64.ofNat_toNat.symm⟩
    have hgt : UInt64.ofNat j > fl.height ↔ chain.length < j := by
      rw [hheight]
      exact UInt64.ofNat_lt_iff_lt (by omega : chain.length < 2 ^ 64) hj
    rw [hrl.iterator_specified hroom hj]
    simp only [iterator, hgt, show ¬ j + 1 < rl.oldest by omega, false_or]
    split_ifs with hlt
    · exact ⟨_, rfl, .notFound⟩
    · exact ⟨_, rfl, .place j (by omega)⟩
  | unknown n => exact absurd rfl (htype n)

/-! ### Ledgers after the same calls -/

/-- A new chain, or the chain of the system with its genesis block. -/
def RamLedger.create (maxSize : ℤ) : Option Block → RamLedger
  | none => newChain maxSize
  | some genesis => new maxSize genesis

/-- The ledger after calls of `Append`. -/
def RamLedger.build (M : Marshal) (maxSize : ℤ) (genesis : Option Block)
    (batches : List (List Envelope × List Bytes)) : RamLedger :=
  batches.foldl (fun rl batch => (rl.append M batch.1 batch.2).1) (create maxSize genesis)

/-- A new chain, or the chain of the system with its genesis block. -/
def FileLedger.create (M : Marshal) (F : BlockFile α) : Option Block → Option (FileLedger α)
  | none => newChain M F []
  | some genesis => new M F [] genesis

/-- The ledger after calls of `Append`. -/
def FileLedger.build (M : Marshal) (F : BlockFile α) (genesis : Option Block)
    (batches : List (List Envelope × List Bytes)) : Option (FileLedger α) :=
  (create M F genesis).map fun fl =>
    batches.foldl (fun fl batch => (fl.append M F batch.1 batch.2).1) fl

variable {genesis : Option Block} {batches : List (List Envelope × List Bytes)}

theorem RamLedger.build_stores (hgenesis : ∀ block ∈ genesis, block.header.number = 0)
    (maxSize : ℤ) (batches : List (List Envelope × List Bytes)) : ∃ blocks,
      (build M maxSize genesis batches).Stores (genesis.toList ++ blocks) ∧
      blocks.map Block.data = batches.map fun batch => batch.1.map M.envelope := by
  induction batches using List.reverseRecOn with
  | nil =>
    cases genesis with
    | none => exact ⟨[], .of_newChain maxSize, rfl⟩
    | some block => exact ⟨[], (Stores.of_newChain maxSize).appendBlock (hgenesis block rfl), rfl⟩
  | append_singleton _ batch ih =>
    obtain ⟨blocks, hstores, hdata⟩ := ih
    have happend := hstores.append (M := M) batch.1 batch.2
    rw [append_assoc] at happend
    rw [build, foldl_append]
    refine ⟨_, happend, ?_⟩
    rw [map_append, map_append, hdata]
    rfl

theorem FileLedger.build_stores (hgenesis : ∀ block ∈ genesis, block.header.number = 0)
    (batches : List (List Envelope × List Bytes))
    (hroom : genesis.toList.length + batches.length < 2 ^ 64) : ∃ fl blocks,
      build M F genesis batches = some fl ∧ fl.Stores F (genesis.toList ++ blocks) ∧
      blocks.map Block.data = batches.map fun batch => batch.1.map M.envelope := by
  induction batches using List.reverseRecOn with
  | nil =>
    cases genesis with
    | none =>
      obtain ⟨fl, hnew, hfl⟩ := Stores.of_newChain (M := M)
      exact ⟨fl, [], by simp [build, create, hnew], hfl, rfl⟩
    | some block =>
      obtain ⟨fl, hnew, hfl, -⟩ := Stores.of_new (M := M) (hgenesis block rfl)
      exact ⟨fl, [], by simp [build, create, hnew], hfl, rfl⟩
  | append_singleton batches batch ih =>
    rw [length_append] at hroom
    obtain ⟨fl, blocks, hbuild, hfl, hdata⟩ := ih (by omega)
    have hlen : blocks.length = batches.length := by simpa using congrArg List.length hdata
    have happend := hfl.append (M := M) (by rw [length_append]; omega) batch.1 batch.2
    rw [append_assoc] at happend
    refine ⟨(fl.append M F batch.1 batch.2).1, _, ?_, happend, ?_⟩
    · rw [build] at hbuild ⊢
      obtain ⟨fl₀, hfl₀, rfl⟩ := map_eq_some_iff.mp hbuild
      rw [hfl₀]
      simp
    · rw [map_append, map_append, hdata]
      rfl

/-! ### Eviction -/

/-- What a reader sees that has read up to the block `i` of a chain of `n` blocks. -/
def countedReadings : ℕ → ℕ → List ReadCall → List Reading
  | _, _, [] => []
  | i, n, .append _ _ :: calls => countedReadings i (n + 1) calls
  | i, n, .next :: calls =>
    if i < n then .block (UInt64.ofNat i) :: countedReadings (i + 1) n calls
    else .waits :: countedReadings i n calls

namespace RamLedger

theorem Stores.readings_eq (h : rl.Stores chain) (calls : List ReadCall) :
    readings (fun rl messages metadata => (rl.append M messages metadata).1) RamLedger.next rl
      (.cursor (i + 1)) calls = countedReadings i chain.length calls := by
  induction calls generalizing rl chain i with
  | nil => rfl
  | cons call _ ih =>
    cases call with
    | append messages metadata =>
      rw [readings, ih (h.append messages metadata), length_append]
      rfl
    | next =>
      rw [readings, countedReadings, next, h.nodes, List.getElem?_cons_succ]
      split_ifs with hi
      · have hblock := List.getElem?_eq_getElem hi
        rw [hblock, ← ih h, ← h.numbers i _ hblock]
        rfl
      · rw [List.getElem?_eq_none (by omega), map_none, ← ih h]

/-- The list from the oldest node on has as many nodes as the size says, at most the largest one. -/
structure Evicts (rl : RamLedger) (m : ℤ) (k : ℕ) : Prop where
  maxSize : rl.maxSize = m
  size : rl.size = min (k + 1 : ℤ) m
  oldest : rl.oldest = k + 1 - m.toNat

theorem Evicts.appendBlock {m : ℤ} {k : ℕ} (h : rl.Evicts m k) (hmax : 1 ≤ m) (block : Block) :
    (rl.appendBlock block).Evicts m (k + 1) := by
  obtain ⟨rfl, hsize, holdest⟩ := h
  unfold RamLedger.appendBlock
  split_ifs with hfull
  · exact ⟨rfl, by push_cast; omega, by simp only; omega⟩
  · exact ⟨rfl, by push_cast; omega, by simp only; omega⟩

theorem build_evicts {maxSize : ℤ} (hmax : 1 ≤ maxSize) :
    (build M maxSize genesis batches).Evicts maxSize
      (genesis.toList.length + batches.length) := by
  induction batches using List.reverseRecOn with
  | nil =>
    have hnew : (newChain maxSize).Evicts maxSize 0 :=
      ⟨rfl, by simp [newChain, hmax], by simp only [newChain]; omega⟩
    cases genesis with
    | none => exact hnew
    | some block => exact hnew.appendBlock hmax block
  | append_singleton _ _ ih =>
    rw [build, foldl_append, length_append]
    exact ih.appendBlock hmax _

/-- A ledger in memory with `k` blocks keeps the last ones, iterators start where they should, and
they go on block by block, whatever is evicted, if the next numbers are not those of the block
before the first one. -/
theorem iterators_exact {maxSize : ℤ} {k : ℕ} (hmax : 1 ≤ maxSize)
    (hgenesis : ∀ block ∈ genesis, block.header.number = 0)
    (hk : genesis.toList.length + batches.length = k) (hroom : k + 1 < 2 ^ 64) :
    let rl := build M maxSize genesis batches
    let first := k - min k maxSize.toNat
    (∃ chain, rl.nodes = preGenesis :: chain ∧ chain.length = k ∧
      rl.nodes.drop (max rl.oldest 1) = chain.drop first) ∧
    (∀ specified : UInt64, rl.iterator .specified specified =
      if first ≤ specified.toNat ∧ specified.toNat ≤ k then
        some (.cursor (specified.toNat + 1), specified)
      else some (.notFound, 0)) ∧
    (∀ specified, rl.iterator .oldest specified = some (.cursor (first + 1), UInt64.ofNat first)) ∧
    (∀ specified, rl.iterator .newest specified =
      some (.cursor (k - 1 + 1), UInt64.ofNat (k - 1))) ∧
    ∀ i calls, readings (fun rl messages metadata => (rl.append M messages metadata).1)
      RamLedger.next rl (.cursor (i + 1)) calls = countedReadings i k calls := by
  intro rl first
  obtain ⟨blocks, hstores, hdata⟩ := build_stores hgenesis maxSize batches
  generalize hchain : genesis.toList ++ blocks = chain at hstores
  obtain rfl : chain.length = k := by
    simpa [← hchain, ← hk] using congrArg List.length hdata
  have holdest : rl.oldest = chain.length + 1 - maxSize.toNat := hk ▸ (build_evicts hmax).oldest
  replace hstores : rl.Stores chain := hstores
  have hfirst : rl.oldest - 1 = first := by omega
  refine ⟨⟨chain, hstores.nodes, rfl, ?_⟩, fun specified => ?_, fun specified => ?_,
    hstores.iterator_newest (by omega), fun i calls => hstores.readings_eq calls⟩
  · rw [hstores.nodes, show max rl.oldest 1 = first + 1 by omega, drop_succ_cons]
  · have hstart := hstores.iterator_specified hroom specified.toNat_lt
    rw [UInt64.ofNat_toNat] at hstart
    rw [hstart]
    split_ifs <;> first | rfl | omega
  · rw [hstores.iterator_oldest (by omega), ← hfirst]

/-- Of three blocks two are kept; a reader goes on to the one that is appended. -/
theorem iterators_exact_three : ∃ it, (build exampleMarshal 2 none
    (List.replicate 3 ([], []))).iterator .oldest 0 = some (it, 1) ∧
      readings (fun rl messages metadata => (rl.append exampleMarshal messages metadata).1)
        RamLedger.next (build exampleMarshal 2 none (List.replicate 3 ([], []))) it
        [.next, .append [] [], .append [] [], .next, .next] = [.block 1, .block 2, .block 3] := by
  have hblocks : (none : Option Block).toList.length +
    (List.replicate 3 (([], []) : List Envelope × List Bytes)).length = 3 := rfl
  have hexact := iterators_exact (M := exampleMarshal) (by decide : 1 ≤ (2 : ℤ)) (by simp) hblocks
    (by decide)
  exact ⟨_, hexact.2.2.1 0, hexact.2.2.2.2 1 _⟩

theorem Stores.iterator_height (h : rl.Stores chain) (hfull : chain.length = 2 ^ 64 - 1)
    (hevicted : 0 < rl.oldest) : rl.height = 0xffffffffffffffff ∧
      rl.iterator .specified 0xffffffffffffffff = some (.notFound, 0) := by
  obtain ⟨oldest, hblock⟩ := h.exists_node h.oldest
  have hlt : rl.oldest < 2 ^ 64 := by
    have := h.oldest
    omega
  refine ⟨by rw [RamLedger.height, h.height, hfull]; rfl, ?_⟩
  rw [iterator, hblock, bind_eq_bind, bind_some, h.number_node hblock]
  refine if_pos (.inl ?_)
  rwa [UInt64.sub_add_cancel, UInt64.lt_iff_toNat_lt, UInt64.toNat_ofNat_of_lt' hlt]

/-- The block that comes next has the number of the block before the first one, and a seek to it is
refused. -/
theorem iterator_full : ∃ rl, build exampleMarshal 1 none
    (List.replicate (2 ^ 64 - 1) ([], [])) = rl ∧
    rl.height = 0xffffffffffffffff ∧
      rl.iterator .specified 0xffffffffffffffff = some (.notFound, 0) := by
  have hgenesis : ∀ block ∈ (none : Option Block), block.header.number = 0 := by simp
  obtain ⟨blocks, hstores, hdata⟩ :=
    build_stores hgenesis 1 (List.replicate (2 ^ 64 - 1) ([], []))
  have hevicts : (build exampleMarshal 1 none (List.replicate (2 ^ 64 - 1) ([], []))).oldest = _ :=
    (build_evicts le_rfl).oldest
  have hfull := congrArg List.length hdata
  rw [length_map, length_map, length_replicate] at hfull
  rw [length_replicate] at hevicts
  refine ⟨_, rfl, hstores.iterator_height hfull ?_⟩
  rw [hevicts]
  decide

end RamLedger

/-- A reader of both ledgers gets the same number to start with and the same readings. -/
def ReadsAlike (M : Marshal) (F : BlockFile α) (rl : RamLedger) (fl : FileLedger α)
    (startType : StartType) (specified : UInt64) (calls : List ReadCall) : Prop :=
  ∃ it, rl.iterator startType specified = some (it, (fl.iterator startType specified).2) ∧
    readings (fun rl messages metadata => (rl.append M messages metadata).1) RamLedger.next rl it
      calls =
    readings (fun fl messages metadata => (fl.append M F messages metadata).1)
      (FileLedger.next F) fl (fl.iterator startType specified).1 calls

/-- The two ledgers are interchangeable for a reader, unless it asks for the newest block of an
empty chain. -/
theorem readsAlike_iff {maxSize : ℤ} {startType : StartType} {specified : UInt64}
    (hgenesis : ∀ block ∈ genesis, block.header.number = 0)
    (hevicted : (RamLedger.build M maxSize genesis batches).oldest ≤ 1)
    (htype : ∀ n, startType ≠ .unknown n)
    (hroom : genesis.toList.length + batches.length + 1 < 2 ^ 64) :
    (∃ fl, FileLedger.build M F genesis batches = some fl ∧ ∀ calls : List ReadCall,
      genesis.toList.length + batches.length + calls.countP ReadCall.isAppend < 2 ^ 64 →
        ReadsAlike M F (RamLedger.build M maxSize genesis batches) fl startType specified calls) ↔
    ¬ (startType = .newest ∧ genesis = none ∧ batches = []) := by
  obtain ⟨blocks, hrl, hdata⟩ := RamLedger.build_stores (M := M) hgenesis maxSize batches
  have hroom' : genesis.toList.length + batches.length < 2 ^ 64 := by omega
  obtain ⟨fl, blocks', hbuild, hfl, hdata'⟩ :=
    FileLedger.build_stores (M := M) (F := F) hgenesis batches hroom'
  generalize hchain : genesis.toList ++ blocks = chain at hrl
  generalize hchain' : genesis.toList ++ blocks' = chain' at hfl
  have hlen : chain.length = genesis.toList.length + batches.length := by
    simpa [← hchain] using congrArg List.length hdata
  have hlen' : chain'.length = genesis.toList.length + batches.length := by
    simpa [← hchain'] using congrArg List.length hdata'
  have hempty : genesis = none ∧ batches = [] ↔ chain = [] := by
    rw [← length_eq_zero_iff (l := chain), hlen]
    cases genesis <;> simp
  constructor
  · rintro ⟨fl', hbuild', halike⟩ ⟨rfl, hnone⟩
    obtain rfl : fl = fl' := Option.some.inj (hbuild.symm.trans hbuild')
    obtain ⟨it, hit, -⟩ := halike [] hroom'
    -- the file ledger reports the highest number, the ledger in memory zero
    have hheight : fl.height = 0 := by rw [hfl.height, hlen', ← hlen, hempty.mp hnone]; rfl
    rw [hrl.iterator_newest (by omega), FileLedger.iterator, hheight, hempty.mp hnone] at hit
    cases (Prod.mk.inj (Option.some.inj hit)).2
  · intro hne
    refine ⟨fl, hbuild, fun calls hcalls => ?_⟩
    obtain ⟨it, hit, hplace⟩ := iterator_samePlace hrl hfl (hlen'.trans hlen.symm) (by omega)
      hevicted specified htype fun h => hne ⟨h.1, hempty.mpr h.2⟩
    exact ⟨it, hit, readings_eq hrl hfl (hlen'.trans hlen.symm) (by omega) hplace⟩

theorem readsAlike_exampleGenesis : ∃ fl,
    FileLedger.build exampleMarshal exampleBlockFile (some exampleGenesis) [] = some fl ∧
      ReadsAlike exampleMarshal exampleBlockFile
        (RamLedger.build exampleMarshal 5 (some exampleGenesis) []) fl .newest 0
        [.next, .next, .append [⟨some [5], []⟩] [], .next] := by
  have hgenesis : ∀ block ∈ some exampleGenesis, block.header.number = 0 := by
    simp [exampleGenesis]
  have hevicted : (RamLedger.build exampleMarshal 5 (some exampleGenesis) []).oldest ≤ 1 := by
    decide
  have htype : ∀ n, StartType.newest ≠ .unknown n := by simp
  obtain ⟨fl, hbuild, halike⟩ := (readsAlike_iff hgenesis hevicted htype
    (by decide)).mpr (by simp)
  exact ⟨fl, hbuild, halike _ (by decide)⟩

/-- For the newest block of an empty chain one ledger gives block 0, and the other one waits for the
block with the highest number. -/
theorem not_readsAlike_empty : ∃ fl it,
    FileLedger.build exampleMarshal exampleBlockFile none [] = some fl ∧
    (RamLedger.build exampleMarshal 5 none []).iterator .newest 0 = some (it, 0) ∧
    (fl.iterator .newest 0).2 = 0xffffffffffffffff ∧
    readings (fun rl messages metadata => (rl.append exampleMarshal messages metadata).1)
      RamLedger.next (RamLedger.build exampleMarshal 5 none []) it
      [.append [⟨some [5], []⟩] [], .next] = [.block 0] ∧
    readings (fun fl messages metadata =>
        (fl.append exampleMarshal exampleBlockFile messages metadata).1)
      (FileLedger.next exampleBlockFile) fl (fl.iterator .newest 0).1
      [.append [⟨some [5], []⟩] [], .next] = [.waits] :=
  ⟨⟨[], 0, []⟩, .cursor 1, rfl, by decide, by decide, by decide, by decide⟩

end Fabric.Orderer
