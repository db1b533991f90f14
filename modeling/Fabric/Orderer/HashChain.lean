import Mathlib.Data.List.Chain
import Fabric.Common.Machine
import Fabric.Orderer.Ledger

/-!
# The hash chain of a ledger

The ledger in memory takes the hash for a new block from its newest block. The file ledger
takes it from the field `lastHash`, which is set when the ledger is made and not by `Append`:
all blocks that are appended after that are linked to the same one.
-/

namespace Fabric.Orderer

open Fabric.Common List

variable {M : Marshal} {genesis : Block}

/-- Each block has the number of its place and the hash of the block before it. -/
def Chained (M : Marshal) (chain : List Block) : Prop :=
  ∀ n prev block, chain[n]? = some prev → chain[n + 1]? = some block →
    block.header.number = UInt64.ofNat (n + 1) ∧ block.header.previousHash = prev.header.hash M

theorem chained_singleton (block : Block) : Chained M [block] := by
  intro n prev block' _ hblock
  simp at hblock

theorem chained_concat_iff {chain : List Block} {prev block : Block} :
    Chained M (chain ++ [prev] ++ [block]) ↔ Chained M (chain ++ [prev]) ∧
      block.header.number = UInt64.ofNat (chain.length + 1) ∧
      block.header.previousHash = prev.header.hash M := by
  constructor
  · intro h
    refine ⟨fun n prev' block' hprev hblock => ?_, h chain.length prev block (by simp) (by simp)⟩
    refine h n prev' block' ?_ ?_
    · rw [List.getElem?_append_left (List.getElem?_eq_some_iff.mp hprev).1, hprev]
    · rw [List.getElem?_append_left (List.getElem?_eq_some_iff.mp hblock).1, hblock]
  -- a link is one of the chain before, or the one to the new block
  · rintro ⟨h, hlast⟩ n prev' block' hprev hblock
    have hn := (List.getElem?_eq_some_iff.mp hblock).1
    simp only [length_append, length_singleton] at hn
    by_cases hn' : n = chain.length
    · subst hn'
      obtain rfl : prev = prev' := by simpa using hprev
      obtain rfl : block = block' := by simpa using hblock
      exact hlast
    · have hlt : n + 1 < (chain ++ [prev]).length := by simp; omega
      rw [List.getElem?_append_left hlt] at hblock
      rw [List.getElem?_append_left (by omega)] at hprev
      exact h n prev' block' hprev hblock

/-! ### The ledger in memory -/

namespace RamLedger

/-- The ledger after calls of `Append`, with the blocks that they returned. -/
def appendAll (M : Marshal) (maxSize : ℤ) (genesis : Block) :
    List (List Envelope × List Bytes) → RamLedger × List Block :=
  List.foldl (fun (rl, blocks) (messages, metadata) =>
    let (rl, block) := rl.append M messages metadata
    (rl, blocks ++ [block])) (new maxSize genesis, [])

/-- The ledger stores the genesis block and the blocks behind it, and they are linked. -/
structure Holds (M : Marshal) (genesis : Block) (rl : RamLedger) (blocks : List Block) : Prop where
  stores : rl.Stores (genesis :: blocks)
  chained : Chained M (genesis :: blocks)

theorem Holds.of_new (hgenesis : genesis.header.number = 0) (maxSize : ℤ) :
    Holds M genesis (new maxSize genesis) [] where
  stores := (Stores.of_newChain maxSize).appendBlock hgenesis
  chained := chained_singleton genesis

theorem Holds.append {rl : RamLedger} {blocks : List Block} (h : Holds M genesis rl blocks)
    (messages : List Envelope) (metadata : List Bytes) :
    Holds M genesis (rl.append M messages metadata).1
      (blocks ++ [(rl.append M messages metadata).2]) where
  stores := h.stores.append messages metadata
  chained := by
    obtain ⟨hstores, hchained⟩ := h
    obtain hnil | ⟨chain, last, hlast⟩ := (genesis :: blocks).eq_nil_or_concat'
    · cases hnil
    rw [← cons_append]
    rw [hlast] at hstores hchained ⊢
    refine chained_concat_iff.mpr ⟨hchained, ?_, ?_⟩
    · have hheight := hstores.height
      rwa [length_append] at hheight
    · rw [← hstores.newest_concat]
      rfl

theorem appendAll_holds (hgenesis : genesis.header.number = 0) (maxSize : ℤ)
    (batches : List (List Envelope × List Bytes)) :
    Holds M genesis (appendAll M maxSize genesis batches).1
      (appendAll M maxSize genesis batches).2 := by
  induction batches using List.reverseRecOn with
  | nil => exact Holds.of_new hgenesis maxSize
  | append_singleton _ batch ih =>
    rw [appendAll, foldl_append]
    exact ih.append batch.1 batch.2

end RamLedger

/-! ### The ledger in files -/

/-- A call of `Append`, or the end of the process and a ledger made anew over its directory. -/
inductive FileCall
  | append (messages : List Envelope) (metadata : List Bytes)
  | restart
deriving DecidableEq

def FileCall.isAppend : FileCall → Bool
  | .append _ _ => true
  | .restart => false

namespace FileLedger

variable {α : Type} {F : BlockFile α}

/-- The ledger after a call, with the blocks that were returned. -/
def call (M : Marshal) (F : BlockFile α) (genesis : Block) :
    FileLedger α × List Block → FileCall → Option (FileLedger α × List Block)
  | (fl, blocks), .append messages metadata =>
    let (fl, block) := fl.append M F messages metadata
    some (fl, blocks ++ [block])
  | (fl, blocks), .restart => (new M F fl.files genesis).map fun fl => (fl, blocks)

/-- The ledger after calls, made over an empty directory. -/
def calls (M : Marshal) (F : BlockFile α) (genesis : Block) (calls : List FileCall) :
    Option (FileLedger α × List Block) := do
  let fl ← new M F [] genesis
  runSteps (call M F genesis) (fl, []) calls

/-- The ledger stores the chain, with the hash of a block that is the last one unless `Append` was
called. -/
structure Holds (M : Marshal) (F : BlockFile α) (chain : List Block) (appended : Bool)
    (fl : FileLedger α) : Prop where
  stores : fl.Stores F chain
  lastHash : ∃ k block, chain[k]? = some block ∧ fl.lastHash = block.header.hash M ∧
    (k + 1 = chain.length ↔ appended = false)

variable {chain : List Block} {appended : Bool} {fl : FileLedger α} {cs : List FileCall}
  {c : FileCall}

theorem ofNat_pos {n : ℕ} (h0 : 0 < n) (h : n < 2 ^ 64) : 0 < UInt64.ofNat n := by
  rw [UInt64.lt_iff_toNat_lt, UInt64.toNat_ofNat_of_lt' h]
  exact h0

theorem Stores.restart (h : fl.Stores F (genesis :: chain))
    (hroom : (genesis :: chain).length < 2 ^ 64) :
    ∃ fl', new M F fl.files genesis = some fl' ∧ fl'.Stores F (genesis :: chain) ∧
      fl'.lastHash = ((genesis :: chain).getLast (cons_ne_nil _ _)).header.hash M := by
  have hread : FileLedger.readBlock F (filesOf F (genesis :: chain)) 0 = some (some genesis) :=
    readBlock_filesOf hroom.le (by decide)
  refine ⟨⟨filesOf F (genesis :: chain), UInt64.ofNat (genesis :: chain).length,
    ((genesis :: chain).getLast (cons_ne_nil _ _)).header.hash M⟩, ?_,
    ⟨rfl, rfl, h.numbers⟩, rfl⟩
  rw [new, h.files, newChain_filesOf hroom, Option.bind_eq_bind, Option.bind_some,
    if_pos (ofNat_pos (by simp) hroom), hread,
    List.getLast?_eq_getLast_of_ne_nil (cons_ne_nil genesis chain)]
  simp

theorem Holds.restart (h : Holds M F (genesis :: chain) appended fl)
    (hroom : (genesis :: chain).length < 2 ^ 64) :
    ∃ fl', new M F fl.files genesis = some fl' ∧ Holds M F (genesis :: chain) false fl' := by
  obtain ⟨fl', hnew, hstores, hlast⟩ := h.stores.restart hroom
  refine ⟨fl', hnew, hstores, chain.length, _, ?_, hlast, by simp⟩
  rw [getLast_eq_getElem, List.getElem?_eq_getElem (by simp)]
  rfl

theorem Holds.of_new (hgenesis : genesis.header.number = 0) : ∃ fl,
    new M F [] genesis = some fl ∧ Holds M F [genesis] false fl := by
  obtain ⟨fl, hnew, hstores, hlastHash⟩ := Stores.of_new hgenesis
  exact ⟨fl, hnew, hstores, 0, genesis, rfl, hlastHash, by simp⟩

theorem Holds.append (h : Holds M F chain appended fl) (hroom : chain.length < 2 ^ 64)
    (messages : List Envelope) (metadata : List Bytes) :
    Holds M F (chain ++ [(fl.append M F messages metadata).2]) true
      (fl.append M F messages metadata).1 := by
  -- `Append` leaves `lastHash` as it is, so the block that it belongs to is not the last any more
  obtain ⟨k, prev, hk, hlastHash, -⟩ := h.lastHash
  have hlt := (List.getElem?_eq_some_iff.mp hk).1
  refine ⟨h.stores.append hroom messages metadata, k, prev, ?_, hlastHash, ?_⟩
  · rw [List.getElem?_append_left hlt, hk]
  · simp
    omega

theorem Holds.chained_append {prev : Block} (hhash : ∀ a b : BlockHeader, a.hash M = b.hash M →
      a.number = b.number) (h : Holds M F (chain ++ [prev]) appended fl)
    (hroom : (chain ++ [prev]).length < 2 ^ 64) (messages : List Envelope) (metadata : List Bytes) :
    Chained M (chain ++ [prev] ++ [(fl.append M F messages metadata).2]) ↔
      Chained M (chain ++ [prev]) ∧ appended = false := by
  obtain ⟨k, block, hk, hlastHash, hiff⟩ := h.lastHash
  have hheight : fl.height = UInt64.ofNat (chain.length + 1) := by
    rw [h.stores.height, length_append, length_singleton]
  rw [chained_concat_iff, ← hiff]
  refine and_congr_right fun _ => ⟨fun hlinked => ?_, fun hlast => ⟨hheight, ?_⟩⟩
  · -- two blocks with the same hash have the same number
    have hsame := hhash _ _ (hlastHash.symm.trans hlinked.2)
    rw [h.stores.numbers k block hk, h.stores.numbers chain.length prev (by simp)] at hsame
    have hlt := (List.getElem?_eq_some_iff.mp hk).1
    rw [length_append, length_singleton] at hlt hroom ⊢
    rw [Directory.ofNat_inj_of_lt (by omega) (by omega) hsame]
  · obtain rfl : k = chain.length := by simpa using hlast
    obtain rfl : prev = block := by simpa using hk
    exact hlastHash

/-- No two calls of `Append` without a restart between them. -/
def Separated (calls : List FileCall) : Prop :=
  calls.IsChain fun a b => ¬ (a.isAppend = true ∧ b.isAppend = true)

open FileCall

theorem separated_concat : Separated (cs ++ [c]) ↔
    Separated cs ∧ (c.isAppend = true → cs.getLast?.any isAppend = false) := by
  rw [Separated, isChain_append]
  refine and_congr_right fun _ => ?_
  cases cs.getLast? <;> cases c <;> simp [isAppend]

theorem calls_concat : calls M F genesis (cs ++ [c]) =
    (calls M F genesis cs).bind fun s => call M F genesis s c := by
  cases hnew : new M F [] genesis with
  | none => simp [calls, hnew]
  | some => simp [calls, hnew, runSteps_concat]

theorem holds_of_calls (hhash : ∀ a b : BlockHeader, a.hash M = b.hash M → a.number = b.number)
    (hgenesis : genesis.header.number = 0) (cs : List FileCall)
    (hroom : cs.countP isAppend + 1 < 2 ^ 64) : ∃ fl blocks,
      calls M F genesis cs = some (fl, blocks) ∧
      blocks.length = cs.countP isAppend ∧
      Holds M F (genesis :: blocks) (cs.getLast?.any isAppend) fl ∧
      (Chained M (genesis :: blocks) ↔ Separated cs) := by
  induction cs using List.reverseRecOn with
  | nil =>
    obtain ⟨fl, hnew, hfl⟩ := Holds.of_new hgenesis
    refine ⟨fl, [], ?_, rfl, hfl, ?_⟩
    · rw [calls, hnew]
      rfl
    · exact iff_of_true (chained_singleton genesis) .nil
  | append_singleton _ c ih =>
    rw [countP_append] at hroom ⊢
    obtain ⟨fl, blocks, hcalls, hlength, hfl, hchained⟩ := ih (by omega)
    have hlen : (genesis :: blocks).length < 2 ^ 64 := by
      rw [length_cons]
      omega
    rw [calls_concat, hcalls, Option.bind_some, separated_concat, List.getLast?_concat]
    cases c with
    | append messages metadata =>
      refine ⟨(fl.append M F messages metadata).1,
        blocks ++ [(fl.append M F messages metadata).2], rfl, ?_, ?_, ?_⟩
      · simp [hlength, isAppend]
      · exact hfl.append hlen messages metadata
      · -- the block before the new one
        obtain hnil | ⟨earlier, prev, hlast⟩ := (genesis :: blocks).eq_nil_or_concat'
        · cases hnil
        rw [hlast] at hfl hlen
        have hlinked := hfl.chained_append hhash hlen messages metadata
        rw [← hlast, hchained] at hlinked
        simpa [isAppend] using hlinked
    | restart =>
      obtain ⟨fl', hnew, hfl'⟩ := hfl.restart hlen
      refine ⟨fl', blocks, ?_, ?_, hfl', ?_⟩
      · rw [call, hnew]
        rfl
      · simp [hlength, isAppend]
      · simpa [isAppend] using hchained

end FileLedger

/-- The ledger in memory keeps a hash chain. The file ledger does exactly if it is made anew between
any two calls of `Append`. -/
theorem chained_iff {α : Type} {F : BlockFile α}
    (hhash : ∀ a b : BlockHeader, a.hash M = b.hash M → a.number = b.number)
    (hgenesis : genesis.header.number = 0) :
    (∀ maxSize batches, Chained M (genesis :: (RamLedger.appendAll M maxSize genesis batches).2) ∧
      (RamLedger.appendAll M maxSize genesis batches).1.nodes =
        RamLedger.preGenesis :: genesis :: (RamLedger.appendAll M maxSize genesis batches).2) ∧
    ∀ calls : List FileCall, calls.countP FileCall.isAppend + 1 < 2 ^ 64 → ∃ fl blocks,
      FileLedger.calls M F genesis calls = some (fl, blocks) ∧
      (∀ i block, (genesis :: blocks)[i]? = some block → block.header.number = UInt64.ofNat i ∧
        FileLedger.readBlock F fl.files (UInt64.ofNat i) = some (some block)) ∧
      (Chained M (genesis :: blocks) ↔ FileLedger.Separated calls) := by
  constructor
  · intro maxSize batches
    have h : RamLedger.Holds M genesis _ _ := RamLedger.appendAll_holds hgenesis maxSize batches
    exact ⟨h.chained, h.stores.nodes⟩
  · intro calls hroom
    obtain ⟨fl, blocks, hcalls, hlength, hfl, hchained⟩ :=
      FileLedger.holds_of_calls hhash hgenesis calls hroom
    refine ⟨fl, blocks, hcalls, ?_, hchained⟩
    intro i block hblock
    refine ⟨hfl.stores.numbers i block hblock, ?_⟩
    have hi := (List.getElem?_eq_some_iff.mp hblock).1
    rw [length_cons] at hi
    rw [hfl.stores.readBlock (by simp; omega) (by omega), hblock]
    rfl

/-- The hash of a header is as long as its number, and the text of a block is the block. -/
def exampleMarshal : Marshal where
  envelope := fun message => message.payload.getD []
  blockHeader := fun header => List.replicate header.number.toNat 0
  blockData := List.flatten
  computeCryptoHash := id

def exampleBlockFile : BlockFile Block where
  marshal block := [block]
  unmarshal text := if text.length = 1 then text.head? else none
  unmarshal_marshal := by simp
  unmarshal_of_broken := by
    intro block text hbroken hne
    obtain rfl | rfl : text = [] ∨ text = [block] := by
      simpa [prefix_cons_iff] using hbroken
    · rfl
    · exact absurd rfl hne

def exampleGenesis : Block := ⟨⟨0, [], []⟩, [[1]], []⟩

theorem exampleMarshal_hash (a b : BlockHeader)
    (h : a.hash exampleMarshal = b.hash exampleMarshal) : a.number = b.number := by
  have hlength := congrArg List.length h
  simpa [BlockHeader.hash, exampleMarshal, UInt64.toNat_inj] using hlength

theorem chained_twoSessions : ∃ fl blocks, FileLedger.calls exampleMarshal exampleBlockFile
    exampleGenesis [.append [⟨some [5], []⟩] [], .restart, .append [⟨some [6], []⟩] []] =
      some (fl, blocks) ∧ Chained exampleMarshal (exampleGenesis :: blocks) := by
  have hgenesis : exampleGenesis.header.number = 0 := rfl
  obtain ⟨fl, blocks, hcalls, -, hchained⟩ := (chained_iff exampleMarshal_hash hgenesis).2
    [.append [⟨some [5], []⟩] [], .restart, .append [⟨some [6], []⟩] []] (by decide)
  exact ⟨fl, blocks, hcalls, hchained.mpr (by simp [FileLedger.Separated, FileCall.isAppend])⟩

/-- The second block that a file ledger appends has the hash of the genesis block. -/
theorem not_chained_twoAppends : ∃ fl blocks, FileLedger.calls exampleMarshal exampleBlockFile
    exampleGenesis [.append [⟨some [5], []⟩] [], .append [⟨some [6], []⟩] []] =
      some (fl, blocks) ∧ ¬ Chained exampleMarshal (exampleGenesis :: blocks) := by
  obtain ⟨⟨fl, blocks⟩, hcalls, hblocks⟩ : ∃ s, FileLedger.calls exampleMarshal exampleBlockFile
      exampleGenesis [.append [⟨some [5], []⟩] [], .append [⟨some [6], []⟩] []] = some s ∧
        (s.2[0]?.map fun block => block.header.hash exampleMarshal) = some [0] ∧
        (s.2[1]?.map fun block => block.header.previousHash) = some [] := by
    decide +kernel
  refine ⟨fl, blocks, hcalls, fun hchained => ?_⟩
  obtain ⟨first, hfirst, hhash⟩ := Option.map_eq_some_iff.mp hblocks.1
  obtain ⟨second, hsecond, hprevious⟩ := Option.map_eq_some_iff.mp hblocks.2
  have hlinked := (hchained 1 first second hfirst hsecond).2
  rw [hprevious, hhash] at hlinked
  cases hlinked

end Fabric.Orderer
