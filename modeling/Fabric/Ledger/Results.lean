import Fabric.Common.Quorum
import Fabric.Ledger.Simulation

/-!
# Simulation results

The read-write set of a simulator lists what the simulator holds, in the order in which Go
enumerates its maps.
-/

namespace Fabric.Ledger

open Fabric.Common List LockBasedTxSimulator TxReadWriteSet

/-- The versions that were read. -/
def TxReadWriteSet.keyReads (txRW : TxReadWriteSet) : List (Key × ℕ) :=
  txRW.nsRWs.flatMap fun nsRW => nsRW.reads.map fun r => ((nsRW.nameSpace, r.key), r.version)

/-- The values to write. -/
def TxReadWriteSet.keyWrites (txRW : TxReadWriteSet) : List (Key × Option Bytes) :=
  txRW.nsRWs.flatMap fun nsRW => nsRW.writes.map fun w => ((nsRW.nameSpace, w.key), w.value)

/-! ### Enumerations -/

theorem forall₂_mapM_run {σ α γ : Type} (f : α → StateM σ γ) (l : List α) (c : σ) :
    List.Forall₂ (fun a b => ∃ c', b = ((f a).run c').1) l ((l.mapM f).run c).1 := by
  induction l generalizing c with
  | nil => exact .nil
  | cons _ _ ih =>
    rw [mapM_cons]
    exact .cons ⟨c, rfl⟩ (ih _)

theorem getNsReadWriteSet_run (ns : Bytes) (nsRWs : NsRWs) (choices : List ℕ) :
    ((getNsReadWriteSet ns nsRWs).run choices).1 =
      ⟨ns, (reorder (choices.take nsRWs.readMap.keys.length) nsRWs.readMap.keys).filterMap
          fun key => nsRWs.readMap[key]?.map KVReadCache.kvRead,
        (reorder ((choices.drop nsRWs.readMap.keys.length).take nsRWs.writeMap.keys.length)
          nsRWs.writeMap.keys).filterMap fun key => nsRWs.writeMap[key]?⟩ := rfl

theorem forall₂_getTxReadWriteSet (s : LockBasedTxSimulator) (choices : List ℕ) :
    List.Forall₂ (fun ns nsRW => ∃ choices',
        nsRW = ((getNsReadWriteSet ns (s.rwMap.getD ns newNsRWs)).run choices').1)
      (reorder (choices.take s.rwMap.keys.length) s.rwMap.keys)
      (s.getTxReadWriteSet.run choices).1.nsRWs :=
  forall₂_mapM_run _ _ _

variable {α : Type} {ns : Bytes} {m : Std.ExtTreeMap Bytes α}

theorem map_filterMap_getElem? {l : List Bytes}
    {f : α → Bytes} (hl : ∀ key ∈ l, key ∈ m) (hf : ∀ key a, m[key]? = some a → f a = key) :
    (l.filterMap fun key => m[key]?).map f = l := by
  induction l with
  | nil => rfl
  | cons key _ ih =>
    obtain ⟨a, ha⟩ := Option.isSome_iff_exists.mp
      (Std.ExtTreeMap.mem_iff_isSome_getElem?.mp (hl key mem_cons_self))
    have htail := ih fun key' hkey' => hl key' (mem_cons_of_mem key hkey')
    rw [filterMap_cons, ha, map_cons, hf key a ha, htail]

theorem mem_filterMap_reorder_keys {choices : List ℕ} {a : α} :
    a ∈ (reorder choices m.keys).filterMap (fun key => m[key]?) ↔
      ∃ key : Bytes, m[key]? = some a := by
  simp only [mem_filterMap, (reorder_perm _ _).mem_iff, Std.ExtTreeMap.mem_keys]
  constructor
  · rintro ⟨key, -, ha⟩
    exact ⟨key, ha⟩
  · rintro ⟨key, ha⟩
    exact ⟨key, Std.ExtTreeMap.mem_iff_isSome_getElem?.mpr (by simp [ha]), ha⟩

theorem holds_getD (s : LockBasedTxSimulator) (ns : Bytes) :
    Holds s ns (s.rwMap.getD ns newNsRWs) := by
  rw [Std.ExtTreeMap.getD_eq_getD_getElem?]
  cases h : s.rwMap[ns]? <;> constructor <;>
    simp [LockBasedTxSimulator.read, LockBasedTxSimulator.write, h, newNsRWs]

/-! ### What the results say -/

section Simulated

variable {db : DB} {ops : List Op} {s : LockBasedTxSimulator} {choices : List ℕ}

/-- The results have one entry for each namespace, with its reads and writes. -/
theorem mem_getTxReadWriteSet {nsRW : NsReadWriteSet}
    (h : nsRW ∈ (s.getTxReadWriteSet.run choices).1.nsRWs) :
    nsRW.nameSpace ∈ s.rwMap ∧
      (∀ r, r ∈ nsRW.reads ↔ ∃ key cache, s.read (nsRW.nameSpace, key) = some cache ∧
        cache.kvRead = r) ∧
      ∀ w, w ∈ nsRW.writes ↔ ∃ key, s.write (nsRW.nameSpace, key) = some w := by
  obtain ⟨ns, hns, choices', rfl⟩ :=
    exists_right_of_forall₂ (forall₂_getTxReadWriteSet s choices).flip h
  have hholds := holds_getD s ns
  rw [getNsReadWriteSet_run]
  refine ⟨?_, fun r => ?_, fun w => ?_⟩
  · rwa [(reorder_perm _ _).mem_iff, Std.ExtTreeMap.mem_keys] at hns
  · simp only [← map_filterMap, mem_map, mem_filterMap_reorder_keys]
    simp only [hholds.read]
    constructor
    · rintro ⟨cache, ⟨key, hcache⟩, hr⟩
      exact ⟨key, cache, hcache, hr⟩
    · rintro ⟨key, cache, hcache, hr⟩
      exact ⟨cache, ⟨key, hcache⟩, hr⟩
  · rw [mem_filterMap_reorder_keys]
    simp only [hholds.write]

theorem exists_mem_getTxReadWriteSet (h : ns ∈ s.rwMap) (choices : List ℕ) :
    ∃ nsRW ∈ (s.getTxReadWriteSet.run choices).1.nsRWs, nsRW.nameSpace = ns := by
  have hmem : ns ∈ reorder (choices.take s.rwMap.keys.length) s.rwMap.keys := by
    rwa [(reorder_perm _ _).mem_iff, Std.ExtTreeMap.mem_keys]
  obtain ⟨nsRW, hnsRW, choices', rfl⟩ :=
    exists_right_of_forall₂ (forall₂_getTxReadWriteSet s choices) hmem
  exact ⟨_, hnsRW, rfl⟩

theorem Simulated.mem_keyReads (h : Simulated db ops s) {k : Key} {version : ℕ} :
    (k, version) ∈ (s.getTxReadWriteSet.run choices).1.keyReads ↔
      k ∈ storageReads ops ∧ version = (getCommittedValueAndVersion db k.1 k.2).2 := by
  have hread (ns key : Bytes) (cache : KVReadCache) : s.read (ns, key) = some cache ↔
      (ns, key) ∈ storageReads ops ∧ readCache db (ns, key) = cache := by
    rw [h.read]
    split_ifs with hmem <;> simp [hmem]
  simp only [keyReads, mem_flatMap, mem_map]
  constructor
  · rintro ⟨nsRW, hnsRW, r, hr, heq⟩
    obtain ⟨key, cache, hcache, rfl⟩ := ((mem_getTxReadWriteSet hnsRW).2.1 r).mp hr
    obtain ⟨hmem, rfl⟩ := (hread _ _ _).mp hcache
    cases heq
    exact ⟨hmem, rfl⟩
  · rintro ⟨hmem, rfl⟩
    have hcache := (hread k.1 k.2 _).mpr ⟨hmem, rfl⟩
    have htouched : (s.read k).isSome := by rw [hcache]; rfl
    obtain ⟨nsRW, hnsRW, hns⟩ :=
      exists_mem_getTxReadWriteSet (mem_of_read htouched) choices
    refine ⟨nsRW, hnsRW, _, ((mem_getTxReadWriteSet hnsRW).2.1 _).mpr
      ⟨k.2, _, hns ▸ hcache, rfl⟩, ?_⟩
    rw [hns]
    rfl

theorem Simulated.consistent (h : Simulated db ops s) (choices : List ℕ) :
    (s.getTxReadWriteSet.run choices).1.Consistent where
  version nsRW hnsRW r hr := by
    have hmem : ((nsRW.nameSpace, r.key), r.version) ∈
        (s.getTxReadWriteSet.run choices).1.keyReads :=
      mem_flatMap.mpr ⟨nsRW, hnsRW, mem_map.mpr ⟨r, hr, rfl⟩⟩
    rw [(h.mem_keyReads.mp hmem).2]
    exact committedVersion_lt db _ _
  isDelete nsRW hnsRW w hw := by
    obtain ⟨key, hwrite⟩ := ((mem_getTxReadWriteSet hnsRW).2.2 w).mp hw
    rw [h.write] at hwrite
    obtain ⟨value, -, rfl⟩ := Option.map_eq_some_iff.mp hwrite
    rfl

end Simulated

/-! ### Agreement of endorsers -/

/-- No two different elements. -/
def AtMostOne {α : Type} (l : List α) : Prop := ∀ a ∈ l, ∀ b ∈ l, a = b

instance {α : Type} [DecidableEq α] (l : List α) : Decidable (AtMostOne l) :=
  inferInstanceAs (Decidable (∀ a ∈ l, ∀ b ∈ l, a = b))

theorem atMostOne_iff_length_le_one {l : List α} (h : l.Nodup) : AtMostOne l ↔ l.length ≤ 1 := by
  match l with
  | [] => simp [AtMostOne]
  | [a] => simp [AtMostOne]
  | a :: b :: l =>
    have hne : a ≠ b := by
      rintro rfl
      simp at h
    simp only [length_cons, Nat.reduceLeDiff, iff_false]
    exact fun hone => hne (hone a (by simp) b (by simp))

theorem AtMostOne.congr {l l' : List α} (h : ∀ a, a ∈ l ↔ a ∈ l') : AtMostOne l ↔ AtMostOne l' := by
  simp only [AtMostOne, h]

/-- At most one pair, if there is at most one first component, with at most one pair. -/
theorem atMostOne_pairs_iff {α γ : Type} {N : List α} {f : α → List γ} {l : List (α × γ)}
    (hone : N.length ≤ 1) (hnodup : ∀ a, (f a).Nodup)
    (hmem : ∀ k, k ∈ l ↔ k.1 ∈ N ∧ k.2 ∈ f k.1) :
    (∀ a ∈ N, (f a).length ≤ 1) ↔ AtMostOne l := by
  constructor
  · intro hlen k hk k' hk'
    obtain ⟨hk₁, hk₂⟩ := (hmem k).mp hk
    obtain ⟨hk'₁, hk'₂⟩ := (hmem k').mp hk'
    have hfst : k.1 = k'.1 := by
      match N, hone with
      | [a], _ => rw [mem_singleton.mp hk₁, mem_singleton.mp hk'₁]
    have hsnd := (atMostOne_iff_length_le_one (hnodup k.1)).mpr (hlen k.1 hk₁)
    exact Prod.ext hfst (hsnd k.2 hk₂ k'.2 (hfst ▸ hk'₂))
  · intro hl a ha
    rw [← atMostOne_iff_length_le_one (hnodup a)]
    intro b hb c hc
    exact congrArg Prod.snd (hl (a, b) ((hmem _).mpr ⟨ha, hb⟩) (a, c) ((hmem _).mpr ⟨ha, hc⟩))

/-- The holder has its entries under their keys. -/
structure NsRWs.Keyed (nsRWs : NsRWs) : Prop where
  read : ∀ (key : Bytes) (cache : KVReadCache), nsRWs.readMap[key]? = some cache →
    cache.kvRead.key = key
  write : ∀ (key : Bytes) (w : KVWrite), nsRWs.writeMap[key]? = some w → w.key = key

/-- The reads and writes of a namespace do not depend on the order if there is at most one
of each. -/
theorem getNsReadWriteSet_agree_iff {nsRWs : NsRWs} (h : nsRWs.Keyed) :
    (∀ choices, ((getNsReadWriteSet ns nsRWs).run choices).1 =
        ((getNsReadWriteSet ns nsRWs).run []).1) ↔
      nsRWs.readMap.keys.length ≤ 1 ∧ nsRWs.writeMap.keys.length ≤ 1 := by
  have hreads (ks : List ℕ) : ((reorder ks nsRWs.readMap.keys).filterMap
      fun key => nsRWs.readMap[key]?.map KVReadCache.kvRead).map KVRead.key =
      reorder ks nsRWs.readMap.keys := by
    rw [← map_filterMap, map_map]
    apply map_filterMap_getElem?
    · intro key hkey
      rwa [(reorder_perm _ _).mem_iff, Std.ExtTreeMap.mem_keys] at hkey
    · exact h.read
  have hwrites (ks : List ℕ) : ((reorder ks nsRWs.writeMap.keys).filterMap
      fun key => nsRWs.writeMap[key]?).map KVWrite.key = reorder ks nsRWs.writeMap.keys := by
    apply map_filterMap_getElem?
    · intro key hkey
      rwa [(reorder_perm _ _).mem_iff, Std.ExtTreeMap.mem_keys] at hkey
    · exact h.write
  simp only [getNsReadWriteSet_run]
  constructor
  · intro hagree
    constructor
    · by_contra hlen
      obtain ⟨ks, hks, hne⟩ := exists_reorder_ne Std.ExtTreeMap.nodup_keys (Nat.lt_of_not_le hlen)
      have heq := congrArg (fun nsRW => nsRW.reads.map KVRead.key) (hagree ks)
      simp only [hreads, take_nil, ← hks, take_length] at heq
      exact hne heq
    · by_contra hlen
      obtain ⟨ks, hks, hne⟩ := exists_reorder_ne Std.ExtTreeMap.nodup_keys (Nat.lt_of_not_le hlen)
      -- the choices for the reads come first
      have heq := congrArg (fun nsRW => nsRW.writes.map KVWrite.key)
        (hagree (List.replicate nsRWs.readMap.keys.length 0 ++ ks))
      simp only [hwrites, take_nil, drop_nil, ← hks, take_length,
        drop_left' length_replicate] at heq
      exact hne heq
  · rintro ⟨hread, hwrite⟩ choices
    simp only [reorder_of_length_le_one hread, reorder_of_length_le_one hwrite]

section Agreement

variable {db : DB} {ops : List Op} {s : LockBasedTxSimulator}

theorem map_nameSpace_getTxReadWriteSet (s : LockBasedTxSimulator) (choices : List ℕ) :
    (s.getTxReadWriteSet.run choices).1.nsRWs.map NsReadWriteSet.nameSpace =
      reorder (choices.take s.rwMap.keys.length) s.rwMap.keys := by
  have hall := forall₂_getTxReadWriteSet s choices
  generalize reorder (choices.take s.rwMap.keys.length) s.rwMap.keys = l,
    (s.getTxReadWriteSet.run choices).1.nsRWs = l' at hall ⊢
  induction hall with
  | nil => rfl
  | cons hhead _ ih =>
    obtain ⟨choices', rfl⟩ := hhead
    rw [map_cons, ih]
    rfl

theorem getTxReadWriteSet_of_keys_eq_singleton (h : s.rwMap.keys = [ns])
    (choices : List ℕ) : (s.getTxReadWriteSet.run choices).1 =
      ⟨[((getNsReadWriteSet ns (s.rwMap.getD ns newNsRWs)).run (choices.drop 1)).1]⟩ := by
  have hone : reorder (choices.take s.rwMap.keys.length) s.rwMap.keys = [ns] := by
    rw [reorder_of_length_le_one (by simp [h]), h]
  have hlen : s.rwMap.keys.length = 1 := by rw [h]; rfl
  change mk (((reorder (choices.take s.rwMap.keys.length) s.rwMap.keys).mapM
    fun ns => getNsReadWriteSet ns (s.rwMap.getD ns newNsRWs)).run
      (choices.drop s.rwMap.keys.length)).1 = _
  rw [hone, hlen]
  rfl

theorem Simulated.keyed (h : Simulated db ops s) (ns : Bytes) :
    (s.rwMap.getD ns newNsRWs).Keyed where
  read key cache hcache := by
    rw [(holds_getD s ns).read, h.read] at hcache
    split_ifs at hcache
    cases hcache
    rfl
  write key w hw := by
    rw [(holds_getD s ns).write, h.write] at hw
    obtain ⟨value, -, rfl⟩ := Option.map_eq_some_iff.mp hw
    rfl

/-- The order does not matter if there is at most one namespace, read and write. -/
theorem Simulated.getTxReadWriteSet_agree_iff (h : Simulated db ops s) :
    (∀ choices, (s.getTxReadWriteSet.run choices).1 = (s.getTxReadWriteSet.run []).1) ↔
      s.rwMap.keys.length ≤ 1 ∧ ∀ ns ∈ s.rwMap.keys,
        (s.rwMap.getD ns newNsRWs).readMap.keys.length ≤ 1 ∧
          (s.rwMap.getD ns newNsRWs).writeMap.keys.length ≤ 1 := by
  constructor
  · intro hagree
    have hlen : s.rwMap.keys.length ≤ 1 := by
      by_contra hlen
      obtain ⟨ks, hks, hne⟩ := exists_reorder_ne Std.ExtTreeMap.nodup_keys (Nat.lt_of_not_le hlen)
      have heq := congrArg (fun rw => rw.nsRWs.map NsReadWriteSet.nameSpace) (hagree ks)
      simp only [map_nameSpace_getTxReadWriteSet, take_nil, ← hks, take_length] at heq
      exact hne heq
    refine ⟨hlen, fun ns hns => ?_⟩
    have hkeys : s.rwMap.keys = [ns] := by
      obtain ⟨ns', hns'⟩ := length_eq_one_iff.mp
        (hlen.antisymm (length_pos_of_mem hns))
      rw [hns', mem_singleton] at hns
      rw [hns', hns]
    rw [← getNsReadWriteSet_agree_iff (h.keyed ns)]
    intro choices
    have heq := hagree (0 :: choices)
    rw [getTxReadWriteSet_of_keys_eq_singleton hkeys,
      getTxReadWriteSet_of_keys_eq_singleton hkeys] at heq
    simpa using heq
  · rintro ⟨hlen, hns⟩ choices
    match hkeys : s.rwMap.keys, hlen with
    | [], _ =>
      have hnil (choices : List ℕ) : (s.getTxReadWriteSet.run choices).1 = ⟨[]⟩ := by
        have hmap := map_nameSpace_getTxReadWriteSet s choices
        rw [hkeys, reorder_of_length_le_one (by simp), map_eq_nil_iff] at hmap
        exact congrArg TxReadWriteSet.mk hmap
      rw [hnil, hnil]
    | [ns], _ =>
      rw [getTxReadWriteSet_of_keys_eq_singleton hkeys,
        getTxReadWriteSet_of_keys_eq_singleton hkeys,
        (getNsReadWriteSet_agree_iff (h.keyed ns)).mpr (hns ns (by simp [hkeys])) (choices.drop 1)]
      rfl

/-- The maps have at most one key if the calls touch at most one namespace, and one key each. -/
theorem Simulated.keys_length_iff (h : Simulated db ops s) :
    (s.rwMap.keys.length ≤ 1 ∧ ∀ ns ∈ s.rwMap.keys,
      (s.rwMap.getD ns newNsRWs).readMap.keys.length ≤ 1 ∧
        (s.rwMap.getD ns newNsRWs).writeMap.keys.length ≤ 1) ↔
      AtMostOne (ops.map Op.nameSpace) ∧ AtMostOne (storageReads ops) ∧
        AtMostOne (writtenKeys ops) := by
  have hkeys : s.rwMap.keys.length ≤ 1 ↔ AtMostOne (ops.map Op.nameSpace) := by
    rw [← atMostOne_iff_length_le_one Std.ExtTreeMap.nodup_keys]
    apply AtMostOne.congr
    intro ns
    rw [Std.ExtTreeMap.mem_keys, h.touched]
  rw [hkeys]
  apply and_congr_right
  intro hone
  rw [forall₂_and]
  apply and_congr
  · apply atMostOne_pairs_iff (hkeys.mpr hone) (fun _ => Std.ExtTreeMap.nodup_keys)
    intro k
    have hread : k ∈ storageReads ops ↔ (s.read k).isSome := by
      rw [h.read]
      split_ifs with hk <;> simp [hk]
    rw [Std.ExtTreeMap.mem_keys, Std.ExtTreeMap.mem_keys,
      Std.ExtTreeMap.mem_iff_isSome_getElem? (a := k.2), (holds_getD s k.1).read, hread]
    exact (and_iff_right_of_imp mem_of_read).symm
  · apply atMostOne_pairs_iff (hkeys.mpr hone) (fun _ => Std.ExtTreeMap.nodup_keys)
    intro k
    have hwrite : k ∈ writtenKeys ops ↔ (s.write k).isSome := by
      rw [h.write, ← not_iff_not, ← lastWrite_eq_none_iff]
      simp
    rw [Std.ExtTreeMap.mem_keys, Std.ExtTreeMap.mem_keys,
      Std.ExtTreeMap.mem_iff_isSome_getElem? (a := k.2), (holds_getD s k.1).write, hwrite]
    exact (and_iff_right_of_imp mem_of_write).symm

/-- Endorsers that simulate the same calls return the same bytes in every order of enumeration
exactly if the calls touch at most one namespace, read at most one key and write at most one. -/
theorem results_agree_iff {b : Bytes} (hsim : (simulate db ops).run newTxSimulator = .ok () s)
    (hresults : s.getTxSimulationResults [] = .ok b) :
    (∀ choices choices', s.getTxSimulationResults choices = s.getTxSimulationResults choices') ↔
      AtMostOne (ops.map Op.nameSpace) ∧ AtMostOne (storageReads ops) ∧
        AtMostOne (writtenKeys ops) := by
  have h := ((simulate_simulated db ops).of_run_eq_ok hsim).1
  rw [← h.keys_length_iff, ← h.getTxReadWriteSet_agree_iff]
  have hsize : (s.getTxReadWriteSet.run []).1.marshal.length < 2 ^ 63 := by
    by_contra hlarge
    unfold getTxSimulationResults at hresults
    rw [if_neg hlarge] at hresults
    cases hresults
  constructor
  · intro hagree choices
    -- equal bytes come from equal read-write sets
    have heq := hagree [] choices
    unfold getTxSimulationResults at heq
    dsimp only at heq
    split_ifs at heq
    exact (marshal_injective hsize (h.consistent []) (h.consistent choices)
      (Except.ok.inj heq)).symm
  · intro hagree choices choices'
    unfold getTxSimulationResults
    rw [hagree choices, hagree choices']

theorem exists_simulated {p : LockBasedTxSimulator → Prop} [DecidablePred p]
    (h : (match (simulate db ops).run newTxSimulator with
      | .ok _ s => decide (p s)
      | .error _ _ => false) = true) :
    ∃ s, (simulate db ops).run newTxSimulator = .ok () s ∧ p s := by
  split at h
  · rename_i s hs
    exact ⟨s, hs, of_decide_eq_true h⟩
  · cases h

end Agreement

/-- One key is read and then written. -/
theorem results_agree_readWrite : ∃ s b,
    (simulate ∅ [.getState [97] [1], .setState [97] [1] (some [2])]).run newTxSimulator =
      .ok () s ∧ s.getTxSimulationResults [] = .ok b ∧
      ∀ choices choices', s.getTxSimulationResults choices = s.getTxSimulationResults choices' := by
  obtain ⟨s, hsim, hresults⟩ : ∃ s,
      (simulate ∅ [.getState [97] [1], .setState [97] [1] (some [2])]).run newTxSimulator =
        .ok () s ∧ s.getTxSimulationResults [] = .ok [1, 1, 97, 1, 1, 1, 0, 1, 1, 1, 0, 1, 2] := by
    apply exists_simulated
    decide +kernel
  exact ⟨s, _, hsim, hresults, (results_agree_iff hsim hresults).mpr (by decide)⟩

/-- With two keys written, two orders of enumeration give different bytes. -/
theorem results_differ_twoWrites : ∃ s,
    (simulate ∅ [.setState [97] [1] (some [2]), .setState [97] [2] (some [2])]).run
      newTxSimulator = .ok () s ∧
      s.getTxSimulationResults [0, 0, 0] ≠ s.getTxSimulationResults [0, 1, 0] := by
  apply exists_simulated
  decide +kernel

end Fabric.Ledger
