import Fabric.Common.Quorum
import Fabric.ConfigTx.Update

/-!
# The sequence number of the last modification

Every item records the sequence number of its last modification. The manager enforces this
number for items that are new or have a new value, but a change of the policy that governs
further modifications goes unnoticed.
-/

namespace Fabric.ConfigTx

open Fabric.Common

variable {P : Protobuf} {ch : CryptoHelper} {cm cm' : ConfigurationManager}
  {configtx : ConfigurationEnvelope} {choices : List ℕ} {acc acc' : Option Bytes × UInt64}
  {seq : UInt64}

/-- The items of an envelope. -/
def ConfigurationEnvelope.decoded (P : Protobuf) (configtx : ConfigurationEnvelope) :
    List ConfigurationItem :=
  configtx.items.filterMap fun entry => P.configurationItem entry.configurationItem

/-- New items of `cm'` and those whose value or policy differs from `cm` have the sequence number of
`cm'`; an item with the old number is as it was. -/
def FaithfulTo (cm cm' : ConfigurationManager) : Prop :=
  ∀ t (k : Bytes) (new : ConfigurationItem), (cm'.configuration t)[k]? = some new →
    ((cm.configuration t)[k]? = none → new.lastModified = cm'.sequence) ∧
    ∀ old : ConfigurationItem, (cm.configuration t)[k]? = some old →
      (new.value ≠ old.value ∨ new.modificationPolicy ≠ old.modificationPolicy →
        new.lastModified = cm'.sequence) ∧
      (new.lastModified = old.lastModified →
        new.value = old.value ∧ new.modificationPolicy = old.modificationPolicy)

/-- Items with the value and the sequence number of the present ones have their policy. -/
def KeepsPolicies (P : Protobuf) (cm : ConfigurationManager) (configtx : ConfigurationEnvelope) :
    Prop :=
  ∀ t (k : Bytes) (config old : ConfigurationItem),
    lastItem (configtx.decoded P) t k = some config →
    (cm.configuration t)[k]? = some old → config.value = old.value →
    config.lastModified = old.lastModified → config.modificationPolicy = old.modificationPolicy

/-! ### Sequence numbers -/

theorem le_of_computeStep {entry : SignedConfigurationItem}
    (h : computeStep P acc entry = .ok acc') : acc.2 ≤ acc'.2 ∧
      ∀ item, P.configurationItem entry.configurationItem = some item →
        item.lastModified ≤ acc'.2 := by
  unfold computeStep at h
  split at h
  · cases h
  · rename_i item hitem
    -- every way to go on keeps the larger of the two numbers
    have hmax : acc'.2 = if acc.2 < item.lastModified then item.lastModified else acc.2 := by
      dsimp only at h
      split at h
      · cases h
      · split at h
        · cases h
        · cases h
          rfl
        · split at h
          · cases h
            rfl
          · cases h
    rw [hmax, hitem]
    split_ifs with hlt
    · refine ⟨UInt64.le_of_lt hlt, ?_⟩
      rintro _ ⟨⟩
      exact UInt64.le_refl _
    · refine ⟨UInt64.le_refl _, ?_⟩
      rintro _ ⟨⟩
      exact UInt64.not_lt.mp hlt

theorem le_of_foldlM_computeStep {entries : List SignedConfigurationItem}
    (h : entries.foldlM (computeStep P) acc = .ok acc') :
    acc.2 ≤ acc'.2 ∧ ∀ entry ∈ entries, ∀ item,
      P.configurationItem entry.configurationItem = some item → item.lastModified ≤ acc'.2 := by
  induction entries generalizing acc with
  | nil =>
    cases h
    exact ⟨UInt64.le_refl _, by simp⟩
  | cons _ _ ih =>
    obtain ⟨acc₁, hstep, hrest⟩ := bind_eq_ok_iff.mp h
    obtain ⟨hle, hitem⟩ := le_of_computeStep hstep
    obtain ⟨hle', hitems⟩ := ih hrest
    refine ⟨UInt64.le_trans hle hle', List.forall_mem_cons.mpr ⟨?_, hitems⟩⟩
    exact fun item hdecode => UInt64.le_trans (hitem item hdecode) hle'

theorem computeChainIDAndSequence_le {chainID : Option Bytes}
    (h : computeChainIDAndSequence P configtx = .ok (chainID, seq)) :
    ∀ item ∈ configtx.decoded P, item.lastModified ≤ seq := by
  unfold computeChainIDAndSequence at h
  split at h
  · cases h
  · intro item hitem
    obtain ⟨entry, hentry, hdecode⟩ := List.mem_filterMap.mp hitem
    exact (le_of_foldlM_computeStep h).2 entry hentry item hdecode

variable {items : List ConfigurationItem} {item : ConfigurationItem}

theorem Updated.decoded_eq (h : Updated P cm configtx items cm') : configtx.decoded P = items := by
  have hmap : configtx.decoded P = (configtx.items.map
      fun entry => P.configurationItem entry.configurationItem).filterMap id := by
    rw [List.filterMap_map]
    rfl
  rw [hmap, h.decoded, List.filterMap_map]
  exact List.filterMap_some

theorem Checked.lastModified_le (hchecked : Checked P ch cm configtx items)
    (h : Updated P cm configtx items cm') :
    ∀ item ∈ items, item.lastModified ≤ cm'.sequence := by
  obtain ⟨chainID, hcompute, -⟩ := hchecked.compute
  rw [h.sequence, ← h.decoded_eq]
  exact computeChainIDAndSequence_le hcompute

theorem checkLastModified_eq_ok {oldItem : Option ConfigurationItem}
    {config : ConfigurationItem} (h : checkLastModified seq oldItem config = .ok ()) :
    (oldItem = none → config.lastModified = seq) ∧ ∀ old, oldItem = some old →
        old.lastModified ≠ config.lastModified ∨ config.value ≠ old.value →
          config.lastModified = seq := by
  unfold checkLastModified at h
  split at h
  · dsimp only at h
    split_ifs at h with hmodified
    refine ⟨by simp, ?_⟩
    rintro old ⟨⟩ hne
    by_contra hseq
    exact hmodified ⟨hne, hseq⟩
  · split_ifs at h with hseq
    exact ⟨fun _ => not_not.mp hseq, by simp⟩

/-! ### Faithful sequence numbers -/

theorem Accepted.lastModified_le (h : Accepted P ch cm) {t : ConfigurationType} {k : Bytes}
    (hitem : (cm.configuration t)[k]? = some item) :
    item.lastModified ≤ cm.sequence := by
  obtain ⟨cm₀, configtx, items, hchecked, hupdated⟩ := h
  rw [hupdated.configuration] at hitem
  exact hchecked.lastModified_le hupdated item (lastItem_eq_some hitem).1

theorem Checked.exists_check (h : Checked P ch cm configtx items) (hitem : item ∈ items) :
    ∃ entry ∈ configtx.items, checkItem P ch cm (cm.sequence + 1) entry = .ok item := by
  exact exists_right_of_forall₂ (List.Forall₂.flip h.check) hitem

/-- Sequence numbers of items stay faithful exactly if items that seem unmodified keep their policy.
-/
theorem faithfulTo_iff_keepsPolicies (hreached : Reached P ch cm)
    (happly : outcome (apply P ch choices configtx) cm = some (none, cm'))
    (hrange : cm.sequence.toNat + 1 < 2 ^ 64) :
    FaithfulTo cm cm' ↔ KeepsPolicies P cm configtx := by
  have haccepted := hreached.accepted
  have hends : Ends (apply P ch choices configtx) cm _ _ := apply_ends haccepted.mirrored.idle
  obtain ⟨-, hrun⟩ := (outcome_eq_some happly).resolve_right (by simp)
  obtain ⟨-, items, hchecked, hupdated⟩ := hends.of_run_eq_ok hrun
  have hdecoded := hupdated.decoded_eq
  constructor
  · intro hfaithful t k config old hconfig hold _ hmodified
    rw [hdecoded, ← hupdated.configuration] at hconfig
    exact ((hfaithful t k config hconfig).2 old hold).2 hmodified |>.2
  · intro hkeeps t k new hnew
    rw [hupdated.configuration] at hnew
    obtain ⟨hmem, rfl, rfl⟩ := lastItem_eq_some hnew
    obtain ⟨entry, -, hcheck⟩ := hchecked.exists_check hmem
    obtain ⟨hisNew, hisModified⟩ := checkLastModified_eq_ok (checkItem_eq_ok hcheck).2.2
    rw [hupdated.sequence]
    refine ⟨hisNew, fun old hold => ⟨fun hne => hisModified old hold ?_, fun hsame => ?_⟩⟩
    · by_contra hunmodified
      obtain ⟨hlast, hvalue⟩ := not_or.mp hunmodified
      rcases hne with hvalue' | hpolicy
      · exact hvalue hvalue'
      · exact hpolicy (hkeeps _ _ new old (hdecoded ▸ hnew) hold (not_not.mp hvalue)
          (not_not.mp hlast).symm)
    · -- an item with the new sequence number would be newer than it was before
      have hlt : old.lastModified.toNat < (cm.sequence + 1).toNat := by
        rw [UInt64.toNat_add, UInt64.toNat_one, Nat.mod_eq_of_lt hrange]
        exact Nat.lt_succ_of_le (haccepted.lastModified_le hold)
      have hvalue : new.value = old.value := by
        by_contra hvalue
        rw [← hsame, hisModified old hold (.inr hvalue)] at hlt
        exact lt_irrefl _ hlt
      exact ⟨hvalue, hkeeps _ _ new old (hdecoded ▸ hnew) hold hvalue hsame⟩

/-- The fabric item with a policy and a value, beside a policy with a sequence number. -/
def fabricItem (m p v : UInt8) : ConfigurationEnvelope :=
  ⟨[⟨[3, m, p, 1, v], [⟨[9], [4]⟩]⟩, ⟨[0, 1, 7, 7, 9], [⟨[9], [4]⟩]⟩]⟩

theorem faithfulTo_fabricItem : ∃ cm cm',
    managerAfter byteFormat (fun _ _ _ => true) [] (twoItems 0) [] = some cm ∧
      outcome (apply byteFormat (fun _ _ _ => true) [] (fabricItem 1 8 6)) cm = some (none, cm') ∧
      FaithfulTo cm cm' := by
  obtain ⟨cm, hcm, cm', happly, hseq⟩ : ∃ cm,
      managerAfter byteFormat (fun _ _ _ => true) [] (twoItems 0) [] = some cm ∧
        ∃ cm', outcome (apply byteFormat (fun _ _ _ => true) [] (fabricItem 1 8 6)) cm =
          some (none, cm') ∧ cm.sequence = 0 := by
    decide +kernel
  have hreached : Reached byteFormat (fun _ _ _ => true) cm := ⟨[], twoItems 0, [], hcm⟩
  refine ⟨cm, cm', hcm, happly,
    (faithfulTo_iff_keepsPolicies hreached happly (by rw [hseq]; decide)).mpr ?_⟩
  -- every item of the envelope is newer than those of the manager
  intro t k config old hconfig hold _ hsame
  have hone : config.lastModified = 1 := by
    have hall : ∀ i ∈ (fabricItem 1 8 6).decoded byteFormat, i.lastModified = 1 := by decide
    exact hall config (lastItem_eq_some hconfig).1
  have hle := hreached.accepted.lastModified_le hold
  rw [← hsame, hone, hseq] at hle
  exact absurd hle (by decide)

/-- The policy of an item is replaced without a new sequence number. -/
theorem not_faithfulTo_fabricItem : ∃ cm cm',
    managerAfter byteFormat (fun _ _ _ => true) [] (twoItems 0) [] = some cm ∧
      outcome (apply byteFormat (fun _ _ _ => true) [] (fabricItem 0 8 5)) cm = some (none, cm') ∧
      ¬ FaithfulTo cm cm' := by
  obtain ⟨cm, hcm, hold, cm', happly, hnew⟩ : ∃ cm,
      managerAfter byteFormat (fun _ _ _ => true) [] (twoItems 0) [] = some cm ∧
        (cm.configuration .fabric)[([1] : Bytes)]? =
          some ⟨some ⟨some []⟩, .fabric, 0, [7], [1], [5]⟩ ∧
        ∃ cm', outcome (apply byteFormat (fun _ _ _ => true) [] (fabricItem 0 8 5)) cm =
          some (none, cm') ∧ (cm'.configuration .fabric)[([1] : Bytes)]? =
            some ⟨some ⟨some []⟩, .fabric, 0, [8], [1], [5]⟩ := by
    decide +kernel
  refine ⟨cm, cm', hcm, happly, fun hfaithful => ?_⟩
  have hpolicy := (((hfaithful _ _ _ hnew).2 _ hold).2 rfl).2
  cases hpolicy

end Fabric.ConfigTx
