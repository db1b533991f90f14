import Fabric.Sbft.Delivery
import Fabric.Sbft.Restart

/-!
# Delivered batches pass the checks

Whichever way a batch was delivered, it carries signatures that every replica accepts:
a weak quorum of checkpoints signs the header of the request in flight, and what comes
with a hello or a view change was checked before. This holds across restarts and
whatever Byzantine replicas send.
-/

namespace Fabric.Sbft

open Fabric.Common Std.ExtTreeMap

variable {β : Type} [DecidableEq β] {P : Primitives β} {cfg : Config} {b : Batch β}

/-- A batch that passes the checks for a batch with signatures. -/
def Batch.Valid (P : Primitives β) (cfg : Config) (b : Batch β) : Prop :=
  ∃ hd, checkBatch P cfg b false true = .ok hd

/-- A header that decodes, signatures that verify, and unless it is a first one, enough of them. -/
theorem Batch.valid_iff : b.Valid P cfg ↔ ∃ hd, P.unmarshalHeader b.header = some hd ∧
    (hd.prevHash ≠ none → cfg.oneCorrectQuorum ≤ b.signatures.size) ∧
    ∀ r sig, b.signatures[r]? = some sig → P.checkSig (P.hash b.header) r sig = true := by
  constructor
  · rintro ⟨hd, hcheck⟩
    obtain ⟨hdec, -, hquorum, hsigs⟩ := checkBatch_eq_ok P hcheck
    exact ⟨hd, hdec, fun hprev => hquorum hprev rfl, hsigs⟩
  · rintro ⟨hd, hdec, hquorum, hsigs⟩
    refine ⟨hd, ?_⟩
    have hall : (b.signatures.toList.all fun e => P.checkSig (b.hash P) e.1 e.2) = true := by
      rw [List.all_eq_true]
      rintro ⟨r, sig⟩ hmem
      exact hsigs r sig (mem_toList_iff_getElem?_eq_some.mp hmem)
    have henough : ¬ (hd.prevHash ≠ none ∧ b.signatures.size < cfg.oneCorrectQuorum) :=
      fun h => (hquorum h.1).not_gt h.2
    simp [checkBatch, hdec, henough, hall]

theorem Batch.Valid.congr {b b' : Batch β} (h : b.Valid P cfg) (hheader : b'.header = b.header)
    (hsigs : b'.signatures = b.signatures) : b'.Valid P cfg := by
  rw [Batch.valid_iff] at h ⊢
  rwa [hheader, hsigs]

theorem genesis_valid : (genesis P).Valid P cfg := by
  have hdec := unmarshalHeader_makeBatch P 0 none []
  have hsigs : (genesis P).signatures = ∅ := rfl
  rw [Batch.valid_iff]
  exact ⟨_, hdec, fun hprev => absurd rfl hprev, by simp [hsigs]⟩

omit [DecidableEq β] in
theorem mem_of_getElem?_ofList {α : Type} {l : List (ℕ × α)} (hnodup : (l.map Prod.fst).Nodup)
    {k : ℕ} {a : α} (h : (ofList l)[k]? = some a) : (k, a) ∈ l := by
  have hdistinct := (List.pairwise_map.mp hnodup).imp fun hne heq => hne (Nat.compare_eq_eq.mp heq)
  have hmem : k ∈ l.map Prod.fst := by
    by_contra hnot
    rw [getElem?_ofList_of_contains_eq_false (by simpa using hnot)] at h
    cases h
  obtain ⟨⟨k', a'⟩, hmem', rfl⟩ := List.mem_map.mp hmem
  rw [getElem?_ofList_of_mem (Nat.compare_eq_eq.mpr rfl) hdistinct hmem'] at h
  obtain rfl : a' = a := by simpa using h
  exact hmem'

omit [DecidableEq β] in
theorem size_ofList_of_nodup {α : Type} {l : List (ℕ × α)} (hnodup : (l.map Prod.fst).Nodup) :
    (ofList l : GoMap α).size = l.length :=
  size_ofList ((List.pairwise_map.mp hnodup).imp fun hne heq =>
    hne (Nat.compare_eq_eq.mp heq))

theorem Delivers.valid {c c' : Core β} (h : Delivers P c c' b) (hc : c.Sound P) :
    b.Valid P c.config := by
  cases h with
  | quorum pp b _ replicas hpp hbatch _ _ hquorum hreplicas hsigs =>
    subst hsigs
    have hkeys : ((replicas.map fun e => (e.1, e.2.signature)).map Prod.fst).Nodup := by
      rwa [List.map_map]
    obtain ⟨hmem, sv, b', hsv, hb', hdigest, -⟩ := hc.cur.preprep pp hpp
    obtain rfl : b' = b := by simpa [hb'] using hbatch
    obtain ⟨sv', b'', hd, -, hb'', hdec, -⟩ := hc.checked pp hmem
    obtain rfl : b'' = b' := by simpa [hb''] using hb'
    rw [Batch.valid_iff]
    refine ⟨hd, hdec, fun _ => ?_, ?_⟩
    · rw [size_ofList_of_nodup hkeys, List.length_map]
      exact hquorum
    · -- each signature is on the digest in flight, the hash of the header
      intro r sig hsig
      obtain ⟨e, he, heq⟩ := List.mem_map.mp (mem_of_getElem?_ofList hkeys hsig)
      obtain ⟨rfl, rfl⟩ : e.1 = r ∧ e.2.signature = sig := by simpa using heq
      obtain ⟨-, hcheck, -, hsum⟩ := hreplicas e he
      rw [hsum, hdigest] at hcheck
      exact hcheck
  | hello _ _ _ hd _ _ hcheck => exact ⟨hd, hcheck⟩
  | newView _ _ _ _ _ best _ _ _ _ hjust =>
    obtain ⟨r, vc, ⟨svc, cp, hd, -, -, -, -, hcp, hcheck⟩, hbest⟩ := hjust.exists_best
    obtain rfl : cp = best := by simpa [hcp] using hbest
    refine Batch.Valid.congr ⟨hd, hcheck⟩ Core.header_xsetBatch ?_
    unfold Core.xsetBatch
    split_ifs
    · split <;> rfl
    · rfl

/-- The batches that an event delivers or shows to others are valid. -/
def Event.Valid (P : Primitives β) (cfg : Config) (e : Event β) : Prop :=
  (∀ b, e = .deliver b → b.Valid P cfg) ∧
  (∀ h dest, e = .send (.hello h) dest → ∃ b, h.batch = some b ∧ b.Valid P cfg) ∧
  ∀ vc, e = .signViewChange vc → ∃ cp, vc.checkpoint = some cp ∧ cp.Valid P cfg

theorem lastBatch_valid {t : List (Event β)} (h : Always (fun e _ => e.Valid P cfg) t) :
    (lastBatch P t).Valid P cfg := by
  induction t with
  | nil => exact genesis_valid
  | cons e _ ih =>
    cases e with
    | deliver b => exact h.1.1 b rfl
    | _ => exact ih h.2

theorem Alone.valid {id : ℕ} {r : Prop} {c : Core β} (h : Alone P cfg id r c) :
    Always (fun e _ => e.Valid P cfg) c.trace := by
  refine h.induction_restart
    (always_iff_forall_mem.mpr fun _ _ => trivial) (fun _ _ _ => trivial) (fun _ h => h) ?_ ?_ ?_
  · intro t c hc _ ht
    cases hc <;> simpa [Event.Valid] using ht
  · intro c m src _ hc
    simpa [Event.Valid] using hc
  · intro c c' hc _ hI hstep
    obtain ⟨rfl, -⟩ := hc.frame
    have hlast := (lastBatch_valid hI).congr rfl rfl
    refine hI.extend hstep.frame.2.2 fun e t hnew _ _ => ⟨?_, ?_, ?_⟩
    · rintro b rfl
      exact (hstep.delivers hc.sound hnew).valid hc.sound
    · rintro hello dest rfl
      obtain ⟨rfl, -⟩ := hstep.hello_sent hnew
      exact ⟨_, rfl, hlast⟩
    · rintro vc rfl
      obtain ⟨w, -, rfl, -⟩ := hstep.viewChange_signed hnew
      exact ⟨_, rfl, hlast⟩

/-- The last batch of a correct replica is valid, and so are those in its hellos and view changes.
-/
def Revalidates (P : Primitives β) (cfg : Config) (B : Finset ℕ) (sys : System β) : Prop :=
  ∀ e ∈ sys.histories B, (lastBatch P e.2).Valid P cfg ∧
    (∀ h dest, .send (.hello h) dest ∈ e.2 → ∃ b, h.batch = some b ∧ b.Valid P cfg) ∧
    ∀ vc, .signViewChange vc ∈ e.2 → ∃ cp, vc.checkpoint = some cp ∧ cp.Valid P cfg

/-- With any Byzantine replicas and restarts, the last batch of a correct replica passes the checks,
whoever makes them; and no replica stops because its own last batch does not. -/
theorem revalidates {B : Finset ℕ} {ls : List (Label β)} {sys : System β}
    (hrun : System.run P B (System.init P cfg) ls = some sys) :
    Revalidates P cfg B sys ∧ ∀ l, sys.panic? P B l ≠ some .invalidLastBatch := by
  constructor
  · obtain ⟨g, hg, hhist⟩ := run_refines hrun
    rintro ⟨i, t⟩ hit
    obtain ⟨hi, -, rfl⟩ := (hhist i t).mp hit
    have hvalid := (hg.alone i hi).valid
    refine ⟨lastBatch_valid hvalid, fun h dest hmem => ?_, fun vc hmem => ?_⟩
    · exact (always_iff_forall_mem.mp hvalid _ hmem).2.1 h dest rfl
    · exact (always_iff_forall_mem.mp hvalid _ hmem).2.2 vc rfl
  · intro l hpanic
    obtain ⟨sys', hstep⟩ := System.exists_step_of_panic? hpanic
    obtain ⟨g, hg, -, hi, -, hstops⟩ := run_stops hrun hstep hpanic
    obtain ⟨hd, hcheck⟩ : Batch.Valid P cfg
        { lastBatch P (g l.replica).trace with payloads := [] } :=
      (lastBatch_valid (hg.alone _ hi).valid).congr rfl rfl
    rw [← (hg.frame _ hi).1] at hcheck
    exact hstops hd hcheck

/-- Replica 3 delivers the first batch, restarts and shows it to replica 1. -/
theorem revalidates_executedRun : ∃ sys, System.run symbolic {0} (System.init symbolic fourReplicas)
      (executedRun ++ [.of 3 .restart, .of 3 (.connection 1)]) = some sys ∧
      (∃ e ∈ sys.histories {0}, delivered e.2 ≠ []) ∧
      Revalidates symbolic fourReplicas {0} sys ∧
      ∀ l, sys.panic? symbolic {0} l ≠ some .invalidLastBatch := by
  refine exists_and_of_checked (fun _ => True) (by decide +kernel) ?_
  rintro sys hrun -
  exact revalidates hrun

end Fabric.Sbft
