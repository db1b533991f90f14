import Fabric.Sbft.Justified
import Fabric.Sbft.Symbolic

/-!
# What the selection for a new view protects

The selection rule over the view changes of distinct replicas, in whatever order they
are listed: which digest it must select, and when the order decides the outcome.
-/

namespace Fabric.Sbft

open Fabric.Common List Option

variable {β : Type} {P : Primitives β} {cfg : Config} {faulty : Finset ℕ}
  {entries : List (ℕ × ViewChange β)} {n v view : ℕ} {d : Option β} {p : ViewChange β → Bool}

/-! ### Committed digests -/

/-- At most one prepared and one preprepared tuple, none further ahead than the next batch. -/
def ViewChange.Honest (P : Primitives β) (vc : ViewChange β) : Prop :=
  vc.pset.length ≤ 1 ∧ vc.qset.length ≤ 1 ∧ ∀ t ∈ vc.pset ++ vc.qset, ∀ sv ∈ t.seq,
    ∃ cp ∈ vc.checkpoint, sv.seq ≤ seqOf P cp + 1

/-- View changes of distinct replicas, at most `F` of them faulty. -/
structure Collected (P : Primitives β) (cfg : Config) (faulty : Finset ℕ)
    (entries : List (ℕ × ViewChange β)) : Prop where
  nodup : (entries.map Prod.fst).Nodup
  replica : ∀ e ∈ entries, e.1 < cfg.N
  few : faulty.card ≤ cfg.F
  honest : ∀ e ∈ entries, e.1 ∉ faulty → e.2.Honest P

/-- The sequence number after the most recent checkpoint. -/
structure IsNext (P : Primitives β) (entries : List (ℕ × ViewChange β)) (n : ℕ) : Prop where
  attained : ∃ e ∈ entries, ∃ cp ∈ e.2.checkpoint, n = seqOf P cp + 1
  bound : ∀ e ∈ entries, ∀ cp ∈ e.2.checkpoint, seqOf P cp + 1 ≤ n

/-- More than `F` honest view changes have `d` prepared at `n` in the view `v` or a later one, and
what an honest one has preprepared there after `v` is `d` too. -/
structure Committed (cfg : Config) (faulty : Finset ℕ) (entries : List (ℕ × ViewChange β))
    (n v : ℕ) (d : Option β) : Prop where
  prepared : ∃ S : Finset ℕ, cfg.F + 1 ≤ S.card ∧ ∀ r ∈ S, r ∉ faulty ∧ ∃ e ∈ entries, e.1 = r ∧
    ∃ t ∈ e.2.pset, ∃ sv ∈ t.seq, sv.seq = n ∧ v ≤ sv.view ∧ t.digest = d
  preprepared : ∀ e ∈ entries, e.1 ∉ faulty → ∀ t ∈ e.2.qset, ∀ sv ∈ t.seq, sv.seq = n →
    v < sv.view → t.digest = d

theorem Collected.exists_voters (h : Collected P cfg faulty entries) (p : ViewChange β → Bool) :
    ∃ S : Finset ℕ, S.card = (entries.map Prod.snd).countP p ∧ S ⊆ Finset.range cfg.N ∧
      ∀ r ∈ S, ∃ vc, (r, vc) ∈ entries ∧ p vc = true := by
  have hpaired : List.Forall₂ (fun (e) vc => e.2 = vc) entries
      (entries.map Prod.snd) :=
    forall₂_map_right_iff.mpr (forall₂_same.mpr fun _ _ => rfl)
  obtain ⟨S, hcard, hS⟩ := exists_keys_of_countP hpaired h.nodup p
  refine ⟨S, hcard, fun r hr => ?_, fun r hr => ?_⟩
  · obtain ⟨vc, -, hmem, -⟩ := hS r hr
    exact Finset.mem_range.mpr (h.replica _ hmem)
  · obtain ⟨vc, vc', hmem, rfl, hp⟩ := hS r hr
    exact ⟨vc, hmem, hp⟩

theorem Committed.exists_carrier (h : Committed cfg faulty entries n v d)
    (hc : Collected P cfg faulty entries)
    (hquorum : cfg.noFaultyQuorum ≤ (entries.map Prod.snd).countP p) :
    ∃ vc, p vc = true ∧ ∃ t ∈ vc.pset, ∃ sv ∈ t.seq, sv.seq = n ∧ v ≤ sv.view ∧ t.digest = d := by
  obtain ⟨S, hcard, hS⟩ := h.prepared
  obtain ⟨T, hTcard, hTsub, hT⟩ := hc.exists_voters p
  have hSsub : S ⊆ Finset.range cfg.N := fun r hr => by
    obtain ⟨-, e, he, rfl, -⟩ := hS r hr
    exact Finset.mem_range.mpr (hc.replica e he)
  have hcommon : (Finset.range cfg.N).card + (∅ : Finset ℕ).card < S.card + T.card := by
    simp only [Finset.card_range, Finset.card_empty, Config.noFaultyQuorum] at *
    omega
  obtain ⟨r, hrS, hrT, -⟩ := exists_correct_common hSsub hTsub hcommon
  obtain ⟨-, e, he, rfl, hcarries⟩ := hS r hrS
  obtain ⟨vc, hmem, hp⟩ := hT e.1 hrT
  -- a replica lists one view change
  have heq := inj_on_of_nodup_map hc.nodup hmem he rfl
  exact ⟨e.2, heq ▸ hp, hcarries⟩

theorem Collected.exists_honest (h : Collected P cfg faulty entries)
    (hcorrect : cfg.oneCorrectQuorum ≤ (entries.map Prod.snd).countP p) :
    ∃ e ∈ entries, e.1 ∉ faulty ∧ p e.2 = true := by
  obtain ⟨T, hTcard, -, hT⟩ := h.exists_voters p
  have hlt : faulty.card < T.card := by
    have hfew := h.few
    simp only [Config.oneCorrectQuorum] at hcorrect
    omega
  obtain ⟨r, hrT, hr⟩ := exists_not_mem_of_card_lt hlt
  obtain ⟨vc, hmem, hp⟩ := hT r hrT
  exact ⟨(r, vc), hmem, hr, hp⟩

variable [DecidableEq β]

theorem IsNext.eq_of_makeXset (hn : IsNext P entries n) {x : Option (Subject β)} {best : Batch β}
    (h : makeXset P cfg view (entries.map Prod.snd) = .ok (some (x, best))) :
    n = seqOf P best + 1 := by
  obtain ⟨⟨vc, hvc, hbest⟩, hall⟩ := makeXset_best h
  obtain ⟨e, he, rfl⟩ := mem_map.mp hvc
  obtain ⟨e', he', cp, hcp, heq⟩ := hn.attained
  obtain ⟨cp', hcp', hle⟩ := hall e'.2 (mem_map.mpr ⟨e', he', rfl⟩)
  obtain rfl : cp' = cp := Option.some.inj (hcp'.symm.trans hcp)
  have hge := hn.bound e he best hbest
  omega

/-- A digest that more than `F` honest view changes have prepared is what the rule selects, in every
order, if it selects anything. -/
theorem makeXset_protects (hc : Collected P cfg faulty entries) (hn : IsNext P entries n)
    (hlt : n < 2 ^ 64) (hd : Committed cfg faulty entries n v d) {x : Option (Subject β)}
    {best : Batch β} (h : makeXset P cfg view (entries.map Prod.snd) = .ok (some (x, best))) :
    ∃ sub, x = some sub ∧ sub.digest = d ∧ sub.seq = some ⟨view, n⟩ := by
  classical
  have hbest := hn.eq_of_makeXset h
  have hnext : uint64 (seqOf P best + 1) = n := by rw [← hbest, uint64_of_lt hlt]
  cases x with
  | none =>
    -- a quorum with nothing to try would include a carrier
    have hnull := makeXset_null h
    rw [hnext] at hnull
    obtain ⟨vc, hnothing, t, ht, sv, hsv, rfl, -⟩ := hd.exists_carrier hc hnull
    obtain ⟨sv', hsv', hlow⟩ := of_decide_eq_true hnothing _ ht
    cases hsv.symm.trans hsv'
    exact absurd hlow (lt_irrefl sv.seq)
  | some sub =>
    obtain ⟨hseq, m, -, t, -, sv, hdigest, hsup⟩ := makeXset_some h
    rw [hnext] at hseq hsup
    refine ⟨sub, rfl, hdigest ▸ ?_, hseq⟩
    obtain ⟨e, he, hhonest, hA2⟩ := hc.exists_honest hsup.a2
    obtain ⟨q, hq, qsv, hqseq, hqn, hview, hqd⟩ := conditionA2_eq_true (of_decide_eq_true hA2)
    -- an honest replica does not look past the batch after its checkpoint
    obtain ⟨cp, hcp, hahead⟩ := (hc.honest e he hhonest).2.2 q (mem_append_right _ hq) _ hqseq
    have hsn : qsv.seq = n := by
      have hbound := hn.bound e he cp hcp
      have hge := hsup.ahead
      omega
    obtain ⟨vc, hA1, t', ht', sv', hsv', hn', hv', hd'⟩ := hd.exists_carrier hc hsup.a1
    obtain ⟨sv'', hsv'', hcase⟩ := (conditionA1_eq_true (of_decide_eq_true hA1)).2 t' ht'
    cases hsv'.symm.trans hsv''
    rcases hcase with hne | hlater | ⟨-, heq⟩
    · exact absurd (hn'.trans (hsn.symm.trans hqn)) hne
    · have hv := hv'.trans_lt (hlater.trans_le hview)
      exact hqd ▸ hd.preprepared e he hhonest q hq qsv hqseq hsn hv
    · exact heq ▸ hd'

/-- Three replicas prepared a batch in view 0; the fourth claims another for a later view. -/
def preparedVotes : List (ℕ × ViewChange Term) :=
  let vote (n v : ℕ) := ⟨1, [firstSubject v n], [firstSubject v n], some (genesis symbolic)⟩
  [(3, vote 8 9), (0, vote 7 0), (1, vote 7 0), (2, vote 7 0)]

theorem makeXset_preparedVotes : ∃ x best,
    makeXset symbolic fourReplicas 1 (preparedVotes.map Prod.snd) = .ok (some (x, best)) ∧
      ∃ sub, x = some sub ∧ sub.digest = some ((firstBatch 7).hash symbolic) ∧
        sub.seq = some ⟨1, 1⟩ := by
  have hhonest : ∀ e ∈ preparedVotes, e.1 ∉ ({3} : Finset ℕ) → e.2.Honest symbolic := by
    unfold ViewChange.Honest
    decide +kernel
  have hcollected : Collected symbolic fourReplicas {3} preparedVotes :=
    ⟨by decide, by decide, by decide, hhonest⟩
  have hnext : IsNext symbolic preparedVotes 1 := ⟨by decide +kernel, by decide +kernel⟩
  have hcommitted : Committed fourReplicas {3} preparedVotes 1 0
      (some ((firstBatch 7).hash symbolic)) :=
    ⟨⟨{0, 1, 2}, by decide, by decide +kernel⟩, by decide +kernel⟩
  exact ⟨some (firstSubject 1 7), genesis symbolic, rfl,
    makeXset_protects hcollected hnext (by decide) hcommitted rfl⟩

/-! ### The order of the view changes -/

section Verdicts

variable {δ : Type}

/-- What the rule makes of one view change. -/
inductive Verdict (δ : Type) where
  | panics
  | selects (d : δ)
  | empty
  | unsupported
deriving DecidableEq

/-- The outcome of the scan with `n` view changes without tuple so far. -/
def settle (q : ℕ) : List (Verdict δ) → ℕ → Option (Option (Option δ))
  | [], n => some (if q ≤ n then some none else none)
  | .panics :: _, _ => none
  | .selects d :: _, n => some (some (if q ≤ n then none else some d))
  | .empty :: l, n => settle q l (n + 1)
  | .unsupported :: l, n => settle q l n

def Verdict.isEmpty : Verdict δ → Bool
  | .empty => true
  | _ => false

/-- If a digest is selected then no scan panics, too few view changes are without tuple for the null
request, and no other digest is selected. -/
def Unanimous (q : ℕ) (l : List (Verdict δ)) : Prop :=
  ∀ d, .selects d ∈ l → .panics ∉ l ∧
    (q = 0 ∨ l.countP Verdict.isEmpty < q ∧ ∀ d', .selects d' ∈ l → d' = d)

variable {q m : ℕ} {l l' : List (Verdict δ)}

theorem settle_null (hm : q ≤ m) (h : .panics ∉ l) : settle q l m = some (some none) := by
  induction l generalizing m with
  | nil => simp [settle, hm]
  | cons a _ ih =>
    rw [mem_cons, not_or] at h
    cases a with
    | panics => exact absurd rfl h.1
    | selects => simp [settle, hm]
    | empty => exact ih (by omega) h.2
    | unsupported => exact ih hm h.2

theorem settle_selects {d : δ} (h : .panics ∉ l) (hd : .selects d ∈ l)
    (hcount : m + l.countP Verdict.isEmpty < q) (hone : ∀ d', .selects d' ∈ l → d' = d) :
    settle q l m = some (some (some d)) := by
  induction l generalizing m with
  | nil => cases hd
  | cons a _ ih =>
    rw [mem_cons, not_or] at h
    have hone' := fun d' hd' => hone d' (mem_cons_of_mem a hd')
    cases a with
    | panics => exact absurd rfl h.1
    | selects d' =>
      have hlt : ¬ q ≤ m := by omega
      simp [settle, hlt, hone d' mem_cons_self]
    | empty =>
      rw [countP_cons_of_pos rfl] at hcount
      exact ih h.2 (by simpa using hd) (by omega) hone'
    | unsupported =>
      exact ih h.2 (by simpa using hd) hcount hone'

theorem settle_append_empty (h : ∀ a ∈ l, a.isEmpty = true) :
    settle q (l ++ l') m = settle q l' (m + l.length) := by
  induction l generalizing m with
  | nil => rfl
  | cons a =>
    cases a <;> simp_all [settle, Verdict.isEmpty, Nat.add_assoc, Nat.add_comm]

theorem settle_perm (hperm : l'.Perm l) (h : ∀ d, .selects d ∉ l) :
    settle q l' m = settle q l m := by
  induction hperm generalizing m with
  | nil => rfl
  | cons a => cases a <;> simp_all [settle]
  | swap a b => cases a <;> cases b <;> simp_all [settle] <;> exact absurd rfl (h _).1
  | trans _ h₂ ih₁ ih₂ =>
    exact (ih₁ fun d hd => h d (h₂.mem_iff.mp hd)).trans (ih₂ h)

theorem exists_perm_cons {α : Type} {a : α} {l : List α} (h : a ∈ l) : ∃ l', (a :: l').Perm l := by
  obtain ⟨s, t, rfl⟩ := append_of_mem h
  exact ⟨s ++ t, perm_middle.symm⟩

theorem settle_order_iff : (∀ l', l'.Perm l → settle q l' 0 = settle q l 0) ↔ Unanimous q l := by
  constructor
  · intro hall d hd
    obtain ⟨r, hr⟩ := exists_perm_cons hd
    -- the outcome if this digest comes first, hence in every order
    have hfirst : ∀ l', l'.Perm l → settle q l' 0 = some (some (if q ≤ 0 then none else some d)) :=
      fun l' hl' => (hall l' hl').trans (hall _ hr).symm
    have hpanics : .panics ∉ l := fun hp => by
      obtain ⟨r', hr'⟩ := exists_perm_cons hp
      simpa [settle] using hfirst _ hr'
    refine ⟨hpanics, or_iff_not_imp_left.mpr fun hq => ⟨?_, fun d' hd' => ?_⟩⟩
    · by_contra hmany
      have hempty := hfirst _ (filter_append_perm Verdict.isEmpty l)
      rw [settle_append_empty (by simp), settle_null (by
        rw [← countP_eq_length_filter]; omega) (by simp [hpanics])] at hempty
      simp [hq] at hempty
    · obtain ⟨r', hr'⟩ := exists_perm_cons hd'
      simpa [settle, hq] using hfirst _ hr'
  · intro huna l' hl'
    by_cases hsel : ∃ d, .selects d ∈ l
    · obtain ⟨d, hd⟩ := hsel
      obtain ⟨hpanics, rfl | ⟨hfew, hone⟩⟩ := huna d hd
      · rw [settle_null (Nat.zero_le _) hpanics,
          settle_null (Nat.zero_le _) (fun hp => hpanics (hl'.mem_iff.mp hp))]
      · rw [settle_selects hpanics hd (by omega) hone]
        refine settle_selects (fun hp => hpanics (hl'.mem_iff.mp hp)) (hl'.mem_iff.mpr hd) ?_
          fun d' hd' => hone d' (hl'.mem_iff.mp hd')
        rw [hl'.countP_eq]
        omega
    · exact settle_perm hl' (not_exists.mp hsel)

end Verdicts

/-- What a selection says, short of the checkpoint: nothing if it panics. -/
def selection (P : Primitives β) (cfg : Config) (view : ℕ) (vcs : List (ViewChange β)) :
    Option (Option (Option (Subject β))) :=
  (makeXset P cfg view vcs).toOption.map (Option.map Prod.fst)

/-- What the rule makes of one view change among others. -/
def verdict (P : Primitives β) (cfg : Config) (next : ℕ) (vcs : List (ViewChange β))
    (m : ViewChange β) : Verdict (Option β) :=
  match (scanPset P cfg next vcs m.pset true).toOption with
  | none => .panics
  | some (some d, _) => .selects d
  | some (none, true) => .empty
  | some (none, false) => .unsupported

theorem toOption_bind {ε α γ : Type} (x : Except ε α) (f : α → Except ε γ) :
    (x >>= f).toOption = x.toOption.bind fun a => (f a).toOption := by
  cases x <;> rfl

variable {vcs vcs' ms : List (ViewChange β)} {next : ℕ}

omit [DecidableEq β] in
theorem countM_perm (p : ViewChange β → Except Panic Bool) (h : vcs'.Perm vcs) :
    (countM p vcs').toOption = (countM p vcs).toOption := by
  induction h with
  | nil => rfl
  | cons _ _ ih => simp only [countM, toOption_bind, ih]
  | swap a b l =>
    simp only [countM]
    rcases p a with _ | _ | _ <;> rcases p b with _ | _ | _ <;> cases countM p l <;> rfl
  | trans _ _ ih₁ ih₂ => exact ih₁.trans ih₂

theorem scanPset_perm (h : vcs'.Perm vcs) (ts : List (Subject β)) (nothing : Bool) :
    (scanPset P cfg next vcs' ts nothing).toOption =
      (scanPset P cfg next vcs ts nothing).toOption := by
  induction ts generalizing nothing with
  | nil => rfl
  | cons _ _ ih =>
    simp only [scanPset, toOption_bind, apply_ite Except.toOption, ih, countM_perm _ h]

theorem verdict_perm (h : vcs'.Perm vcs) : verdict P cfg next vcs' = verdict P cfg next vcs := by
  funext m
  rw [verdict, scanPset_perm h]
  rfl

theorem scanViewChanges_settle (k : ℕ) :
    ((scanViewChanges P cfg next vcs ms k).toOption.map fun s =>
      if cfg.noFaultyQuorum ≤ s.2 then some none else s.1.map some) =
      settle cfg.noFaultyQuorum (ms.map (verdict P cfg next vcs)) k := by
  induction ms generalizing k with
  | nil => simp [scanViewChanges, settle, Except.toOption]
  | cons m _ ih =>
    simp only [scanViewChanges, map_cons, verdict]
    rcases scanPset P cfg next vcs m.pset true with e | ⟨_ | d, _ | _⟩
    · rfl
    · exact ih k
    · exact ih (k + 1)
    all_goals simp [settle, Except.toOption, apply_ite some]

/-- The sequence number of the most recent checkpoint, given that of those before. -/
def bestSeq (P : Primitives β) : List (ViewChange β) → Option ℕ → Option (Option ℕ)
  | [], best => some best
  | vc :: vcs, best => vc.checkpoint.bind fun cp => (P.unmarshalHeader cp.header).bind fun hd =>
    bestSeq P vcs (some (max (best.getD 0) hd.seq))

omit [DecidableEq β] in
theorem bestSeq_perm (h : vcs'.Perm vcs) (best : Option ℕ) :
    bestSeq P vcs' best = bestSeq P vcs best := by
  induction h generalizing best with
  | nil => rfl
  | cons _ _ ih => simp only [bestSeq, ih]
  | swap a b =>
    have hcomm := fun x y : ℕ => max_right_comm (best.getD 0) x y
    simp only [bestSeq, getD_some]
    rcases a.checkpoint with _ | cp <;> rcases b.checkpoint with _ | cp' <;>
      simp only [bind_none, bind_some, bind_fun_none]
    rcases P.unmarshalHeader cp.header with _ | hd <;>
      rcases P.unmarshalHeader cp'.header with _ | hd' <;>
      simp only [bind_some, hcomm]
  | trans _ _ ih₁ ih₂ => exact (ih₁ best).trans (ih₂ best)

omit [DecidableEq β] in
theorem bestCheckpoint_seq {first : Option (Batch β)}
    (hfirst : ∀ b ∈ first, ∃ hd, decodeHeader P b = .ok hd) :
    (bestCheckpoint P vcs first).toOption.map (Option.map (seqOf P)) =
        bestSeq P vcs (first.map (seqOf P)) ∧
      ∀ best, bestCheckpoint P vcs first = .ok (some best) →
        ∃ hd, decodeHeader P best = .ok hd := by
  induction vcs generalizing first with
  | nil => exact ⟨rfl, fun best h => hfirst best (Except.ok.inj h)⟩
  | cons vc _ ih =>
    rw [bestCheckpoint, bestSeq]
    cases vc.checkpoint with
    | none => exact ⟨rfl, fun best h => by cases h⟩
    | some cp =>
      cases hdec : decodeHeader P cp with
      | error =>
        have hnone : P.unmarshalHeader cp.header = none := by
          unfold decodeHeader at hdec
          split at hdec <;> simp_all
        rw [bind_some, hnone, derefE, ok_bind, hdec]
        exact ⟨rfl, fun best h => by cases h⟩
      | ok hd =>
        obtain ⟨hsome, hseq⟩ := decodeHeader_eq_ok P hdec
        rw [bind_some, hsome, derefE, ok_bind, hdec]
        cases first with
        | none =>
          have hcp : ∀ b ∈ some cp, ∃ hd, decodeHeader P b = .ok hd := by simp [hdec]
          simpa [hseq] using ih hcp
        | some b =>
          obtain ⟨bhd, hb⟩ := hfirst b rfl
          have hbseq := (decodeHeader_eq_ok P hb).2
          simp only [hb, ok_bind, map_some, hbseq]
          split_ifs with hlt
          · have hcp : ∀ b ∈ some cp, ∃ hd, decodeHeader P b = .ok hd := by simp [hdec]
            simpa [hseq, max_eq_right hlt.le] using ih hcp
          · simpa [hbseq, max_eq_left (not_lt.mp hlt)] using ih hfirst

theorem selection_eq (h : vcs'.Perm vcs) :
    selection P cfg view vcs' = (bestSeq P vcs none).bind fun best =>
      match best with
      | none => some none
      | some seq => (settle cfg.noFaultyQuorum
          (vcs'.map (verdict P cfg (uint64 (seq + 1)) vcs)) 0).map
            (Option.map (Option.map fun d => ⟨some ⟨view, uint64 (seq + 1)⟩, d⟩)) := by
  obtain ⟨hseq, hdecodes⟩ := @bestCheckpoint_seq β P vcs' none nofun
  rw [map_none, bestSeq_perm h] at hseq
  rw [selection, makeXset, ← hseq]
  rcases hbest : bestCheckpoint P vcs' none with e | _ | best
  · rfl
  · rfl
  obtain ⟨hd, hhd⟩ := hdecodes best hbest
  simp only [Except.toOption, bind_some, map_some, (decodeHeader_eq_ok P hhd).2, hhd,
    ok_bind, ← verdict_perm h, ← scanViewChanges_settle]
  rcases scanViewChanges P cfg (uint64 (hd.seq + 1)) vcs' vcs' 0 with e | ⟨d, k⟩
  · rfl
  · simp only [ok_bind]
    split_ifs with hk
    · simp [hk]
    · cases d <;> simp [hk]

/-- All orders have the same outcome exactly if the verdicts leave no choice. -/
theorem selection_order_iff : (∀ vcs' : List (ViewChange β), vcs'.Perm vcs →
      selection P cfg view vcs' = selection P cfg view vcs) ↔
      ∀ seq, bestSeq P vcs none = some (some seq) →
        Unanimous cfg.noFaultyQuorum (vcs.map (verdict P cfg (uint64 (seq + 1)) vcs)) := by
  have hself := @selection_eq β P cfg view _ vcs vcs (.refl vcs)
  rcases hbest : bestSeq P vcs none with _ | _ | seq
  · refine iff_of_true (fun vcs' h => ?_) nofun
    rw [selection_eq h, hself, hbest]
    rfl
  · refine iff_of_true (fun vcs' h => ?_) (by simp)
    rw [selection_eq h, hself, hbest]
    rfl
  have hinj : Function.Injective (Option.map (Option.map (Option.map fun d : Option β =>
      (⟨some ⟨view, uint64 (seq + 1)⟩, d⟩ : Subject β)))) :=
    map_injective (map_injective (map_injective fun d d' h => by simpa using h))
  have hiff : ∀ vcs', vcs'.Perm vcs → (selection P cfg view vcs' = selection P cfg view vcs ↔
        settle cfg.noFaultyQuorum (vcs'.map (verdict P cfg (uint64 (seq + 1)) vcs)) 0 =
          settle cfg.noFaultyQuorum (vcs.map (verdict P cfg (uint64 (seq + 1)) vcs)) 0) := by
    intro vcs' h
    rw [selection_eq h, hself, hbest]
    exact hinj.eq_iff
  simp only [Option.some.injEq, forall_eq']
  rw [← settle_order_iff]
  constructor
  · intro hall l hl
    -- another order of the verdicts comes from another order of the view changes
    have hcomp := congrFun₂ (eq_map_comp_perm (verdict P cfg (uint64 (seq + 1)) vcs)) l vcs
    obtain ⟨vcs', rfl, hperm⟩ := hcomp.mpr hl
    exact (hiff vcs' hperm).mp (hall vcs' hperm)
  · intro hall vcs' hperm
    exact (hiff vcs' hperm).mpr (hall _ (hperm.map _))

/-- Three view changes with nothing prepared and one with a batch that was preprepared. -/
def contestedVotes : List (ViewChange Term) :=
  let empty : ViewChange Term := ⟨1, [], [firstSubject 0 7], some (genesis symbolic)⟩
  [⟨1, [firstSubject 0 7], [firstSubject 0 7], some (genesis symbolic)⟩, empty, empty, empty]

theorem selection_contestedVotes : ∃ vcs', vcs'.Perm contestedVotes ∧
    selection symbolic fourReplicas 1 vcs' = some (some none) ∧
      selection symbolic fourReplicas 1 contestedVotes = some (some (some (firstSubject 1 7))) :=
  ⟨contestedVotes.reverse, reverse_perm _, rfl, rfl⟩

end Fabric.Sbft
