import Fabric.Common.Quorum
import Fabric.Sbft.Core

/-!
# Justified new views

What a new view that passes the checks says about the view changes it carries: each
is signed by the replica it stands for, and the selected request and checkpoint are
supported by quorums of them.
-/

namespace Fabric.Sbft

open Fabric.Common

variable {β : Type} {P : Primitives β}

variable {vc : ViewChange β}

theorem checkSig_eq_ok {svc : Signed β} {r : ℕ} (h : checkSig P svc r = .ok vc) :
    P.checkSig svc.data r svc.signature = true ∧ P.unmarshalViewChange svc.data = some vc := by
  unfold checkSig at h
  split_ifs at h with hsig
  split at h
  · cases h
  · rename_i vc' hdec
    cases h
    exact ⟨by simpa using hsig, hdec⟩

variable [DecidableEq β] {sv : SeqView} {ε α : Type} {d : Option β}

/-- The entry for `r` decodes to `vc`, for the same view and with a checked checkpoint. -/
def NewView.Carries (P : Primitives β) (cfg : Config) (nv : NewView β) (r : ℕ)
    (vc : ViewChange β) : Prop :=
  ∃ svc cp hd, nv.vset[r]? = some (some svc) ∧ P.checkSig svc.data r svc.signature = true ∧
    P.unmarshalViewChange svc.data = some vc ∧ vc.view = nv.view ∧ vc.checkpoint = some cp ∧
    checkBatch P cfg cp false true = .ok hd

theorem checkVset_eq_ok {cfg : Config} {view : ℕ} {entries : List (ℕ × Option (Signed β))}
    {vcs : List (ViewChange β)} (h : checkVset P cfg view entries = .ok (.ok vcs)) :
    List.Forall₂ (fun e vc => ∃ svc cp hd, e.2 = some svc ∧
      P.checkSig svc.data e.1 svc.signature = true ∧ P.unmarshalViewChange svc.data = some vc ∧
      vc.view = view ∧ vc.checkpoint = some cp ∧ checkBatch P cfg cp false true = .ok hd)
      entries vcs := by
  induction entries generalizing vcs with
  | nil =>
    obtain rfl : [] = vcs := by simpa [checkVset] using h
    exact .nil
  | cons e _ ih =>
    obtain ⟨vcsrc, osvc⟩ := e
    simp only [checkVset, bind_eq_ok_iff, derefE_eq_ok] at h
    obtain ⟨svc, rfl, h⟩ := h
    cases hsig : checkSig P svc vcsrc with
    | error => simp [hsig] at h
    | ok =>
      simp only [hsig, bind_eq_ok_iff, derefE_eq_ok] at h
      obtain ⟨cp, hcp, h⟩ := h
      split_ifs at h with hview
      · cases h
      split at h
      · cases h
      · rename_i hd hcheck
        rw [bind_eq_ok_iff] at h
        obtain ⟨rest, hrest, h⟩ := h
        cases rest with
        | error => cases h
        | ok =>
          cases h
          obtain ⟨hsigned, hdec⟩ := checkSig_eq_ok hsig
          exact .cons ⟨svc, cp, hd, rfl, hsigned, hdec, not_not.mp hview, hcp, hcheck⟩ (ih hrest)

/-! ### The two conditions on view changes -/

theorem allM_eq_ok_true {p : α → Except ε Bool} {l : List α}
    (h : l.allM p = .ok true) : ∀ a ∈ l, p a = .ok true := by
  induction l with
  | nil => simp
  | cons _ _ ih =>
    simp only [List.allM, bind_eq_ok_iff] at h
    obtain ⟨b, hb, h⟩ := h
    cases b with
    | false => cases h
    | true => exact List.forall_mem_cons.mpr ⟨hb, ih h⟩

theorem anyM_eq_ok_true {p : α → Except ε Bool} {l : List α}
    (h : l.anyM p = .ok true) : ∃ a ∈ l, p a = .ok true := by
  induction l with
  | nil => cases h
  | cons a _ ih =>
    simp only [List.anyM, bind_eq_ok_iff] at h
    obtain ⟨b, hb, h⟩ := h
    cases b with
    | true => exact ⟨a, List.mem_cons_self, hb⟩
    | false =>
      obtain ⟨a', ha', hp⟩ := ih h
      exact ⟨a', List.mem_cons_of_mem a ha', hp⟩

theorem conditionA1_eq_true (h : conditionA1 P sv d vc = .ok true) :
    (∃ cp, vc.checkpoint = some cp ∧ seqOf P cp ≤ sv.seq) ∧ ∀ t ∈ vc.pset, ∃ sv', t.seq = some sv' ∧
        (sv'.seq ≠ sv.seq ∨ sv'.view < sv.view ∨ sv'.view = sv.view ∧ t.digest = d) := by
  simp only [conditionA1, bind_eq_ok_iff, derefE_eq_ok] at h
  obtain ⟨cp, hcp, hd, hhd, h⟩ := h
  split_ifs at h with hlow
  · cases h
  refine ⟨⟨cp, hcp, ?_⟩, fun t ht => ?_⟩
  · rw [(decodeHeader_eq_ok P hhd).2]
    omega
  · have htrue := allM_eq_ok_true h t ht
    simp only [bind_eq_ok_iff, derefE_eq_ok] at htrue
    obtain ⟨sv', hsv', htrue⟩ := htrue
    exact ⟨sv', hsv', by simpa using htrue⟩

theorem conditionA2_eq_true (h : conditionA2 sv d vc = .ok true) :
    ∃ t ∈ vc.qset, ∃ sv', t.seq = some sv' ∧ sv'.seq = sv.seq ∧ sv.view ≤ sv'.view ∧
      t.digest = d := by
  obtain ⟨t, ht, htrue⟩ := anyM_eq_ok_true h
  simp only [bind_eq_ok_iff, derefE_eq_ok] at htrue
  obtain ⟨sv', hsv', htrue⟩ := htrue
  exact ⟨t, ht, sv', hsv', by simpa using htrue⟩

/-! ### The view changes behind a justified new view -/

namespace NewView.Justified

variable {cfg : Config} {nv : NewView β} {x : Option (Subject β)} {best : Batch β}

/-- The view changes that were checked and the selection made from them: every entry is among them,
and as many replicas stand behind those with a property as there are such view changes. -/
theorem exists_selection (h : nv.Justified P cfg x best) : ∃ vcs view,
    makeXset P cfg view vcs = .ok (some (x, best)) ∧
      (∀ r svc, nv.vset[r]? = some svc → ∃ vc ∈ vcs, nv.Carries P cfg r vc) ∧
      ∀ p : ViewChange β → Bool, ∃ S : Finset ℕ, S.card = vcs.countP p ∧
        ∀ r ∈ S, ∃ vc, nv.Carries P cfg r vc ∧ p vc = true := by
  obtain ⟨entries, vcs, view, hperm, hcheck, hmake⟩ := h
  have hmem : ∀ e, e ∈ entries ↔ nv.vset[e.1]? = some e.2 := fun e => by
    rw [hperm.mem_iff]
    exact Std.ExtTreeMap.mem_toList_iff_getElem?_eq_some
  have hcarries : List.Forall₂ (fun e vc => nv.vset[e.1]? = some e.2 → nv.Carries P cfg e.1 vc)
      entries vcs := by
    refine (checkVset_eq_ok hcheck).imp ?_
    rintro ⟨r, osvc⟩ vc ⟨svc, cp, hd, rfl, hrest⟩ hr
    exact ⟨svc, cp, hd, hr, hrest⟩
  have hnodup : (entries.map Prod.fst).Nodup := by
    rw [(hperm.map Prod.fst).nodup_iff, Std.ExtTreeMap.map_fst_toList_eq_keys]
    exact Std.ExtTreeMap.nodup_keys
  refine ⟨vcs, view, hmake, fun r svc hr => ?_, fun p => ?_⟩
  · obtain ⟨vc, hvc, hR⟩ := exists_right_of_forall₂ hcarries ((hmem (r, svc)).mpr hr)
    exact ⟨vc, hvc, hR hr⟩
  · obtain ⟨S, hcard, hS⟩ := exists_keys_of_countP hcarries hnodup p
    refine ⟨S, hcard, fun r hr => ?_⟩
    obtain ⟨e, vc, he, hR, hp⟩ := hS r hr
    exact ⟨vc, hR ((hmem _).mp he), hp⟩

theorem exists_best (h : nv.Justified P cfg x best) :
    ∃ r vc, nv.Carries P cfg r vc ∧ vc.checkpoint = some best := by
  obtain ⟨vcs, view, hmake, -, hcount⟩ := h.exists_selection
  obtain ⟨vc, hvc, hbest⟩ := (makeXset_best hmake).1
  obtain ⟨S, hcard, hS⟩ := hcount fun vc => vc.checkpoint = some best
  have hpos : 0 < S.card := by
    rw [hcard, List.countP_pos_iff]
    exact ⟨vc, hvc, by simpa using hbest⟩
  obtain ⟨r, hr⟩ := Finset.card_pos.mp hpos
  obtain ⟨vc', hvc', hbest'⟩ := hS r hr
  exact ⟨r, vc', hvc', by simpa using hbest'⟩

/-- Every entry holds a view change whose checkpoint is not after the selected one. -/
theorem exists_notAfter (h : nv.Justified P cfg x best) {r : ℕ} {svc : Option (Signed β)}
    (hr : nv.vset[r]? = some svc) : ∃ vc, nv.Carries P cfg r vc ∧ vc.NotAfter P best := by
  obtain ⟨vcs, view, hmake, hall, -⟩ := h.exists_selection
  obtain ⟨vc, hvc, hcarries⟩ := hall r svc hr
  exact ⟨vc, hcarries, (makeXset_best hmake).2 vc hvc⟩

/-- A new view with the null request: a quorum has nothing prepared after the
checkpoint. -/
theorem null_spec (h : nv.Justified P cfg none best) :
    ∃ S : Finset ℕ, cfg.noFaultyQuorum ≤ S.card ∧ ∀ r ∈ S, ∃ vc, nv.Carries P cfg r vc ∧
      vc.NothingFrom (uint64 (seqOf P best + 1)) := by
  classical
  obtain ⟨vcs, view, hmake, -, hcount⟩ := h.exists_selection
  obtain ⟨S, hcard, hS⟩ := hcount fun vc => vc.NothingFrom (uint64 (seqOf P best + 1))
  refine ⟨S, ?_, fun r hr => ?_⟩
  · convert makeXset_null hmake
  · obtain ⟨vc, hvc, hp⟩ := hS r hr
    exact ⟨vc, hvc, by simpa using hp⟩

/-- A quorum has nothing prepared that conflicts with the request, and a correct replica preprepared
it. -/
theorem some_spec {sub : Subject β} (h : nv.Justified P cfg (some sub) best) :
    ∃ sv, uint64 (seqOf P best + 1) ≤ sv.seq ∧
      (∃ S : Finset ℕ, cfg.noFaultyQuorum ≤ S.card ∧ ∀ r ∈ S, ∃ vc, nv.Carries P cfg r vc ∧
        conditionA1 P sv sub.digest vc = .ok true) ∧
      ∃ S : Finset ℕ, cfg.oneCorrectQuorum ≤ S.card ∧ ∀ r ∈ S, ∃ vc, nv.Carries P cfg r vc ∧
        conditionA2 sv sub.digest vc = .ok true := by
  obtain ⟨vcs, view, hmake, -, hcount⟩ := h.exists_selection
  obtain ⟨-, m, hm, t, ht, sv, hdigest, hsup⟩ := makeXset_some hmake
  rw [← hdigest]
  obtain ⟨S, hcard, hS⟩ := hcount fun vc => conditionA1 P sv t.digest vc = .ok true
  obtain ⟨S', hcard', hS'⟩ := hcount fun vc => conditionA2 sv t.digest vc = .ok true
  refine ⟨sv, hsup.ahead, ⟨S, hcard ▸ hsup.a1, fun r hr => ?_⟩, S', hcard' ▸ hsup.a2,
    fun r hr => ?_⟩
  · obtain ⟨vc, hvc, hp⟩ := hS r hr
    exact ⟨vc, hvc, by simpa using hp⟩
  · obtain ⟨vc, hvc, hp⟩ := hS' r hr
    exact ⟨vc, hvc, by simpa using hp⟩

end NewView.Justified

end Fabric.Sbft
