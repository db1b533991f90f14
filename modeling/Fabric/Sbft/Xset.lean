import Fabric.Common.Program
import Fabric.Sbft.State

/-!
# Selecting the request of a new view

The selection rule of `xset.go`, which the new primary applies to the view changes
it collected and every other replica repeats.
-/

namespace Fabric.Sbft

open Fabric.Common List

variable {β : Type} [DecidableEq β] (P : Primitives β)

/-- Follow a pointer in code without state. -/
def derefE {α : Type} : Option α → Except Panic α
  | some a => .ok a
  | none => .error .nilDereference

/-- Decode the header of a batch, or panic. -/
def decodeHeader (b : Batch β) : Except Panic (BatchHeader β) :=
  match P.unmarshalHeader b.header with
  | some h => .ok h
  | none => .error .decodeHeader

omit [DecidableEq β] in
theorem decodeHeader_eq_ok {b : Batch β} {hd : BatchHeader β} (h : decodeHeader P b = .ok hd) :
    P.unmarshalHeader b.header = some hd ∧ seqOf P b = hd.seq := by
  unfold decodeHeader at h
  split at h
  · rename_i hd' hdec
    cases h
    exact ⟨hdec, by simp [seqOf, hdec]⟩
  · cases h

/-- The first of the most recent checkpoints. -/
def bestCheckpoint : List (ViewChange β) → Option (Batch β) → Except Panic (Option (Batch β))
  | [], best => .ok best
  | vc :: vcs, best => do
    let cp ← derefE vc.checkpoint
    let hd ← decodeHeader P cp
    match best with
    | none => bestCheckpoint vcs (some cp)
    | some b => do
      let bhd ← decodeHeader P b
      bestCheckpoint vcs (some (if bhd.seq < hd.seq then cp else b))

/-- Count the elements that satisfy a check which may panic. -/
def countM {α : Type} (p : α → Except Panic Bool) : List α → Except Panic ℕ
  | [] => .ok 0
  | a :: l => do
    let b ← p a
    let n ← countM p l
    .ok (if b then n + 1 else n)

/-- Condition A1 on `(sv, d)`: a low watermark not above the tuple, and prepared tuples for the same
number from earlier views, or from the same view with the same digest. -/
def conditionA1 (sv : SeqView) (d : Option β) (mp : ViewChange β) : Except Panic Bool := do
  let cp ← derefE mp.checkpoint
  let hd ← decodeHeader P cp
  if sv.seq < hd.seq then .ok false
  else mp.pset.allM fun t => do
    let sv' ← derefE t.seq
    .ok (decide (sv'.seq ≠ sv.seq ∨ sv'.view < sv.view ∨ (sv'.view = sv.view ∧ t.digest = d)))

/-- Condition A2 on `(sv, d)`: the digest was preprepared there in this view or a later one. -/
def conditionA2 (sv : SeqView) (d : Option β) (mp : ViewChange β) : Except Panic Bool :=
  mp.qset.anyM fun t => do
    let sv' ← derefE t.seq
    .ok (decide (sv'.seq = sv.seq ∧ sv.view ≤ sv'.view ∧ t.digest = d))

/-- The digest of the first prepared tuple for `next` or later that meets both conditions, and
whether there was no such tuple to try. -/
def scanPset (cfg : Config) (next : ℕ) (vcs : List (ViewChange β)) :
    List (Subject β) → Bool → Except Panic (Option (Option β) × Bool)
  | [], notfound => .ok (none, notfound)
  | t :: ts, notfound => do
    let sv ← derefE t.seq
    if sv.seq < next then scanPset cfg next vcs ts notfound
    else do
      let a1 ← countM (conditionA1 P sv t.digest) vcs
      if a1 < cfg.noFaultyQuorum then scanPset cfg next vcs ts false
      else do
        let a2 ← countM (conditionA2 sv t.digest) vcs
        if a2 < cfg.oneCorrectQuorum then scanPset cfg next vcs ts false
        else .ok (some t.digest, false)

/-- Scan all view changes until one yields a digest, counting those without a tuple to try. -/
def scanViewChanges (cfg : Config) (next : ℕ) (vcs : List (ViewChange β)) :
    List (ViewChange β) → ℕ → Except Panic (Option (Option β) × ℕ)
  | [], emptycount => .ok (none, emptycount)
  | m :: ms, emptycount => do
    let (d, notfound) ← scanPset P cfg next vcs m.pset true
    match d with
    | some d => .ok (some d, emptycount)
    | none => scanViewChanges cfg next vcs ms (if notfound then emptycount + 1 else emptycount)

/-- The subject to propose (`none` for the null request) with the most recent checkpoint; no result
if the view changes do not suffice. Its view is that of the replica that evaluates the rule. -/
def makeXset (cfg : Config) (view : ℕ) (vcs : List (ViewChange β)) :
    Except Panic (Option (Option (Subject β) × Batch β)) := do
  let best ← bestCheckpoint P vcs none
  match best with
  | none => .ok none
  | some best => do
    let hd ← decodeHeader P best
    let next := uint64 (hd.seq + 1)
    let (d, emptycount) ← scanViewChanges P cfg next vcs vcs 0
    if cfg.noFaultyQuorum ≤ emptycount then .ok (some (none, best))
    else match d with
      | none => .ok none
      | some d => .ok (some (some ⟨some ⟨view, next⟩, d⟩, best))

/-! ### What the selection rule guarantees -/

section Spec

variable {P} {cfg : Config} {next view : ℕ} {vcs ms : List (ViewChange β)} {best : Batch β}
  {x : Option (Subject β)}

theorem derefE_eq_ok {α : Type} {o : Option α} {a : α} : derefE o = .ok a ↔ o = some a := by
  cases o <;> simp [derefE]

/-- A view change whose checkpoint decodes to one that is not after `best`. -/
def ViewChange.NotAfter (P : Primitives β) (best : Batch β) (vc : ViewChange β) : Prop :=
  ∃ cp, vc.checkpoint = some cp ∧ seqOf P cp ≤ seqOf P best

/-- A view change without prepared tuple for `next` or later. -/
def ViewChange.NothingFrom (next : ℕ) (vc : ViewChange β) : Prop :=
  ∀ t ∈ vc.pset, ∃ sv, t.seq = some sv ∧ sv.seq < next

omit [DecidableEq β] in
theorem bestCheckpoint_some {first : Option (Batch β)}
    (h : bestCheckpoint P vcs first = .ok (some best)) :
    (first = some best ∨ ∃ vc ∈ vcs, vc.checkpoint = some best) ∧
      (∀ b, first = some b → seqOf P b ≤ seqOf P best) ∧
      ∀ vc ∈ vcs, vc.NotAfter P best := by
  induction vcs generalizing first with
  | nil =>
    obtain rfl : first = some best := by simpa [bestCheckpoint] using h
    simp
  | cons vc _ ih =>
    simp only [bestCheckpoint, bind_eq_ok_iff, derefE_eq_ok] at h
    obtain ⟨cp, hcp, hd, hhd, h⟩ := h
    have hseq := (decodeHeader_eq_ok P hhd).2
    cases first with
    | none =>
      obtain ⟨hfrom, hfirst, hall⟩ := ih h
      refine ⟨.inr ?_, by simp, forall_mem_cons.mpr ⟨⟨cp, hcp, hfirst cp rfl⟩, hall⟩⟩
      rcases hfrom with heq | ⟨vc', hvc', heq⟩
      · exact ⟨vc, mem_cons_self, by rw [hcp]; exact heq⟩
      · exact ⟨vc', mem_cons_of_mem vc hvc', heq⟩
    | some b =>
      simp only [bind_eq_ok_iff] at h
      obtain ⟨bhd, hbhd, h⟩ := h
      have hbseq := (decodeHeader_eq_ok P hbhd).2
      obtain ⟨hfrom, hfirst, hall⟩ := ih h
      -- the later of the two is kept
      have hle := hfirst _ rfl
      refine ⟨?_, fun b' hb' => ?_, forall_mem_cons.mpr ⟨⟨cp, hcp, ?_⟩, hall⟩⟩
      · rcases hfrom with heq | ⟨vc', hvc', heq⟩
        · split_ifs at heq with hlt
          · exact .inr ⟨vc, mem_cons_self, by rw [hcp]; exact heq⟩
          · exact .inl heq
        · exact .inr ⟨vc', mem_cons_of_mem vc hvc', heq⟩
      · obtain rfl : b = b' := by simpa using hb'
        split_ifs at hle <;> omega
      · split_ifs at hle <;> omega

theorem countM_eq_ok {α : Type} {p : α → Except Panic Bool} {l : List α} {n : ℕ}
    (h : countM p l = .ok n) : n = l.countP fun a => p a = .ok true := by
  induction l generalizing n with
  | nil =>
    obtain rfl : 0 = n := by simpa [countM] using h
    rfl
  | cons =>
    simp only [countM, bind_eq_ok_iff] at h
    obtain ⟨b, hb, m, hm, h⟩ := h
    cases b <;> simp_all

/-- A prepared tuple for `next` or later that enough view changes support. -/
structure Supports (P : Primitives β) (cfg : Config) (next : ℕ) (vcs : List (ViewChange β))
    (t : Subject β) (sv : SeqView) : Prop where
  seq : t.seq = some sv
  ahead : next ≤ sv.seq
  a1 : cfg.noFaultyQuorum ≤ vcs.countP fun vc => conditionA1 P sv t.digest vc = .ok true
  a2 : cfg.oneCorrectQuorum ≤ vcs.countP fun vc => conditionA2 sv t.digest vc = .ok true

theorem scanPset_eq_ok {ts : List (Subject β)} {notfound notfound' : Bool}
    {d : Option (Option β)} (h : scanPset P cfg next vcs ts notfound = .ok (d, notfound')) :
    (∀ d', d = some d' → ∃ t ∈ ts, ∃ sv, t.digest = d' ∧ Supports P cfg next vcs t sv) ∧
      (notfound' = true → notfound = true ∧ ∀ t ∈ ts, ∃ sv, t.seq = some sv ∧ sv.seq < next) := by
  induction ts generalizing notfound with
  | nil =>
    obtain ⟨rfl, rfl⟩ := h
    simp
  | cons t ts ih =>
    -- a tuple that is passed over leaves the outcome to the rest
    have hskip : ∀ nf, scanPset P cfg next vcs ts nf = .ok (d, notfound') →
        ∀ d', d = some d' → ∃ t' ∈ t :: ts, ∃ sv, t'.digest = d' ∧
          Supports P cfg next vcs t' sv := by
      intro nf h d' hd'
      obtain ⟨t', ht', hsup⟩ := (ih h).1 d' hd'
      exact ⟨t', mem_cons_of_mem t ht', hsup⟩
    simp only [scanPset, bind_eq_ok_iff, derefE_eq_ok] at h
    obtain ⟨sv, hsv, h⟩ := h
    split_ifs at h with hlow
    · refine ⟨hskip _ h, fun hnf => ?_⟩
      obtain ⟨hnf', hall⟩ := (ih h).2 hnf
      exact ⟨hnf', forall_mem_cons.mpr ⟨⟨sv, hsv, hlow⟩, hall⟩⟩
    · simp only [bind_eq_ok_iff] at h
      obtain ⟨a1, ha1, h⟩ := h
      split_ifs at h with hfew
      · exact ⟨hskip _ h, fun hnf => absurd ((ih h).2 hnf).1 Bool.false_ne_true⟩
      · simp only [bind_eq_ok_iff] at h
        obtain ⟨a2, ha2, h⟩ := h
        split_ifs at h with hfew'
        · exact ⟨hskip _ h, fun hnf => absurd ((ih h).2 hnf).1 Bool.false_ne_true⟩
        · obtain ⟨rfl, rfl⟩ := h
          refine ⟨fun d' hd' => ⟨t, mem_cons_self, sv, by simpa using hd', ?_⟩, by simp⟩
          exact ⟨hsv, by omega, by rw [← countM_eq_ok ha1]; omega,
            by rw [← countM_eq_ok ha2]; omega⟩

open scoped Classical in
theorem scanViewChanges_eq_ok {count n : ℕ} {d : Option (Option β)}
    (h : scanViewChanges P cfg next vcs ms count = .ok (d, n)) :
    (∀ d', d = some d' → ∃ m ∈ ms, ∃ t ∈ m.pset, ∃ sv, t.digest = d' ∧
      Supports P cfg next vcs t sv) ∧ n ≤ count + ms.countP fun m => m.NothingFrom next := by
  induction ms generalizing count with
  | nil =>
    obtain ⟨rfl, rfl⟩ := h
    simp
  | cons m _ ih =>
    simp only [scanViewChanges, bind_eq_ok_iff] at h
    obtain ⟨⟨d₁, notfound⟩, hscan, h⟩ := h
    obtain ⟨hsome, hnothing⟩ := scanPset_eq_ok hscan
    cases d₁ with
    | some =>
      obtain ⟨rfl, rfl⟩ := h
      refine ⟨fun d' hd' => ⟨m, mem_cons_self, hsome d' hd'⟩, by omega⟩
    | none =>
      obtain ⟨hd, hn⟩ := ih h
      refine ⟨fun d' hd' => ?_, ?_⟩
      · obtain ⟨m', hm', ht⟩ := hd d' hd'
        exact ⟨m', mem_cons_of_mem m hm', ht⟩
      · rw [countP_cons]
        cases notfound with
        | false =>
          simp only [Bool.false_eq_true, if_false] at hn
          omega
        | true =>
          have hm : m.NothingFrom next := (hnothing rfl).2
          simp only [hm, decide_true, if_true] at hn ⊢
          omega

theorem makeXset_eq_ok (h : makeXset P cfg view vcs = .ok (some (x, best))) :
    bestCheckpoint P vcs none = .ok (some best) ∧
      ∃ d n, scanViewChanges P cfg (uint64 (seqOf P best + 1)) vcs vcs 0 = .ok (d, n) ∧
        (x = none ∧ cfg.noFaultyQuorum ≤ n ∨
          ∃ d', d = some d' ∧ x = some ⟨some ⟨view, uint64 (seqOf P best + 1)⟩, d'⟩) := by
  simp only [makeXset, bind_eq_ok_iff] at h
  obtain ⟨first, hfirst, h⟩ := h
  cases first with
  | none => simp at h
  | some =>
    simp only [bind_eq_ok_iff] at h
    obtain ⟨hd, hhd, ⟨d, n⟩, hscan, h⟩ := h
    have hseq := (decodeHeader_eq_ok P hhd).2
    rw [← hseq] at hscan h
    split_ifs at h with hcount
    · obtain ⟨rfl, rfl⟩ := h
      exact ⟨hfirst, d, n, hscan, .inl ⟨rfl, hcount⟩⟩
    · cases d with
      | none => simp at h
      | some d' =>
        obtain ⟨rfl, rfl⟩ := h
        exact ⟨hfirst, some d', n, hscan, .inr ⟨d', rfl, rfl⟩⟩

theorem makeXset_best (h : makeXset P cfg view vcs = .ok (some (x, best))) :
    (∃ vc ∈ vcs, vc.checkpoint = some best) ∧ ∀ vc ∈ vcs, vc.NotAfter P best := by
  obtain ⟨hfrom, -, hall⟩ := bestCheckpoint_some (makeXset_eq_ok h).1
  exact ⟨hfrom.resolve_left (by simp), hall⟩

open scoped Classical in
/-- The null request is selected only if enough view changes have nothing after the
checkpoint. -/
theorem makeXset_null (h : makeXset P cfg view vcs = .ok (some (none, best))) :
    cfg.noFaultyQuorum ≤ vcs.countP fun m => m.NothingFrom (uint64 (seqOf P best + 1)) := by
  obtain ⟨-, d, n, hscan, ⟨-, hn⟩ | ⟨d', -, hx⟩⟩ := makeXset_eq_ok h
  · have := (scanViewChanges_eq_ok hscan).2
    omega
  · cases hx

theorem makeXset_some {x : Subject β} (h : makeXset P cfg view vcs = .ok (some (some x, best))) :
    x.seq = some ⟨view, uint64 (seqOf P best + 1)⟩ ∧
      ∃ m ∈ vcs, ∃ t ∈ m.pset, ∃ sv, t.digest = x.digest ∧
        Supports P cfg (uint64 (seqOf P best + 1)) vcs t sv := by
  obtain ⟨-, d, n, hscan, ⟨hx, -⟩ | ⟨d', hd', hx⟩⟩ := makeXset_eq_ok h
  · cases hx
  · cases hx
    exact ⟨rfl, (scanViewChanges_eq_ok hscan).1 d' hd'⟩

end Spec

end Fabric.Sbft
