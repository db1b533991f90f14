import Fabric.Sbft.Position
import Fabric.Sbft.Symbolic

/-!
# Preprepares that are accepted too early

A replica that waits for a view to begin queues what it receives, but a preprepare only
while a request is in flight. It may hence accept a preprepare of the view before that
has begun, drop the request when it begins, and accept another one at the same position.
-/

namespace Fabric.Sbft

open Fabric.Common

variable {β : Type} {P : Primitives β}

/-- Preprepares are accepted only in an active view, and nothing overflows. -/
def AcceptsWhenActive (P : Primitives β) (e : Event β) (t : List (Event β)) : Prop :=
  (∀ a ∈ e.accepts?, a.2.activeView = true) ∧ InRange P e t

instance (e : Event β) (t : List (Event β)) : Decidable (AcceptsWhenActive P e t) :=
  inferInstanceAs (Decidable ((∀ a ∈ e.accepts?, _) ∧ _))

/-- Two prepares that a correct replica sent for one position have the same digest. -/
def PreparesAgree (B : Finset ℕ) (sys : System β) : Prop :=
  ∀ e ∈ sys.histories B, ∀ p ∈ prepared e.2, ∀ q ∈ prepared e.2, p.seq = q.seq → p.digest = q.digest

instance [DecidableEq β] (B : Finset ℕ) (sys : System β) : Decidable (PreparesAgree B sys) :=
  inferInstanceAs (Decidable (∀ e ∈ sys.histories B, ∀ p ∈ prepared e.2, ∀ q ∈ prepared e.2, _))

variable [DecidableEq β] {cfg : Config} {c c' : Core β}

/-- A new view for view `v` arrived, by itself or in a hello, and passes the checks. -/
def Validated (P : Primitives β) (cfg : Config) (t : List (Event β)) (v : ℕ) : Prop :=
  ∃ nv x best m src, nv.view = v ∧ nv.Justified P cfg x best ∧ .recv m src ∈ t ∧
    m.newView? = some nv

/-- A preprepare of a view after the first is accepted after a new view was validated. -/
def AcceptsValidated (P : Primitives β) (cfg : Config) (e : Event β) (t : List (Event β)) : Prop :=
  ∀ pp, e = .persist (.preprepare pp) → ∀ sv, pp.seq = some sv → 0 < sv.view →
    Validated P cfg t sv.view

/-- Correct replicas prepare one digest at a position, and accept a preprepare only in a
view that they validated. -/
def NoEquivocation (P : Primitives β) (cfg : Config) (B : Finset ℕ) (sys : System β) : Prop :=
  PreparesAgree B sys ∧ ∀ e ∈ sys.histories B, Always (AcceptsValidated P cfg) e.2

/-! ### Validated views -/

theorem Validated.extend {t t' : List (Event β)} {v : ℕ} (h : Validated P cfg t v)
    (ht : t <:+ t') : Validated P cfg t' v := by
  obtain ⟨nv, x, best, m, src, hview, hjust, hrecv, hm⟩ := h
  exact ⟨nv, x, best, m, src, hview, hjust, ht.subset hrecv, hm⟩

/-- An active view after the first was validated. -/
def Core.Validated (P : Primitives β) (c : Core β) : Prop :=
  c.activeView = true → 0 < c.view → Sbft.Validated P c.config c.trace c.view

theorem Step.validated (h : Step P c c') (hold : c.Validated P) : c'.Validated P := by
  have htrace := h.frame.2.2
  have hkeep : c'.config = c.config → c'.view = c.view → c'.activeView = c.activeView →
      c'.Validated P := by
    intro hcfg hview hactive hactive' hpos
    rw [hcfg, hview]
    rw [hactive] at hactive'
    rw [hview] at hpos
    exact (hold hactive' hpos).extend htrace
  -- entering a view validates it
  have henter : ∀ nv x best, nv.view = c.view → .recv (.newView nv) c.primaryID ∈ c.trace →
      nv.Justified P c.config x best → c'.config = c.config → c'.view = c.view →
      c'.Validated P := by
    intro nv x best hview hrecv hjust hcfg hview' _ _
    rw [hcfg, hview', ← hview]
    exact ⟨nv, x, best, _, _, rfl, hjust, htrace.subset hrecv, rfl⟩
  cases h
  case accept haccepts =>
    cases haccepts with
    | propose | preprepare => exact hkeep rfl rfl rfl
    | newView nv x best _ _ hview hrecv _ hjust =>
      exact henter nv x best hview hrecv hjust rfl rfl
  case newViewNull nv x best _ hview hrecv _ hjust _ =>
    exact henter nv x best hview hrecv hjust rfl rfl
  case helloNewView h src _ _ nv x best hrecv _ _ hnv _ hjust =>
    rcases le_or_gt c.view nv.view with hle | hlt
    · intro _ _
      refine ⟨nv, x, best, .hello h, src, ?_, hjust, htrace.subset hrecv, hnv⟩
      simp [hle]
    · refine hkeep rfl ?_ ?_
      · simp [hlt.le]
      · simp [hlt.not_ge]
  case jump => exact fun hactive => by simp at hactive
  case sendViewChange => exact fun hactive => by simp at hactive
  all_goals exact hkeep rfl rfl rfl

theorem Accepts.validated {c₀ : Core β} {pp : Preprepare β} {sv : SeqView} {b : Batch β}
    (h : Accepts P c c₀ pp sv b) (hc : c.Validated P) (hactive : c₀.activeView = true)
    (hpos : 0 < sv.view) : Validated P c.config c.trace sv.view := by
  cases h with
  | propose | preprepare => exact hc hactive hpos
  | newView nv x best _ _ hnv hrecv _ hjust =>
    exact ⟨nv, x, best, _, _, hnv, hjust, hrecv, rfl⟩

/-! ### No equivocation -/

section Alone

variable {id : ℕ} {r : Prop}

theorem Alone.acceptedAt_of_prepared (h : Alone P cfg id r c) (hr : ¬ r) {sub : Subject β}
    (hsub : sub ∈ prepared c.trace) :
    ∃ sv d, sub = ⟨some sv, some d⟩ ∧ AcceptedAt P c.trace sv d := by
  obtain ⟨dest, hdest⟩ := mem_prepared.mp hsub
  obtain ⟨c₁, c₂, hc₁, hstep, hnew, hruns⟩ := h.exists_step hr hdest (by simp) (by simp)
  cases hstep.prepare_sent hnew with
  | accept _ pp sv b _ haccepts hc₂ _ hsub =>
    refine ⟨sv, b.hash P, hsub, pp, b, hruns.suffix.subset ?_, haccepts.seq_eq,
      haccepts.batch_eq, rfl⟩
    rw [hc₂]
    simp
  | resend _ _ hahead hsub =>
    obtain ⟨d, hd, haccepted⟩ :=
      hc₁.sound.acceptedAt (.inl (Nat.ne_of_gt (Nat.zero_lt_of_lt hahead.1)))
    refine ⟨c₁.cur.seq, d, by rw [hsub, ReqInfo.subject, hd], haccepted.extend ?_⟩
    exact hstep.frame.2.2.trans hruns.suffix

theorem Alone.validated (h : Alone P cfg id r c) (hr : ¬ r) : c.Validated P := by
  induction h with
  | start _ hc =>
    obtain ⟨active, rfl⟩ := hc.of_nil
    exact fun _ hpos => absurd hpos (lt_irrefl _)
  | receive _ _ _ _ ih =>
    exact fun hactive hpos => (ih hactive hpos).extend (List.suffix_cons _ _)
  | act _ _ _ hstep ih => exact hstep.validated ih
  | restart _ _ _ _ hrst => exact absurd hrst hr

omit [DecidableEq β] in
theorem AcceptsWhenActive.active {c₀ : Core β} {pp : Preprepare β} {sv : SeqView} {b : Batch β}
    {timeout : ℕ} {t : List (Event β)} (hφ : Always (AcceptsWhenActive P) t)
    (ht : (c₀.accept P pp sv b timeout).trace <:+ t) : c₀.activeView = true := by
  have hcall : AcceptsWhenActive P (.call (.handleCheckedPreprepare pp) c₀.status) c₀.trace :=
    (hφ.suffix ht).at (by simp)
  exact hcall.1 _ rfl

theorem Alone.acceptsValidated (h : Alone P cfg id r c) (hr : ¬ r)
    (hφ : Always (AcceptsWhenActive P) c.trace) : Always (AcceptsValidated P cfg) c.trace := by
  refine h.induction (I := fun c => Always (AcceptsValidated P cfg) c.trace) hr hφ ?_ ?_ ?_
  · intro c hc _
    obtain ⟨active, rfl⟩ := hc.of_nil
    simp [AcceptsValidated]
  · intro c m src _ hc
    exact ⟨by simp [AcceptsValidated], hc⟩
  · intro c c' hc hφ hI hstep
    refine hI.extend hstep.frame.2.2 fun e t hnew ht _ pp he sv hsv hpos => ?_
    subst he
    obtain ⟨c₀, sv', b, timeout, haccepts, rfl⟩ := hstep.persisted hnew
    obtain rfl : sv' = sv := by simpa [haccepts.seq_eq] using hsv
    have hactive := AcceptsWhenActive.active hφ (List.suffix_refl _)
    obtain ⟨rfl, -⟩ := hc.frame
    exact (haccepts.validated (hc.validated hr) hactive hpos).extend ht

end Alone

/-- A correct replica does not equivocate, without restarts and with at most `F` Byzantine replicas,
if preprepares are accepted only in a view that has begun. -/
theorem noEquivocation_of_acceptsWhenActive {B : Finset ℕ} {ls : List (Label β)}
    {sys : System β} (hB : B.card ≤ cfg.F) (hrestart : ∀ l ∈ ls, ¬ l.Restarts)
    (hrun : System.run P B (System.init P cfg) ls = some sys)
    (hφ : ∀ e ∈ sys.histories B, Always (AcceptsWhenActive P) e.2) :
    NoEquivocation P cfg B sys := by
  obtain ⟨g, hg, hhist⟩ := run_refines hrun
  have hR := not_restarted hrestart
  refine ⟨?_, ?_⟩
  · rintro ⟨i, t⟩ hit p hp q hq hseq
    obtain ⟨hi, hiB, rfl⟩ := (hhist i t).mp hit
    have halone := hg.alone i hi
    obtain ⟨sv, d, rfl, hd⟩ := halone.acceptedAt_of_prepared (hR i) hp
    obtain ⟨sv', d', rfl, hd'⟩ := halone.acceptedAt_of_prepared (hR i) hq
    obtain rfl : sv = sv' := by simpa using hseq
    have hrange := (hφ _ hit).mono fun _ _ _ h => h.2
    have honce := (halone.accepted_once (hR i) hrange
      (hg.timely hR hB hi hiB)
      fun c₁ c₀ pp b timeout _ _ hs => AcceptsWhenActive.active (hφ _ hit) hs).2 d d' hd hd'
    rw [honce]
  · rintro ⟨i, t⟩ hit
    obtain ⟨hi, -, rfl⟩ := (hhist i t).mp hit
    exact (hg.alone i hi).acceptsValidated (hR i) (hφ _ hit)

/-- Replica 2 gives up on view 0 and receives a preprepare for view 1 before that has begun. -/
def earlyRun (early : Bool) : List (Label Term) :=
  let pp (n : ℕ) : Msg Term := .preprepare ⟨some ⟨1, 1⟩, some (firstBatch n)⟩
  let junk : Msg Term := .newView ⟨1, ∅, none, none⟩
  let svc (r : ℕ) := some (signedBy r ⟨1, [⟨some ⟨0, 0⟩, none⟩], [], some (genesis symbolic)⟩)
  let nv : NewView Term :=
    ⟨1, Std.ExtTreeMap.ofList [(1, svc 1), (2, svc 2), (3, svc 3)], none, none⟩
  [.of 2 (.inject 1 junk), .of 3 (.inject 1 junk)] ++
    (if early then [.of 2 (.inject 1 (pp 7))] else []) ++
    [.of 2 (.inject 1 (.newView nv)), .of 2 (.inject 1 (pp 8))]

theorem noEquivocation_earlyRun : ∃ sys,
    System.run symbolic {1} (System.init symbolic fourReplicas) (earlyRun false) = some sys ∧
      (∃ e ∈ sys.histories {1}, prepared e.2 ≠ []) ∧
      NoEquivocation symbolic fourReplicas {1} sys := by
  refine System.exists_of_always {1} (AcceptsWhenActive symbolic) (by decide +kernel) ?_
  exact fun sys hrun hφ => noEquivocation_of_acceptsWhenActive (by decide) (by decide) hrun hφ

/-- Replica 2 prepares two digests at the same position. -/
theorem not_noEquivocation_earlyRun : ∃ sys,
    System.run symbolic {1} (System.init symbolic fourReplicas) (earlyRun true) = some sys ∧
      ¬ NoEquivocation symbolic fourReplicas {1} sys := by
  refine exists_of_checked (fun sys : System Term => ¬ PreparesAgree {1} sys) (by decide +kernel) ?_
  exact fun sys _ hne h => hne h.1

end Fabric.Sbft
