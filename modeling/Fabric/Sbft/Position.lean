import Fabric.Sbft.Window

/-!
# Positions that a replica has passed

A replica never returns to an earlier view, and within a view it accepts preprepares
only for growing sequence numbers. A position at which it has bound itself to a digest,
by accepting a preprepare or sending a commit, is hence covered: the replica has left
it, or holds that very digest in flight.
-/

namespace Fabric.Sbft

open Fabric.Common Fabric.Sbft.Core

variable {β : Type} {P : Primitives β}

/-- Neither the sequence number of a preprepare nor a view overflows. -/
def InRange (P : Primitives β) (e : Event β) (t : List (Event β)) : Prop :=
  (∀ a ∈ e.accepts?, lastSeq P t + 1 < 2 ^ 64) ∧ ∀ st ∈ e.leavesView?, st.view + 1 < 2 ^ 64

instance (e : Event β) (t : List (Event β)) : Decidable (InRange P e t) :=
  inferInstanceAs (Decidable ((∀ a ∈ e.accepts?, _) ∧ ∀ st ∈ e.leavesView?, _))

/-- The replica has passed `sv`, or has `d` in flight there, perhaps dropped in a later view. -/
def Core.Covers (c : Core β) (sv : SeqView) (d : Option β) : Prop :=
  (sv.view < c.view ∨ sv.view = c.view ∧ c.activeView = true) ∧
  (sv.view < c.cur.seq.view ∨ sv.view = c.cur.seq.view ∧
      (sv.seq < c.cur.seq.seq ∨ sv.seq = c.cur.seq.seq ∧ d = c.cur.digest) ∨
    sv.view < c.view ∧ c.cur.seq.seq = 0)

theorem Core.Covers.digest_eq {c : Core β} {d : Option β} (h : c.Covers c.cur.seq d)
    (hkept : c.cur.seq.seq ≠ 0 ∨ c.cur.seq.view = c.view) : d = c.cur.digest := by
  rcases h.2 with hlt | ⟨-, hlt | ⟨-, hd⟩⟩ | ⟨hlt, hzero⟩
  · exact absurd hlt (lt_irrefl _)
  · exact absurd hlt (lt_irrefl _)
  · exact hd
  · rcases hkept with hne | heq
    · exact absurd hzero hne
    · omega

variable {c c' c₀ : Core β} {pp : Preprepare β} {sv : SeqView} {b : Batch β}
  {d : Option β}

/-- The position and digest of a preprepare that was accepted. -/
def AcceptedAt (P : Primitives β) (t : List (Event β)) (sv : SeqView) (d : β) : Prop :=
  ∃ pp b, .persist (.preprepare pp) ∈ t ∧ pp.seq = some sv ∧ pp.batch = some b ∧ b.hash P = d

theorem InRange.last_lt {timeout : ℕ}
    (hφ : Always (InRange P) (c₀.accept P pp sv b timeout).trace) : c₀.last P + 1 < 2 ^ 64 := by
  have hcall : InRange P (.call (.handleCheckedPreprepare pp) c₀.status) c₀.trace :=
    hφ.at (by simp)
  exact hcall.1 _ rfl

theorem AcceptedAt.extend {t t' : List (Event β)} {d : β} (h : AcceptedAt P t sv d)
    (ht : t <:+ t') : AcceptedAt P t' sv d := by
  obtain ⟨pp, b, hmem, hrest⟩ := h
  exact ⟨pp, b, ht.subset hmem, hrest⟩

theorem Core.Sound.preprep_seq (h : c.Sound P) (hpp : c.cur.preprep = some pp)
    (hkept : c.cur.seq.seq ≠ 0 ∨ c.cur.checkpointDone = false) : pp.seq = some c.cur.seq := by
  obtain ⟨-, sv, b, hsv, -, -, hview, hseq⟩ := h.cur.preprep pp hpp
  have hseq' := hseq.resolve_left fun hdrop => by
    simp [hdrop.1, hdrop.2] at hkept
  cases hcur : c.cur.seq
  cases sv
  simp_all

theorem Core.Sound.acceptedAt (h : c.Sound P)
    (hkept : c.cur.seq.seq ≠ 0 ∨ c.cur.checkpointDone = false) :
    ∃ d, c.cur.digest = some d ∧ AcceptedAt P c.trace c.cur.seq d := by
  cases hpp : c.cur.preprep with
  | none =>
    obtain ⟨hzero, hdone, -⟩ := h.cur.blank hpp
    simp [hzero, hdone] at hkept
  | some pp =>
    obtain ⟨hmem, sv, b, -, hb, hdigest, -⟩ := h.cur.preprep pp hpp
    exact ⟨b.hash P, hdigest, pp, b, hmem, h.preprep_seq hpp hkept, hb, rfl⟩

theorem Commits.activeView (h : Commits P c c') (hN : 3 * c.config.F + 1 ≤ c.config.N)
    (hid : c.id < c.config.N) : c.activeView = true := by
  cases h with
  | quorum _ _ _ _ hactive => exact hactive
  | small hquorum _ _ _ hready =>
    -- a group that small has one replica, which is the primary of every view
    have hone : c.config.N = 1 := by
      unfold Config.noFaultyQuorum at hquorum
      omega
    refine hready.resolve_right (not_not.mpr ?_)
    rw [primaryID, hone]
    omega
  | resend _ _ hahead => exact hahead.2

theorem Commits.covers (h : Commits P c c') (hview : c.cur.seq.view ≤ c.view)
    (hN : 3 * c.config.F + 1 ≤ c.config.N) (hid : c.id < c.config.N) :
    c.Covers c.cur.seq c.cur.digest := by
  have hactive := h.activeView hN hid
  exact ⟨hview.lt_or_eq.imp_right fun heq => ⟨heq, hactive⟩, .inr (.inl ⟨rfl, .inr ⟨rfl, rfl⟩⟩)⟩

variable [DecidableEq β]

/-! ### Accepting a preprepare -/

/-- A preprepare is accepted on entering a view, or for a sequence number after the one
in flight. -/
theorem Accepts.advances (h : Accepts P c c₀ pp sv b) (hc : c.Sound P) (hnear : c.Nearby P)
    (hrange : c₀.last P + 1 < 2 ^ 64) : c.activeView = false ∧ c₀.activeView = true ∨
      c₀.activeView = c.activeView ∧ c.cur.seq.seq < sv.seq := by
  cases h with
  | propose _ _ _ hdone =>
    rw [last_push (by simp +contextual [or_imp])] at hrange
    refine .inr ⟨rfl, ?_⟩
    simp only [next, uint64_of_lt hrange]
    exact Nat.lt_succ_of_le (hnear.done hdone)
  | preprepare _ _ _ _ _ _ _ hcur =>
    refine .inr ⟨rfl, lt_of_le_of_ne ?_ hcur⟩
    simp only [next, uint64_of_lt hrange]
    exact hnear.seq_le hc
  | newView _ _ _ _ hactive => exact .inl ⟨hactive, rfl⟩

theorem Accepts.not_covers (h : Accepts P c c₀ pp sv b) (hc : c.Sound P) (hnear : c.Nearby P)
    (hview : c.cur.seq.view ≤ c.view) (hrange : c₀.last P + 1 < 2 ^ 64) : ¬ c.Covers sv d := by
  rintro ⟨hleft, hpassed⟩
  have hsv := h.seq_view
  rcases h.advances hc hnear hrange with ⟨hactive, -⟩ | ⟨-, hlt⟩
  · rcases hleft with hlt | ⟨-, htrue⟩
    · omega
    · simp [hactive] at htrue
  · rcases hpassed with hlt' | ⟨-, hlt' | ⟨heq, -⟩⟩ | ⟨hlt', -⟩ <;> omega

theorem Accepts.covers (h : Accepts P c c₀ pp sv b) (hactive : c₀.activeView = true)
    (timeout : ℕ) : (c₀.accept P pp sv b timeout).Covers sv (some (b.hash P)) := by
  refine ⟨.inr ⟨?_, hactive⟩, .inr (.inl ⟨rfl, .inr ⟨rfl, rfl⟩⟩)⟩
  rw [accept_view, h.view_eq, h.seq_view]

theorem Accepts.covers_of_covers (h : Accepts P c c₀ pp sv b) (hc : c.Sound P)
    (hnear : c.Nearby P) (hview : c.cur.seq.view ≤ c.view) (hrange : c₀.last P + 1 < 2 ^ 64)
    (timeout : ℕ) {sv' : SeqView} (hold : c.Covers sv' d) :
    (c₀.accept P pp sv b timeout).Covers sv' d := by
  obtain ⟨hleft, hpassed⟩ := hold
  unfold Core.Covers
  simp only [accept_view, accept_activeView, accept_cur, accepted_seq, h.view_eq, h.seq_view]
  rcases h.advances hc hnear hrange with ⟨hactive, -⟩ | ⟨hactive, hlt⟩
  · -- the view is entered only now
    simp only [hactive, Bool.false_eq_true, and_false, or_false] at hleft
    exact ⟨.inl hleft, .inl hleft⟩
  · rw [hactive]
    refine ⟨hleft, ?_⟩
    rcases hpassed with hlt' | ⟨heq, hpos⟩ | ⟨hlt', -⟩
    · exact .inl (by omega)
    · rcases hview.lt_or_eq with hlt' | heq'
      · exact .inl (by omega)
      · exact .inr (.inl ⟨by omega, .inl (by omega)⟩)
    · exact .inl hlt'

/-! ### Steps -/

theorem InRange.view_le (h : Step P c c') (hφ : Always (InRange P) c'.trace) : c.view ≤ c'.view :=
  h.view_le fun st _ ht => (hφ.at ht).2 st rfl

theorem Step.cur_view_le (h : Step P c c') (hφ : Always (InRange P) c'.trace)
    (hold : c.cur.seq.view ≤ c.view) : c'.cur.seq.view ≤ c'.view := by
  have hview := InRange.view_le h hφ
  cases h
  case accept haccepts =>
    simp only [accept_cur, accepted_seq, accept_view, haccepts.view_eq, haccepts.seq_view]
    exact le_refl _
  all_goals exact hold.trans hview

theorem Step.covers (h : Step P c c') (hc : c.Sound P) (hnear : c.Nearby P)
    (hview : c.cur.seq.view ≤ c.view) (hφ : Always (InRange P) c'.trace)
    (hold : c.Covers sv d) : c'.Covers sv d := by
  have hgrow := InRange.view_le h hφ
  obtain ⟨hleft, hpassed⟩ := id hold
  cases h
  case accept timeout haccepts =>
    exact haccepts.covers_of_covers hc hnear hview (InRange.last_lt hφ) timeout hold
  case helloNewView nv _ _ _ _ _ _ _ _ =>
    refine ⟨?_, hpassed.imp_right (Or.imp_right fun hdrop => ⟨hdrop.1.trans_le hgrow, hdrop.2⟩)⟩
    simp only [deliverXset_view, joinView_view, hello_view]
    rcases hleft with hlt | ⟨heq, hactive⟩
    · exact .inl (lt_max_of_lt_left hlt)
    · rcases lt_or_ge c.view nv.view with hlt | hle
      · exact .inl (by omega)
      · exact .inr ⟨by omega, by simp [hactive]⟩
  case newViewNull hactive _ _ _ _ _ =>
    simp only [hactive, Bool.false_eq_true, and_false, or_false] at hleft
    exact ⟨.inl hleft, .inr (.inr ⟨hleft, rfl⟩)⟩
  case jump w _ _ =>
    have hlt : sv.view < w := by omega
    exact ⟨.inl hlt, hpassed.imp_right (Or.imp_right fun hdrop => ⟨hlt, hdrop.2⟩)⟩
  case sendViewChange w _ =>
    have hrange : w + 1 < 2 ^ 64 := by
      have hcall : InRange P (.call .sendViewChange ⟨w, c.activeView, c.cur⟩) c.trace :=
        hφ.at (by simp)
      exact hcall.2 _ rfl
    have hlt : sv.view < (c.sendViewChange P w).view := by
      rw [sendViewChange_view, uint64_of_lt hrange]
      omega
    exact ⟨.inl hlt, hpassed.imp_right (Or.imp_right fun hdrop => ⟨hlt, hdrop.2⟩)⟩
  all_goals exact hold

/-! ### One digest for a position -/

section Alone

variable {cfg : Config} {id : ℕ} {r : Prop}

theorem Alone.cur_view_le (h : Alone P cfg id r c) (hr : ¬ r) (hφ : Always (InRange P) c.trace) :
    c.cur.seq.view ≤ c.view := by
  refine h.induction (I := fun c => c.cur.seq.view ≤ c.view) hr hφ ?_ ?_ ?_
  · intro c hc _
    obtain ⟨active, rfl⟩ := hc.of_nil
    exact Nat.zero_le _
  · exact fun c m src _ hc => hc
  · exact fun c c' _ hφ hI hstep => hstep.cur_view_le hφ hI

theorem Step.acceptedAt (h : Step P c c') {d : β} (hnew : AcceptedAt P c'.trace sv d) :
    AcceptedAt P c.trace sv d ∨ ∃ c₀ pp b timeout, Accepts P c c₀ pp sv b ∧
      c' = c₀.accept P pp sv b timeout ∧ b.hash P = d := by
  obtain ⟨pp, b, hmem, hseq, hbatch, hhash⟩ := hnew
  rcases mem_or_added h.frame.2.2 hmem with hold | hnew
  · exact .inl ⟨pp, b, hold, hseq, hbatch, hhash⟩
  · obtain ⟨c₀, sv', b', timeout, haccepts, rfl⟩ := h.persisted hnew
    obtain rfl : sv' = sv := by simpa [haccepts.seq_eq] using hseq
    obtain rfl : b' = b := by simpa [haccepts.batch_eq] using hbatch
    exact .inr ⟨c₀, pp, b', timeout, haccepts, rfl, hhash⟩

/-- At most one digest is accepted at a position, and it is covered from then on, if preprepares are
accepted there only in an active view. -/
theorem Alone.accepted_once (h : Alone P cfg id r c) (hr : ¬ r) (hφ : Always (InRange P) c.trace)
    (hnv : TimelyViews P cfg c.trace)
    (hactive : ∀ c₁ c₀ pp b timeout, Alone P cfg id r c₁ → Accepts P c₁ c₀ pp sv b →
      (c₀.accept P pp sv b timeout).trace <:+ c.trace → c₀.activeView = true) :
    (∀ d, AcceptedAt P c.trace sv d → c.Covers sv (some d)) ∧
      ∀ d d', AcceptedAt P c.trace sv d → AcceptedAt P c.trace sv d' → d = d' := by
  induction h with
  | start _ hc =>
    obtain ⟨active, rfl⟩ := hc.of_nil
    constructor <;> simp [AcceptedAt]
  | receive c m src _ ih =>
    have hI := ih hφ.2 (hnv.suffix (List.suffix_cons _ _))
      fun c₁ c₀ pp b timeout hc₁ haccepts hs =>
        hactive c₁ c₀ pp b timeout hc₁ haccepts (hs.trans (List.suffix_cons _ _))
    have hsame : ∀ d, AcceptedAt P (.recv m src :: c.trace) sv d → AcceptedAt P c.trace sv d := by
      simp [AcceptedAt]
    exact ⟨fun d hd => hI.1 d (hsame d hd),
      fun d d' hd hd' => hI.2 d d' (hsame d hd) (hsame d' hd')⟩
  | act c _ hc hstep ih =>
    have hsuffix := hstep.frame.2.2
    have hφc := hφ.suffix hsuffix
    have hnvc := hnv.suffix hsuffix
    have hnear := hc.nearby hr hnvc
    have hview := hc.cur_view_le hr hφc
    obtain ⟨hcovers, honce⟩ := ih hφc hnvc fun c₁ c₀ pp b timeout hc₁ haccepts hs =>
      hactive c₁ c₀ pp b timeout hc₁ haccepts (hs.trans hsuffix)
    refine ⟨fun d hd => ?_, fun d d' hd hd' => ?_⟩
    · rcases hstep.acceptedAt hd with hold | ⟨c₀, pp, b, timeout, haccepts, rfl, rfl⟩
      · exact hstep.covers hc.sound hnear hview hφ (hcovers d hold)
      · exact haccepts.covers
          (hactive c c₀ pp b timeout hc haccepts (List.suffix_refl _)) timeout
    · rcases hstep.acceptedAt hd with hold | ⟨c₀, pp, b, timeout, haccepts, rfl, rfl⟩
      · rcases hstep.acceptedAt hd' with hold' | ⟨c₀, pp, b, timeout, haccepts, rfl, rfl⟩
        · exact honce d d' hold hold'
        · exact absurd (hcovers d hold)
            (haccepts.not_covers hc.sound hnear hview (InRange.last_lt hφ))
      · rcases hstep.acceptedAt hd' with hold' | ⟨c₀', pp', b', timeout', haccepts', heq, rfl⟩
        · exact absurd (hcovers d' hold')
            (haccepts.not_covers hc.sound hnear hview (InRange.last_lt hφ))
        · -- the same step accepts only one preprepare
          have hcur := congrArg (fun c => c.cur.digest) heq
          exact Option.some.inj hcur
  | restart _ _ _ _ hrst => exact absurd hrst hr

/-- Commits at a position are covered and for one digest, if the request was not dropped. -/
theorem Alone.committed_once (h : Alone P cfg id r c) (hr : ¬ r) (hφ : Always (InRange P) c.trace)
    (hnv : TimelyViews P cfg c.trace) (hN : 3 * cfg.F + 1 ≤ cfg.N) (hid : id < cfg.N)
    (hkept : ∀ c₁ c₂, Commits P c₁ c₂ → c₂.trace <:+ c.trace → c₁.cur.seq = sv →
      sv.seq ≠ 0 ∨ sv.view = c₁.view) :
    (∀ sub ∈ committed c.trace, sub.seq = some sv → c.Covers sv sub.digest) ∧
      ∀ sub ∈ committed c.trace, ∀ sub' ∈ committed c.trace, sub.seq = some sv →
        sub'.seq = some sv → sub.digest = sub'.digest := by
  induction h with
  | start _ hc =>
    obtain ⟨active, rfl⟩ := hc.of_nil
    constructor <;> simp [committed]
  | receive _ _ _ _ ih =>
    exact ih hφ.2 (hnv.suffix (List.suffix_cons _ _)) fun c₁ c₂ hcommits hs =>
      hkept c₁ c₂ hcommits (hs.trans (List.suffix_cons _ _))
  | act c c' hc hstep ih =>
    have hsuffix := hstep.frame.2.2
    have hφc := hφ.suffix hsuffix
    have hnvc := hnv.suffix hsuffix
    have hview := hc.cur_view_le hr hφc
    obtain ⟨hcovers, honce⟩ := ih hφc hnvc fun c₁ c₂ hcommits hs =>
      hkept c₁ c₂ hcommits (hs.trans hsuffix)
    -- a commit that was not sent before is for the request in flight
    have hcases : ∀ sub ∈ committed c'.trace, sub ∈ committed c.trace ∨
        sub = c.cur.subject ∧ Commits P c c' := by
      intro sub hsub
      obtain ⟨dest, hdest⟩ := mem_committed.mp hsub
      rcases mem_or_added hsuffix hdest with hold | hnew
      · exact .inl (mem_committed.mpr ⟨dest, hold⟩)
      · obtain ⟨rfl, -, -, -, -, -, hcommits⟩ := hstep.commit_sent hnew
        exact .inr ⟨rfl, hcommits⟩
    have hold : ∀ sub ∈ committed c'.trace, sub.seq = some sv → c.Covers sv sub.digest := by
      intro sub hsub hsv
      rcases hcases sub hsub with hmem | ⟨rfl, hcommits⟩
      · exact hcovers sub hmem hsv
      · obtain rfl : c.cur.seq = sv := by simpa using hsv
        obtain ⟨hcfg, hcid⟩ := hc.frame
        exact hcommits.covers hview (by rwa [hcfg]) (by rwa [hcfg, hcid])
    -- once sent, a commit leaves no other digest to the position
    have hdigest : Commits P c c' → c.cur.seq = sv → ∀ sub ∈ committed c'.trace,
        sub.seq = some sv → sub.digest = c.cur.digest := by
      rintro hcommits rfl sub hsub hsv
      exact (hold sub hsub hsv).digest_eq (hkept c c' hcommits (List.suffix_refl _) rfl)
    refine ⟨fun sub hsub hsv => ?_, fun sub hsub sub' hsub' hsv hsv' => ?_⟩
    · exact hstep.covers hc.sound (hc.nearby hr hnvc) hview hφ (hold sub hsub hsv)
    · rcases hcases sub hsub with hmem | ⟨rfl, hcommits⟩
      · rcases hcases sub' hsub' with hmem' | ⟨rfl, hcommits⟩
        · exact honce sub hmem sub' hmem' hsv hsv'
        · exact hdigest hcommits (by simpa using hsv') sub hsub hsv
      · exact (hdigest hcommits (by simpa using hsv) sub' hsub' hsv').symm
  | restart _ _ _ _ hrst => exact absurd hrst hr

end Alone

end Fabric.Sbft
