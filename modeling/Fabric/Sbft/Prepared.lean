import Fabric.Sbft.Delivery
import Fabric.Sbft.Window

/-!
# What a replica remembers of prepared requests

A replica that sent a commit reports the request as prepared in its later view
changes. It reads the report off the request in flight, of which it has only one.
Accepting a preprepare overwrites it, also where a new view proposes the same request
again, and with the null request a new view drops it.
-/

namespace Fabric.Sbft

open Fabric.Common

variable {β : Type} {P : Primitives β}

/-- A view change reports every number ahead of the chain with a commit, for its view or later. -/
def Reports (P : Primitives β) (e : Event β) (t : List (Event β)) : Prop :=
  ∀ vc ∈ e.signedViewChange?, ∀ sub ∈ committed t, ∀ sv ∈ sub.seq, lastSeq P t < sv.seq →
    ∃ p ∈ vc.pset, ∃ sv' ∈ p.seq, sv'.seq = sv.seq ∧ sv.view ≤ sv'.view

instance (e : Event β) (t : List (Event β)) : Decidable (Reports P e t) :=
  inferInstanceAs (Decidable (∀ vc ∈ e.signedViewChange?, ∀ sub ∈ committed t, ∀ sv ∈ sub.seq,
    _ → ∃ p ∈ vc.pset, ∃ sv' ∈ p.seq, _ ∧ _))

/-- If a prepared request has not been delivered, a new view that is entered has a checkpoint at or
after it, and no preprepare is accepted; checkpoints are counted only ahead of the chain. -/
def KeepsPrepared (P : Primitives β) (e : Event β) (t : List (Event β)) : Prop :=
  (∀ a ∈ e.entersView?, a.2.cur.sentCommit = true → lastSeq P t < a.2.cur.seq.seq →
    ∃ cp ∈ a.1.checkpoints P, a.2.cur.seq.seq ≤ seqOf P cp) ∧
  (∀ a ∈ e.accepts?, a.2.cur.sentCommit = true → a.2.cur.seq.seq ≤ lastSeq P t) ∧
  ∀ a ∈ e.checkpoint?, a.2.cur.checkpointDone = true ∨ lastSeq P t < a.2.cur.seq.seq

instance (e : Event β) (t : List (Event β)) : Decidable (KeepsPrepared P e t) :=
  inferInstanceAs (Decidable ((∀ a ∈ e.entersView?, _ → _ → ∃ cp ∈ a.1.checkpoints P, _) ∧
    (∀ a ∈ e.accepts?, _ → _) ∧ ∀ a ∈ e.checkpoint?, _))

/-! ### A commit is remembered -/

/-- The chain has reached the number, or the request in flight is prepared for it, in its view or
later. -/
def Core.Holds (P : Primitives β) (c : Core β) (sv : SeqView) : Prop :=
  sv.seq ≤ c.last P ∨ c.cur.sentCommit = true ∧ c.cur.seq.seq = sv.seq ∧ sv.view ≤ c.cur.seq.view

variable {c c' : Core β} {sv : SeqView}

theorem Core.Holds.accept {pp : Preprepare β} {sv' : SeqView} {b : Batch β} {timeout : ℕ}
    (h : c.Holds P sv) (hφ : Always (KeepsPrepared P) (c.accept P pp sv' b timeout).trace) :
    (c.accept P pp sv' b timeout).Holds P sv := by
  have hcall : KeepsPrepared P (.call (.handleCheckedPreprepare pp) c.status) c.trace :=
    hφ.at (by simp)
  left
  rw [Core.last_accept]
  rcases h with hle | ⟨hsent, hseq, -⟩
  · exact hle
  · rw [← hseq]
    exact hcall.2.1 _ rfl hsent

variable [DecidableEq β]

theorem Core.Holds.enterView {nv : NewView β} {x : Option (Subject β)} {best : Batch β}
    (h : c.Holds P sv) (hjust : nv.Justified P c.config x best)
    (hφ : Always (KeepsPrepared P) (c.enterView P nv best).trace) :
    sv.seq ≤ (c.enterView P nv best).last P := by
  have hcall : KeepsPrepared P (.call (.processNewView nv) c.status) c.trace := hφ.at (by simp)
  rw [Core.last_enterView, le_max_iff]
  rcases h with hle | ⟨hsent, hseq, -⟩
  · exact .inl hle
  · by_cases hlt : c.last P < c.cur.seq.seq
    · obtain ⟨cp, hcp, hle⟩ := hcall.1 _ rfl hsent hlt
      exact .inr (hseq ▸ hle.trans (hjust.seqOf_le hcp))
    · exact .inl (hseq ▸ not_lt.mp hlt)

theorem Step.holds (h : Step P c c') (hc : c.Sound P) (hφ : Always (KeepsPrepared P) c'.trace)
    (hold : c.Holds P sv) : c'.Holds P sv := by
  have hlast := h.last_le hc (hφ.mono fun _ _ _ hkeeps => hkeeps.2.2)
  have hkeep : (c.cur.sentCommit = true → c'.cur.sentCommit = true) →
      c'.cur.seq = c.cur.seq → c'.Holds P sv := by
    intro hsent hseq
    refine hold.imp hlast.trans' fun hcur => ⟨hsent hcur.1, ?_⟩
    rw [hseq]
    exact hcur.2
  cases h
  case accept haccepts =>
    refine Core.Holds.accept ?_ hφ
    cases haccepts
    case propose =>
      refine hold.imp_left fun hle => ?_
      rwa [Core.last_push (by simp +contextual [or_imp])]
    case preprepare => exact hold
    case newView hjust _ =>
      exact .inl (hold.enterView hjust (hφ.suffix (by simp)))
  case newViewNull hjust _ =>
    exact .inl (hold.enterView hjust hφ)
  all_goals exact hkeep (by simp) rfl

/-! ### View changes report what was prepared -/

/-- At every correct replica, view changes report what was prepared and not delivered. -/
def PreparedRemembered (P : Primitives β) (B : Finset ℕ) (sys : System β) : Prop :=
  ∀ e ∈ sys.histories B, Always (Reports P) e.2

instance (B : Finset ℕ) (sys : System β) : Decidable (PreparedRemembered P B sys) :=
  inferInstanceAs (Decidable (∀ e ∈ sys.histories B, _))

theorem Step.reports (h : Step P c c') (hold : ∀ sub ∈ committed c.trace, ∀ sv ∈ sub.seq,
    c.Holds P sv) (hψ : Always (Reports P) c.trace) : Always (Reports P) c'.trace := by
  have hnone : (∀ vc, ¬ Added c.trace c'.trace (.signViewChange vc)) →
      Always (Reports P) c'.trace := by
    refine fun hno => hψ.extend h.frame.2.2 fun e t hnew _ _ vc hvc => ?_
    cases e with
    | signViewChange vc' => exact absurd hnew (hno vc')
    | _ => cases hvc
  cases h
  case quiet hquiet =>
    refine hnone fun vc hvc => ?_
    cases quiet_of_added hquiet hvc
  case greet hes =>
    refine hnone fun vc hvc => ?_
    cases greeting_of_added hes hvc (by simp)
  case accept haccepts =>
    refine hnone fun vc hvc => ?_
    cases haccepts <;> simp at hvc
  case sendViewChange =>
    rw [Core.sendViewChange_trace, always_append_iff]
    · refine ⟨?_, ⟨by simp [Reports, Event.signedViewChange?], hψ⟩⟩
      rintro vc ⟨rfl⟩ sub hsub sv hsv hlt
      -- what is not on the chain is in flight, and hence reported
      rcases hold sub hsub sv hsv with hle | ⟨hsent, hseq, hview⟩
      · exact absurd hlt (not_lt.mpr hle)
      · exact ⟨c.cur.subject, by simp [Core.viewChange, viewChangeFor, hsent], c.cur.seq, rfl, hseq,
          hview⟩
    · intro e he t vc hvc
      obtain ⟨dest, -, rfl⟩ := mem_broadcastEvents.mp he
      cases hvc
  all_goals exact hnone (by simp)

/-- View changes report what was prepared, if a prepared request stays in flight. -/
theorem Alone.reports {cfg : Config} {id : ℕ} {r : Prop} (h : Alone P cfg id r c) (hr : ¬ r)
    (hφ : Always (KeepsPrepared P) c.trace) : Always (Reports P) c.trace := by
  refine (h.induction (I := fun c => (∀ sub ∈ committed c.trace, ∀ sv ∈ sub.seq, c.Holds P sv) ∧
    Always (Reports P) c.trace) hr hφ ?_ ?_ ?_).2
  · intro c hc _
    obtain ⟨active, rfl⟩ := hc.of_nil
    exact ⟨by simp [committed], by simp [Reports, Event.signedViewChange?]⟩
  · intro c m src _ hc
    exact ⟨hc.1, ⟨by simp [Reports, Event.signedViewChange?], hc.2⟩⟩
  · intro c c' hc hφ hI hstep
    refine ⟨fun sub hsub sv hsv => ?_, hstep.reports hI.1 hI.2⟩
    obtain ⟨dest, hsend⟩ := mem_committed.mp hsub
    rcases mem_or_added hstep.frame.2.2 hsend with hold | hnew
    · exact hstep.holds hc.sound hφ (hI.1 sub (mem_committed.mpr ⟨dest, hold⟩) sv hsv)
    · obtain ⟨rfl, hseq, -, hsent, -⟩ := hstep.commit_sent hnew
      obtain rfl : c.cur.seq = sv := by simpa using hsv
      exact .inr ⟨hsent, by rw [hseq], by rw [hseq]⟩

/-- View changes report what was prepared, in every run without restarts in which
prepared requests stay in flight until they are delivered. -/
theorem preparedRemembered_of_keepsPrepared {cfg : Config} {B : Finset ℕ} {ls : List (Label β)}
    {sys : System β} (hrestart : ∀ l ∈ ls, ¬ l.Restarts)
    (hrun : System.run P B (System.init P cfg) ls = some sys)
    (hφ : ∀ e ∈ sys.histories B, Always (KeepsPrepared P) e.2) : PreparedRemembered P B sys := by
  obtain ⟨g, hg, hhist⟩ := run_refines hrun
  rintro ⟨i, t⟩ hit
  obtain ⟨hi, -, rfl⟩ := (hhist i t).mp hit
  refine (hg.alone i hi).reports ?_ (hφ _ hit)
  exact not_restarted hrestart i

/-- Replica 3 prepares the first batch and gives up on view 0. -/
def preparedRun : List (Label Term) :=
  .of 0 (.request (.nat 7)) :: Label.arrivals [(0, 0, 0), (1, 0, 1), (2, 0, 1), (3, 0, 1),
    (3, 1, 0), (3, 2, 0)] ++ [.of 3 (.timer 0)]

theorem preparedRemembered_preparedRun : ∃ sys,
    System.run symbolic ∅ (System.init symbolic fourReplicas) preparedRun = some sys ∧
      (∃ e ∈ sys.histories ∅, committed e.2 ≠ []) ∧ PreparedRemembered symbolic ∅ sys := by
  refine System.exists_of_always ∅ (KeepsPrepared symbolic) (by decide +kernel) ?_
  exact fun sys hrun hφ => preparedRemembered_of_keepsPrepared (by decide) hrun hφ

/-- View 1 proposes the prepared batch again. Replica 3 enters it and gives up on it, and its view
change for view 2 reports nothing. -/
theorem not_preparedRemembered_newView : ∃ sys,
    System.run symbolic ∅ (System.init symbolic fourReplicas) (preparedRun ++
      [.of 1 (.timer 0), .of 2 (.timer 0)] ++ Label.arrivals [(1, 1, 1), (1, 2, 1), (1, 3, 2),
        (3, 1, 1)] ++ [.of 3 (.timer 1)]) = some sys ∧ ¬ PreparedRemembered symbolic ∅ sys := by
  decide +kernel

end Fabric.Sbft
