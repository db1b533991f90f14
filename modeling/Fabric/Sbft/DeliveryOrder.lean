import Fabric.Sbft.Delivery
import Fabric.Sbft.Restart

/-!
# The order of deliveries

A replica delivers on three paths with different guards. They agree on an order as
long as the request in flight, while it is not done, lies ahead of the chain. A hello
may deliver that request or a later one without marking it done, and a new view may
propose again what was delivered.
-/

namespace Fabric.Sbft

open Fabric.Common Fabric.Sbft.Core

variable {β : Type} {P : Primitives β}

/-- The chain before a delivery ends below the delivered batch. -/
def DeliversAhead (P : Primitives β) (e : Event β) (t : List (Event β)) : Prop :=
  ∀ b, e = .deliver b → lastSeq P t < seqOf P b

theorem pairwise_of_deliversAhead {t : List (Event β)} (h : Always (DeliversAhead P) t) :
    ((delivered t).map (seqOf P)).Pairwise (· > ·) ∧
      ∀ n ∈ (delivered t).map (seqOf P), n ≤ lastSeq P t := by
  induction t with
  | nil => simp [delivered]
  | cons e t ih =>
    obtain ⟨hpair, hle⟩ := ih h.2
    by_cases he : ∃ b, e = .deliver b
    · obtain ⟨b, rfl⟩ := he
      have hlt := h.1 b rfl
      have hcons : delivered (.deliver b :: t) = b :: delivered t := rfl
      rw [hcons, List.map_cons, List.pairwise_cons]
      refine ⟨⟨fun n hn => ?_, hpair⟩, List.forall_mem_cons.mpr ⟨le_refl _, fun n hn => ?_⟩⟩
      · exact lt_of_le_of_lt (hle n hn) hlt
      · exact (hle n hn).trans hlt.le
    · push Not at he
      rw [lastSeq_cons_of_ne P t he]
      have hcons : delivered (e :: t) = delivered t := by
        cases e with
        | deliver b => exact absurd rfl (he b)
        | _ => rfl
      rw [hcons]
      exact ⟨hpair, hle⟩

/-! ### The request in flight lies ahead of the chain -/

/-- A hello does not deliver the number of a request in flight that is not done, or a later one, and
a preprepare that is accepted lies ahead of the chain. -/
def StaysAhead (P : Primitives β) (e : Event β) (t : List (Event β)) : Prop :=
  (∀ a ∈ e.hello?, ∀ b ∈ a.1.batch, lastSeq P t < seqOf P b →
    a.2.cur.checkpointDone = true ∨ seqOf P b < a.2.cur.seq.seq) ∧
  ∀ a ∈ e.accepts?, ∀ sv ∈ a.1.seq, lastSeq P t < sv.seq

instance (e : Event β) (t : List (Event β)) : Decidable (StaysAhead P e t) :=
  inferInstanceAs (Decidable ((∀ a ∈ e.hello?, ∀ b ∈ a.1.batch, _ → _) ∧
    ∀ a ∈ e.accepts?, ∀ sv ∈ a.1.seq, _))

/-- While the request in flight is not done, it lies ahead of the chain. -/
def Core.Ahead (P : Primitives β) (c : Core β) : Prop :=
  c.cur.checkpointDone = false → c.last P < c.cur.seq.seq

variable {c c' : Core β}

theorem Core.Ahead.accept (c : Core β) {pp : Preprepare β} {sv : SeqView} (b : Batch β)
    (timeout : ℕ)
    (hseq : pp.seq = some sv) (hφ : Always (StaysAhead P) (c.accept P pp sv b timeout).trace) :
    (c.accept P pp sv b timeout).Ahead P := by
  intro _
  have hcall : StaysAhead P (.call (.handleCheckedPreprepare pp) c.status) c.trace :=
    hφ.at (by simp)
  rw [last_accept]
  exact hcall.2 _ rfl sv hseq

theorem Core.Ahead.hello (h : c.Ahead P) {hello : Hello β} {src : ℕ} {b : Batch β}
    (hbatch : hello.batch = some b) (hφ : Always (StaysAhead P) (c.hello P hello src b).trace) :
    (c.hello P hello src b).Ahead P := by
  intro hdone
  have hahead := h hdone
  have hcall : StaysAhead P (.call (.handleHello hello src) c.status) c.trace := hφ.at (by simp)
  rw [last_hello, max_lt_iff]
  refine ⟨hahead, ?_⟩
  by_cases hlt : c.last P < seqOf P b
  · exact (hcall.1 _ rfl b hbatch hlt).resolve_left (by simpa using hdone)
  · exact lt_of_le_of_lt (not_lt.mp hlt) hahead

variable [DecidableEq β]

theorem Step.ahead (h : Step P c c') (hc : c.Ahead P) (hφ : Always (StaysAhead P) c'.trace) :
    c'.Ahead P := by
  -- a step that delivers nothing leaves the request in flight where it was
  have hkeep : c'.cur.checkpointDone = c.cur.checkpointDone → c'.cur.seq = c.cur.seq →
      (∀ b, ¬ Added c.trace c'.trace (.deliver b)) → c'.Ahead P := by
    intro hdone hseq hno hdone'
    have hlast : c'.last P = c.last P := lastSeq_eq_of_not_added P h.frame.2.2 hno
    rw [hlast, hseq]
    exact hc (hdone ▸ hdone')
  cases h
  case quiet hquiet =>
    refine hkeep rfl rfl fun b hb => ?_
    cases quiet_of_added hquiet hb
  case greet hes =>
    refine hkeep rfl rfl fun b hb => ?_
    cases greeting_of_added hes hb (by simp)
  case accept haccepts => exact .accept _ _ _ haccepts.seq_eq hφ
  case checkpointDeliver => exact fun hdone => by simp at hdone
  case newViewNull => exact fun hdone => by simp at hdone
  case hello hbatch _ =>
    exact hc.hello hbatch hφ
  case helloNewView h src b _ nv _ best _ hbatch _ _ _ _ =>
    have hhello : ((c.hello P h src b).joinView nv).Ahead P :=
      hc.hello hbatch (hφ.suffix (by simp))
    -- if the new view delivers, nothing is in flight any more
    by_cases hlt : ((c.hello P h src b).joinView nv).last P < seqOf P best
    · rw [deliverXset_of_lt hlt]
      exact fun hdone => by simp at hdone
    · rwa [deliverXset_of_not_lt hlt]
  all_goals exact hkeep rfl rfl (by simp)

theorem Step.deliversAhead (h : Step P c c') (hsound : c.Sound P) (hc : c.Ahead P)
    (hψ : Always (DeliversAhead P) c.trace) : Always (DeliversAhead P) c'.trace := by
  -- a step that delivers nothing
  have hnone : (∀ b, ¬ Added c.trace c'.trace (.deliver b)) → Always (DeliversAhead P) c'.trace :=
    fun hno => hψ.extend h.frame.2.2 fun e u hnew _ _ b he => absurd (he ▸ hnew) (hno b)
  -- the delivery of the checkpoint of a new view
  have hxset : ∀ (c₁ : Core β) (best : Batch β) (t : List (Event β)), lastSeq P t = c₁.last P →
      Always (DeliversAhead P) t → Always (DeliversAhead P) (c₁.xsetEvents P best ++ t) := by
    intro c₁ best t hlast ht
    unfold xsetEvents
    split_ifs with hlt
    · rw [List.singleton_append]
      refine ⟨?_, ht⟩
      rintro b ⟨rfl⟩
      rwa [seqOf_xsetBatch, hlast]
    · exact ht
  have hcall : ∀ k st, Always (DeliversAhead P) (.call k st :: c.trace) :=
    fun k st => ⟨fun b hb => by simp at hb, hψ⟩
  have hhello : ∀ h src b, Always (DeliversAhead P) (c.hello P h src b).trace := by
    intro h src b
    rw [hello_trace, helloEvents]
    split_ifs with hlt
    · refine ⟨?_, hcall _ _⟩
      rintro b ⟨rfl⟩
      simpa [last] using hlt
    · exact hcall _ _
  cases h
  case quiet hquiet =>
    refine hnone fun b hb => ?_
    cases quiet_of_added hquiet hb
  case greet hes =>
    refine hnone fun b hb => ?_
    cases greeting_of_added hes hb (by simp)
  case checkpointDeliver hdone _ _ _ _ _ _ hpp hbatch =>
    have hahead := hc hdone
    refine ⟨?_, hcall _ _⟩
    rintro b' ⟨rfl⟩
    rw [← hsound.seqOf_batch hpp hbatch (by omega)] at hahead
    exact hahead
  case hello h src b _ _ _ _ => exact hhello h src b
  case helloNewView h src b _ _ _ best _ _ _ _ _ _ =>
    exact hxset _ best _ rfl (hhello h src b)
  case newViewNull best _ _ _ _ _ _ =>
    exact hxset c best _ (by simp [last]) (hcall _ _)
  case accept c₀ _ _ b _ haccepts =>
    have h₀ : Always (DeliversAhead P) c₀.trace := by
      cases haccepts
      case propose => exact hψ.extend (by simp) fun e u hnew _ _ b he => by simp [he] at hnew
      case preprepare => exact hψ
      case newView => exact hxset c _ _ (by simp [last]) (hcall _ _)
    exact h₀.extend (by simp) fun e u hnew _ _ b he => by simp [he] at hnew
  all_goals exact hnone (by simp)

/-! ### Deliveries in order -/

/-- At every correct replica, the sequence numbers of the delivered batches increase;
the latest comes first. -/
def DeliveredInOrder (P : Primitives β) (B : Finset ℕ) (sys : System β) : Prop :=
  ∀ e ∈ sys.histories B, ((delivered e.2).map (seqOf P)).Pairwise (· > ·)

instance (B : Finset ℕ) (sys : System β) : Decidable (DeliveredInOrder P B sys) :=
  inferInstanceAs (Decidable (∀ e ∈ sys.histories B, _))

/-- Deliveries are ahead of the chain without restarts, if the request in flight stays ahead. -/
theorem Alone.deliversAhead {cfg : Config} {id : ℕ} {r : Prop} (h : Alone P cfg id r c) (hr : ¬ r)
    (hφ : Always (StaysAhead P) c.trace) : Always (DeliversAhead P) c.trace := by
  refine (h.induction (I := fun c => c.Ahead P ∧ Always (DeliversAhead P) c.trace) hr hφ
    ?_ ?_ ?_).2
  · intro c hc _
    obtain ⟨active, rfl⟩ := hc.of_nil
    exact ⟨fun hdone => by simp [SBFT.blank] at hdone, by simp [DeliversAhead]⟩
  · intro c m src _ hc
    exact ⟨hc.1, by simpa [DeliversAhead] using hc.2⟩
  · intro c c' hc hφ hI hstep
    exact ⟨hstep.ahead hI.1 hφ, hstep.deliversAhead hc.sound hI.1 hI.2⟩

/-- Deliveries are in order in every run without restarts in which requests in flight stay ahead. -/
theorem deliveredInOrder_of_staysAhead {cfg : Config} {B : Finset ℕ} {ls : List (Label β)}
    {sys : System β} (hrestart : ∀ l ∈ ls, ¬ l.Restarts)
    (hrun : System.run P B (System.init P cfg) ls = some sys)
    (hφ : ∀ e ∈ sys.histories B, Always (StaysAhead P) e.2) : DeliveredInOrder P B sys := by
  obtain ⟨g, hg, hhist⟩ := run_refines hrun
  rintro ⟨i, t⟩ hit
  obtain ⟨hi, -, rfl⟩ := (hhist i t).mp hit
  refine (pairwise_of_deliversAhead ((hg.alone i hi).deliversAhead ?_ (hφ _ hit))).1
  exact not_restarted hrestart i

/-- Replica 3 delivers the first batch with its checkpoints, and the next one with a hello. -/
theorem deliveredInOrder_executedRun : ∃ sys,
    System.run symbolic {0} (System.init symbolic fourReplicas) (executedRun ++
      [.of 3 (.inject 0 (.hello ⟨some ⟨.ofHeader ⟨2, none, none⟩, [], ∅⟩, none⟩))]) = some sys ∧
      (∃ e ∈ sys.histories {0}, (delivered e.2).map (seqOf symbolic) = [2, 1]) ∧
      DeliveredInOrder symbolic {0} sys := by
  refine System.exists_of_always {0} (StaysAhead symbolic) (by decide +kernel) ?_
  exact fun sys hrun hφ => deliveredInOrder_of_staysAhead (by decide) hrun hφ

/-- All replicas preprepare the first batch, 0 and 1 execute it and 0 delivers it. -/
def firstBatchRun : List (Label Term) :=
  .of 0 (.request (.nat 7)) :: Label.arrivals
    [(0, 0, 0), (1, 0, 1), (2, 0, 1), (3, 0, 1), (0, 1, 0), (0, 2, 0), (1, 1, 0), (1, 2, 0),
      (2, 1, 0), (2, 2, 0), (0, 0, 1), (0, 1, 0), (0, 2, 0), (1, 0, 1), (1, 1, 0), (1, 2, 0),
      (0, 0, 1), (0, 1, 0)]

/-- A hello delivers the request in flight without marking it done; checkpoints deliver it again. -/
theorem not_deliveredInOrder_hello : ∃ sys,
    System.run symbolic ∅ (System.init symbolic fourReplicas) (firstBatchRun ++
      .of 0 (.connection 3) :: Label.arrivals [(3, 0, 3), (3, 0, 2), (3, 1, 2)]) = some sys ∧
      ¬ DeliveredInOrder symbolic ∅ sys := by
  decide +kernel

end Fabric.Sbft
