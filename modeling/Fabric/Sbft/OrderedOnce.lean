import Fabric.Sbft.DeliveryOrder
import Fabric.Sbft.Submissions

/-!
# Payloads that are ordered once

A replica delivers payloads only with the request in flight: what it catches up with comes
without them. Each request in flight is delivered at most once. So a payload is delivered twice
only if a batch that contains it is accepted again after it was delivered, as a new view or a
primary that still has the request may make a replica do.
-/

namespace Fabric.Sbft

open Fabric.Common List Fabric.Sbft.Core

variable {β : Type} {P : Primitives β}

/-- The payloads of the delivered batches, the latest batch first. -/
def ordered (t : List (Event β)) : List β := (delivered t).flatMap Batch.payloads

theorem ordered_cons_of_ne {e : Event β} (t : List (Event β)) (h : ∀ b, e ≠ .deliver b) :
    ordered (e :: t) = ordered t := by
  cases e with
  | deliver b => exact absurd rfl (h b)
  | _ => rfl

@[simp] theorem ordered_deliver (b : Batch β) (t : List (Event β)) :
    ordered (.deliver b :: t) = b.payloads ++ ordered t := rfl

theorem ordered_append_of_ne {es : List (Event β)} (t : List (Event β))
    (h : ∀ e ∈ es, ∀ b, e ≠ .deliver b) : ordered (es ++ t) = ordered t := by
  induction es with
  | nil => rfl
  | cons e _ ih =>
    rw [cons_append, ordered_cons_of_ne _ (h e mem_cons_self)]
    exact ih fun e' he' => h e' (mem_cons_of_mem e he')

/-- The payloads of the request in flight. -/
def Core.payloads (c : Core β) : List β :=
  ((c.cur.preprep.bind Preprepare.batch).map Batch.payloads).getD []

/-- The request in flight may still be delivered. -/
def Core.Deliverable (P : Primitives β) (c : Core β) : Prop :=
  c.cur.checkpointDone = false ∨ c.last P < c.cur.seq.seq

variable [DecidableEq β] {c c' : Core β} {d : β} {b : Batch β} {best : Batch β}

/-- The payload was delivered at most once, and if it is in flight not at all. -/
structure Core.Once (P : Primitives β) (d : β) (c : Core β) : Prop where
  ordered : (ordered c.trace).count d ≤ 1
  inFlight : c.Deliverable P → (Sbft.ordered c.trace).count d + c.payloads.count d ≤ 1

/-- A preprepare with the payload is accepted only if the payload was not delivered before. -/
def AcceptsFresh (d : β) (e : Event β) (t : List (Event β)) : Prop :=
  ∀ a ∈ e.accepts?, ∀ b ∈ a.1.batch, d ∈ b.payloads → d ∉ ordered t

instance (d : β) (e : Event β) (t : List (Event β)) : Decidable (AcceptsFresh d e t) :=
  inferInstanceAs (Decidable (∀ a ∈ e.accepts?, ∀ b ∈ a.1.batch, _ → _))

/-- What the replica may catch up with comes without payloads. -/
structure Core.Bare (P : Primitives β) (c : Core β) : Prop where
  hello : ∀ (h : Hello β) src b, .recv (.hello h) src ∈ c.trace → h.batch = some b → b.payloads = []
  newView : ∀ (m : Msg β) src nv x best, .recv m src ∈ c.trace → m.newView? = some nv →
    nv.Justified P c.config x best → best.payloads = []

/-! ### One step -/

theorem Core.Once.quiet (h : c.Once P d) (hsuffix : c.trace <:+ c'.trace)
    (hnone : ∀ b, ¬ Added c.trace c'.trace (.deliver b))
    (hpreprep : c'.cur.preprep = c.cur.preprep)
    (hdone : c'.cur.checkpointDone = c.cur.checkpointDone)
    (hseq : c'.cur.seq.seq = c.cur.seq.seq) : c'.Once P d := by
  obtain ⟨es, htrace⟩ := hsuffix
  have hes : ∀ e ∈ es, ∀ b, e ≠ .deliver b := by
    rintro e he b rfl
    apply hnone b
    rw [← htrace, added_append (suffix_refl _)]
    exact .inl he
  have hordered : Sbft.ordered c'.trace = Sbft.ordered c.trace := by
    rw [← htrace, ordered_append_of_ne _ hes]
  have hlast : c'.last P = c.last P := by
    rw [last, ← htrace, lastSeq_append_of_ne P _ hes, last]
  have hpayloads : c'.payloads = c.payloads := by
    rw [payloads, hpreprep, payloads]
  refine ⟨hordered ▸ h.ordered, fun hopen => ?_⟩
  rw [hordered, hpayloads]
  apply h.inFlight
  rwa [Core.Deliverable, hdone, hlast, hseq] at hopen

omit [DecidableEq β] in
/-- The checkpoint comes without payloads or with those of the request in flight. -/
theorem Core.payloads_xsetBatch {best : Batch β} (h : best.payloads = []) :
    (c.xsetBatch P best).payloads = [] ∨
      seqOf P best = c.cur.seq.seq ∧ (c.xsetBatch P best).payloads = c.payloads := by
  unfold xsetBatch
  split_ifs with hseq
  · cases hb : c.cur.preprep.bind Preprepare.batch with
    | none => exact .inl h
    | some =>
      refine .inr ⟨hseq, ?_⟩
      rw [payloads, hb]
      rfl
  · exact .inl h

theorem Core.Once.deliverXset (h : c.Once P d) (hbest : best.payloads = []) :
    (c.deliverXset P best).Once P d := by
  by_cases hlt : c.last P < seqOf P best
  · rw [deliverXset_of_lt hlt]
    obtain hnone | ⟨hseq, hsame⟩ := payloads_xsetBatch hbest
    · have hordered : Sbft.ordered (c.finish (c.xsetBatch P best)).trace =
          Sbft.ordered c.trace := by
        rw [finish_trace, ordered_deliver, hnone, nil_append]
      refine ⟨hordered ▸ h.ordered, fun hopen => ?_⟩
      rw [hordered]
      refine h.inFlight (.inr ?_)
      obtain hdone | hahead := hopen
      · cases hdone
      · rw [last_finish, seqOf_xsetBatch] at hahead
        exact hlt.trans hahead
    · -- the payloads of the request in flight, which is not deliverable any more
      have hcount := h.inFlight (.inr (hseq ▸ hlt))
      refine ⟨?_, fun hopen => ?_⟩
      · rw [finish_trace, ordered_deliver, hsame, count_append, Nat.add_comm]
        exact hcount
      · obtain hdone | hahead := hopen
        · cases hdone
        · rw [last_finish, seqOf_xsetBatch] at hahead
          exact absurd hseq hahead.ne
  · rw [deliverXset_of_not_lt hlt]
    exact h

theorem Core.Once.enterView {nv : NewView β} (h : c.Once P d)
    (hbest : best.payloads = []) : (c.enterView P nv best).Once P d := by
  have hcall : (c.push [.call (.processNewView nv) c.status]).Once P d :=
    h.quiet (suffix_cons _ _) (by simp) rfl rfl rfl
  refine ⟨(hcall.deliverXset hbest).ordered, fun hopen => ?_⟩
  obtain hdone | hahead := hopen
  · cases hdone
  · cases hahead

theorem Core.Once.hello {hello : Hello β} {src : ℕ} (h : c.Once P d)
    (hb : b.payloads = []) : (c.hello P hello src b).Once P d := by
  have hordered : Sbft.ordered (c.hello P hello src b).trace = Sbft.ordered c.trace := by
    rw [hello_trace, helloEvents]
    split_ifs
    · rw [singleton_append, ordered_deliver, hb, nil_append, ordered_cons_of_ne _ (by simp)]
    · rw [nil_append, ordered_cons_of_ne _ (by simp)]
  refine ⟨hordered ▸ h.ordered, fun hopen => ?_⟩
  rw [hordered]
  refine h.inFlight (hopen.imp_right fun hahead => ?_)
  rw [last_hello, max_lt_iff] at hahead
  exact hahead.1

theorem Core.Once.accept {pp : Preprepare β} {sv : SeqView} {timeout : ℕ}
    (h : (Sbft.ordered c.trace).count d ≤ 1) (hbatch : pp.batch = some b)
    (hsingly : b.payloads.count d ≤ 1) (hfresh : d ∈ b.payloads → d ∉ Sbft.ordered c.trace) :
    (c.accept P pp sv b timeout).Once P d := by
  have hordered : Sbft.ordered (c.accept P pp sv b timeout).trace = Sbft.ordered c.trace := by
    rw [accept_trace, ordered_append_of_ne, ordered_cons_of_ne _ (by simp),
      ordered_cons_of_ne _ (by simp)]
    intro e he b'
    obtain ⟨-, dest, -, rfl⟩ := mem_voteEvents.mp he
    simp
  have hpayloads : (c.accept P pp sv b timeout).payloads = b.payloads := by
    simp [payloads, hbatch]
  refine ⟨hordered ▸ h, fun _ => ?_⟩
  rw [hordered, hpayloads]
  by_cases hmem : d ∈ b.payloads
  · rw [count_eq_zero.mpr (hfresh hmem), Nat.zero_add]
    exact hsingly
  · rw [count_eq_zero.mpr hmem]
    exact h

theorem Step.once (h : Step P c c') (hc : c.Sound P) (hbare : c.Bare P)
    (hfresh : Always (AcceptsFresh d) c'.trace) (hsingly : ∀ e ∈ c'.trace, AcceptsSingly d e)
    (honce : c.Once P d) : c'.Once P d := by
  have hsuffix := h.frame.2.2
  cases h with
  | accept c₀ pp sv b timeout haccepts =>
    have hc₀ : (ordered c₀.trace).count d ≤ 1 := by
      cases haccepts with
      | propose data =>
        have hpropose : (c.push (broadcastEvents c.config.N (.preprepare (c.proposal P data)) ++
            [.persist (.preprepare (c.proposal P data))])).Once P d :=
          honce.quiet (by simp) (by simp) rfl rfl rfl
        exact hpropose.ordered
      | preprepare => exact honce.ordered
      | newView nv x best _ _ _ hrecv _ hjust =>
        exact (honce.enterView (hbare.newView _ _ nv x best hrecv rfl hjust)).ordered
    have hcall : .call (.handleCheckedPreprepare pp) c₀.status :: c₀.trace <:+
        (c₀.accept P pp sv b timeout).trace := by simp
    refine .accept hc₀ haccepts.batch_eq ?_ ?_
    · exact hsingly _ (hcall.subset mem_cons_self) _ rfl b haccepts.batch_eq
    · exact hfresh.at hcall _ rfl b haccepts.batch_eq
  | checkpointDeliver _ _ _ _ _ b _ _ hdone _ _ _ _ _ _ hpp hbatch =>
    have hpayloads : c.payloads = b.payloads := by simp [payloads, hpp, hbatch]
    have hcount := honce.inFlight (.inl hdone)
    refine ⟨?_, fun hopen => ?_⟩
    · rw [finish_trace, ordered_deliver, count_append, Nat.add_comm, ← hpayloads]
      exact hcount
    · -- the chain has reached the request in flight
      obtain hdone' | hahead := hopen
      · cases hdone'
      · have hlt := hahead
        have hne := Nat.ne_zero_of_lt hlt
        exact absurd (hc.seqOf_batch hpp hbatch hne) hlt.ne
  | hello hello src b _ hrecv hbatch =>
    exact honce.hello (hbare.hello hello src b hrecv hbatch)
  | helloNewView hello src b _ nv x best hrecv hbatch _ hnv _ hjust =>
    have hhello : (c.hello P hello src b).Once P d :=
      honce.hello (hbare.hello hello src b hrecv hbatch)
    have hjoin : ((c.hello P hello src b).joinView nv).Once P d :=
      hhello.quiet (suffix_refl _) (by simp) rfl rfl rfl
    exact hjoin.deliverXset (hbare.newView _ src nv x best hrecv hnv hjust)
  | newViewNull nv x best _ _ hrecv _ hjust =>
    exact honce.enterView (hbare.newView _ _ nv x best hrecv rfl hjust)
  | quiet es hquiet =>
    refine honce.quiet hsuffix (fun b hadded => ?_) rfl rfl rfl
    have hmem : .deliver b ∈ es := by simpa using hadded
    cases hquiet _ hmem
  | greet _ es hes =>
    refine honce.quiet hsuffix (fun b hadded => ?_) rfl rfl rfl
    have hmem : .deliver b ∈ es := by simpa using hadded
    cases hes _ hmem
  | _ => exact honce.quiet hsuffix (by simp) rfl rfl rfl

/-! ### Groups without Byzantine replicas -/

section Groups

variable {cfg : Config} {R : ℕ → Prop} {g : ℕ → Core β}

theorem Group.Reachable.bare (h : Group.Reachable P cfg ∅ R g) (hR : ∀ i, ¬ R i) :
    ∀ i < cfg.N, (g i).Bare P := by
  intro i hi
  refine ⟨fun hello src b hrecv hb => ?_, fun m src nv x best hrecv hm hjust => ?_⟩
  · obtain ⟨hsrc, hsent, -⟩ := h.recv i hi (Finset.notMem_empty i) _ src hrecv
    obtain ⟨-, hsent⟩ := hsent.resolve_left (Finset.notMem_empty src)
    obtain ⟨c₁, c₂, -, hstep, hnew, -⟩ :=
      (h.alone src hsrc).exists_step (hR src) hsent (by simp) (by simp)
    obtain ⟨rfl, -⟩ := hstep.hello_sent hnew
    cases hb
    rfl
  · rw [(h.alone i hi).frame.1] at hjust
    obtain ⟨r, vc, hcarries, hbest⟩ := hjust.exists_best
    obtain ⟨hr, hsigned⟩ :=
      h.carried hR hi (Finset.notMem_empty i) hrecv hm hcarries (Finset.notMem_empty r)
    obtain ⟨c₁, c₂, -, hstep, hnew, -⟩ :=
      (h.alone r hr).exists_step (hR r) hsigned (by simp) (by simp)
    obtain ⟨w, -, rfl, -⟩ := hstep.viewChange_signed hnew
    cases hbest
    rfl

theorem Group.Reachable.once (h : Group.Reachable P cfg ∅ R g) (hR : ∀ i, ¬ R i)
    (hφ : ∀ i < cfg.N, Always (fun e t => AcceptsFresh d e t ∧ AcceptsSingly d e) (g i).trace) :
    ∀ i < cfg.N, (g i).Once P d := by
  intro i hi
  refine h.invariant (I := fun _ c => c.Once P d) hR (fun i hi _ => hφ i hi)
    (fun _ _ _ _ h => h) ?_ ?_ ?_ i hi (Finset.notMem_empty i)
  · intro g i c hc
    obtain ⟨active, rfl⟩ := hc.of_nil
    exact ⟨Nat.zero_le 1, fun _ => Nat.zero_le 1⟩
  · intro g c m src hc
    exact hc.quiet (suffix_cons _ _) (by simp) rfl rfl rfl
  · intro g i c' hg _ hI hi hiB hstep hφ'
    refine hstep.once (hg.alone i hi).sound (hg.bare hR i hi) (hφ'.mono fun _ _ _ h => h.1) ?_
      (hI i hi hiB)
    exact always_iff_forall_mem.mp (hφ'.mono fun _ _ _ h => h.2)

end Groups

/-- A payload that is submitted at most once is delivered at most once, without Byzantine replicas
and restarts, if no batch with it is accepted after it was delivered. -/
theorem orderedOnce_of_acceptsFresh {cfg : Config} {ls : List (Label β)} {sys : System β} {d : β}
    (hrestart : ∀ l ∈ ls, ¬ l.Restarts) (hsubmit : ls.countP (Label.submits d) ≤ 1)
    (hrun : System.run P ∅ (System.init P cfg) ls = some sys)
    (hfresh : ∀ e ∈ sys.histories ∅, Always (AcceptsFresh d) e.2) :
    ∀ e ∈ sys.histories ∅, (ordered e.2).count d ≤ 1 := by
  have hsingly := System.run_singly hrestart hsubmit hrun
  obtain ⟨g, hg, hhist⟩ := run_refines hrun
  rintro ⟨i, t⟩ hit
  obtain ⟨hi, -, rfl⟩ := (hhist i t).mp hit
  refine (hg.once ?_ (fun j hj => ?_) i hi).ordered
  · exact not_restarted hrestart
  · have hjt := (hhist j _).mpr ⟨hj, Finset.notMem_empty j, rfl⟩
    have haccepts : ∀ e ∈ (g j).trace, AcceptsSingly d e := by
      obtain ⟨-, p, hp, htrace⟩ := System.mem_histories.mp hjt
      rw [htrace]
      exact hsingly.accepts p (mem_of_getElem? hp)
    exact (hfresh _ hjt).and (always_iff_forall_mem.mpr haccepts)

/-- The first batch is delivered by replica 0. -/
theorem orderedOnce_firstBatchRun : ∃ sys,
    System.run symbolic ∅ (System.init symbolic fourReplicas) firstBatchRun = some sys ∧
      (∃ e ∈ sys.histories ∅, ordered e.2 = [.nat 7]) ∧
      ∀ e ∈ sys.histories ∅, (ordered e.2).count (.nat 7) ≤ 1 := by
  refine System.exists_of_always ∅ (AcceptsFresh (.nat 7)) (by decide +kernel) ?_
  exact fun sys hrun hfresh => orderedOnce_of_acceptsFresh (by decide) (by decide) hrun hfresh

/-- The others change to view 1 before they deliver the first batch, which it proposes again. -/
def secondViewRun : List (Label Term) :=
  firstBatchRun ++ [.of 1 (.timer 0), .of 2 (.timer 0), .of 3 (.timer 0)] ++ Label.arrivals
    [(1, 1, 1), (1, 2, 0), (1, 3, 1), (0, 1, 0), (0, 2, 0), (0, 1, 0), (1, 1, 1), (2, 1, 3),
      (0, 0, 2), (0, 2, 0), (1, 0, 3), (1, 2, 0), (2, 0, 4), (2, 2, 2), (0, 0, 2), (0, 1, 0),
      (0, 2, 0), (1, 0, 3), (1, 1, 1), (1, 2, 0), (0, 0, 2), (0, 1, 0)]

/-- Replica 0 delivers the request a second time. -/
theorem not_orderedOnce_secondViewRun : ∃ sys,
    System.run symbolic ∅ (System.init symbolic fourReplicas) secondViewRun = some sys ∧
      (∀ l ∈ secondViewRun, ¬ l.Restarts) ∧
      secondViewRun.countP (Label.submits (.nat 7)) = 1 ∧
      ∃ e ∈ sys.histories ∅, (ordered e.2).count (.nat 7) = 2 := by
  decide +kernel

end Fabric.Sbft
