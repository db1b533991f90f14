import Fabric.Sbft.Equivocation

/-!
# Messages to oneself

A replica sends its votes to itself as well, over the network, and stops if such a message
has to wait. It never has to while the replica stays in the view in which it sent it.
-/

namespace Fabric.Sbft

open Fabric.Common List

variable {β : Type} {P : Primitives β} {m : Msg β} {c : Core β}

/-! ### Own messages in a history -/

section Histories

/-- A message that may have to wait. -/
def Msg.queues : Msg β → Bool
  | .preprepare _ | .prepare _ | .commit _ | .checkpoint _ => true
  | _ => false

/-- The position of a message. -/
def Msg.position? : Msg β → Option SeqView
  | .preprepare pp => pp.seq
  | .prepare p | .commit p => p.seq
  | _ => none

/-- The message an event sent to a replica. -/
def Event.sentTo? (id : ℕ) : Event β → Option (Msg β)
  | .send m dest => if dest = id then some m else none
  | _ => none

/-- The message an event received from a replica. -/
def Event.receivedFrom? (id : ℕ) : Event β → Option (Msg β)
  | .recv m src => if src = id then some m else none
  | _ => none

/-- The replica leaves its view, or a new view arrives, which may make it do so. -/
def Event.disturbs : Event β → Bool
  | .recv (.newView _) _ | .call .sendViewChange _ => true
  | _ => false

/-- The replica sent the message to itself, and nothing has disturbed it since. -/
def Undisturbed (id : ℕ) (m : Msg β) : List (Event β) → Prop
  | [] => False
  | e :: t => e.sentTo? id = some m ∨ e.disturbs = false ∧ Undisturbed id m t

instance decidableUndisturbed [DecidableEq β] (id : ℕ) (m : Msg β) :
    (t : List (Event β)) → Decidable (Undisturbed id m t)
  | [] => .isFalse fun h => h
  | e :: t =>
    have := decidableUndisturbed id m t
    inferInstanceAs (Decidable (e.sentTo? id = some m ∨ e.disturbs = false ∧ Undisturbed id m t))

/-- Own messages arrive undisturbed, preprepares are accepted in an active view, and nothing
overflows. -/
def OwnInOrder (P : Primitives β) (id : ℕ) (e : Event β) (t : List (Event β)) : Prop :=
  (∀ m ∈ e.receivedFrom? id, m.queues = true → Undisturbed id m t) ∧ AcceptsWhenActive P e t

instance [DecidableEq β] (id : ℕ) (e : Event β) (t : List (Event β)) :
    Decidable (OwnInOrder P id e t) :=
  inferInstanceAs (Decidable ((∀ m ∈ e.receivedFrom? id, _) ∧ _))

variable {id : ℕ} {m : Msg β} {e : Event β} {es t : List (Event β)}

theorem Event.sentTo?_eq_some : e.sentTo? id = some m ↔ e = .send m id := by
  cases e
  case send =>
    simp only [sentTo?, Option.ite_none_right_eq_some, Option.some.injEq, Event.send.injEq]
    exact and_comm
  all_goals simp [sentTo?]

theorem undisturbed_append (h : Undisturbed id m (es ++ t)) :
    .send m id ∈ es ∨ (∀ e ∈ es, e.disturbs = false) ∧ Undisturbed id m t := by
  induction es with
  | nil => exact .inr ⟨forall_mem_nil _, h⟩
  | cons e _ ih =>
    rcases h with hsent | ⟨hquiet, hrest⟩
    · exact .inl (Event.sentTo?_eq_some.mp hsent ▸ mem_cons_self)
    · rcases ih hrest with hmem | ⟨hes, ht⟩
      · exact .inl (mem_cons_of_mem e hmem)
      · exact .inr ⟨forall_mem_cons.mpr ⟨hquiet, hes⟩, ht⟩

theorem Undisturbed.ne_newView (h : Undisturbed id m t) {nv : NewView β} {src : ℕ}
    {u : List (Event β)} : t ≠ .recv (.newView nv) src :: u := by
  rintro rfl
  rcases h with hsent | ⟨hquiet, -⟩
  · cases Event.sentTo?_eq_some.mp hsent
  · cases hquiet

end Histories

/-! ### Reaching a position -/

/-- The replica is in an active view, and at the position of a message or past it. -/
def Core.Reaches (c : Core β) (m : Msg β) : Prop :=
  c.activeView = true ∧ ∀ sv ∈ m.position?, sv.seq ≤ c.cur.seq.seq ∧ sv.view ≤ c.view

theorem Core.Reaches.not_liesAhead (h : c.Reaches m) : ¬ c.LiesAhead m.position? := by
  rintro (hactive | ⟨sv, hsv, hlt⟩)
  · simp [h.1] at hactive
  · have := h.2 sv hsv
    omega

theorem Core.Reaches.not_defers (h : c.Reaches m) : ¬ c.Defers m := by
  have hahead := h.not_liesAhead
  cases m with
  | preprepare => exact fun hdefers => hahead hdefers.1
  | prepare p | commit p => exact hahead
  | checkpoint => exact fun hactive => hahead (.inl hactive)
  | request | viewChange | newView | hello | empty => exact fun hdefers => hdefers

theorem Core.Defers.queues (h : c.Defers m) : m.queues = true := by
  cases m <;> first | rfl | exact h.elim

theorem Core.Reaches.mono {c c' : Core β} (h : c.Reaches m)
    (hactive : c'.activeView = true) (hseq : c.cur.seq.seq ≤ c'.cur.seq.seq)
    (hview : c.view ≤ c'.view) : c'.Reaches m :=
  ⟨hactive, fun sv hsv => ⟨(h.2 sv hsv).1.trans hseq, (h.2 sv hsv).2.trans hview⟩⟩

theorem Core.reaches_cur (hactive : c.activeView = true)
    (hview : c.cur.seq.view ≤ c.view) (hm : ∀ sv ∈ m.position?, sv = c.cur.seq) : c.Reaches m := by
  refine ⟨hactive, fun sv hsv => ?_⟩
  rw [hm sv hsv]
  exact ⟨le_refl _, hview⟩

variable [DecidableEq β] {cfg : Config} {c c' : Core β} {m : Msg β}

theorem Step.reaches (h : Step P c c') (hc : c.Sound P) (hnear : c.Nearby P)
    (hφ : Always (InRange P) c'.trace)
    (hstay : ∀ e, Added c.trace c'.trace e → e.disturbs = false)
    (hhead : ∀ nv src t, c.trace ≠ .recv (.newView nv) src :: t) (hold : c.Reaches m) :
    c'.Reaches m := by
  have hgrow := InRange.view_le h hφ
  have hactive := hold.1
  cases h
  case accept haccepts =>
    rcases haccepts.advances hc hnear (InRange.last_lt hφ) with ⟨hidle, -⟩ | ⟨hsame, hlt⟩
    · simp [hactive] at hidle
    · exact hold.mono (hsame.trans hactive) hlt.le hgrow
  case helloNewView => exact hold.mono (by simp [hactive]) (le_refl _) hgrow
  case newViewNull hidle _ _ _ _ _ => simp [hactive] at hidle
  case jump hrecv =>
    obtain ⟨nv, src, t, ht⟩ := hrecv
    exact absurd ht (hhead nv src t)
  case sendViewChange w _ =>
    have hquiet := hstay (.call .sendViewChange ⟨w, c.activeView, c.cur⟩) (by simp)
    cases hquiet
  all_goals exact hold.mono hactive (le_refl _) hgrow

theorem Accepts.reaches {c₀ : Core β} {pp : Preprepare β} {sv : SeqView} {b : Batch β}
    {timeout : ℕ} (h : Accepts P c c₀ pp sv b) (hactive : c₀.activeView = true)
    (hm : ∀ p ∈ m.position?, p = sv) : (c₀.accept P pp sv b timeout).Reaches m := by
  refine Core.reaches_cur hactive ?_ hm
  simp [h.view_eq, h.seq_view]

theorem Step.reaches_sent (h : Step P c c') (hc : c.Sound P) (hview : c.cur.seq.view ≤ c.view)
    (hN : 3 * c.config.F + 1 ≤ c.config.N) (hid : c.id < c.config.N)
    (hφ : Always (AcceptsWhenActive P) c'.trace) {dest : ℕ} (hqueues : m.queues = true)
    (hnew : Added c.trace c'.trace (.send m dest)) : c'.Reaches m := by
  have hkept : c.Resends P → c'.view = c.view → c'.activeView = c.activeView → c'.cur = c.cur →
      (∀ sv ∈ m.position?, sv = c.cur.seq) → c'.Reaches m := by
    intro hahead hview' hactive hcur hm
    refine Core.reaches_cur (hactive.trans hahead.2) ?_ ?_
    · rwa [hcur, hview']
    · rwa [hcur]
  cases m with
  | preprepare =>
    cases h.preprepare_sent hnew with
    | accept _ _ _ _ haccepts hc' =>
      subst hc'
      refine haccepts.reaches (AcceptsWhenActive.active hφ (suffix_refl _)) ?_
      simp [Msg.position?, haccepts.seq_eq]
    | resend hahead hpp hview' hactive hcur =>
      -- the request is ahead of the chain, hence was not dropped
      have hseq := hc.preprep_seq hpp (.inl (Nat.ne_zero_of_lt hahead.1))
      exact hkept hahead hview' hactive hcur (by simp [Msg.position?, hseq])
  | prepare =>
    cases h.prepare_sent hnew with
    | accept _ _ _ _ _ haccepts hc' _ hsub =>
      subst hc' hsub
      refine haccepts.reaches (AcceptsWhenActive.active hφ (suffix_refl _)) ?_
      simp [Msg.position?]
    | resend _ _ hahead hsub hview' hactive hcur =>
      subst hsub
      exact hkept hahead hview' hactive hcur (by simp [Msg.position?])
  | commit =>
    obtain ⟨rfl, hseq, -, -, hview', hactive, hcommits⟩ := h.commit_sent hnew
    refine Core.reaches_cur (hactive.trans (hcommits.activeView hN hid)) ?_ ?_
    · rwa [hseq, hview']
    · simp [Msg.position?, hseq]
  | checkpoint =>
    obtain ⟨-, -, hactive, -⟩ := h.checkpoint_sent hnew
    exact ⟨hactive, by simp [Msg.position?]⟩
  | request | viewChange | newView | hello | empty => cases hqueues

theorem Alone.reaches {id : ℕ} {r : Prop} (h : Alone P cfg id r c) (hr : ¬ r)
    (hφ : Always (AcceptsWhenActive P) c.trace)
    (hnv : TimelyViews P cfg c.trace) (hN : 3 * cfg.F + 1 ≤ cfg.N) (hid : id < cfg.N)
    (hqueues : m.queues = true)
    (hm : Undisturbed id m c.trace) : c.Reaches m := by
  induction h with
  | start _ hc =>
    obtain ⟨active, rfl⟩ := hc.of_nil
    rcases hm with hsent | ⟨-, hm⟩
    · cases hsent
    · exact hm.elim
  | receive _ _ _ _ ih =>
    rcases hm with hsent | ⟨-, hm⟩
    · cases hsent
    · exact ih hφ.2 (hnv.suffix (suffix_cons _ _)) hm
  | act c c' hc hstep ih =>
    have hsuffix := hstep.frame.2.2
    have hφc := hφ.suffix hsuffix
    have hrange := hφ.mono fun _ _ _ h => h.2
    have hnvc := hnv.suffix hsuffix
    obtain ⟨hcfg, hcid⟩ := hc.frame
    obtain ⟨es, hes⟩ := hstep.frame.2.2
    rw [← hes] at hm
    rcases undisturbed_append hm with hsent | ⟨hquiet, hm⟩
    · have hnew : Added c.trace c'.trace (.send m id) := by
        rw [← hes]
        exact (added_append (suffix_refl _)).mpr (.inl hsent)
      exact hstep.reaches_sent hc.sound (hc.cur_view_le hr (hrange.suffix hsuffix))
        (by rwa [hcfg]) (by rwa [hcfg, hcid]) hφ hqueues hnew
    · refine hstep.reaches hc.sound (hc.nearby hr hnvc) hrange ?_
        (fun nv src t => hm.ne_newView) (ih hφc hnvc hm)
      intro e he
      rw [← hes] at he
      exact hquiet e (by simpa using he)
  | restart _ _ _ _ hrst => exact absurd hrst hr

/-- No replica stops because of a message of its own, without restarts and with at most `F`
Byzantine replicas, if own messages arrive before the view is left. -/
theorem no_ownBacklog_of_ownInOrder {B : Finset ℕ} {ls : List (Label β)} {l : Label β}
    {sys sys' : System β} (hN : 3 * cfg.F + 1 ≤ cfg.N) (hB : B.card ≤ cfg.F)
    (hrestart : ∀ l ∈ ls, ¬ l.Restarts)
    (hrun : System.run P B (System.init P cfg) ls = some sys)
    (hstep : sys.step P B l = some sys')
    (hφ : ∀ e ∈ sys'.histories B, Always (OwnInOrder P e.1) e.2) :
    sys.panic? P B l ≠ some .backlogOwnMessage := by
  intro hpanic
  obtain ⟨g, hg, hhist, hi, hiB, m, t, htrace, hdefers⟩ := run_stops hrun hstep hpanic
  have hR := not_restarted hrestart
  have halone := hg.alone _ hi
  have hit := hφ _ ((hhist l.replica _).mpr ⟨hi, hiB, rfl⟩)
  rw [halone.frame.2] at htrace
  -- the message has just arrived undisturbed
  have hown : OwnInOrder P l.replica (.recv m l.replica) t :=
    hit.at (htrace ▸ suffix_refl _)
  have hm : Undisturbed l.replica m (g l.replica).trace := by
    rw [htrace]
    refine .inr ⟨?_, hown.1 m (by simp [Event.receivedFrom?]) hdefers.queues⟩
    cases m <;> first | rfl | cases hdefers.queues
  exact (halone.reaches (hR _) (hit.mono fun _ _ _ h => h.2) (hg.timely hR hB hi hiB) hN hi
    hdefers.queues hm).not_defers hdefers

/-- Replica 1 accepts the first batch and votes for it; it may then give up on view 0. -/
def voteRun (timeout : Bool) : List (Label Term) :=
  [.of 0 (.request (.nat 7)), .of 0 (.deliver 0 0), .of 1 (.deliver 0 1)] ++
    if timeout then [.of 1 (.timer 0)] else []

theorem no_ownBacklog_voteRun : ∃ sys,
    System.run symbolic ∅ (System.init symbolic fourReplicas) (voteRun false) = some sys ∧
      (∃ sys', sys.step symbolic ∅ (.of 1 (.deliver 1 0)) = some sys' ∧
        ∃ e ∈ sys'.histories ∅, e.1 = 1 ∧ ∃ ev ∈ e.2, ev.receivedFrom? 1 ≠ none) ∧
      sys.panic? symbolic ∅ (.of 1 (.deliver 1 0)) ≠ some .backlogOwnMessage := by
  refine exists_of_checked (fun sys : System Term =>
    ∃ sys', sys.step symbolic ∅ (.of 1 (.deliver 1 0)) = some sys' ∧
      (∃ e ∈ sys'.histories ∅, e.1 = 1 ∧ ∃ ev ∈ e.2, ev.receivedFrom? 1 ≠ none) ∧
      ∀ e ∈ sys'.histories ∅, Always (OwnInOrder symbolic e.1) e.2) (by decide +kernel) ?_
  rintro sys hrun ⟨sys', hstep, hreceived, hφ⟩
  exact ⟨⟨sys', hstep, hreceived⟩,
    no_ownBacklog_of_ownInOrder (by decide) (by decide) (by decide) hrun hstep hφ⟩

/-- Replica 1 gives up on view 0 before its own vote arrives. -/
theorem ownBacklog_voteRun : ∃ sys,
    System.run symbolic ∅ (System.init symbolic fourReplicas) (voteRun true) = some sys ∧
      sys.panic? symbolic ∅ (.of 1 (.deliver 1 0)) = some .backlogOwnMessage := by
  decide +kernel

end Fabric.Sbft
