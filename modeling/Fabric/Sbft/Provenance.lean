import Fabric.Sbft.InFlight
import Fabric.Sbft.Sends

/-!
# Where the events of a history come from

Every event of a replica's history, apart from receptions, was added by one of its
steps, and the run went on from there. What a correct replica receives from another one
was sent by it, and the view changes of correct replicas in a new view were signed by
them.
-/

namespace Fabric.Sbft

open Fabric.Common List

variable {β : Type} {P : Primitives β}

/-! ### New views in messages -/

/-- The checkpoints in the view changes of a new view. -/
def NewView.checkpoints (P : Primitives β) (nv : NewView β) : List (Batch β) :=
  nv.vset.toList.filterMap fun e =>
    e.2.bind fun svc => (P.unmarshalViewChange svc.data).bind ViewChange.checkpoint

/-- The new view in a message. -/
def Msg.newView? : Msg β → Option (NewView β)
  | .newView nv => some nv
  | .hello h => h.newView
  | _ => none

variable {nv : NewView β} {vc : ViewChange β} {c : Core β} {x : Option (Subject β)} {cfg : Config}
  {m : Msg β}

theorem NewView.mem_checkpoints {r : ℕ} {svc : Signed β} {cp : Batch β}
    (hvset : nv.vset[r]? = some (some svc)) (hdec : P.unmarshalViewChange svc.data = some vc)
    (hcp : vc.checkpoint = some cp) :
    cp ∈ nv.checkpoints P ∧ batchSigs P cp ⊆ newViewSigs P nv := by
  have hmem := Std.ExtTreeMap.mem_toList_iff_getElem?_eq_some.mpr hvset
  refine ⟨mem_filterMap.mpr ⟨_, hmem, by simp [hdec, hcp]⟩, fun sig hsig => ?_⟩
  refine mem_append_left _ (mem_flatMap.mpr ⟨_, hmem, ?_⟩)
  simp [signedSigs, hdec, hcp, hsig]

theorem NewView.Justified.seqOf_le [DecidableEq β]
    {best cp : Batch β} (h : nv.Justified P cfg x best) (hcp : cp ∈ nv.checkpoints P) :
    seqOf P cp ≤ seqOf P best := by
  simp only [NewView.checkpoints, mem_filterMap, Option.bind_eq_some_iff] at hcp
  obtain ⟨⟨r, osvc⟩, hmem, svc, rfl, vc, hdec, hcp⟩ := hcp
  have hvset := Std.ExtTreeMap.mem_toList_iff_getElem?_eq_some.mp hmem
  obtain ⟨vc', ⟨svc', -, -, hvset', -, hdec', -⟩, cp', hcp', hle⟩ := h.exists_notAfter hvset
  obtain rfl : svc' = svc := by simpa [hvset'] using hvset
  obtain rfl : vc' = vc := by simpa [hdec'] using hdec
  obtain rfl : cp' = cp := by simpa [hcp'] using hcp
  exact hle

theorem NewView.Justified.best_mem [DecidableEq β]
    {best : Batch β} (h : nv.Justified P cfg x best) :
    best ∈ nv.checkpoints P := by
  obtain ⟨r, vc, ⟨svc, -, -, hvset, -, hdec, -⟩, hbest⟩ := h.exists_best
  exact (NewView.mem_checkpoints hvset hdec hbest).1

theorem Msg.newViewSigs_subset {src : ℕ} (h : m.newView? = some nv) :
    newViewSigs P nv ⊆ msgSigs P src m := by
  cases m with
  | newView nv' =>
    obtain rfl : nv' = nv := by simpa [newView?] using h
    exact List.Subset.refl _
  | hello hello =>
    have hnv : hello.newView = some nv := h
    simp [msgSigs, hnv]
  | _ => cases h

/-! ### The step that added an event -/

theorem Core.Sound.exists_digest (h : c.Sound P) (d : β) (hd : c.cur.digest = some d) :
    ∃ x, d = P.hash x := by
  cases hpp : c.cur.preprep with
  | none => simp [(h.cur.blank hpp).2.2.2.2.2] at hd
  | some pp =>
    obtain ⟨-, -, b, -, -, hdigest, -⟩ := h.cur.preprep pp hpp
    exact ⟨b.header, by simpa [hdigest, Batch.hash] using hd.symm⟩

theorem Core.Sound.unmarshalViewChange (h : c.Sound P) (w : ℕ) :
    P.unmarshalViewChange (P.marshalViewChange (c.viewChange P w)) = some (c.viewChange P w) := by
  refine P.unmarshalViewChange_marshalViewChange _ fun s hs d hd => ?_
  obtain rfl : s = c.cur.subject := by
    simp only [Core.viewChange, viewChangeFor, mem_append] at hs
    rcases hs with hs | hs <;> split_ifs at hs <;>
      first | exact mem_singleton.mp hs | cases hs
  obtain ⟨x, rfl⟩ := h.exists_digest d hd
  exact P.len_hash x

variable [DecidableEq β]

/-- One move of a replica: it receives a message or takes a step. -/
inductive Moves (P : Primitives β) : Core β → Core β → Prop
  | receive (c : Core β) (m : Msg β) (src : ℕ) : Moves P c (c.push [.recv m src])
  | act (c c' : Core β) (hstep : Step P c c') : Moves P c c'

/-- Any number of moves. -/
def Runs (P : Primitives β) : Core β → Core β → Prop := Relation.ReflTransGen (Moves P)

theorem Runs.suffix {c' : Core β} (h : Runs P c c') : c.trace <:+ c'.trace := by
  induction h with
  | refl => exact suffix_refl _
  | tail _ hmove ih =>
    refine ih.trans ?_
    cases hmove with
    | receive => exact suffix_cons _ _
    | act _ hstep => exact hstep.frame.2.2

theorem Alone.exists_step {id : ℕ} {r : Prop} {e : Event β} (h : Alone P cfg id r c)
    (hr : ¬ r) (he : e ∈ c.trace) (hrecv : ∀ m src, e ≠ .recv m src) (hstart : e ≠ .restart) :
    ∃ c₁ c₂, Alone P cfg id r c₁ ∧ Step P c₁ c₂ ∧ Added c₁.trace c₂.trace e ∧ Runs P c₂ c := by
  induction h with
  | start _ hc =>
    obtain ⟨active, rfl⟩ := hc.of_nil
    exact absurd (mem_singleton.mp he) hstart
  | receive c m src _ ih =>
    rcases mem_cons.mp he with heq | hold
    · exact absurd heq (hrecv m src)
    · obtain ⟨c₁, c₂, hc₁, hstep, hnew, hruns⟩ := ih hold
      exact ⟨c₁, c₂, hc₁, hstep, hnew, hruns.tail (.receive c m src)⟩
  | act c c' hc hstep ih =>
    rcases mem_or_added hstep.frame.2.2 he with hold | hnew
    · obtain ⟨c₁, c₂, hc₁, hstep₁, hnew, hruns⟩ := ih hold
      exact ⟨c₁, c₂, hc₁, hstep₁, hnew, hruns.tail (.act c c' hstep)⟩
    · exact ⟨c, c', hc, hstep, hnew, .refl⟩
  | restart _ _ _ _ hrst => exact absurd hrst hr

/-! ### Signed view changes -/

theorem Alone.signViewChange_mem {id : ℕ} {r : Prop} {data : β}
    (h : Alone P cfg id r c) (hr : ¬ r) (hdata : data ∈ signedData P c.trace)
    (hdec : P.unmarshalViewChange data = some vc) : .signViewChange vc ∈ c.trace := by
  obtain ⟨e, he, heq⟩ := mem_filterMap.mp hdata
  split at heq
  · -- a checkpoint is signed for a hash, which does not decode
    obtain ⟨c₁, c₂, hc₁, hstep, hnew, -⟩ := h.exists_step hr he (by simp) (by simp)
    obtain ⟨rfl, hattests⟩ := hstep.checkpoint_signed hnew
    have hpp : c₁.cur.preprep ≠ none := by
      intro hnone
      obtain ⟨hseq, -, -, hcommit, -⟩ := hc₁.sound.cur.blank hnone
      cases hattests with
      | quorum _ _ _ _ _ hvotes => simp [hcommit] at hvotes
      | resend hahead => exact absurd hahead.1 (by simp [hseq])
    obtain ⟨pp, hpp⟩ := Option.ne_none_iff_exists'.mp hpp
    obtain ⟨-, -, b, -, -, hdigest, -⟩ := hc₁.sound.cur.preprep pp hpp
    obtain rfl : b.hash P = data := by simpa [hdigest] using heq
    simp [Batch.hash, P.unmarshalViewChange_hash] at hdec
  · obtain ⟨c₁, c₂, hc₁, hstep, hnew, -⟩ := h.exists_step hr he (by simp) (by simp)
    obtain ⟨w, -, rfl, -⟩ := hstep.viewChange_signed hnew
    obtain rfl : P.marshalViewChange (c₁.viewChange P w) = data := by simpa using heq
    obtain rfl : c₁.viewChange P w = vc := by simpa [hc₁.sound.unmarshalViewChange w] using hdec
    exact he
  · cases heq

/-! ### Groups -/

namespace Group.Reachable

variable {cfg : Config} {B : Finset ℕ} {R : ℕ → Prop} {g : ℕ → Core β}
  {φ : Event β → List (Event β) → Prop}

/-- An invariant of the correct replicas that refers to all histories, without restarts. -/
theorem invariant {I : (ℕ → Core β) → Core β → Prop} (h : Reachable P cfg B R g)
    (hR : ∀ i, ¬ R i) (hφ : ∀ i < cfg.N, i ∉ B → Always φ (g i).trace)
    (hmono : ∀ g g' c, (∀ j, (g j).trace <:+ (g' j).trace) → I g c → I g' c)
    (hstart : ∀ g i c, Restarted P cfg i [] c → I g c)
    (hreceive : ∀ g c m src, I g c → I g (c.push [.recv m src]))
    (hact : ∀ g i c', Reachable P cfg B R g → (∀ j < cfg.N, j ∉ B → Always φ (g j).trace) →
      (∀ j < cfg.N, j ∉ B → I g (g j)) → i < cfg.N → i ∉ B → Sbft.Step P (g i) c' →
      Always φ c'.trace → I (Function.update g i c') c') :
    ∀ i < cfg.N, i ∉ B → I g (g i) := by
  induction h with
  | init g hg => exact fun i hi _ => hstart g i _ (hg i hi)
  | step g g' hg hstep ih =>
    have hφg : ∀ j < cfg.N, j ∉ B → Always φ (g j).trace := fun j hj hB =>
      (hφ j hj hB).suffix (hstep.trace_suffix j)
    have hold := ih hφg
    have hkeep : ∀ c, I g c → I g' c := fun c => hmono g g' c hstep.trace_suffix
    intro j hj hjB
    cases hstep with
    | receive i m src =>
      by_cases hji : j = i
      · subst hji
        rw [Function.update_self]
        exact hreceive _ _ m src (hkeep _ (hold j hj hjB))
      · rw [Function.update_of_ne hji]
        exact hkeep _ (hold j hj hjB)
    | act i c' _ _ hstep =>
      by_cases hji : j = i
      · subst hji
        have hφ' := hφ j hj hjB
        rw [Function.update_self] at hφ' ⊢
        exact hact g j c' hg hφg hold hj hjB hstep hφ'
      · rw [Function.update_of_ne hji]
        exact hkeep _ (hold j hj hjB)
    | restart i _ _ _ _ hRi => exact absurd hRi (hR i)

theorem carried (h : Reachable P cfg B R g) (hR : ∀ i, ¬ R i) {i r src : ℕ}
    (hi : i < cfg.N) (hiB : i ∉ B) (hrecv : .recv m src ∈ (g i).trace) (hm : m.newView? = some nv)
    (hcarries : nv.Carries P cfg r vc) (hrB : r ∉ B) :
    r < cfg.N ∧ .signViewChange vc ∈ (g r).trace := by
  obtain ⟨svc, -, -, hvset, hsig, hdec, -⟩ := hcarries
  obtain ⟨-, -, hgenuine⟩ := h.recv i hi hiB m src hrecv
  have hmem : (r, svc.data, svc.signature) ∈ newViewSigs P nv := by
    refine mem_append_left _ (mem_flatMap.mpr ⟨(r, some svc), ?_, ?_⟩)
    · exact Std.ExtTreeMap.mem_toList_iff_getElem?_eq_some.mpr hvset
    · simp [signedSigs]
  obtain ⟨hr, hdata⟩ :=
    (hgenuine r _ _ (Msg.newViewSigs_subset hm hmem) hsig).resolve_left hrB
  exact ⟨hr, (h.alone r hr).signViewChange_mem (hR r) hdata hdec⟩

end Group.Reachable

end Fabric.Sbft
