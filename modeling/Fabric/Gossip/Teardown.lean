import Fabric.Gossip.Comm

/-!
# Teardowns

A teardown closes whatever connection the store has for a PKI id. This is the connection whose
stream has ended, or that could not send, unless another one has been registered meanwhile.
-/

namespace Fabric.Gossip

open Fabric.Common Option ConnStore

namespace Comm

variable {c c' : Comm} {l : Label} {x : Bytes × Connection} {key : Bytes} {conn : Connection}

/-- A teardown closes and removes no connection but its own. -/
def SparesOthers (c : Comm) (l : Label) : Prop :=
  ∀ key conn, l = .close key (some conn) → ∀ c', c.step l = some c' → ∀ other, other ≠ conn →
    (other ∈ c'.store.closed → other ∈ c.store.closed) ∧
    ∀ key', c.store.entry key' = some other → c'.store.entry key' = some other

/-- A connection is registered only when no teardown is owed for its PKI id. -/
def Settled (c : Comm) : Label → Prop
  | .register pkiID => ∀ x ∈ c.owed, x.1 ≠ pkiID
  | .advance (.register id (.conn conn)) =>
    c.store.entry id.key = none → ∀ x ∈ c.owed, x.1 ≠ conn.pkiID
  | _ => True

instance (c : Comm) : DecidablePred c.Settled := fun l => by
  unfold Settled
  split <;> infer_instance

/-- An entry, where a teardown is owed, is the connection that it is owed for. -/
def Own (c : Comm) : Prop :=
  ∀ x ∈ c.owed, ∀ conn, c.store.entry x.1 = some conn → conn = x.2

theorem own_newComm : Own newComm := by
  intro x hx
  simp [owed, newComm, granted, newConnStore] at hx

theorem entry_of_owed (h : c.act l = some c') (hx : x ∈ c'.owed) :
    x ∈ c.owed ∨ ∀ conn, c'.store.entry x.1 = some conn → conn = x.2 := by
  rcases owed_of_act h hx with hx | ⟨pkiID, rfl, rfl⟩ | hx
  · exact .inl hx
  · simp only [act, ite_none_right_eq_some, onStore, map_eq_some_iff] at h
    obtain ⟨-, store, hstep, rfl⟩ := h
    obtain rfl := Option.some.inj (ite_none_left_eq_some.mp hstep).2
    refine .inr fun conn hentry => ?_
    rw [entry_onConnected, if_pos rfl] at hentry
    exact (Option.some.inj hentry).symm
  · rcases store_of_act h with heq | ⟨sl, -, hstep⟩
    · exact .inl (List.mem_append_right _ (heq ▸ hx))
    · exact (granted_of_step hstep hx).imp (List.mem_append_right _) id

theorem Own.step (h : Own c) (hsettled : c.Settled l) (hstep : c.step l = some c') : Own c' := by
  have hact := act_of_step hstep
  intro x hx conn hentry
  rcases entry_of_owed hact hx with hx | hnew
  · rcases entry_of_act hact hentry with hold | ⟨rfl, -⟩ | ⟨id, rfl, hkey, -, hnone⟩
    · exact h x hx conn hold
    · exact absurd rfl (hsettled x hx)
    · exact absurd hkey.symm (hsettled hnone x hx)
  · exact hnew conn hentry

theorem Own.spares (h : Own c) : c.SparesOthers l := by
  rintro key conn rfl c' hstep other hne
  have hact := act_of_step hstep
  simp only [act, ite_none_right_eq_some, onStore, map_eq_some_iff] at hact
  obtain ⟨hmem, store, hstore, rfl⟩ := hact
  obtain rfl := Option.some.inj (ite_none_left_eq_some.mp hstore).2
  have howed : (key, conn) ∈ c.owed := List.mem_append_left _
    (List.mem_append_right _ (List.mem_filterMap.mpr ⟨_, hmem, rfl⟩))
  have hown := h _ howed
  refine ⟨fun hclosed => ?_, fun key' hentry => ?_⟩
  · unfold closeByPKIid at hclosed
    grind [close, delete]
  · grind [entry_closeByPKIid]

/-- If connections are registered only when no teardown is owed for their PKI id, teardowns close
and remove no other connection. -/
theorem spares_others_of_settled (labels : List Label)
    (halong : Along step Settled newComm labels) : Along step SparesOthers newComm labels :=
  along_of_invariant own_newComm (fun _ _ _ hsettled h hstep => h.step hsettled hstep)
    (fun _ _ _ h => h.spares) halong

/-- A peer connects, its stream ends, and after the teardown it connects again. -/
def connectsAgain : List Label :=
  [.accept, .authenticate (.authenticated [7]), .register [7], .streamEnds ⟨0, [7]⟩,
    .close [7] (some ⟨0, [7]⟩), .accept, .authenticate (.authenticated [7]), .register [7],
    .send (some [7]), .advance (.getConnection (some [7])), .advance (.findLock (some [7])),
    .advance (.acquire (some [7]) 0), .advance (.lookup (some [7]) 0),
    .enqueue (some [7]) ⟨1, [7]⟩, .sendFails ⟨some [7], ⟨1, [7]⟩⟩,
    .disconnect [7] (some ⟨1, [7]⟩), .close [7] (some ⟨1, [7]⟩)]

theorem spares_others_of_settled_again : (runSteps step newComm connectsAgain).isSome ∧
    Along step SparesOthers newComm connectsAgain :=
  ⟨by decide +kernel, spares_others_of_settled connectsAgain (by decide +kernel)⟩

/-- A new stream replaces the first one of a peer, whose teardown closes the new one. -/
theorem not_spares_others_reconnected : ¬ Along step SparesOthers newComm
    ([.accept, .authenticate (.authenticated [7]), .register [7], .accept,
      .authenticate (.authenticated [7]), .register [7], .streamEnds ⟨0, [7]⟩] ++
      [.close [7] (some ⟨0, [7]⟩)]) := by
  have hrun : (runSteps step newComm
      [.accept, .authenticate (.authenticated [7]), .register [7], .accept,
        .authenticate (.authenticated [7]), .register [7], .streamEnds ⟨0, [7]⟩]).map
        (fun c => (c.store.entry [7], (c.step (.close [7] (some ⟨0, [7]⟩))).map
          fun c' => c'.store.entry [7])) = some (some ⟨1, [7]⟩, some none) := by
    decide +kernel
  obtain ⟨c, hc, hend⟩ := map_eq_some_iff.mp hrun
  simp only [Prod.mk.injEq] at hend
  obtain ⟨hentry, hclose⟩ := hend
  obtain ⟨c', hc', hgone⟩ := map_eq_some_iff.mp hclose
  intro halong
  obtain ⟨-, hlast⟩ := (along_append hc).mp halong
  have hspared := (hlast.1 [7] ⟨0, [7]⟩ rfl c' hc' ⟨1, [7]⟩ (by decide)).2 [7] hentry
  rw [hgone] at hspared
  cases hspared

end Comm

end Fabric.Gossip
