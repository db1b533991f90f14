import Fabric.Gossip.Comm

/-!
# Blacklisted peers

The blacklist is compared with the PKI id of a peer while the peer is authenticated, and the
connection is registered later, under another lock. A peer that was authenticated before it is
blacklisted can be registered afterwards.
-/

namespace Fabric.Gossip

open Fabric.Common Option

namespace Comm

variable {c c' : Comm} {l : Label} {pkiID : Bytes}

/-- A connection of the PKI id is authenticated, and is going to be registered. -/
def Establishing (c : Comm) (pkiID : Bytes) : Prop :=
  pkiID ∈ c.authenticated ∨ pkiID ∈ c.store.pendings.map Connection.pkiID

instance (c : Comm) : DecidablePred c.Establishing := fun _ => inferInstanceAs (Decidable (_ ∨ _))

/-- A peer is blacklisted only while none of its connections is being established. -/
def NoneEstablishing (c : Comm) : Label → Prop
  | .blackListPKIid pkiID => ¬ c.Establishing pkiID
  | _ => True

instance (c : Comm) : DecidablePred c.NoneEstablishing := fun l => by
  unfold NoneEstablishing
  split <;> infer_instance

/-- Nothing is left of a PKI id. -/
def Shut (c : Comm) (pkiID : Bytes) : Prop :=
  (∀ key conn, c.store.entry key = some conn → conn.pkiID ≠ pkiID) ∧ ¬ c.Establishing pkiID

theorem not_barred_of_authenticate {remote : Remote}
    (h : c.authenticateRemotePeer remote = some (.authenticated pkiID)) : ¬ c.Barred pkiID := by
  cases remote <;> grind [authenticateRemotePeer, isPKIblackListed, Barred]

theorem establishing_of_act (h : c.act l = some c') (hest : c'.Establishing pkiID) :
    c.Establishing pkiID ∨ ¬ c.Barred pkiID := by
  rcases hest with hauth | hpending
  · rcases authenticated_of_act h pkiID hauth with hauth | ⟨remote, hremote⟩
    · exact .inl (.inl hauth)
    · exact .inr (not_barred_of_authenticate hremote)
  · rcases store_of_act h with heq | ⟨sl, hdrives, hstep⟩
    · exact .inl (.inr (heq ▸ hpending))
    · obtain ⟨conn, hconn, rfl⟩ := List.mem_map.mp hpending
      rcases ConnStore.pending_of_step hstep hconn with hold | ⟨id, lock, rfl⟩
      · exact .inl (.inr (List.mem_map_of_mem hold))
      · cases l <;> simp [drives] at hdrives
        exact .inr (not_barred_of_authenticate hdrives.1)

theorem Shut.step (h : c.Shut pkiID) (hbarred : c.Barred pkiID) (hact : c.act l = some c') :
    c'.Shut pkiID := by
  refine ⟨?_, fun hest => (establishing_of_act hact hest).elim h.2 (absurd hbarred)⟩
  rintro key conn hentry rfl
  rcases entry_of_act hact hentry with hold | ⟨rfl, rfl⟩ | ⟨id, -, -, hcall, -⟩
  · exact h.1 key conn hold rfl
  · simp only [act, ite_none_right_eq_some] at hact
    exact h.2 (.inl (List.contains_iff_mem.mp hact.1))
  · exact h.2 (.inr (List.mem_map_of_mem (List.mem_filterMap.mpr ⟨_, hcall, rfl⟩)))

theorem shut_of_blackListPKIid
    (hkeyed : ∀ key conn, c.store.entry key = some conn → conn.pkiID = key)
    (hnone : ¬ c.Establishing pkiID)
    (h : c.act (.blackListPKIid pkiID) = some c') : c'.Shut pkiID := by
  simp only [act, ite_none_right_eq_some, onStore, map_eq_some_iff] at h
  obtain ⟨-, store, hstep, rfl⟩ := h
  refine ⟨?_, ?_⟩
  · obtain rfl := Option.some.inj (ite_none_left_eq_some.mp hstep).2
    rintro key conn hentry rfl
    grind [ConnStore.entry_closeByPKIid]
  · rintro (hauth | hpending)
    · exact hnone (.inl hauth)
    · obtain ⟨conn, hconn, rfl⟩ := List.mem_map.mp hpending
      rcases ConnStore.pending_of_step hstep hconn with hold | ⟨id, lock, heq⟩
      · exact hnone (.inr (List.mem_map_of_mem hold))
      · cases heq

/-- Nothing is left of those who are blacklisted. -/
structure Final (c : Comm) : Prop where
  keyed : ∀ key conn, c.store.entry key = some conn → conn.pkiID = key
  shut : ∀ pkiID, c.Barred pkiID → c.Shut pkiID

theorem final_newComm : Final newComm := by
  refine ⟨fun key conn hentry => ?_, fun pkiID hbarred => ?_⟩
  · simp [newComm, ConnStore.entry, ConnStore.newConnStore] at hentry
  · simp [newComm, Barred] at hbarred

theorem Final.step (h : Final c) (hnone : c.NoneEstablishing l) (hstep : c.step l = some c') :
    Final c' := by
  have hact := act_of_step hstep
  refine ⟨fun key conn hentry => ?_, fun pkiID hbarred => ?_⟩
  · rcases entry_of_act hact hentry with hold | ⟨-, rfl⟩ | ⟨id, -, hkey, -⟩
    · exact h.keyed key conn hold
    · rfl
    · exact hkey
  rcases (barred_of_act hact).1 pkiID hbarred with hbarred | rfl
  · exact (h.shut pkiID hbarred).step hbarred hact
  · exact shut_of_blackListPKIid h.keyed hnone hact

theorem blackListed_of_run {labels : List Label} (h : pkiID ∈ c.blackListedPKIIDs)
    (hrun : runSteps step c labels = some c') : pkiID ∈ c'.blackListedPKIIDs := by
  refine runSteps_invariant (I := fun c => pkiID ∈ c.blackListedPKIIDs) h ?_
    (along_of_forall fun _ _ => trivial) hrun
  intro c l c' _ hmem hstep
  exact (barred_of_act (act_of_step hstep)).2 hmem

/-- If peers are blacklisted only while none of their connections is being established, no
connection of the peer is in the store once `BlackListPKIid` has returned. -/
theorem blackList_final (done rest : List Label)
    (halong : Along step NoneEstablishing newComm (done ++ rest))
    (hdone : runSteps step newComm done = some c) (hlisted : pkiID ∈ c.blackListedPKIIDs)
    (hrest : runSteps step c rest = some c') :
    ∀ key conn, c'.store.entry key = some conn → conn.pkiID ≠ pkiID := by
  have hrun : runSteps step newComm (done ++ rest) = some c' := by
    rw [runSteps_append, hdone]
    exact hrest
  have hfinal := runSteps_invariant final_newComm
    (fun c l c' hnone hfinal hstep => hfinal.step hnone hstep) halong hrun
  exact (hfinal.shut pkiID (.inl (blackListed_of_run hlisted hrest))).1

/-- A peer that is being served is blacklisted, and connects again. -/
theorem blackList_final_reconnect : ∃ c c', runSteps step newComm
      [.accept, .authenticate (.authenticated [7]), .register [7], .blackListPKIid [7],
        .blackListed] = some c ∧ [7] ∈ c.blackListedPKIIDs ∧
    runSteps step c [.accept, .authenticate (.authenticated [7]), .streamEnds ⟨0, [7]⟩,
      .close [7] (some ⟨0, [7]⟩)] = some c' ∧
    ∀ key conn, c'.store.entry key = some conn → conn.pkiID ≠ [7] := by
  have hdone : (runSteps step newComm
      [.accept, .authenticate (.authenticated [7]), .register [7], .blackListPKIid [7],
        .blackListed]).map (fun c => (c.blackListedPKIIDs, (runSteps step c [.accept,
          .authenticate (.authenticated [7]), .streamEnds ⟨0, [7]⟩,
          .close [7] (some ⟨0, [7]⟩)]).isSome)) = some ([[7]], true) := by
    decide +kernel
  obtain ⟨c, hc, hend⟩ := map_eq_some_iff.mp hdone
  simp only [Prod.mk.injEq] at hend
  obtain ⟨c', hc'⟩ := isSome_iff_exists.mp hend.2
  have hlisted : [7] ∈ c.blackListedPKIIDs := by simp [hend.1]
  exact ⟨c, c', hc, hlisted, hc', blackList_final _ _ (by decide +kernel) hc hlisted hc'⟩

/-- A stream is authenticated, its peer is blacklisted, and the stream is registered. -/
theorem blackList_overtaken : ∃ c c', runSteps step newComm
      [.accept, .authenticate (.authenticated [7]), .blackListPKIid [7], .blackListed] = some c ∧
    [7] ∈ c.blackListedPKIIDs ∧ runSteps step c [.register [7]] = some c' ∧
    ¬ ∀ key conn, c'.store.entry key = some conn → conn.pkiID ≠ [7] := by
  have hdone : (runSteps step newComm
      [.accept, .authenticate (.authenticated [7]), .blackListPKIid [7], .blackListed]).map
        (fun c => (c.blackListedPKIIDs,
          (runSteps step c [.register [7]]).map fun c' => c'.store.entry [7])) =
      some ([[7]], some (some ⟨0, [7]⟩)) := by
    decide +kernel
  obtain ⟨c, hc, hend⟩ := map_eq_some_iff.mp hdone
  simp only [Prod.mk.injEq] at hend
  obtain ⟨c', hc', hentry⟩ := map_eq_some_iff.mp hend.2
  refine ⟨c, c', hc, by simp [hend.1], hc', fun hnone => ?_⟩
  exact hnone [7] ⟨0, [7]⟩ hentry rfl

end Comm

end Fabric.Gossip
