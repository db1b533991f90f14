import Fabric.Common.Program
import Fabric.Gossip.ConnStore

/-!
# Connections that are left open

A connection that has been made is closed, or is the entry of its PKI id, or a call of
`getConnection` still holds it. Three steps break this: a call drops what it has created because
the store is closing, a connection that was made for an unknown PKI id replaces the entry of the
id it turns out to have, and a connection is registered although `shutdown` has begun.
-/

namespace Fabric.Gossip.ConnStore

open Fabric.Common List Option

variable {cs cs' : ConnStore} {c conn : Connection} {call : Call} {key pkiID : Bytes}
  {id : PKIidType} {created : Created} {l : Label}

/-- No call is in progress. -/
def Quiet (cs : ConnStore) : Prop := (∀ call ∈ cs.calls, call.isReturned) ∧ cs.ranges = []

/-- The step drops no connection, replaces no entry of an unknown PKI id, and registers nothing once
`shutdown` has begun. -/
def Keeps (cs : ConnStore) : Label → Prop
  | .advance (.checkClosing _ (.conn _)) => cs.isClosing = false
  | .advance (.register pkiID (.conn c)) =>
    cs.entry pkiID.key = none → cs.isClosing = false ∧ cs.entry c.pkiID = none
  | .onConnected _ => cs.isClosing = false
  | _ => True

instance : DecidablePred Quiet := fun _ => inferInstanceAs (Decidable (_ ∧ _))

instance (cs : ConnStore) : DecidablePred cs.Keeps := fun l => by
  unfold Keeps
  split <;> infer_instance

/-- The connection is closed, is the entry of its PKI id, or is in the hands of a call. -/
def Live (cs : ConnStore) (c : Connection) : Prop :=
  c ∈ cs.closed ∨ cs.entry c.pkiID = some c ∨ c ∈ cs.pendings

/-- A call of `shutdown` is going to close the entry of the key. -/
def Closes (cs : ConnStore) (key : Bytes) : Prop :=
  ∃ r ∈ cs.ranges, r.ranging ∧ key ∈ r.left ∨ key ∈ r.closers

structure Sound (cs : ConnStore) : Prop where
  keyed : ∀ key c, cs.entry key = some c → c.pkiID = key
  live : ∀ c ∈ cs.made, cs.Live c
  covered : cs.isClosing → ∀ key c, cs.entry key = some c → cs.Closes key

theorem keyed_of_step (h : ∀ key c, cs.entry key = some c → c.pkiID = key)
    (hstep : cs.step l = some cs') : ∀ key c, cs'.entry key = some c → c.pkiID = key := by
  intro key c hentry
  rcases entry_of_step hstep hentry with hold | ⟨-, rfl⟩ | ⟨id, -, hkey, -⟩
  · exact h key c hold
  · rfl
  · exact hkey

theorem mem_pendings_without (h : c ∈ cs.pendings) :
    call.pending = some c ∨ c ∈ (cs.without call).pendings := by
  obtain ⟨other, hother, hc⟩ := mem_filterMap.mp h
  by_cases heq : other = call
  · exact .inl (heq ▸ hc)
  · exact .inr (mem_filterMap.mpr ⟨other, (mem_erase_of_ne heq).mpr hother, hc⟩)

theorem closeConn_eq (h : ∀ key c, cs.entry key = some c → c.pkiID = key) :
    cs.closeConn id = cs.closeByPKIid id.key := by
  unfold closeConn closeByPKIid
  split
  case h_1 hconn => rw [h _ _ hconn]
  case h_2 => rfl

namespace Live

variable (h : cs.Live c)

include h

theorem close : (cs.close conn).Live c := by
  rcases h with h | h
  · exact .inl (.tail _ h)
  · exact .inr h

theorem closeByPKIid : (cs.closeByPKIid pkiID).Live c := by
  unfold ConnStore.closeByPKIid
  grind [Live, pendings, ConnStore.close, delete, entry_delete, entry_close]

theorem put (hkey : ∀ c, cs.entry key = some c → c ∈ cs.closed) : (cs.put key conn).Live c := by
  rcases h with h | h | h
  · exact .inl h
  · by_cases heq : c.pkiID = key
    · exact .inl (hkey c (heq ▸ h))
    · exact .inr (.inl (by rwa [entry_put, if_neg heq]))
  · exact .inr (.inr h)

theorem resume : (cs.resume call).Live c := by
  rcases h with h | h | h
  · exact .inl h
  · exact .inr (.inl h)
  · exact .inr (.inr (mem_pendings_resume.mpr (.inr h)))

theorem without (call : Call) : (cs.without call).Live c ∨ call.pending = some c := by
  rcases h with h | h | h
  · exact .inl (.inl h)
  · exact .inl (.inr (.inl h))
  · exact (mem_pendings_without h).symm.imp (fun h => .inr (.inr h)) id

end Live

theorem live_settle (h : cs.Live c ∨ created.conn? = some c)
    (hkeeps : ∀ c, created = .conn c → cs.entry id.key = none → cs.entry c.pkiID = none) :
    (cs.settle id created).Live c := by
  unfold settle
  cases created with
  | conn c' =>
    split
    case h_1 =>
      rcases h with h | h
      · exact h.close.resume
      obtain rfl := Option.some.inj h
      exact .inl (.head _)
    case h_2 hnone =>
      have hfree := hkeeps c' rfl hnone
      rcases h with h | h
      · exact (h.put (by simp [hfree])).resume
      obtain rfl := Option.some.inj h
      exact .inr (.inl (by simp))
  | _ =>
    have h := h.resolve_right (by simp [Created.conn?])
    split
    case h_1 => exact h.resume
    case h_2 => first | exact h.resume | exact h

theorem made_settle : (cs.settle id created).made = cs.made ∧
    (cs.settle id created).isClosing = cs.isClosing := by
  unfold settle
  grind [resume, put, close]

theorem made_onConnected : (cs.onConnected pkiID).made = cs.made ++ [cs.newConnection pkiID] ∧
    (cs.onConnected pkiID).isClosing = cs.isClosing := by
  unfold onConnected
  split <;> exact ⟨rfl, rfl⟩

theorem Live.onConnected (h : cs.Live c) : (cs.onConnected pkiID).Live c := by
  unfold ConnStore.onConnected
  split
  case h_1 c' hc' =>
    have h : Live { cs.close c' with made := cs.made ++ [cs.newConnection pkiID] } c := h.close
    refine h.put fun c hc => ?_
    obtain rfl := Option.some.inj (hc'.symm.trans hc)
    exact .head _
  case h_2 hnone =>
    refine h.put fun c hc => ?_
    cases hnone.symm.trans hc

theorem live_of_step (h : Sound cs) (hkeeps : cs.Keeps l) (hstep : cs.step l = some cs') :
    ∀ c ∈ cs'.made, cs'.Live c := by
  cases l with
  | advance call =>
    obtain ⟨hmem, hgoes⟩ := goes_of_step hstep
    cases hgoes with
    | register =>
      intro c hc
      rw [made_settle.1] at hc
      refine live_settle ?_ fun c hc hnone => ?_
      · exact (h.live c hc).without _
      · subst hc
        exact (hkeeps hnone).2
    | returned =>
      exact fun c hc => ((h.live c hc).without _).resolve_right (by simp [Call.pending])
    | on call _ _ _ hpending =>
      intro c hc
      rcases (h.live c hc).without call with h | hc
      · exact h.resume
      · refine .inr (.inr (mem_pendings_resume.mpr (.inl ?_)))
        rcases hpending with hsame | ⟨hclosing, id, created, rfl, -⟩
        · rw [hsame, hc]
        · cases created with
          | conn => exact absurd (hkeeps.symm.trans hclosing) (by simp)
          | _ => cases hc
  | create =>
    obtain rfl := create_of_step hstep
    intro c hc
    rcases mem_append.mp hc with hc | hc
    · exact (((h.live c hc).without _).resolve_right (by simp [Call.pending])).resume
    · exact .inr (.inr (mem_pendings_resume.mpr (.inl (mem_toList.mp hc))))
  | onConnected =>
    simp only [step, ite_none_left_eq_some] at hstep
    obtain rfl := Option.some.inj hstep.2
    intro c hc
    rcases mem_append.mp (made_onConnected.1 ▸ hc) with hc | hc
    · exact (h.live c hc).onConnected
    · obtain rfl := mem_singleton.mp hc
      exact .inr (.inl (by simp [newConnection]))
  | closeConn =>
    simp only [step, closeConn_eq h.keyed] at hstep
    grind [Sound, Live.closeByPKIid, closeByPKIid, delete, close]
  | _ =>
    simp only [step] at hstep
    grind [Sound, Live, Live.resume, Live.closeByPKIid, closeByPKIid, delete, close, reRange,
      entry, pendings, resume]

theorem Closes.reRange (h : cs.Closes key) {r r' : Range}
    (hsub : r.ranging ∧ key ∈ r.left ∨ key ∈ r.closers →
      r'.ranging ∧ key ∈ r'.left ∨ key ∈ r'.closers) : (cs.reRange r r').Closes key := by
  obtain ⟨other, hother, hkey⟩ := h
  by_cases heq : other = r
  · exact ⟨r', .head _, hsub (heq ▸ hkey)⟩
  · exact ⟨other, .tail _ ((mem_erase_of_ne heq).mpr hother), hkey⟩

@[simp] theorem isClosing_closeByPKIid : (cs.closeByPKIid pkiID).isClosing = cs.isClosing := by
  unfold closeByPKIid
  split <;> rfl

theorem closes_closeByPKIid (h : ∀ key c, cs.entry key = some c → key ≠ pkiID → cs.Closes key)
    (hentry : (cs.closeByPKIid pkiID).entry key = some c) :
    (cs.closeByPKIid pkiID).Closes key := by
  by_cases heq : key = pkiID
  · simp [heq] at hentry
  rw [entry_closeByPKIid, if_neg heq] at hentry
  obtain ⟨r, hr, hkey⟩ := h key c hentry heq
  unfold closeByPKIid
  split
  case h_1 => exact ⟨_, mem_map_of_mem hr, by simpa [mem_erase_of_ne heq] using hkey⟩
  case h_2 => exact ⟨r, hr, hkey⟩

theorem Closes.settle (h : cs.Closes key) : (cs.settle id created).Closes key := by
  obtain ⟨r, hr, hkey⟩ := h
  unfold ConnStore.settle
  have hput : ∀ key' c, (cs.put key' c).Closes key := by
    intro key' c
    unfold put Closes
    split
    · exact ⟨r, hr, hkey⟩
    · exact ⟨_, mem_map_of_mem hr, hkey⟩
  split <;> split
  case h_3 c => exact hput c.pkiID c
  all_goals exact ⟨r, hr, hkey⟩

theorem Closes.endShutdown (h : cs.Closes key) {r : Range} (hranging : r.ranging = false)
    (hclosers : r.closers = []) : { cs with ranges := cs.ranges.erase r }.Closes key := by
  obtain ⟨other, hother, hkey⟩ := h
  refine ⟨other, (mem_erase_of_ne ?_).mpr hother, hkey⟩
  rintro rfl
  simp [hranging, hclosers] at hkey

theorem covered_of_step (h : Sound cs) (hkeeps : cs.Keeps l) (hstep : cs.step l = some cs') :
    cs'.isClosing → ∀ key c, cs'.entry key = some c → cs'.Closes key := by
  intro hclosing key c hentry
  have hrun := hstep
  cases l with simp only [step, ite_none_left_eq_some, ite_none_right_eq_some,
    Option.some.injEq] at hstep
  | advance =>
    obtain ⟨hmem, hgoes⟩ := goes_of_step hrun
    cases hgoes with
    | register =>
      rw [made_settle.2] at hclosing
      rcases entry_settle hentry with hold | ⟨rfl, -, hnone⟩
      · exact Closes.settle (h.covered hclosing key c hold)
      · exact absurd ((hkeeps hnone).1.symm.trans hclosing) (by simp)
    | _ => exact h.covered hclosing key c hentry
  | create =>
    obtain rfl := create_of_step hrun
    exact h.covered hclosing key c hentry
  | getConnection =>
    obtain ⟨-, rfl⟩ := hstep
    exact h.covered hclosing key c hentry
  | onConnected =>
    obtain ⟨-, rfl⟩ := hstep
    rw [made_onConnected.2, show cs.isClosing = false from hkeeps] at hclosing
    cases hclosing
  | closeConn =>
    obtain ⟨-, rfl⟩ := hstep
    rw [closeConn_eq h.keyed] at *
    rw [isClosing_closeByPKIid] at hclosing
    exact closes_closeByPKIid (fun key c hc _ => h.covered hclosing key c hc) hentry
  | closeByPKIid =>
    obtain ⟨-, rfl⟩ := hstep
    rw [isClosing_closeByPKIid] at hclosing
    exact closes_closeByPKIid (fun key c hc _ => h.covered hclosing key c hc) hentry
  | shutdown =>
    obtain ⟨-, rfl⟩ := hstep
    have hmem := AList.lookup_isSome.mp (isSome_of_mem hentry)
    exact ⟨_, .head _, .inl ⟨rfl, AList.mem_keys.mp hmem⟩⟩
  | produce _ key' =>
    obtain ⟨-, hstep⟩ := hstep
    split at hstep
    case h_1 conn hconn =>
      obtain ⟨-, rfl⟩ := ite_some_none_eq_some.mp hstep
      refine (h.covered hclosing key c hentry).reRange ?_
      obtain rfl := h.keyed key' conn hconn
      grind
    case h_2 => cases hstep
  | endRange =>
    obtain ⟨-, ⟨-, -, hleft⟩, rfl⟩ := hstep
    exact (h.covered hclosing key c hentry).reRange (by simp [hleft])
  | closer =>
    obtain ⟨-, -, rfl⟩ := hstep
    rw [isClosing_closeByPKIid] at hclosing
    refine closes_closeByPKIid (fun key c hc hne => ?_) hentry
    exact (h.covered hclosing key c hc).reRange (by simp [mem_erase_of_ne hne])
  | endShutdown =>
    obtain ⟨-, ⟨-, hranging, hclosers⟩, rfl⟩ := hstep
    exact (h.covered hclosing key c hentry).endShutdown hranging hclosers

theorem sound_newConnStore : Sound newConnStore where
  keyed := by simp [entry, newConnStore]
  live := by simp [newConnStore]
  covered := by simp [newConnStore]

theorem Sound.step (h : Sound cs) (hkeeps : cs.Keeps l) (hstep : cs.step l = some cs') :
    Sound cs' :=
  ⟨keyed_of_step h.keyed hstep, live_of_step h hkeeps hstep, covered_of_step h hkeeps hstep⟩

/-- A call of `getConnection` that makes the connection with the given number. -/
def connects (id : PKIidType) (pkiID : Bytes) (lock ref : ℕ) : List Label :=
  [.getConnection id, .advance (.getConnection id), .advance (.findLock id),
    .advance (.acquire id lock), .advance (.lookup id lock),
    .create id lock (.authenticated pkiID), .advance (.unlock id lock (.conn ⟨ref, pkiID⟩)),
    .advance (.checkClosing id (.conn ⟨ref, pkiID⟩)),
    .advance (.register id (.conn ⟨ref, pkiID⟩))]

/-- In every run, what is found under a PKI id is a connection to its peer. -/
theorem keyed_of_run (labels : List Label) (hrun : runSteps step newConnStore labels = some cs)
    (hentry : cs.entry key = some c) : c.pkiID = key :=
  runSteps_invariant (I := fun cs => ∀ key c, cs.entry key = some c → c.pkiID = key)
    sound_newConnStore.keyed (fun _ _ _ _ h hstep => keyed_of_step h hstep)
    (along_of_forall fun _ _ => trivial) hrun key c hentry

theorem keyed_unknown : ∃ cs c, runSteps step newConnStore (connects none [7] 0 0) = some cs ∧
    cs.entry [7] = some c ∧ c.pkiID = [7] := by
  obtain ⟨cs, hcs, hany⟩ : ∃ cs, runSteps step newConnStore (connects none [7] 0 0) = some cs ∧
      (cs.entry [7]).isSome := by decide +kernel
  obtain ⟨c, hc⟩ := isSome_iff_exists.mp hany
  exact ⟨cs, c, hcs, hc, keyed_of_run _ hcs hc⟩

end Fabric.Gossip.ConnStore
