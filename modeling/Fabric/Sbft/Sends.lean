import Fabric.Sbft.Justified
import Fabric.Sbft.Invariant

/-!
# What a step sends and signs

For each kind of message that matters to the order of batches, the circumstances in
which a step of a replica sends or signs one.
-/

namespace Fabric.Sbft

open Fabric.Common

variable {β : Type} {P : Primitives β} {c c' : Core β} {sub : Subject β} {dest : ℕ}

/-! ### What a history says was sent -/

section Histories

variable {t : List (Event β)}

/-- The subjects for which a prepare was sent. -/
def prepared (t : List (Event β)) : List (Subject β) :=
  t.filterMap fun | .send (.prepare sub) _ => some sub | _ => none

/-- The subjects for which a commit was sent. -/
def committed (t : List (Event β)) : List (Subject β) :=
  t.filterMap fun | .send (.commit sub) _ => some sub | _ => none

/-- The subjects that were executed. -/
def executed (t : List (Event β)) : List (Subject β) :=
  t.filterMap fun | .persist (.execute sub) => some sub | _ => none

theorem mem_prepared : sub ∈ prepared t ↔ ∃ dest, .send (.prepare sub) dest ∈ t := by
  simp only [prepared, List.mem_filterMap]
  constructor
  · rintro ⟨e, he, heq⟩
    split at heq <;> cases heq
    exact ⟨_, he⟩
  · rintro ⟨dest, h⟩
    exact ⟨_, h, rfl⟩

theorem mem_committed : sub ∈ committed t ↔ ∃ dest, .send (.commit sub) dest ∈ t := by
  simp only [committed, List.mem_filterMap]
  constructor
  · rintro ⟨e, he, heq⟩
    split at heq <;> cases heq
    exact ⟨_, he⟩
  · rintro ⟨dest, h⟩
    exact ⟨_, h, rfl⟩

theorem mem_executed : sub ∈ executed t ↔ .persist (.execute sub) ∈ t := by
  simp only [executed, List.mem_filterMap]
  constructor
  · rintro ⟨e, he, heq⟩
    split at heq <;> cases heq
    exact he
  · exact fun h => ⟨_, h, rfl⟩

end Histories

/-! ### What a step sends and signs -/

variable [DecidableEq β]

/-- Why a step from `c` to `c'` sends a commit for the request in flight. -/
inductive Commits (P : Primitives β) (c c' : Core β) : Prop
  /-- Enough prepares arrived. -/
  | quorum (src : ℕ) (votes : GoMap (Subject β))
      (hcall : .call (.handlePrepare c.cur.subject src) c.status :: c.trace <:+ c'.trace)
      (hrecv : .recv (.prepare c.cur.subject) src ∈ c.trace) (hactive : c.activeView = true)
      (hvotes : c.cur.prep = some votes) (hsent : c.cur.sentCommit = false)
      (hquorum : c.config.noFaultyQuorum - 1 ≤ (votes.insert src c.cur.subject).size)
  /-- No prepare is needed. -/
  | small (hquorum : c.config.noFaultyQuorum - 1 = 0) (hsent : c.cur.sentCommit = false)
      (hview : c.cur.seq.view = c.view) (hdone : c.cur.checkpointDone = false)
      (hready : c.activeView = true ∨ c.primaryID ≠ c.id)
  /-- A connection was established. -/
  | resend (r : ℕ) (hcall : .call (.connection r) c.status :: c.trace <:+ c'.trace)
      (hahead : c.Resends P) (hsent : c.cur.sentCommit = true)

theorem Step.commit_sent (h : Step P c c')
    (hnew : Added c.trace c'.trace (.send (.commit sub) dest)) :
    sub = c.cur.subject ∧ c'.cur.seq = c.cur.seq ∧ c'.cur.digest = c.cur.digest ∧
      c'.cur.sentCommit = true ∧ c'.view = c.view ∧ c'.activeView = c.activeView ∧
      Commits P c c' := by
  cases h
  case quiet hquiet => cases quiet_of_added hquiet hnew
  case accept haccepts =>
    cases haccepts <;> simp at hnew
  case acceptCommit hsent _ hquorum hview hdone hready =>
    obtain ⟨-, rfl⟩ : dest < c.config.N ∧ sub = c.cur.subject := by simpa using hnew
    exact ⟨rfl, rfl, rfl, rfl, rfl, rfl, .small hquorum hsent hview hdone hready⟩
  case prepareCommit src votes hrecv hactive hvotes hsent hquorum =>
    obtain ⟨-, rfl⟩ : dest < c.config.N ∧ sub = c.cur.subject := by simpa using hnew
    exact ⟨rfl, rfl, rfl, rfl, rfl, rfl,
      .quorum src votes (by simp) hrecv hactive hvotes hsent hquorum⟩
  case greet hes =>
    cases greeting_of_added hes hnew (by simp) with
    | commit hahead hsent =>
      exact ⟨rfl, rfl, rfl, hsent, rfl, rfl, .resend dest (by simp) hahead hsent⟩
  all_goals simp [Core.checkpointMsg] at hnew

/-- Why a step from `c` to `c'` sends a prepare for `sub`. -/
inductive Prepares (P : Primitives β) (c c' : Core β) (sub : Subject β) : Prop
  /-- A preprepare was accepted. -/
  | accept (c₀ : Core β) (pp : Preprepare β) (sv : SeqView) (b : Batch β) (timeout : ℕ)
      (haccepts : Accepts P c c₀ pp sv b) (hc' : c' = c₀.accept P pp sv b timeout)
      (hother : c.primaryID ≠ c.id) (hsub : sub = ⟨some sv, some (b.hash P)⟩)
  /-- A connection was established. -/
  | resend (r : ℕ) (hcall : .call (.connection r) c.status :: c.trace <:+ c'.trace)
      (hahead : c.Resends P) (hsub : sub = c.cur.subject) (hview : c'.view = c.view)
      (hactive : c'.activeView = c.activeView) (hcur : c'.cur = c.cur)

theorem Step.prepare_sent (h : Step P c c')
    (hnew : Added c.trace c'.trace (.send (.prepare sub) dest)) : Prepares P c c' sub := by
  cases h
  case quiet hquiet => cases quiet_of_added hquiet hnew
  case accept c₀ pp sv b timeout haccepts =>
    have hnew₀ : ¬ Added c.trace c₀.trace (.send (.prepare sub) dest) := by
      cases haccepts <;> simp
    obtain ⟨hother, -, rfl⟩ : c₀.primaryID ≠ c₀.id ∧ dest < c₀.config.N ∧
        sub = ⟨some sv, some (b.hash P)⟩ := by
      simpa [haccepts.trace_suffix, hnew₀] using hnew
    rw [haccepts.primaryID_eq, haccepts.id_eq] at hother
    exact .accept c₀ pp sv b timeout haccepts rfl hother rfl
  case greet hes =>
    cases greeting_of_added hes hnew (by simp) with
    | prepare hahead => exact .resend dest (by simp) hahead rfl rfl rfl rfl
  all_goals simp [Core.checkpointMsg] at hnew

theorem Step.viewChange_signed (h : Step P c c') {vc : ViewChange β}
    (hnew : Added c.trace c'.trace (.signViewChange vc)) :
    ∃ w, c.view ≤ w ∧ vc = c.viewChange P w ∧ c' = c.sendViewChange P w := by
  cases h
  case quiet hquiet => cases quiet_of_added hquiet hnew
  case accept haccepts =>
    cases haccepts <;> simp at hnew
  case sendViewChange w hw =>
    obtain rfl : vc = c.viewChange P w := by simpa using hnew
    exact ⟨w, hw, rfl, rfl⟩
  case greet hes =>
    cases greeting_of_added hes hnew (by simp)
  all_goals simp at hnew

/-- Why a step from `c` to `c'` attests that the request in flight was executed. -/
inductive Attests (P : Primitives β) (c c' : Core β) : Prop
  /-- Enough commits arrived. -/
  | quorum (src : ℕ) (votes : GoMap (Subject β))
      (hcall : .call (.handleCommit c.cur.subject src) c.status :: c.trace <:+ c'.trace)
      (hrecv : .recv (.commit c.cur.subject) src ∈ c.trace) (hactive : c.activeView = true)
      (hvotes : c.cur.commit = some votes)
      (hquorum : c.config.noFaultyQuorum ≤ (votes.insert src c.cur.subject).size)
  /-- A connection was established. -/
  | resend (hahead : c.Resends P) (hexecuted : c.cur.executed = true)

theorem Step.checkpoint_signed (h : Step P c c')
    (hnew : Added c.trace c'.trace (.signCheckpoint sub)) :
    sub = c.cur.subject ∧ Attests P c c' := by
  cases h
  case quiet hquiet => cases quiet_of_added hquiet hnew
  case accept haccepts =>
    cases haccepts <;> simp at hnew
  case commitExecute src votes hrecv hactive hvotes _ hquorum =>
    obtain rfl : sub = c.cur.subject := by simpa using hnew
    exact ⟨rfl, .quorum src votes (by simp) hrecv hactive hvotes hquorum⟩
  case greet hes =>
    cases greeting_of_added hes hnew (by simp) with
    | signCheckpoint hahead hexecuted => exact ⟨rfl, .resend hahead hexecuted⟩
  all_goals simp at hnew

/-- A checkpoint is sent for the request in flight, once it is executed in an active view. -/
theorem Step.checkpoint_sent (h : Step P c c') {cp : Checkpoint β}
    (hnew : Added c.trace c'.trace (.send (.checkpoint cp) dest)) :
    cp.seq = c.cur.seq.seq ∧ cp.digest = c.cur.digest ∧ c'.activeView = true ∧
      (c.cur.subject ∈ executed c'.trace ∨ c.Resends P ∧ c.cur.executed = true) := by
  cases h
  case quiet hquiet => cases quiet_of_added hquiet hnew
  case accept haccepts =>
    cases haccepts <;> simp at hnew
  case commitExecute hactive _ _ _ =>
    obtain ⟨-, rfl⟩ := by simpa [Core.checkpointMsg] using hnew
    exact ⟨rfl, rfl, hactive, .inl (mem_executed.mpr (by simp))⟩
  case greet hes =>
    cases greeting_of_added hes hnew (by simp) with
    | checkpoint hahead hexecuted => exact ⟨rfl, rfl, hahead.2, .inr ⟨hahead, hexecuted⟩⟩
  all_goals simp at hnew

theorem Step.execute_persisted (h : Step P c c')
    (hnew : Added c.trace c'.trace (.persist (.execute sub))) :
    sub = c.cur.subject ∧ ∃ src votes,
      .call (.handleCommit c.cur.subject src) c.status :: c.trace <:+ c'.trace ∧
      .recv (.commit c.cur.subject) src ∈ c.trace ∧ c.cur.commit = some votes ∧
      c.config.noFaultyQuorum ≤ (votes.insert src c.cur.subject).size := by
  cases h
  case quiet hquiet => cases quiet_of_added hquiet hnew
  case accept haccepts =>
    cases haccepts <;> simp at hnew
  case commitExecute src votes hrecv _ hvotes _ hquorum =>
    obtain rfl : sub = c.cur.subject := by simpa using hnew
    exact ⟨rfl, src, votes, by simp, hrecv, hvotes, hquorum⟩
  case greet hes =>
    cases greeting_of_added hes hnew (by simp)
  all_goals simp at hnew

/-- Why a step from `c` to `c'` sends the preprepare `pp`. -/
inductive Proposes (P : Primitives β) (c c' : Core β) (pp : Preprepare β) : Prop
  /-- The primary accepts its proposal. -/
  | accept (c₀ : Core β) (sv : SeqView) (b : Batch β) (timeout : ℕ)
      (haccepts : Accepts P c c₀ pp sv b) (hc' : c' = c₀.accept P pp sv b timeout)
  /-- A connection was established. -/
  | resend (hahead : c.Resends P) (hpp : c.cur.preprep = some pp) (hview : c'.view = c.view)
      (hactive : c'.activeView = c.activeView) (hcur : c'.cur = c.cur)

theorem Step.preprepare_sent (h : Step P c c') {pp : Preprepare β}
    (hnew : Added c.trace c'.trace (.send (.preprepare pp) dest)) : Proposes P c c' pp := by
  cases h
  case quiet hquiet => cases quiet_of_added hquiet hnew
  case accept c₀ pp' sv b timeout haccepts =>
    have hnew₀ : Added c.trace c₀.trace (.send (.preprepare pp) dest) := by
      simpa [haccepts.trace_suffix] using hnew
    obtain rfl : pp = pp' := by
      cases haccepts with
      | propose => exact (by simpa using hnew₀ : dest < c.config.N ∧ _).2
      | preprepare | newView => simp at hnew₀
    exact .accept c₀ sv b timeout haccepts rfl
  case greet hes =>
    cases greeting_of_added hes hnew (by simp) with
    | preprepare _ hahead hpp => exact .resend hahead hpp rfl rfl rfl
  all_goals simp [Core.checkpointMsg] at hnew

theorem Step.newView_sent (h : Step P c c') {nv : NewView β}
    (hnew : Added c.trace c'.trace (.send (.newView nv) dest)) :
    c' = c.sendNewView nv ∧ c.primaryID = c.id ∧ nv.view = c.view ∧
      (c.lastNewViewSent.map fun nv => nv.view) ≠ some c.view := by
  cases h
  case quiet hquiet => cases quiet_of_added hquiet hnew
  case accept haccepts =>
    cases haccepts <;> simp at hnew
  case sendNewView nv' hprimary hview hlast =>
    obtain ⟨-, rfl⟩ : dest < c.config.N ∧ nv = nv' := by simpa using hnew
    exact ⟨rfl, hprimary, hview, hlast⟩
  case greet hes =>
    cases greeting_of_added hes hnew (by simp)
  all_goals simp [Core.checkpointMsg] at hnew

theorem Step.hello_sent (h : Step P c c') {hello : Hello β}
    (hnew : Added c.trace c'.trace (.send (.hello hello) dest)) :
    hello = ⟨some { lastBatch P c.trace with payloads := [] },
      if c.primaryID = c.id ∧ c.activeView then c.lastNewViewSent else none⟩ ∧
      c'.view = c.view := by
  cases h
  case quiet hquiet => cases quiet_of_added hquiet hnew
  case accept haccepts =>
    cases haccepts <;> simp at hnew
  case greet hes =>
    cases greeting_of_added hes hnew (by simp) with
    | hello => exact ⟨rfl, rfl⟩
  all_goals simp [Core.checkpointMsg] at hnew

end Fabric.Sbft
