import Fabric.Sbft.Core

/-!
# The circumstances in which a replica's process stops

Most ways in which a handler can stop are due to malformed data. The others say
something about the replica: it has to put off a message of its own, its last batch is
refused, or enough replicas vouch for a batch other than the one in flight.
-/

namespace Fabric.Sbft

open Fabric.Common

variable {β : Type}

/-- A panic due to malformed data. -/
def Panic.OnData (e : Panic) : Prop :=
  e ≠ .backlogOwnMessage ∧ e ≠ .invalidLastBatch ∧ e ≠ .weakCheckpointMismatch

instance (e : Panic) : Decidable e.OnData := inferInstanceAs (Decidable (_ ∧ _ ∧ _))

namespace Core

variable (P : Primitives β) (c : Core β)

/-- A position lies ahead of the core. -/
def LiesAhead (sv : Option SeqView) : Prop :=
  c.activeView = false ∨ ∃ p, sv = some p ∧ (c.cur.seq.seq < p.seq ∨ c.view < p.view)

/-- A message has to wait. -/
def Defers : Msg β → Prop
  | .preprepare pp => c.LiesAhead pp.seq ∧ c.cur.checkpointDone = false
  | .prepare p => c.LiesAhead p.seq
  | .commit p => c.LiesAhead p.seq
  | .checkpoint _ => c.activeView = false
  | _ => False

/-- What holds when the process stops. -/
def Stops [DecidableEq β] : Panic → Prop
  | .backlogOwnMessage => ∃ m t, c.trace = .recv m c.id :: t ∧ c.Defers m
  | .invalidLastBatch => ∀ hd, checkBatch P c.config
      { lastBatch P c.trace with payloads := [] } false true ≠ .ok hd
  | .weakCheckpointMismatch => ∃ cp src t votes, ∃ replicas : List (ℕ × Checkpoint β),
      ∃ sum, c.trace = .call (.handleCheckpoint cp src) c.status :: t ∧
      .recv (.checkpoint cp) src ∈ t ∧ c.cur.checkpointDone = false ∧ cp.seq = c.cur.seq.seq ∧
      P.checkSig (P.bytes cp.digest) src cp.signature = true ∧ c.cur.checkpoint = some votes ∧
      (∀ e ∈ replicas, (votes.insert src cp)[e.1]? = some e.2 ∧ P.bytes e.2.digest = sum) ∧
      (replicas.map Prod.fst).Nodup ∧ c.config.oneCorrectQuorum ≤ replicas.length ∧
      ∃ e ∈ replicas, e.2.digest ≠ c.cur.digest
  | _ => True

variable {P c}

theorem stops_of_onData [DecidableEq β] {e : Panic} (h : e.OnData) : c.Stops P e := by
  cases e <;> trivial

end Core

/-! ### Code without state -/

section Raises

variable {P : Primitives β}

theorem derefE_raises {α : Type} (o : Option α) : Raises Panic.OnData (derefE o) := by
  intro e he
  cases o <;> cases he
  decide

theorem decodeHeader_raises (b : Batch β) : Raises Panic.OnData (decodeHeader P b) := by
  intro e he
  unfold decodeHeader at he
  split at he <;> cases he
  decide

theorem bestCheckpoint_raises (vcs : List (ViewChange β)) (best : Option (Batch β)) :
    Raises Panic.OnData (bestCheckpoint P vcs best) := by
  induction vcs generalizing best with
  | nil => exact .ok best
  | cons _ _ ih =>
    refine (derefE_raises _).bind fun cp => (decodeHeader_raises cp).bind fun hd => ?_
    cases best with
    | none => exact ih _
    | some b => exact (decodeHeader_raises b).bind fun _ => ih _

theorem countM_raises {α : Type} {p : α → Except Panic Bool}
    (hp : ∀ a, Raises Panic.OnData (p a)) (l : List α) : Raises Panic.OnData (countM p l) := by
  induction l with
  | nil => exact .ok 0
  | cons a _ ih => exact (hp a).bind fun _ => ih.bind fun _ => .ok _

variable [DecidableEq β]

theorem conditionA1_raises (sv : SeqView) (d : Option β) (vc : ViewChange β) :
    Raises Panic.OnData (conditionA1 P sv d vc) := by
  refine (derefE_raises _).bind fun cp => (decodeHeader_raises cp).bind fun hd => ?_
  exact .ite (.ok _) (.allM (fun t => (derefE_raises _).bind fun _ => .ok _) _)

theorem conditionA2_raises (sv : SeqView) (d : Option β) (vc : ViewChange β) :
    Raises Panic.OnData (conditionA2 sv d vc) :=
  .anyM (fun _ => (derefE_raises _).bind fun _ => .ok _) _

theorem scanPset_raises (cfg : Config) (next : ℕ) (vcs : List (ViewChange β))
    (ts : List (Subject β)) (notfound : Bool) :
    Raises Panic.OnData (scanPset P cfg next vcs ts notfound) := by
  induction ts generalizing notfound with
  | nil => exact .ok _
  | cons t _ ih =>
    refine (derefE_raises _).bind fun sv => .ite (ih _) ?_
    refine (countM_raises (conditionA1_raises sv t.digest) vcs).bind fun _ => .ite (ih _) ?_
    exact (countM_raises (conditionA2_raises sv t.digest) vcs).bind fun _ => .ite (ih _) (.ok _)

theorem scanViewChanges_raises (cfg : Config) (next : ℕ) (vcs ms : List (ViewChange β)) (n : ℕ) :
    Raises Panic.OnData (scanViewChanges P cfg next vcs ms n) := by
  induction ms generalizing n with
  | nil => exact .ok _
  | cons m _ ih =>
    refine (scanPset_raises cfg next vcs m.pset true).bind fun r => ?_
    obtain ⟨_ | d, notfound⟩ := r
    · exact ih _
    · exact .ok _

theorem makeXset_raises (cfg : Config) (view : ℕ) (vcs : List (ViewChange β)) :
    Raises Panic.OnData (makeXset P cfg view vcs) := by
  refine (bestCheckpoint_raises vcs none).bind fun best => ?_
  cases best with
  | none => exact .ok _
  | some best =>
    refine (decodeHeader_raises best).bind fun hd =>
      (scanViewChanges_raises cfg _ vcs vcs 0).bind fun r => .ite (.ok _) ?_
    obtain ⟨_ | d, n⟩ := r
    · exact .ok _
    · exact .ok _

theorem checkVset_raises (cfg : Config) (view : ℕ) (entries : List (ℕ × Option (Signed β))) :
    Raises Panic.OnData (checkVset P cfg view entries) := by
  induction entries with
  | nil => exact .ok _
  | cons e _ ih =>
    obtain ⟨vcsrc, osvc⟩ := e
    refine (derefE_raises osvc).bind fun svc => ?_
    cases checkSig P svc vcsrc with
    | error => exact .ok _
    | ok =>
      refine (derefE_raises _).bind fun cp => .ite (.ok _) ?_
      cases checkBatch P cfg cp false true with
      | error => exact .ok _
      | ok =>
        refine ih.bind fun rest => ?_
        cases rest with
        | error => exact .ok _
        | ok => exact .ok _

end Raises

end Fabric.Sbft
