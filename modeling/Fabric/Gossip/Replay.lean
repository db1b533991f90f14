import Fabric.Gossip.Membership

/-!
# Replayed messages

Anyone can repeat an alive message of another peer. A message that is not newer than what is
recorded for its peer changes nothing, whether the peer is alive or dead, and whatever happens
between the critical sections of the handler.
-/

namespace Fabric.Gossip

open Fabric.Common

variable {d d' : Discovery} {a : Alive} {validate : AliveMessage → Bool} {s s' : Node}
  {label : NodeLabel} {m : AliveMessage}

/-- The alive message that the handler is at. -/
def Stage.message : Stage → Option AliveMessage
  | .learnNew [m] [] | .learnNew [] [m] => some m
  | .learnNew _ _ => none
  | .lookup m | .resurrect m _ | .lookupAlive m | .learnExisting m => some m

def Entry.message : Entry → Option AliveMessage
  | .alive m => m
  | .dead m => some m
  | .respond _ => none

def Node.handling (s : Node) : Option AliveMessage :=
  match s.stage with
  | some st => st.message
  | none => s.entries.head?.bind Entry.message

/-- The message is about a peer with a record, and is not strictly newer. -/
def Outdated (d : Discovery) (m : AliveMessage) : Prop :=
  ∃ member t ts, m.membership = some member ∧ m.timestamp = some t ∧
    d.recorded member.pkiID = some ts ∧ ¬ ts.time.rank < t.rank

theorem outdated_message : Outdated d a.message ↔
    ∃ ts, d.recorded a.pkiID = some ts ∧ ¬ ts.time.rank < a.time.rank := by
  simp [Outdated, Alive.message]

theorem advance_outdated (h : Consistent d) {st : Stage}
    (hst : StageOk d st) (hm : st.message = some m) (hout : Outdated d m) {next : Option Stage}
    (hadv : st.advance d = .ok (d', next)) : d' = d := by
  cases st with
  | learnNew =>
    rcases hst with ⟨rfl, rfl⟩ | ⟨a, hnew, ⟨rfl, rfl, -⟩ | ⟨rfl, rfl⟩⟩
    · cases hm
    -- there is no record of a peer that is about to be learned
    all_goals
      cases hm
      obtain ⟨ts, hts, -⟩ := outdated_message.mp hout
      simp [Discovery.recorded, h.unknown hnew] at hts
  | lookup =>
    obtain ⟨next, heq, -⟩ := lookup_handled h hst
    rw [heq] at hadv
    cases hadv
    rfl
  | lookupAlive =>
    obtain ⟨next, heq, -⟩ := lookupAlive_handled h hst
    rw [heq] at hadv
    cases hadv
    rfl
  -- the lookups have compared the times, and the record is still the one they read
  | resurrect =>
    obtain ⟨a, rfl, rfl, ts, hdead, hlt⟩ := hst
    cases hm
    obtain ⟨ts', hts', hnot⟩ := outdated_message.mp hout
    obtain rfl : ts = ts' := by simpa [h.recorded_of_dead hdead] using hts'
    exact absurd hlt hnot
  | learnExisting =>
    obtain ⟨a, rfl, ts, hts, hlt⟩ := hst
    cases hm
    obtain ⟨ts', hts', hnot⟩ := outdated_message.mp hout
    obtain rfl : ts = ts' := by simpa [hts] using hts'
    exact absurd hlt hnot

theorem Sound.step_outdated (h : Sound s) (hm : s.handling = some m)
    (hout : Outdated s.disc m) (hexpire : ∀ dead, label ≠ .expire dead)
    (hstep : s.step validate label = some s') : s'.disc = s.disc := by
  cases label with simp only [Node.step] at hstep
  | receive =>
    split at hstep
    case isTrue =>
      cases hstep
      rfl
    case isFalse => cases hstep
  | start =>
    split at hstep
    case h_1 =>
      cases hstep
      split <;> rfl
    case h_2 => cases hstep
  | advance =>
    split at hstep
    case h_1 st _ hst =>
      obtain ⟨d', next, heq, -⟩ := Stage.advance_spec h.consistent (h.stage st hst)
      have hm : st.message = some m := by simpa [Node.handling, hst] using hm
      have hsame := advance_outdated h.consistent (h.stage st hst) hm hout heq
      rw [heq] at hstep
      cases hstep
      exact hsame
    case h_2 => cases hstep
  | expire dead => exact absurd rfl (hexpire dead)

/-- The recorded times do not decrease, and a message that is not newer than the record of its peer
changes nothing. -/
theorem replay_ignored (validate : AliveMessage → Bool) (pkiID : Bytes)
    (done rest : List NodeLabel) (hcomplete : ∀ m, .receive m ∈ done ++ rest → m.isComplete)
    (hdone : runSteps (Node.step validate) (.newNode pkiID) done = some s)
    (hrest : runSteps (Node.step validate) s rest = some s') :
    Later s.disc s'.disc ∧
    ∀ m label s₁, s.handling = some m → Outdated s.disc m →
      (∀ dead, label ≠ .expire dead) → s.step validate label = some s₁ → s₁.disc = s.disc := by
  obtain ⟨h, -⟩ := (Sound.init pkiID).of_run
    (fun m hm => hcomplete m (List.mem_append_left _ hm)) hdone
  obtain ⟨-, hlater⟩ := h.of_run (fun m hm => hcomplete m (List.mem_append_right _ hm)) hrest
  refine ⟨hlater, ?_⟩
  intro m label s₁ hm hout hexpire hstep
  exact h.step_outdated hm hout hexpire hstep

/-- A peer has expired, and its last message is repeated. -/
theorem replay_ignored_expired : ∃ s s', runSteps (Node.step fun _ => true) (.newNode [1])
      [.receive ⟨0, some (.aliveMsg (signOfLife [2] ⟨1, 1⟩).message)⟩, .start, .advance,
        .expire [[2]], .receive ⟨0, some (.aliveMsg (signOfLife [2] ⟨1, 1⟩).message)⟩,
        .start] = some s ∧
      s.handling = some (signOfLife [2] ⟨1, 1⟩).message ∧
      s.step (fun _ => true) .advance = some s' ∧ Later s.disc s'.disc ∧ s'.disc = s.disc := by
  have hrun : (runSteps (Node.step fun _ => true) (.newNode [1])
      [.receive ⟨0, some (.aliveMsg (signOfLife [2] ⟨1, 1⟩).message)⟩, .start, .advance,
        .expire [[2]], .receive ⟨0, some (.aliveMsg (signOfLife [2] ⟨1, 1⟩).message)⟩,
        .start]).map (fun s => (s.handling, s.disc.recorded [2],
          (s.step (fun _ => true) .advance).isSome)) =
      some (some (signOfLife [2] ⟨1, 1⟩).message, some (.ofPeerTime ⟨1, 1⟩), true) := by
    decide +kernel
  obtain ⟨s, hs, hend⟩ := Option.map_eq_some_iff.mp hrun
  simp only [Prod.mk.injEq] at hend
  obtain ⟨hm, hrec, hsome⟩ := hend
  obtain ⟨s', hs'⟩ := Option.isSome_iff_exists.mp hsome
  have hout : Outdated s.disc (signOfLife [2] ⟨1, 1⟩).message :=
    outdated_message.mpr ⟨_, hrec, by simp [signOfLife]⟩
  have hrest : runSteps (Node.step fun _ => true) s [.advance] = some s' := by
    rw [runSteps_cons, hs']
    rfl
  obtain ⟨hlater, hsame⟩ := replay_ignored _ [1] _ [.advance] (by simp +decide) hs hrest
  exact ⟨s, s', hs, hm, hs', hlater, hsame _ .advance s' hm hout (by simp) hs'⟩

end Fabric.Gossip
