import Fabric.Gossip.Discovery

/-!
# Membership responses

A peer that is asked for the membership answers with the alive messages it has cached and one of
its own, and with the dead peers that the asking peer does not know.
-/

namespace Fabric.Gossip

open Fabric.Common List

/-- What a peer says about itself in its alive messages. -/
structure Self where
  endpoint : Bytes
  metadata : Bytes
  incTime : UInt64
  seqNum : UInt64

variable (sign : Member → PeerTime → Bytes)

namespace Discovery

/-- `SignMessage` adds the signature. -/
def createAliveMessage (d : Discovery) (self : Self) : Alive × Self :=
  let member := ⟨self.endpoint, self.metadata, d.pkiID⟩
  let time := ⟨self.incTime, self.seqNum + 1⟩
  (⟨member, time, sign member time⟩, { self with seqNum := self.seqNum + 1 })

/-- The loop over the dead peers ends with the first one that is not known. -/
def deadPeers (known : List Bytes) : List Alive → List Alive
  | [] => []
  | dm :: rest => if known.contains dm.pkiID then deadPeers known rest else [dm]

def createMembershipResponse (d : Discovery) (self : Self) (known : List Bytes) :
    MembershipResponse × Self :=
  let (aliveMsg, self) := d.createAliveMessage sign self
  (⟨(d.alive ++ [aliveMsg]).map Alive.message, (deadPeers known d.dead).map Alive.message⟩, self)

/-- The dead peers that the asking peer does not know. -/
def unknownDead (d : Discovery) (known : List Bytes) : List Alive :=
  d.dead.filter fun dm => !known.contains dm.pkiID

/-- All cached alive messages and one about the peer itself, and all dead peers that are not known.
-/
structure Answers (d : Discovery) (known : List Bytes) (response : MembershipResponse) : Prop where
  alive : ∃ own : Alive, own.pkiID = d.pkiID ∧ response.alive = (d.alive ++ [own]).map Alive.message
  dead : response.dead = (d.unknownDead known).map Alive.message

variable {d : Discovery} {self : Self} {known : List Bytes}

theorem deadPeers_eq (known : List Bytes) (dead : List Alive) :
    deadPeers known dead = (dead.filter fun dm => !known.contains dm.pkiID).take 1 := by
  induction dead with
  | nil => rfl
  | cons _ _ ih =>
    unfold deadPeers
    split_ifs with hknown
    · rw [ih, filter_cons_of_neg (by simpa using hknown)]
    · rw [filter_cons_of_pos (by simpa using hknown)]
      rfl

/-- A response is complete exactly if at most one dead peer is not known. -/
theorem answers_createMembershipResponse_iff (d : Discovery) (self : Self) (known : List Bytes) :
    d.Answers known (d.createMembershipResponse sign self known).1 ↔
      (d.unknownDead known).length ≤ 1 := by
  have hdead : (d.createMembershipResponse sign self known).1.dead =
      ((d.unknownDead known).take 1).map Alive.message := by
    rw [unknownDead, ← deadPeers_eq]
    rfl
  constructor
  · intro h
    have hlength := congrArg length (hdead.symm.trans h.dead)
    rw [length_map, length_map, length_take] at hlength
    omega
  · intro h
    refine ⟨⟨_, rfl, rfl⟩, ?_⟩
    rw [hdead, take_of_length_le h]

/-- Of two dead peers that are not known, the second is left out. -/
theorem not_answers_second_dead : ∃ d, (newDiscovery [0]).learnNewMembers []
    [⟨some ⟨[], [], [1]⟩, some ⟨1, 1⟩, []⟩, ⟨some ⟨[], [], [2]⟩, some ⟨1, 1⟩, []⟩] = .ok d ∧
    ¬ d.Answers [] (d.createMembershipResponse (fun _ _ => []) ⟨[], [], 1, 0⟩ []).1 := by
  refine ⟨_, rfl, fun h => ?_⟩
  exact absurd (congrArg length h.dead) (by decide)

end Discovery

end Fabric.Gossip
