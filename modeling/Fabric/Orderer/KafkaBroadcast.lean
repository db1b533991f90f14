import Fabric.Common.Int64
import Fabric.Orderer.HashChain

/-!
# The broadcast service over Kafka

The first call of `Broadcast` sends the genesis block and starts the goroutine `cutBlock`, which
takes envelopes out of `batchChan` and sends a block when enough have come together or its timer
expires. `sendBlock` moves on to the next number and hash before it hands the block to the
producer. `cutBlock` panics if the producer fails, the first call of `Broadcast` goes on.

`batchChan` has room for every envelope here: with less room there are fewer runs.
-/

namespace Fabric.Orderer

open Fabric.Common List

/-- The fields of `broadcasterImpl`. The blocks that the producer took are noted in `sent`. -/
structure Broadcaster where
  once : Bool
  batchChan : List Envelope
  messages : List Bytes
  nextNumber : UInt64
  prevHash : Bytes
  sent : List Block
  panicked : Bool
deriving DecidableEq

inductive BroadcastLabel
  /-- a client calls `Broadcast`; whether the producer takes a block that is sent -/
  | broadcast (ok : Bool)
  /-- an envelope is received from a client -/
  | receive (envelope : Envelope)
  /-- `cutBlock` takes an envelope, or its timer expires -/
  | message (ok : Bool)
  | timer (ok : Bool)
deriving DecidableEq

/-- The envelopes that were received, in the order of their arrival. -/
def BroadcastLabel.received : BroadcastLabel → List Envelope
  | .receive envelope => [envelope]
  | _ => []

namespace Broadcaster

variable (M : Marshal) (maxSize : UInt64) (b : Broadcaster)

/-- A broadcaster with the data of the genesis block. -/
def new (genesis : List Bytes) : Broadcaster := ⟨false, [], genesis, 0, [], [], false⟩

/-- The block that is handed to the producer, and the broadcaster after that. -/
def sendBlock : Block × Broadcaster :=
  let header : BlockHeader := ⟨b.nextNumber, b.prevHash, dataHash M b.messages⟩
  (⟨header, b.messages, []⟩,
    { b with messages := [], nextNumber := b.nextNumber + 1, prevHash := header.hash M })

/-- The producer takes the block. -/
def publish : Broadcaster :=
  let (block, b) := b.sendBlock M
  { b with sent := b.sent ++ [block] }

/-- `cutBlock` sends a block, and panics if the producer does not take it. -/
def cut (ok : Bool) : Broadcaster :=
  if ok = true then b.publish M else { (b.sendBlock M).2 with panicked := true }

/-- `cutBlock` takes an envelope. -/
def take (envelope : Envelope) (rest : List Envelope) : Broadcaster :=
  { b with batchChan := rest, messages := b.messages ++ [M.envelope envelope] }

/-- What one of the goroutines does. -/
def act : BroadcastLabel → Option Broadcaster
  | .broadcast ok =>
    let first := { b with once := true }
    some (if b.once = true then b
      else if ok = true then first.publish M else (first.sendBlock M).2)
  | .receive envelope =>
    if b.once = true then some { b with batchChan := b.batchChan ++ [envelope] } else none
  | .message ok => match b.batchChan with
    | [] => none
    | envelope :: rest =>
      let b := b.take M envelope rest
      some (if int64 maxSize.toNat ≤ b.messages.length then b.cut M ok else b)
  | .timer ok =>
    if b.once = true then some (if b.messages.length > 0 then b.cut M ok else b) else none

def step (label : BroadcastLabel) : Option Broadcaster :=
  if b.panicked = true then none else b.act M maxSize label

/-- The first call of `Broadcast` hands the genesis block to the producer, which takes it. -/
def GenesisSent (b : Broadcaster) : BroadcastLabel → Prop
  | .broadcast ok => b.once = true ∨ ok = true
  | _ => True

instance : (label : BroadcastLabel) → Decidable (b.GenesisSent label)
  | .broadcast ok => inferInstanceAs (Decidable (b.once = true ∨ ok = true))
  | .receive _ | .message _ | .timer _ => .isTrue trivial

/-- The blocks taken are numbered from 0 and linked, with the data of genesis and all envelopes. -/
structure Publishes (genesis : List Bytes) (received : List Envelope) : Prop where
  numbers : ∀ i block, b.sent[i]? = some block → block.header.number = UInt64.ofNat i
  chained : Chained M b.sent
  data : b.sent.flatMap Block.data ++ b.messages ++ b.batchChan.map M.envelope =
    genesis ++ received.map M.envelope

/-! ### What a step does -/

variable {M maxSize b} {b' : Broadcaster} {label : BroadcastLabel} {labels : List BroadcastLabel}
  {base genesis : List Bytes} {received : List Envelope} {arrived : List Envelope}

/-- What happens once the first call of `Broadcast` is through, as long as nothing panics. -/
inductive Moves (M : Marshal) (b : Broadcaster) : List Envelope → Broadcaster → Prop
  | stays : Moves M b [] b
  | receives (envelope : Envelope) :
    Moves M b [envelope] { b with batchChan := b.batchChan ++ [envelope] }
  | takes {envelope : Envelope} {rest : List Envelope} (hchan : b.batchChan = envelope :: rest) :
    Moves M b [] (b.take M envelope rest)
  | takesLast {envelope : Envelope} {rest : List Envelope}
    (hchan : b.batchChan = envelope :: rest) : Moves M b [] ((b.take M envelope rest).publish M)
  | sends : Moves M b [] (b.publish M)

theorem cut_of_running {ok : Bool} (h : (b.cut M ok).panicked = false) :
    b.cut M ok = b.publish M := by
  cases ok with
  | true => rfl
  | false => cases h

theorem moves_of_act (honce : b.once = true) (hact : b.act M maxSize label = some b')
    (hrunning : b'.panicked = false) : Moves M b label.received b' := by
  cases label with
  | broadcast =>
    simp only [act, honce] at hact
    cases hact
    exact .stays
  | receive envelope =>
    rw [act, if_pos honce] at hact
    cases hact
    exact .receives envelope
  | message =>
    simp only [act] at hact
    split at hact
    case h_1 => cases hact
    case h_2 hchan =>
      obtain rfl := Option.some.inj hact
      split_ifs at hrunning ⊢
      · rw [cut_of_running hrunning]
        exact .takesLast hchan
      · exact .takes hchan
  | timer =>
    simp only [act, honce] at hact
    obtain rfl := Option.some.inj hact
    split_ifs at hrunning ⊢
    · rw [cut_of_running hrunning]
      exact .sends
    · exact .stays

theorem Moves.once (h : Moves M b received b') : b'.once = b.once := by
  cases h <;> rfl

/-! ### The data -/

/-- No data are lost but those of the genesis block. -/
def Keeps (M : Marshal) (base : List Bytes) (received : List Envelope) (b : Broadcaster) : Prop :=
  b.sent.flatMap Block.data ++ b.messages ++ b.batchChan.map M.envelope =
    base ++ received.map M.envelope

theorem Keeps.publish (h : Keeps M base received b) : Keeps M base received (b.publish M) := by
  unfold Keeps at h ⊢
  rw [← h]
  simp [Broadcaster.publish, sendBlock]

theorem Keeps.take {envelope : Envelope} {rest : List Envelope} (h : Keeps M base received b)
    (hchan : b.batchChan = envelope :: rest) :
    Keeps M base received (b.take M envelope rest) := by
  unfold Keeps at h ⊢
  rw [← h, hchan]
  simp [Broadcaster.take]

theorem Keeps.moves (h : Keeps M base received b)
    (hmoves : Moves M b arrived b') : Keeps M base (received ++ arrived) b' := by
  cases hmoves with
  | stays => simpa using h
  | receives =>
    unfold Keeps at h ⊢
    rw [map_append, map_append, ← append_assoc, ← append_assoc, ← h]
  | takes hchan => simpa using h.take hchan
  | takesLast hchan => simpa using (h.take hchan).publish
  | sends => simpa using h.publish

/-! ### The chain -/

/-- The next block will be linked to the last one that the producer took. -/
structure Linked (M : Marshal) (b : Broadcaster) : Prop where
  numbers : ∀ i block, b.sent[i]? = some block → block.header.number = UInt64.ofNat i
  chained : Chained M b.sent
  nextNumber : b.nextNumber = UInt64.ofNat b.sent.length
  prevHash : ∀ chain last, b.sent = chain ++ [last] → b.prevHash = last.header.hash M

theorem linked_of_nil (hsent : b.sent = []) (hnext : b.nextNumber = 0) : Linked M b where
  numbers := by simp [hsent]
  chained := by
    intro n prev block hprev
    simp [hsent] at hprev
  nextNumber := by
    rw [hnext, hsent]
    rfl
  prevHash := by simp [hsent]

theorem Linked.publish (h : Linked M b) : Linked M (b.publish M) where
  numbers := numbers_concat h.numbers h.nextNumber
  chained := by
    obtain hnil | ⟨chain, last, hsent⟩ := b.sent.eq_nil_or_concat'
    · have hsent : (b.publish M).sent = [(b.sendBlock M).1] := by
        simp [Broadcaster.publish, sendBlock, hnil]
      rw [hsent]
      exact chained_singleton _
    · have hsent' : (b.publish M).sent = chain ++ [last] ++ [(b.sendBlock M).1] := by
        simp [Broadcaster.publish, sendBlock, hsent]
      rw [hsent']
      refine chained_concat_iff.mpr ⟨hsent ▸ h.chained, ?_, h.prevHash chain last hsent⟩
      have hnumber := h.nextNumber
      rwa [hsent, length_append] at hnumber
  nextNumber := by
    have hlength : (b.publish M).sent.length = b.sent.length + 1 := by
      simp [Broadcaster.publish, sendBlock]
    rw [hlength, UInt64.ofNat_add, ← h.nextNumber]
    rfl
  prevHash := by
    intro chain last hsent
    obtain ⟨-, hlast⟩ := append_inj' hsent rfl
    cases hlast
    rfl

theorem Linked.take (h : Linked M b) (envelope : Envelope) (rest : List Envelope) :
    Linked M (b.take M envelope rest) := ⟨h.numbers, h.chained, h.nextNumber, h.prevHash⟩

theorem Linked.moves (h : Linked M b) (hmoves : Moves M b arrived b') : Linked M b' := by
  cases hmoves with
  | stays => exact h
  | receives => exact ⟨h.numbers, h.chained, h.nextNumber, h.prevHash⟩
  | takes => exact h.take _ _
  | takesLast => exact (h.take _ _).publish
  | sends => exact h.publish

/-! ### Runs -/

/-- Before the first call of `Broadcast`, or after it with the genesis block sent. -/
inductive OnChain (M : Marshal) (genesis : List Bytes) (received : List Envelope)
    (b : Broadcaster) : Prop
  | idle (hreceived : received = []) (hnew : b = new genesis)
  | sent (honce : b.once = true) (hlinked : Linked M b) (hkeeps : Keeps M genesis received b)

/-- The data of the genesis block are lost. -/
structure Astray (M : Marshal) (received : List Envelope) (b : Broadcaster) : Prop where
  once : b.once = true
  keeps : Keeps M [] received b

theorem act_new (ok : Bool) : (new genesis).act M maxSize (.broadcast ok) =
    some (if ok = true then { new genesis with once := true }.publish M
      else ({ new genesis with once := true }.sendBlock M).2) := rfl

theorem eq_broadcast_of_act_new (hact : (new genesis).act M maxSize label = some b') :
    ∃ ok, label = .broadcast ok := by
  cases label with
  | broadcast ok => exact ⟨ok, rfl⟩
  | receive => cases hact
  | message => cases hact
  | timer => cases hact

theorem OnChain.act (h : OnChain M genesis received b) (hgenesis : b.GenesisSent label)
    (hact : b.act M maxSize label = some b') (hrunning : b'.panicked = false) :
    OnChain M genesis (received ++ label.received) b' := by
  cases h with
  | idle hreceived hnew =>
    subst hreceived hnew
    obtain ⟨ok, rfl⟩ := eq_broadcast_of_act_new hact
    -- it is the first call, so the producer takes the block
    obtain rfl : ok = true := by simpa [GenesisSent, new] using hgenesis
    cases hact
    refine .sent rfl (linked_of_nil rfl rfl).publish (Keeps.publish ?_)
    simp [Keeps, new, BroadcastLabel.received]
  | sent honce hlinked hkeeps =>
    have hmoves := moves_of_act honce hact hrunning
    exact .sent (hmoves.once.trans honce) (hlinked.moves hmoves) (hkeeps.moves hmoves)

theorem OnChain.astray (h : OnChain M genesis received b) (hgenesis : ¬ b.GenesisSent label)
    (hact : b.act M maxSize label = some b') : Astray M (received ++ label.received) b' := by
  cases label with
  | broadcast =>
    rw [GenesisSent, not_or] at hgenesis
    cases h with
    | idle hreceived hnew =>
      subst hreceived hnew
      rw [act_new, if_neg hgenesis.2] at hact
      cases hact
      exact ⟨rfl, by simp [Keeps, new, sendBlock, BroadcastLabel.received]⟩
    | sent honce => exact absurd honce hgenesis.1
  | _ => exact absurd trivial hgenesis

theorem Astray.act (h : Astray M received b) (hact : b.act M maxSize label = some b')
    (hrunning : b'.panicked = false) : Astray M (received ++ label.received) b' := by
  have hmoves := moves_of_act h.once hact hrunning
  exact ⟨hmoves.once.trans h.once, h.keeps.moves hmoves⟩

theorem step_eq_some (h : b.step M maxSize label = some b') :
    b.panicked = false ∧ b.act M maxSize label = some b' := by
  unfold step at h
  split_ifs at h with hpanicked
  exact ⟨by simpa using hpanicked, h⟩

theorem onChain_or_astray (hrun : runSteps (step M maxSize) (new genesis) labels = some b)
    (hrunning : b.panicked = false) :
    (Along (step M maxSize) GenesisSent (new genesis) labels ∧
      OnChain M genesis (labels.flatMap BroadcastLabel.received) b) ∨
    (¬ Along (step M maxSize) GenesisSent (new genesis) labels ∧
      Astray M (labels.flatMap BroadcastLabel.received) b) := by
  induction labels using List.reverseRecOn generalizing b with
  | nil =>
    cases hrun
    exact .inl ⟨trivial, .idle rfl rfl⟩
  | append_singleton _ label ih =>
    obtain ⟨b₁, hrun, hstep⟩ := runSteps_concat_eq_some.mp hrun
    obtain ⟨hrunning₁, hact⟩ := step_eq_some hstep
    rw [along_append hrun, along_cons_of_step hstep, flatMap_append, flatMap_singleton]
    obtain ⟨halong, honChain⟩ | ⟨halong, hastray⟩ := ih hrun hrunning₁
    · by_cases hgenesis : b₁.GenesisSent label
      · exact .inl ⟨⟨halong, hgenesis, trivial⟩, honChain.act hgenesis hact hrunning⟩
      · exact .inr ⟨fun h => hgenesis h.2.1, honChain.astray hgenesis hact⟩
    · exact .inr ⟨fun h => halong h.1, hastray.act hact hrunning⟩

theorem OnChain.publishes (h : OnChain M genesis received b) : b.Publishes M genesis received := by
  cases h with
  | idle hreceived hnew =>
    subst hreceived hnew
    have hlinked : Linked M (new genesis) := linked_of_nil rfl rfl
    exact ⟨hlinked.numbers, hlinked.chained, by simp [new]⟩
  | sent _ hlinked hkeeps => exact ⟨hlinked.numbers, hlinked.chained, hkeeps⟩

/-- The broadcaster publishes a gapless chain exactly if the genesis block is sent. -/
theorem publishes_iff (hdata : genesis ≠ [])
    (hrun : runSteps (step M maxSize) (new genesis) labels = some b)
    (hrunning : b.panicked = false) :
    b.Publishes M genesis (labels.flatMap BroadcastLabel.received) ↔
      Along (step M maxSize) GenesisSent (new genesis) labels := by
  obtain ⟨halong, honChain⟩ | ⟨halong, hastray⟩ := onChain_or_astray hrun hrunning
  · exact ⟨fun _ => halong, fun _ => honChain.publishes⟩
  · refine ⟨fun hpublishes => ?_, fun h => absurd h halong⟩
    -- the data that are there cannot begin with those that were lost
    have hsame := hpublishes.data.symm.trans hastray.keeps
    rw [append_left_inj] at hsame
    exact absurd hsame hdata

/-- After the genesis block a block with one envelope is sent by the timer, and one with two. -/
theorem publishes_exampleRun : ∃ b, runSteps (step exampleMarshal 2) (new [[1]])
    [.broadcast true, .receive ⟨some [5], []⟩, .message true, .timer true,
      .receive ⟨some [6], []⟩, .broadcast false, .receive ⟨some [7], []⟩, .message true,
      .message true] = some b ∧ b.sent.length = 3 ∧
    b.Publishes exampleMarshal [[1]] [⟨some [5], []⟩, ⟨some [6], []⟩, ⟨some [7], []⟩] := by
  refine exists_and_of_checked (fun b => b.panicked = false) (by decide +kernel) ?_
  intro b hrun hrunning
  exact (publishes_iff (by decide) hrun hrunning).mpr (by decide +kernel)

/-- If the producer does not take the genesis block, the first block has the number 1. -/
theorem not_publishes_run : ∃ b, runSteps (step exampleMarshal 1) (new [[1]])
    [.broadcast false, .receive ⟨some [5], []⟩, .message true] = some b ∧ b.panicked = false ∧
      b.sent.map (fun block => block.header.number) = [1] ∧
      ¬ b.Publishes exampleMarshal [[1]] [⟨some [5], []⟩] := by
  refine exists_and_of_checked (fun b => b.sent.map (fun block => block.header.number) = [1])
    (by decide +kernel) ?_
  intro b _ hsent
  refine ⟨hsent, fun hpublishes => ?_⟩
  obtain ⟨block, hblock, hnumber⟩ := map_eq_singleton_iff.mp hsent
  have hzero := hpublishes.numbers 0 block (by rw [hblock]; rfl)
  rw [hnumber] at hzero
  cases hzero

end Broadcaster

end Fabric.Orderer
