import Fabric.Common.Machine
import Fabric.Gossip.AntiEntropy

/-!
# The state provider

Blocks that arrive out of order wait in a buffer. A payload with the number that is expected next
makes its sender start a goroutine that notifies the consumer, which then takes payloads off the
buffer until the next one is missing, and commits each to the ledger.

The machine interleaves any number of pushes with the consumer, at the granularity of the
critical sections of the buffer and the receipt of a notification.
-/

namespace Fabric.Gossip

open Fabric.Common List

/-! ### The buffer -/

structure PayloadsBuffer where
  buf : UInt64 → Option Payload
  next : UInt64

namespace PayloadsBuffer

/-- The buffer that waits for a payload from `next` on. -/
def newPayloadsBuffer (next : UInt64) : PayloadsBuffer := ⟨fun _ => none, next⟩

/-- No buffer if the payload is refused; the flag says whether a notification is sent. -/
def push (b : PayloadsBuffer) (payload : Payload) : Option (PayloadsBuffer × Bool) :=
  if payload.seqNum < b.next ∨ (b.buf payload.seqNum).isSome then none
  else some
    ({ b with buf := Function.update b.buf payload.seqNum (some payload) }, payload.seqNum = b.next)

def pop (b : PayloadsBuffer) : Option (Payload × PayloadsBuffer) :=
  (b.buf b.next).map fun result =>
    (result, { buf := Function.update b.buf b.next none, next := b.next + 1 })

end PayloadsBuffer

/-! ### The provider -/

/-- Where `deliverPayloads` stands. -/
inductive Consumer
  | waiting
  | draining
  | delivering (payload : Payload)
deriving DecidableEq

/-- The provider, its ledger and metadata, and the payloads accepted and popped so far. -/
structure StateProvider (β : Type) where
  payloads : PayloadsBuffer
  notifiers : ℕ
  consumer : Consumer
  height : UInt64
  committed : List (Payload × β)
  metadata : Bytes
  accepted : List Payload
  popped : List Payload

/-- `Push`, the receipt of a notification, `Pop`, and the rest of an iteration. -/
inductive Delivery
  | push (payload : Payload)
  | ready
  | pop
  | deliver (commits : Bool)
deriving DecidableEq

namespace StateProvider

variable {β : Type}

/-- `NewGossipStateProvider` at a ledger of the given height. -/
def newStateProvider (height : UInt64) : StateProvider β where
  payloads := .newPayloadsBuffer (height + 1)
  notifiers := 0
  consumer := .waiting
  height := height
  committed := []
  metadata := NodeMetastate.bytes ⟨height⟩
  accepted := []
  popped := []

/-- `queueNewMessage`, `handleStateResponse` and `AddPayload` push and ignore a refusal. -/
def pushPayload (s : StateProvider β) (payload : Payload) : StateProvider β :=
  match s.payloads.push payload with
  | none => s
  | some (payloads, notify) =>
    { s with
      payloads := payloads
      notifiers := if notify then s.notifiers + 1 else s.notifiers
      accepted := s.accepted ++ [payload] }

/-- The loop is left when there is nothing to pop. -/
def popPayload (s : StateProvider β) : StateProvider β :=
  match s.payloads.pop with
  | none => { s with consumer := .waiting }
  | some (payload, payloads) =>
    { s with
      payloads := payloads
      consumer := .delivering payload
      popped := s.popped ++ [payload] }

/-- An error of `Unmarshal` drops the block, and one of `CommitBlock` is logged. -/
def commitBlock (unmarshal : Bytes → Option β) (s : StateProvider β) (payload : Payload)
    (commits : Bool) : StateProvider β :=
  match unmarshal payload.data, commits with
  | some block, true =>
    { s with
      consumer := .draining
      height := s.height + 1
      committed := s.committed ++ [(payload, block)]
      metadata := NodeMetastate.bytes ⟨payload.seqNum⟩ }
  | _, _ => { s with consumer := .draining }

def step (unmarshal : Bytes → Option β) (s : StateProvider β) : Delivery → Option (StateProvider β)
  | .push payload => some (s.pushPayload payload)
  | .ready =>
    if s.consumer = .waiting ∧ 0 < s.notifiers then
      some { s with notifiers := s.notifiers - 1, consumer := .draining }
    else none
  | .pop => if s.consumer = .draining then some s.popPayload else none
  | .deliver commits =>
    match s.consumer with
    | .delivering payload => some (s.commitBlock unmarshal payload commits)
    | _ => none

/-! ### What a step does -/

variable {unmarshal : Bytes → Option β} {s s' : StateProvider β} {a : Delivery}
  {payload : Payload} {n : UInt64} {commits : Bool}

theorem pushPayload_cases (s : StateProvider β) (payload : Payload) : s.pushPayload payload = s ∨
    (s.payloads.next ≤ payload.seqNum ∧ s.payloads.buf payload.seqNum = none ∧
      s.pushPayload payload = { s with
        payloads.buf := Function.update s.payloads.buf payload.seqNum (some payload)
        notifiers := if payload.seqNum = s.payloads.next then s.notifiers + 1 else s.notifiers
        accepted := s.accepted ++ [payload] }) := by
  unfold pushPayload PayloadsBuffer.push
  by_cases h : payload.seqNum < s.payloads.next ∨ (s.payloads.buf payload.seqNum).isSome
  · rw [if_pos h]
    exact .inl rfl
  · rw [if_neg h]
    push Not at h
    refine .inr ⟨UInt64.not_lt.mp h.1, by simpa using h.2, ?_⟩
    simp

theorem popPayload_cases (s : StateProvider β) :
    (s.payloads.buf s.payloads.next = none ∧ s.popPayload = { s with consumer := .waiting }) ∨
    ∃ payload, s.payloads.buf s.payloads.next = some payload ∧ s.popPayload = { s with
        payloads :=
          { buf := Function.update s.payloads.buf s.payloads.next none
            next := s.payloads.next + 1 }
        consumer := .delivering payload
        popped := s.popped ++ [payload] } := by
  unfold popPayload PayloadsBuffer.pop
  cases h : s.payloads.buf s.payloads.next with
  | none => exact .inl ⟨rfl, rfl⟩
  | some payload => exact .inr ⟨payload, rfl, rfl⟩

theorem step_cases (h : s.step unmarshal a = some s') :
    (∃ payload, a = .push payload ∧ s' = s.pushPayload payload) ∨
    (a = .ready ∧ s.consumer = .waiting ∧
      s' = { s with notifiers := s.notifiers - 1, consumer := .draining }) ∨
    (a = .pop ∧ s.consumer = .draining ∧ s' = s.popPayload) ∨
    ∃ payload commits, a = .deliver commits ∧ s.consumer = .delivering payload ∧
      s' = s.commitBlock unmarshal payload commits := by
  cases a with simp only [step] at h
  | push payload => exact .inl ⟨payload, rfl, (Option.some.inj h).symm⟩
  | ready =>
    split at h
    case isTrue hc => exact .inr (.inl ⟨rfl, hc.1, (Option.some.inj h).symm⟩)
    case isFalse => cases h
  | pop =>
    split at h
    case isTrue hc => exact .inr (.inr (.inl ⟨rfl, hc, (Option.some.inj h).symm⟩))
    case isFalse => cases h
  | deliver commits =>
    cases hc : s.consumer with
    | delivering payload =>
      rw [hc] at h
      exact .inr (.inr (.inr ⟨payload, commits, rfl, rfl, (Option.some.inj h).symm⟩))
    | waiting => simp [hc] at h
    | draining => simp [hc] at h

theorem commitBlock_cases (unmarshal : Bytes → Option β) (s : StateProvider β) (payload : Payload)
    (commits : Bool) :
    (∃ block, unmarshal payload.data = some block ∧ commits = true ∧
      s.commitBlock unmarshal payload commits = { s with
        consumer := .draining
        height := s.height + 1
        committed := s.committed ++ [(payload, block)]
        metadata := NodeMetastate.bytes ⟨payload.seqNum⟩ }) ∨
    (¬ (commits = true ∧ (unmarshal payload.data).isSome) ∧
      s.commitBlock unmarshal payload commits = { s with consumer := .draining }) := by
  unfold commitBlock
  cases h : unmarshal payload.data <;> cases commits <;> simp

/-! ### Payloads in order -/

/-- What is popped is numbered from the first number on, what is buffered waits under its number,
and the consumer is or will be awake while the next payload is there. -/
structure InOrder (first : UInt64) (s : StateProvider β) : Prop where
  next : s.payloads.next.toNat = first.toNat + s.popped.length
  popped : ∀ i (h : i < s.popped.length), (s.popped.get ⟨i, h⟩).seqNum.toNat = first.toNat + i
  accepted : s.popped ⊆ s.accepted
  buffered : ∀ n payload, s.payloads.buf n = some payload → payload.seqNum = n ∧
    s.payloads.next ≤ n ∧ n < maxUInt64 ∧ payload ∈ s.accepted
  awake : (s.payloads.buf s.payloads.next).isSome → 0 < s.notifiers ∨ s.consumer ≠ .waiting

variable {first : UInt64}

theorem forall_get_concat {α : Type} {P : ℕ → α → Prop} {l : List α} {a : α}
    (h : ∀ i (hi : i < l.length), P i (l.get ⟨i, hi⟩)) (ha : P l.length a) :
    ∀ i (hi : i < (l ++ [a]).length), P i ((l ++ [a]).get ⟨i, hi⟩) := by
  intro i hi
  by_cases hlast : i < l.length
  · simpa [getElem_append_left hlast] using h i hlast
  · obtain rfl : i = l.length := by
      simp only [length_append, length_singleton] at hi
      omega
    simpa using ha

theorem InOrder.init (height : UInt64) :
    InOrder (height + 1) (newStateProvider height : StateProvider β) where
  next := rfl
  popped i h := absurd h (Nat.not_lt_zero i)
  accepted := List.Subset.refl _
  buffered _ _ h := by cases h
  awake h := by cases h

theorem InOrder.pushPayload (h : InOrder first s) (hmax : payload.seqNum < maxUInt64) :
    InOrder first (s.pushPayload payload) := by
  rcases s.pushPayload_cases payload with hsame | ⟨hle, -, hpush⟩
  · rwa [hsame]
  · rw [hpush]
    refine ⟨h.next, h.popped, ?_, ?_, ?_⟩
    · exact List.Subset.trans h.accepted (subset_append_left _ _)
    · intro n p hp
      by_cases hn : n = payload.seqNum
      · subst hn
        obtain rfl : payload = p := by simpa using hp
        exact ⟨rfl, hle, hmax, by simp⟩
      · have hp : s.payloads.buf n = some p := by simpa [hn] using hp
        obtain ⟨hseq, hnext, hlt, hmem⟩ := h.buffered n p hp
        exact ⟨hseq, hnext, hlt, mem_append_left _ hmem⟩
    · -- the payload that is expected next brings its own notification
      intro hsome
      by_cases hnext : payload.seqNum = s.payloads.next
      · simp [hnext]
      · have hsome : (s.payloads.buf s.payloads.next).isSome := by
          simpa [Ne.symm hnext] using hsome
        simpa [hnext] using h.awake hsome

theorem InOrder.popPayload (h : InOrder first s) : InOrder first s.popPayload := by
  rcases s.popPayload_cases with ⟨hnone, hpop⟩ | ⟨payload, hsome, hpop⟩
  · rw [hpop]
    exact ⟨h.next, h.popped, h.accepted, h.buffered, by simp [hnone]⟩
  · obtain ⟨hseq, -, hlt, hmem⟩ := h.buffered _ _ hsome
    -- the popped number is below the greatest one, so the next number does not wrap around
    have hsucc := toNat_succ (UInt64.ne_of_lt hlt)
    rw [hpop]
    refine ⟨?_, ?_, ?_, ?_, by simp⟩
    · simp [hsucc, h.next, Nat.add_assoc]
    · exact forall_get_concat (P := fun i (p : Payload) => p.seqNum.toNat = first.toNat + i)
        h.popped (by rw [hseq, h.next])
    · exact append_subset.mpr ⟨h.accepted, cons_subset.mpr ⟨hmem, nil_subset _⟩⟩
    -- what is left in the buffer is not the payload that was expected
    · intro n p hp
      by_cases hn : n = s.payloads.next
      · simp [hn] at hp
      · have hp : s.payloads.buf n = some p := by simpa [hn] using hp
        obtain ⟨hseq, hnext, hlt, hmem⟩ := h.buffered n p hp
        refine ⟨hseq, ?_, hlt, hmem⟩
        have hne := mt UInt64.toNat_inj.mp hn
        rw [UInt64.le_iff_toNat_le] at hnext ⊢
        simp only [hsucc]
        omega

theorem InOrder.step (h : InOrder first s)
    (hmax : ∀ payload, a = .push payload → payload.seqNum < maxUInt64)
    (hstep : s.step unmarshal a = some s') : InOrder first s' := by
  obtain ⟨payload, rfl, rfl⟩ | ⟨rfl, -, rfl⟩ | ⟨rfl, -, rfl⟩ | ⟨payload, commits, rfl, -, rfl⟩ :=
    step_cases hstep
  · exact h.pushPayload (hmax payload rfl)
  · exact ⟨h.next, h.popped, h.accepted, h.buffered, by simp⟩
  · exact h.popPayload
  · obtain ⟨block, -, -, hcommit⟩ | ⟨-, hcommit⟩ :=
      commitBlock_cases unmarshal s payload commits
    all_goals
      rw [hcommit]
      exact ⟨h.next, h.popped, h.accepted, h.buffered, by simp⟩

theorem InOrder.nodup (h : InOrder first s) : s.popped.Nodup := by
  rw [nodup_iff_injective_get]
  intro i j hij
  have hi := h.popped i i.isLt
  have hj := h.popped j j.isLt
  rw [show s.popped.get ⟨i, i.isLt⟩ = s.popped.get ⟨j, j.isLt⟩ from hij] at hi
  exact Fin.ext (by omega)

/-- The popped payloads are numbered from the first number on without gap, each accepted and popped
once, and while the next one is there a notification is pending or the consumer is in its loop. -/
theorem deliverPayloads_inOrder (unmarshal : Bytes → Option β) (height : UInt64)
    (labels : List Delivery) (hmax : ∀ payload, .push payload ∈ labels → payload.seqNum < maxUInt64)
    (hrun : runSteps (step unmarshal) (newStateProvider height) labels = some s) :
    (∀ i (h : i < s.popped.length), (s.popped.get ⟨i, h⟩).seqNum.toNat = (height + 1).toNat + i) ∧
    s.popped.Nodup ∧ s.popped ⊆ s.accepted ∧
    ((s.payloads.buf s.payloads.next).isSome → 0 < s.notifiers ∨ s.consumer ≠ .waiting) := by
  have halong : Along (step unmarshal)
      (fun _ a => ∀ payload, a = .push payload → payload.seqNum < maxUInt64)
      (newStateProvider height) labels :=
    along_of_forall_mem fun a ha _ payload hpush => hmax payload (hpush ▸ ha)
  have h := runSteps_invariant (InOrder.init height) (fun _ _ _ hmax h => h.step hmax) halong hrun
  exact ⟨h.popped, h.nodup, h.accepted, h.awake⟩

/-- The second payload comes first, and an old one again; the consumer is woken once. -/
theorem deliverPayloads_inOrder_reordered : ∃ s, runSteps (step some) (newStateProvider 4)
      [.push ⟨6, [], [6]⟩, .push ⟨5, [], [5]⟩, .push ⟨5, [], [7]⟩, .ready, .pop, .deliver true,
        .push ⟨3, [], [3]⟩, .pop, .deliver true, .pop] = some s ∧
      s.popped = [⟨5, [], [5]⟩, ⟨6, [], [6]⟩] ∧ s.popped.Nodup := by
  refine exists_and_of_checked (fun _ => True) (by decide +kernel) ?_
  rintro s hs -
  exact (deliverPayloads_inOrder some 4 _ (by simp +decide) hs).2.1

/-! ### A chain without gaps -/

/-- The blocks come from the payloads from the first height on, and the block after the last is
next. -/
structure Gapless (unmarshal : Bytes → Option β) (height : UInt64) (s : StateProvider β) :
    Prop where
  committed : ∀ k (h : k < s.committed.length),
    (s.committed.get ⟨k, h⟩).1.seqNum = height + UInt64.ofNat (k + 1) ∧
    unmarshal (s.committed.get ⟨k, h⟩).1.data = some (s.committed.get ⟨k, h⟩).2
  next : (∀ payload, s.consumer ≠ .delivering payload) → s.payloads.next = s.height + 1

/-- The payload that the consumer holds decodes, and `CommitBlock` takes its block. -/
def Delivers (unmarshal : Bytes → Option β) (s : StateProvider β) : Delivery → Prop
  | .deliver commits =>
    ∀ payload, s.consumer = .delivering payload → commits = true ∧ (unmarshal payload.data).isSome
  | _ => True

/-- The ledger has grown by the committed blocks, and the buffer is a payload ahead in an iteration.
-/
structure Chained (unmarshal : Bytes → Option β) (height : UInt64) (s : StateProvider β) :
    Prop extends Gapless unmarshal height s where
  grown : s.height = height + UInt64.ofNat s.committed.length
  buffered : ∀ n payload, s.payloads.buf n = some payload → payload.seqNum = n
  ahead : ∀ payload, s.consumer = .delivering payload →
    payload.seqNum = s.height + 1 ∧ s.payloads.next = s.height + 1 + 1

variable {height : UInt64}

theorem Chained.init (height : UInt64) :
    Chained unmarshal height (newStateProvider height : StateProvider β) where
  committed k h := absurd h (Nat.not_lt_zero k)
  next _ := rfl
  grown := (UInt64.add_zero height).symm
  buffered _ _ h := by cases h
  ahead _ h := by cases h

section

variable (h : Chained unmarshal height s)
include h

theorem Chained.pushPayload : Chained unmarshal height (s.pushPayload payload) := by
  rcases s.pushPayload_cases payload with hsame | ⟨-, -, hpush⟩
  · rwa [hsame]
  · rw [hpush]
    refine ⟨⟨h.committed, h.next⟩, h.grown, ?_, h.ahead⟩
    intro n p hp
    by_cases hn : n = payload.seqNum
    · subst hn
      obtain rfl : payload = p := by simpa using hp
      rfl
    · exact h.buffered n p (by simpa [hn] using hp)

theorem Chained.popPayload (hc : s.consumer = .draining) :
    Chained unmarshal height s.popPayload := by
  have hnext := h.next (by simp [hc])
  rcases s.popPayload_cases with ⟨-, hpop⟩ | ⟨payload, hsome, hpop⟩
  · rw [hpop]
    exact ⟨⟨h.committed, fun _ => hnext⟩, h.grown, h.buffered, by simp⟩
  · rw [hpop]
    refine ⟨⟨h.committed, by simp⟩, h.grown, ?_, ?_⟩
    · intro n p hp
      by_cases hn : n = s.payloads.next
      · simp [hn] at hp
      · exact h.buffered n p (by simpa [hn] using hp)
    · rintro p ⟨⟩
      exact ⟨(h.buffered _ _ hsome).trans hnext, by rw [hnext]⟩

theorem Chained.commit (hc : s.consumer = .delivering payload)
    {block : β} (hblock : unmarshal payload.data = some block) :
    Chained unmarshal height { s with
      consumer := .draining
      height := s.height + 1
      committed := s.committed ++ [(payload, block)]
      metadata := NodeMetastate.bytes ⟨payload.seqNum⟩ } := by
  obtain ⟨hseq, hnext⟩ := h.ahead payload hc
  have hgrown : s.height + 1 = height + UInt64.ofNat (s.committed.length + 1) := by
    rw [h.grown, UInt64.add_assoc, UInt64.ofNat_add]
    rfl
  refine ⟨⟨?_, fun _ => hnext⟩, by simpa using hgrown, h.buffered, by simp⟩
  exact forall_get_concat
    (P := fun k (entry : Payload × β) => entry.1.seqNum = height + UInt64.ofNat (k + 1) ∧
      unmarshal entry.1.data = some entry.2)
    h.committed ⟨hseq.trans hgrown, hblock⟩

theorem Chained.step (hdel : Delivers unmarshal s a)
    (hstep : s.step unmarshal a = some s') : Chained unmarshal height s' := by
  obtain ⟨payload, rfl, rfl⟩ | ⟨rfl, hc, rfl⟩ | ⟨rfl, hc, rfl⟩ | ⟨payload, commits, rfl, hc, rfl⟩ :=
    step_cases hstep
  · exact h.pushPayload
  · exact ⟨⟨h.committed, fun _ => h.next (by simp [hc])⟩, h.grown, h.buffered, by simp⟩
  · exact h.popPayload hc
  · obtain ⟨block, hblock, -, hcommit⟩ | ⟨hfail, -⟩ :=
      commitBlock_cases unmarshal s payload commits
    · rw [hcommit]
      exact h.commit hc hblock
    · exact absurd (hdel payload hc) hfail

theorem Chained.delivers (hstep : s.step unmarshal a = some s')
    (hgap : Gapless unmarshal height s') : Delivers unmarshal s a := by
  obtain ⟨payload, rfl, -⟩ | ⟨rfl, -, -⟩ | ⟨rfl, -, -⟩ | ⟨payload, commits, rfl, hc, rfl⟩ :=
    step_cases hstep
  · trivial
  · trivial
  · trivial
  · intro payload' hc'
    obtain rfl : payload = payload' := by simpa [hc] using hc'
    obtain ⟨block, hblock, hcommits, -⟩ | ⟨-, hfail⟩ :=
      commitBlock_cases unmarshal s payload commits
    · simp [hblock, hcommits]
    -- the buffer is ahead by two, and no sum of numbers brings it back
    · rw [hfail] at hgap
      have hnext := hgap.next (by simp)
      rw [(h.ahead payload hc).2] at hnext
      exact absurd hnext (by simp)

end

/-- The chain is gapless throughout a run exactly if every popped payload decodes and is committed.
-/
theorem gapless_iff (unmarshal : Bytes → Option β) (height : UInt64) (labels : List Delivery)
    (hrun : runSteps (step unmarshal) (newStateProvider height) labels = some s) :
    Along (step unmarshal) (Delivers unmarshal) (newStateProvider height) labels ↔
      ∀ done, done <+: labels → ∀ s',
        runSteps (step unmarshal) (newStateProvider height) done = some s' →
        Gapless unmarshal height s' := by
  apply along_iff (I := Chained unmarshal height) _ _ _
    (Chained.init height) (along_of_forall fun _ _ => trivial) hrun
  · exact fun _ h => h.toGapless
  · exact fun _ _ _ _ hdel h hstep => h.step hdel hstep
  · exact fun _ _ _ _ h hstep hgap => h.delivers hstep hgap

/-- Two payloads that decode and commit, the second of which is pushed in between. -/
theorem gapless_iff_delivered :
    ∃ s, runSteps (step some) (newStateProvider 0) [.push ⟨1, [], [1]⟩, .ready, .pop,
        .push ⟨2, [], [2]⟩, .deliver true, .pop, .deliver true] = some s ∧
      s.committed = [(⟨1, [], [1]⟩, [1]), (⟨2, [], [2]⟩, [2])] ∧ Gapless some 0 s := by
  refine exists_and_of_checked (fun _ => True) (by decide +kernel) ?_
  rintro s hs -
  refine (gapless_iff some 0 _ hs).mp ?_ _ prefix_rfl s hs
  have hdecodes : ∀ s : StateProvider Bytes, Delivers some s (.deliver true) :=
    fun _ _ _ => ⟨rfl, rfl⟩
  exact ⟨trivial, trivial, trivial, trivial, hdecodes _, trivial, hdecodes _, trivial⟩

/-- A block without content does not decode. -/
def unmarshalNonempty (data : Bytes) : Option Bytes := if data = [] then none else some data

/-- The second block is committed in the place of the first, whose payload does not decode. -/
theorem not_gapless_undecodable : ∃ s, runSteps (step unmarshalNonempty) (newStateProvider 0)
      [.push ⟨1, [], []⟩, .push ⟨2, [], [2]⟩, .ready, .pop, .deliver true, .pop, .deliver true] =
        some s ∧
      s.committed = [(⟨2, [], [2]⟩, [2])] ∧ s.payloads.next = 3 ∧ s.height = 1 ∧
      ¬ Gapless unmarshalNonempty 0 s := by
  refine exists_and_of_checked (fun s => s.payloads.next = 3 ∧ s.height = 1 ∧ s.consumer = .draining)
    (by decide +kernel) ?_
  rintro s - ⟨hnext, hheight, hconsumer⟩
  refine ⟨hnext, hheight, fun hgap => ?_⟩
  have := hgap.next (by simp [hconsumer])
  rw [hnext, hheight] at this
  exact absurd this (by decide)

end StateProvider

end Fabric.Gossip
