import Fabric.Common.Machine
import Mathlib.Data.List.Basic

/-!
# The batching emitter

Messages are forwarded in batches, each message a number of times, and then discarded. A batch
goes out when enough messages have gathered or when it is time for one, and holds all that is
buffered. The counters are decremented by a loop that deletes from the slice it runs over.
-/

namespace Fabric.Gossip

open Fabric.Common List

variable {α : Type}

structure BatchedMessage (α : Type) where
  data : α
  iterationsLeft : Int

/-- The emitter, and what its callback has been called with. -/
structure BatchingEmitter (α : Type) where
  iterations : Int
  burstSize : Int
  buff : List (BatchedMessage α)
  stopFlag : Bool
  emitted : List (List α)

def newBatchingEmitter (iterations burstSize : Int) : BatchingEmitter α :=
  ⟨iterations, burstSize, [], false, []⟩

/-- The loop of `decrementCounters` from the index `i` on, unless an index is out of range. -/
def decrementFrom (buff : List (BatchedMessage α)) (n i : Nat) : Option (List (BatchedMessage α)) :=
  if i < n then
    match buff[i]? with
    | none => none
    | some msg =>
      let msg := { msg with iterationsLeft := msg.iterationsLeft - 1 }
      if msg.iterationsLeft = 0 then
        -- the next message has moved to this index
        decrementFrom (buff.take i ++ buff.drop (i + 1)) (n - 1) i
      else
        decrementFrom (buff.set i msg) n (i + 1)
  else some buff
termination_by n - i

/-- The message with its counter decremented, while it is kept. -/
def BatchedMessage.next? (msg : BatchedMessage α) : Option (BatchedMessage α) :=
  if msg.iterationsLeft - 1 = 0 then none
  else some { msg with iterationsLeft := msg.iterationsLeft - 1 }

/-- What is before the index has been decremented, and `n` is the length of the slice. -/
theorem decrementFrom_append (done rest : List (BatchedMessage α)) :
    decrementFrom (done ++ rest) (done ++ rest).length done.length =
      some (done ++ rest.filterMap BatchedMessage.next?) := by
  induction rest generalizing done with
  | nil =>
    rw [decrementFrom]
    simp
  | cons msg rest ih =>
    rw [decrementFrom, filterMap_cons, BatchedMessage.next?]
    by_cases hzero : msg.iterationsLeft - 1 = 0
    · -- the message is deleted, and the rest moves up to its index
      simpa [hzero] using ih done
    · have hnext := ih (done ++ [{ msg with iterationsLeft := msg.iterationsLeft - 1 }])
      simpa [hzero] using hnext

namespace BatchingEmitter

def decrementCounters (p : BatchingEmitter α) : Option (BatchingEmitter α) :=
  (decrementFrom p.buff p.buff.length 0).map fun buff => { p with buff := buff }

def emit (p : BatchingEmitter α) : Option (BatchingEmitter α) :=
  if p.stopFlag then some p
  else if p.buff.length = 0 then some p
  else decrementCounters { p with emitted := p.emitted ++ [p.buff.map BatchedMessage.data] }

def add (p : BatchingEmitter α) (message : α) : Option (BatchingEmitter α) :=
  let p := { p with buff := p.buff ++ [⟨message, p.iterations⟩] }
  if p.burstSize ≤ p.buff.length then p.emit else some p

def stop (p : BatchingEmitter α) : BatchingEmitter α := { p with stopFlag := true }

/-- What is done under the lock, and `Stop`, which an emission looks for once, at its start. -/
inductive Event (α : Type)
  | add (message : α)
  | periodicEmit
  | stop

def step (p : BatchingEmitter α) : Event α → Option (BatchingEmitter α)
  | .add message => p.add message
  | .periodicEmit => p.emit
  | .stop => some p.stop

/-! ### What is forwarded -/

/-- A message that was added, and the number of batches that had been emitted before. -/
structure Addition (α : Type) where
  data : α
  before : Nat

def additions (p : BatchingEmitter α) : Event α → List (Addition α)
  | .add message => [⟨message, p.emitted.length⟩]
  | _ => []

/-- Whether it is time for a batch: an addition brings the buffer to the burst size, or there is
something to forward periodically. -/
def due (p : BatchingEmitter α) : Event α → Bool
  | .add _ => p.burstSize ≤ (p.buff.length + 1 : Nat)
  | .periodicEmit => !p.buff.isEmpty
  | .stop => false

/-- The index of the batch that an event sets off, before `Stop`. -/
def setsOff (p : BatchingEmitter α) (e : Event α) : List Nat :=
  if !p.stopFlag && p.due e then [p.emitted.length] else []

/-- The additions that the batch of this index is one of the first `iterations` after. -/
def covering (iterations : Int) (added : List (Addition α)) (index : Nat) : List (Addition α) :=
  added.filter fun a => a.before ≤ index ∧ index < a.before + iterations

/-- What is buffered when this many batches have been emitted. -/
def buffered (iterations : Int) (added : List (Addition α)) (count : Nat) :
    List (BatchedMessage α) :=
  (covering iterations added count).map fun a => ⟨a.data, a.before + iterations - count⟩

variable {iterations burstSize : Int} {added : List (Addition α)} {p : BatchingEmitter α}

/-- An addition covers the next index unless its counter comes down to zero. -/
theorem filterMap_buffered {count : Nat} (hbefore : ∀ a ∈ added, a.before ≤ count) :
    (buffered iterations added count).filterMap BatchedMessage.next? =
      buffered iterations added (count + 1) := by
  rw [buffered, buffered, covering, covering, filterMap_map, ← filterMap_eq_map, filterMap_filter,
    filterMap_filter]
  refine filterMap_congr fun a ha => ?_
  have hle := hbefore a ha
  -- only what is covered is in the buffer, and its counter is positive
  by_cases hcovers : (count : Int) < a.before + iterations
  · by_cases hlast : a.before + iterations - count - 1 = 0
    · have hnot : ¬ (count + 1 : Int) < a.before + iterations := by omega
      simp [BatchedMessage.next?, *]
    · have hlt : (count + 1 : Int) < a.before + iterations := by omega
      simp [BatchedMessage.next?, *]
      omega
  · have hnot : ¬ (count + 1 : Int) < a.before + iterations := by omega
    simp [hcovers, hnot]

/-- The batches so far hold what they should, and the buffer what the next one should. -/
structure Tracks (iterations : Int) (added : List (Addition α)) (p : BatchingEmitter α) : Prop where
  iterations_eq : p.iterations = iterations
  before_le : ∀ a ∈ added, a.before ≤ p.emitted.length
  emitted : p.emitted = (range p.emitted.length).map fun index =>
    (covering iterations added index).map Addition.data
  buff : p.buff = buffered iterations added p.emitted.length

namespace Tracks

theorem emit (h : Tracks iterations added p) :
    ∃ p', p.emit = some p' ∧ Tracks iterations added p' := by
  unfold BatchingEmitter.emit
  split_ifs
  any_goals exact ⟨p, rfl, h⟩
  refine ⟨_, congrArg (Option.map _) (decrementFrom_append [] p.buff), h.iterations_eq, ?_, ?_, ?_⟩
  · intro a ha
    have hle := h.before_le a ha
    simp
    omega
  · have hbatch : p.buff.map BatchedMessage.data =
        (covering iterations added p.emitted.length).map Addition.data := by
      rw [h.buff, buffered, map_map]
      rfl
    simp [range_succ, ← h.emitted, hbatch]
  · simp [h.buff, filterMap_buffered h.before_le]

theorem add (h : Tracks iterations added p) (hpos : 1 ≤ iterations) (message : α) :
    Tracks iterations (added ++ [⟨message, p.emitted.length⟩])
      { p with buff := p.buff ++ [⟨message, p.iterations⟩] } := by
  refine ⟨h.iterations_eq, ?_, ?_, ?_⟩
  · simpa [or_imp, forall_and] using h.before_le
  · refine h.emitted.trans (map_congr_left fun index hindex => ?_)
    have hlt := mem_range.mp hindex
    simp [covering, hlt]
  · have hlt : (p.emitted.length : Int) < p.emitted.length + iterations := by omega
    have hcount : (p.emitted.length : Int) + iterations - p.emitted.length = iterations := by omega
    simp [covering, buffered, h.buff, h.iterations_eq, hlt, hcount]

theorem step (h : Tracks iterations added p) (hpos : 1 ≤ iterations) (e : Event α) :
    ∃ p', p.step e = some p' ∧ Tracks iterations (added ++ p.additions e) p' := by
  cases e with
  | add message =>
    rw [BatchingEmitter.step, BatchingEmitter.add]
    split_ifs
    · exact (h.add hpos message).emit
    · exact ⟨_, rfl, h.add hpos message⟩
  | periodicEmit => simpa [BatchingEmitter.step, additions] using h.emit
  | stop => exact ⟨p.stop, rfl, (append_nil added).symm ▸ ⟨h.1, h.2, h.3, h.4⟩⟩

end Tracks

theorem emitted_emit {p p' : BatchingEmitter α} (h : p.emit = some p') :
    range p'.emitted.length = range p.emitted.length ++
      if !p.stopFlag && !p.buff.isEmpty then [p.emitted.length] else [] := by
  unfold emit at h
  split_ifs at h with hstop hempty
  · cases h
    simp [hstop]
  · cases h
    simp [length_eq_zero_iff.mp hempty]
  · obtain ⟨buff, -, rfl⟩ := Option.map_eq_some_iff.mp h
    simp [hstop, ← length_eq_zero_iff, hempty, range_succ]

theorem emitted_step {p p' : BatchingEmitter α} {e : Event α} (h : p.step e = some p') :
    range p'.emitted.length = range p.emitted.length ++ p.setsOff e := by
  cases e with
  | add =>
    simp only [step, add, length_append, length_singleton] at h
    rw [setsOff, due]
    split_ifs at h with hburst
    · rw [decide_eq_true hburst]
      simpa using emitted_emit h
    · cases h
      rw [decide_eq_false hburst]
      simp
  | periodicEmit => exact emitted_emit h
  | stop =>
    cases h
    simp [setsOff, due, BatchingEmitter.stop]

/-- The batches are those that the events set off. A message is in the first `iterations` of them
after it was added, the one that its own addition sets off included, and in no other, and the
batches keep the order of the additions. -/
theorem emitted_eq_covering (hpos : 1 ≤ iterations) (events : List (Event α)) :
    ∃ p, runSteps step (newBatchingEmitter iterations burstSize) events = some p ∧
      p.emitted = (outputs step setsOff (newBatchingEmitter iterations burstSize) events).map
        fun index => (covering iterations (outputs step additions
          (newBatchingEmitter iterations burstSize) events) index).map Addition.data := by
  suffices h : ∃ p, runSteps step (newBatchingEmitter iterations burstSize) events = some p ∧
      Tracks iterations (outputs step additions (newBatchingEmitter iterations burstSize) events)
        p ∧
      range p.emitted.length = outputs step setsOff (newBatchingEmitter iterations burstSize)
        events by
    obtain ⟨p, hrun, h, hcount⟩ := h
    exact ⟨p, hrun, hcount ▸ h.emitted⟩
  induction events using reverseRecOn with
  | nil => exact ⟨_, rfl, ⟨rfl, by simp, rfl, rfl⟩, rfl⟩
  | append_singleton _ e ih =>
    obtain ⟨p, hrun, h, hcount⟩ := ih
    obtain ⟨p', hstep, h'⟩ := h.step hpos e
    refine ⟨p', runSteps_concat_eq_some.mpr ⟨p, hrun, hstep⟩, ?_⟩
    rw [outputs_concat hrun hstep, outputs_concat hrun hstep, ← hcount]
    exact ⟨h', emitted_step hstep⟩

/-- The second addition sets off a batch of both messages. The third message is forwarded with them,
when their counters run out, and once more alone. -/
theorem emitted_eq_covering_burst : ∃ p : BatchingEmitter Nat,
    runSteps step (newBatchingEmitter 2 2)
      [.add 7, .add 8, .add 9, .periodicEmit, .periodicEmit, .stop] = some p ∧
    p.emitted = [[7, 8], [7, 8, 9], [9]] := by
  obtain ⟨p, hrun, hp⟩ := @emitted_eq_covering Nat 2 2 (by decide)
    [.add 7, .add 8, .add 9, .periodicEmit, .periodicEmit, .stop]
  exact ⟨p, hrun, hp.trans (by decide +kernel)⟩

end BatchingEmitter

end Fabric.Gossip
