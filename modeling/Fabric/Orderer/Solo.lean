import Fabric.Common.Machine
import Fabric.Orderer.Cutter

/-!
# The solo consenter

The main loop feeds messages to the block cutter and appends the batches that come out of it to
the ledger. A timer runs while a batch is being collected; when it expires the batch is cut.
-/

namespace Fabric.Orderer

open Fabric.Common Fabric.ConfigTx List

variable {S : Type}

/-- The consenter between two rounds of its loop, with the batches it has appended. -/
structure Solo (S : Type) where
  receiver : Receiver S
  timer : Bool
  appended : List (List Envelope)
deriving DecidableEq

/-- What the loop selects. -/
inductive SoloEvent
  | message (msg : Envelope)
  | timeout
deriving DecidableEq

namespace Solo

def start (env : S) : Solo S := ⟨⟨[], env⟩, false, []⟩

/-- A round of `main`. A timer that is not running does not expire. -/
def step (c : Cutter S) (s : Solo S) : SoloEvent → Option (Solo S)
  | .message msg => do
    let ((batches, ok), receiver) ← ordered c s.receiver msg
    if ok = true ∧ batches.length = 0 ∧ s.timer = false then some ⟨receiver, true, s.appended⟩
    else some ⟨receiver, if batches.length > 0 then false else s.timer, s.appended ++ batches⟩
  | .timeout =>
    if s.timer = true then
      let (batch, receiver) := cut s.receiver
      if batch.length = 0 then some ⟨receiver, false, s.appended⟩
      else some ⟨receiver, false, s.appended ++ [batch]⟩
    else none

/-- The message, if `Ordered` returns true for it, with what the filters say of it. -/
def answers (c : Cutter S) (s : Solo S) : SoloEvent → List (Envelope × Action)
  | .message msg =>
    match RuleSet.apply c.filters msg s.receiver.env, ordered c s.receiver msg with
    | some (action, _), some ((_, true), _) => [(msg, action)]
    | _, _ => []
  | .timeout => []

variable {c : Cutter S} {s s' : Solo S} {msg : Envelope}

theorem step_message (h : s.step c (.message msg) = some s') : ∃ batches ok receiver,
    ordered c s.receiver msg = some ((batches, ok), receiver) ∧
      s' = ⟨receiver, batches.isEmpty && (s.timer || ok), s.appended ++ batches⟩ := by
  obtain ⟨⟨⟨batches, ok⟩, receiver⟩, hordered, h⟩ := Option.bind_eq_some_iff.mp h
  refine ⟨batches, ok, receiver, hordered, ?_⟩
  cases batches with
  | nil => cases ok <;> cases htimer : s.timer <;> simpa [htimer] using h.symm
  | cons => simpa using h.symm

theorem step_timeout (h : s.step c .timeout = some s') : s.timer = true ∧
    s' = ⟨⟨[], s.receiver.env⟩, false,
      s.appended ++ if s.receiver.curBatch = [] then [] else [s.receiver.curBatch]⟩ := by
  unfold step at h
  split_ifs at h with htimer
  refine ⟨htimer, ?_⟩
  simp only [cut] at h
  by_cases hcur : s.receiver.curBatch = []
  · simpa [hcur] using h.symm
  · simpa [hcur] using h.symm

theorem answers_message {action : Action} {env : S} {batches : List (List Envelope)} {ok : Bool}
    {receiver : Receiver S}
    (happly : RuleSet.apply c.filters msg s.receiver.env = some (action, env))
    (hordered : ordered c s.receiver msg = some ((batches, ok), receiver)) :
    s.answers c (.message msg) = if ok = true then [(msg, action)] else [] := by
  simp only [answers, happly, hordered]
  cases ok <;> rfl

end Solo

/-- The messages are distributed over the batches that were appended and the pending one. -/
structure Batched (batchSize : ℕ) (included : List (Envelope × Action)) (s : Solo S)
    (batches : List (List (Envelope × Action))) (pending : List (Envelope × Action)) : Prop where
  included : batches.flatten ++ pending = included
  appended : batches.map (List.map Prod.fst) = s.appended
  curBatch : pending.map Prod.fst = s.receiver.curBatch
  ne_nil : ∀ batch ∈ batches, batch ≠ []
  length_le : ∀ batch ∈ batches, batch.length ≤ batchSize
  alone : ∀ batch ∈ batches, ∀ msg, (msg, .reconfigure) ∈ batch → batch = [(msg, .reconfigure)]
  accepted : ∀ tagged ∈ pending, tagged.2 = .accept
  length_lt : pending.length < batchSize
  timer : s.timer = true ↔ pending ≠ []

namespace Batched

variable {c : Cutter S} {included : List (Envelope × Action)} {s s' : Solo S}
  {batches : List (List (Envelope × Action))} {pending : List (Envelope × Action)}
  {msg : Envelope} {batchSize : ℕ} {event : SoloEvent} {events : List SoloEvent}

theorem of_start (hsize : 0 < batchSize) (env : S) : Batched batchSize [] (.start env) [] [] where
  included := rfl
  appended := rfl
  curBatch := rfl
  ne_nil := by simp
  length_le := by simp
  alone := by simp
  accepted := by simp
  length_lt := hsize
  timer := by simp [Solo.start]

section

variable (h : Batched batchSize included s batches pending)
include h

theorem congr (happended : s'.appended = s.appended)
    (hcur : s'.receiver.curBatch = s.receiver.curBatch)
    (htimer : s'.timer = s.timer) : Batched batchSize included s' batches pending where
  included := h.included
  appended := h.appended.trans happended.symm
  curBatch := h.curBatch.trans hcur.symm
  ne_nil := h.ne_nil
  length_le := h.length_le
  alone := h.alone
  accepted := h.accepted
  length_lt := h.length_lt
  timer := htimer ▸ h.timer

theorem collect (hlen : pending.length + 1 < batchSize) (happended : s'.appended = s.appended)
    (hcur : s'.receiver.curBatch = s.receiver.curBatch ++ [msg]) (htimer : s'.timer = true) :
    Batched batchSize (included ++ [(msg, .accept)]) s' batches (pending ++ [(msg, .accept)]) where
  included := by rw [← h.included, append_assoc]
  appended := h.appended.trans happended.symm
  curBatch := by rw [hcur, ← h.curBatch, map_append]; rfl
  ne_nil := h.ne_nil
  length_le := h.length_le
  alone := h.alone
  accepted := by simpa [or_imp] using h.accepted
  length_lt := by simpa using hlen
  timer := by simp [htimer]

theorem cut {more : List (Envelope × Action)} (hne : pending ++ more ≠ [])
    (hlen : (pending ++ more).length ≤ batchSize)
    (halone : ∀ msg, (msg, .reconfigure) ∈ pending ++ more →
      pending ++ more = [(msg, .reconfigure)])
    (happended : s'.appended = s.appended ++ [s.receiver.curBatch ++ more.map Prod.fst])
    (hcur : s'.receiver.curBatch = []) (htimer : s'.timer = false) :
    Batched batchSize (included ++ more) s' (batches ++ [pending ++ more]) [] where
  included := by
    rw [← h.included]
    simp
  appended := by
    rw [happended, ← h.curBatch, ← h.appended]
    simp
  curBatch := hcur.symm
  ne_nil := by
    intro batch hbatch
    obtain hbatch | hbatch := mem_append.mp hbatch
    · exact h.ne_nil batch hbatch
    · rwa [mem_singleton.mp hbatch]
  length_le := by
    intro batch hbatch
    obtain hbatch | hbatch := mem_append.mp hbatch
    · exact h.length_le batch hbatch
    · rwa [mem_singleton.mp hbatch]
  alone := by
    intro batch hbatch
    obtain hbatch | hbatch := mem_append.mp hbatch
    · exact h.alone batch hbatch
    · rwa [mem_singleton.mp hbatch]
  accepted := by simp
  length_lt := Nat.lt_of_le_of_lt (Nat.zero_le _) h.length_lt
  timer := by simp [htimer]

theorem not_reconfigure : (msg, .reconfigure) ∉ pending := by
  intro hmsg
  cases h.accepted _ hmsg

theorem pending_eq_nil_iff : pending = [] ↔ s.receiver.curBatch = [] := by
  rw [← h.curBatch, map_eq_nil_iff]

theorem length_curBatch : s.receiver.curBatch.length = pending.length := by
  rw [← h.curBatch, length_map]

theorem flush (hne : pending ≠ []) (env : S) :
    Batched batchSize included ⟨⟨[], env⟩, false, s.appended ++ [s.receiver.curBatch]⟩
      (batches ++ [pending]) [] := by
  have hcut : Batched batchSize (included ++ [])
      ⟨⟨[], env⟩, false, s.appended ++ [s.receiver.curBatch]⟩ (batches ++ [pending ++ []]) [] :=
    h.cut (by simpa using hne) (by simpa using h.length_lt.le)
      (fun msg hmsg => absurd (by simpa using hmsg) h.not_reconfigure) (by simp) rfl rfl
  simpa using hcut

end

theorem reconfigure (h : Batched batchSize included s batches [])
    (happended : s'.appended = s.appended ++ [[msg]]) (hcur : s'.receiver.curBatch = [])
    (htimer : s'.timer = false) :
    Batched batchSize (included ++ [(msg, .reconfigure)]) s'
      (batches ++ [[(msg, .reconfigure)]]) [] := by
  have hnil := h.curBatch.symm
  refine h.cut (by simp) h.length_lt ?_ (by simp [happended, hnil]) hcur htimer
  intro msg' hmsg
  obtain rfl : msg' = msg := by simpa using hmsg
  rfl

theorem timeout (h : Batched batchSize included s batches pending)
    (hstep : s.step c .timeout = some s') :
    s.receiver.curBatch ≠ [] ∧ Batched batchSize included s' (batches ++ [pending]) [] := by
  obtain ⟨htimer, rfl⟩ := Solo.step_timeout hstep
  have hne := h.timer.mp htimer
  have hcur : s.receiver.curBatch ≠ [] := fun hnil => hne (h.pending_eq_nil_iff.mpr hnil)
  rw [if_neg hcur]
  exact ⟨hcur, h.flush hne s.receiver.env⟩

/-- A message that is included is collected, fills the batch, or ends it and makes its own. -/
theorem message (h : Batched (max 1 c.batchSize) included s batches pending)
    (hstep : s.step c (.message msg) = some s') : ∃ batches' pending',
      Batched (max 1 c.batchSize) (included ++ s.answers c (.message msg)) s' batches'
        pending' := by
  obtain ⟨cuts, ok, ⟨curBatch, env'⟩, hordered, rfl⟩ := Solo.step_message hstep
  obtain ⟨action, env, happly, hcuts, -⟩ := ordered_cuts hordered
  rw [Solo.answers_message happly hordered]
  cases hcuts with
  | drop _ =>
    refine ⟨batches, pending, ?_⟩
    simp only [Bool.false_eq_true, if_false, append_nil]
    exact h.congr rfl rfl (by simp)
  | collect hlen =>
    rw [length_append, h.length_curBatch] at hlen
    have hlen' : pending.length + 1 < max 1 c.batchSize := hlen.trans_le (Nat.le_max_right _ _)
    rw [if_pos rfl]
    refine ⟨batches, pending ++ [(msg, .accept)], h.collect hlen' ?_ rfl ?_⟩
    · exact append_nil _
    · simp
  | fill =>
    refine ⟨_, [], h.cut (by simp) ?_ ?_ rfl rfl rfl⟩
    · rw [length_append]
      exact h.length_lt
    · intro msg' hmsg
      obtain hmsg | hmsg := mem_append.mp hmsg
      · exact absurd hmsg h.not_reconfigure
      · simp at hmsg
  | reconfigure hcur =>
    obtain rfl := h.pending_eq_nil_iff.mpr hcur
    exact ⟨_, [], h.reconfigure rfl rfl rfl⟩
  | reconfigureAfter hcur =>
    have hne : pending ≠ [] := fun hnil => hcur (h.pending_eq_nil_iff.mp hnil)
    exact ⟨_, [], (h.flush hne env').reconfigure (by simp) rfl rfl⟩

theorem step (h : Batched (max 1 c.batchSize) included s batches pending)
    (hstep : s.step c event = some s') : ∃ batches' pending',
      Batched (max 1 c.batchSize) (included ++ s.answers c event) s' batches' pending' := by
  cases event with
  | message => exact h.message hstep
  | timeout => exact ⟨_, _, by simpa [Solo.answers] using (h.timeout hstep).2⟩

/-- The included messages are distributed over batches. A batch size of zero acts as one. -/
theorem run {env : S} (hrun : runSteps (Solo.step c) (.start env) events = some s) :
    ∃ batches pending, Batched (max 1 c.batchSize)
      (outputs (Solo.step c) (Solo.answers c) (.start env) events) s batches pending := by
  have halong : Along (Solo.step c) (fun _ _ => True) (.start env) events :=
    along_of_forall fun _ _ => trivial
  refine runSteps_induction (P := fun events s => ∃ batches pending, Batched (max 1 c.batchSize)
    (outputs (Solo.step c) (Solo.answers c) (.start env) events) s batches pending)
    ⟨[], [], of_start (Nat.one_pos.trans_le (Nat.le_max_left _ _)) env⟩ ?_ halong hrun
  rintro done event s₁ s₂ hdone - ⟨batches, pending, h⟩ hstep
  rw [outputs_concat hdone hstep]
  exact h.step hstep

end Batched

/-! ### Conservation of messages -/

/-- What the consenter has appended and what it has included. -/
structure Conserves (batchSize : ℕ) (included : List (Envelope × Action)) (s : Solo S) : Prop where
  messages : s.appended.flatten ++ s.receiver.curBatch = included.map Prod.fst
  batch : ∀ batch ∈ s.appended, batch ≠ [] ∧ batch.length ≤ batchSize
  /-- each message that is a reconfiguration where it was included has a batch of its own -/
  alone : ∃ (batches : List (List (Envelope × Action))) (pending : List (Envelope × Action)),
    batches.flatten ++ pending = included ∧ batches.map (List.map Prod.fst) = s.appended ∧
    pending.map Prod.fst = s.receiver.curBatch ∧
    (∀ batch ∈ batches, ∀ msg, (msg, .reconfigure) ∈ batch → batch = [(msg, .reconfigure)]) ∧
    ∀ msg, (msg, .reconfigure) ∉ pending
  timer : s.timer = true ↔ s.receiver.curBatch ≠ []

theorem Batched.conserves {batchSize : ℕ} {included : List (Envelope × Action)} {s : Solo S}
    {batches : List (List (Envelope × Action))} {pending : List (Envelope × Action)}
    (h : Batched batchSize included s batches pending) : Conserves batchSize included s where
  messages := by
    rw [← h.appended, ← h.curBatch, ← h.included, map_append, map_flatten]
  batch := by
    intro batch hbatch
    rw [← h.appended] at hbatch
    obtain ⟨tagged, htagged, rfl⟩ := mem_map.mp hbatch
    refine ⟨?_, ?_⟩
    · rw [ne_eq, map_eq_nil_iff]
      exact h.ne_nil tagged htagged
    · rw [length_map]
      exact h.length_le tagged htagged
  alone := ⟨batches, pending, h.included, h.appended, h.curBatch, h.alone,
    fun _ => h.not_reconfigure⟩
  timer := by rw [h.timer, ne_eq, h.pending_eq_nil_iff]

/-- The solo consenter conserves messages, for every batch size, filter and manager, and any
messages and expirations; the timer never expires with nothing pending. -/
theorem conserves_of_run {c : Cutter S} {env : S} {events : List SoloEvent} {s : Solo S}
    (hsize : 1 ≤ c.batchSize) (hrun : runSteps (Solo.step c) (.start env) events = some s) :
    Conserves c.batchSize (outputs (Solo.step c) (Solo.answers c) (.start env) events) s ∧
      ∀ s', s.step c .timeout = some s' → s.receiver.curBatch ≠ [] := by
  obtain ⟨batches, pending, h⟩ := Batched.run hrun
  rw [Nat.max_eq_right hsize] at h
  exact ⟨h.conserves, fun s' hstep => (h.timeout hstep).1⟩

/-- A cutter for examples: batches of two messages, and messages that are signed with a one are
reconfigurations. -/
def exampleCutter : Cutter Unit where
  unmarshal := ⟨fun data => some ⟨none, data⟩, fun _ => some ⟨[]⟩⟩
  batchSize := 2
  filters := [emptyRejectRule,
    fun message s => if message.signature = [1] then some (.reconfigure, s) else some (.forward, s),
    acceptRule]
  validate := fun _ s => some (none, s)

theorem conserves_exampleCutter : ∃ s, runSteps (Solo.step exampleCutter) (.start ())
    [.message ⟨some [5], []⟩, .message ⟨some [6], [1]⟩, .message ⟨none, []⟩,
      .message ⟨some [7], []⟩, .timeout] = some s ∧
    s.appended.flatten ++ s.receiver.curBatch =
      [⟨some [5], []⟩, ⟨some [6], [1]⟩, ⟨some [7], []⟩] := by
  have hrun : runSteps (Solo.step exampleCutter) (.start ())
      [.message ⟨some [5], []⟩, .message ⟨some [6], [1]⟩, .message ⟨none, []⟩,
        .message ⟨some [7], []⟩, .timeout] = some ⟨⟨[], ()⟩, false,
          [[⟨some [5], []⟩], [⟨some [6], [1]⟩], [⟨some [7], []⟩]]⟩ := by decide
  exact ⟨_, hrun, (conserves_of_run (by decide) hrun).1.messages.trans (by decide)⟩

end Fabric.Orderer
