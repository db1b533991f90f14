import Fabric.Common.Int64
import Fabric.Common.Tokens
import Fabric.Orderer.Deliver

/-!
# The deliver service over Kafka

`sendBlocks` takes the updates of a client one after another, and sends it a block for every
token in `tokenChan`. A seek fills the channel with as many tokens as the window has room, an
acknowledgement makes a new channel with the tokens that were left and one more for every block
that is acknowledged.

The partition is known by its oldest offset and the offset of its next message, as the brokers
answer. A consumer is known by the offset of its next message.
-/

namespace Fabric.Orderer

open Fabric.Common Option TokenChan

/-- An offset of a partition. -/
abbrev Offset := Fin (2 ^ 63)

/-- The errors that are told apart by their text, and all others. -/
inductive UpdateError
  | ackOutOfRange
  | seekOutOfRange
  | windowOutOfRange
  | other
deriving DecidableEq

/-- The status with which the client is told of an error. -/
def UpdateError.status : UpdateError → Status
  | .seekOutOfRange => .notFound
  | .ackOutOfRange | .windowOutOfRange => .badRequest
  | .other => .serviceUnavailable

/-- Why an update is not taken: an error, or the goroutine stops or blocks for ever. -/
inductive Stop
  | error (error : UpdateError)
  | panicked
  | blocked
deriving DecidableEq

/-- What is answered while a seek is processed: offsets, closing, and the range of the partition. -/
structure SeekAnswers where
  oldest : Option Offset
  newest : Option Offset
  close : Bool
  consumer : Option (Offset × Offset)
deriving DecidableEq

structure ClientDeliverer where
  consumer : Option ℤ
  tokenChan : Option TokenChan
  lastACK : ℤ
  window : ℤ
deriving DecidableEq

namespace ClientDeliverer

variable (cd : ClientDeliverer)

/-- The tokens in `tokenChan`, which are none if the channel is nil. -/
def tokens : ℕ := (cd.tokenChan.map TokenChan.length).getD 0

def disablePush : ℤ × ClientDeliverer := (cd.tokens, { cd with tokenChan := none })

/-- `make` stops the goroutine if the capacity is negative. -/
def enablePush (newTokenCount : ℤ) : Except Stop ClientDeliverer :=
  if newTokenCount < 0 then .error .panicked
  else match (TokenChan.make newTokenCount.toNat).fill newTokenCount.toNat with
    | none => .error .blocked
    | some tokenChan => .ok { cd with tokenChan := some tokenChan }

def processACK (number : UInt64) : Except Stop ClientDeliverer :=
  let (remTokens, cd) := cd.disablePush
  let newACK := int64 number.toNat
  if newACK < cd.lastACK ∨ newACK > int64 (cd.lastACK + cd.window) then
    .error (.error .ackOutOfRange)
  else
    let newTokenCount := int64 (int64 (newACK - cd.lastACK) + remTokens)
    { cd with lastACK := newACK }.enablePush newTokenCount

/-- Where the consumer starts: −1 and −2 stand for the newest and the oldest offset. -/
def chooseStartingOffset (offset oldestOffset newestOffset : ℤ) : Option ℤ :=
  if offset = -1 then some newestOffset
  else if offset = -2 then some oldestOffset
  else if oldestOffset ≤ offset ∧ offset ≤ newestOffset then some offset
  else none

/-- The offset that a seek asks for. -/
def seekOffset (info : SeekInfo) (oldestAvailable newestAvailable : ℤ) : Except Stop ℤ :=
  match info.start with
  | .oldest => .ok oldestAvailable
  | .newest => .ok newestAvailable
  | .specified =>
    let seek := int64 info.specifiedNumber.toNat
    if oldestAvailable ≤ seek ∧ seek ≤ newestAvailable then .ok seek
    else .error (.error .seekOutOfRange)
  | .unknown _ => .ok 0

/-- Replace the consumer. -/
def restart (answers : SeekAnswers) (seek : ℤ) : Except Stop ClientDeliverer :=
  let (_, cd) := cd.disablePush
  if cd.consumer.isSome ∧ answers.close = false then .error (.error .other)
  else match answers.consumer with
    | none => .error (.error .other)
    | some (oldestOffset, newestOffset) =>
      match chooseStartingOffset seek oldestOffset newestOffset with
      | none => .error (.error .other)
      | some offset =>
        { cd with lastACK := int64 (seek - 1), consumer := some offset }.enablePush cd.window

/-- The second component is the offset that the deliverer seeks to. -/
def processSeek (maxWindow : UInt64) (info : SeekInfo) (answers : SeekAnswers) :
    Except Stop (ClientDeliverer × ℤ) :=
  let window := int64 info.windowSize.toNat
  if window ≤ 0 ∨ window > int64 maxWindow.toNat then .error (.error .windowOutOfRange)
  else
    let cd := { cd with window := window }
    match answers.oldest, answers.newest with
    | some oldestAvailable, some newest =>
      (seekOffset info oldestAvailable (int64 (newest - 1))).bind fun seek =>
        (cd.restart answers seek).map fun cd => (cd, seek)
    | _, _ => .error (.error .other)

end ClientDeliverer

/-- What `sendBlocks` takes up next. -/
inductive ClientEvent
  /-- the service is shut down, or nothing more is received -/
  | shutdown
  | seek (info : SeekInfo) (answers : SeekAnswers)
  | acknowledgement (number : UInt64)
  | noType
  /-- a token is taken: whether a message is there, and whether the block can be sent -/
  | token (message ok : Bool)
deriving DecidableEq

/-- Where `sendBlocks` is: at its `select`, or it has returned, perhaps with a status. -/
inductive SendPhase
  | selecting
  | returned (status : Option Status)
  | panicked
  | blocked
deriving DecidableEq

/-- The loop of `sendBlocks`, with the last successful seek and the offsets sent since. -/
structure Delivery where
  cd : ClientDeliverer
  phase : SendPhase
  seek : Option ℤ
  sent : List ℤ
deriving DecidableEq

namespace Delivery

def start : Delivery := ⟨⟨none, none, 0, 0⟩, .selecting, none, []⟩

variable (maxWindow : UInt64) (s : Delivery)

def stop : Stop → Delivery
  | .error error => { s with phase := .returned (some error.status) }
  | .panicked => { s with phase := .panicked }
  | .blocked => { s with phase := .blocked }

/-- A seek has been processed. -/
def sought : Except Stop (ClientDeliverer × ℤ) → Delivery
  | .ok (cd, seek) => { s with cd := cd, seek := some seek, sent := [] }
  | .error reason => s.stop reason

/-- An acknowledgement has been processed. -/
def acknowledged : Except Stop ClientDeliverer → Delivery
  | .ok cd => { s with cd := cd }
  | .error reason => s.stop reason

/-- A token has been taken. -/
def push (tokenChan : TokenChan) (message ok : Bool) : Delivery :=
  match s.cd.consumer with
  | none => s.stop .panicked
  | some offset =>
    if message = true then
      let cd := { s.cd with tokenChan := some tokenChan, consumer := some (offset + 1) }
      if ok = true then { s with cd := cd, sent := s.sent ++ [offset] }
      else { s with cd := cd, phase := .returned none }
    else match tokenChan.put with
      | none => s.stop .blocked
      | some tokenChan => { s with cd := { s.cd with tokenChan := some tokenChan } }

def handle : ClientEvent → Option Delivery
  | .shutdown => some { s with phase := .returned none }
  | .seek info answers => some (s.sought (s.cd.processSeek maxWindow info answers))
  | .acknowledgement number => some (s.acknowledged (s.cd.processACK number))
  | .noType => some s
  | .token message ok =>
    (s.cd.tokenChan.bind TokenChan.take).map fun tokenChan => s.push tokenChan message ok

def step (event : ClientEvent) : Option Delivery :=
  if s.phase = .selecting then s.handle maxWindow event else none

/-- The offset of the block that is sent. -/
def sends : ClientEvent → List ℤ
  | .token true _ => if s.phase = .selecting ∧ s.cd.tokens ≠ 0 then s.cd.consumer.toList else []
  | _ => []

/-- The newest block is not sought on an empty partition, and the tokens fit into an `int64`. -/
def Anchored : ClientEvent → Prop
  | .seek info answers => info.start = .newest → answers.newest ≠ some 0
  | .acknowledgement number => int64 number.toNat ≤ int64 (s.cd.lastACK + s.cd.window) →
    int64 number.toNat - s.cd.lastACK + s.cd.tokens < 2 ^ 63
  | _ => True

instance : (event : ClientEvent) → Decidable (s.Anchored event)
  | .seek info answers =>
    inferInstanceAs (Decidable (info.start = .newest → answers.newest ≠ some 0))
  | .acknowledgement number =>
    inferInstanceAs (Decidable (int64 number.toNat ≤ int64 (s.cd.lastACK + s.cd.window) →
      int64 number.toNat - s.cd.lastACK + s.cd.tokens < 2 ^ 63))
  | .shutdown | .noType | .token _ _ => .isTrue trivial

/-- The blocks sent since the seek and the tokens make up what the acknowledgement allows, no block
beyond it is sent, and `sendBlocks` neither stops nor blocks. -/
structure FlowControlled : Prop where
  conserved : s.phase = .selecting → ∀ seek, s.seek = some seek →
    (s.sent.length : ℤ) + s.cd.tokens = s.cd.lastACK - (seek - 1) + s.cd.window
  window : ∀ event, ∀ offset ∈ s.sends event, offset ≤ s.cd.lastACK + s.cd.window
  not_panicked : s.phase ≠ .panicked
  not_blocked : s.phase ≠ .blocked

end Delivery

/-! ### What the updates do -/

namespace ClientDeliverer

variable {cd cd' : ClientDeliverer} {n : ℤ} {maxWindow : UInt64}

theorem enablePush_of_nonneg (h : 0 ≤ n) : cd.enablePush n =
    .ok { cd with tokenChan := some ⟨n.toNat, n.toNat, le_rfl⟩ } := by
  have hfill : (make n.toNat).fill n.toNat = some ⟨n.toNat, n.toNat, le_rfl⟩ := by
    rw [fill_of_room (by simp [make])]
    simp [make]
  rw [enablePush, if_neg (by omega), hfill]

theorem processACK_cases {number : UInt64} (hlastACK : -1 ≤ cd.lastACK) (hwindow : 0 ≤ cd.window)
    (hfits : int64 number.toNat ≤ int64 (cd.lastACK + cd.window) →
      int64 number.toNat - cd.lastACK + cd.tokens < 2 ^ 63) :
    cd.processACK number = .error (.error .ackOutOfRange) ∨
    ∃ (newACK : ℤ) (count : ℕ), cd.lastACK ≤ newACK ∧ newACK ≤ cd.lastACK + cd.window ∧
      (count : ℤ) = newACK - cd.lastACK + cd.tokens ∧ cd.processACK number = .ok { cd with
        lastACK := newACK, tokenChan := some ⟨count, count, le_rfl⟩ } := by
  have heq : cd.processACK number = if int64 number.toNat < cd.lastACK ∨
          int64 number.toNat > int64 (cd.lastACK + cd.window) then
        .error (.error .ackOutOfRange)
      else { cd with tokenChan := none, lastACK := int64 number.toNat }.enablePush
        (int64 (int64 (int64 number.toNat - cd.lastACK) + cd.tokens)) := rfl
  by_cases hout : int64 number.toNat < cd.lastACK ∨
      int64 number.toNat > int64 (cd.lastACK + cd.window)
  · rw [if_pos hout] at heq
    exact .inl heq
  · rw [if_neg hout] at heq
    right
    -- a sum beyond the range wraps to a number below every acknowledgement
    have hsum := int64_le (n := cd.lastACK + cd.window) (by omega)
    have hdiff : int64 (int64 number.toNat - cd.lastACK) = int64 number.toNat - cd.lastACK :=
      int64_of_range (by omega) (by omega)
    have hcount : int64 (int64 number.toNat - cd.lastACK + cd.tokens) =
        int64 number.toNat - cd.lastACK + cd.tokens := int64_of_range (by omega) (by omega)
    rw [hdiff, hcount, enablePush_of_nonneg (by omega)] at heq
    refine ⟨int64 number.toNat, (int64 number.toNat - cd.lastACK + cd.tokens).toNat, by omega,
      by omega, Int.toNat_of_nonneg (by omega), ?_⟩
    rw [heq]

theorem seekOffset_cases (info : SeekInfo) {oldestAvailable newestAvailable : ℤ}
    (holdest : 0 ≤ oldestAvailable) (hnewest : info.start = .newest → 0 ≤ newestAvailable) :
    seekOffset info oldestAvailable newestAvailable = .error (.error .seekOutOfRange) ∨
    ∃ seek, 0 ≤ seek ∧ seekOffset info oldestAvailable newestAvailable = .ok seek := by
  unfold seekOffset
  cases hstart : info.start with
  | oldest => exact .inr ⟨_, holdest, rfl⟩
  | newest => exact .inr ⟨_, hnewest hstart, rfl⟩
  | specified =>
    by_cases hrange : oldestAvailable ≤ int64 info.specifiedNumber.toNat ∧
        int64 info.specifiedNumber.toNat ≤ newestAvailable
    · exact .inr ⟨_, holdest.trans hrange.1, if_pos hrange⟩
    · exact .inl (if_neg hrange)
  | unknown => exact .inr ⟨_, le_rfl, rfl⟩

theorem restart_of_range {answers : SeekAnswers} {oldest newest : Offset} {seek : ℤ}
    (hclose : ¬ (cd.consumer.isSome ∧ answers.close = false))
    (hconsumer : answers.consumer = some (oldest, newest))
    (hrange : (oldest : ℤ) ≤ seek ∧ seek ≤ newest) (hwindow : 0 ≤ cd.window) :
    cd.restart answers seek = .ok ⟨some seek,
      some ⟨cd.window.toNat, cd.window.toNat, le_rfl⟩, seek - 1, cd.window⟩ := by
  have hoffset : chooseStartingOffset seek oldest newest = some seek := by
    rw [chooseStartingOffset, if_neg (by omega), if_neg (by omega), if_pos hrange]
  simp only [restart, disablePush, if_neg hclose, hconsumer, hoffset]
  rw [enablePush_of_nonneg hwindow, int64_of_range (by omega) (by omega)]

theorem restart_cases (answers : SeekAnswers) {seek : ℤ} (hseek : 0 ≤ seek)
    (hwindow : 0 ≤ cd.window) : cd.restart answers seek = .error (.error .other) ∨
    cd.restart answers seek = .ok ⟨some seek,
      some ⟨cd.window.toNat, cd.window.toNat, le_rfl⟩, seek - 1, cd.window⟩ := by
  by_cases hclose : cd.consumer.isSome ∧ answers.close = false
  · exact .inl (if_pos hclose)
  cases hconsumer : answers.consumer with
  | none => exact .inl (by simp only [restart, disablePush, if_neg hclose, hconsumer])
  | some range =>
    by_cases hrange : (range.1) ≤ seek ∧ seek ≤ range.2
    · exact .inr (restart_of_range hclose hconsumer hrange hwindow)
    · left
      have hoffset : chooseStartingOffset seek range.1 range.2 = none := by
        rw [chooseStartingOffset, if_neg (by omega), if_neg (by omega), if_neg hrange]
      simp only [restart, disablePush, if_neg hclose, hconsumer, hoffset]

theorem processSeek_of_offset {info : SeekInfo} {answers : SeekAnswers}
    {oldest newest : Offset} {seek window : ℤ} (hwindow : int64 info.windowSize.toNat = window)
    (hvalid : ¬ (window ≤ 0 ∨ window > int64 maxWindow.toNat))
    (holdest : answers.oldest = some oldest) (hnewest : answers.newest = some newest)
    (hoffset : seekOffset info oldest (int64 ((newest : ℤ) - 1)) = .ok seek) :
    cd.processSeek maxWindow info answers =
      ({ cd with window := window }.restart answers seek).map fun cd => (cd, seek) := by
  simp only [processSeek, hwindow, if_neg hvalid, holdest, hnewest, hoffset, Except.bind]

theorem processSeek_cases {info : SeekInfo} {answers : SeekAnswers}
    (hnewest : info.start = .newest → answers.newest ≠ some 0) :
    (∃ error, cd.processSeek maxWindow info answers = .error (.error error)) ∨
    ∃ seek window, 0 ≤ seek ∧ 0 ≤ window ∧ cd.processSeek maxWindow info answers = .ok (⟨some seek,
        some ⟨window.toNat, window.toNat, le_rfl⟩, seek - 1, window⟩, seek) := by
  by_cases hwindow : int64 info.windowSize.toNat ≤ 0 ∨
      int64 info.windowSize.toNat > int64 maxWindow.toNat
  · exact .inl ⟨_, if_pos hwindow⟩
  cases holdest : answers.oldest with
  | none => exact .inl ⟨.other, by simp only [processSeek, if_neg hwindow, holdest]⟩
  | some oldest =>
    cases hnewest' : answers.newest with
    | none => exact .inl ⟨.other, by simp only [processSeek, if_neg hwindow, holdest, hnewest']⟩
    | some newest =>
      have hint : int64 ((newest) - 1) = newest - 1 := int64_of_range (by omega) (by omega)
      have hpos : info.start = .newest → 0 ≤ (newest : ℤ) - 1 := by
        intro hstart
        have hne : newest ≠ 0 := by
          rintro rfl
          exact hnewest hstart hnewest'
        have := Fin.val_ne_zero_iff.mpr hne
        omega
      obtain hoffset | ⟨seek, hseek, hoffset⟩ :=
        seekOffset_cases info (show (0 : ℤ) ≤ oldest by omega) hpos
      · refine .inl ⟨.seekOutOfRange, ?_⟩
        simp only [processSeek, if_neg hwindow, holdest, hnewest', hint, hoffset, Except.bind]
      · have hprocess := @processSeek_of_offset cd maxWindow info answers oldest newest seek _ rfl
          hwindow holdest hnewest' (by rw [hint, hoffset])
        have hpositive : 0 ≤ int64 info.windowSize.toNat := by omega
        have hrestart := @restart_cases { cd with window := int64 info.windowSize.toNat } answers
          seek hseek hpositive
        obtain hrestart | hrestart := hrestart
        · rw [hprocess, hrestart]
          exact .inl ⟨_, rfl⟩
        · rw [hprocess, hrestart]
          exact .inr ⟨seek, _, hseek, hpositive, rfl⟩

end ClientDeliverer

/-! ### Runs -/

namespace Delivery

variable {maxWindow : UInt64} {s s' : Delivery} {event : ClientEvent} {events : List ClientEvent}

/-- Before the first seek there are no tokens. After it the consumer has come as far as blocks were
sent. -/
structure Paced (s : Delivery) : Prop where
  lastACK : -1 ≤ s.cd.lastACK
  window : 0 ≤ s.cd.window
  unsought : s.seek = none → s.cd.lastACK = 0 ∧ s.cd.window = 0 ∧ s.cd.tokens = 0
  sought : ∀ seek, s.seek = some seek → s.cd.consumer = some (seek + s.sent.length) ∧
    (s.sent.length : ℤ) + s.cd.tokens = s.cd.lastACK - (seek - 1) + s.cd.window

/-- `sendBlocks` is in its loop, or has returned. -/
inductive Sound (s : Delivery) : Prop
  | selecting (hphase : s.phase = .selecting) (hpaced : Paced s)
  | returned (status : Option Status) (hphase : s.phase = .returned status)

theorem sound_start : Sound start :=
  .selecting rfl ⟨by decide, le_rfl, fun _ => ⟨rfl, rfl, rfl⟩, nofun⟩

open ClientDeliverer

theorem sound_sought {info : SeekInfo} {answers : SeekAnswers} (hphase : s.phase = .selecting)
    (hanchored : s.Anchored (.seek info answers)) :
    Sound (s.sought (s.cd.processSeek maxWindow info answers)) := by
  obtain ⟨error, hprocess⟩ | ⟨seek, window, hseek, hwindow, hprocess⟩ :=
    s.cd.processSeek_cases hanchored
  · rw [hprocess]
    exact .returned _ rfl
  · rw [hprocess]
    refine .selecting hphase ⟨by dsimp only [sought]; omega, hwindow, nofun, ?_⟩
    intro seek' hseek'
    cases hseek'
    refine ⟨by simp [sought], ?_⟩
    simp only [sought, tokens, map_some, getD_some, List.length_nil]
    omega

theorem Paced.sound_acknowledged (h : Paced s) {number : UInt64} (hphase : s.phase = .selecting)
    (hanchored : s.Anchored (.acknowledgement number)) :
    Sound (s.acknowledged (s.cd.processACK number)) := by
  obtain hprocess | ⟨newACK, count, hle, hnew, hcount, hprocess⟩ :=
    s.cd.processACK_cases h.lastACK h.window hanchored
  · rw [hprocess]
    exact .returned _ rfl
  · rw [hprocess]
    have htokens : (s.acknowledged (.ok { s.cd with
        lastACK := newACK, tokenChan := some ⟨count, count, le_rfl⟩ })).cd.tokens = count := rfl
    refine .selecting hphase ⟨h.lastACK.trans hle, h.window, ?_, ?_⟩
    · -- without a window only the number 0 can be acknowledged
      intro hseek
      obtain ⟨hlastACK, hwindow, hnone⟩ := h.unsought hseek
      refine ⟨?_, hwindow, ?_⟩
      · dsimp only [acknowledged]
        omega
      · rw [htokens]
        omega
    · intro seek hseek
      obtain ⟨hconsumer, hconserved⟩ := h.sought seek hseek
      refine ⟨hconsumer, ?_⟩
      rw [htokens]
      dsimp only [acknowledged]
      omega

theorem Paced.sound_push (h : Paced s) {c c' : TokenChan} (message ok : Bool)
    (hphase : s.phase = .selecting) (hchan : s.cd.tokenChan = some c) (htake : c.take = some c') :
    Sound (s.push c' message ok) := by
  have hlength := (take_eq_some htake).2
  have htokens : s.cd.tokens = c.length := by rw [tokens, hchan]; rfl
  -- there is a token, so there was a seek
  obtain ⟨seek, hseek⟩ : ∃ seek, s.seek = some seek := by
    cases hseek : s.seek with
    | none =>
      have := (h.unsought hseek).2.2
      omega
    | some seek => exact ⟨seek, rfl⟩
  obtain ⟨hconsumer, hconserved⟩ := h.sought seek hseek
  unfold push
  rw [hconsumer]
  cases message with
  | false =>
    rw [put_of_take htake]
    dsimp only
    rw [← hchan]
    exact .selecting hphase h
  | true =>
    cases ok with
    | false => exact .returned _ rfl
    | true =>
      refine .selecting hphase ⟨h.lastACK, h.window, ?_, ?_⟩
      · intro hnone
        rw [show s.seek = none from hnone] at hseek
        cases hseek
      · intro seek' hseek'
        obtain rfl : seek = seek' := Option.some.inj (hseek.symm.trans hseek')
        refine ⟨?_, ?_⟩
        · simp [add_assoc]
        · simp [tokens]
          omega

theorem step_of_selecting (h : s.phase = .selecting) :
    s.step maxWindow event = s.handle maxWindow event := if_pos h

theorem Sound.step (h : Sound s) (hanchored : s.Anchored event)
    (hstep : s.step maxWindow event = some s') : Sound s' := by
  unfold Delivery.step at hstep
  split_ifs at hstep with hphase
  obtain ⟨-, hpaced⟩ | ⟨_, hreturned⟩ := h
  · cases event with
    | shutdown =>
      cases hstep
      exact .returned _ rfl
    | seek =>
      obtain rfl := Option.some.inj hstep
      exact sound_sought hphase hanchored
    | acknowledgement =>
      obtain rfl := Option.some.inj hstep
      exact hpaced.sound_acknowledged hphase hanchored
    | noType =>
      cases hstep
      exact .selecting hphase hpaced
    | token message ok =>
      obtain ⟨c', htake, rfl⟩ := map_eq_some_iff.mp hstep
      obtain ⟨c, hchan, htake⟩ := bind_eq_some_iff.mp htake
      exact hpaced.sound_push message ok hphase hchan htake
  · rw [hphase] at hreturned
    cases hreturned

theorem Sound.flowControlled (h : Sound s) : FlowControlled s := by
  obtain ⟨hphase, hpaced⟩ | ⟨status, hphase⟩ := h
  · refine ⟨fun _ seek hseek => (hpaced.sought seek hseek).2, ?_, by simp [hphase],
      by simp [hphase]⟩
    intro event offset hoffset
    cases event with
    | token message =>
      cases message with
      | false => cases hoffset
      | true =>
        simp only [sends] at hoffset
        split_ifs at hoffset with htokens
        · cases hseek : s.seek with
          | none => exact absurd (hpaced.unsought hseek).2.2 htokens.2
          | some seek =>
            obtain ⟨hconsumer, hconserved⟩ := hpaced.sought seek hseek
            rw [hconsumer, mem_toList] at hoffset
            cases hoffset
            omega
        · cases hoffset
    | _ => cases hoffset
  · refine ⟨by simp [hphase], ?_, by simp [hphase], by simp [hphase]⟩
    intro event offset hoffset
    cases event with
    | token message => cases message <;> simp [sends, hphase] at hoffset
    | _ => cases hoffset

/-- Every sequence of updates, messages and failures along which seeks are anchored. -/
theorem flowControlled_of_run (halong : Along (Delivery.step maxWindow) Anchored start events)
    (hrun : runSteps (Delivery.step maxWindow) start events = some s) : FlowControlled s := by
  have hsound : Sound s := by
    refine runSteps_invariant sound_start ?_ halong hrun
    intro s event s' hanchored h hstep
    exact h.step hanchored hstep
  exact hsound.flowControlled

/-- What is answered on a partition with the offsets 0 to `n - 1` while it does not change. -/
def exampleAnswers (n : Offset) : SeekAnswers := ⟨some 0, some n, true, some (0, n)⟩

theorem flowControlled_exampleRun : ∃ s, runSteps (Delivery.step 10) start
    [.seek ⟨.specified, 1, 2⟩ (exampleAnswers 5), .token true true, .token false true,
      .token true true, .acknowledgement 1, .token true true] = some s ∧
    s.sent = [1, 2, 3] ∧ FlowControlled s := by
  refine exists_and_of_checked (fun _ => True) (by decide +kernel) ?_
  rintro s hrun -
  exact flowControlled_of_run (by decide +kernel) hrun

/-- After a seek to the newest block of an empty partition the first block lies beyond a window of
1. With the largest windows tokens cannot be counted in an `int64`. -/
theorem not_flowControlled_run :
    (∃ s, runSteps (Delivery.step 10) start [.seek ⟨.newest, 0, 1⟩ (exampleAnswers 0)] = some s ∧
      0 ∈ s.sends (.token true true) ∧ s.cd.lastACK + s.cd.window = -1 ∧ ¬ FlowControlled s) ∧
    ∃ s, runSteps (Delivery.step 9223372036854775807) start
      [.seek ⟨.oldest, 0, 9223372036854775807⟩ (exampleAnswers 1),
        .acknowledgement 9223372036854775806] = some s ∧
      s.phase = .panicked := by
  constructor
  · obtain ⟨s, hrun, hsends, hsum⟩ : ∃ s, runSteps (Delivery.step 10) start
        [.seek ⟨.newest, 0, 1⟩ (exampleAnswers 0)] = some s ∧
        0 ∈ s.sends (.token true true) ∧ s.cd.lastACK + s.cd.window = -1 := by
      decide +kernel
    refine ⟨s, hrun, hsends, hsum, ?_⟩
    intro h
    have := h.window _ 0 hsends
    omega
  · have hwindow : int64 ((9223372036854775807 : UInt64).toNat) = 2 ^ 63 - 1 := by
      decide +kernel
    have hrestart := @ClientDeliverer.restart_of_range ⟨none, none, 0, 2 ^ 63 - 1⟩
      (exampleAnswers 1) 0 1 0 (by decide) rfl (by decide) (by decide)
    have hseek : start.cd.processSeek 9223372036854775807
        ⟨.oldest, 0, 9223372036854775807⟩ (exampleAnswers 1) =
        .ok (⟨some 0, some ⟨2 ^ 63 - 1, 2 ^ 63 - 1, le_rfl⟩, -1, 2 ^ 63 - 1⟩, 0) := by
      rw [@ClientDeliverer.processSeek_of_offset start.cd 9223372036854775807
        ⟨.oldest, 0, 9223372036854775807⟩ (exampleAnswers 1) 0 1 0 (2 ^ 63 - 1) hwindow
        (by decide +kernel) rfl rfl rfl]
      exact congrArg (Except.map fun cd => (cd, (0))) hrestart
    have hack : processACK
        ⟨some 0, some ⟨2 ^ 63 - 1, 2 ^ 63 - 1, le_rfl⟩, -1, 2 ^ 63 - 1⟩ 9223372036854775806 =
        .error .panicked := by
      decide +kernel
    rw [runSteps_cons, step_of_selecting rfl, handle, hseek, bind_some, runSteps_cons,
      step_of_selecting rfl, handle, sought, hack]
    exact ⟨_, rfl, rfl⟩

end Delivery

end Fabric.Orderer
