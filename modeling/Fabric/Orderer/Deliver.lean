import Fabric.Common.Machine
import Fabric.Orderer.Ledger

/-!
# The deliver service

For every client two goroutines: `recv` hands the updates of the client to `main`, which seeks,
notes acknowledgements and sends blocks as far as the window allows. Closing `exitChan` ends both.
Closing it a second time stops the process.

A cursor of the ledger is known by the number of the block that it comes to next. Whether that
block is ready, whether `Next` fails and whether a message can be sent is left open.
-/

namespace Fabric.Orderer

open Fabric.Common List

structure SeekInfo where
  start : StartType
  specifiedNumber : UInt64
  windowSize : UInt64
deriving DecidableEq

/-- An update of the client, which may lack its type. -/
inductive DeliverUpdate
  | acknowledgement (number : UInt64)
  | seek (info : Option SeekInfo)
  | noType
deriving DecidableEq

/-- The statuses that are errors. -/
inductive Status
  | badRequest
  | notFound
  | serviceUnavailable
deriving DecidableEq

/-- Where `main` is: at its `select`, or sending a reply. -/
inductive MainPC
  | select
  | sendError (status : Status)
  | sendBlock (number : UInt64)
  | returned
  | panicked
deriving DecidableEq

/-- Where `recv` is. -/
inductive RecvPC
  | receiving
  | offering (update : DeliverUpdate)
  | returned
deriving DecidableEq

/-- A deliverer; `signal` says that the channel of the cursor is selected. -/
structure Deliverer where
  cursor : Option UInt64
  nextBlockNumber : UInt64
  windowSize : UInt64
  lastAck : UInt64
  signal : Bool
  exitClosed : Bool
  main : MainPC
  recv : RecvPC
deriving DecidableEq

inductive DeliverLabel
  /-- `Recv` returns an update, or fails -/
  | receive (update : DeliverUpdate)
  | receiveError
  | recvExit
  /-- `main` takes an update; the ledger reports the number if it is asked for an iterator -/
  | update (update : DeliverUpdate) (start : UInt64)
  /-- `Next` returns the block of the cursor, or an error -/
  | next (error : Option Status)
  | send (ok : Bool)
  | exit
deriving DecidableEq

def DeliverLabel.isSeek : DeliverLabel → Bool
  | .update (.seek _) _ => true
  | _ => false

namespace Deliverer

def start : Deliverer := ⟨none, 0, 0, 0, false, false, .select, .receiving⟩

variable (maxWindow : UInt64) (d : Deliverer)

/-- Close `exitChan` and go on. -/
def closeExit (main : MainPC) : Deliverer :=
  if d.exitClosed = true then { d with main := .panicked }
  else { d with exitClosed := true, main := main }

/-- The end of a round: the cursor is waited for if there is room in the window. -/
def endRound : Deliverer :=
  { d with
    signal := d.cursor.isSome && !decide (d.lastAck + d.windowSize < d.nextBlockNumber)
    main := .select }

/-- `start` is the number that the ledger reports for the iterator. -/
def processUpdate (info : Option SeekInfo) (start : UInt64) : Deliverer :=
  match info with
  | none => { d with cursor := none }.closeExit (.sendError .badRequest)
  | some seek =>
    if seek.windowSize = 0 ∨ seek.windowSize > maxWindow then
      { d with cursor := none }.closeExit (.sendError .badRequest)
    else
      { d with windowSize := seek.windowSize, cursor := some start, nextBlockNumber := start,
               lastAck := start - 1 }.endRound

def step : DeliverLabel → Option Deliverer
  | .receive update => match d.recv with
    | .receiving => some { d with recv := .offering update }
    | _ => none
  | .receiveError => match d.recv with
    | .receiving => some { d with recv := .returned }
    | _ => none
  | .recvExit => match d.recv with
    | .offering _ => if d.exitClosed = true then some { d with recv := .returned } else none
    | _ => none
  | .update update start =>
    if d.main = .select ∧ d.recv = .offering update then
      let d := { d with recv := .receiving }
      match update with
      | .acknowledgement number => some { d with lastAck := number }.endRound
      | .seek info => some (d.processUpdate maxWindow info start)
      | .noType => some (d.closeExit .returned)
    else none
  | .next error =>
    if d.main = .select ∧ d.signal = true then
      match d.cursor, error with
      | some number, none =>
        some { d with cursor := some (number + 1), nextBlockNumber := number + 1,
                      main := .sendBlock number }
      | some _, some status => some { d with main := .sendError status }
      | none, _ => none
    else none
  | .send ok => match d.main with
    | .sendError _ =>
      if ok = true then some { d with cursor := none }.endRound else some (d.closeExit .returned)
    | .sendBlock _ => if ok = true then some d.endRound else some (d.closeExit .returned)
    | _ => none
  | .exit =>
    if d.main = .select ∧ d.exitClosed = true then some { d with main := .returned } else none

/-! ### Closing -/

/-- Once `exitChan` is closed `main` takes no further update, and what it sends is sent. -/
def Calm (d : Deliverer) : DeliverLabel → Prop
  | .update _ _ => d.exitClosed = false
  | .send false => d.exitClosed = false
  | _ => True

instance (d : Deliverer) : (label : DeliverLabel) → Decidable (d.Calm label)
  | .update _ _ => inferInstanceAs (Decidable (d.exitClosed = false))
  | .send false => inferInstanceAs (Decidable (d.exitClosed = false))
  | .send true | .receive _ | .receiveError | .recvExit | .next _ | .exit => .isTrue trivial

variable {maxWindow d} {d' : Deliverer} {label : DeliverLabel} {labels : List DeliverLabel}

theorem not_panicked_step (hcalm : d.Calm label) (h : d.main ≠ .panicked)
    (hstep : d.step maxWindow label = some d') : d'.main ≠ .panicked := by
  cases label with simp only [step] at hstep
  | receive | receiveError =>
    split at hstep <;> cases hstep
    exact h
  | recvExit =>
    split at hstep
    · split_ifs at hstep
      cases hstep
      exact h
    · cases hstep
  | update update =>
    have hopen : d.exitClosed = false := hcalm
    split_ifs at hstep
    cases update with
    | acknowledgement =>
      cases hstep
      simp [endRound]
    | noType =>
      cases hstep
      simp [closeExit, hopen]
    | seek =>
      cases hstep
      unfold processUpdate
      split
      · simp [closeExit, hopen]
      · split_ifs
        · simp [closeExit, hopen]
        · simp [endRound]
  | next =>
    split_ifs at hstep
    split at hstep <;> cases hstep <;> simp
  | send ok =>
    cases ok with
    | true => split at hstep <;> cases hstep <;> simp [endRound]
    | false =>
      have hopen : d.exitClosed = false := hcalm
      split at hstep <;> cases hstep <;> simp [closeExit, hopen]
  | exit =>
    split_ifs at hstep
    cases hstep
    simp

/-- `exitChan` is closed at most once if `main` takes no update after an invalid seek. -/
theorem not_panicked_of_run (halong : Along (step maxWindow) Calm start labels)
    (hrun : runSteps (step maxWindow) start labels = some d) : d.main ≠ .panicked := by
  refine runSteps_invariant (I := fun d => d.main ≠ .panicked) (by simp [start]) ?_ halong hrun
  intro d label d' hcalm h hstep
  exact not_panicked_step hcalm h hstep

theorem not_panicked_badSeek : ∃ d, runSteps (step 10) start [.receive (.seek none),
    .update (.seek none) 0, .receive .noType, .send true, .exit, .recvExit] = some d ∧
      d.exitClosed = true ∧ d.main ≠ .panicked := by
  refine exists_and_of_checked (fun _ => True) (by decide) ?_
  rintro d hrun -
  exact not_panicked_of_run (by decide) hrun

/-- The reply to an invalid seek cannot be sent, or `main` takes an update without type after it. -/
theorem panicked_badSeek :
    (∃ d, runSteps (step 10) start [.receive (.seek none), .update (.seek none) 0, .send false] =
      some d ∧ d.main = .panicked) ∧
    ∃ d, runSteps (step 10) start [.receive (.seek none), .update (.seek none) 0, .send true,
      .receive .noType, .update .noType 0] = some d ∧ d.main = .panicked :=
  ⟨⟨_, rfl, rfl⟩, _, rfl, rfl⟩

/-! ### The window -/

/-- The last acknowledgement among what `main` has taken, or the number before. -/
def latestAck (before : UInt64) (labels : List DeliverLabel) : UInt64 :=
  labels.foldl (fun ack label => match label with
    | .update (.acknowledgement number) _ => number
    | _ => ack) before

/-- The number of the block that is sent. -/
def sends (d : Deliverer) : DeliverLabel → List UInt64
  | .send _ => match d.main with
    | .sendBlock number => [number]
    | _ => []
  | _ => []

/-- What has happened since a seek. -/
structure Delivers (first window : UInt64) (done : List DeliverLabel) (sent : List UInt64)
    (d : Deliverer) : Prop where
  windowSize : d.windowSize = window
  lastAck : d.lastAck = latestAck (first - 1) done
  sent_eq : sent = (List.range sent.length).map fun i => first + UInt64.ofNat i
  cursor : d.main = .select → ∀ number, d.cursor = some number →
    number = first + UInt64.ofNat sent.length ∧ d.nextBlockNumber = number
  signal : d.main = .select → d.signal = true → d.nextBlockNumber ≤ d.lastAck + d.windowSize
  sending : ∀ number, d.main = .sendBlock number → number = first + UInt64.ofNat sent.length ∧
    d.cursor = some (number + 1) ∧ d.nextBlockNumber = number + 1 ∧ number ≤ d.lastAck + window

variable {first window : UInt64} {done : List DeliverLabel} {sent : List UInt64}

theorem latestAck_concat (before : UInt64) : latestAck before (done ++ [label]) = match label with
    | .update (.acknowledgement number) _ => number
    | _ => latestAck before done := by
  rw [latestAck, foldl_append]
  rfl

namespace Delivers

theorem of_seek {seek : SeekInfo}
    (hvalid : ¬ (seek.windowSize = 0 ∨ seek.windowSize > maxWindow))
    (hstep : d.step maxWindow (.update (.seek (some seek)) first) = some d') :
    Delivers first seek.windowSize [] [] d' := by
  simp only [step, processUpdate] at hstep
  split_ifs at hstep
  cases hstep
  refine ⟨rfl, rfl, rfl, ?_, ?_, ?_⟩
  · intro _ number hnumber
    cases hnumber
    exact ⟨by simp, rfl⟩
  · intro _ hsignal
    simpa [endRound] using hsignal
  · intro number hmain
    cases hmain

theorem sent_concat (h : Delivers first window done sent d) {number : UInt64}
    (hmain : d.main = .sendBlock number) : sent ++ [number] =
      (List.range (sent ++ [number]).length).map fun i => first + UInt64.ofNat i := by
  rw [length_append, length_singleton, range_succ, map_append, ← h.sent_eq,
    (h.sending number hmain).1]
  rfl

section

variable (hwindow : d.windowSize = window)
  (hack : d.lastAck = latestAck (first - 1) done)
  (hsent : sent = (List.range sent.length).map fun i => first + UInt64.ofNat i)
include hwindow hack hsent

theorem of_left (hselect : d.main ≠ .select) (hsend : ∀ number, d.main ≠ .sendBlock number) :
    Delivers first window done sent d where
  windowSize := hwindow
  lastAck := hack
  sent_eq := hsent
  cursor := fun hmain => absurd hmain hselect
  signal := fun hmain => absurd hmain hselect
  sending := fun number hmain => absurd hmain (hsend number)

theorem of_closeExit : Delivers first window done sent (d.closeExit .returned) := by
  unfold closeExit
  split_ifs
  · exact of_left hwindow hack hsent (by simp) (by simp)
  · exact of_left hwindow hack hsent (by simp) (by simp)

theorem of_endRound (hcursor : ∀ number, d.cursor = some number →
      number = first + UInt64.ofNat sent.length ∧ d.nextBlockNumber = number) :
    Delivers first window done sent d.endRound where
  windowSize := hwindow
  lastAck := hack
  sent_eq := hsent
  cursor := fun _ => hcursor
  signal := by
    intro _ hsignal
    have hroom : ¬ d.lastAck + d.windowSize < d.nextBlockNumber := by
      intro hlt
      simp [endRound, hlt] at hsignal
    exact UInt64.not_lt.mp hroom
  sending := by
    intro number hmain
    cases hmain

end

section

variable (h : Delivers first window done sent d)
  (hack : latestAck (first - 1) (done ++ [label]) = latestAck (first - 1) done)
include h hack

theorem same_ack : d.lastAck = latestAck (first - 1) (done ++ [label]) := h.lastAck.trans hack.symm

theorem of_recv (recv : RecvPC) :
    Delivers first window (done ++ [label]) sent { d with recv := recv } :=
  { h with lastAck := h.same_ack hack }

end

theorem step (h : Delivers first window done sent d) (hseek : label.isSeek = false)
    (hstep : d.step maxWindow label = some d') :
    Delivers first window (done ++ [label]) (sent ++ sends d label) d' := by
  cases label with simp only [Deliverer.step] at hstep
  | receive | receiveError =>
    split at hstep <;> cases hstep
    simp only [sends, append_nil]
    exact h.of_recv (latestAck_concat _) _
  | recvExit =>
    split at hstep
    · split_ifs at hstep
      cases hstep
      simp only [sends, append_nil]
      exact h.of_recv (latestAck_concat _) _
    · cases hstep
  | update update =>
    split_ifs at hstep with hmain
    simp only [sends, append_nil]
    cases update with
    | acknowledgement =>
      cases hstep
      exact of_endRound h.windowSize (by rw [latestAck_concat]) h.sent_eq (h.cursor hmain.1)
    | seek => cases hseek
    | noType =>
      cases hstep
      exact of_closeExit h.windowSize (h.same_ack (latestAck_concat _)) h.sent_eq
  | next error =>
    have hack : d.lastAck = latestAck (first - 1) (done ++ [.next error]) :=
      h.same_ack (latestAck_concat _)
    split_ifs at hstep with hmain
    simp only [sends, append_nil]
    split at hstep
    case h_1 number hcursor =>
      cases hstep
      -- the signal was there because the window has room for the block of the cursor
      obtain ⟨hnumber, hnext⟩ := h.cursor hmain.1 number hcursor
      have hroom := h.signal hmain.1 hmain.2
      rw [hnext, h.windowSize] at hroom
      refine ⟨h.windowSize, hack, h.sent_eq, by simp, by simp, ?_⟩
      intro number' hsend
      cases hsend
      exact ⟨hnumber, rfl, rfl, hroom⟩
    case h_2 =>
      cases hstep
      exact of_left h.windowSize hack h.sent_eq (by simp) (by simp)
    case h_3 => cases hstep
  | send ok =>
    have hack : d.lastAck = latestAck (first - 1) (done ++ [.send ok]) :=
      h.same_ack (latestAck_concat _)
    split at hstep
    case h_1 hmain =>
      simp only [sends, hmain, append_nil]
      cases ok with
      | true =>
        cases hstep
        refine of_endRound h.windowSize hack h.sent_eq ?_
        intro number hcursor
        cases hcursor
      | false =>
        cases hstep
        exact of_closeExit h.windowSize hack h.sent_eq
    case h_2 number hmain =>
      simp only [sends, hmain]
      obtain ⟨hnumber, hcursor, hnext, -⟩ := h.sending number hmain
      cases ok with
      | true =>
        cases hstep
        refine of_endRound h.windowSize hack (h.sent_concat hmain) ?_
        intro number' hcursor'
        rw [hcursor] at hcursor'
        cases hcursor'
        refine ⟨?_, hnext⟩
        rw [hnumber, length_append, UInt64.ofNat_add, UInt64.add_assoc]
        rfl
      | false =>
        cases hstep
        exact of_closeExit h.windowSize hack (h.sent_concat hmain)
    case h_3 => cases hstep
  | exit =>
    split_ifs at hstep
    cases hstep
    simp only [sends, append_nil]
    exact of_left h.windowSize (h.same_ack (latestAck_concat _)) h.sent_eq (by simp)
      (by simp)

theorem of_run {seek : SeekInfo} {d₀ d₁ : Deliverer}
    (hvalid : ¬ (seek.windowSize = 0 ∨ seek.windowSize > maxWindow))
    (hseek : d₀.step maxWindow (.update (.seek (some seek)) first) = some d₁)
    (hlabels : ∀ label ∈ labels, label.isSeek = false)
    (hrun : runSteps (Deliverer.step maxWindow) d₁ labels = some d) :
    Delivers first seek.windowSize labels
      (outputs (Deliverer.step maxWindow) sends d₁ labels) d := by
  have halong : Along (Deliverer.step maxWindow) (fun _ label => label.isSeek = false) d₁ labels :=
    along_of_forall_mem fun label hlabel _ => hlabels label hlabel
  refine runSteps_induction (P := fun labels d => Delivers first seek.windowSize labels
    (outputs (Deliverer.step maxWindow) sends d₁ labels) d) (of_seek hvalid hseek) ?_ halong hrun
  intro done label d₂ d₃ hdone hlabel h hstep
  rw [outputs_concat hdone hstep]
  exact h.step hlabel hstep

end Delivers

/-- After a valid seek blocks are sent with consecutive numbers from the reported start, each within
the window after the last acknowledgement. -/
theorem window_of_run {seek : SeekInfo} {d₀ d₁ : Deliverer}
    (hvalid : seek.windowSize ≠ 0 ∧ seek.windowSize ≤ maxWindow)
    (hseek : d₀.step maxWindow (.update (.seek (some seek)) first) = some d₁)
    (hlabels : ∀ label ∈ labels, label.isSeek = false)
    (hrun : runSteps (step maxWindow) d₁ labels = some d) :
    (∃ count, outputs (step maxWindow) sends d₁ labels =
      (List.range count).map fun i => first + UInt64.ofNat i) ∧
    ∀ done label rest d₂, labels = done ++ label :: rest →
      runSteps (step maxWindow) d₁ done = some d₂ →
      ∀ number ∈ sends d₂ label, number ≤ latestAck (first - 1) done + seek.windowSize := by
  have hvalid' : ¬ (seek.windowSize = 0 ∨ seek.windowSize > maxWindow) := by
    rintro (hzero | hlarge)
    · exact hvalid.1 hzero
    · exact UInt64.not_lt.mpr hvalid.2 hlarge
  refine ⟨⟨_, (Delivers.of_run hvalid' hseek hlabels hrun).sent_eq⟩, ?_⟩
  intro done label rest d₂ hlabels' hdone number hnumber
  have hlabelsDone : ∀ label' ∈ done, label'.isSeek = false := by
    intro label' hlabel'
    exact hlabels label' (hlabels' ▸ mem_append_left _ hlabel')
  have h := Delivers.of_run hvalid' hseek hlabelsDone hdone
  -- only a step at `sendBlock` sends a block
  cases label with
  | send =>
    simp only [sends] at hnumber
    split at hnumber
    case h_1 hmain =>
      rw [mem_singleton] at hnumber
      subst hnumber
      have hroom := (h.sending number hmain).2.2.2
      rwa [h.lastAck] at hroom
    case h_2 => cases hnumber
  | _ => cases hnumber

/-- Blocks 5 and 6 fill the window, and 7 is sent after 5 has been acknowledged. -/
def exampleLabels : List DeliverLabel :=
  [.next none, .send true, .next none, .send true, .receive (.acknowledgement 5),
    .update (.acknowledgement 5) 0, .next none, .send true]

/-- After a seek to block 5 with a window of 2. -/
def exampleDeliverer : Deliverer := ⟨some 5, 5, 2, 4, true, false, .select, .receiving⟩

theorem window_exampleDeliverer :
    outputs (step 10) sends exampleDeliverer exampleLabels = [5, 6, 7] ∧
    (∃ count, outputs (step 10) sends exampleDeliverer exampleLabels =
      (List.range count).map fun i => 5 + UInt64.ofNat i) ∧
    ∀ done label rest d₂, exampleLabels = done ++ label :: rest →
      runSteps (step 10) exampleDeliverer done = some d₂ →
      ∀ number ∈ sends d₂ label, number ≤ latestAck (5 - 1) done + 2 := by
  obtain ⟨d, hrun⟩ := Option.isSome_iff_exists.mp
    (show (runSteps (step 10) exampleDeliverer exampleLabels).isSome = true by decide)
  have hseek : (step 10 { start with recv := .offering (.seek (some ⟨.specified, 5, 2⟩)) }
      (.update (.seek (some ⟨.specified, 5, 2⟩)) 5)) = some exampleDeliverer := by decide
  have hwindow := window_of_run (by decide) hseek (by decide) hrun
  exact ⟨by decide, hwindow⟩

end Deliverer

end Fabric.Orderer
