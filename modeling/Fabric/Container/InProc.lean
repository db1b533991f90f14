import Fabric.Common.Machine

/-!
# System chaincodes

`inproccontroller.go`: a system chaincode runs in goroutines of the peer. `Start` launches it and
returns; it runs until `Stop` sends on its channel, or until the chaincode or the peer's side of its
stream ends by itself.
-/

namespace Fabric.Container

open Fabric.Common

/-- `inprocContainer`; `executing` says whether its `launchInProc` has not returned. -/
structure InprocContainer where
  running : Bool
  executing : Bool
deriving DecidableEq

/-- The entry of `instRegistry`, and whether a `Stop` waits for its message to be received. -/
structure InprocVM where
  instance? : Option InprocContainer
  stopping : Bool
deriving DecidableEq

/-- The requests for a registered chaincode, and what its goroutines do. -/
inductive Event
  | start (ccSupport : Bool)
  | stop
  | received
  | chaincodeEnds
  | supportEnds
deriving DecidableEq

/-- The chaincode or the peer's side of the stream ends without a request. -/
def Event.endsByItself (e : Event) : Bool := e = .chaincodeEnds ∨ e = .supportEnds

namespace InprocVM

def init : InprocVM := ⟨none, false⟩

def getInstance (vm : InprocVM) : InprocContainer := vm.instance?.getD ⟨false, false⟩

/-- A chaincode that is running is not started, nor is one without a support to talk to. -/
def start (vm : InprocVM) (ccSupport : Bool) : InprocVM :=
  let ipc := vm.getInstance
  if ipc.running ∨ ¬ ccSupport then { vm with instance? := some ipc }
  else { vm with instance? := some ⟨true, true⟩ }

/-- Only a running instance is sent to. -/
def stop (vm : InprocVM) : InprocVM :=
  match vm.instance? with
  | some ipc => { vm with stopping := ipc.running }
  | none => vm

/-- `launchInProc` returns, its instance is as it was. -/
def ends (vm : InprocVM) : Option InprocVM :=
  match vm.instance? with
  | some ⟨running, true⟩ => some { vm with instance? := some ⟨running, false⟩ }
  | _ => none

/-- A request has to wait for the one before it. The message of `Stop` is received by the `select`
of `launchInProc`, and then the instance is deleted; no request looks at it in between. -/
def step (vm : InprocVM) : Event → Option InprocVM
  | .start ccSupport => if vm.stopping then none else some (vm.start ccSupport)
  | .stop => if vm.stopping then none else some vm.stop
  | .received => if vm.stopping ∧ vm.getInstance.executing then some ⟨none, false⟩ else none
  | .chaincodeEnds => vm.ends
  | .supportEnds => vm.ends

/-- The flag tells whether the chaincode is executing, so a `Stop` is received and a chaincode that
ended can be started again. -/
structure Steady (vm : InprocVM) : Prop where
  flag : vm.getInstance.running = vm.getInstance.executing
  received : vm.stopping → vm.getInstance.executing
  restarts : vm.getInstance.executing = false →
    vm.step (.start true) = some ⟨some ⟨true, true⟩, false⟩

variable {vm vm' : InprocVM}

theorem Steady.of_flag (hflag : vm.getInstance.running = vm.getInstance.executing)
    (hreceived : vm.stopping → vm.getInstance.executing) : Steady vm := by
  refine ⟨hflag, hreceived, fun h => ?_⟩
  have hstopping : vm.stopping = false := by
    simpa [h] using mt hreceived
  simp [step, start, hstopping, hflag, h]

theorem Steady.step {e : Event} (h : Steady vm) (he : ¬ e.endsByItself)
    (hstep : vm.step e = some vm') : Steady vm' := by
  cases e with
  | start =>
    obtain ⟨hstopping, hstep⟩ := Option.ite_none_left_eq_some.mp hstep
    cases hstep
    unfold InprocVM.start
    dsimp only
    split_ifs
    · exact .of_flag h.flag h.received
    · exact .of_flag rfl fun _ => rfl
  | stop =>
    obtain ⟨hstopping, hstep⟩ := Option.ite_none_left_eq_some.mp hstep
    cases hstep
    unfold InprocVM.stop
    split
    · rename_i ipc hipc
      have hflag := h.flag
      rw [getInstance, hipc] at hflag
      refine .of_flag h.flag fun hrunning => ?_
      rw [getInstance, hipc]
      exact hflag.symm.trans hrunning
    · exact h
  | received =>
    obtain ⟨-, hstep⟩ := Option.ite_none_right_eq_some.mp hstep
    cases hstep
    exact .of_flag rfl fun h => absurd h (by decide)
  | chaincodeEnds => exact absurd rfl he
  | supportEnds => exact absurd rfl he

theorem Steady.not_ends (h : Steady vm) (hends : vm.ends = some vm') : ¬ Steady vm' := by
  unfold ends at hends
  split at hends
  · rename_i running hipc
    cases hends
    have hflag := h.flag
    rw [getInstance, hipc] at hflag
    intro h'
    exact absurd (hflag.symm.trans h'.flag) (by simp [getInstance])
  · cases hends

/-- The flag is right throughout a run exactly if the chaincode never ends by itself in it. -/
theorem steady_iff {events : List Event} (hrun : runSteps step init events = some vm) :
    (∀ done, done <+: events → ∀ vm', runSteps step init done = some vm' → vm'.Steady) ↔
      Along step (fun _ e => ¬ e.endsByItself) init events := by
  refine (along_iff (φ := fun _ _ => True) (I := Steady) (fun _ h => h)
    (fun _ _ _ _ he h => h.step he) (fun vm e vm' _ h hstep h' hends => ?_)
    (.of_flag rfl fun h => absurd h (by decide)) (along_of_forall fun _ _ => trivial) hrun).symm
  cases e with
  | chaincodeEnds => exact h.not_ends hstep h'
  | supportEnds => exact h.not_ends hstep h'
  | _ => cases hends

/-- Started, stopped and started again. -/
theorem steady_restarted : ∃ vm, runSteps step init [.start true, .stop, .received, .start true] =
      some vm ∧ ∀ done, done <+: [.start true, .stop, .received, .start true] →
      ∀ vm', runSteps step init done = some vm' → vm'.Steady :=
  ⟨_, rfl, (steady_iff rfl).mpr (by decide)⟩

/-- The chaincode ends by itself; the next `Stop` waits for ever, and no request comes after it. -/
theorem not_steady_ended : ∃ vm, runSteps step init [.start true, .chaincodeEnds, .stop] = some vm ∧
    ¬ vm.Steady ∧ vm.stopping ∧ vm.step .received = none ∧ vm.step (.start true) = none :=
  ⟨_, rfl, fun h => absurd h.flag (by decide), by decide⟩

end InprocVM

end Fabric.Container
