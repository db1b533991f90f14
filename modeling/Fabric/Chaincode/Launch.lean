import Fabric.Common.Machine
import Fabric.Common.Program

/-!
# Launching a chaincode

A launch puts a placeholder into the map of running chaincodes, starts the container, and waits
until the stream of the chaincode has put its handler into the entry. The entry is deleted by name:
by a launch that fails, by `Stop`, and when the stream of a registered handler ends.
-/

namespace Fabric.Chaincode

open Fabric.Common

/-- A pointer to an entry of the map, and its handler; a placeholder has none. -/
structure RTEnv where
  ref : ℕ
  handler : Option ℕ
  deriving DecidableEq

inductive Lang
  | undefined | golang | node | car | java
  deriving DecidableEq

/-- Whether `getArgsAndEnv` knows the type. -/
def Lang.supported : Lang → Bool
  | golang | car | java => true
  | undefined | node => false

/-- What a launch reads of a deployment spec. -/
structure DeploymentSpec where
  lang : Lang
  system : Bool
  deriving DecidableEq

/-- Where a call of `Launch` stands; a call of `Stop` is only at its last place. -/
inductive Launch.Place
  /-- the spec is read from the ledger; the flag says whether there was an entry -/
  | fetch (found : Bool)
  | prepare (lang : Lang)
  | getArgs (lang : Lang)
  | start
  | startFailed
  | wait
  | init
  | initWait
  /-- the container is stopped, the entry is not yet deleted -/
  | stop
  | returned (ok : Bool)
  deriving DecidableEq

/-- A call, with the entry that it has added. -/
structure Launch where
  place : Launch.Place
  added : Option ℕ
  deriving DecidableEq

structure ChaincodeSupport where
  userRunsCC : Bool
  entry : Option RTEnv
  refs : ℕ
  handlers : ℕ
  /-- the registered handlers whose streams have not ended -/
  streams : List ℕ
  launches : List Launch

namespace ChaincodeSupport

def newChaincodeSupport (userRunsCC : Bool) : ChaincodeSupport := ⟨userRunsCC, none, 0, 0, [], []⟩

inductive Label
  | launch (cds : Option DeploymentSpec) (running : Bool)
  | fetch (found : Bool) (cds : Option DeploymentSpec)
  | advance (l : Launch) (ok : Bool)
  | stop
  | register
  | endState (handler : ℕ)
  | terminate (handler : ℕ)

def resume (s : ChaincodeSupport) (place : Launch.Place) (added : Option ℕ) : ChaincodeSupport :=
  { s with launches := ⟨place, added⟩ :: s.launches }

def delete (s : ChaincodeSupport) : ChaincodeSupport := { s with entry := none }

/-- A container is launched if the peer runs it and there was no entry. -/
def prepare (s : ChaincodeSupport) (found : Bool) (cds : DeploymentSpec) : Launch.Place :=
  if (!s.userRunsCC || cds.system) && !found then .prepare cds.lang else .init

/-- What a call does next, which is not listed meanwhile. -/
def advance (s : ChaincodeSupport) (added : Option ℕ) (ok : Bool) :
    Launch.Place → Option ChaincodeSupport
  | .prepare lang =>
    match s.entry with
    | some _ => some (s.resume .init added)
    | none => some ({ s with
        entry := some ⟨s.refs, none⟩
        refs := s.refs + 1 }.resume (.getArgs lang) (some s.refs))
  -- the placeholder is left
  | .getArgs lang => some (s.resume (if lang.supported then .start else .returned false) added)
  | .start => some (s.resume (if ok then .wait else .startFailed) added)
  | .startFailed => some (s.delete.resume (.returned false) added)
  | .wait => some (s.resume (if ok then .init else .stop) added)
  | .init =>
    match s.entry with
    | some ⟨_, some _⟩ => some (s.resume .initWait added)
    | _ => some (s.resume .stop added)
  | .initWait => some (s.resume (if ok then .returned true else .stop) added)
  | .stop => some (s.delete.resume (.returned false) added)
  | .fetch _ | .returned _ => none

/-- A handler that is registered while another one is, is refused. -/
def registerHandler (s : ChaincodeSupport) : ChaincodeSupport :=
  match s.entry with
  | some ⟨_, some _⟩ => { s with handlers := s.handlers + 1 }
  | some ⟨ref, none⟩ => { s with
      entry := some ⟨ref, some s.handlers⟩
      handlers := s.handlers + 1
      streams := s.handlers :: s.streams }
  | none => { s with
      entry := some ⟨s.refs, some s.handlers⟩
      refs := s.refs + 1
      handlers := s.handlers + 1
      streams := s.handlers :: s.streams }

def step (s : ChaincodeSupport) : Label → Option ChaincodeSupport
  | .launch cds running =>
    match s.entry with
    -- premature execution
    | some ⟨_, none⟩ => some (s.resume (.returned false) none)
    | some ⟨_, some _⟩ => some (s.resume (if running then .returned true
        else cds.elim (.fetch true) (s.prepare true)) none)
    | none => some (s.resume (cds.elim (.fetch false) (s.prepare false)) none)
  | .fetch found cds =>
    if ⟨.fetch found, none⟩ ∈ s.launches then
      some ({ s with launches := s.launches.erase ⟨.fetch found, none⟩ }.resume
        (cds.elim (.returned false) (s.prepare found)) none)
    else none
  | .advance l ok =>
    if l ∈ s.launches then
      { s with launches := s.launches.erase l }.advance l.added ok l.place
    else none
  | .stop => some (s.resume .stop none)
  | .register => some s.registerHandler
  -- the stream of a handler that has entered its end state deregisters it again when it ends
  | .endState handler => if handler ∈ s.streams then some s.delete else none
  | .terminate handler =>
    if handler ∈ s.streams then some { s.delete with streams := s.streams.erase handler } else none

variable {s s' : ChaincodeSupport} {l : Label}

/-! ### Streams that end -/

/-- An entry that the step of a stream removes is that of its handler. -/
def DeregistersItself (s : ChaincodeSupport) : Label → Prop
  | .endState handler => ∀ s' e, s.step (.endState handler) = some s' → s.entry = some e →
    s'.entry ≠ some e → e.handler = some handler
  | .terminate handler => ∀ s' e, s.step (.terminate handler) = some s' → s.entry = some e →
    s'.entry ≠ some e → e.handler = some handler
  | _ => True

/-- An entry is made only when the streams of all registered handlers have ended. -/
def Settled (s : ChaincodeSupport) : Label → Prop
  | .advance ⟨.prepare _, _⟩ _ => s.entry = none → s.streams = []
  | .register => s.entry = none → s.streams = []
  | _ => True

instance (s : ChaincodeSupport) : DecidablePred s.Settled := fun l => by
  unfold Settled
  split <;> infer_instance

/-- The entry is a placeholder and no stream is left, or the only stream is that of its handler. -/
def Single (s : ChaincodeSupport) : Prop := ∀ e, s.entry = some e → s.streams = e.handler.toList

open ChaincodeSupport

theorem Single.step (h : s.Single) (hsettled : s.Settled l) (hstep : s.step l = some s') :
    s'.Single := by
  cases l with
  | advance l =>
    obtain ⟨place, added⟩ := l
    obtain ⟨hmem, hstep⟩ := Option.ite_none_right_eq_some.mp hstep
    cases place <;> grind [Single, advance, resume, delete, Settled]
  | _ => grind [Single, step, registerHandler, resume, delete, Settled]

theorem Single.deregisters (h : s.Single) : s.DeregistersItself l := by
  cases l <;> grind [Single, DeregistersItself, ChaincodeSupport.step]

/-- If entries are made only when the streams of all registered handlers have ended, a stream that
ends removes no entry but its own. -/
theorem deregisters_itself_of_settled (userRunsCC : Bool) (labels : List Label)
    (halong : Along step Settled (newChaincodeSupport userRunsCC) labels) :
    Along step DeregistersItself (newChaincodeSupport userRunsCC) labels :=
  along_of_invariant (I := Single) (fun _ => nofun)
    (fun _ _ _ hsettled h hstep => h.step hsettled hstep) (fun _ _ _ h => h.deregisters) halong

/-- A chaincode is deployed and registers, and `Stop` is called. -/
def deployed : List Label :=
  [.launch (some ⟨.golang, false⟩) false, .advance ⟨.prepare .golang, none⟩ true,
    .advance ⟨.getArgs .golang, some 0⟩ true, .advance ⟨.start, some 0⟩ true, .register,
    .advance ⟨.wait, some 0⟩ true, .advance ⟨.init, some 0⟩ true, .advance ⟨.initWait, some 0⟩ true,
    .stop, .advance ⟨.stop, none⟩ true]

theorem deregisters_itself_of_settled_stop :
    (runSteps step (newChaincodeSupport false) (deployed ++ [.terminate 0,
      .launch (some ⟨.golang, false⟩) false, .advance ⟨.prepare .golang, none⟩ true])).isSome ∧
    Along step DeregistersItself (newChaincodeSupport false) (deployed ++ [.terminate 0,
      .launch (some ⟨.golang, false⟩) false, .advance ⟨.prepare .golang, none⟩ true]) :=
  ⟨by decide +kernel, deregisters_itself_of_settled false _ (by decide +kernel)⟩

/-- The chaincode is launched again before its first stream has ended. -/
theorem not_deregisters_itself_relaunched :
    ¬ Along step DeregistersItself (newChaincodeSupport false) (deployed ++
      [.launch (some ⟨.golang, false⟩) false, .advance ⟨.prepare .golang, none⟩ true] ++
      [.terminate 0]) := by
  obtain ⟨s, hs, hend⟩ := Option.map_eq_some_iff.mp (by decide +kernel :
    (runSteps step (newChaincodeSupport false) (deployed ++
      [.launch (some ⟨.golang, false⟩) false, .advance ⟨.prepare .golang, none⟩ true])).map
      (fun s => (s.entry, (s.step (.terminate 0)).map entry)) =
      some (some ⟨1, none⟩, some none))
  simp only [Prod.mk.injEq, Option.map_eq_some_iff] at hend
  obtain ⟨hentry, s', hs', hgone⟩ := hend
  intro halong
  have hlast := ((along_append hs).mp halong).2.1 s' ⟨1, none⟩ hs' hentry (by simp [hgone])
  cases hlast

/-! ### Launches that fail -/

/-- The map has no entry that was left by a launch that has failed. -/
def Clean (s : ChaincodeSupport) : Prop :=
  ∀ l ∈ s.launches, l.place = .returned false → ∀ e, s.entry = some e → l.added ≠ some e.ref

/-- The arguments are only asked for a type that is supported. -/
def Supported : Label → Prop
  | .advance ⟨.getArgs lang, _⟩ _ => lang.supported
  | _ => True

instance : DecidablePred Supported := fun l => by
  unfold Supported
  split <;> infer_instance

/-- Entries are numbered. -/
structure Numbered (s : ChaincodeSupport) : Prop where
  clean : s.Clean
  entry : ∀ e, s.entry = some e → e.ref < s.refs
  added : ∀ l ∈ s.launches, ∀ ref, l.added = some ref → ref < s.refs

theorem Numbered.step (h : s.Numbered) (hsupported : Supported l) (hstep : s.step l = some s') :
    s'.Numbered := by
  obtain ⟨hclean, hentry, hadded⟩ := h
  cases l with
  | advance l =>
    obtain ⟨place, added⟩ := l
    obtain ⟨hmem, hstep⟩ := Option.ite_none_right_eq_some.mp hstep
    cases place <;> constructor <;> grind [Clean, advance, resume, delete, Supported]
  | _ => constructor <;> grind [Clean, step, registerHandler, resume, delete]

/-- If the types of launched chaincodes are supported, a failed launch has left no entry. -/
theorem clean_of_supported (userRunsCC : Bool) (labels : List Label)
    (hsupported : ∀ l ∈ labels, Supported l)
    (hrun : runSteps step (newChaincodeSupport userRunsCC) labels = some s) : s.Clean := by
  have halong : Along step (fun _ => Supported) (newChaincodeSupport userRunsCC) labels :=
    along_of_forall_mem fun l hl _ => hsupported l hl
  refine (runSteps_invariant (I := Numbered) ⟨?_, ?_, ?_⟩
    (fun _ _ _ hsupported h hstep => h.step hsupported hstep) halong hrun).clean
  all_goals simp [Clean, newChaincodeSupport]

/-- A launch whose container does not register is followed by another one. -/
theorem clean_of_supported_retry : ∃ s, runSteps step (newChaincodeSupport false)
    [.launch (some ⟨.java, false⟩) false, .advance ⟨.prepare .java, none⟩ true,
      .advance ⟨.getArgs .java, some 0⟩ true, .advance ⟨.start, some 0⟩ true,
      .advance ⟨.wait, some 0⟩ false, .advance ⟨.stop, some 0⟩ true,
      .launch (some ⟨.java, false⟩) false, .advance ⟨.prepare .java, none⟩ true] = some s ∧
    s.Clean := by
  refine exists_of_checked (fun _ => True) (by decide +kernel) ?_
  rintro s hs -
  exact clean_of_supported false _ (by decide +kernel) hs

/-- A chaincode of a type that is not supported. -/
theorem not_clean_node : ∃ s, runSteps step (newChaincodeSupport false)
    [.launch (some ⟨.node, false⟩) false, .advance ⟨.prepare .node, none⟩ true,
      .advance ⟨.getArgs .node, some 0⟩ true] = some s ∧ ¬ s.Clean := by
  refine exists_of_checked (fun s => s.entry = some ⟨0, none⟩ ∧
    s.launches = [⟨.returned false, some 0⟩]) (by decide +kernel) ?_
  rintro s - ⟨hentry, hlaunches⟩ hclean
  exact hclean ⟨.returned false, some 0⟩ (by simp [hlaunches]) rfl _ hentry rfl

end ChaincodeSupport

end Fabric.Chaincode
