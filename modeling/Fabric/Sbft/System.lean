import Mathlib.Data.Finset.Card
import Fabric.Common.Machine
import Fabric.Sbft.Handlers

/-!
# Groups of replicas

Replicas exchange messages over an asynchronous network. Correct ones run the handlers;
messages in flight are delivered in any order or never; running timers fire at any
time; a replica may crash at any point, also in the middle of a handler, and restart
from its history. Byzantine replicas send whatever they like under their own id.

Signatures are unforgeable: a message is delivered only if every signature in it
that verifies belongs to a Byzantine replica or was made by the replica it names.
-/

namespace Fabric.Sbft

variable {β : Type} [DecidableEq β] (P : Primitives β)

/-- What a replica reacts to. -/
inductive Input (β : Type) where
  | receive (m : Msg β) (src : ℕ)
  | request (req : β)
  | connection (replica : ℕ)
  | timer (timer : ℕ)

/-- The reaction of a replica to an input. -/
def handle : Input β → M β Unit
  | .receive m src => receive P m src
  | .request req => request req
  | .connection replica => connection P replica
  | .timer timer => fireTimer P timer

/-- A message in flight. -/
structure Packet (β : Type) where
  src : ℕ
  dest : ℕ
  msg : Msg β

/-- A replica's process; it halts when a handler panics. -/
structure Process (β : Type) where
  replica : Replica β
  halted : Bool

/-- A group of replicas with the messages in flight, oldest first. -/
structure System (β : Type) where
  config : Config
  procs : List (Process β)
  net : List (Packet β)

/-- What happens at a replica: the `k`-th message in flight from `src` or a Byzantine replica's
message arrives, a client, connection or timer event occurs, or the process is restarted. -/
inductive Action (β : Type) where
  | deliver (src k : ℕ)
  | inject (src : ℕ) (m : Msg β)
  | request (req : β)
  | connection (replica : ℕ)
  | timer (timer : ℕ)
  | restart
deriving DecidableEq

/-- The replica that acts, what happens there, the order in which it visits its maps, and, if it
crashes, after how many events. -/
structure Label (β : Type) where
  replica : ℕ
  action : Action β
  choices : List ℕ := []
  crashAfter : Option ℕ := none

namespace Label

/-- A step in which nobody crashes and maps are visited in the order of their keys. -/
def of (replica : ℕ) (action : Action β) : Label β := { replica, action }

/-- Messages that arrive one after the other: destination, sender and place in flight. -/
def arrivals (l : List (ℕ × ℕ × ℕ)) : List (Label β) :=
  l.map fun e => .of e.1 (.deliver e.2.1 e.2.2)

/-- Whether a step restarts a replica. -/
def Restarts (l : Label β) : Prop := l.crashAfter ≠ none ∨ l.action = .restart

instance (l : Label β) : Decidable l.Restarts := inferInstanceAs (Decidable (_ ∨ _))

end Label

/-- The signatures on a batch: signer, signed data and signature. -/
def batchSigs (b : Batch β) : List (ℕ × β × β) :=
  b.signatures.toList.map fun e => (e.1, b.hash P, e.2)

/-- The signatures in a signed view change. -/
def signedSigs (signer : ℕ) (svc : Signed β) : List (ℕ × β × β) :=
  (signer, svc.data, svc.signature) ::
    (((P.unmarshalViewChange svc.data).bind fun vc => vc.checkpoint).map (batchSigs P)).getD []

/-- The signatures in a new view. -/
def newViewSigs (nv : NewView β) : List (ℕ × β × β) :=
  (nv.vset.toList.flatMap fun e => (e.2.map (signedSigs P e.1)).getD []) ++
    (nv.batch.map (batchSigs P)).getD []

/-- The signatures in a message from `src`. -/
def msgSigs (src : ℕ) : Msg β → List (ℕ × β × β)
  | .preprepare pp => (pp.batch.map (batchSigs P)).getD []
  | .viewChange svc => signedSigs P src svc
  | .newView nv => newViewSigs P nv
  | .checkpoint c => [(src, P.bytes c.digest, c.signature)]
  | .hello h =>
    (h.batch.map (batchSigs P)).getD [] ++ (h.newView.map (newViewSigs P)).getD []
  | _ => []

/-- The data a replica has signed. -/
def signedData (t : List (Event β)) : List β :=
  t.filterMap fun
    | .signCheckpoint sub => some (P.bytes sub.digest)
    | .signViewChange vc => some (P.marshalViewChange vc)
    | _ => none

variable {P} in
omit [DecidableEq β] in
theorem exists_signCheckpoint {t : List (Event β)} {x : β} (h : P.hash x ∈ signedData P t) :
    ∃ sub, .signCheckpoint sub ∈ t ∧ P.bytes sub.digest = P.hash x := by
  obtain ⟨e, he, heq⟩ := List.mem_filterMap.mp h
  split at heq
  · exact ⟨_, he, by simpa using heq⟩
  · exact absurd (by simpa using heq.symm) (P.hash_ne_marshalViewChange x _)
  · cases heq

/-- No signature in the message is forged. -/
def genuine (B : Finset ℕ) (sys : System β) (src : ℕ) (m : Msg β) : Bool :=
  (msgSigs P src m).all fun (r, data, sig) =>
    !P.checkSig data r sig || r ∈ B ||
      ((sys.procs[r]?).map fun p => decide (data ∈ signedData P p.replica.trace)) == some true

/-- Take the `k`-th message from `src` to `dest` out of the network. -/
def takePacket (src dest : ℕ) : ℕ → List (Packet β) → Option (Msg β × List (Packet β))
  | _, [] => none
  | k, p :: net =>
    if p.src = src ∧ p.dest = dest then
      match k with
      | 0 => some (p.msg, net)
      | k + 1 => (takePacket src dest k net).map fun r => (r.1, p :: r.2)
    else (takePacket src dest k net).map fun r => (r.1, p :: r.2)

/-- The input of a step and what stays in flight; none if the message is missing or forged. -/
def System.input (B : Finset ℕ) (sys : System β) (i : ℕ) :
    Action β → Option (Input β × List (Packet β))
  | .deliver src k => do
    let (m, net) ← takePacket src i k sys.net
    if genuine P B sys src m then some (.receive m src, net) else none
  | .inject src m =>
    if src ∈ B ∧ src < sys.procs.length ∧ genuine P B sys src m then
      some (.receive m src, sys.net)
    else none
  | .request req => some (.request req, sys.net)
  | .connection replica => some (.connection replica, sys.net)
  | .timer timer => some (.timer timer, sys.net)
  | .restart => none

/-- The process after a handler ended. -/
def Process.ofResult : EStateM.Result Panic (Replica β) Unit → Process β
  | .ok _ s => ⟨s, false⟩
  | .error _ s => ⟨s, true⟩

/-- Start the process of replica `id` over a history. -/
def Process.start (cfg : Config) (id : ℕ) (trace : List (Event β)) : Process β :=
  .ofResult (restore P { SBFT.blank cfg id with trace := trace })

/-- The messages a replica sent since its history was `old`. -/
def newPackets (src : ℕ) (old new : List (Event β)) : List (Packet β) :=
  (new.take (new.length - old.length)).reverse.filterMap fun
    | .send m dest => some ⟨src, dest, m⟩
    | _ => none

/-- Replace the process of a replica and put its messages in flight. -/
def System.commit (sys : System β) (i : ℕ) (old : List (Event β)) (p : Process β)
    (net : List (Packet β)) : System β :=
  ⟨sys.config, sys.procs.set i p, net ++ newPackets i old p.replica.trace⟩

/-- One step of the group. -/
def System.step (B : Finset ℕ) (sys : System β) (l : Label β) : Option (System β) :=
  if l.replica ∈ B then none
  else match sys.procs[l.replica]? with
  | none => none
  | some p =>
    let old := p.replica.trace
    match l.action with
    | .restart => some (sys.commit l.replica old (.start P sys.config l.replica old) sys.net)
    | action =>
      if p.halted then none
      else match sys.input P B l.replica action with
      | none => none
      | some (inp, net) =>
        let after : Process β := .ofResult (handle P inp { p.replica with choices := l.choices })
        match l.crashAfter with
        | none => some (sys.commit l.replica old after net)
        | some k =>
          let trace := after.replica.trace
          let kept := trace.drop (trace.length - old.length - k)
          some (sys.commit l.replica old (.start P sys.config l.replica kept) net)

/-- The panic that a step ends in, if the replica neither crashes nor restarts. -/
def System.panic? (B : Finset ℕ) (sys : System β) (l : Label β) : Option Panic :=
  match sys.procs[l.replica]?, sys.input P B l.replica l.action, l.crashAfter with
  | some p, some (inp, _), none =>
    if l.replica ∈ B ∨ p.halted then none
    else match handle P inp { p.replica with choices := l.choices } with
      | .ok _ _ => none
      | .error e _ => some e
  | _, _, _ => none

/-- A freshly created group. -/
def System.init (cfg : Config) : System β where
  config := cfg
  procs := (List.range cfg.N).map fun i => .start P cfg i []
  net := []

/-- A run of the group. -/
def System.run (B : Finset ℕ) : System β → List (Label β) → Option (System β)
  | sys, [] => some sys
  | sys, l :: ls => (sys.step P B l).bind fun sys => System.run B sys ls

variable {P} in
theorem System.run_eq_runSteps (B : Finset ℕ) (sys : System β) (ls : List (Label β)) :
    System.run P B sys ls = Common.runSteps (System.step P B) sys ls := by
  induction ls generalizing sys with
  | nil => rfl
  | cons _ _ ih =>
    rw [System.run]
    congr 1
    funext sys'
    exact ih sys'

/-- The correct replicas with their histories. -/
def System.histories (B : Finset ℕ) (sys : System β) : List (ℕ × List (Event β)) :=
  sys.procs.zipIdx.filterMap fun e => if e.2 ∈ B then none else some (e.2, e.1.replica.trace)

omit [DecidableEq β] in
theorem System.mem_histories {B : Finset ℕ} {sys : System β} {i : ℕ} {t : List (Event β)} :
    (i, t) ∈ sys.histories B ↔ i ∉ B ∧ ∃ p, sys.procs[i]? = some p ∧ t = p.replica.trace := by
  simp only [histories, List.mem_filterMap, Prod.exists, List.mem_zipIdx_iff_getElem?]
  constructor
  · rintro ⟨p, j, hp, heq⟩
    split_ifs at heq with hj
    obtain ⟨rfl, rfl⟩ : j = i ∧ p.replica.trace = t := by simpa using heq
    exact ⟨hj, p, hp, rfl⟩
  · rintro ⟨hi, p, hp, rfl⟩
    exact ⟨p, i, hp, by simp [hi]⟩

end Fabric.Sbft
