import Fabric.Common.History
import Fabric.Common.Machine
import Fabric.Gossip.Message
import Mathlib.Data.List.AList
import Mathlib.Data.List.Dedup

/-!
# The pull engine

A peer greets others with a nonce each, collects the digests that they answer with, and asks for
each item that it does not hold one of the peers that have it. Rounds and digests overlap in any
way. The tables of the engine are only used under its lock, but the flag and the nonces that
decide whether a digest is accepted are read before the lock is taken.

The machine interleaves the calls at the granularity of these accesses and of what is done under
the lock.
-/

namespace Fabric.Gossip

open Fabric.Common List Option

/-! ### The engine -/

structure PullEngine where
  state : List UInt64
  item2owners : AList fun _ : UInt64 => List Bytes
  peers2nonces : Bytes → Option UInt64
  nonces2peers : UInt64 → Option Bytes
  acceptingDigests : Bool
  acceptingResponses : Bool
  outgoingNONCES : List UInt64
  incomingNONCES : List UInt64

namespace PullEngine

def newPullEngine : PullEngine where
  state := []
  item2owners := ∅
  peers2nonces _ := none
  nonces2peers _ := none
  acceptingDigests := false
  acceptingResponses := false
  outgoingNONCES := []
  incomingNONCES := []

def add (engine : PullEngine) (seqs : List UInt64) : PullEngine :=
  { engine with state := seqs.foldl (fun state seq => state.insert seq) engine.state }

def remove (engine : PullEngine) (seqs : List UInt64) : PullEngine :=
  { engine with state := engine.state.filter fun n => n ∉ seqs }

/-- The tables of a new nonce, in `initiatePull`. -/
def greet (engine : PullEngine) (peer : Bytes) (nonce : UInt64) : PullEngine :=
  { engine with
    nonces2peers := Function.update engine.nonces2peers nonce (some peer)
    peers2nonces := Function.update engine.peers2nonces peer (some nonce) }

/-- What `endPull` resets under the lock. -/
def clear (engine : PullEngine) : PullEngine :=
  { engine with
    outgoingNONCES := []
    item2owners := ∅
    peers2nonces := fun _ => none
    nonces2peers := fun _ => none }

/-- One iteration of the loop of `OnDigest`; an unknown nonce reads as the empty string. -/
def mergeItem (engine : PullEngine) (nonce n : UInt64) : PullEngine :=
  if n ∈ engine.state then engine
  else
    let owners := (engine.item2owners.lookup n).getD []
    let owner := (engine.nonces2peers nonce).getD []
    { engine with item2owners := engine.item2owners.insert n (owners ++ [owner]) }

/-- `OnDigest` where nothing comes in between its checks and its loop. -/
def onDigest (engine : PullEngine) (digest : List UInt64) (nonce : UInt64) : PullEngine :=
  if engine.acceptingDigests ∧ nonce ∈ engine.outgoingNONCES then
    digest.foldl (fun engine n => engine.mergeItem nonce n) engine
  else engine

/-- The engine and the digest that is sent. -/
def onHello (engine : PullEngine) (nonce : UInt64) : PullEngine × List UInt64 :=
  ({ engine with incomingNONCES := engine.incomingNONCES.insert nonce }, engine.state)

/-- The items that are sent, if the nonce was received in a greeting. -/
def onReq (engine : PullEngine) (items : List UInt64) (nonce : UInt64) : Option (List UInt64) :=
  if nonce ∈ engine.incomingNONCES then some (items.filter fun n => n ∈ engine.state) else none

def onRes (engine : PullEngine) (items : List UInt64) (nonce : UInt64) : PullEngine :=
  if nonce ∈ engine.outgoingNONCES ∧ engine.acceptingResponses then engine.add items else engine

end PullEngine

/-! ### Interleaved calls -/

/-- What remains to be done under the lock by the call that holds it. -/
inductive Section
  /-- `initiatePull` with the peers that are left to greet -/
  | initiating (peers : List Bytes)
  /-- `initiatePull` between adding a nonce and sending it -/
  | greeting (peer : Bytes) (nonce : UInt64) (peers : List Bytes)
  /-- `processIncomingDigests` with its choice of a source for each item, and the sources that
  are left to ask -/
  | requesting (sources : List (UInt64 × Bytes)) (dests : List Bytes)
  /-- `endPull` before it clears the nonces and the tables -/
  | ending
  /-- `OnDigest` with the items that are left -/
  | merging (nonce : UInt64) (digest : List UInt64)
deriving DecidableEq

/-- A call of `OnDigest`. -/
structure DigestCall where
  digest : List UInt64
  nonce : UInt64
deriving DecidableEq

/-- What passes between the engine and other peers. -/
inductive Exchange
  | hello (dest : Bytes) (nonce : UInt64)
  | digest (items : List UInt64) (nonce : UInt64)
  | request (dest : Bytes) (items : List UInt64) (nonce : UInt64)
deriving DecidableEq

/-- The engine, the call that holds its lock, the calls of `OnDigest` past the first and second
check, the calls of `processIncomingDigests` that wait, and what was exchanged, latest first. -/
structure Pull where
  engine : PullEngine
  holder : Option Section
  flagged : List DigestCall
  checked : List DigestCall
  processing : ℕ
  log : List Exchange

inductive PullLabel
  | onDigest (call : DigestCall)
  | existsNonce (call : DigestCall)
  | lockDigest (call : DigestCall)
  | mergeItem
  | initiatePull (peers : List Bytes)
  | newNONCE (nonce : UInt64)
  | hello
  | ignoreDigests
  | processIncomingDigests (sources : List (UInt64 × Bytes))
  | sendReq (dest : Bytes)
  | endPull
  | clear
  | unlock
  | add (n : UInt64)
  | remove (n : UInt64)
deriving DecidableEq

namespace Pull

def newPull : Pull where
  engine := .newPullEngine
  holder := none
  flagged := []
  checked := []
  processing := 0
  log := []

/-- A choice of one of the owners for each item, in some order. -/
def Sources (engine : PullEngine) (sources : List (UInt64 × Bytes)) : Prop :=
  (sources.map Prod.fst).Perm engine.item2owners.keys ∧
  ∀ source ∈ sources, source.2 ∈ (engine.item2owners.lookup source.1).getD []

instance (engine : PullEngine) (sources : List (UInt64 × Bytes)) :
    Decidable (Sources engine sources) := inferInstanceAs (Decidable (_ ∧ _))

/-- The items that a source is asked for. -/
def requestMapping (sources : List (UInt64 × Bytes)) (dest : Bytes) : List UInt64 :=
  (sources.filter fun source => source.2 = dest).map Prod.fst

def step (s : Pull) : PullLabel → Option Pull
  -- `OnDigest` reads the flag, and then looks up the nonce, without the lock
  | .onDigest call => some
    { s with
      flagged := if s.engine.acceptingDigests then call :: s.flagged else s.flagged
      log := .digest call.digest call.nonce :: s.log }
  | .existsNonce call =>
    if call ∈ s.flagged then some
      { s with
        flagged := s.flagged.erase call
        checked := if call.nonce ∈ s.engine.outgoingNONCES then call :: s.checked else s.checked }
    else none
  | .lockDigest call =>
    if s.holder = none ∧ call ∈ s.checked then some
      { s with
        checked := s.checked.erase call
        holder := some (.merging call.nonce call.digest) }
    else none
  | .mergeItem =>
    match s.holder with
    | some (.merging nonce (n :: digest)) => some
      { s with
        engine := s.engine.mergeItem nonce n
        holder := some (.merging nonce digest) }
    | _ => none
  | .initiatePull peers =>
    if s.holder = none then some
      { s with
        engine.acceptingDigests := true
        holder := some (.initiating peers) }
    else none
  -- a random number of 63 bits that is not outstanding
  | .newNONCE nonce =>
    match s.holder with
    | some (.initiating (peer :: peers)) =>
      if nonce.toNat < 2 ^ 63 ∧ nonce ∉ s.engine.outgoingNONCES then some
        { s with
          engine.outgoingNONCES := nonce :: s.engine.outgoingNONCES
          holder := some (.greeting peer nonce peers) }
      else none
    | _ => none
  | .hello =>
    match s.holder with
    | some (.greeting peer nonce peers) => some
      { s with
        engine := s.engine.greet peer nonce
        holder := some (.initiating peers)
        log := .hello peer nonce :: s.log }
    | _ => none
  | .ignoreDigests => some
    { s with
      engine.acceptingDigests := false
      processing := s.processing + 1 }
  | .processIncomingDigests sources =>
    if s.holder = none ∧ 0 < s.processing ∧ Sources s.engine sources then some
      { s with
        engine.acceptingResponses := true
        processing := s.processing - 1
        holder := some (.requesting sources (sources.map Prod.snd).dedup) }
    else none
  -- a peer without a nonce is asked with the nonce 0
  | .sendReq dest =>
    match s.holder with
    | some (.requesting sources dests) =>
      if dest ∈ dests then some
        { s with
          holder := some (.requesting sources (dests.erase dest))
          log := .request dest (requestMapping sources dest)
            ((s.engine.peers2nonces dest).getD 0) :: s.log }
      else none
    | _ => none
  | .endPull =>
    if s.holder = none then some
      { s with
        engine.acceptingResponses := false
        holder := some .ending }
    else none
  | .clear =>
    if s.holder = some .ending then some { s with engine := s.engine.clear, holder := none }
    else none
  | .unlock =>
    match s.holder with
    | some (.initiating []) | some (.requesting _ []) | some (.merging _ []) =>
      some { s with holder := none }
    | _ => none
  | .add n => some { s with engine := s.engine.add [n] }
  | .remove n => some { s with engine := s.engine.remove [n] }

/-! ### Well-addressed requests -/

/-- The peer has listed the item in a digest with the nonce of a greeting that it was sent. -/
def Listed (log : List Exchange) (n : UInt64) (peer : Bytes) : Prop :=
  ∃ nonce items, .hello peer nonce ∈ log ∧ .digest items nonce ∈ log ∧ n ∈ items

/-- A request goes to a peer that was greeted with its nonce and has listed the items. -/
def WellAddressed : Exchange → List Exchange → Prop
  | .request dest items nonce, log => .hello dest nonce ∈ log ∧ ∀ n ∈ items, Listed log n dest
  | _, _ => True

/-- The nonce of a digest that is about to be merged is still outstanding. -/
def Outstanding (s : Pull) : PullLabel → Prop
  | .lockDigest call => call.nonce ∈ s.engine.outgoingNONCES
  | _ => True

instance : ∀ (s : Pull) (a : PullLabel), Decidable (Outstanding s a)
  | s, .lockDigest call => inferInstanceAs (Decidable (call.nonce ∈ s.engine.outgoingNONCES))
  | _, .onDigest _ | _, .existsNonce _ | _, .mergeItem | _, .initiatePull _ | _, .newNONCE _
  | _, .hello | _, .ignoreDigests | _, .processIncomingDigests _ | _, .sendReq _ | _, .endPull
  | _, .clear | _, .unlock | _, .add _ | _, .remove _ => .isTrue trivial

theorem Listed.mono {log log' : List Exchange} (hsub : log ⊆ log') {n : UInt64} {peer : Bytes}
    (h : Listed log n peer) : Listed log' n peer := by
  obtain ⟨nonce, items, hhello, hdigest, hn⟩ := h
  exact ⟨nonce, items, hsub hhello, hsub hdigest, hn⟩

/-- The peer can be asked for the item. -/
def Owned (engine : PullEngine) (log : List Exchange) (n : UInt64) (peer : Bytes) : Prop :=
  (engine.peers2nonces peer).isSome ∧ Listed log n peer

/-- What the tables say about the past. -/
structure Tables (engine : PullEngine) (log : List Exchange) : Prop where
  nonces2peers : ∀ nonce peer, engine.nonces2peers nonce = some peer →
    .hello peer nonce ∈ log ∧ (engine.peers2nonces peer).isSome
  peers2nonces : ∀ peer nonce, engine.peers2nonces peer = some nonce → .hello peer nonce ∈ log
  item2owners : ∀ n owners, engine.item2owners.lookup n = some owners →
    ∀ peer ∈ owners, Owned engine log n peer

/-- What the call that holds the lock relies on. -/
def Held (engine : PullEngine) (log : List Exchange) : Section → Prop
  | .requesting sources dests =>
    dests ⊆ sources.map Prod.snd ∧ ∀ source ∈ sources, Owned engine log source.1 source.2
  | .merging nonce digest =>
    (engine.nonces2peers nonce).isSome ∧ ∃ items, .digest items nonce ∈ log ∧ digest ⊆ items
  | _ => True

/-- A nonce is outstanding before its tables are written only while its greeting is on its way. -/
structure Addressed (s : Pull) : Prop where
  tables : Tables s.engine s.log
  outgoing : ∀ nonce ∈ s.engine.outgoingNONCES,
    (∀ peer peers, s.holder ≠ some (.greeting peer nonce peers)) →
    (s.engine.nonces2peers nonce).isSome
  calls : ∀ call, call ∈ s.flagged ∨ call ∈ s.checked → .digest call.digest call.nonce ∈ s.log
  held : ∀ sect, s.holder = some sect → Held s.engine s.log sect
  log : Always WellAddressed s.log

variable {engine : PullEngine} {log log' : List Exchange} {s s' : Pull} {a : PullLabel}
  {peer : Bytes} {nonce n : UInt64} {sources : List (UInt64 × Bytes)} {sect : Section}

/-! ### Steps -/

theorem Owned.mono (h : Owned engine log n peer) (hsub : log ⊆ log') : Owned engine log' n peer :=
  ⟨h.1, h.2.mono hsub⟩

theorem Tables.mono (h : Tables engine log) (hsub : log ⊆ log') : Tables engine log' where
  nonces2peers nonce peer hpeer := (h.nonces2peers nonce peer hpeer).imp_left (hsub ·)
  peers2nonces peer nonce hnonce := hsub (h.peers2nonces peer nonce hnonce)
  item2owners n owners hn peer hpeer := (h.item2owners n owners hn peer hpeer).mono hsub

theorem Held.mono (h : Held engine log sect) (hsub : log ⊆ log') : Held engine log' sect := by
  cases sect with
  | requesting => exact ⟨h.1, fun source hs => (h.2 source hs).mono hsub⟩
  | merging =>
    obtain ⟨hsome, items, hitems, hsub'⟩ := h
    exact ⟨hsome, items, hsub hitems, hsub'⟩
  | initiating | greeting | ending => trivial

open PullEngine

theorem isSome_greet {peer' : Bytes} (h : (engine.peers2nonces peer').isSome) :
    ((engine.greet peer nonce).peers2nonces peer').isSome := by
  by_cases hp : peer' = peer
  · simp [greet, hp]
  · simpa [greet, hp] using h

theorem Tables.greet (h : Tables engine log) :
    Tables (engine.greet peer nonce) (.hello peer nonce :: log) where
  nonces2peers nonce' peer' hpeer := by
    by_cases hn : nonce' = nonce
    · subst hn
      obtain rfl : peer = peer' := by simpa [PullEngine.greet] using hpeer
      exact ⟨mem_cons_self, by simp [PullEngine.greet]⟩
    · have hpeer : engine.nonces2peers nonce' = some peer' := by
        simpa [PullEngine.greet, hn] using hpeer
      obtain ⟨hhello, hsome⟩ := h.nonces2peers nonce' peer' hpeer
      exact ⟨mem_cons_of_mem _ hhello, isSome_greet hsome⟩
  peers2nonces peer' nonce' hnonce := by
    by_cases hp : peer' = peer
    · subst hp
      obtain rfl : nonce = nonce' := by simpa [PullEngine.greet] using hnonce
      exact mem_cons_self
    · have hnonce : engine.peers2nonces peer' = some nonce' := by
        simpa [PullEngine.greet, hp] using hnonce
      exact mem_cons_of_mem _ (h.peers2nonces peer' nonce' hnonce)
  item2owners n owners hn peer' hpeer := by
    obtain ⟨hsome, hlisted⟩ := h.item2owners n owners hn peer' hpeer
    exact ⟨isSome_greet hsome, hlisted.mono (subset_cons_self _ _)⟩

theorem Tables.clear : Tables engine.clear log where
  nonces2peers _ _ h := by cases h
  peers2nonces _ _ h := by cases h
  item2owners _ _ h := by simp [PullEngine.clear] at h

/-- An item of a digest whose nonce is in the table gets the greeted peer as an owner. -/
theorem Tables.mergeItem (h : Tables engine log) (hsome : (engine.nonces2peers nonce).isSome)
    {items : List UInt64} (hitems : .digest items nonce ∈ log) (hn : n ∈ items) :
    Tables (engine.mergeItem nonce n) log := by
  obtain ⟨peer, hpeer⟩ := isSome_iff_exists.mp hsome
  obtain ⟨hhello, hasked⟩ := h.nonces2peers nonce peer hpeer
  unfold PullEngine.mergeItem
  split
  case isTrue => exact h
  case isFalse =>
    refine ⟨h.nonces2peers, h.peers2nonces, ?_⟩
    intro n' owners howners peer' hpeer'
    by_cases heq : n' = n
    -- the owners of the item are those it had, and the peer that was greeted with the nonce
    · subst heq
      simp only [AList.lookup_insert, some.injEq, hpeer] at howners
      subst howners
      rcases mem_append.mp hpeer' with hold | hnew
      · cases hold' : engine.item2owners.lookup n' with
        | none => simp [hold'] at hold
        | some owners => exact h.item2owners n' owners hold' peer' (by simpa [hold'] using hold)
      · rw [mem_singleton.mp hnew]
        exact ⟨hasked, nonce, items, hhello, hitems, hn⟩
    · simp only [AList.lookup_insert_ne heq] at howners
      exact h.item2owners n' owners howners peer' hpeer'

@[simp] theorem mergeItem_nonces2peers :
    (engine.mergeItem nonce n).nonces2peers = engine.nonces2peers := by
  unfold mergeItem
  split <;> rfl

@[simp] theorem mergeItem_outgoingNONCES :
    (engine.mergeItem nonce n).outgoingNONCES = engine.outgoingNONCES := by
  unfold mergeItem
  split <;> rfl

theorem Tables.owned_of_sources (h : Tables engine log)
    (hsources : Sources engine sources) {source : UInt64 × Bytes} (hmem : source ∈ sources) :
    Owned engine log source.1 source.2 := by
  have howner := hsources.2 source hmem
  cases hlookup : engine.item2owners.lookup source.1 with
  | none => simp [hlookup] at howner
  | some owners =>
    exact h.item2owners source.1 owners hlookup source.2 (by simpa [hlookup] using howner)

theorem Addressed.init : Addressed newPull where
  tables := ⟨fun _ _ h => (by cases h), fun _ _ h => (by cases h), by simp [newPull, newPullEngine]⟩
  outgoing _ h := by cases h
  calls _ h := by rcases h with h | h <;> cases h
  held _ h := by cases h
  log := trivial

section

variable (h : Addressed s) {call : DigestCall}
include h

theorem Addressed.outstanding
    (hholder : ∀ peer nonce peers, s.holder ≠ some (.greeting peer nonce peers))
    (hmem : nonce ∈ s.engine.outgoingNONCES) : (s.engine.nonces2peers nonce).isSome :=
  h.outgoing nonce hmem fun peer peers => hholder peer nonce peers

theorem Addressed.adjust (state : List UInt64) (digests responses : Bool) (processing : ℕ) :
    Addressed { s with
      engine.state := state
      engine.acceptingDigests := digests
      engine.acceptingResponses := responses
      processing := processing } where
  tables := ⟨h.tables.nonces2peers, h.tables.peers2nonces, h.tables.item2owners⟩
  outgoing := h.outgoing
  calls := h.calls
  held sect hsect := by
    have hheld := h.held sect hsect
    cases sect <;> exact hheld
  log := h.log

theorem Addressed.lock (hholder : s.holder = none)
    (hheld : Held s.engine s.log sect) : Addressed { s with holder := some sect } where
  tables := h.tables
  outgoing _ hmem _ := h.outstanding (by simp [hholder]) hmem
  calls := h.calls
  held
    | _, rfl => hheld
  log := h.log

theorem Addressed.onDigest (call : DigestCall) : Addressed { s with
      flagged := if s.engine.acceptingDigests then call :: s.flagged else s.flagged
      log := .digest call.digest call.nonce :: s.log } := by
  -- the log only grows, and what is known about the past stays known
  have hsub : s.log ⊆ .digest call.digest call.nonce :: s.log := subset_cons_self _ _
  refine ⟨h.tables.mono hsub, h.outgoing, ?_, fun sect hs => (h.held sect hs).mono hsub,
    trivial, h.log⟩
  intro call' hcall
  by_cases heq : call' = call
  · rw [heq]
    exact mem_cons_self
  · apply hsub
    apply h.calls call'
    rcases hcall with hcall | hcall
    · left
      split at hcall
      · exact (mem_cons.mp hcall).resolve_left heq
      · exact hcall
    · exact .inr hcall

theorem Addressed.existsNonce (hcall : call ∈ s.flagged) : Addressed { s with
      flagged := s.flagged.erase call
      checked := if call.nonce ∈ s.engine.outgoingNONCES then call :: s.checked
        else s.checked } := by
  refine ⟨h.tables, h.outgoing, ?_, h.held, h.log⟩
  rintro call' (hmem | hmem)
  · exact h.calls call' (.inl (mem_of_mem_erase hmem))
  · split at hmem
    · rcases mem_cons.mp hmem with rfl | hmem
      · exact h.calls call' (.inl hcall)
      · exact h.calls call' (.inr hmem)
    · exact h.calls call' (.inr hmem)

theorem Addressed.lockDigest (hholder : s.holder = none)
    (hcall : call ∈ s.checked) (hout : call.nonce ∈ s.engine.outgoingNONCES) :
    Addressed { s with
      checked := s.checked.erase call
      holder := some (.merging call.nonce call.digest) } := by
  refine ⟨h.tables, fun nonce hmem _ => h.outstanding (by simp [hholder]) hmem, ?_, ?_, h.log⟩
  · rintro call' (hmem | hmem)
    · exact h.calls call' (.inl hmem)
    · exact h.calls call' (.inr (mem_of_mem_erase hmem))
  -- this is where the nonce has to be outstanding: the merge looks its peer up
  · rintro sect ⟨⟩
    exact ⟨h.outstanding (by simp [hholder]) hout, call.digest, h.calls call (.inr hcall),
      List.Subset.refl _⟩

theorem Addressed.mergeItem {digest : List UInt64}
    (hholder : s.holder = some (.merging nonce (n :: digest))) :
    Addressed { s with
      engine := s.engine.mergeItem nonce n
      holder := some (.merging nonce digest) } := by
  obtain ⟨hsome, items, hitems, hsub⟩ := h.held _ hholder
  have htables := h.tables.mergeItem hsome hitems (hsub mem_cons_self)
  refine ⟨htables, ?_, h.calls, ?_, h.log⟩
  · intro nonce' hmem _
    simp only [mergeItem_outgoingNONCES, mergeItem_nonces2peers] at hmem ⊢
    exact h.outstanding (by simp [hholder]) hmem
  · rintro sect ⟨⟩
    exact ⟨by simpa using hsome, items, hitems, fun m hm => hsub (mem_cons_of_mem n hm)⟩

theorem Addressed.hello {peers : List Bytes}
    (hholder : s.holder = some (.greeting peer nonce peers)) :
    Addressed { s with
      engine := s.engine.greet peer nonce
      holder := some (.initiating peers)
      log := .hello peer nonce :: s.log } := by
  have hsub : s.log ⊆ .hello peer nonce :: s.log := subset_cons_self _ _
  refine ⟨h.tables.greet, ?_, fun call hcall => hsub (h.calls call hcall), ?_, trivial, h.log⟩
  · intro nonce' hmem _
    by_cases heq : nonce' = nonce
    · simp [greet, heq]
    · have hsome := h.outgoing nonce' hmem (by simp [hholder, Ne.symm heq])
      simpa [greet, heq] using hsome
  · rintro sect ⟨⟩
    trivial

theorem Addressed.sendReq {dests : List Bytes}
    (hholder : s.holder = some (.requesting sources dests)) {dest : Bytes} (hdest : dest ∈ dests) :
    Addressed { s with
      holder := some (.requesting sources (dests.erase dest))
      log := .request dest (requestMapping sources dest)
        ((s.engine.peers2nonces dest).getD 0) :: s.log } := by
  obtain ⟨hdests, howned⟩ := h.held _ hholder
  obtain ⟨source, hsource, rfl⟩ := mem_map.mp (hdests hdest)
  have hsub : s.log ⊆ .request source.2 (requestMapping sources source.2)
      ((s.engine.peers2nonces source.2).getD 0) :: s.log := subset_cons_self _ _
  refine ⟨h.tables.mono hsub, fun nonce hmem _ => h.outstanding (by simp [hholder]) hmem,
    fun call hcall => hsub (h.calls call hcall), ?_, ⟨?_, ?_⟩, h.log⟩
  · rintro sect ⟨⟩
    exact ⟨fun dest' hdest' => hdests (mem_of_mem_erase hdest'),
      fun source' hsource' => (howned source' hsource').mono hsub⟩
  -- the nonce of the request was sent to the source, so it is not the default
  · obtain ⟨nonce, hnonce⟩ := isSome_iff_exists.mp (howned source hsource).1
    rw [hnonce]
    exact h.tables.peers2nonces source.2 nonce hnonce
  · intro n hn
    obtain ⟨source', hsource', rfl⟩ := mem_map.mp hn
    obtain ⟨hmem, hsame⟩ := mem_filter.mp hsource'
    rw [← of_decide_eq_true hsame]
    exact (howned source' hmem).2

theorem Addressed.step (hout : Outstanding s a) (hstep : s.step a = some s') : Addressed s' := by
  cases a with simp only [Pull.step] at hstep
  | onDigest call =>
    cases hstep
    exact h.onDigest call
  | existsNonce =>
    obtain ⟨hcall, rfl⟩ := ite_some_none_eq_some.mp hstep
    exact h.existsNonce hcall
  | lockDigest =>
    obtain ⟨⟨hholder, hcall⟩, rfl⟩ := ite_some_none_eq_some.mp hstep
    exact h.lockDigest hholder hcall hout
  | mergeItem =>
    split at hstep <;> cases hstep
    exact h.mergeItem ‹_›
  | initiatePull =>
    obtain ⟨hholder, rfl⟩ := ite_some_none_eq_some.mp hstep
    have h := h.adjust s.engine.state true s.engine.acceptingResponses s.processing
    exact h.lock hholder trivial
  | newNONCE nonce =>
    split at hstep
    · rename_i peer peers hholder
      obtain ⟨-, rfl⟩ := ite_some_none_eq_some.mp hstep
      refine ⟨⟨h.tables.nonces2peers, h.tables.peers2nonces, h.tables.item2owners⟩, ?_,
        h.calls, ?_, h.log⟩
      · intro nonce' hmem hne
        rcases mem_cons.mp hmem with rfl | hmem
        -- the new nonce is the one that is about to be sent
        · exact absurd rfl (hne peer peers)
        · exact h.outstanding (by simp [hholder]) hmem
      · rintro sect ⟨⟩
        trivial
    · cases hstep
  | hello =>
    split at hstep <;> cases hstep
    exact h.hello ‹_›
  | ignoreDigests =>
    cases hstep
    exact h.adjust s.engine.state false s.engine.acceptingResponses (s.processing + 1)
  | processIncomingDigests sources =>
    obtain ⟨⟨hholder, -, hsources⟩, rfl⟩ := ite_some_none_eq_some.mp hstep
    have hheld : Held s.engine s.log (.requesting sources (sources.map Prod.snd).dedup) :=
      ⟨fun _ hdest => mem_dedup.mp hdest,
        fun _ hsource => h.tables.owned_of_sources hsources hsource⟩
    have h := h.adjust s.engine.state s.engine.acceptingDigests true (s.processing - 1)
    exact h.lock hholder hheld
  | sendReq =>
    split at hstep
    · obtain ⟨hdest, rfl⟩ := ite_some_none_eq_some.mp hstep
      exact h.sendReq ‹_› hdest
    · cases hstep
  | endPull =>
    obtain ⟨hholder, rfl⟩ := ite_some_none_eq_some.mp hstep
    have h := h.adjust s.engine.state s.engine.acceptingDigests false s.processing
    exact h.lock hholder trivial
  | clear =>
    obtain ⟨-, rfl⟩ := ite_some_none_eq_some.mp hstep
    exact ⟨Tables.clear, fun _ hmem => (not_mem_nil hmem).elim, h.calls, by simp, h.log⟩
  | unlock =>
    split at hstep <;> cases hstep
    all_goals
      exact ⟨h.tables, fun nonce hmem _ => h.outstanding (by simp_all) hmem, h.calls,
        by simp, h.log⟩
  | add n | remove n =>
    cases hstep
    exact h.adjust _ s.engine.acceptingDigests s.engine.acceptingResponses s.processing

end

/-- Requests are well addressed if each digest that is merged still has its nonce outstanding. -/
theorem wellAddressed_of_outstanding (labels : List PullLabel)
    (halong : Along Pull.step Outstanding newPull labels)
    (hrun : runSteps Pull.step newPull labels = some s) : Always WellAddressed s.log := by
  have h := runSteps_invariant Addressed.init (fun _ _ _ hout h => h.step hout) halong hrun
  exact h.log

/-- A round in which one peer lists two items and is asked for both. -/
theorem wellAddressed_of_outstanding_round : ∃ s, runSteps Pull.step newPull
      [.initiatePull [[1]], .newNONCE 5, .hello, .unlock, .onDigest ⟨[3, 4], 5⟩,
        .existsNonce ⟨[3, 4], 5⟩, .lockDigest ⟨[3, 4], 5⟩, .mergeItem, .mergeItem, .unlock,
        .ignoreDigests, .processIncomingDigests [(4, [1]), (3, [1])], .sendReq [1], .unlock] =
        some s ∧
      s.log = [.request [1] [4, 3] 5, .digest [3, 4] 5, .hello [1] 5] ∧
      Always WellAddressed s.log := by
  refine exists_and_of_checked (fun _ => True) (by decide +kernel) ?_
  rintro s hs -
  exact wellAddressed_of_outstanding _ (by decide +kernel) hs

/-- A digest passes the checks, the round ends, and the digest is merged: the item is asked for in
the next round at the empty address. -/
theorem not_wellAddressed_overtaken : ∃ s, runSteps Pull.step newPull
      [.initiatePull [[1]], .newNONCE 5, .hello, .unlock, .onDigest ⟨[3], 5⟩,
        .existsNonce ⟨[3], 5⟩, .ignoreDigests, .processIncomingDigests [], .unlock,
        .endPull, .clear, .lockDigest ⟨[3], 5⟩, .mergeItem, .unlock,
        .initiatePull [[1]], .newNONCE 6, .hello, .unlock, .ignoreDigests,
        .processIncomingDigests [(3, [])], .sendReq []] = some s ∧
      s.log = [.request [] [3] 0, .hello [1] 6, .digest [3] 5, .hello [1] 5] ∧
      ¬ Always WellAddressed s.log := by
  refine exists_and_of_checked
    (fun s => s.log = [.request [] [3] 0, .hello [1] 6, .digest [3] 5, .hello [1] 5])
    (by decide +kernel) ?_
  intro s _ hlog
  rw [hlog]
  rintro ⟨⟨hhello, -⟩, -⟩
  revert hhello
  decide

end Pull

end Fabric.Gossip
