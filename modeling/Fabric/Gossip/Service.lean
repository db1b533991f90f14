import Fabric.Gossip.MessageStore
import Fabric.Gossip.Pull

/-!
# The gossip service

The service stores the messages it receives and tells its pull engine the numbers of the blocks
among them, which the engine offers to other peers. The two are not changed together: the store
drops old blocks by itself and calls a trigger that should take their numbers off the engine, and
three paths add numbers. Messages are handled one after the other, with pull rounds in between.
-/

namespace Fabric.Gossip

open Fabric.Common GossipMessage List PullEngine

/-! ### Pull rounds -/

namespace PullEngine

/-- `initiatePull` with the peers that it selects and the nonces that it draws. -/
def initiatePull (engine : PullEngine) (greetings : List (Bytes × UInt64)) : PullEngine :=
  greetings.foldl
    (fun engine greeting => { engine.greet greeting.1 greeting.2 with
      outgoingNONCES := greeting.2 :: engine.outgoingNONCES })
    { engine with acceptingDigests := true }

/-- The nonces are drawn until they are not outstanding. -/
def Fresh (engine : PullEngine) (greetings : List (Bytes × UInt64)) : Prop :=
  (greetings.map Prod.snd).Nodup ∧
  ∀ greeting ∈ greetings, greeting.2.toNat < 2 ^ 63 ∧ greeting.2 ∉ engine.outgoingNONCES

instance (engine : PullEngine) (greetings : List (Bytes × UInt64)) :
    Decidable (engine.Fresh greetings) := inferInstanceAs (Decidable (_ ∧ _))

/-- The requests that are sent change nothing in the engine. -/
def processIncomingDigests (engine : PullEngine) : PullEngine :=
  { engine with acceptingDigests := false, acceptingResponses := true }

def endPull (engine : PullEngine) : PullEngine :=
  PullEngine.clear { engine with acceptingResponses := false }

/-- A response is accepted. -/
def Open (engine : PullEngine) (nonce : UInt64) : Prop :=
  nonce ∈ engine.outgoingNONCES ∧ engine.acceptingResponses

instance (engine : PullEngine) (nonce : UInt64) : Decidable (engine.Open nonce) :=
  inferInstanceAs (Decidable (_ ∧ _))

variable {engine : PullEngine} {n : UInt64}

theorem mem_add {seqs : List UInt64} :
    n ∈ (engine.add seqs).state ↔ n ∈ engine.state ∨ n ∈ seqs := by
  have hfold : ∀ state : List UInt64,
      n ∈ seqs.foldl (fun state seq => state.insert seq) state ↔ n ∈ state ∨ n ∈ seqs := by
    induction seqs with
    | nil => simp
    | cons _ _ ih =>
      intro state
      rw [foldl_cons, ih, mem_insert_iff, mem_cons]
      tauto
  exact hfold engine.state

theorem mem_onRes {items : List UInt64} {nonce : UInt64} : n ∈ (engine.onRes items nonce).state ↔
    n ∈ engine.state ∨ n ∈ if engine.Open nonce then items else [] := by
  by_cases hopen : engine.Open nonce
  · rw [onRes, if_pos hopen, if_pos (show _ ∧ _ from hopen), mem_add]
  · rw [onRes, if_neg hopen, if_neg (show ¬ (_ ∧ _) from hopen)]
    simp

theorem onDigest_state (digest : List UInt64) (nonce : UInt64) :
    (engine.onDigest digest nonce).state = engine.state := by
  have hfold : ∀ engine : PullEngine,
      (digest.foldl (fun engine n => engine.mergeItem nonce n) engine).state = engine.state := by
    induction digest with
    | nil => exact fun _ => rfl
    | cons _ _ ih =>
      intro engine
      rw [foldl_cons, ih, mergeItem]
      split <;> rfl
  rw [onDigest]
  split
  · exact hfold engine
  · rfl

theorem initiatePull_state (greetings : List (Bytes × UInt64)) :
    (engine.initiatePull greetings).state = engine.state := by
  have hfold : ∀ engine : PullEngine,
      (greetings.foldl (fun engine greeting => { engine.greet greeting.1 greeting.2 with
        outgoingNONCES := greeting.2 :: engine.outgoingNONCES }) engine).state = engine.state := by
    induction greetings with
    | nil => exact fun _ => rfl
    | cons _ _ ih =>
      intro engine
      rw [foldl_cons, ih]
      rfl
  exact hfold _

end PullEngine

/-! ### The service -/

/-- What is inside an `interface{}` that the trigger is called with. -/
inductive Boxed
  | gossipMessage (m : GossipMessage)
  | dataMessage (m : DataMessage)
deriving DecidableEq

/-- The trigger that `NewGossipService` gives the store: it asks for a data message. -/
def invalidationTrigger (engine : PullEngine) : Boxed → Except Absent PullEngine
  | .dataMessage dataMsg => do
    let payload ← deref .payload dataMsg.payload
    return engine.remove [payload.seqNum]
  | .gossipMessage _ => return engine

/-- The store and the engine, with what is on its way to other goroutines. -/
structure GossipService where
  maxMessageCountToStore : ℕ
  msgStore : MessageStore GossipMessage
  pushPull : PullEngine
  incChan : List GossipMessage
  demultiplexed : List GossipMessage
  responding : List (List UInt64)

/-- A data message of a response. -/
def DataMessage.message (nonce : UInt64) (data : DataMessage) : GossipMessage :=
  ⟨nonce, some (.dataMsg data)⟩

def selectOnlyDiscoveryMessages (m : GossipMessage) : Bool :=
  match m.content with
  | some (.aliveMsg _) | some (.memReq _) | some (.memRes _) => true
  | _ => false

namespace GossipService

def newGossipService (maxMessageCountToStore : ℕ) : GossipService where
  maxMessageCountToStore := maxMessageCountToStore
  msgStore := newMessageStore
  pushPull := .newPullEngine
  incChan := []
  demultiplexed := []
  responding := []

/-- `msgStore.add`; the values that were stored are gossip messages. -/
def add (s : GossipService) (m : GossipMessage) : Except Absent (Bool × GossipService) := do
  let (added, msgStore) ← s.msgStore.add (invalidationPolicy s.maxMessageCountToStore) m
  let invalidated := msgStore.triggered.drop s.msgStore.triggered.length
  let pushPull ← invalidated.foldlM
    (fun engine m => invalidationTrigger engine (.gossipMessage m)) s.pushPull
  return (added, { s with msgStore := msgStore, pushPull := pushPull })

def forwardDiscoveryMsg (s : GossipService) (m : GossipMessage) : GossipService :=
  { s with incChan := s.incChan ++ [m] }

def deMultiplex (s : GossipService) (m : GossipMessage) : GossipService :=
  { s with demultiplexed := s.demultiplexed ++ [m] }

/-- The loop over the data of a response, with the items that are left in its array. -/
def addData (nonce : UInt64) (s : GossipService) :
    List DataMessage → Except Absent (GossipService × List UInt64)
  | [] => return (s, [])
  | data :: rest => do
    let (added, s) ← s.add (data.message nonce)
    if added then
      let s := s.deMultiplex (data.message nonce)
      let payload ← deref .payload data.payload
      let (s, items) ← addData nonce s rest
      return (s, payload.seqNum :: items)
    else
      -- the item of a message that is not added stays zero
      let (s, items) ← addData nonce s rest
      return (s, 0 :: items)

def handlePushPullMsg (s : GossipService) (m : GossipMessage) : Except Absent GossipService :=
  match m.content with
  -- the digest is sent back
  | some (.hello hello) => return { s with pushPull := (s.pushPull.onHello hello.nonce).1 }
  | some (.dataDig digest) =>
    return { s with pushPull := s.pushPull.onDigest digest.seqMap digest.nonce }
  | some (.dataReq req) =>
    return { s with
      responding := s.responding ++ (s.pushPull.onReq req.seqMap req.nonce).toList }
  | some (.dataUpdate res) => do
    let (s, items) ← s.addData m.nonce res.data
    return { s with pushPull := s.pushPull.onRes items res.nonce }
  | _ => return s

def handleMessage (s : GossipService) (m : GossipMessage) : Except Absent GossipService := do
  let s := if selectOnlyDiscoveryMessages m then s.forwardDiscoveryMsg m else s
  if m.isAliveMsg ∨ m.isDataMsg then
    let (added, s) ← s.add m
    if ¬ added then return s
    match m.getDataMsg with
    | none => return s
    | some dataMsg =>
      let s := s.deMultiplex m
      let payload ← deref .payload dataMsg.payload
      return { s with pushPull := s.pushPull.add [payload.seqNum] }
  else s.handlePushPullMsg m

/-- `Gossip` does not look at whether the message was added. -/
def gossip (s : GossipService) (m : GossipMessage) : Except Absent GossipService :=
  match m.getDataMsg with
  | none => return s
  | some dataMsg => do
    let (_, s) ← s.add m
    let payload ← deref .payload dataMsg.payload
    return { s with pushPull := s.pushPull.add [payload.seqNum] }

end GossipService

/-- A message is received or gossiped, a pull round makes progress, or a nonce expires. -/
inductive ServiceLabel
  | handleMessage (m : GossipMessage)
  | gossip (m : GossipMessage)
  | initiatePull (greetings : List (Bytes × UInt64))
  | processIncomingDigests
  | endPull
  | expireNONCE (nonce : UInt64)
deriving DecidableEq

/-- The data messages carry a payload. -/
def GossipMessage.carriesPayload (m : GossipMessage) : Bool :=
  match m.content with
  | some (.dataMsg dataMsg) => dataMsg.payload.isSome
  | some (.dataUpdate res) => res.data.all fun data => data.payload.isSome
  | _ => true

def ServiceLabel.carriesPayload : ServiceLabel → Bool
  | .handleMessage m | .gossip m => m.carriesPayload
  | _ => true

variable {a : ServiceLabel}

namespace GossipService

/-- What is enabled, and whether it stops the process. -/
def perform (s : GossipService) : ServiceLabel → Option (Except Absent GossipService)
  | .handleMessage m => some (s.handleMessage m)
  | .gossip m => some (s.gossip m)
  | .initiatePull greetings =>
    if s.pushPull.Fresh greetings then
      some (.ok { s with pushPull := s.pushPull.initiatePull greetings })
    else none
  | .processIncomingDigests => some (.ok { s with pushPull := s.pushPull.processIncomingDigests })
  | .endPull => some (.ok { s with pushPull := s.pushPull.endPull })
  | .expireNONCE nonce =>
    some (.ok { s with pushPull.incomingNONCES := s.pushPull.incomingNONCES.erase nonce })

/-- There is no step if the process stops. -/
def step (s : GossipService) (a : ServiceLabel) : Option GossipService :=
  (s.perform a).bind Except.toOption

theorem step_eq_some {s s' : GossipService} : s.step a = some s' ↔ s.perform a = some (.ok s') := by
  rw [step, Option.bind_eq_some_iff]
  constructor
  · rintro ⟨r, hr, h⟩
    cases r with
    | error => cases h
    | ok =>
      cases h
      exact hr
  · intro h
    exact ⟨_, h, rfl⟩

/-! ### What is stored and what is advertised -/

/-- The data messages in the store. -/
def blocks (s : GossipService) : List GossipMessage := s.msgStore.messages.filter isDataMsg

end GossipService

/-- The number of a data message. -/
def GossipMessage.seqNum? (m : GossipMessage) : Option UInt64 :=
  match m.content with
  | some (.dataMsg ⟨some payload⟩) => some payload.seqNum
  | _ => none

def numbers (messages : List GossipMessage) : List UInt64 := messages.filterMap seqNum?

/-- Every number in the state of the engine is that of a data message in the store. -/
def Advertises (s : GossipService) : Prop :=
  ∀ n ∈ s.pushPull.state, ∃ m ∈ s.msgStore.messages, m.seqNum? = some n

instance : DecidablePred Advertises := fun _ => List.decidableBAll _ _

/-- It is the number of one of the messages, and no other one is too far ahead. -/
def Survives (K : ℕ) (messages : List GossipMessage) (n : UInt64) : Prop :=
  n ∈ numbers messages ∧ ∀ n' ∈ numbers messages, n'.toNat ≤ n.toNat + K

instance (K : ℕ) (messages : List GossipMessage) (n : UInt64) : Decidable (Survives K messages n) :=
  @instDecidableAnd _ _ inferInstance (List.decidableBAll _ _)

/-- The data messages that arrive in a step. -/
def ServiceLabel.arrivals : ServiceLabel → List GossipMessage
  | .handleMessage m =>
    match m.content with
    | some (.dataMsg _) => [m]
    | some (.dataUpdate res) => res.data.map (DataMessage.message m.nonce)
    | _ => []
  | .gossip m => if m.isDataMsg then [m] else []
  | _ => []

/-- The items of a response; zero for a message that is superfluous beside earlier ones. -/
def responseItems (K : ℕ) : List GossipMessage → List GossipMessage → List UInt64
  | _, [] => []
  | seen, m :: rest =>
    (if ∃ b ∈ seen, m.Below K b then 0 else m.seqNum?.getD 0) ::
      responseItems K (seen ++ [m]) rest

/-- The numbers that a step adds to the state of the engine. -/
def GossipService.news (s : GossipService) : ServiceLabel → List UInt64
  | .handleMessage m =>
    match m.content with
    | some (.dataMsg _) =>
      if ∃ b ∈ s.blocks, m.Below s.maxMessageCountToStore b then [] else numbers [m]
    | some (.dataUpdate res) =>
      if s.pushPull.Open res.nonce then
        responseItems s.maxMessageCountToStore s.blocks
          (res.data.map (DataMessage.message m.nonce))
      else []
    | _ => []
  | .gossip m => numbers [m]
  | _ => []

/-- Nothing arrives too far ahead of an advertised number, and every number that is added survives.
-/
def Keeps (s : GossipService) (a : ServiceLabel) : Prop :=
  (∀ n ∈ s.pushPull.state, ∀ n' ∈ numbers a.arrivals,
    n'.toNat ≤ n.toNat + s.maxMessageCountToStore) ∧
  ∀ n ∈ s.news a, Survives s.maxMessageCountToStore (s.blocks ++ a.arrivals) n

instance (s : GossipService) (a : ServiceLabel) : Decidable (Keeps s a) :=
  have : DecidablePred fun n : UInt64 => ∀ n' ∈ numbers a.arrivals,
      n'.toNat ≤ n.toNat + s.maxMessageCountToStore := fun _ => List.decidableBAll _ _
  @instDecidableAnd _ _ (List.decidableBAll _ _) (List.decidableBAll _ _)

/-! ### The numbers of blocks -/

variable {K : ℕ} {m b : GossipMessage} {n : UInt64} {s s' : GossipService}

theorem isDataMsg_iff : m.isDataMsg ↔ ∃ data, m.content = some (.dataMsg data) := by
  unfold isDataMsg getDataMsg
  split <;> simp_all

theorem seqNum?_eq_some_iff : m.seqNum? = some n ↔ ∃ hash, m.key? = some (.data n hash) := by
  constructor
  · intro h
    unfold seqNum? at h
    split at h
    case h_1 payload hdata =>
      cases h
      exact ⟨payload.hash, by simp [key?, hdata]⟩
    case h_2 => cases h
  · rintro ⟨hash, hk⟩
    rcases key?_eq_some hk with ⟨_, _, _, -, heq⟩ | ⟨_, _, _, _, -, heq⟩ | ⟨payload, hdata, heq⟩ <;>
      cases heq
    simp [seqNum?, hdata]

theorem mem_numbers {messages : List GossipMessage} :
    n ∈ numbers messages ↔ ∃ hash, .data n hash ∈ keys messages := by
  simp only [numbers, mem_filterMap, seqNum?_eq_some_iff, mem_keys]
  tauto

theorem numbers_append (messages messages' : List GossipMessage) :
    numbers (messages ++ messages') = numbers messages ++ numbers messages' :=
  filterMap_append

theorem exists_seqNum (hm : m.isDataMsg) (hcarries : m.carriesPayload) :
    ∃ payload, m.content = some (.dataMsg ⟨some payload⟩) := by
  obtain ⟨⟨payload⟩, hdata⟩ := isDataMsg_iff.mp hm
  unfold carriesPayload at hcarries
  rw [hdata] at hcarries
  obtain ⟨payload, rfl⟩ := Option.isSome_iff_exists.mp hcarries
  exact ⟨payload, hdata⟩

theorem isSome_key? (hm : m.isDataMsg) (hcarries : m.carriesPayload) : m.key?.isSome := by
  obtain ⟨payload, hpayload⟩ := exists_seqNum hm hcarries
  simp [key?, hpayload]

theorem GossipService.mem_numbers_blocks :
    n ∈ numbers s.blocks ↔ ∃ m ∈ s.msgStore.messages, m.seqNum? = some n := by
  simp only [numbers, mem_filterMap, GossipService.blocks, mem_filter]
  constructor
  · rintro ⟨m, ⟨hm, -⟩, hn⟩
    exact ⟨m, hm, hn⟩
  · rintro ⟨m, hm, hn⟩
    refine ⟨m, ⟨hm, ?_⟩, hn⟩
    unfold seqNum? at hn
    split at hn
    case h_1 hdata => exact isDataMsg_iff.mpr ⟨_, hdata⟩
    case h_2 => cases hn

theorem mem_numbers_iff_survives {seen kept : List GossipMessage}
    (h : Frontier (Below K) seen kept) : n ∈ numbers kept ↔ Survives K seen n := by
  have hdata := (converged_of_frontier h).data
  simp only [Survives, mem_numbers, hdata, exists_and_right, forall_exists_index]
  refine and_congr_right fun _ => forall₃_congr ?_
  intro n' hash _
  omega

/-! ### What a step does -/

theorem invalidationPolicy_of_ne (h : m.isDataMsg ≠ b.isDataMsg) :
    invalidationPolicy K m b = .ok .noAction := by
  unfold isDataMsg getDataMsg at h
  unfold invalidationPolicy
  split <;> simp_all

/-- The data messages in the store carry a payload, and none makes another one superfluous. -/
structure Stored (s : GossipService) : Prop where
  payloads : ∀ m ∈ s.msgStore.messages, m.carriesPayload
  apart : s.blocks.Pairwise (Apart (Below s.maxMessageCountToStore))

theorem Stored.frontier (h : Stored s) :
    Frontier (Below s.maxMessageCountToStore) s.blocks s.blocks :=
  Frontier.of_apart h.apart

theorem Stored.of_subset (h : Stored s) (hcarries : m.carriesPayload)
    {st : MessageStore GossipMessage} (hsub : st.messages ⊆ s.msgStore.messages ++ [m])
    (hapart : (st.messages.filter isDataMsg).Pairwise (Apart (Below s.maxMessageCountToStore))) :
    Stored { s with msgStore := st } := by
  have hall := forall_mem_append.mpr ⟨h.payloads, forall_mem_singleton.mpr hcarries⟩
  exact ⟨fun b hb => hall b (hsub hb), hapart⟩

namespace GossipService

theorem add_eq (s : GossipService) (m : GossipMessage) :
    s.add m = (s.msgStore.add (invalidationPolicy s.maxMessageCountToStore) m).map fun r =>
      (r.1, { s with msgStore := r.2 }) := by
  -- the trigger asks for a data message, and a gossip message is not one
  have htrigger : ∀ invalidated : List GossipMessage,
      invalidated.foldlM (fun engine m => invalidationTrigger engine (.gossipMessage m))
        s.pushPull = .ok s.pushPull := by
    intro invalidated
    induction invalidated with
    | nil => rfl
    | cons _ _ ih => exact ih
  rw [add]
  cases s.msgStore.add (invalidationPolicy s.maxMessageCountToStore) m with
  | error => rfl
  | ok => simp [htrigger, Except.map]

theorem add_data (h : Stored s) (hm : m.isDataMsg) (hcarries : m.carriesPayload) :
    ∃ st, s.add m = .ok (decide (¬ ∃ b ∈ s.blocks, m.Below s.maxMessageCountToStore b),
        { s with msgStore := st }) ∧ Stored { s with msgStore := st } ∧
      st.messages.filter isDataMsg = absorb (Below s.maxMessageCountToStore) s.blocks m := by
  obtain ⟨st, hadd, hblocks⟩ := MessageStore.add_filter
    (fun b hb hdata => invalidationPolicy_verdict (isSome_key? hm hcarries)
      (isSome_key? hdata (h.payloads b hb)))
    (fun b _ hother => invalidationPolicy_of_ne (by simp_all))
    hm h.apart
  have hapart := (h.frontier.absorb m).apart
  rw [blocks, ← hblocks] at hapart
  have hstored := h.of_subset hcarries (MessageStore.add_subset hadd) hapart
  refine ⟨st, ?_, hstored, hblocks⟩
  rw [add_eq, hadd]
  rfl

theorem add_other (h : Stored s) (hm : ¬ m.isDataMsg) (hcarries : m.carriesPayload) {added : Bool}
    (hadd : s.add m = .ok (added, s')) :
    ∃ st, s' = { s with msgStore := st } ∧ Stored s' ∧ s'.blocks = s.blocks := by
  rw [add_eq] at hadd
  obtain ⟨⟨added, st⟩, hstore, heq⟩ := map_eq_ok_iff.mp hadd
  have hblocks := MessageStore.add_filter_eq
    (fun b _ hdata => invalidationPolicy_of_ne (by simp_all)) hm hstore
  have hapart := h.apart
  rw [blocks, ← hblocks] at hapart
  cases heq
  exact ⟨st, rfl, h.of_subset hcarries (MessageStore.add_subset hstore) hapart, hblocks⟩

theorem addData_spec (nonce : UInt64) {data : List DataMessage}
    (hdata : ∀ d ∈ data, d.payload.isSome) {seen : List GossipMessage} (h : Stored s)
    (hfront : Frontier (Below s.maxMessageCountToStore) seen s.blocks) :
    ∃ s', s.addData nonce data = .ok (s', responseItems s.maxMessageCountToStore seen
        (data.map (DataMessage.message nonce))) ∧
      Stored s' ∧ s'.maxMessageCountToStore = s.maxMessageCountToStore ∧
      s'.pushPull = s.pushPull ∧
      s'.blocks = (data.map (DataMessage.message nonce)).foldl
        (absorb (Below s.maxMessageCountToStore)) s.blocks := by
  induction data generalizing s seen with
  | nil => exact ⟨s, rfl, h, rfl, rfl, rfl⟩
  | cons d rest ih =>
    have hrest : ∀ d ∈ rest, d.payload.isSome := fun d hd => hdata d (mem_cons_of_mem _ hd)
    obtain ⟨payload, hpayload⟩ := Option.isSome_iff_exists.mp (hdata d mem_cons_self)
    obtain ⟨st, hadd, h₁, hblocks⟩ := add_data (m := d.message nonce) h rfl
      (by simp [carriesPayload, DataMessage.message, hpayload])
    have hseq : (d.message nonce).seqNum? = some payload.seqNum := by
      obtain ⟨p⟩ := d
      obtain rfl : p = some payload := hpayload
      rfl
    -- what was seen grows by the message, whether or not it is kept
    have hnext := hfront.absorb (d.message nonce)
    rw [← hblocks] at hnext
    -- the message is passed on if it was added; the blocks are the same in both cases
    by_cases habove : ∃ b ∈ s.blocks, (d.message nonce).Below s.maxMessageCountToStore b
    · obtain ⟨s', hs', hstored, hK, hpull, hblocks'⟩ := ih hrest h₁ hnext
      refine ⟨s', ?_, hstored, hK, hpull, by rw [hblocks', blocks, hblocks]; rfl⟩
      rw [map_cons, responseItems, if_pos (hfront.exists_above_iff.mp habove), addData, hadd,
        decide_eq_false (not_not_intro habove)]
      simp [hs']
    · obtain ⟨s', hs', hstored, hK, hpull, hblocks'⟩ :=
        ih (s := deMultiplex { s with msgStore := st } (d.message nonce)) hrest
          ⟨h₁.payloads, h₁.apart⟩ hnext
      refine ⟨s', ?_, hstored, hK, hpull, ?_⟩
      · rw [map_cons, responseItems, if_neg (mt hfront.exists_above_iff.mpr habove), addData,
          hadd, decide_eq_true habove]
        simp [hs', hpayload, hseq]
        rfl
      · exact hblocks'.trans (by rw [blocks, deMultiplex, hblocks]; rfl)

/-! ### Every step -/

/-- What a step does to the stored blocks and to the numbers of the engine. -/
structure Effect (s : GossipService) (a : ServiceLabel) (s' : GossipService) : Prop where
  stored : Stored s'
  size : s'.maxMessageCountToStore = s.maxMessageCountToStore
  blocks : s'.blocks = a.arrivals.foldl (absorb (Below s.maxMessageCountToStore)) s.blocks
  state : ∀ n, n ∈ s'.pushPull.state ↔ n ∈ s.pushPull.state ∨ n ∈ s.news a

theorem Effect.quiet (h : Stored s) (harrivals : a.arrivals = []) (hnews : s.news a = [])
    (hsize : s'.maxMessageCountToStore = s.maxMessageCountToStore)
    (hstore : s'.msgStore = s.msgStore) (hstate : s'.pushPull.state = s.pushPull.state) :
    Effect s a s' where
  stored := by
    constructor
    · rw [hstore]
      exact h.payloads
    · rw [GossipService.blocks, hstore, hsize]
      exact h.apart
  size := hsize
  blocks := by rw [harrivals, GossipService.blocks, hstore]; rfl
  state := by simp [hnews, hstate]

theorem handleMessage_data (h : Stored s) {data : DataMessage}
    (hdata : m.content = some (.dataMsg data)) (hcarries : m.carriesPayload)
    (hstep : s.handleMessage m = .ok s') : Effect s (.handleMessage m) s' := by
  have hm := isDataMsg_iff.mpr ⟨data, hdata⟩
  obtain ⟨payload, hpayload⟩ := exists_seqNum hm hcarries
  obtain ⟨st, hadd, h₁, hblocks⟩ := add_data h hm hcarries
  have harrivals : (ServiceLabel.handleMessage m).arrivals = [m] := by
    simp [ServiceLabel.arrivals, hdata]
  by_cases habove : ∃ b ∈ s.blocks, m.Below s.maxMessageCountToStore b
  -- the store refuses the message, and the handler returns
  · rw [decide_eq_false (not_not_intro habove)] at hadd
    obtain rfl : { s with msgStore := st } = s' := by
      simpa [handleMessage, selectOnlyDiscoveryMessages, hdata, hm, hadd] using hstep
    refine ⟨h₁, rfl, by rw [harrivals]; exact hblocks, ?_⟩
    simp [news, hdata, habove]
  · rw [decide_eq_true habove] at hadd
    obtain rfl : { deMultiplex { s with msgStore := st } m with
        pushPull := s.pushPull.add [payload.seqNum] } = s' := by
      simpa [handleMessage, selectOnlyDiscoveryMessages, hpayload, hm, hadd, getDataMsg,
        deMultiplex] using hstep
    refine ⟨⟨h₁.payloads, h₁.apart⟩, rfl, by rw [harrivals]; exact hblocks, ?_⟩
    intro n
    rw [news, mem_add]
    simp [habove, numbers, seqNum?, hpayload]

theorem handleMessage_alive (h : Stored s) {alive : AliveMessage}
    (halive : m.content = some (.aliveMsg alive)) (hstep : s.handleMessage m = .ok s') :
    Effect s (.handleMessage m) s' := by
  have hm : ¬ m.isDataMsg := by simp [isDataMsg, getDataMsg, halive]
  cases hadd : (s.forwardDiscoveryMsg m).add m with
  | error =>
    simp [handleMessage, selectOnlyDiscoveryMessages, halive, isAliveMsg, getAliveMsg,
      hadd] at hstep
  | ok r =>
    obtain ⟨added, s₁⟩ := r
    obtain rfl : s₁ = s' := by
      simpa [handleMessage, selectOnlyDiscoveryMessages, halive, isAliveMsg, getAliveMsg,
        getDataMsg, hadd] using hstep
    obtain ⟨st, rfl, h₁, hblocks⟩ := add_other (s := s.forwardDiscoveryMsg m)
      ⟨h.payloads, h.apart⟩ hm (by simp [carriesPayload, halive]) hadd
    refine ⟨h₁, rfl, ?_, ?_⟩
    · rw [show (ServiceLabel.handleMessage m).arrivals = [] by simp [ServiceLabel.arrivals, halive]]
      exact hblocks
    · simp [news, halive, forwardDiscoveryMsg]

theorem handlePushPullMsg_effect (h : Stored s) (hcarries : m.carriesPayload)
    (hm : ¬ m.isDataMsg) (hstep : s.handlePushPullMsg m = .ok s') :
    Effect s (.handleMessage m) s' := by
  unfold handlePushPullMsg at hstep
  split at hstep
  case h_1 hc | h_3 hc =>
    cases hstep
    exact Effect.quiet h (by simp [ServiceLabel.arrivals, hc]) (by simp [news, hc]) rfl rfl rfl
  case h_2 hc =>
    cases hstep
    exact Effect.quiet h (by simp [ServiceLabel.arrivals, hc]) (by simp [news, hc]) rfl rfl
      (onDigest_state _ _)
  case h_4 hc =>
    simp only [carriesPayload, hc, all_eq_true] at hcarries
    obtain ⟨s₁, hs₁, h₁, hK, hpull, hblocks⟩ := addData_spec m.nonce hcarries h h.frontier
    rw [hs₁] at hstep
    cases hstep
    refine ⟨⟨h₁.payloads, h₁.apart⟩, hK, ?_, ?_⟩
    · simp only [ServiceLabel.arrivals, hc]
      exact hblocks
    · intro n
      rw [mem_onRes, news, hc, hpull]
  case h_5 =>
    cases hstep
    have hother : ∀ data, m.content ≠ some (.dataMsg data) :=
      fun data hdata => hm (isDataMsg_iff.mpr ⟨data, hdata⟩)
    apply Effect.quiet h _ _ rfl rfl rfl
    · unfold ServiceLabel.arrivals
      split <;> simp_all
    · unfold news
      split <;> simp_all

theorem handleMessage_effect (h : Stored s) (hcarries : m.carriesPayload)
    (hstep : s.handleMessage m = .ok s') : Effect s (.handleMessage m) s' := by
  by_cases hdata : m.isDataMsg
  · obtain ⟨data, hdata⟩ := isDataMsg_iff.mp hdata
    exact handleMessage_data h hdata hcarries hstep
  · by_cases halive : ∃ alive, m.content = some (.aliveMsg alive)
    · obtain ⟨alive, halive⟩ := halive
      exact handleMessage_alive h halive hstep
    -- nothing is stored; membership requests and responses are passed on before
    · have hm : ¬ (m.isAliveMsg ∨ m.isDataMsg) := by
        simp only [isAliveMsg, getAliveMsg]
        split <;> simp_all
      simp only [handleMessage, hm, if_false] at hstep
      split at hstep
      · have heffect := handlePushPullMsg_effect (s := s.forwardDiscoveryMsg m)
          ⟨h.payloads, h.apart⟩ hcarries hdata hstep
        exact ⟨heffect.stored, heffect.size, heffect.blocks, heffect.state⟩
      · exact handlePushPullMsg_effect h hcarries hdata hstep

theorem gossip_effect (h : Stored s) (hcarries : m.carriesPayload)
    (hstep : s.gossip m = .ok s') : Effect s (.gossip m) s' := by
  by_cases hm : m.isDataMsg
  · obtain ⟨payload, hpayload⟩ := exists_seqNum hm hcarries
    obtain ⟨st, hadd, h₁, hblocks⟩ := add_data h hm hcarries
    obtain rfl : { s with msgStore := st, pushPull := s.pushPull.add [payload.seqNum] } = s' := by
      simpa [gossip, getDataMsg, hpayload, hadd] using hstep
    refine ⟨⟨h₁.payloads, h₁.apart⟩, rfl, ?_, ?_⟩
    · simp only [ServiceLabel.arrivals, hm]
      exact hblocks
    · intro n
      rw [mem_add]
      simp [news, numbers, seqNum?, hpayload]
  · obtain hnone : m.getDataMsg = none := by simpa [isDataMsg] using hm
    simp only [gossip, hnone] at hstep
    cases hstep
    have hnumber : m.seqNum? = none := by
      unfold seqNum?
      split
      case h_1 hdata => exact absurd (isDataMsg_iff.mpr ⟨_, hdata⟩) hm
      case h_2 => rfl
    exact Effect.quiet h (by simp [ServiceLabel.arrivals, hm]) (by simp [news, numbers, hnumber])
      rfl rfl rfl

theorem step_effect (h : Stored s) (hcarries : a.carriesPayload) (hstep : s.step a = some s') :
    Effect s a s' := by
  rw [step_eq_some] at hstep
  cases a with
  | handleMessage => exact handleMessage_effect h hcarries (Option.some.inj hstep)
  | gossip => exact gossip_effect h hcarries (Option.some.inj hstep)
  | initiatePull greetings =>
    simp only [perform] at hstep
    split at hstep
    case isTrue =>
      cases hstep
      exact Effect.quiet h rfl rfl rfl rfl (initiatePull_state greetings)
    case isFalse => cases hstep
  | processIncomingDigests | endPull | expireNONCE =>
    cases hstep
    exact Effect.quiet h rfl rfl rfl rfl rfl

end GossipService

/-! ### Whole runs -/

theorem advertises_iff_numbers : Advertises s ↔ ∀ n ∈ s.pushPull.state, n ∈ numbers s.blocks := by
  simp only [Advertises, GossipService.mem_numbers_blocks]

theorem advertises_step_iff (h : Stored s) (hadv : Advertises s)
    (heffect : GossipService.Effect s a s') : Advertises s' ↔ Keeps s a := by
  -- the blocks after the step are those that survive of what was stored and what arrived
  have hfront := h.frontier.foldl_absorb a.arrivals
  rw [← heffect.blocks] at hfront
  rw [advertises_iff_numbers] at hadv ⊢
  -- an advertised number survives among what is stored already
  have hold : ∀ n ∈ s.pushPull.state,
      (Survives s.maxMessageCountToStore (s.blocks ++ a.arrivals) n ↔
        ∀ n' ∈ numbers a.arrivals, n'.toNat ≤ n.toNat + s.maxMessageCountToStore) := by
    intro n hn
    obtain ⟨hmem, hnear⟩ := (mem_numbers_iff_survives h.frontier).mp (hadv n hn)
    simp only [Survives, numbers_append, mem_append]
    constructor
    · rintro ⟨-, hall⟩ n' hn'
      exact hall n' (.inr hn')
    · intro hnew
      refine ⟨.inl hmem, ?_⟩
      rintro n' (hn' | hn')
      · exact hnear n' hn'
      · exact hnew n' hn'
  simp only [heffect.state, mem_numbers_iff_survives hfront, or_imp, forall_and]
  exact and_congr_left fun _ => forall₂_congr hold

theorem Stored.init (K : ℕ) : Stored (.newGossipService K) where
  payloads := by simp [GossipService.newGossipService, newMessageStore]
  apart := by simp [GossipService.newGossipService, newMessageStore, GossipService.blocks]

/-- The service advertises only what it holds, throughout a run, exactly if every step meets the
condition. -/
theorem advertises_iff (K : ℕ) (labels : List ServiceLabel)
    (hcarries : ∀ a ∈ labels, a.carriesPayload)
    (hrun : runSteps GossipService.step (.newGossipService K) labels = some s) :
    Along GossipService.step Keeps (.newGossipService K) labels ↔ ∀ done, done <+: labels → ∀ s',
        runSteps GossipService.step (.newGossipService K) done = some s' → Advertises s' := by
  apply along_iff (I := fun s => Stored s ∧ Advertises s) _ _ _
    ⟨Stored.init K, by simp [Advertises, GossipService.newGossipService, newPullEngine]⟩
    (along_of_forall_mem fun a ha _ => hcarries a ha) hrun
  · exact fun _ h => h.2
  · rintro s a s' ha hkeeps ⟨h, hadv⟩ hstep
    have heffect := GossipService.step_effect h ha hstep
    exact ⟨heffect.stored, (advertises_step_iff h hadv heffect).mpr hkeeps⟩
  · rintro s a s' ha ⟨h, hadv⟩ hstep hadv'
    exact (advertises_step_iff h hadv (GossipService.step_effect h ha hstep)).mp hadv'

/-- A greeted peer responds with two blocks, one is gossiped, and one is known already. -/
theorem advertises_iff_round : ∃ s, runSteps GossipService.step (.newGossipService 2)
      [.handleMessage (blockMessage 1 [1]), .initiatePull [([7], 3)],
        .handleMessage ⟨0, some (.dataDig ⟨3, [1, 2, 3]⟩)⟩, .processIncomingDigests,
        .handleMessage ⟨0, some (.dataUpdate ⟨3, [⟨some ⟨2, [2], []⟩⟩, ⟨some ⟨3, [3], []⟩⟩]⟩)⟩,
        .endPull, .gossip (blockMessage 2 [4]), .handleMessage (blockMessage 1 [1])] = some s ∧
      s.pushPull.state = [3, 2, 1] ∧ Advertises s := by
  refine exists_and_of_checked (fun _ => True) (by decide +kernel) ?_
  rintro s hs -
  exact (advertises_iff 2 _ (by decide) hs).mp (by decide +kernel) _ prefix_rfl s hs

/-- A block too far ahead makes the first one leave the store; its number stays. -/
theorem not_advertises_evicted : ∃ s, runSteps GossipService.step (.newGossipService 1)
      [.handleMessage (blockMessage 1 [1]), .handleMessage (blockMessage 5 [2])] = some s ∧
      s.msgStore.messages = [blockMessage 5 [2]] ∧ s.pushPull.state = [5, 1] ∧
      ¬ Advertises s := by
  decide +kernel

end Fabric.Gossip
