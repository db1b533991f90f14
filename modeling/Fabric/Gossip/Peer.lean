import Fabric.Gossip.Membership
import Fabric.Gossip.Service
import Fabric.Gossip.StateProvider

/-!
# A gossiping peer

The parts of a peer that handle the messages of others, together. The service handles a message
at once; discovery and the state provider take what it passes on later, and responses are put
together in goroutines of their own. So a message with an absent part may stop the process long
after it was received: when a later one is compared with it, when a request is answered, or in
another goroutine.
-/

namespace Fabric.Gossip

open Fabric.Common GossipMessage List GossipService

variable {β : Type}

/-! ### The machine -/

/-- The map of `SendRes`: of the stored data messages with the same number, the last one. -/
def itemMap (messages : List GossipMessage) : Except Absent (UInt64 → Option DataMessage) :=
  messages.foldlM
    (fun items m =>
      match m.getDataMsg with
      | none => return items
      | some dataMsg => do
        let payload ← deref .payload dataMsg.payload
        return Function.update items payload.seqNum (some dataMsg))
    fun _ => none

/-- The data messages of the response. -/
def GossipService.sendRes (s : GossipService) (requestedItems : List UInt64) :
    Except Absent (List DataMessage) := do
  let items ← itemMap s.msgStore.messages
  return requestedItems.filterMap items

def StateProvider.queueNewMessage (s : StateProvider β) (m : GossipMessage) :
    Except Absent (StateProvider β) :=
  match m.getDataMsg with
  | none => return s
  | some dataMsg => do
    let payload ← deref .payload dataMsg.payload
    return s.pushPayload payload

/-- The parts of a peer, and the absent part of a message at which one has stopped the process. -/
structure Peer (β : Type) where
  service : GossipService
  node : Node
  provider : StateProvider β
  crash : Option Absent

/-- One of the parts does something, a response is sent, or a data message is handled. -/
inductive PeerLabel
  | service (a : ServiceLabel)
  | discovery (a : NodeLabel)
  | sendRes (requestedItems : List UInt64)
  | queueNewMessage (m : GossipMessage)
  | deliver (a : Delivery)
deriving DecidableEq

namespace Peer

def newPeer (maxMessageCountToStore : ℕ) (pkiID : Bytes) (height : UInt64) : Peer β where
  service := .newGossipService maxMessageCountToStore
  node := .newNode pkiID
  provider := .newStateProvider height
  crash := none

/-- Discovery receives from the channel that the service sends to. -/
def receive (s : Peer β) : NodeLabel → Option GossipService
  | .receive m =>
    match s.service.incChan with
    | m' :: rest => if m' = m then some { s.service with incChan := rest } else none
    | [] => none
  | _ => some s.service

/-- What a part that may stop the process leaves. -/
def orCrash {α : Type} (s : Peer β) (x : Except Absent α) (next : α → Peer β) : Peer β :=
  match x with
  | .ok a => next a
  | .error field => { s with crash := some field }

def step (validate : AliveMessage → Bool) (unmarshal : Bytes → Option β) (s : Peer β)
    (label : PeerLabel) : Option (Peer β) :=
  -- nothing happens once the process has stopped
  if s.crash.isSome ∨ s.node.crash.isSome then none
  else match label with
  | .service a =>
    (s.service.perform a).map fun r => s.orCrash r fun service => { s with service := service }
  | .discovery a => do
    let service ← s.receive a
    let node ← s.node.step validate a
    return { s with service := service, node := node }
  -- each response and each data message has a goroutine of its own
  | .sendRes requestedItems =>
    if requestedItems ∈ s.service.responding then
      some (s.orCrash (s.service.sendRes requestedItems) fun _ =>
        { s with service.responding := s.service.responding.erase requestedItems })
    else none
  | .queueNewMessage m =>
    if m ∈ s.service.demultiplexed then
      some (s.orCrash (s.provider.queueNewMessage m) fun provider =>
        { s with
          provider := provider
          service.demultiplexed := s.service.demultiplexed.erase m })
    else none
  | .deliver a => (s.provider.step unmarshal a).map fun provider => { s with provider := provider }

end Peer

/-! ### Messages with all their parts -/

variable {m : GossipMessage} {s s' : GossipService}

theorem carriesPayload_of_isComplete (h : m.isComplete) : m.carriesPayload := by
  unfold isComplete at h
  unfold carriesPayload
  split <;> simp_all

theorem isSome_key?_of_isComplete (h : m.isComplete) (hm : m.isAliveMsg ∨ m.isDataMsg) :
    m.key?.isSome := by
  rcases hm with hm | hm
  · unfold isAliveMsg getAliveMsg at hm
    split at hm
    case h_1 alive hc =>
      simp only [isComplete, hc, AliveMessage.isComplete, Bool.and_eq_true] at h
      obtain ⟨member, hmember⟩ := Option.isSome_iff_exists.mp h.1
      obtain ⟨time, htime⟩ := Option.isSome_iff_exists.mp h.2
      obtain ⟨_, _, signature⟩ := alive
      cases hmember
      cases htime
      simp [key?, hc]
    case h_2 => cases hm
  · exact isSome_key? hm (carriesPayload_of_isComplete h)

theorem exists_payload {data : DataMessage} (h : m.key?.isSome) (hdata : m.getDataMsg = some data) :
    ∃ payload, data = ⟨some payload⟩ := by
  obtain ⟨k, hk⟩ := Option.isSome_iff_exists.mp h
  rcases key?_eq_some hk with ⟨_, _, _, hc, -⟩ | ⟨_, _, _, _, hc, -⟩ | ⟨payload, hc, -⟩
  · simp [getDataMsg, hc] at hdata
  · simp [getDataMsg, hc] at hdata
  · rw [getDataMsg, hc] at hdata
    exact ⟨payload, (Option.some.inj hdata).symm⟩

def ServiceLabel.isComplete : ServiceLabel → Bool
  | .handleMessage m | .gossip m => m.isComplete
  | _ => true

/-- What the service holds and has passed on has all its parts. -/
structure Intact (s : GossipService) : Prop where
  keyed : ∀ m ∈ s.msgStore.messages, m.key?.isSome
  incChan : ∀ m ∈ s.incChan, m.isComplete
  demultiplexed : ∀ m ∈ s.demultiplexed, m.carriesPayload

namespace Intact

theorem init (maxMessageCountToStore : ℕ) : Intact (.newGossipService maxMessageCountToStore) where
  keyed _ h := by cases h
  incChan _ h := by cases h
  demultiplexed _ h := by cases h

theorem forwardDiscoveryMsg (h : Intact s) (hm : m.isComplete) :
    Intact (s.forwardDiscoveryMsg m) where
  keyed := h.keyed
  incChan := forall_mem_append.mpr ⟨h.incChan, forall_mem_singleton.mpr hm⟩
  demultiplexed := h.demultiplexed

theorem deMultiplex (h : Intact s) (hm : m.carriesPayload) : Intact (s.deMultiplex m) where
  keyed := h.keyed
  incChan := h.incChan
  demultiplexed := forall_mem_append.mpr ⟨h.demultiplexed, forall_mem_singleton.mpr hm⟩

theorem adjust (h : Intact s) (pushPull : PullEngine) (responding : List (List UInt64)) :
    Intact { s with pushPull := pushPull, responding := responding } :=
  ⟨h.keyed, h.incChan, h.demultiplexed⟩

theorem add (h : Intact s) (hm : m.key?.isSome) :
    ∃ added s', s.add m = .ok (added, s') ∧ Intact s' := by
  have hpol : ∀ b ∈ s.msgStore.messages,
      ∃ v, invalidationPolicy s.maxMessageCountToStore m b = .ok v :=
    fun b hb => ⟨_, invalidationPolicy_verdict hm (h.keyed b hb)⟩
  obtain ⟨added, st, hadd⟩ := MessageStore.exists_add hpol
  have hkeyed := forall_mem_append.mpr ⟨h.keyed, forall_mem_singleton.mpr hm⟩
  refine ⟨added, { s with msgStore := st }, by rw [add_eq, hadd]; rfl, ?_⟩
  exact ⟨fun b hb => hkeyed b (MessageStore.add_subset hadd hb), h.incChan, h.demultiplexed⟩

theorem addData (nonce : UInt64) {data : List DataMessage}
    (hdata : ∀ d ∈ data, d.payload.isSome) (h : Intact s) :
    ∃ s' items, s.addData nonce data = .ok (s', items) ∧ Intact s' := by
  induction data generalizing s with
  | nil => exact ⟨s, [], rfl, h⟩
  | cons d rest ih =>
    have hrest : ∀ d ∈ rest, d.payload.isSome := fun d hd => hdata d (mem_cons_of_mem _ hd)
    obtain ⟨payload, hpayload⟩ := Option.isSome_iff_exists.mp (hdata d mem_cons_self)
    have hcarries : (d.message nonce).carriesPayload := hdata d mem_cons_self
    obtain ⟨added, s₁, hadd, h₁⟩ := h.add (isSome_key? rfl hcarries)
    cases added with
    | true =>
      obtain ⟨s', items, hs', h'⟩ := ih hrest (h₁.deMultiplex hcarries)
      refine ⟨s', payload.seqNum :: items, ?_, h'⟩
      simp [addData, hadd, hs', hpayload]
    | false =>
      obtain ⟨s', items, hs', h'⟩ := ih hrest h₁
      refine ⟨s', 0 :: items, ?_, h'⟩
      simp [addData, hadd, hs']

theorem handlePushPullMsg (h : Intact s) (hm : m.isComplete) :
    ∃ s', s.handlePushPullMsg m = .ok s' ∧ Intact s' := by
  unfold GossipService.handlePushPullMsg
  split
  case h_4 hc =>
    have hdata := carriesPayload_of_isComplete hm
    simp only [carriesPayload, hc, all_eq_true] at hdata
    obtain ⟨s', items, hs', h'⟩ := h.addData m.nonce hdata
    rw [hs']
    exact ⟨_, rfl, h'.adjust _ _⟩
  all_goals exact ⟨_, rfl, h.adjust _ _⟩

theorem handleMessage (h : Intact s) (hm : m.isComplete) :
    ∃ s', s.handleMessage m = .ok s' ∧ Intact s' := by
  have hforward : Intact
      (if selectOnlyDiscoveryMessages m then s.forwardDiscoveryMsg m else s) := by
    split
    · exact h.forwardDiscoveryMsg hm
    · exact h
  unfold GossipService.handleMessage
  -- whether the message was forwarded to discovery does not matter from here on
  by_cases hstored : m.isAliveMsg ∨ m.isDataMsg
  · obtain ⟨added, s₁, hadd, h₁⟩ := hforward.add (isSome_key?_of_isComplete hm hstored)
    rw [if_pos hstored, hadd]
    cases added with
    | false => exact ⟨s₁, rfl, h₁⟩
    | true =>
      have hcarries := carriesPayload_of_isComplete hm
      cases hdata : m.getDataMsg with
      | none => exact ⟨s₁, rfl, h₁⟩
      | some =>
        obtain ⟨payload, rfl⟩ := exists_payload (isSome_key?_of_isComplete hm hstored) hdata
        exact ⟨_, rfl, (h₁.deMultiplex hcarries).adjust _ _⟩
  · rw [if_neg hstored]
    exact hforward.handlePushPullMsg hm

theorem gossip (h : Intact s) (hm : m.isComplete) : ∃ s', s.gossip m = .ok s' ∧ Intact s' := by
  unfold GossipService.gossip
  cases hdata : m.getDataMsg with
  | none => exact ⟨s, rfl, h⟩
  | some =>
    have hisData : m.isDataMsg := by simp [isDataMsg, hdata]
    have hkey := isSome_key?_of_isComplete hm (.inr hisData)
    obtain ⟨payload, rfl⟩ := exists_payload hkey hdata
    obtain ⟨added, s₁, hadd, h₁⟩ := h.add hkey
    rw [hadd]
    exact ⟨_, rfl, h₁.adjust _ _⟩

theorem perform (h : Intact s) {a : ServiceLabel} (ha : a.isComplete)
    {r : Except Absent GossipService} (hr : s.perform a = some r) :
    ∃ s', r = .ok s' ∧ Intact s' := by
  cases a with
  | handleMessage =>
    cases hr
    exact h.handleMessage ha
  | gossip =>
    cases hr
    exact h.gossip ha
  | initiatePull =>
    simp only [GossipService.perform] at hr
    split at hr
    case isTrue =>
      cases hr
      exact ⟨_, rfl, h.adjust _ _⟩
    case isFalse => cases hr
  | processIncomingDigests | endPull | expireNONCE =>
    cases hr
    exact ⟨_, rfl, h.adjust _ _⟩

theorem sendRes (h : Intact s) (requestedItems : List UInt64) :
    ∃ data, s.sendRes requestedItems = .ok data := by
  have hfold : ∀ items : UInt64 → Option DataMessage, ∃ items', s.msgStore.messages.foldlM
      (fun items m =>
        match m.getDataMsg with
        | none => return items
        | some dataMsg => do
          let payload ← deref .payload dataMsg.payload
          return Function.update items payload.seqNum (some dataMsg)) items =
      (.ok items') := by
    have hkeyed := h.keyed
    generalize s.msgStore.messages = messages at hkeyed
    induction messages with
    | nil => exact fun items => ⟨items, rfl⟩
    | cons m _ ih =>
      intro items
      have ih := ih fun m hm => hkeyed m (mem_cons_of_mem _ hm)
      rw [foldlM_cons]
      cases hdata : m.getDataMsg with
      | none => exact ih items
      | some =>
        obtain ⟨payload, rfl⟩ := exists_payload (hkeyed m mem_cons_self) hdata
        exact ih _
  obtain ⟨items, hitems⟩ := hfold fun _ => none
  refine ⟨requestedItems.filterMap items, ?_⟩
  rw [GossipService.sendRes, itemMap, hitems]
  rfl

end Intact

/-! ### Whole runs -/

theorem queueNewMessage_ok (provider : StateProvider β) (hm : m.carriesPayload) :
    ∃ provider', provider.queueNewMessage m = .ok provider' := by
  unfold StateProvider.queueNewMessage
  cases hdata : m.getDataMsg with
  | none => exact ⟨provider, rfl⟩
  | some =>
    obtain ⟨payload, rfl⟩ :=
      exists_payload (isSome_key? (by simp [isDataMsg, hdata]) hm) hdata
    exact ⟨_, rfl⟩

/-- The messages of a label have all their parts. -/
def PeerLabel.isComplete : PeerLabel → Bool
  | .service a => a.isComplete
  | _ => true

/-- The invariant. -/
structure Unharmed (s : Peer β) : Prop where
  intact : Intact s.service
  sound : Sound s.node
  crash : s.crash = none

theorem Unharmed.init (maxMessageCountToStore : ℕ) (pkiID : Bytes) (height : UInt64) :
    Unharmed (β := β) (.newPeer maxMessageCountToStore pkiID height) where
  intact := Intact.init maxMessageCountToStore
  sound := Sound.init pkiID
  crash := rfl

variable {validate : AliveMessage → Bool} {unmarshal : Bytes → Option β} {p p' : Peer β}

theorem Intact.receive (h : Intact p.service) {a : NodeLabel} {service : GossipService}
    (hreceive : p.receive a = some service) :
    Intact service ∧ ∀ m, a = .receive m → m.isComplete := by
  unfold Peer.receive at hreceive
  split at hreceive
  case h_1 m =>
    split at hreceive
    case h_1 m' _ hchan =>
      split at hreceive
      case isTrue heq =>
        cases hreceive
        refine ⟨⟨h.keyed, ?_, h.demultiplexed⟩, ?_⟩
        · intro b hb
          exact h.incChan b (by rw [hchan]; exact mem_cons_of_mem m' hb)
        · rintro b ⟨⟩
          exact h.incChan m (by rw [hchan, heq]; exact mem_cons_self)
      case isFalse => cases hreceive
    case h_2 => cases hreceive
  case h_2 hother =>
    cases hreceive
    exact ⟨h, fun m hm => absurd hm (hother m)⟩

theorem Unharmed.step (h : Unharmed p) {a : PeerLabel} (ha : a.isComplete)
    (hstep : p.step validate unmarshal a = some p') : Unharmed p' := by
  -- nothing has stopped the process so far, so the guard of the step is passed
  have hup : ¬ (p.crash.isSome ∨ p.node.crash.isSome) := by simp [h.crash, h.sound.crash]
  unfold Peer.step at hstep
  rw [if_neg hup] at hstep
  cases a with simp only at hstep
  | service =>
    obtain ⟨r, hr, rfl⟩ := Option.map_eq_some_iff.mp hstep
    obtain ⟨service, rfl, hservice⟩ := h.intact.perform ha hr
    exact ⟨hservice, h.sound, h.crash⟩
  | discovery =>
    obtain ⟨service, hservice, hrest⟩ := Option.bind_eq_some_iff.mp hstep
    obtain ⟨node, hnode, hrest⟩ := Option.bind_eq_some_iff.mp hrest
    cases hrest
    obtain ⟨hintact, hreceived⟩ := h.intact.receive hservice
    exact ⟨hintact, (h.sound.step hreceived hnode).1, h.crash⟩
  | sendRes requestedItems =>
    split at hstep
    case isTrue =>
      cases hstep
      obtain ⟨data, hdata⟩ := h.intact.sendRes requestedItems
      rw [hdata]
      exact ⟨h.intact.adjust _ _, h.sound, h.crash⟩
    case isFalse => cases hstep
  | queueNewMessage m =>
    split at hstep
    case isTrue hm =>
      cases hstep
      obtain ⟨provider, hprovider⟩ :=
        queueNewMessage_ok p.provider (h.intact.demultiplexed m hm)
      rw [hprovider]
      refine ⟨⟨h.intact.keyed, h.intact.incChan, ?_⟩, h.sound, h.crash⟩
      intro b hb
      exact h.intact.demultiplexed b (mem_of_mem_erase hb)
    case isFalse => cases hstep
  | deliver =>
    obtain ⟨provider, -, rfl⟩ := Option.map_eq_some_iff.mp hstep
    exact ⟨h.intact, h.sound, h.crash⟩

/-- Messages with all their parts never stop the process. -/
theorem peer_not_crashed (validate : AliveMessage → Bool) (unmarshal : Bytes → Option β) (K : ℕ)
    (pkiID : Bytes) (height : UInt64) (labels : List PeerLabel)
    (hcomplete : ∀ a ∈ labels, a.isComplete)
    (hrun : runSteps (Peer.step validate unmarshal) (.newPeer K pkiID height) labels = some p) :
    p.crash = none ∧ p.node.crash = none := by
  have halong : Along (Peer.step validate unmarshal) (fun _ a => a.isComplete)
      (.newPeer K pkiID height) labels := along_of_forall_mem fun a ha _ => hcomplete a ha
  have h := runSteps_invariant (Unharmed.init K pkiID height)
    (fun _ _ _ ha h hstep => h.step ha hstep) halong hrun
  exact ⟨h.crash, h.sound.crash⟩

/-- A sign of life, a block and a request for it go through all parts of the peer. -/
theorem peer_not_crashed_served :
    ∃ p : Peer Bytes, runSteps (Peer.step (fun _ => true) some) (.newPeer 4 [1] 0)
      [.service (.handleMessage (aliveMessage [7] ⟨1, 1⟩)),
        .discovery (.receive (aliveMessage [7] ⟨1, 1⟩)),
        .service (.handleMessage (blockMessage 1 [1])), .discovery .start,
        .service (.handleMessage ⟨0, some (.hello ⟨5⟩)⟩),
        .queueNewMessage (blockMessage 1 [1]), .discovery .advance,
        .service (.handleMessage ⟨0, some (.dataReq ⟨5, [1, 2]⟩)⟩),
        .service (.handleMessage (aliveMessage [7] ⟨1, 2⟩)), .sendRes [1], .deliver .ready] =
        some p ∧
      p.provider.accepted = [⟨1, [1], []⟩] ∧ p.crash = none ∧ p.node.crash = none := by
  refine exists_and_of_checked (fun _ => True) (by decide +kernel) ?_
  rintro p hp -
  exact peer_not_crashed _ _ 4 [1] 0 _ (by decide) hp

/-- A data message without payload is stored; handling it goes on to read its number. -/
theorem peer_crashed_payload :
    ∃ p : Peer Bytes, runSteps (Peer.step (fun _ => true) some) (.newPeer 4 [1] 0)
      [.service (.handleMessage ⟨0, some (.dataMsg ⟨none⟩)⟩)] = some p ∧
      p.crash = some .payload := by
  have hrun : (runSteps (Peer.step (fun _ => true) (some)) (.newPeer 4 [1] 0)
      [.service (.handleMessage ⟨0, some (.dataMsg ⟨none⟩)⟩)]).map (fun p => p.crash) =
      some (some .payload) := by decide +kernel
  exact Option.map_eq_some_iff.mp hrun

end Fabric.Gossip
