import Fabric.Common.Frontier
import Fabric.Gossip.Message

/-!
# The message store

The store keeps the messages that no other message has made superfluous. A newcomer is compared
with each stored message in turn: it is refused if one invalidates it, and those that it
invalidates leave the store during the scan. The comparison of gossip messages is a preorder: of
alive messages and of state information the latest of each peer is kept, and of ledger blocks
those within a distance of the highest one.
-/

namespace Fabric.Gossip

open Fabric.Common List

inductive InvalidationResult
  | noAction
  | invalidates
  | invalidated
deriving DecidableEq

variable {ε α : Type}

/-- Says what becomes of `this`, a newcomer, and `that`, a stored message. -/
abbrev MessageReplacingPolicy (ε α : Type) := (this that : α) → Except ε InvalidationResult

/-! ### The store -/

/-- How far the loop of `add` came, what is left, and what the trigger was called with. -/
structure Scan (α : Type) where
  ended : Bool
  messages : List α
  invalidated : List α
deriving DecidableEq

/-- The loop of `add` over the messages from some index on. -/
def scan (pol : MessageReplacingPolicy ε α) (message : α) : List α → Except ε (Scan α)
  | [] => .ok ⟨true, [], []⟩
  | m :: rest =>
    match pol message m with
    | .error e => .error e
    | .ok .invalidated => .ok ⟨false, m :: rest, []⟩
    | .ok .invalidates =>
      -- the message is deleted and the loop goes on at the same index
      (scan pol message rest).map fun s => { s with invalidated := m :: s.invalidated }
    | .ok .noAction =>
      (scan pol message rest).map fun s => { s with messages := m :: s.messages }

/-- The messages of the store, and those that the trigger has been called with. -/
structure MessageStore (α : Type) where
  messages : List α
  triggered : List α
deriving DecidableEq

def newMessageStore : MessageStore α := ⟨[], []⟩

/-- Returns whether the message was added. -/
def MessageStore.add (pol : MessageReplacingPolicy ε α) (s : MessageStore α) (message : α) :
    Except ε (Bool × MessageStore α) :=
  (scan pol message s.messages).map fun r =>
    (r.ended,
      { messages := if r.ended then r.messages ++ [message] else r.messages
        triggered := s.triggered ++ r.invalidated })

/-- One call of `add` after the other. -/
def addAll (pol : MessageReplacingPolicy ε α) (seen : List α) : Except ε (MessageStore α) :=
  seen.foldlM (fun s m => (s.add pol m).map Prod.snd) newMessageStore

variable {added : Bool} {k : Key} {m m' : GossipMessage} {id : Bytes}

theorem addAll_concat {pol : MessageReplacingPolicy ε α} {seen : List α} {a : α}
    {s s' : MessageStore α} (hs : addAll pol seen = .ok s) (hadd : s.add pol a = .ok (added, s')) :
    addAll pol (seen ++ [a]) = .ok s' := by
  rw [addAll, foldlM_append, show List.foldlM _ _ seen = _ from hs]
  simp [hadd, Except.map]

section Preordered

variable {pol : MessageReplacingPolicy ε α} {le : α → α → Prop} [DecidableRel le]
  {a : α} {messages seen : List α} {s : MessageStore α}

/-- The result of a comparison by a preorder. -/
def verdict (le : α → α → Prop) [DecidableRel le] (this that : α) : InvalidationResult :=
  if le this that then .invalidated else if le that this then .invalidates else .noAction

variable [IsPreorder α le]

/-- The loop removes messages or is left half-way, but not both: the messages of the store are
pairwise incomparable. -/
theorem scan_eq (hpol : ∀ b ∈ messages, pol a b = .ok (verdict le a b))
    (hapart : messages.Pairwise (Apart le)) :
    scan pol a messages = .ok (if ∃ b ∈ messages, le a b then ⟨false, messages, []⟩
      else ⟨true, messages.filter (fun b => ¬ le b a), messages.filter (fun b => le b a)⟩) := by
  induction messages with
  | nil => rfl
  | cons m rest ih =>
    obtain ⟨hm, hrest⟩ := pairwise_cons.mp hapart
    have ih := ih (fun b hb => hpol b (mem_cons_of_mem m hb)) hrest
    rw [scan, hpol m mem_cons_self, verdict]
    by_cases ham : le a m
    · simp [ham]
    · by_cases hma : le m a
      -- `m` leaves; what lies above the newcomer would lie above `m`
      · have hnone : ¬ ∃ b ∈ rest, le a b := by
          rintro ⟨b, hb, hab⟩
          exact (hm b hb).1 (IsTrans.trans m a b hma hab)
        rw [if_neg hnone] at ih
        simp only [ih]
        simpa [ham, hma, Except.map] using hnone
      · simp only [if_neg ham, if_neg hma, ih]
        by_cases hex : ∃ b ∈ rest, le a b
        · simp [Except.map, hex]
        · simp [Except.map, ham, hma, hex]

/-- A policy that decides a preorder keeps the frontier, and triggers for what leaves it. -/
theorem MessageStore.add_eq (hpol : ∀ b ∈ s.messages, pol a b = .ok (verdict le a b))
    (hapart : s.messages.Pairwise (Apart le)) :
    s.add pol a = .ok (if ∃ b ∈ s.messages, le a b then (false, s) else
      (true, ⟨absorb le s.messages a, s.triggered ++ s.messages.filter (fun b => le b a)⟩)) := by
  rw [add, scan_eq hpol hapart, absorb]
  split <;> simp [Except.map]

open MessageStore

theorem addAll_frontier (hpol : ∀ a ∈ seen, ∀ b ∈ seen, pol a b = .ok (verdict le a b)) :
    ∃ s, addAll pol seen = .ok s ∧ Frontier le seen s.messages := by
  induction seen using List.reverseRecOn with
  | nil => exact ⟨newMessageStore, rfl, Frontier.nil⟩
  | append_singleton _ a ih =>
    obtain ⟨s, hs, hfront⟩ := ih fun b hb c hc => hpol b (by simp [hb]) c (by simp [hc])
    have hadd := add_eq
      (fun b hb => hpol a (by simp) b (by simp [hfront.mem_seen hb])) hfront.apart
    have hnext := hfront.absorb a
    -- the store absorbs the newcomer in both cases
    by_cases habove : ∃ b ∈ s.messages, le a b
    · rw [if_pos habove] at hadd
      rw [absorb, if_pos habove] at hnext
      exact ⟨s, addAll_concat hs hadd, hnext⟩
    · rw [if_neg habove] at hadd
      exact ⟨_, addAll_concat hs hadd, hnext⟩

end Preordered

section Kinds

variable {pol : MessageReplacingPolicy ε α} {p : α → Bool} {a : α} {messages : List α}
  {s s' : MessageStore α}

theorem scan_subset {r : Scan α} (hr : scan pol a messages = .ok r) : r.messages ⊆ messages := by
  induction messages generalizing r with
  | nil =>
    cases hr
    exact List.Subset.refl _
  | cons m _ ih =>
    rw [scan] at hr
    cases hpol : pol a m with
    | error => simp [hpol] at hr
    | ok verdict =>
      rw [hpol] at hr
      cases verdict with
      | invalidated =>
        cases hr
        exact List.Subset.refl _
      | invalidates =>
        obtain ⟨r, hrest, rfl⟩ := map_eq_ok_iff.mp hr
        have hsub := ih hrest
        exact subset_cons_of_subset m hsub
      | noAction =>
        obtain ⟨r, hrest, rfl⟩ := map_eq_ok_iff.mp hr
        exact cons_subset_cons m (ih hrest)

theorem MessageStore.add_subset (h : s.add pol a = .ok (added, s')) :
    s'.messages ⊆ s.messages ++ [a] := by
  obtain ⟨r, hr, heq⟩ := map_eq_ok_iff.mp h
  have hleft := subset_append_of_subset_left [a] (scan_subset hr)
  cases heq
  cases r.ended with
  | false => exact hleft
  | true => exact append_subset.mpr ⟨hleft, subset_append_right _ _⟩

theorem scan_filter (hother : ∀ b ∈ messages, ¬ p b → pol a b = .ok .noAction) {r : Scan α}
    (hr : scan pol a (messages.filter p) = .ok r) :
    ∃ r', scan pol a messages = .ok r' ∧ r'.ended = r.ended ∧
      r'.messages.filter p = r.messages := by
  induction messages generalizing r with
  | nil =>
    cases hr
    exact ⟨_, rfl, rfl, rfl⟩
  | cons m _ ih =>
    have ih := @ih fun b hb => hother b (mem_cons_of_mem m hb)
    rw [scan]
    by_cases hm : p m
    · rw [filter_cons_of_pos hm, scan] at hr
      cases hpol : pol a m with
      | error => simp [hpol] at hr
      | ok verdict =>
        rw [hpol] at hr
        cases verdict with
        | invalidated =>
          cases hr
          exact ⟨_, rfl, rfl, filter_cons_of_pos hm⟩
        | invalidates =>
          obtain ⟨r, hrest, rfl⟩ := map_eq_ok_iff.mp hr
          obtain ⟨r', hr', hended, hfilter⟩ := ih hrest
          exact ⟨{ r' with invalidated := m :: r'.invalidated }, by rw [hr']; rfl, hended, hfilter⟩
        | noAction =>
          obtain ⟨r, hrest, rfl⟩ := map_eq_ok_iff.mp hr
          obtain ⟨r', hr', hended, hfilter⟩ := ih hrest
          refine ⟨{ r' with messages := m :: r'.messages }, by rw [hr']; rfl, hended, ?_⟩
          rw [filter_cons_of_pos hm, hfilter]
    -- a message of another kind stays, and the loop goes on
    · rw [filter_cons_of_neg hm] at hr
      obtain ⟨r', hr', hended, hfilter⟩ := ih hr
      refine ⟨{ r' with messages := m :: r'.messages }, ?_, hended, ?_⟩
      · rw [hother m mem_cons_self hm, hr']
        rfl
      · rw [filter_cons_of_neg hm, hfilter]

theorem scan_filter_eq (hkeep : ∀ b ∈ messages, p b → pol a b = .ok .noAction) {r : Scan α}
    (hr : scan pol a messages = .ok r) : r.messages.filter p = messages.filter p := by
  induction messages generalizing r with
  | nil =>
    cases hr
    rfl
  | cons m _ ih =>
    have ih := @ih fun b hb => hkeep b (mem_cons_of_mem m hb)
    rw [scan] at hr
    cases hpol : pol a m with
    | error => simp [hpol] at hr
    | ok verdict =>
      rw [hpol] at hr
      cases verdict with
      | invalidated =>
        cases hr
        rfl
      | invalidates =>
        obtain ⟨r, hrest, rfl⟩ := map_eq_ok_iff.mp hr
        -- what leaves the store was compared with the newcomer
        have hm : ¬ p m := by
          intro hm
          have hno := hkeep m mem_cons_self hm
          simp [hpol] at hno
        rw [filter_cons_of_neg hm, ih hrest]
      | noAction =>
        obtain ⟨r, hrest, rfl⟩ := map_eq_ok_iff.mp hr
        simp only [filter_cons, ih hrest]

theorem MessageStore.add_filter {le : α → α → Prop} [DecidableRel le] [IsPreorder α le]
    (hpol : ∀ b ∈ s.messages, p b → pol a b = .ok (verdict le a b))
    (hother : ∀ b ∈ s.messages, ¬ p b → pol a b = .ok .noAction) (ha : p a)
    (hapart : (s.messages.filter p).Pairwise (Apart le)) :
    ∃ s', s.add pol a = .ok (decide (¬ ∃ b ∈ s.messages.filter p, le a b), s') ∧
      s'.messages.filter p = absorb le (s.messages.filter p) a := by
  have hscan := scan_eq (fun b hb => hpol b (mem_of_mem_filter hb) (of_mem_filter hb))
    hapart
  obtain ⟨r, hr, hended, hfilter⟩ := scan_filter hother hscan
  rw [add, hr, absorb]
  by_cases habove : ∃ b ∈ s.messages.filter p, le a b
  · rw [if_pos habove] at hended hfilter ⊢
    refine ⟨⟨r.messages, s.triggered ++ r.invalidated⟩, ?_, hfilter⟩
    rw [decide_eq_false (not_not_intro habove), Except.map, hended]
    rfl
  · rw [if_neg habove] at hended hfilter ⊢
    refine ⟨⟨r.messages ++ [a], s.triggered ++ r.invalidated⟩, ?_, ?_⟩
    · rw [decide_eq_true habove, Except.map, hended]
      rfl
    · rw [filter_append, hfilter, filter_cons_of_pos ha, filter_nil]

theorem MessageStore.add_filter_eq (hkeep : ∀ b ∈ s.messages, p b → pol a b = .ok .noAction)
    (ha : ¬ p a) (h : s.add pol a = .ok (added, s')) :
    s'.messages.filter p = s.messages.filter p := by
  obtain ⟨r, hr, heq⟩ := map_eq_ok_iff.mp h
  have hfilter := scan_filter_eq hkeep hr
  cases heq
  cases r.ended with
  | false => exact hfilter
  | true =>
    rw [if_pos rfl, filter_append, hfilter, filter_cons_of_neg ha, filter_nil,
      append_nil]

theorem MessageStore.exists_add (hpol : ∀ b ∈ s.messages, ∃ v, pol a b = .ok v) :
    ∃ added s', s.add pol a = .ok (added, s') := by
  have hscan : ∃ r, scan pol a s.messages = .ok r := by
    generalize s.messages = messages at hpol
    induction messages with
    | nil => exact ⟨_, rfl⟩
    | cons m _ ih =>
      obtain ⟨r, hr⟩ := ih fun b hb => hpol b (mem_cons_of_mem m hb)
      obtain ⟨v, hv⟩ := hpol m mem_cons_self
      rw [scan, hv, hr]
      cases v with
      | invalidated | invalidates | noAction => exact ⟨_, rfl⟩
  obtain ⟨r, hr⟩ := hscan
  exact ⟨_, _, by rw [add, hr]; rfl⟩

end Kinds

/-! ### The comparison of gossip messages -/

def compareTimestamps (thisTS thatTS : Option PeerTime) : Except Absent InvalidationResult := do
  let thisTS ← deref .timestamp thisTS
  let thatTS ← deref .timestamp thatTS
  if thisTS.incNumber = thatTS.incNumber then
    if thisTS.seqNum > thatTS.seqNum then return .invalidates else return .invalidated
  else if thisTS.incNumber < thatTS.incNumber then return .invalidated
  else return .invalidates

def stateInvalidationPolicy (thisStateMsg thatStateMsg : StateInfo) :
    Except Absent InvalidationResult :=
  if thisStateMsg.pkiID ≠ thatStateMsg.pkiID then .ok .noAction
  else compareTimestamps thisStateMsg.timestamp thatStateMsg.timestamp

/-- `util.Abs` -/
def Util.abs (a b : UInt64) : UInt64 := if a > b then a - b else b - a

/-- The storage size is an `int`; it is not negative. -/
def dataInvalidationPolicy (dataBlockStorageSize : ℕ) (thisDataMsg thatDataMsg : DataMessage) :
    Except Absent InvalidationResult := do
  let this ← deref .payload thisDataMsg.payload
  let that ← deref .payload thatDataMsg.payload
  if this.seqNum = that.seqNum then
    if this.hash = that.hash then return .invalidated else return .noAction
  else if (Util.abs this.seqNum that.seqNum).toNat ≤ dataBlockStorageSize then return .noAction
  else if this.seqNum > that.seqNum then return .invalidates
  else return .invalidated

def aliveInvalidationPolicy (thisMsg thatMsg : AliveMessage) :
    Except Absent InvalidationResult := do
  let this ← deref .membership thisMsg.membership
  let that ← deref .membership thatMsg.membership
  if this.pkiID ≠ that.pkiID then return .noAction
  else compareTimestamps thisMsg.timestamp thatMsg.timestamp

/-- `NewGossipMessageComparator` -/
def invalidationPolicy (dataBlockStorageSize : ℕ) :
    MessageReplacingPolicy Absent GossipMessage := fun thisMsg thatMsg =>
  match thisMsg.content, thatMsg.content with
  | some (.aliveMsg this), some (.aliveMsg that) => aliveInvalidationPolicy this that
  | some (.dataMsg this), some (.dataMsg that) =>
    dataInvalidationPolicy dataBlockStorageSize this that
  | some (.stateInfo this), some (.stateInfo that) => stateInvalidationPolicy this that
  | _, _ => .ok .noAction

/-! ### Its preorder -/

/-- What the comparison of a well-formed alive, state information or data message depends on. -/
inductive Key
  | alive (pkiID : Bytes) (time : PeerTime)
  | stateInfo (pkiID : Bytes) (time : PeerTime)
  | data (seqNum : UInt64) (hash : Bytes)
deriving DecidableEq

/-- A message of another kind, or one with an absent part, has no key. -/
def GossipMessage.key? (m : GossipMessage) : Option Key :=
  match m.content with
  | some (.aliveMsg ⟨some member, some time, _⟩) => some (.alive member.pkiID time)
  | some (.stateInfo ⟨_, some time, pkiID, _⟩) => some (.stateInfo pkiID time)
  | some (.dataMsg ⟨some payload⟩) => some (.data payload.seqNum payload.hash)
  | _ => none

/-- A later message of the same peer, and a block too far ahead, make a message superfluous. -/
def Key.le (K : ℕ) : Key → Key → Prop
  | .alive id t, .alive id' t' => id = id' ∧ t.rank ≤ t'.rank
  | .stateInfo id t, .stateInfo id' t' => id = id' ∧ t.rank ≤ t'.rank
  | .data n h, .data n' h' => (n = n' ∧ h = h') ∨ n.toNat + K < n'.toNat
  | _, _ => False

variable {K : ℕ}

instance Key.decidableLe : DecidableRel (Key.le K)
  | .alive id t, .alive id' t' => inferInstanceAs (Decidable (id = id' ∧ t.rank ≤ t'.rank))
  | .stateInfo id t, .stateInfo id' t' =>
    inferInstanceAs (Decidable (id = id' ∧ t.rank ≤ t'.rank))
  | .data n h, .data n' h' =>
    inferInstanceAs (Decidable ((n = n' ∧ h = h') ∨ n.toNat + K < n'.toNat))
  | .alive _ _, .stateInfo _ _ | .alive _ _, .data _ _ | .stateInfo _ _, .alive _ _
  | .stateInfo _ _, .data _ _ | .data _ _, .alive _ _ | .data _ _, .stateInfo _ _ =>
    inferInstanceAs (Decidable False)

theorem Key.le_refl (k : Key) : k.le K k := by
  cases k <;> simp [Key.le]

theorem Key.le_trans {l m : Key} (h : k.le K l) (h' : l.le K m) : k.le K m := by
  cases k <;> cases l <;> cases m <;> simp only [Key.le] at *
  case alive.alive.alive | stateInfo.stateInfo.stateInfo =>
    exact ⟨h.1.trans h'.1, h.2.trans h'.2⟩
  case data.data.data =>
    -- blocks are far apart as soon as one of the two distances is
    rcases h with ⟨rfl, rfl⟩ | h
    · exact h'
    · rcases h' with ⟨rfl, rfl⟩ | h'
      · exact Or.inr h
      · exact Or.inr (by omega)

theorem Key.le_antisymm {l : Key} (h : k.le K l) (h' : l.le K k) : k = l := by
  cases k <;> cases l <;> simp only [Key.le] at *
  case alive.alive | stateInfo.stateInfo =>
    obtain ⟨rfl, ht⟩ := h
    rw [PeerTime.rank_injective (ht.antisymm h'.2)]
  case data.data =>
    rcases h with ⟨rfl, rfl⟩ | h
    · rfl
    · rcases h' with ⟨rfl, rfl⟩ | h'
      · rfl
      · omega

theorem GossipMessage.key?_eq_some (h : m.key? = some k) :
    (∃ member time sig, m.content = some (.aliveMsg ⟨some member, some time, sig⟩) ∧
      k = .alive member.pkiID time) ∨
    (∃ metadata time pkiID sig, m.content = some (.stateInfo ⟨metadata, some time, pkiID, sig⟩) ∧
      k = .stateInfo pkiID time) ∨
    ∃ payload, m.content = some (.dataMsg ⟨some payload⟩) ∧
      k = .data payload.seqNum payload.hash := by
  unfold GossipMessage.key? at h
  split at h
  case h_1 member time sig hm => exact .inl ⟨member, time, sig, hm, (Option.some.inj h).symm⟩
  case h_2 metadata time pkiID sig hm =>
    exact .inr (.inl ⟨metadata, time, pkiID, sig, hm, (Option.some.inj h).symm⟩)
  case h_3 payload hm => exact .inr (.inr ⟨payload, hm, (Option.some.inj h).symm⟩)
  case h_4 => exact absurd h (by simp)

theorem compareTimestamps_some (t u : PeerTime) :
    compareTimestamps (some t) (some u) =
      .ok (if t.rank ≤ u.rank then .invalidated else .invalidates) := by
  simp only [PeerTime.rank_le_iff, compareTimestamps]
  by_cases heq : t.incNumber = u.incNumber
  · by_cases hlt : u.seqNum < t.seqNum
    · simp [heq, hlt]
    · simp [heq, hlt]
  · by_cases hlt : t.incNumber < u.incNumber
    · simp [heq, hlt]
    · simp [heq, hlt]

theorem verdict_of_same {t u : PeerTime} {this that : Key} {p : Prop} [Decidable p]
    (h : this.le K that ↔ p ∧ t.rank ≤ u.rank) (h' : that.le K this ↔ p ∧ u.rank ≤ t.rank) :
    (if ¬ p then .ok .noAction else compareTimestamps (some t) (some u)) =
      .ok (verdict (Key.le K) this that) := by
  simp only [verdict, h, h', compareTimestamps_some]
  by_cases hp : p
  · rcases le_total t.rank u.rank with hle | hle <;> simp [hp, hle]
  · simp [hp]

theorem Util.abs_toNat (a b : UInt64) :
    (Util.abs a b).toNat = (a.toNat - b.toNat) + (b.toNat - a.toNat) := by
  rw [Util.abs]
  split
  case isTrue h =>
    rw [UInt64.toNat_sub_of_le _ _ (UInt64.le_of_lt h)]
    have := UInt64.lt_iff_toNat_lt.mp h
    omega
  case isFalse h =>
    have := UInt64.le_iff_toNat_le.mp (UInt64.not_lt.mp h)
    rw [UInt64.toNat_sub_of_le _ _ (UInt64.not_lt.mp h)]
    omega

theorem dataInvalidationPolicy_some (p q : Payload) :
    dataInvalidationPolicy K ⟨some p⟩ ⟨some q⟩ =
      .ok (verdict (Key.le K) (.data p.seqNum p.hash) (.data q.seqNum q.hash)) := by
  simp only [dataInvalidationPolicy, deref_some, verdict, Key.le, Util.abs_toNat]
  by_cases hseq : p.seqNum = q.seqNum
  · by_cases hhash : p.hash = q.hash
    · simp [hseq, hhash]
    · have hnear : ¬ q.seqNum.toNat + K < q.seqNum.toNat := by omega
      simp [hseq, hhash, Ne.symm hhash, hnear]
  · simp only [ok_bind, hseq, Ne.symm hseq, if_false, false_and, false_or, UInt64.lt_iff_toNat_lt]
    split_ifs <;> first | rfl | omega

theorem invalidationPolicy_eq {k' : Key} (h : m.key? = some k) (h' : m'.key? = some k') :
    invalidationPolicy K m m' = .ok (verdict (Key.le K) k k') := by
  rcases GossipMessage.key?_eq_some h with
    ⟨member, time, sig, hm, rfl⟩ | ⟨metadata, time, pkiID, sig, hm, rfl⟩ | ⟨p, hm, rfl⟩ <;>
  rcases GossipMessage.key?_eq_some h' with
    ⟨member', time', sig', hm', rfl⟩ | ⟨metadata', time', pkiID', sig', hm', rfl⟩ |
      ⟨p', hm', rfl⟩ <;>
  simp only [invalidationPolicy, hm, hm']
  case inl.inl =>
    exact verdict_of_same (p := member.pkiID = member'.pkiID) Iff.rfl (by simp [Key.le, eq_comm])
  case inr.inl.inr.inl =>
    exact verdict_of_same (p := pkiID = pkiID') Iff.rfl (by simp [Key.le, eq_comm])
  case inr.inr.inr.inr => exact dataInvalidationPolicy_some p p'
  all_goals simp [verdict, Key.le]

/-! ### Convergence -/

namespace GossipMessage

/-- The preorder of the keys; messages without one are all equivalent. -/
def Below (K : ℕ) (m m' : GossipMessage) : Prop :=
  match m.key?, m'.key? with
  | some k, some k' => k.le K k'
  | none, none => True
  | _, _ => False

instance decidableBelow : DecidableRel (Below K) := fun m m' =>
  match h : m.key?, h' : m'.key? with
  | some k, some k' => decidable_of_iff (k.le K k') (by rw [Below, h, h'])
  | none, none => .isTrue (by rw [Below, h, h']; trivial)
  | some _, none => .isFalse (by rw [Below, h, h']; exact not_false)
  | none, some _ => .isFalse (by rw [Below, h, h']; exact not_false)

instance : IsPreorder GossipMessage (Below K) where
  refl m := by
    unfold Below
    cases m.key? with
    | none => trivial
    | some k => exact k.le_refl
  trans m m' m'' h h' := by
    unfold Below at *
    cases hm : m.key? <;> cases hm' : m'.key? <;> cases hm'' : m''.key? <;>
      simp only [hm, hm', hm''] at *
    exact Key.le_trans h h'

theorem below_iff {k' : Key} (h : m.key? = some k) (h' : m'.key? = some k') :
    m.Below K m' ↔ k.le K k' := by
  rw [Below, h, h']

/-- An alive message about a peer. -/
def isAliveOf (id : Bytes) (m : GossipMessage) : Bool :=
  match m.key? with
  | some (.alive pkiID _) => pkiID = id
  | _ => false

/-- State information of a peer. -/
def isStateInfoOf (id : Bytes) (m : GossipMessage) : Bool :=
  match m.key? with
  | some (.stateInfo pkiID _) => pkiID = id
  | _ => false

/-- The time of an alive message or of state information. -/
def time (m : GossipMessage) : ℕ ×ₗ ℕ :=
  match m.key? with
  | some (.alive _ t) | some (.stateInfo _ t) => t.rank
  | _ => toLex (0, 0)

theorem isAliveOf_iff :
    m.isAliveOf id ↔ ∃ t, m.key? = some (.alive id t) := by
  unfold isAliveOf
  split <;> simp_all

theorem isStateInfoOf_iff :
    m.isStateInfoOf id ↔ ∃ t, m.key? = some (.stateInfo id t) := by
  unfold isStateInfoOf
  split <;> simp_all

theorem below_iff_of_isAliveOf (h : m.isAliveOf id) :
    m.Below K m' ↔ m'.isAliveOf id ∧ m.time ≤ m'.time := by
  obtain ⟨t, ht⟩ := isAliveOf_iff.mp h
  cases hk : m'.key? with
  | none => simp [Below, isAliveOf, ht, hk]
  | some k => cases k <;> simp [Below, isAliveOf, time, ht, hk, Key.le, eq_comm]

theorem below_iff_of_isStateInfoOf (h : m.isStateInfoOf id) :
    m.Below K m' ↔ m'.isStateInfoOf id ∧ m.time ≤ m'.time := by
  obtain ⟨t, ht⟩ := isStateInfoOf_iff.mp h
  cases hk : m'.key? with
  | none => simp [Below, isStateInfoOf, ht, hk]
  | some k => cases k <;> simp [Below, isStateInfoOf, time, ht, hk, Key.le, eq_comm]

end GossipMessage

open GossipMessage

/-- The keys of the messages. -/
def keys (messages : List GossipMessage) : List Key := messages.filterMap key?

/-- What the store holds: of each peer the alive message and the state information with the greatest
time, the first one among equals (`List.argmax`), and one data message for each number and hash
among those at most `K` behind every other. -/
structure Converged (K : ℕ) (seen stored : List GossipMessage) : Prop where
  alive : ∀ id, stored.filter (isAliveOf id) = ((seen.filter (isAliveOf id)).argmax time).toList
  stateInfo : ∀ id,
    stored.filter (isStateInfoOf id) = ((seen.filter (isStateInfoOf id)).argmax time).toList
  nodup : (keys stored).Nodup
  data : ∀ n h, .data n h ∈ keys stored ↔ .data n h ∈ keys seen ∧
    ∀ n' h', .data n' h' ∈ keys seen → n'.toNat - K ≤ n.toNat

variable {seen seen' stored stored' : List GossipMessage}

theorem mem_keys : k ∈ keys seen ↔ ∃ m ∈ seen, m.key? = some k := mem_filterMap

theorem invalidationPolicy_verdict (h : m.key?.isSome) (h' : m'.key?.isSome) :
    invalidationPolicy K m m' = .ok (verdict (Below K) m m') := by
  obtain ⟨k, hk⟩ := Option.isSome_iff_exists.mp h
  obtain ⟨k', hk'⟩ := Option.isSome_iff_exists.mp h'
  rw [invalidationPolicy_eq hk hk', verdict, verdict]
  simp only [below_iff hk hk', below_iff hk' hk]

theorem converged_of_frontier (h : Frontier (Below K) seen stored) : Converged K seen stored where
  alive id := h.filter_eq_argmax (isAliveOf id) time fun _ _ ha => below_iff_of_isAliveOf ha
  stateInfo id :=
    h.filter_eq_argmax (isStateInfoOf id) time fun _ _ ha => below_iff_of_isStateInfoOf ha
  nodup := by
    apply List.Pairwise.filterMap key? _ h.apart
    rintro m m' hapart k hk k' hk' rfl
    exact hapart.1 ((below_iff hk hk').mpr k.le_refl)
  data n hash := by
    constructor
    · intro hmem
      obtain ⟨m, hm, hk⟩ := mem_keys.mp hmem
      refine ⟨mem_keys.mpr ⟨m, h.mem_seen hm, hk⟩, ?_⟩
      intro n' hash' hmem'
      obtain ⟨m', hm', hk'⟩ := mem_keys.mp hmem'
      -- a block too far ahead would lie above `m`, and `m` not above it
      by_contra hfar
      have hle : m.Below K m' := (below_iff hk hk').mpr (Or.inr (by omega))
      have hge := (below_iff hk' hk).mp (h.le_of_le hm hm' hle)
      rcases hge with ⟨rfl, -⟩ | hge <;> omega
    · rintro ⟨hmem, hnear⟩
      obtain ⟨m, hm, hk⟩ := mem_keys.mp hmem
      obtain ⟨m', hm', hle⟩ := h.covers m hm
      have hseen' := h.mem_seen hm'
      cases hk' : m'.key? with
      | none => simp [Below, hk, hk'] at hle
      | some k' =>
        rw [below_iff hk hk'] at hle
        cases k' with
        | alive => exact hle.elim
        | stateInfo => exact hle.elim
        | data n' hash' =>
          have := hnear n' hash' (mem_keys.mpr ⟨m', hseen', hk'⟩)
          rcases hle with ⟨rfl, rfl⟩ | hfar
          · exact mem_keys.mpr ⟨m', hm', hk'⟩
          · omega

theorem mem_keys_of_frontier (h : Frontier (Below K) seen stored)
    (h' : Frontier (Below K) seen' stored') (hperm : seen.Perm seen') (hk : k ∈ keys stored) :
    k ∈ keys stored' := by
  obtain ⟨m, hm, hk⟩ := mem_keys.mp hk
  obtain ⟨m', hm', hle, hge⟩ := h.exists_equiv h' hperm.subset hperm.symm.subset hm
  cases hk' : m'.key? with
  | none => simp [Below, hk, hk'] at hle
  | some =>
    rw [Key.le_antisymm ((below_iff hk hk').mp hle) ((below_iff hk' hk).mp hge)]
    exact mem_keys.mpr ⟨m', hm', hk'⟩

theorem MessageStore.add_triggers {s : MessageStore GossipMessage}
    (hfront : Frontier (Below K) seen s.messages) (hseen : ∀ m ∈ seen, m.key?.isSome)
    (hm : m.key?.isSome) :
    ∃ added s', s.add (invalidationPolicy K) m = .ok (added, s') ∧
      if added then ∃ left, s'.triggered = s.triggered ++ left ∧
        (s.messages ++ [m]).Perm (s'.messages ++ left)
      else s' = s := by
  have hadd := add_eq
    (fun b hb => invalidationPolicy_verdict hm (hseen b (hfront.mem_seen hb))) hfront.apart
  by_cases habove : ∃ b ∈ s.messages, m.Below K b
  · exact ⟨false, s, by rw [hadd, if_pos habove], rfl⟩
  · refine ⟨true, _, by rw [hadd, if_neg habove], s.messages.filter (fun b => b.Below K m), rfl, ?_⟩
    rw [absorb, if_neg habove, append_assoc]
    have hsplit := filter_append_perm (fun b => decide (b.Below K m)) s.messages
    have hcomm := hsplit.symm.trans perm_append_comm
    simp only [decide_not] at hcomm ⊢
    calc s.messages ++ [m]
      _ |>.Perm (_ ++ [m]) := hcomm.append_right [m]
      _ |>.Perm _ := by
        rw [append_assoc]
        exact perm_append_comm.append_left _

/-- After any well-formed messages the store holds what `Converged` says, in any order with the same
keys, and one more is refused with no effect or added, with a trigger for each that leaves. -/
theorem addAll_converges (K : ℕ) (seen : List GossipMessage)
    (hseen : ∀ m ∈ seen, m.key?.isSome) :
    ∃ s, addAll (invalidationPolicy K) seen = .ok s ∧ Converged K seen s.messages ∧
      (∀ seen' : List GossipMessage, seen.Perm seen' →
        ∃ s', addAll (invalidationPolicy K) seen' = .ok s' ∧
          ∀ k, k ∈ keys s.messages ↔ k ∈ keys s'.messages) ∧
      ∀ m : GossipMessage, m.key?.isSome →
        ∃ added s', s.add (invalidationPolicy K) m = .ok (added, s') ∧
          if added then ∃ left, s'.triggered = s.triggered ++ left ∧
            (s.messages ++ [m]).Perm (s'.messages ++ left)
          else s' = s := by
  have hpol : ∀ a ∈ seen, ∀ b ∈ seen, invalidationPolicy K a b = .ok (verdict (Below K) a b) :=
    fun a ha b hb => invalidationPolicy_verdict (hseen a ha) (hseen b hb)
  obtain ⟨s, hs, hfront⟩ := addAll_frontier hpol
  refine ⟨s, hs, converged_of_frontier hfront, ?_, ?_⟩
  · intro seen' hperm
    obtain ⟨s', hs', hfront'⟩ := addAll_frontier fun a ha b hb =>
      hpol a (hperm.symm.subset ha) b (hperm.symm.subset hb)
    refine ⟨s', hs', ?_⟩
    intro k
    constructor
    · exact mem_keys_of_frontier hfront hfront' hperm
    · exact mem_keys_of_frontier hfront' hfront hperm.symm
  · intro m hm
    exact MessageStore.add_triggers hfront hseen hm

/-- A block of the ledger. -/
def blockMessage (seqNum : UInt64) (hash : Bytes) : GossipMessage :=
  ⟨0, some (.dataMsg ⟨some ⟨seqNum, hash, []⟩⟩)⟩

/-- A sign of life of a peer. -/
def aliveMessage (pkiID : Bytes) (time : PeerTime) : GossipMessage :=
  ⟨0, some (.aliveMsg ⟨some ⟨[], [], pkiID⟩, some time, []⟩)⟩

/-- Two blocks with the highest number and the one before it, and the latest sign of life. -/
theorem addAll_converges_window :
    let seen := [blockMessage 3 [1], aliveMessage [7] ⟨1, 2⟩, blockMessage 1 [2],
      blockMessage 5 [3], aliveMessage [7] ⟨1, 1⟩, blockMessage 4 [4], blockMessage 5 [5],
      blockMessage 5 [3]]
    addAll (invalidationPolicy 1) seen = .ok
      ⟨[aliveMessage [7] ⟨1, 2⟩, blockMessage 5 [3], blockMessage 4 [4], blockMessage 5 [5]],
        [blockMessage 3 [1]]⟩ ∧
    ∃ s, addAll (invalidationPolicy 1) seen = .ok s ∧ Converged 1 seen s.messages := by
  refine ⟨by decide +kernel, ?_⟩
  obtain ⟨s, hs, hconv, -⟩ := addAll_converges 1
    [blockMessage 3 [1], aliveMessage [7] ⟨1, 2⟩, blockMessage 1 [2], blockMessage 5 [3],
      aliveMessage [7] ⟨1, 1⟩, blockMessage 4 [4], blockMessage 5 [5], blockMessage 5 [3]]
    (by decide)
  exact ⟨s, hs, hconv⟩

end Fabric.Gossip
