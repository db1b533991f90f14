import Fabric.Gossip.Discovery

/-!
# Membership stays consistent

Every known peer other than the peer itself is either alive or dead, and is cached on the side
it is on. The handler relies on this over several critical sections; what it has read stays true
while others declare peers dead, because that changes neither what is known nor the time that is
recorded.

## Main definitions

- `Consistent`: the two sides of the membership; `StageOk`: what a call in progress has read

## Main results

- `Stage.advance_spec`: a critical section keeps both
- `Sound.step`, `Sound.of_run`: so do steps and runs
-/

namespace Fabric.Gossip

open Fabric.Common List Function Alive

/-! ### One side of the membership -/

/-- The list has one message for each identity of the table. -/
structure Lists (lastTS : Bytes → Option Timestamp) (cached : List Alive) : Prop where
  nodup : (cached.map Alive.pkiID).Nodup
  mem_iff : ∀ id, id ∈ cached.map Alive.pkiID ↔ (lastTS id).isSome

namespace Lists

variable {lastTS : Bytes → Option Timestamp} {cached : List Alive} {a : Alive} {id : Bytes}
  {t : Timestamp}

theorem nil : Lists (fun _ => none) [] := ⟨nodup_nil, by simp⟩

theorem any_iff (h : Lists lastTS cached) :
    cached.any (Discovery.hasPKIid id) ↔ (lastTS id).isSome := by
  rw [← h.mem_iff]
  simp

/-- A peer that is new on this side. -/
theorem append (h : Lists lastTS cached) (hnew : lastTS a.pkiID = none) :
    Lists (update lastTS a.pkiID (some t)) (cached ++ [a]) := by
  have hnot : a.pkiID ∉ cached.map pkiID := by simp [h.mem_iff, hnew]
  refine ⟨?_, ?_⟩
  · rw [map_append]
    refine nodup_append.mpr ⟨h.nodup, by simp, ?_⟩
    rintro id hid id' hid' rfl
    exact hnot (mem_singleton.mp hid' ▸ hid)
  · intro id
    rw [map_append, mem_append, h.mem_iff]
    by_cases hid : id = a.pkiID
    · simp [hid]
    · simp [hid]

theorem map_eraseP (cached : List Alive) (id : Bytes) :
    (cached.eraseP (Discovery.hasPKIid id)).map pkiID = (cached.map pkiID).erase id := by
  induction cached with
  | nil => rfl
  | cons b _ ih =>
    by_cases hb : b.pkiID = id
    · simp [hb]
    · simp [hb, ih]

theorem erase (h : Lists lastTS cached) (id : Bytes) :
    Lists (update lastTS id none) (cached.eraseP (Discovery.hasPKIid id)) := by
  refine ⟨?_, ?_⟩
  · rw [map_eraseP]
    exact h.nodup.erase id
  · intro id'
    rw [map_eraseP, h.nodup.mem_erase_iff, h.mem_iff]
    by_cases hid : id' = id
    · simp [hid]
    · simp [hid]

/-- A newer message takes the place of the one with its identity. -/
theorem replace (h : Lists lastTS cached) (hmem : (lastTS a.pkiID).isSome) :
    Lists (update lastTS a.pkiID (some t)) (Discovery.replace cached a) := by
  -- the message is replaced in its place, by one with the same identity
  have hmap : (Discovery.replace cached a).map pkiID = cached.map pkiID := by
    unfold Discovery.replace
    cases hi : cached.findIdx? (Discovery.hasPKIid a.pkiID) with
    | none =>
      rw [List.findIdx?_eq_none_iff] at hi
      obtain ⟨b, hb, hid⟩ := any_eq_true.mp (h.any_iff.mpr hmem)
      exact absurd hid (by simp [hi b hb])
    | some i =>
      obtain ⟨hlt, hid, -⟩ := List.findIdx?_eq_some_iff_getElem.mp hi
      have hlt : i < (cached.map pkiID).length := by simpa using hlt
      have hget : (cached.map pkiID)[i] = a.pkiID := by simpa using hid
      rw [map_set, ← hget, set_getElem_self]
  refine ⟨hmap ▸ h.nodup, ?_⟩
  intro id
  rw [hmap, h.mem_iff]
  by_cases hid : id = a.pkiID
  · simpa [hid] using hmem
  · simp [hid]

theorem find (h : Lists lastTS cached) (hmem : (lastTS id).isSome) :
    ∃ b, cached.find? (Discovery.hasPKIid id) = some b ∧ b.pkiID = id := by
  obtain ⟨b, hb⟩ := Option.isSome_iff_exists.mp (List.find?_isSome.mpr
    (any_eq_true.mp (h.any_iff.mpr hmem)))
  exact ⟨b, hb, Discovery.hasPKIid_iff.mp (List.find?_some hb)⟩

end Lists

/-! ### Consistent tables -/

/-- No identity is on both sides; those on one are the known ones, and each side is cached. -/
structure Consistent (d : Discovery) : Prop where
  disjoint : ∀ id, ¬ ((d.aliveLastTS id).isSome ∧ (d.deadLastTS id).isSome)
  known : ∀ id, (d.aliveLastTS id).isSome ∨ (d.deadLastTS id).isSome ↔
    id ≠ d.pkiID ∧ (d.id2Member id).isSome
  alive : Lists d.aliveLastTS d.alive
  dead : Lists d.deadLastTS d.dead

/-- The time that is recorded for a peer, on either side. -/
def Discovery.recorded (d : Discovery) (id : Bytes) : Option Timestamp :=
  (d.aliveLastTS id).or (d.deadLastTS id)

/-- Recorded times do not decrease. -/
def Later (d d' : Discovery) : Prop :=
  ∀ id ts, d.recorded id = some ts → ∃ ts', d'.recorded id = some ts' ∧ ts.time.rank ≤ ts'.time.rank

def Alive.networkMember (a : Alive) : NetworkMember :=
  ⟨a.member.endpoint, a.member.metadata, a.member.pkiID⟩

variable {d d' : Discovery} {a : Alive} {id : Bytes} {t : PeerTime} {d'' : Discovery}

theorem Later.refl (d : Discovery) : Later d d := fun _ ts h => ⟨ts, h, le_rfl⟩

theorem Later.trans (h : Later d d') (h' : Later d' d'') : Later d d'' := by
  intro id ts hts
  obtain ⟨ts', hts', hle⟩ := h id ts hts
  obtain ⟨ts'', hts'', hle'⟩ := h' id ts' hts'
  exact ⟨ts'', hts'', hle.trans hle'⟩

theorem Later.of_update (id : Bytes) (hsame : ∀ id', id' ≠ id → d'.recorded id' = d.recorded id')
    (hlater : ∀ ts, d.recorded id = some ts →
      ∃ ts', d'.recorded id = some ts' ∧ ts.time.rank ≤ ts'.time.rank) : Later d d' := by
  intro id' ts hts
  by_cases hid : id' = id
  · subst hid
    exact hlater ts hts
  · exact ⟨ts, (hsame id' hid).trans hts, le_rfl⟩

namespace Consistent

theorem init (pkiID : Bytes) : Consistent (.newDiscovery pkiID) where
  disjoint := by simp [Discovery.newDiscovery]
  known := by simp [Discovery.newDiscovery]
  alive := Lists.nil
  dead := Lists.nil

section

variable (h : Consistent d) {ts : Timestamp}
include h

theorem unknown (hnew : d.id2Member id = none) :
    d.aliveLastTS id = none ∧ d.deadLastTS id = none := by
  have hnot := mt (h.known id).mp (by simp [hnew])
  simpa using hnot

theorem recorded_isSome : (d.recorded id).isSome ↔ id ≠ d.pkiID ∧ (d.id2Member id).isSome := by
  rw [← h.known, Discovery.recorded, Option.isSome_or, Bool.or_eq_true]

theorem recorded_of_dead (hdead : d.deadLastTS id = some ts) : d.recorded id = some ts := by
  have halive : d.aliveLastTS id = none := by
    have := h.disjoint id
    simpa [hdead] using this
  simp [Discovery.recorded, halive, hdead]

/-- A change of what is known of one peer. -/
theorem of_entry (id : Bytes) (hown : d'.pkiID = d.pkiID)
    (hsame : ∀ id', id' ≠ id → d'.aliveLastTS id' = d.aliveLastTS id' ∧
      d'.deadLastTS id' = d.deadLastTS id' ∧ d'.id2Member id' = d.id2Member id')
    (hdisjoint : ¬ ((d'.aliveLastTS id).isSome ∧ (d'.deadLastTS id).isSome))
    (hknown : (d'.aliveLastTS id).isSome ∨ (d'.deadLastTS id).isSome ↔
      id ≠ d'.pkiID ∧ (d'.id2Member id).isSome)
    (halive : Lists d'.aliveLastTS d'.alive) (hdead : Lists d'.deadLastTS d'.dead) :
    Consistent d' := by
  refine ⟨?_, ?_, halive, hdead⟩
  · intro id'
    by_cases hid : id' = id
    · exact hid ▸ hdisjoint
    · obtain ⟨ha, hd, -⟩ := hsame id' hid
      rw [ha, hd]
      exact h.disjoint id'
  · intro id'
    by_cases hid : id' = id
    · exact hid ▸ hknown
    · obtain ⟨ha, hd, hm⟩ := hsame id' hid
      rw [ha, hd, hm, hown]
      exact h.known id'

theorem learnAlive (hself : a.pkiID ≠ d.pkiID)
    (hnew : d.id2Member a.pkiID = none) (ts : Timestamp) :
    Consistent { d with
      aliveLastTS := update d.aliveLastTS a.pkiID (some ts)
      alive := d.alive ++ [a]
      id2Member := update d.id2Member a.pkiID (some a.networkMember) } := by
  obtain ⟨halive, hdead⟩ := h.unknown hnew
  refine h.of_entry a.pkiID rfl ?_ ?_ ?_ (h.alive.append halive) h.dead
  · intro id hid
    simp [hid]
  · simp [hdead]
  · simp [hself]

theorem learnDead (hself : a.pkiID ≠ d.pkiID) (hnew : d.id2Member a.pkiID = none) (ts : Timestamp) :
    Consistent { d with
      deadLastTS := update d.deadLastTS a.pkiID (some ts)
      dead := d.dead ++ [a]
      id2Member := update d.id2Member a.pkiID (some a.networkMember) } := by
  obtain ⟨halive, hdead⟩ := h.unknown hnew
  refine h.of_entry a.pkiID rfl ?_ ?_ ?_ h.alive (h.dead.append hdead)
  · intro id hid
    simp [hid]
  · simp [halive]
  · simp [hself]

theorem updateMember (hid : id = d.pkiID ∨ (d.id2Member id).isSome) (member : NetworkMember) :
    Consistent { d with id2Member := update d.id2Member id (some member) } := by
  refine h.of_entry id rfl ?_ (h.disjoint id) ?_ h.alive h.dead
  · intro id' hne
    simp [hne]
  · rw [show _ ↔ _ from h.known id]
    rcases hid with rfl | hid
    · simp
    · simp [hid]

theorem resurrect (hdead : (d.deadLastTS a.pkiID).isSome) (ts : Timestamp) : Consistent { d with
      aliveLastTS := update d.aliveLastTS a.pkiID (some ts)
      id2Member := update d.id2Member a.pkiID (some a.networkMember)
      deadLastTS := update d.deadLastTS a.pkiID none
      dead := d.dead.eraseP (Discovery.hasPKIid a.pkiID)
      alive := if d.alive.any (Discovery.hasPKIid a.pkiID) then d.alive else d.alive ++ [a] } := by
  have hself := ((h.known a.pkiID).mp (.inr hdead)).1
  have halive : d.aliveLastTS a.pkiID = none := by
    simpa [hdead] using h.disjoint a.pkiID
  have hany : ¬ d.alive.any (Discovery.hasPKIid a.pkiID) := by
    rw [h.alive.any_iff, halive]
    simp
  refine h.of_entry a.pkiID rfl ?_ ?_ ?_ ?_ (h.dead.erase a.pkiID)
  · intro id hid
    simp [hid]
  · simp
  · simp [hself]
  -- its message was among the dead only, so it is appended
  · simp only [if_neg hany]
    exact h.alive.append halive

theorem refresh (halive : (d.aliveLastTS a.pkiID).isSome) (ts : Timestamp) : Consistent { d with
      aliveLastTS := update d.aliveLastTS a.pkiID (some ts)
      alive := Discovery.replace d.alive a } := by
  refine h.of_entry a.pkiID rfl ?_ ?_ ?_ (h.alive.replace halive) h.dead
  · intro id hid
    simp [hid]
  · simpa [halive] using h.disjoint a.pkiID
  · simpa [halive] using h.known a.pkiID

theorem expire (halive : d.aliveLastTS id = some ts) : Consistent { d with
      deadLastTS := update d.deadLastTS id (some ts)
      aliveLastTS := update d.aliveLastTS id none
      dead := d.dead ++ (d.alive.find? (Discovery.hasPKIid id)).toList
      alive := d.alive.eraseP (Discovery.hasPKIid id) } := by
  have hsome : (d.aliveLastTS id).isSome := by simp [halive]
  obtain ⟨a, hfind, rfl⟩ := h.alive.find hsome
  have hdead : d.deadLastTS a.pkiID = none := by
    simpa [halive] using h.disjoint a.pkiID
  refine h.of_entry a.pkiID rfl ?_ ?_ ?_ (h.alive.erase a.pkiID) ?_
  · intro id hid
    simp [hid]
  · simp
  · simpa [halive] using h.known a.pkiID
  -- the message that was cached for it moves to the other list
  · rw [hfind]
    exact h.dead.append hdead

end

end Consistent

/-! ### Expirations -/

/-- What declaring peers dead leaves as it is. -/
structure Expired (d d' : Discovery) : Prop where
  pkiID : d'.pkiID = d.pkiID
  id2Member : d'.id2Member = d.id2Member
  recorded : ∀ id, d'.recorded id = d.recorded id
  dead : ∀ id ts, d.deadLastTS id = some ts → d'.deadLastTS id = some ts

theorem Expired.refl (d : Discovery) : Expired d d := ⟨rfl, rfl, fun _ => rfl, fun _ _ => id⟩

theorem Expired.trans (h : Expired d d') (h' : Expired d' d'') : Expired d d'' where
  pkiID := h'.pkiID.trans h.pkiID
  id2Member := h'.id2Member.trans h.id2Member
  recorded id := (h'.recorded id).trans (h.recorded id)
  dead id ts hts := h'.dead id ts (h.dead id ts hts)

theorem Expired.later (h : Expired d d') : Later d d' :=
  fun id ts hts => ⟨ts, (h.recorded id).trans hts, le_rfl⟩

theorem expireMember_spec (h : Consistent d) {members : List (Option NetworkMember)}
    (hmembers : members.all Option.isSome) (id : Bytes) :
    Consistent (Discovery.expireMember (d, members) id).1 ∧
    Expired d (Discovery.expireMember (d, members) id).1 ∧
    (Discovery.expireMember (d, members) id).2.all Option.isSome := by
  simp only [Discovery.expireMember]
  cases halive : d.aliveLastTS id with
  | none => exact ⟨h, Expired.refl d, hmembers⟩
  | some =>
    have hknown := ((h.known id).mp (.inl (by simp [halive]))).2
    have hdead : d.deadLastTS id = none := by
      simpa [halive] using h.disjoint id
    refine ⟨h.expire halive, ⟨rfl, rfl, ?_, ?_⟩, by simp_all⟩
    · intro id'
      by_cases hid : id' = id
      · simp [Discovery.recorded, hid, halive]
      · simp [Discovery.recorded, hid]
    · intro id' ts' hts'
      by_cases hid : id' = id
      · simp [hid, hdead] at hts'
      · simpa [hid] using hts'

/-- Declaring peers dead moves them to the other side, with the times recorded. -/
theorem expireDeadMembers_spec (h : Consistent d) (dead : List Bytes) :
    Consistent (d.expireDeadMembers dead).1 ∧ Expired d (d.expireDeadMembers dead).1 ∧
    (d.expireDeadMembers dead).2.all Option.isSome := by
  suffices hfold : ∀ (dead : List Bytes) (d : Discovery) (members : List (Option NetworkMember)),
      Consistent d → members.all Option.isSome →
      Consistent (dead.foldl Discovery.expireMember (d, members)).1 ∧
      Expired d (dead.foldl Discovery.expireMember (d, members)).1 ∧
      (dead.foldl Discovery.expireMember (d, members)).2.all Option.isSome from
    hfold dead d [] h rfl
  intro dead
  induction dead with
  | nil => exact fun d members h hmembers => ⟨h, Expired.refl d, hmembers⟩
  | cons id _ ih =>
    intro d members h hmembers
    obtain ⟨hcons, hexp, hsome⟩ := expireMember_spec h hmembers id
    obtain ⟨hcons', hexp', hsome'⟩ := ih _ _ hcons hsome
    exact ⟨hcons', hexp.trans hexp', hsome'⟩

/-! ### What the handler has read -/

variable {m : AliveMessage} {st : Stage}

theorem AliveMessage.exists_alive (h : m.isComplete) : ∃ a : Alive, m = a.message := by
  obtain ⟨_ | member, _ | time, signature⟩ := m
  · cases h
  · cases h
  · cases h
  · exact ⟨⟨member, time, signature⟩, rfl⟩

def Entry.isComplete : Entry → Bool
  | .alive m | .respond m => m.any AliveMessage.isComplete
  | .dead m => m.isComplete

/-- What the handler relies on in its next critical section. -/
def StageOk (d : Discovery) : Stage → Prop
  | .learnNew aliveMembers deadMembers =>
    (aliveMembers = [] ∧ deadMembers = []) ∨
    ∃ a : Alive, d.id2Member a.pkiID = none ∧
      ((aliveMembers = [a.message] ∧ deadMembers = [] ∧ a.pkiID ≠ d.pkiID) ∨
        (aliveMembers = [] ∧ deadMembers = [a.message]))
  | .lookup m | .lookupAlive m =>
    ∃ a : Alive, m = a.message ∧ a.pkiID ≠ d.pkiID ∧ (d.id2Member a.pkiID).isSome
  | .resurrect m t =>
    ∃ a : Alive, m = a.message ∧ t = a.time ∧
      ∃ ts, d.deadLastTS a.pkiID = some ts ∧ ts.time.rank < a.time.rank
  | .learnExisting m =>
    ∃ a : Alive, m = a.message ∧ ∃ ts, d.recorded a.pkiID = some ts ∧ ts.time.rank < a.time.rank

theorem StageOk.expired (h : StageOk d st) (hexp : Expired d d') : StageOk d' st := by
  cases st with
  | learnNew =>
    simpa only [StageOk, hexp.id2Member, hexp.pkiID] using h
  | lookup m | lookupAlive m => simpa only [StageOk, hexp.id2Member, hexp.pkiID] using h
  | resurrect =>
    obtain ⟨a, hm, ht, ts, hts, hlt⟩ := h
    exact ⟨a, hm, ht, ts, hexp.dead _ _ hts, hlt⟩
  | learnExisting =>
    obtain ⟨a, hm, ts, hts, hlt⟩ := h
    exact ⟨a, hm, ts, (hexp.recorded _).trans hts, hlt⟩

@[simp] theorem Alive.read_membership (a : Alive) :
    read .membership a.message.membership = .ok a.member := rfl

@[simp] theorem Alive.read_timestamp (a : Alive) :
    read .timestamp a.message.timestamp = .ok a.time := rfl

theorem Entry.start_alive (validate : AliveMessage → Bool) (d : Discovery) (a : Alive) :
    Entry.start validate d (.alive (some a.message)) = .ok
      (if ¬ validate a.message ∨ a.pkiID = d.pkiID then none
        else if (d.id2Member a.pkiID).isNone then some (.learnNew [a.message] [])
        else some (.lookup a.message)) := by
  simp only [Entry.start, read_some, ok_bind]
  split_ifs <;> simp_all

theorem Entry.start_dead (validate : AliveMessage → Bool) (d : Discovery) (a : Alive) :
    Entry.start validate d (.dead a.message) = .ok
      (if ¬ validate a.message then none
        else if (d.id2Member a.pkiID).isNone then some (.learnNew [] [a.message])
        else some (.learnNew [] [])) := by
  simp only [Entry.start]
  split_ifs <;> simp_all

/-- The first critical section leaves what the next one relies on. -/
theorem Entry.start_spec (validate : AliveMessage → Bool) (d : Discovery) {e : Entry}
    (he : e.isComplete) :
    ∃ st, e.start validate d = .ok st ∧ ∀ st', st = some st' → StageOk d st' := by
  cases e with
  | alive m =>
    obtain _ | m := m
    · cases he
    obtain ⟨a, rfl⟩ := AliveMessage.exists_alive he
    refine ⟨_, Entry.start_alive validate d a, ?_⟩
    intro st hst
    split_ifs at hst with hskip hnew
    · cases hst
      push Not at hskip
      exact .inr ⟨a, by simpa using hnew, .inl ⟨rfl, rfl, hskip.2⟩⟩
    · cases hst
      push Not at hskip
      exact ⟨a, rfl, hskip.2, by simpa [Option.isSome_iff_ne_none] using hnew⟩
  | dead =>
    obtain ⟨a, rfl⟩ := AliveMessage.exists_alive he
    refine ⟨_, Entry.start_dead validate d a, ?_⟩
    intro st hst
    split_ifs at hst with hskip hnew
    · cases hst
      exact .inr ⟨a, by simpa using hnew, .inr ⟨rfl, rfl⟩⟩
    · cases hst
      exact .inl ⟨rfl, rfl⟩
  | respond m =>
    obtain _ | m := m
    · cases he
    obtain ⟨a, rfl⟩ := AliveMessage.exists_alive he
    exact ⟨none, rfl, by simp⟩

/-! ### What the handler changes -/

/-- What a critical section may do: tables stay consistent, times do not decrease, and what was read
can be relied on. -/
structure Handled (d d' : Discovery) (next : Option Stage) : Prop where
  consistent : Consistent d'
  later : Later d d'
  next : ∀ st, next = some st → StageOk d' st

open Later

theorem Handled.read (h : Consistent d) {next : Option Stage}
    (hnext : ∀ st, next = some st → StageOk d st) : Handled d d next := ⟨h, refl d, hnext⟩

theorem learnNewMembers_alive (hself : a.pkiID ≠ d.pkiID) :
    d.learnNewMembers [a.message] [] = .ok { d with
      aliveLastTS := update d.aliveLastTS a.pkiID (some (.ofPeerTime a.time))
      alive := d.alive ++ [a]
      id2Member := update d.id2Member a.pkiID (some a.networkMember) } := by
  simp only [Discovery.learnNewMembers, foldlM_cons, Discovery.learnAlive, read_membership, ok_bind]
  rw [if_neg hself]
  rfl

theorem learnNewMembers_dead (hself : a.pkiID ≠ d.pkiID) :
    d.learnNewMembers [] [a.message] = .ok { d with
      deadLastTS := update d.deadLastTS a.pkiID (some (.ofPeerTime a.time))
      dead := d.dead ++ [a]
      id2Member := update d.id2Member a.pkiID (some a.networkMember) } := by
  simp only [Discovery.learnNewMembers, foldlM_cons, foldlM_nil, Discovery.learnDead,
    read_membership, ok_bind, pure_eq_ok]
  rw [if_neg hself]
  rfl

theorem learnNewMembers_self (hself : a.pkiID = d.pkiID) :
    d.learnNewMembers [] [a.message] = .ok { d with
      id2Member := update d.id2Member a.pkiID (some a.networkMember) } := by
  have hlearn : d.learnDead a.message = .ok d := by
    simp only [Discovery.learnDead, read_membership, ok_bind, pure_eq_ok]
    rw [if_pos hself]
  simp only [Discovery.learnNewMembers, foldlM_cons, foldlM_nil, hlearn, ok_bind, pure_eq_ok]
  rfl

theorem learnNew_handled (h : Consistent d) {aliveMembers deadMembers : List AliveMessage}
    (hst : StageOk d (.learnNew aliveMembers deadMembers)) :
    ∃ d', d.learnNewMembers aliveMembers deadMembers = .ok d' ∧ Handled d d' none := by
  rcases hst with ⟨rfl, rfl⟩ | ⟨a, hnew, ⟨rfl, rfl, hself⟩ | ⟨rfl, rfl⟩⟩
  · exact ⟨d, rfl, Handled.read h (by simp)⟩
  -- nothing was recorded for a new peer, so nothing can decrease
  · refine ⟨_, learnNewMembers_alive hself, h.learnAlive hself hnew _, ?_, by simp⟩
    apply of_update a.pkiID
    · intro id hid
      simp [Discovery.recorded, hid]
    · intro ts hts
      simp [Discovery.recorded, h.unknown hnew] at hts
  · by_cases hself : a.pkiID = d.pkiID
    · exact ⟨_, learnNewMembers_self hself, h.updateMember (.inl hself) _, refl d, by simp⟩
    · refine ⟨_, learnNewMembers_dead hself, h.learnDead hself hnew _, ?_, by simp⟩
      apply of_update a.pkiID
      · intro id hid
        simp [Discovery.recorded, hid]
      · intro ts hts
        simp [Discovery.recorded, h.unknown hnew] at hts

/-- A dead peer comes back with a later time. -/
theorem resurrect_handled (h : Consistent d) (hst : StageOk d (.resurrect m t)) :
    ∃ d', d.resurrectMember m t = .ok d' ∧ Handled d d' none := by
  obtain ⟨a, rfl, rfl, ts, hdead, hlt⟩ := hst
  refine ⟨_, rfl, h.resurrect (by simp [hdead]) _, ?_, by simp⟩
  apply of_update a.pkiID
  · intro id hid
    simp [Discovery.recorded] at hid ⊢
    simp [hid]
  · intro ts' hts'
    obtain rfl : ts = ts' := by simpa [h.recorded_of_dead hdead] using hts'
    refine ⟨.ofPeerTime a.time, by simp [Discovery.recorded], ?_⟩
    simpa using hlt.le

theorem learnExistingMembers_eq {member : NetworkMember}
    (hmember : d.id2Member a.pkiID = some member) :
    let d₁ := { d with
      id2Member := update d.id2Member a.pkiID
        (some { member with endpoint := a.member.endpoint, metadata := a.member.metadata }) }
    d.learnExistingMembers a.message = .ok
      (if (d.deadLastTS a.pkiID).isSome ∨ (d.aliveLastTS a.pkiID).isNone then d₁
        else { d₁ with
          aliveLastTS := update d.aliveLastTS a.pkiID (some (.ofPeerTime a.time))
          alive := Discovery.replace d.alive a }) := by
  intro d₁
  simp only [Discovery.learnExistingMembers, read_membership, hmember, ok_bind, pure_eq_ok]
  by_cases hdead : (d.deadLastTS a.pkiID).isSome
  · rw [if_pos hdead, if_pos (.inl hdead)]
  · rw [if_neg hdead]
    by_cases halive : (d.aliveLastTS a.pkiID).isNone
    · rw [if_pos halive, if_pos (.inr halive)]
    · rw [if_neg halive, if_neg (by tauto)]
      rfl

theorem learnExisting_handled (h : Consistent d) (hst : StageOk d (.learnExisting m)) :
    ∃ d', d.learnExistingMembers m = .ok d' ∧ Handled d d' none := by
  obtain ⟨a, rfl, ts, hts, hlt⟩ := hst
  have hsome : (d.recorded a.pkiID).isSome := by simp [hts]
  obtain ⟨-, hknown⟩ := h.recorded_isSome.mp hsome
  obtain ⟨member, hmember⟩ := Option.isSome_iff_exists.mp hknown
  have hcons := h.updateMember (.inr hknown)
    { member with endpoint := a.member.endpoint, metadata := a.member.metadata }
  refine ⟨_, learnExistingMembers_eq hmember, ?_⟩
  split_ifs with hexpired
  -- it was declared dead since the lookup: only its data are updated
  · exact ⟨hcons, refl d, by simp⟩
  · push Not at hexpired
    obtain ⟨-, halive⟩ := hexpired
    have halive : (d.aliveLastTS a.pkiID).isSome := by
      simpa [Option.isSome_iff_ne_none] using halive
    refine ⟨hcons.refresh halive _, ?_, by simp⟩
    apply of_update a.pkiID
    · intro id hid
      simp [Discovery.recorded, hid]
    · intro ts' hts'
      obtain rfl : ts = ts' := by simpa [hts] using hts'
      refine ⟨.ofPeerTime a.time, by simp [Discovery.recorded], ?_⟩
      simpa using hlt.le

/-- A peer is looked up on both sides. The two panics contradict what is known about it. -/
theorem lookup_handled (h : Consistent d) (hst : StageOk d (.lookup m)) :
    ∃ next, Stage.advance d (.lookup m) = .ok (d, next) ∧ Handled d d next := by
  obtain ⟨a, rfl, hself, hknown⟩ := hst
  have hside := (h.known a.pkiID).mpr ⟨hself, hknown⟩
  have hdisj := h.disjoint a.pkiID
  simp only [Stage.advance, read_membership, read_timestamp, ok_bind]
  cases halive : d.aliveLastTS a.pkiID with
  | some =>
    cases hdead : d.deadLastTS a.pkiID with
    | some => exact absurd ⟨by simp [halive], by simp [hdead]⟩ hdisj
    | none =>
      refine ⟨_, rfl, Handled.read h ?_⟩
      rintro st ⟨⟩
      exact ⟨a, rfl, hself, hknown⟩
  | none =>
    cases hdead : d.deadLastTS a.pkiID with
    | none => simp [halive, hdead] at hside
    | some lastDeadTS =>
      by_cases hbefore : before lastDeadTS a.time
      · refine ⟨_, by simp only [hbefore]; rfl, Handled.read h ?_⟩
        rintro st ⟨⟩
        exact ⟨a, rfl, rfl, lastDeadTS, hdead, before_iff.mp hbefore⟩
      · exact ⟨none, by simp [hbefore], Handled.read h (by simp)⟩

theorem lookupAlive_handled (h : Consistent d) (hst : StageOk d (.lookupAlive m)) :
    ∃ next, Stage.advance d (.lookupAlive m) = .ok (d, next) ∧ Handled d d next := by
  obtain ⟨a, rfl, hself, hknown⟩ := hst
  simp only [Stage.advance, read_membership, read_timestamp, ok_bind]
  cases halive : d.aliveLastTS a.pkiID with
  | none => exact ⟨none, rfl, Handled.read h (by simp)⟩
  | some lastAliveTS =>
    by_cases hbefore : before lastAliveTS a.time
    · refine ⟨_, by simp only [hbefore]; rfl, Handled.read h ?_⟩
      rintro st ⟨⟩
      exact ⟨a, rfl, lastAliveTS, by simp [Discovery.recorded, halive], before_iff.mp hbefore⟩
    · exact ⟨none, by simp [hbefore], Handled.read h (by simp)⟩

/-- A critical section that finds what it relies on does not panic, and no time decreases. -/
theorem Stage.advance_spec (h : Consistent d) (hst : StageOk d st) :
    ∃ d' next, st.advance d = .ok (d', next) ∧ Handled d d' next := by
  cases st with
  | learnNew =>
    obtain ⟨d', heq, hd'⟩ := learnNew_handled h hst
    exact ⟨d', none, by simp [Stage.advance, heq], hd'⟩
  | lookup =>
    obtain ⟨next, heq, hd⟩ := lookup_handled h hst
    exact ⟨d, next, heq, hd⟩
  | resurrect =>
    obtain ⟨d', heq, hd'⟩ := resurrect_handled h hst
    exact ⟨d', none, by simp [Stage.advance, heq], hd'⟩
  | lookupAlive =>
    obtain ⟨next, heq, hd⟩ := lookupAlive_handled h hst
    exact ⟨d, next, heq, hd⟩
  | learnExisting =>
    obtain ⟨d', heq, hd'⟩ := learnExisting_handled h hst
    exact ⟨d', none, by simp [Stage.advance, heq], hd'⟩

/-! ### Whole runs -/

/-- The invariant: the tables agree, and what the handler has read is still true. -/
structure Sound (s : Node) : Prop where
  consistent : Consistent s.disc
  entries : ∀ e ∈ s.entries, e.isComplete
  stage : ∀ st, s.stage = some st → StageOk s.disc st
  crash : s.crash = none

theorem handleMsgFromComm_complete {m : GossipMessage} (h : m.isComplete) :
    ∀ e ∈ handleMsgFromComm m, e.isComplete := by
  intro e he
  unfold handleMsgFromComm at he
  unfold GossipMessage.isComplete at h
  split at he
  case h_1 hm =>
    simp only [hm] at h
    rcases mem_cons.mp he with rfl | he
    · exact h
    · rw [mem_singleton.mp he]
      exact h
  case h_2 hm =>
    simp only [hm] at h
    rw [mem_singleton.mp he]
    exact h
  case h_3 hm =>
    simp only [hm, all_eq_true, mem_append] at h
    rcases mem_append.mp he with he | he
    · obtain ⟨alive, hmem, rfl⟩ := mem_map.mp he
      exact h alive (.inl hmem)
    · obtain ⟨dead, hmem, rfl⟩ := mem_map.mp he
      exact h dead (.inr hmem)
  case h_4 => cases he

variable {validate : AliveMessage → Bool} {s s' : Node} {label : NodeLabel}

theorem Sound.init (pkiID : Bytes) : Sound (.newNode pkiID) where
  consistent := Consistent.init pkiID
  entries _ h := by cases h
  stage _ h := by cases h
  crash := rfl

/-- One critical section of the handler, or of the check for dead peers. -/
theorem Sound.step (h : Sound s) (hlabel : ∀ m, label = .receive m → m.isComplete)
    (hstep : s.step validate label = some s') : Sound s' ∧ Later s.disc s'.disc := by
  cases label with simp only [Node.step] at hstep
  | receive m =>
    split at hstep
    case isTrue =>
      cases hstep
      exact ⟨⟨h.consistent, handleMsgFromComm_complete (hlabel m rfl), h.stage, h.crash⟩, refl _⟩
    case isFalse => cases hstep
  | start =>
    split at hstep
    case h_1 e entries _ _ hentries =>
      have he : e ∈ s.entries := by simp [hentries]
      obtain ⟨st, hst, hnext⟩ := e.start_spec validate s.disc (h.entries e he)
      rw [hst] at hstep
      cases hstep
      refine ⟨⟨h.consistent, ?_, hnext, h.crash⟩, refl _⟩
      intro e' he'
      exact h.entries e' (by simp [hentries, he'])
    case h_2 => cases hstep
  | advance =>
    split at hstep
    case h_1 st _ hst =>
      obtain ⟨d', next, heq, hd'⟩ := Stage.advance_spec h.consistent (h.stage st hst)
      rw [heq] at hstep
      cases hstep
      exact ⟨⟨hd'.consistent, h.entries, hd'.next, h.crash⟩, hd'.later⟩
    case h_2 => cases hstep
  | expire dead =>
    split at hstep
    case isTrue =>
      cases hstep
      -- the handler may be between two critical sections
      obtain ⟨hcons, hexp, hmembers⟩ := expireDeadMembers_spec h.consistent dead
      exact ⟨⟨hcons, h.entries, fun st hst => (h.stage st hst).expired hexp, by simp [hmembers]⟩,
        hexp.later⟩
    case isFalse => cases hstep

/-- Every message that is received has all its parts. -/
def Receives (_ : Node) (label : NodeLabel) : Prop := ∀ m, label = .receive m → m.isComplete

theorem Sound.of_run (h : Sound s) {labels : List NodeLabel}
    (hcomplete : ∀ m, .receive m ∈ labels → m.isComplete)
    (hrun : runSteps (Node.step validate) s labels = some s') :
    Sound s' ∧ Later s.disc s'.disc := by
  have halong : Along (Node.step validate) Receives s labels :=
    along_of_forall_mem fun label hlabel _ m hm => hcomplete m (hm ▸ hlabel)
  refine runSteps_invariant (I := fun s' => Sound s' ∧ Later s.disc s'.disc) ⟨h, refl _⟩
    ?_ halong hrun
  rintro s₁ label s₂ hlabel ⟨h₁, hlater⟩ hstep
  obtain ⟨h₂, hlater'⟩ := h₁.step hlabel hstep
  exact ⟨h₂, hlater.trans hlater'⟩

/-- Between any two critical sections the tables agree, and nothing has stopped the process. -/
theorem membership_consistent (validate : AliveMessage → Bool) (pkiID : Bytes)
    (labels : List NodeLabel) (hcomplete : ∀ m, .receive m ∈ labels → m.isComplete)
    (hrun : runSteps (Node.step validate) (.newNode pkiID) labels = some s) :
    Consistent s.disc ∧ s.crash = none := by
  obtain ⟨h, -⟩ := (Sound.init pkiID).of_run hcomplete hrun
  exact ⟨h.consistent, h.crash⟩

/-- A sign of life with a time. -/
def signOfLife (pkiID : Bytes) (time : PeerTime) : Alive := ⟨⟨[9], [], pkiID⟩, time, []⟩

/-- A peer is learned, expires, comes back with a later message, and is called dead by others. -/
theorem membership_consistent_resurrected : ∃ s, runSteps (Node.step fun _ => true) (.newNode [1])
      [.receive ⟨0, some (.aliveMsg (signOfLife [2] ⟨1, 1⟩).message)⟩, .start, .advance,
        .expire [[2], [3]], .receive ⟨0, some (.aliveMsg (signOfLife [2] ⟨1, 1⟩).message)⟩,
        .start, .advance, .receive ⟨0, some (.memRes ⟨[(signOfLife [2] ⟨1, 2⟩).message],
          [(signOfLife [2] ⟨1, 3⟩).message, (signOfLife [1] ⟨1, 3⟩).message]⟩)⟩,
        .start, .advance, .advance, .start, .advance, .start, .advance] = some s ∧
      (s.disc.alive, s.disc.dead) = ([signOfLife [2] ⟨1, 2⟩], []) ∧
      Consistent s.disc ∧ s.crash = none := by
  refine exists_and_of_checked (fun _ => True) (by decide +kernel) ?_
  rintro s hs -
  exact membership_consistent _ [1] _ (by simp +decide) hs

end Fabric.Gossip
