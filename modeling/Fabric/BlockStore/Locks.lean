import Fabric.BlockStore.Concurrent
import Fabric.Common.Lock

/-!
# The locks of the iterators

Which operations of the calls are under which lock, and that a call which waits for a block does
so only while the block is not published: the check and the start of the wait are under the lock
of the condition, and so is the publication.

## Main results

- `operates_stepNext`: what an operation of Next does under the locks
- `Guarded.step`, `guarded_of_run`: steps and runs keep the locks exclusive
-/

namespace Fabric.BlockStore

open Fabric.Common Option ClosePC

/-! ### Under the locks -/

/-- Operations of the writer under the lock of the condition. -/
def WriterPC.holdsCond : WriterPC → Bool
  | .publishNext _ | .publish _ => true
  | _ => false

def NextPC.holdsCond : NextPC → Bool
  | .checkBlock | .lockMarker | .checkMarker | .leave => true
  | _ => false

/-- Operations of `Next` under the lock of the marker. -/
def NextPC.holdsMarker : NextPC → Bool
  | .checkMarker | .begin | .openStream _ | .stat | .openFile | .peek _ | .read _ _ | .panicked =>
    true
  | _ => false

/-- `Next` has seen that its block is not there. -/
def NextPC.awaits : NextPC → Bool
  | .lockMarker | .checkMarker | .waiting => true
  | _ => false

def ClosePC.holdsCond : ClosePC → Bool
  | .finish | .panicked => true
  | _ => false

def ClosePC.holdsMarker : ClosePC → Bool
  | .lockCond | .finish | .panicked => true
  | _ => false

namespace Reader

variable {i : ℕ} {mgr mgr' : BlockfileMgr} {cond cond' : Option Holder} {r r' : Reader}
  {stream : BlockStream}

/-- The calls that are under the lock of the marker. -/
def inMarker (r : Reader) : Side → Prop
  | .next => r.next.holdsMarker
  | .close => r.close.holdsMarker

/-- The lock of the marker guards its part, and `Next` waits only for a block that is not
published. -/
structure Guarded (mgr : BlockfileMgr) (r : Reader) : Prop where
  marker : Guards r.closeMarkerLock r.inMarker
  closing : r.close.holdsMarker → r.itr.closeMarker = true
  awaits : r.next.awaits → mgr.cpInfo.lastBlockNumber < r.itr.blockNumToRetrieve

theorem guarded_start {startNum : ℕ} : (start mgr startNum).Guarded mgr := by
  refine ⟨fun side => iff_of_false (by simp [start]) ?_, ?_, ?_⟩
  · cases side <;> simp [start, inMarker, NextPC.holdsMarker, holdsMarker]
  · simp [start, holdsMarker]
  · simp [start, NextPC.awaits]

/-! ### Operations of `Next` -/

/-- What an operation of `Next` does to the locks, and what it leaves as it is. -/
structure Operates (i : ℕ) (mgr : BlockfileMgr) (cond : Option Holder) (r : Reader)
    (cond' : Option Holder) (r' : Reader) : Prop where
  startNum : r'.startNum = r.startNum
  close : r'.close = r.close
  closeMarker : r'.itr.closeMarker = r.itr.closeMarker
  stream : r.itr.stream ≠ none → r'.itr.stream ≠ none
  blockNum : r'.next ≠ .idle → r'.itr.blockNumToRetrieve = r.itr.blockNumToRetrieve
  cond : Passes (.next i) r.next.holdsCond r'.next.holdsCond cond cond'
  marker : Passes .next r.next.holdsMarker r'.next.holdsMarker r.closeMarkerLock r'.closeMarkerLock
  awaits : r'.next.awaits → r.next.awaits ∨ mgr.cpInfo.lastBlockNumber < r.itr.blockNumToRetrieve
  checkBlock : r'.next = .checkBlock → r.next = .lockCond
  lockMarker : r'.next = .lockMarker →
    r.next = .checkBlock ∧ mgr.cpInfo.lastBlockNumber < r.itr.blockNumToRetrieve

section

variable {itr : BlocksItr} {returned : List NextResult} {pc : NextPC}
  (hmarker : r.next.holdsMarker) (hcond : r.next.holdsCond = false)
  (hcloseMarker : itr.closeMarker = r.itr.closeMarker)
  (hstream : r.itr.stream ≠ none → itr.stream ≠ none)
include hmarker hcond hcloseMarker hstream

theorem Operates.of_returns : Operates i mgr cond r cond
    { r with itr, returned, closeMarkerLock := none, next := .idle } where
  startNum := rfl
  close := rfl
  closeMarker := hcloseMarker
  stream := hstream
  blockNum hnext := absurd rfl hnext
  cond := .keep (by rw [hcond]; rfl)
  marker := .release hmarker (by simp [NextPC.holdsMarker])
  awaits := by simp [NextPC.awaits]
  checkBlock := by simp
  lockMarker := by simp

theorem Operates.of_goes (hblockNum : itr.blockNumToRetrieve = r.itr.blockNumToRetrieve)
    (hmarker' : pc.holdsMarker) (hcond' : pc.holdsCond = false) (hawaits : pc.awaits = false) :
    Operates i mgr cond r cond { r with itr, next := pc } where
  startNum := rfl
  close := rfl
  closeMarker := hcloseMarker
  stream := hstream
  blockNum _ := hblockNum
  cond := .keep (by rw [hcond, hcond'])
  marker := .keep (by rw [hmarker, hmarker'])
  awaits := by simp [hawaits]
  checkBlock hnext := by simp [show pc = _ from hnext, NextPC.holdsCond] at hcond'
  lockMarker hnext := by simp [show pc = _ from hnext, NextPC.holdsCond] at hcond'

end

theorem operates_stepStream (h : r.stepStream mgr stream = some r') :
    Operates i mgr cond r cond r' := by
  have hin : r.next.holdsMarker = true ∧ r.next.holdsCond = false := by
    unfold stepStream at h
    cases hnext : r.next <;> simp [hnext, NextPC.holdsMarker, NextPC.holdsCond] at h ⊢
  obtain ⟨hmarker, hcond⟩ := hin
  unfold stepStream at h
  dsimp only at h
  repeat' split at h
  all_goals cases h
  all_goals
    first
      | exact .of_returns hmarker hcond rfl id
      | exact .of_returns hmarker hcond rfl fun _ => some_ne_none _
      | exact .of_goes hmarker hcond rfl id rfl rfl rfl rfl
      | exact .of_goes hmarker hcond rfl (fun _ => some_ne_none _) rfl rfl rfl rfl

theorem operates_stepWait (h : r.stepWait i mgr cond = some (cond', r')) :
    Operates i mgr cond r cond' r' := by
  unfold stepWait at h
  split at h
  · rename_i hnext
    split_ifs at h with hfree
    cases h
    subst hfree
    exact ⟨rfl, rfl, rfl, id, fun _ => rfl, .acquire rfl, .keep (by rw [hnext]; rfl),
      by simp [NextPC.awaits], fun _ => hnext, by simp⟩
  · rename_i hnext
    split_ifs at h with hwait
    · cases h
      exact ⟨rfl, rfl, rfl, id, fun _ => rfl, .keep (by rw [hnext]; rfl),
        .keep (by rw [hnext]; rfl),
        fun _ => .inr hwait, by simp, fun _ => ⟨hnext, hwait⟩⟩
    · cases h
      exact ⟨rfl, rfl, rfl, id, fun _ => rfl, .keep (by rw [hnext]; rfl),
        .keep (by rw [hnext]; rfl),
        by simp [NextPC.awaits], by simp, by simp⟩
  · rename_i hnext
    split_ifs at h with hfree
    cases h
    refine ⟨rfl, rfl, rfl, id, fun _ => rfl, .keep (by rw [hnext]; rfl), ?_,
      fun _ => .inl (by rw [hnext]; rfl), by simp, by simp⟩
    rw [hfree]
    exact .acquire rfl
  · rename_i hnext
    have hmarker : Passes Side.next r.next.holdsMarker false r.closeMarkerLock none :=
      .release (by rw [hnext]; rfl) (by simp)
    split_ifs at h
    · cases h
      exact ⟨rfl, rfl, rfl, id, fun _ => rfl, .keep (by rw [hnext]; rfl), hmarker,
        by simp [NextPC.awaits], by simp, by simp⟩
    · cases h
      exact ⟨rfl, rfl, rfl, id, fun _ => rfl,
        .release (by rw [hnext]; rfl) (by simp [NextPC.holdsCond]), hmarker,
        fun _ => .inl (by rw [hnext]; rfl), by simp, by simp⟩
  · rename_i hnext
    cases h
    exact ⟨rfl, rfl, rfl, id, fun _ => rfl,
      .release (by rw [hnext]; rfl) (by simp [NextPC.holdsCond]), .keep (by rw [hnext]; rfl),
      by simp [NextPC.awaits], by simp, by simp⟩
  · cases h

/-- Every operation of `Next` takes and gives back its locks in order. -/
theorem operates_stepNext (h : r.stepNext i mgr cond = some (cond', r')) :
    Operates i mgr cond r cond' r' := by
  unfold stepNext at h
  split at h
  · rename_i hnext
    split_ifs at h with hfree
    cases h
    refine ⟨rfl, rfl, rfl, id, fun _ => rfl, .keep (by rw [hnext]; rfl), ?_,
      by simp [NextPC.awaits], by simp, by simp⟩
    rw [hfree]
    exact .acquire rfl
  · rename_i hnext
    have hmarker : r.next.holdsMarker = true := by rw [hnext]; rfl
    have hcond : r.next.holdsCond = false := by rw [hnext]; rfl
    repeat' split at h
    all_goals
      cases h
      first
        | exact .of_returns hmarker hcond rfl id
        | exact .of_goes hmarker hcond rfl id rfl rfl rfl rfl
  · rename_i hnext
    have hmarker : r.next.holdsMarker = true := by rw [hnext]; rfl
    have hcond : r.next.holdsCond = false := by rw [hnext]; rfl
    split at h
    · cases h
      exact .of_returns hmarker hcond rfl id
    · cases h
      exact .of_goes hmarker hcond rfl (fun _ => some_ne_none _) rfl rfl rfl rfl
  iterate 4
    split at h
    · cases h
    · obtain ⟨r'', hstream, hresult⟩ := map_eq_some_iff.mp h
      cases hresult
      exact operates_stepStream hstream
  · exact operates_stepWait h

theorem Guarded.stepNext (h : r.Guarded mgr) (hstep : r.stepNext i mgr cond = some (cond', r')) :
    r'.Guarded mgr := by
  have hop := operates_stepNext hstep
  refine ⟨h.marker.of_passes hop.marker fun side hside => ?_, ?_, ?_⟩
  · cases side with
    | next => exact absurd rfl hside
    | close => rw [inMarker, inMarker, hop.close]
  · rw [hop.close, hop.closeMarker]
    exact h.closing
  · intro hawaits
    have hnext : r'.next ≠ .idle := fun hidle => by simp [hidle, NextPC.awaits] at hawaits
    rw [hop.blockNum hnext]
    exact (hop.awaits hawaits).elim h.awaits id

/-! ### Other steps of an iterator -/

theorem Guarded.call (h : r.Guarded mgr) (hcall : r.call = some r') :
    r'.Guarded mgr ∧ r'.close = r.close ∧ r'.next.holdsCond = r.next.holdsCond := by
  unfold Reader.call at hcall
  split_ifs at hcall with hidle hwait
  all_goals
    cases hcall
    refine ⟨⟨fun side => (h.marker side).trans ?_, h.closing, by simp [NextPC.awaits]⟩, rfl, ?_⟩
    · cases side <;> simp [inMarker, hidle, NextPC.holdsMarker]
    · simp [hidle, NextPC.holdsCond]

theorem Guarded.callClose (h : r.Guarded mgr) (hcall : r.callClose = some r') :
    r'.Guarded mgr ∧ r'.next = r.next ∧ r'.close.holdsCond = r.close.holdsCond := by
  unfold Reader.callClose at hcall
  split_ifs at hcall with hidle
  cases hcall
  refine ⟨⟨fun side => (h.marker side).trans ?_, by simp [holdsMarker], h.awaits⟩, rfl, ?_⟩
  · cases side <;> simp [inMarker, hidle, holdsMarker]
  · simp [hidle, holdsCond]

theorem Guarded.stepClose (h : r.Guarded mgr) (hstep : r.stepClose i cond = some (cond', r')) :
    r'.Guarded mgr ∧ r'.next = r.next ∧
      Passes (.close i) r.close.holdsCond r'.close.holdsCond cond cond' ∧
      (r'.close = .done → cond' = none) := by
  have hnext : ∀ {lock : Option Side} {itr : BlocksItr} {pc : ClosePC},
      Passes .close r.close.holdsMarker pc.holdsMarker r.closeMarkerLock lock →
      Guards lock
        ({ r with closeMarkerLock := lock, itr, close := pc }).inMarker := by
    intro lock itr pc hpass
    refine h.marker.of_passes hpass fun side hside => ?_
    cases side with
    | next => exact Iff.rfl
    | close => exact absurd rfl hside
  unfold Reader.stepClose at hstep
  split at hstep
  · rename_i hclose
    split_ifs at hstep with hfree
    cases hstep
    refine ⟨⟨hnext ?_, fun _ => rfl, h.awaits⟩, rfl, .keep (by rw [hclose]; rfl), by simp⟩
    rw [hfree]
    exact .acquire rfl
  · rename_i hclose
    split_ifs at hstep with hfree
    cases hstep
    subst hfree
    exact ⟨⟨hnext (.keep (by rw [hclose]; rfl)), fun _ =>
      h.closing (by rw [hclose]; rfl), h.awaits⟩,
      rfl, .acquire rfl, by simp⟩
  · rename_i hclose
    split at hstep
    · cases hstep
      exact ⟨⟨hnext (.keep (by rw [hclose]; rfl)), fun _ => h.closing (by rw [hclose]; rfl),
        h.awaits⟩, rfl, .keep (by rw [hclose]; rfl), by simp⟩
    · cases hstep
      exact ⟨⟨hnext (.release (by rw [hclose]; rfl) (by simp [holdsMarker])),
        by simp [holdsMarker], h.awaits⟩, rfl,
        .release (by rw [hclose]; rfl) (by simp [holdsCond]), fun _ => rfl⟩
  · cases hstep

theorem Guarded.wake (h : r.Guarded mgr) (hcond : r.next.holdsCond = false) :
    r.wake.Guarded mgr' ∧ r.wake.close = r.close ∧ r.wake.next.holdsCond = false := by
  unfold Reader.wake
  split_ifs with hwaiting
  · refine ⟨⟨fun side => (h.marker side).trans ?_, h.closing, by simp [NextPC.awaits]⟩, rfl, rfl⟩
    cases side <;> simp [inMarker, hwaiting, NextPC.holdsMarker]
  · refine ⟨⟨h.marker, h.closing, fun hawaits => ?_⟩, rfl, hcond⟩
    cases hnext : r.next <;> simp_all [NextPC.awaits, NextPC.holdsCond]

end Reader

/-! ### The process -/

namespace System

variable {hash : Bytes → Bytes} {σ σ' : System} {i : ℕ} {r r' : Reader} {cond' : Option Holder}
  {label : Label} {labels : List Label} {mgr : BlockfileMgr}

/-- The calls that are under the lock of the condition. -/
def inCond (σ : System) : Holder → Prop
  | .writer => σ.writer.holdsCond
  | .next i => ∃ r, σ.readers i = some r ∧ r.next.holdsCond
  | .close i => ∃ r, σ.readers i = some r ∧ r.close.holdsCond

/-- The locks guard their parts, and calls of `Next` wait only for blocks that are not
published. -/
structure Guarded (σ : System) : Prop where
  cond : Guards σ.cond σ.inCond
  readers : ∀ i r, σ.readers i = some r → r.Guarded σ.mgr

theorem guarded_start (mgr : BlockfileMgr) : (start mgr).Guarded := by
  refine ⟨fun holder => iff_of_false (by simp [start]) ?_, by simp [start]⟩
  cases holder <;> simp [start, inCond, WriterPC.holdsCond]

theorem readers_setReader (i j : ℕ) : (σ.setReader i r).readers j =
    if j = i then some r else σ.readers j := by
  by_cases hj : j = i
  · rw [if_pos hj, hj]
    exact Function.update_self ..
  · rw [if_neg hj]
    exact Function.update_of_ne hj ..

theorem forall_setReader {P : ℕ → Reader → Prop} (h : ∀ j r, σ.readers j = some r → P j r)
    (hr : P i r) : ∀ j r', (σ.setReader i r).readers j = some r' → P j r' := by
  intro j r' hj
  rw [readers_setReader] at hj
  split_ifs at hj with heq
  · cases hj
    rwa [heq]
  · exact h j r' hj

theorem inCond_next (h : σ.readers i = some r) : σ.inCond (.next i) ↔ r.next.holdsCond := by
  simp [inCond, h]

theorem inCond_close (h : σ.readers i = some r) : σ.inCond (.close i) ↔ r.close.holdsCond := by
  simp [inCond, h]

theorem inCond_setReader_next : (σ.setReader i r).inCond (.next i) ↔ r.next.holdsCond :=
  inCond_next (by rw [readers_setReader, if_pos rfl])

theorem inCond_setReader_close : (σ.setReader i r).inCond (.close i) ↔ r.close.holdsCond :=
  inCond_close (by rw [readers_setReader, if_pos rfl])

theorem inCond_setReader {holder : Holder} (hnext : holder ≠ .next i) (hclose : holder ≠ .close i) :
    (σ.setReader i r).inCond holder ↔ σ.inCond holder := by
  cases holder with
  | writer => exact Iff.rfl
  | next j =>
    have hj : j ≠ i := fun h => hnext (by rw [h])
    simp only [inCond, readers_setReader, if_neg hj]
  | close j =>
    have hj : j ≠ i := fun h => hclose (by rw [h])
    simp only [inCond, readers_setReader, if_neg hj]

theorem Guarded.setNext (h : σ.Guarded) (hr : σ.readers i = some r) (hr' : r'.Guarded σ.mgr)
    (hpass : Passes (.next i) r.next.holdsCond r'.next.holdsCond σ.cond cond')
    (hclose : r'.close.holdsCond = r.close.holdsCond) :
    Guarded { σ.setReader i r' with cond := cond' } := by
  refine ⟨?_, forall_setReader h.readers hr'⟩
  rw [← propext (inCond_next hr), ← propext (inCond_setReader_next)] at hpass
  refine h.cond.of_passes hpass fun holder hne => ?_
  by_cases heq : holder = .close i
  · rw [heq]
    exact inCond_setReader_close.trans (by rw [hclose, inCond_close hr])
  · exact inCond_setReader (σ := σ) hne heq

theorem Guarded.setClose (h : σ.Guarded) (hr : σ.readers i = some r) (hr' : r'.Guarded σ.mgr)
    (hpass : Passes (.close i) r.close.holdsCond r'.close.holdsCond σ.cond cond')
    (hnext : r'.next.holdsCond = r.next.holdsCond) :
    Guarded { σ.setReader i r' with cond := cond' } := by
  refine ⟨?_, forall_setReader h.readers hr'⟩
  rw [← propext (inCond_close hr), ← propext (inCond_setReader_close)] at hpass
  refine h.cond.of_passes hpass fun holder hne => ?_
  by_cases heq : holder = .next i
  · rw [heq]
    exact inCond_setReader_next.trans (by rw [hnext, inCond_next hr])
  · exact inCond_setReader (σ := σ) heq hne

/-- A broadcast wakes the calls that wait; nobody is under the lock then. -/
theorem guarded_broadcast (hfree : σ.cond = none) (hcond : Guards σ.cond σ.inCond)
    (hreaders : ∀ i r, σ.readers i = some r → r.Guarded mgr) : σ.broadcast.Guarded := by
  have hwake : ∀ i r, σ.readers i = some r → r.wake.Guarded σ.mgr ∧
      r.wake.close = r.close ∧ r.wake.next.holdsCond = false := by
    intro i r hr
    refine (hreaders i r hr).wake ?_
    by_contra hin
    have hlock := (hcond (.next i)).mpr ((inCond_next hr).mpr (by simpa using hin))
    rw [hfree] at hlock
    cases hlock
  refine ⟨fun holder => ?_, fun i r hmap => ?_⟩
  · have hlock : σ.broadcast.cond = none := hfree
    refine iff_of_false (by rw [hlock]; simp) fun hin => ?_
    have hout : ¬σ.inCond holder := by
      rw [← hcond, hfree]
      simp
    cases holder with
    | writer => exact hout hin
    | next i =>
      obtain ⟨_, hmap, hholds⟩ := hin
      obtain ⟨r, hr, rfl⟩ := map_eq_some_iff.mp hmap
      rw [(hwake i r hr).2.2] at hholds
      cases hholds
    | close i =>
      obtain ⟨_, hmap, hholds⟩ := hin
      obtain ⟨r, hr, rfl⟩ := map_eq_some_iff.mp hmap
      rw [(hwake i r hr).2.1] at hholds
      exact hout ⟨r, hr, hholds⟩
  · obtain ⟨r, hr, rfl⟩ := map_eq_some_iff.mp hmap
    exact (hwake i r hr).1

theorem Guarded.setWriter (h : σ.Guarded) (hreaders : σ'.readers = σ.readers)
    (hcpInfo : σ'.mgr.cpInfo = σ.mgr.cpInfo)
    (hpass : Passes .writer σ.writer.holdsCond σ'.writer.holdsCond σ.cond σ'.cond) :
    σ'.Guarded := by
  refine ⟨h.cond.of_passes hpass fun holder hne => ?_, fun i r hr => ?_⟩
  · cases holder with
    | writer => exact absurd rfl hne
    | next => simp only [inCond, hreaders]
    | close => simp only [inCond, hreaders]
  · rw [hreaders] at hr
    obtain ⟨hmarker, hclosing, hawaits⟩ := h.readers i r hr
    exact ⟨hmarker, hclosing, by rwa [hcpInfo]⟩

/-- A block is published under the lock, so no call is between its check and its wait. -/
theorem Guarded.publish (h : σ.Guarded) (hin : σ.writer.holdsCond) {writer : WriterPC}
    (hout : writer.holdsCond = false) (mgr : BlockfileMgr) :
    (broadcast { σ with mgr, cond := none, writer }).Guarded := by
  refine guarded_broadcast rfl ?_ h.readers
  refine h.cond.of_passes (a := .writer)
    (.release hin (by simp [inCond, hout])) fun holder hne => ?_
  cases holder with
  | writer => exact absurd rfl hne
  | next => exact Iff.rfl
  | close => exact Iff.rfl

theorem Guarded.stepWriter (h : σ.Guarded) (hstep : σ.stepWriter hash = some σ') : σ'.Guarded := by
  unfold System.stepWriter at hstep
  split at hstep
  case h_1 => cases hstep
  case h_5 hwriter | h_11 hwriter =>
    cases hstep
    exact h.publish (by rw [hwriter]; rfl) rfl _
  case h_4 hwriter | h_10 hwriter =>
    split_ifs at hstep with hfree
    cases hstep
    refine h.setWriter rfl rfl ?_
    rw [hfree]
    exact .acquire rfl
  case h_2 hwriter | h_6 hwriter | h_7 hwriter =>
    obtain ⟨disk, -, rfl⟩ := map_eq_some_iff.mp hstep
    exact h.setWriter rfl rfl (.keep (by rw [hwriter]; rfl))
  all_goals
    rename_i hwriter
    cases hstep
    exact h.setWriter rfl rfl (.keep (by rw [hwriter]; rfl))

theorem Guarded.stepClose (h : σ.Guarded) (hr : σ.readers i = some r)
    (hstep : σ.stepClose i r = some σ') : σ'.Guarded := by
  obtain ⟨⟨cond', r'⟩, hclose, rfl⟩ := map_eq_some_iff.mp hstep
  obtain ⟨hr', hnext, hpass, hfree⟩ := (h.readers i r hr).stepClose hclose
  have hset := h.setClose hr hr' hpass (by rw [hnext])
  split_ifs with hdone
  · -- `Close` gives back the lock with its broadcast
    exact guarded_broadcast (hfree hdone) hset.cond hset.readers
  · exact hset

/-- One operation of any call. -/
theorem Guarded.step (h : σ.Guarded) (hstep : σ.step hash label = some σ') : σ'.Guarded := by
  unfold System.step at hstep
  split_ifs at hstep
  cases label with
  | addBlock =>
    simp only [apply, beginBlock] at hstep
    split_ifs at hstep with hidle hsize
    all_goals
      cases hstep
      exact h.setWriter rfl rfl (.keep (by rw [hidle]; rfl))
  | write => exact h.stepWriter hstep
  | retrieveBlocks i =>
    simp only [apply] at hstep
    split at hstep
    · rename_i hnone
      cases hstep
      refine ⟨h.cond.of_passes (a := .next i) (.keep ?_) fun holder hne => ?_,
        forall_setReader h.readers Reader.guarded_start⟩
      · rw [inCond_setReader_next]
        simp [inCond, hnone, Reader.start, NextPC.holdsCond]
      · by_cases heq : holder = .close i
        · rw [heq, inCond_setReader_close]
          simp [inCond, hnone, Reader.start, holdsCond]
        · exact inCond_setReader hne heq
    · cases hstep
  | callNext i =>
    obtain ⟨r, r', hr, hcall, rfl⟩ := exists_reader hstep
    obtain ⟨hr', hclose, hnext⟩ := (h.readers i r hr).call hcall
    exact h.setNext hr hr' (.keep (by rw [hnext])) (by rw [hclose])
  | next i =>
    obtain ⟨r, ⟨cond', r'⟩, hr, hnext, rfl⟩ := exists_reader hstep
    have hop := Reader.operates_stepNext hnext
    exact h.setNext hr ((h.readers i r hr).stepNext hnext) hop.cond (by rw [hop.close])
  | callClose i =>
    obtain ⟨r, r', hr, hcall, rfl⟩ := exists_reader hstep
    obtain ⟨hr', hnext, hclose⟩ := (h.readers i r hr).callClose hcall
    exact h.setClose hr hr' (.keep (by rw [hclose])) (by rw [hnext])
  | close =>
    obtain ⟨r, hr, hclose⟩ := bind_eq_some_iff.mp hstep
    exact h.stepClose hr hclose

theorem guarded_of_run (hrun : (start mgr).run hash labels = some σ) : σ.Guarded :=
  run_induction (P := fun _ σ => σ.Guarded) (guarded_start mgr)
    (fun _ _ _ _ _ _ h hstep => h.step hstep) hrun

end System

end Fabric.BlockStore
