import Fabric.BlockStore.Interleaving

/-!
# Closing an iterator

`Close` takes the lock of the marker and then that of the condition; a `Next` that finds its block
missing takes them the other way round. And `Close` closes the stream of the iterator, which a
`Next` has not opened yet if it never came so far.
-/

namespace Fabric.BlockStore

open Fabric.Common Option Fabric.BlockStore.System

variable {hash : Bytes → Bytes} {attrs : List IndexableAttr} {l v : Layout}
  {mgr mgr' : BlockfileMgr}

/-! ### Waiting for each other -/

/-- The locks of an iterator. -/
inductive ItrLock
  | cond
  | marker
deriving DecidableEq

/-- The lock that `Next` asks for. -/
def NextPC.wants : NextPC → Option ItrLock
  | .lockCond => some .cond
  | .lockMarker | .enter => some .marker
  | _ => none

theorem NextPC.eq_lockMarker {pc : NextPC} {x : ItrLock} (hcond : pc.holdsCond)
    (hwants : pc.wants = some x) : pc = .lockMarker := by
  cases pc <;> simp_all [NextPC.holdsCond, NextPC.wants]

/-- The lock that `Close` asks for. -/
def ClosePC.wants : ClosePC → Option ItrLock
  | .lockMarker => some .marker
  | .lockCond => some .cond
  | _ => none

namespace System

/-- A call on an iterator has a lock. -/
def Has (σ : System) (i : ℕ) (r : Reader) : Side → ItrLock → Prop
  | .next, .cond => σ.cond = some (.next i)
  | .close, .cond => σ.cond = some (.close i)
  | side, .marker => r.closeMarkerLock = some side

/-- `Next` and `Close` each wait for a lock that the other has. -/
def Deadlocked (σ : System) (i : ℕ) : Prop :=
  ∃ r x y, σ.readers i = some r ∧ r.next.wants = some x ∧ σ.Has i r .close x ∧
    r.close.wants = some y ∧ σ.Has i r .next y

end System

namespace Reader

variable {i : ℕ} {cond cond' : Option Holder} {r r' : Reader}

/-- `Next` is on its way to the lock of the marker, with the lock of the condition. -/
def Asks (mgr : BlockfileMgr) (r : Reader) : Prop :=
  r.next = .lockMarker ∨
    r.next = .checkBlock ∧ mgr.cpInfo.lastBlockNumber < r.itr.blockNumToRetrieve

end Reader

/-- `Close` begins when the stream is open and `Next` is not on its way to the marker's lock, and
`Next` does not set out for it while `Close` waits for the lock of the condition. -/
def System.ClosesSafely (σ : System) : System.Label → Prop
  | .close i => ∀ r ∈ σ.readers i, r.close = .lockMarker → r.itr.stream ≠ none ∧ ¬r.Asks σ.mgr
  | .next i => ∀ r ∈ σ.readers i, r.next = .lockCond → r.close = .lockCond →
    r.itr.blockNumToRetrieve ≤ σ.mgr.cpInfo.lastBlockNumber
  | _ => True

instance (mgr : BlockfileMgr) (r : Reader) : Decidable (r.Asks mgr) :=
  inferInstanceAs (Decidable (_ ∨ _))

instance (σ : System) (label : System.Label) : Decidable (σ.ClosesSafely label) := by
  cases label <;> unfold System.ClosesSafely <;> infer_instance

/-! ### Iterators that find no block -/

/-- `Next` has not begun to open a stream. -/
def NextPC.streamless : NextPC → Bool
  | .idle | .lockCond | .checkBlock | .lockMarker | .checkMarker | .waiting | .leave | .enter
  | .begin => true
  | _ => false

namespace Reader

variable {i : ℕ} {cond cond' : Option Holder} {r r' : Reader}

/-- The iterator never opens a stream: there is no block zero, and without their numbers in the
index blocks are not found. -/
structure Fails (mgr : BlockfileMgr) (r : Reader) : Prop where
  blockNum : r.itr.blockNumToRetrieve = 0 ∨ .blockNum ∉ mgr.attrs
  stream : r.itr.stream = none
  next : r.next.streamless

theorem Fails.stepWait (h : r.Fails mgr) (hstep : r.stepWait i mgr cond = some (cond', r')) :
    r'.Fails mgr := by
  unfold Reader.stepWait at hstep
  repeat' split at hstep
  all_goals cases hstep
  all_goals exact ⟨h.blockNum, h.stream, rfl⟩

theorem Fails.stepNext (h : r.Fails mgr)
    (hlookup : ∃ e, getBlockLocByBlockNum mgr.attrs mgr.db r.itr.blockNumToRetrieve = .error e)
    (hstep : r.stepNext i mgr cond = some (cond', r')) : r'.Fails mgr := by
  have hpc := h.next
  unfold Reader.stepNext at hstep
  cases hnext : r.next <;> rw [hnext] at hstep hpc <;> dsimp only at hstep
  case enter =>
    split_ifs at hstep
    cases hstep
    exact ⟨h.blockNum, h.stream, rfl⟩
  case begin =>
    obtain ⟨e, hlookup⟩ := hlookup
    rw [h.stream, hlookup] at hstep
    split_ifs at hstep <;> cases hstep <;> exact ⟨h.blockNum, h.stream, rfl⟩
  case openStream | stat | openFile | peek | read | panicked => cases hpc
  all_goals exact h.stepWait hstep

/-! ### Closing -/

/-- Whatever the calls do next, they do not get in each other's way. -/
structure Closes (mgr : BlockfileMgr) (r : Reader) : Prop where
  fails : r.startNum = 0 ∨ .blockNum ∉ mgr.attrs → r.Fails mgr
  stream : r.close.holdsMarker → r.itr.stream ≠ none
  asks : r.close = .lockCond → ¬r.Asks mgr
  alive : r.panicked = false

theorem closes_start {startNum : ℕ} : (start mgr startNum).Closes mgr where
  fails := fun hfails => ⟨hfails, rfl, rfl⟩
  stream := by simp [start, ClosePC.holdsMarker]
  asks := by simp [start]
  alive := rfl

section

variable (h : r.Closes mgr)
include h

theorem Closes.call (hcall : r.call = some r') : r'.Closes mgr := by
  have halive := h.alive
  unfold Reader.call at hcall
  split_ifs at hcall with hidle hwait
  all_goals
    cases hcall
    refine ⟨fun hfails => ⟨(h.fails hfails).1, (h.fails hfails).2, rfl⟩, h.stream, ?_, ?_⟩
    · simp [Asks]
    · simpa [Reader.panicked, hidle] using halive

theorem Closes.callClose (hcall : r.callClose = some r') : r'.Closes mgr := by
  have halive := h.alive
  unfold Reader.callClose at hcall
  split_ifs at hcall with hidle
  cases hcall
  refine ⟨fun hfails => ⟨(h.fails hfails).1, (h.fails hfails).2, (h.fails hfails).3⟩, ?_, ?_, ?_⟩
  · simp [ClosePC.holdsMarker]
  · simp
  · simpa [Reader.panicked, hidle] using halive

/-- An operation of `Next`, which does not set out for the marker's lock while `Close` waits. -/
theorem Closes.stepNext (hop : Operates i mgr cond r cond' r')
    (hfails : r.startNum = 0 ∨ .blockNum ∉ mgr.attrs → r'.Fails mgr) (halive : r'.next ≠ .panicked)
    (hsafe : r.next = .lockCond → r.close = .lockCond →
      r.itr.blockNumToRetrieve ≤ mgr.cpInfo.lastBlockNumber) : r'.Closes mgr := by
  refine ⟨by rwa [hop.startNum], ?_, ?_, ?_⟩
  · rw [hop.close]
    exact fun hholds => hop.stream (h.stream hholds)
  · rw [hop.close]
    rintro hclose (hlock | ⟨hcheck, hlt⟩)
    · exact h.asks hclose (.inr (hop.lockMarker hlock))
    · rw [hop.blockNum (by simp [hcheck])] at hlt
      exact absurd (hsafe (hop.checkBlock hcheck) hclose) (Nat.not_le.mpr hlt)
  · have hclose := h.alive
    rw [Reader.panicked, Bool.or_eq_false_iff, decide_eq_false_iff_not] at *
    exact ⟨halive, by rw [hop.close]; exact hclose.2⟩

/-- An operation of `Close`, which begins when `Next` does not ask for the marker's lock. -/
theorem Closes.stepClose (hstep : r.stepClose i cond = some (cond', r'))
    (hsafe : r.close = .lockMarker → r.itr.stream ≠ none ∧ ¬r.Asks mgr) : r'.Closes mgr := by
  have halive := h.alive
  have hfails := h.fails
  unfold Reader.stepClose at hstep
  split at hstep
  · rename_i hclose
    split_ifs at hstep
    cases hstep
    obtain ⟨hstream, hasks⟩ := hsafe hclose
    refine ⟨fun hf => ⟨(hfails hf).1, (hfails hf).2, (hfails hf).3⟩, fun _ => hstream,
      fun _ => hasks, ?_⟩
    simpa [Reader.panicked, hclose] using halive
  · rename_i hclose
    split_ifs at hstep
    cases hstep
    refine ⟨fun hf => ⟨(hfails hf).1, (hfails hf).2, (hfails hf).3⟩,
      fun _ => h.stream (by rw [hclose]; rfl), by simp, ?_⟩
    simpa [Reader.panicked, hclose] using halive
  · rename_i hclose
    split at hstep
    · rename_i hnone
      exact absurd hnone (h.stream (by rw [hclose]; rfl))
    · cases hstep
      refine ⟨fun hf => ⟨(hfails hf).1, (hfails hf).2, (hfails hf).3⟩,
        by simp [ClosePC.holdsMarker],
        by simp, ?_⟩
      simpa [Reader.panicked, hclose] using halive
  · cases hstep

theorem Closes.wake : r.wake.Closes mgr := by
  have halive := h.alive
  unfold Reader.wake
  split_ifs with hwaiting
  · refine ⟨fun hf => ⟨(h.fails hf).1, (h.fails hf).2, rfl⟩, h.stream, by simp [Asks], ?_⟩
    simpa [Reader.panicked, hwaiting] using halive
  · exact h

theorem Closes.mono (hattrs : mgr'.attrs = mgr.attrs)
    (hle : mgr.cpInfo.lastBlockNumber ≤ mgr'.cpInfo.lastBlockNumber) : r.Closes mgr' := by
  refine ⟨?_, h.stream, fun hclose hasks => h.asks hclose ?_, h.alive⟩
  · rw [hattrs]
    intro hf
    obtain ⟨hnum, hstream, hnext⟩ := h.fails hf
    exact ⟨by rwa [hattrs], hstream, hnext⟩
  · exact hasks.imp_right fun ⟨hcheck, hlt⟩ => ⟨hcheck, hle.trans_lt hlt⟩

end

end Reader

namespace System

variable {σ σ' : System} {blocks : List SizedBlock2} {i : ℕ} {r r' : Reader} {label : Label}
  {labels : List Label}

/-- No call has panicked, and none gets in another's way. -/
structure Closes (σ : System) : Prop where
  alive : σ.panicked = false
  readers : ∀ i r, σ.readers i = some r → r.Closes σ.mgr

theorem closes_begin (mgr : BlockfileMgr) : (start mgr).Closes :=
  ⟨rfl, by simp [start]⟩

theorem Closes.setReader {cond : Option Holder} (h : σ.Closes) (hr : r.Closes σ.mgr) :
    Closes { σ.setReader i r with cond } :=
  ⟨by simp [System.setReader, h.alive, hr.alive], forall_setReader h.readers hr⟩

theorem Closes.broadcast (h : σ.Closes) : σ.broadcast.Closes := by
  refine ⟨h.alive, fun i r hmap => ?_⟩
  obtain ⟨r, hr, rfl⟩ := map_eq_some_iff.mp hmap
  exact (h.readers i r hr).wake

theorem Shares.exists_error (h : σ.Shares hash blocks l v) (hfails : r.Fails σ.mgr) :
    ∃ e, getBlockLocByBlockNum σ.mgr.attrs σ.mgr.db r.itr.blockNumToRetrieve = .error e := by
  by_cases hattr : .blockNum ∈ σ.mgr.attrs
  · rw [hfails.blockNum.resolve_right (not_not.mpr hattr)]
    exact (h.phase.shows hattr).noBlock
  · exact ⟨_, if_neg hattr⟩

theorem Closes.stepWriter (h : σ.Closes) (hshares : σ.Shares hash blocks l v)
    (hstep : σ.stepWriter hash = some σ') : σ'.Closes := by
  obtain ⟨l', v', -, hext, hattrs, -⟩ := hshares.phase.step hstep
  obtain ⟨hpanicked, hreaders⟩ := readers_stepWriter hstep
  refine ⟨hpanicked.trans h.alive, fun i r hr => ?_⟩
  have hcloses : r.Closes σ.mgr := by
    rcases hreaders with hreaders | hreaders
    · rw [hreaders] at hr
      exact h.readers i r hr
    · rw [hreaders] at hr
      exact h.broadcast.readers i r hr
  exact hcloses.mono hattrs hext.published

theorem Closes.step (h : σ.Closes) (hshares : σ.Shares hash blocks l v)
    (hsafe : σ.ClosesSafely label) (hstep : σ.step hash label = some σ') : σ'.Closes := by
  unfold System.step at hstep
  split_ifs at hstep
  cases label with
  | addBlock =>
    simp only [apply, beginBlock] at hstep
    split_ifs at hstep
    all_goals
      cases hstep
      exact ⟨h.alive, h.readers⟩
  | write => exact h.stepWriter hshares hstep
  | retrieveBlocks =>
    simp only [apply] at hstep
    split at hstep
    · cases hstep
      exact h.setReader Reader.closes_start
    · cases hstep
  | callNext i =>
    obtain ⟨r, r', hr, hcall, rfl⟩ := exists_reader hstep
    exact h.setReader ((h.readers i r hr).call hcall)
  | next i =>
    obtain ⟨r, ⟨cond', r'⟩, hr, hnext, rfl⟩ := exists_reader hstep
    have hcloses := h.readers i r hr
    have hfails : r.startNum = 0 ∨ .blockNum ∉ σ.mgr.attrs → r'.Fails σ.mgr := by
      intro hf
      have hfails := hcloses.fails hf
      exact hfails.stepNext (hshares.exists_error hfails) hnext
    have halive : r'.next ≠ .panicked := by
      by_cases hf : r.startNum = 0 ∨ .blockNum ∉ σ.mgr.attrs
      · intro hpanicked
        have hpc := (hfails hf).next
        rw [hpanicked] at hpc
        cases hpc
      · rw [not_or, not_not] at hf
        have hfollows := hshares.follows hf.2 i r hr (Nat.pos_of_ne_zero hf.1)
        exact (hfollows.stepNext (hshares.phase.shows hf.2) hnext).1.not_panicked
    exact h.setReader (hcloses.stepNext (Reader.operates_stepNext hnext) hfails halive (hsafe r hr))
  | callClose i =>
    obtain ⟨r, r', hr, hcall, rfl⟩ := exists_reader hstep
    exact h.setReader ((h.readers i r hr).callClose hcall)
  | close i =>
    obtain ⟨r, ⟨cond', r'⟩, hr, hclose, rfl⟩ := exists_reader hstep
    have hset : Closes { σ.setReader i r' with cond := cond' } :=
      h.setReader ((h.readers i r hr).stepClose hclose (hsafe r hr))
    split_ifs
    · exact hset.broadcast
    · exact hset

theorem Closes.not_deadlocked (h : σ.Closes) (hguarded : σ.Guarded) : ¬σ.Deadlocked i := by
  rintro ⟨r, x, y, hr, hnext, hclose, hwants, hhas⟩
  have hmarker := (hguarded.readers i r hr).marker
  have hcond := hguarded.cond
  cases hpc : r.close <;> rw [hpc] at hwants <;> cases hwants
  · -- before it has the lock of the marker, `Close` has none
    cases x with
    | cond =>
      have hin := (inCond_close hr).mp ((hcond _).mp hclose)
      rw [hpc] at hin
      cases hin
    | marker =>
      have hin := (hmarker .close).mp hclose
      rw [Reader.inMarker, hpc] at hin
      cases hin
  · -- `Next` has the lock of the condition, and asks for that of the marker
    have hin := (inCond_next hr).mp ((hcond _).mp hhas)
    exact (h.readers i r hr).asks hpc (.inl (NextPC.eq_lockMarker hin hnext))

end System

/-- If `Close` begins safely, no call panics, and `Next` and `Close` never wait for each other. -/
theorem closes_of_run {blocks : List SizedBlock2} {labels : List System.Label} {σ : System}
    (hwritten : Written hash attrs blocks mgr) (hrun : (System.start mgr).run hash labels = some σ)
    (hsafe : ∀ done label σ₁, done ++ [label] <+: labels →
      (System.start mgr).run hash done = some σ₁ → σ₁.ClosesSafely label) :
    σ.panicked = false ∧ ∀ i, ¬σ.Deadlocked i := by
  obtain ⟨l, hholds, rfl, -⟩ := hwritten.exists_holds
  have hcloses : σ.Closes := by
    refine run_induction (P := fun _ σ => σ.Closes) (closes_begin mgr) ?_ hrun
    intro done label σ₁ σ₂ hbegin hdone h hstep
    obtain ⟨l', v, hshares, -⟩ := shares_of_run hholds hdone
    exact h.step hshares (hsafe done label σ₁ hbegin hdone) hstep
  exact ⟨hcloses.alive, fun i => hcloses.not_deadlocked (guarded_of_run hrun)⟩

/-- `Close` comes between the check of `Next` and its wait. -/
def deadlockRun : List System.Label :=
  [.retrieveBlocks 0 1, .callNext 0, .next 0, .next 0, .callClose 0, .close 0]

/-- `Close` comes before the first `Next`. -/
def earlyClose : List System.Label :=
  [.retrieveBlocks 0 1, .callClose 0, .close 0, .close 0, .close 0]

theorem not_closes_run :
    (∃ mgr σ, Written id [.blockNum] [] mgr ∧ (System.start mgr).run id deadlockRun = some σ ∧
      σ.Deadlocked 0) ∧
    ∃ mgr σ, Written id [.blockNum] [] mgr ∧ (System.start mgr).run id earlyClose = some σ ∧
      σ.panicked = true := by
  constructor
  · have hrun : ∃ σ, runNew id 0 [.blockNum] deadlockRun = some σ ∧
        σ.cond = some (.next 0) ∧ ∃ r, σ.readers 0 = some r ∧
          r.next = .lockMarker ∧ r.close = .lockCond ∧ r.closeMarkerLock = some .close := by
      decide +kernel
    obtain ⟨σ, hrun, hcond, r, hr, hnext, hclose, hlock⟩ := hrun
    obtain ⟨mgr, hcreate, hrun⟩ := exists_of_runNew hrun
    exact ⟨mgr, σ, .create hcreate, hrun, r, .marker, .cond, hr, by rw [hnext]; rfl, hlock,
      by rw [hclose]; rfl, hcond⟩
  · have hrun : ∃ σ, runNew id 0 [.blockNum] earlyClose = some σ ∧ σ.panicked = true := by
      decide +kernel
    obtain ⟨σ, hrun, hpanicked⟩ := hrun
    obtain ⟨mgr, hcreate, hrun⟩ := exists_of_runNew hrun
    exact ⟨mgr, σ, .create hcreate, hrun, hpanicked⟩

/-- A block is added and read, and the iterator is closed. -/
def lateClose : List System.Label :=
  waitingRun ++ .callClose 0 :: List.replicate 3 (.close 0)

theorem closes_lateClose : ∃ mgr σ, Written id [.blockNum] [] mgr ∧
    (System.start mgr).run id lateClose = some σ ∧ σ.panicked = false ∧
    ∀ i, ¬σ.Deadlocked i := by
  have hrun : ∃ σ, runNew id 0 [.blockNum] lateClose = some σ ∧ True := by
    decide +kernel
  obtain ⟨σ, hrun, -⟩ := hrun
  obtain ⟨mgr, hcreate, hrun⟩ := exists_of_runNew hrun
  -- the condition is checked before each step
  have hsafe : ∀ n < lateClose.length, (runNew id 0 [.blockNum] (lateClose.take n)).all
      (fun σ₁ => lateClose[n]?.all fun label => σ₁.ClosesSafely label) = true := by
    decide +kernel
  refine ⟨mgr, σ, .create hcreate, hrun, closes_of_run (.create hcreate) hrun ?_⟩
  rintro done label σ₁ ⟨rest, hlabels⟩ hdone
  have hlabel : lateClose[done.length]? = some label := by simp [← hlabels]
  have hcheck := hsafe done.length (List.getElem?_eq_some_iff.mp hlabel).1
  have htake : lateClose.take done.length = done := by simp [← hlabels]
  rw [htake, runNew, hcreate, hlabel] at hcheck
  change Option.all _ ((start mgr).run id done) = true at hcheck
  rw [hdone] at hcheck
  exact of_decide_eq_true hcheck

end Fabric.BlockStore
