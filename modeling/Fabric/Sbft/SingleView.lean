import Fabric.Sbft.Equivocation
import Fabric.Sbft.Primary
import Fabric.Sbft.Restart

/-!
# Agreement within a view

Two quorums of replicas have a correct one in common, so that within a view no two
digests are prepared or executed at one position. Two things stand in the way: the
primary's prepare is counted besides its preprepare, and a request that a new view has
dropped keeps its votes and answers to the sequence number zero.
-/

namespace Fabric.Sbft

open Fabric.Common Finset

variable {β : Type} {P : Primitives β}

/-- Two subjects that correct replicas list for one position have the same digest. -/
def Agree (f : List (Event β) → List (Subject β)) (B : Finset ℕ) (sys : System β) : Prop :=
  ∀ e ∈ sys.histories B, ∀ e' ∈ sys.histories B, ∀ p ∈ f e.2, ∀ q ∈ f e'.2, p.seq = q.seq →
    p.digest = q.digest

instance [DecidableEq β] (f : List (Event β) → List (Subject β)) (B : Finset ℕ) (sys : System β) :
    Decidable (Agree f B sys) :=
  inferInstanceAs (Decidable (∀ e ∈ sys.histories B, ∀ e' ∈ sys.histories B, ∀ p ∈ f e.2,
    ∀ q ∈ f e'.2, _))

/-- No commit is counted for a request that was dropped, and nothing overflows. -/
def ExecutesInFlight (P : Primitives β) (e : Event β) (t : List (Event β)) : Prop :=
  (∀ a ∈ e.commit?, a.1 = a.2.cur.subject → a.2.cur.seq.seq ≠ 0) ∧ InRange P e t

instance [DecidableEq β] (e : Event β) (t : List (Event β)) : Decidable (ExecutesInFlight P e t) :=
  inferInstanceAs (Decidable ((∀ a ∈ e.commit?, _ → _) ∧ _))

/-- No prepare is counted for a dropped request, nor one by the primary of its view; and preprepares
are accepted only in an active view. -/
def CountsBackups (P : Primitives β) (cfg : Config) (e : Event β) (t : List (Event β)) : Prop :=
  (∀ a ∈ e.prepareFrom?, a.1 = a.2.2.cur.subject → a.2.2.cur.sentCommit = false →
    a.2.1 ≠ a.2.2.cur.seq.view % cfg.N ∧ a.2.2.cur.seq.seq ≠ 0) ∧ AcceptsWhenActive P e t

instance [DecidableEq β] (cfg : Config) (e : Event β) (t : List (Event β)) :
    Decidable (CountsBackups P cfg e t) :=
  inferInstanceAs (Decidable ((∀ a ∈ e.prepareFrom?, _ → _ → _) ∧ _))

variable [DecidableEq β] {cfg : Config} {c c' : Core β}

/-- A subject was accepted, and enough backups besides the primary sent prepares for it. -/
def Vouched (P : Primitives β) (cfg : Config) (t : List (Event β)) (sub : Subject β) : Prop :=
  ∃ sv d, sub = ⟨some sv, some d⟩ ∧ AcceptedAt P t sv d ∧
    cfg.noFaultyQuorum ≤ ((senders t (.prepare sub)).erase (sv.view % cfg.N)).card + 1

/-- A commit is sent for a subject that is vouched for. -/
def CommitsVouched (P : Primitives β) (cfg : Config) (e : Event β) (t : List (Event β)) : Prop :=
  ∀ sub dest, e = .send (.commit sub) dest → Vouched P cfg t sub

/-- Commits for one position agree, and are sent when a quorum vouches for their subject. -/
def UniquelyPrepared (P : Primitives β) (cfg : Config) (B : Finset ℕ) (sys : System β) : Prop :=
  Agree committed B sys ∧ ∀ e ∈ sys.histories B, Always (CommitsVouched P cfg) e.2

/-! ### Senders -/

section Senders

variable {B : Finset ℕ} {R : ℕ → Prop} {g : ℕ → Core β}

theorem Group.Reachable.senders_subset_range (h : Group.Reachable P cfg B R g) {i : ℕ}
    (hi : i < cfg.N) (hiB : i ∉ B) (m : Msg β) :
    senders (g i).trace m ⊆ range cfg.N := by
  intro r hr
  exact mem_range.mpr (h.recv i hi hiB m r (mem_senders.mp hr)).1

theorem Group.Reachable.sent (h : Group.Reachable P cfg B R g) {i r : ℕ} (hi : i < cfg.N)
    (hiB : i ∉ B) (hrB : r ∉ B) {m : Msg β} (hr : r ∈ senders (g i).trace m) :
    r < cfg.N ∧ .send m i ∈ (g r).trace := by
  obtain ⟨hlt, hsent, -⟩ := h.recv i hi hiB m r (mem_senders.mp hr)
  exact ⟨hlt, (hsent.resolve_left hrB).2⟩

end Senders

/-! ### Executions -/

variable {sub : Subject β}

/-- What a replica executes has commits from enough replicas, unless it was dropped. -/
theorem Alone.exists_execution {id : ℕ} {r : Prop} (h : Alone P cfg id r c) (hr : ¬ r)
    (hsub : sub ∈ executed c.trace) :
    ∃ c₁ src, Alone P cfg id r c₁ ∧ c₁.cur.subject = sub ∧
      .call (.handleCommit sub src) c₁.status :: c₁.trace <:+ c.trace ∧
      .recv (.commit sub) src ∈ c₁.trace ∧ (c₁.cur.seq.seq ≠ 0 →
        cfg.noFaultyQuorum ≤ (senders c.trace (.commit sub)).card) := by
  obtain ⟨c₁, c₂, hc₁, hstep, hnew, hruns⟩ :=
    h.exists_step hr (mem_executed.mp hsub) (by simp) (by simp)
  obtain ⟨rfl, src, votes, hcall, hrecv, hvotes, hquorum⟩ := hstep.execute_persisted hnew
  refine ⟨c₁, src, hc₁, rfl, hcall.trans hruns.suffix, hrecv, fun hne => ?_⟩
  rw [hc₁.frame.1] at hquorum
  refine (hquorum.trans (hc₁.sound.card_commits hrecv hvotes hne)).trans ?_
  exact card_le_card (senders_subset (hstep.frame.2.2.trans hruns.suffix) _)

theorem Alone.exists_commits {id : ℕ} {r : Prop} (h : Alone P cfg id r c) (hr : ¬ r)
    (hφ : Always (ExecutesInFlight P) c.trace) (hsub : sub ∈ executed c.trace) :
    ∃ sv, sub.seq = some sv ∧ sv.seq ≠ 0 ∧
      cfg.noFaultyQuorum ≤ (senders c.trace (.commit sub)).card := by
  obtain ⟨c₁, src, -, rfl, hcall, -, hquorum⟩ := h.exists_execution hr hsub
  have hne := (hφ.at hcall).1 _ rfl rfl
  exact ⟨c₁.cur.seq, rfl, hne, hquorum hne⟩

/-- Executions of correct replicas in a view agree, without restarts and with at most `F` Byzantine
replicas, if no commit is counted for a dropped request. -/
theorem executed_agree {B : Finset ℕ} {ls : List (Label β)} {sys : System β}
    (hN : 3 * cfg.F + 1 ≤ cfg.N) (hB : B.card ≤ cfg.F) (hrestart : ∀ l ∈ ls, ¬ l.Restarts)
    (hrun : System.run P B (System.init P cfg) ls = some sys)
    (hφ : ∀ e ∈ sys.histories B, Always (ExecutesInFlight P) e.2) : Agree executed B sys := by
  obtain ⟨g, hg, hhist⟩ := run_refines hrun
  have hR := not_restarted hrestart
  rintro ⟨i, t⟩ hit ⟨j, u⟩ hju p hp q hq hseq
  obtain ⟨hi, hiB, rfl⟩ := (hhist i t).mp hit
  obtain ⟨hj, hjB, rfl⟩ := (hhist j u).mp hju
  obtain ⟨sv, hsv, hne, hcard⟩ := (hg.alone i hi).exists_commits (hR i) (hφ _ hit) hp
  obtain ⟨-, -, -, hcard'⟩ := (hg.alone j hj).exists_commits (hR j) (hφ _ hju) hq
  -- a correct replica has sent commits for both subjects
  have hquorums : (Finset.range cfg.N).card + B.card <
      (senders (g i).trace (.commit p)).card + (senders (g j).trace (.commit q)).card := by
    rw [Finset.card_range]
    unfold Config.noFaultyQuorum at hcard hcard'
    omega
  obtain ⟨r, hrp, hrq, hrB⟩ := exists_correct_common
    (hg.senders_subset_range hi hiB _) (hg.senders_subset_range hj hjB _) hquorums
  obtain ⟨hr, hsentp⟩ := hg.sent hi hiB hrB hrp
  obtain ⟨-, hsentq⟩ := hg.sent hj hjB hrB hrq
  have hrange := (hφ _ ((hhist r _).mpr ⟨hr, hrB, rfl⟩)).mono fun _ _ _ h => h.2
  have honce := (hg.alone r hr).committed_once (hR r) hrange
    (hg.timely hR hB hr hrB) hN hr
    fun _ _ _ _ (_) => .inl hne
  exact honce.2 p (mem_committed.mpr ⟨_, hsentp⟩) q (mem_committed.mpr ⟨_, hsentq⟩) hsv
    (hseq ▸ hsv)

/-- Replicas 1 and 3 execute the first batch. -/
theorem executed_agree_executedRun : ∃ sys,
    System.run symbolic {0} (System.init symbolic fourReplicas) (executedRun ++
      Label.arrivals [(1, 1, 0), (1, 3, 1)] ++
      [.of 1 (.inject 0 (.commit (firstSubject 0 7)))]) = some sys ∧
      (∀ i ∈ [1, 3], ∃ e ∈ sys.histories {0}, e.1 = i ∧ executed e.2 = [firstSubject 0 7]) ∧
      Agree executed {0} sys := by
  refine System.exists_of_always {0} (ExecutesInFlight symbolic) (by decide +kernel) ?_
  exact fun sys hrun hφ => executed_agree (by decide) (by decide) (by decide) hrun hφ

/-- Replica 1 has commits for the first batch, which replica 2 delivers; replica 3 has commits for
the second. A new view drops both, because Byzantine replica 0 reports a later checkpoint. -/
def droppedRun : List (Label Term) :=
  let b := makeBatch symbolic 2 (some ((firstBatch 7).hash symbolic)) [.nat 8]
  let sub := firstSubject 0 7
  let sub' : Subject Term := ⟨some ⟨0, 2⟩, some (b.hash symbolic)⟩
  let pp : Msg Term := .preprepare ⟨some ⟨0, 1⟩, some (firstBatch 7)⟩
  let pp' : Msg Term := .preprepare ⟨some ⟨0, 2⟩, some b⟩
  let d := (firstBatch 7).hash symbolic
  let fake : Batch Term := ⟨.ofHeader ⟨100, none, none⟩, [], ∅⟩
  [.of 1 (.inject 0 pp), .of 1 (.deliver 1 0), .of 1 (.inject 0 (.prepare sub)),
    .of 2 (.inject 0 pp), .of 2 (.deliver 2 0), .of 2 (.inject 0 (.prepare sub)),
    .of 1 (.deliver 1 0), .of 1 (.deliver 2 1), .of 2 (.deliver 2 0), .of 2 (.deliver 1 1),
    .of 2 (.inject 0 (.commit sub)), .of 2 (.deliver 2 0),
    .of 2 (.inject 0 (.checkpoint ⟨1, some d, .sig 0 d⟩)), .of 2 (.connection 3),
    .of 3 (.deliver 2 3), .of 2 (.inject 0 pp'), .of 2 (.deliver 2 0),
    .of 2 (.inject 0 (.prepare sub')), .of 3 (.inject 0 pp'), .of 3 (.deliver 3 0),
    .of 3 (.inject 0 (.prepare sub')), .of 3 (.deliver 3 0), .of 3 (.deliver 2 4),
    .of 1 (.timer 0), .of 3 (.timer 0),
    .of 1 (.inject 0 (.viewChange (signedBy 0 ⟨1, [], [], some fake⟩))), .of 1 (.deliver 1 0),
    .of 1 (.deliver 3 2), .of 1 (.deliver 1 0), .of 3 (.deliver 1 3),
    .of 1 (.inject 0 (.commit ⟨some ⟨0, 0⟩, sub.digest⟩)),
    .of 3 (.inject 0 (.commit ⟨some ⟨0, 0⟩, sub'.digest⟩))]

/-- Replicas 1 and 3 execute different digests at sequence number zero of view 0. -/
theorem not_agree_droppedRun : ∃ sys,
    System.run symbolic {0} (System.init symbolic fourReplicas) droppedRun = some sys ∧
      ¬ Agree executed {0} sys := by
  decide +kernel

/-! ### Prepared certificates -/

theorem Vouched.extend {t t' : List (Event β)} (h : Vouched P cfg t sub) (ht : t <:+ t') :
    Vouched P cfg t' sub := by
  obtain ⟨sv, d, hsub, haccepted, hcard⟩ := h
  refine ⟨sv, d, hsub, haccepted.extend ht, hcard.trans (Nat.add_le_add_right ?_ 1)⟩
  exact card_le_card (erase_subset_erase _ (senders_subset ht _))

/-- The counted prepares are not by the primary, and a commit is vouched for. -/
structure Core.Counted (P : Primitives β) (c : Core β) : Prop where
  backups : ∀ votes r p, c.cur.prep = some votes → votes[r]? = some p →
    c.cur.sentCommit = false → r ≠ c.cur.seq.view % c.config.N
  vouched : c.cur.sentCommit = true → c.cur.seq.seq ≠ 0 → Vouched P c.config c.trace c.cur.subject

theorem Commits.vouched (h : Commits P c c') (hc : c.Sound P) (hcounted : c.Counted P)
    (hφ : Always (CountsBackups P c.config) c'.trace) :
    Vouched P c.config c.trace c.cur.subject := by
  cases h with
  | quorum src votes hcall hrecv _ hvotes hsent =>
    obtain ⟨hsrc, hne⟩ := (hφ.at hcall).1 _ rfl rfl hsent
    obtain ⟨d, hd, haccepted⟩ := hc.acceptedAt (.inl hne)
    refine ⟨c.cur.seq, d, by rw [ReqInfo.subject, hd], haccepted, ?_⟩
    have hsize : (votes.insert src c.cur.subject).size ≤
        ((senders c.trace (.prepare c.cur.subject)).erase (c.cur.seq.view % c.config.N)).card := by
      refine size_le_card fun r p hp => ?_
      rw [mem_erase, mem_senders]
      rcases ReqInfo.Sound.getElem?_insert_cases hp with ⟨rfl, rfl⟩ | hold
      · exact ⟨hsrc, hrecv⟩
      · obtain ⟨hmem, hvoted⟩ := hc.cur.prep votes r p hvotes hold
        exact ⟨hcounted.backups votes r p hvotes hold hsent, hvoted.eq_subject hne ▸ hmem⟩
    omega
  | small _ _ _ hdone =>
    obtain ⟨d, hd, haccepted⟩ := hc.acceptedAt (.inr hdone)
    exact ⟨c.cur.seq, d, by rw [ReqInfo.subject, hd], haccepted, by omega⟩
  | resend _ _ hahead hsent =>
    exact hcounted.vouched hsent (Nat.ne_of_gt (Nat.zero_lt_of_lt hahead.1))

theorem Step.counted (h : Step P c c') (hc : c.Sound P)
    (hφ : Always (CountsBackups P c.config) c'.trace) (hold : c.Counted P) : c'.Counted P := by
  have hsuffix := h.frame.2.2
  -- most steps keep the votes, and a request that has lost its number is not vouched for
  have hkeep : c'.config = c.config → c'.cur.prep = c.cur.prep →
      c'.cur.sentCommit = c.cur.sentCommit → c'.cur.seq.view = c.cur.seq.view →
      (c'.cur.seq.seq ≠ 0 → c'.cur.subject = c.cur.subject) → c'.Counted P := by
    intro hcfg hprep hsent hview hsubject
    constructor
    · rw [hprep, hsent, hview, hcfg]
      exact hold.backups
    · intro hsent' hne
      rw [hcfg, hsubject hne]
      refine (hold.vouched (hsent ▸ hsent') ?_).extend hsuffix
      have heq := congrArg Subject.seq (hsubject hne)
      simp only [ReqInfo.subject, Option.some.injEq] at heq
      rwa [← heq]
  -- after a commit was sent, the request is vouched for
  have hsend : Commits P c c' → c'.config = c.config → c'.cur.subject = c.cur.subject →
      c'.cur.sentCommit = true → c'.Counted P := by
    intro hcommits hcfg hsubject hsent
    constructor
    · intro _ _ _ _ _ hsent'
      simp [hsent] at hsent'
    · intro _ _
      rw [hcfg, hsubject]
      exact (hcommits.vouched hc hold hφ).extend hsuffix
  cases h
  case accept =>
    refine ⟨fun votes r p hvotes hp => ?_, fun hsent => by simp at hsent⟩
    obtain rfl : ∅ = votes := by simpa using hvotes
    simp at hp
  case acceptCommit hsent _ hquorum hview hdone hready =>
    exact hsend (.small hquorum hsent hview hdone hready) rfl rfl rfl
  case prepareCommit src votes hrecv hactive hvotes hsent hquorum =>
    exact hsend (.quorum src votes (by simp) hrecv hactive hvotes hsent hquorum) rfl rfl rfl
  case prepare src votes _ _ hvotes =>
    refine ⟨fun votes' r p hvotes' hp hsent => ?_, fun hsent hne =>
      (hold.vouched hsent hne).extend hsuffix⟩
    obtain rfl : votes.insert src c.cur.subject = votes' := by simpa using hvotes'
    rcases ReqInfo.Sound.getElem?_insert_cases hp with ⟨rfl, rfl⟩ | hp
    · have hcall : CountsBackups P c.config (.call (.handlePrepare c.cur.subject r) c.status)
        c.trace := hφ.at (by simp)
      exact (hcall.1 _ rfl rfl hsent).1
    · exact hold.backups votes r p hvotes hp hsent
  case newViewNull => exact hkeep rfl rfl rfl rfl fun hne => by simp at hne
  all_goals exact hkeep rfl rfl rfl rfl fun _ => rfl

section Groups

variable {B : Finset ℕ} {R : ℕ → Prop} {g : ℕ → Core β} {id : ℕ} {r : Prop}

theorem Alone.counted (h : Alone P cfg id r c) (hr : ¬ r)
    (hφ : Always (CountsBackups P cfg) c.trace) :
    c.Counted P ∧ Always (CommitsVouched P cfg) c.trace := by
  refine h.induction (I := fun c => c.Counted P ∧ Always (CommitsVouched P cfg) c.trace) hr hφ
    ?_ ?_ ?_
  · intro c hc _
    obtain ⟨active, rfl⟩ := hc.of_nil
    exact ⟨⟨by simp [SBFT.blank], fun _ hne => by simp [SBFT.blank] at hne⟩,
      by simp [CommitsVouched]⟩
  · intro c m src _ hc
    refine ⟨⟨hc.1.backups, fun hsent hne => (hc.1.vouched hsent hne).extend ?_⟩, ?_, hc.2⟩
    · exact List.suffix_cons _ _
    · simp [CommitsVouched]
  · intro c c' hc hφ hI hstep
    obtain ⟨rfl, -⟩ := hc.frame
    refine ⟨hstep.counted hc.sound hφ hI.1, hI.2.extend hstep.frame.2.2 ?_⟩
    rintro e t hnew ht - sub dest rfl
    obtain ⟨rfl, -, -, -, -, -, hcommits⟩ := hstep.commit_sent hnew
    exact (hcommits.vouched hc.sound hI.1 hφ).extend ht

theorem Alone.vouched (h : Alone P cfg id r c) (hr : ¬ r)
    (hφ : Always (CountsBackups P cfg) c.trace) (hsub : sub ∈ committed c.trace) :
    Vouched P cfg c.trace sub := by
  obtain ⟨dest, hdest⟩ := mem_committed.mp hsub
  obtain ⟨t, ht, hvouched⟩ := (h.counted hr hφ).2.of_mem hdest
  exact (hvouched sub dest rfl).extend ((List.suffix_cons _ _).trans ht)

theorem exists_correct_backup {A A' : Finset ℕ} {p : ℕ} (hN : 3 * cfg.F + 1 ≤ cfg.N)
    (hB : B.card ≤ cfg.F) (hp : p < cfg.N) (hpB : p ∈ B) (hA : A ⊆ range cfg.N)
    (hA' : A' ⊆ range cfg.N) (hcard : cfg.noFaultyQuorum ≤ (A.erase p).card + 1)
    (hcard' : cfg.noFaultyQuorum ≤ (A'.erase p).card + 1) : ∃ r ∈ A, r ∈ A' ∧ r ∉ B := by
  have hrange : ((range cfg.N).erase p).card = cfg.N - 1 := by
    rw [card_erase_of_mem (mem_range.mpr hp), card_range]
  have hfaulty := card_erase_of_mem hpB
  have hpos := card_pos.mpr ⟨p, hpB⟩
  have hquorums : ((range cfg.N).erase p).card + (B.erase p).card <
      (A.erase p).card + (A'.erase p).card := by
    unfold Config.noFaultyQuorum at hcard hcard'
    omega
  obtain ⟨r, hr, hr', hrB⟩ := exists_correct_common (erase_subset_erase p hA)
    (erase_subset_erase p hA') hquorums
  obtain ⟨hne, hrA⟩ := mem_erase.mp hr
  exact ⟨r, hrA, mem_of_mem_erase hr', fun hB => hrB (mem_erase.mpr ⟨hne, hB⟩)⟩

theorem Group.Reachable.vouched_unique (h : Group.Reachable P cfg B R g) (hR : ∀ i, ¬ R i)
    (hN : 3 * cfg.F + 1 ≤ cfg.N) (hB : B.card ≤ cfg.F)
    (hφ : ∀ i < cfg.N, i ∉ B → Always (AcceptsWhenActive P) (g i).trace) {i j : ℕ}
    {p q : Subject β} (hi : i < cfg.N) (hiB : i ∉ B) (hj : j < cfg.N) (hjB : j ∉ B)
    (hp : Vouched P cfg (g i).trace p) (hq : Vouched P cfg (g j).trace q) (hseq : p.seq = q.seq) :
    p.digest = q.digest := by
  have hrange : ∀ i < cfg.N, i ∉ B → Always (InRange P) (g i).trace := fun i hi hiB =>
    (hφ i hi hiB).mono fun _ _ _ h => h.2
  obtain ⟨sv, d, rfl, hd, hcard⟩ := hp
  obtain ⟨sv', d', rfl, hd', hcard'⟩ := hq
  obtain rfl : sv = sv' := by simpa using hseq
  suffices heq : d = d' by rw [heq]
  by_cases hpB : sv.view % cfg.N ∈ B
  · have hlt : sv.view % cfg.N < cfg.N := Nat.mod_lt _ (Nat.zero_lt_of_lt hi)
    obtain ⟨r, hr, hr', hrB⟩ := exists_correct_backup hN hB hlt hpB
      (h.senders_subset_range hi hiB _) (h.senders_subset_range hj hjB _) hcard hcard'
    obtain ⟨hrN, hsent⟩ := h.sent hi hiB hrB hr
    obtain ⟨-, hsent'⟩ := h.sent hj hjB hrB hr'
    -- the common backup has accepted both
    have hacc : ∀ {d dest}, .send (.prepare ⟨some sv, some d⟩) dest ∈ (g r).trace →
        AcceptedAt P (g r).trace sv d := by
      intro d dest hmem
      obtain ⟨sv', d', heq, hacc⟩ := (h.alone r hrN).acceptedAt_of_prepared (hR r)
        (mem_prepared.mpr ⟨dest, hmem⟩)
      cases heq
      exact hacc
    exact ((h.alone r hrN).accepted_once (hR r) (hrange r hrN hrB)
      (h.timely hR hB hrN hrB) fun c₁ c₀ pp b timeout _ _ hs =>
        AcceptsWhenActive.active (hφ r hrN hrB) hs).2 d d' (hacc hsent) (hacc hsent')
  · exact h.proposal_unique hR hB hrange hi hiB hj hjB hpB hd hd'

end Groups

/-- Prepared certificates of a view agree, without restarts and with at most `F` Byzantine replicas,
if the primary's prepare is not counted. -/
theorem uniquelyPrepared_of_countsBackups {B : Finset ℕ} {ls : List (Label β)} {sys : System β}
    (hN : 3 * cfg.F + 1 ≤ cfg.N) (hB : B.card ≤ cfg.F) (hrestart : ∀ l ∈ ls, ¬ l.Restarts)
    (hrun : System.run P B (System.init P cfg) ls = some sys)
    (hφ : ∀ e ∈ sys.histories B, Always (CountsBackups P cfg) e.2) :
    UniquelyPrepared P cfg B sys := by
  obtain ⟨g, hg, hhist⟩ := run_refines hrun
  have hR := not_restarted hrestart
  refine ⟨?_, ?_⟩
  · rintro ⟨i, t⟩ hit ⟨j, u⟩ hju p hp q hq hseq
    obtain ⟨hi, hiB, rfl⟩ := (hhist i t).mp hit
    obtain ⟨hj, hjB, rfl⟩ := (hhist j u).mp hju
    refine hg.vouched_unique hR hN hB (fun r hr hrB => ?_) hi hiB hj hjB
      ((hg.alone i hi).vouched (hR i) (hφ _ hit) hp)
      ((hg.alone j hj).vouched (hR j) (hφ _ hju) hq) hseq
    exact (hφ _ ((hhist r _).mpr ⟨hr, hrB, rfl⟩)).mono fun _ _ _ h => h.2
  · rintro ⟨i, t⟩ hit
    obtain ⟨hi, -, rfl⟩ := (hhist i t).mp hit
    exact ((hg.alone i hi).counted (hR i) (hφ _ hit)).2

/-- Replicas 2 and 3 accept the same batch and prepare it. -/
theorem uniquelyPrepared_sharedRun : ∃ sys,
    System.run symbolic {0} (System.init symbolic fourReplicas)
      ([.of 2 (.inject 0 (.preprepare ⟨some ⟨0, 1⟩, some (firstBatch 7)⟩)),
        .of 3 (.inject 0 (.preprepare ⟨some ⟨0, 1⟩, some (firstBatch 7)⟩))] ++
      Label.arrivals [(2, 2, 0), (2, 3, 0), (3, 2, 0), (3, 3, 0)]) = some sys ∧
      (∀ i ∈ [2, 3], ∃ e ∈ sys.histories {0}, e.1 = i ∧ firstSubject 0 7 ∈ committed e.2) ∧
      UniquelyPrepared symbolic fourReplicas {0} sys := by
  refine System.exists_of_always {0} (CountsBackups symbolic fourReplicas) (by decide +kernel) ?_
  intro sys hrun hφ
  exact uniquelyPrepared_of_countsBackups (by decide) (by decide) (by decide) hrun hφ

/-- Primary 0 sends replica `r` the first batch with the request `n` and a prepare for it. -/
def doubleVote (r n : ℕ) : List (Label Term) :=
  [.of r (.inject 0 (.preprepare ⟨some ⟨0, 1⟩, some (firstBatch n)⟩)), .of r (.deliver r 0),
    .of r (.inject 0 (.prepare (firstSubject 0 n)))]

/-- With the two votes of the primary, replicas 2 and 3 prepare different batches. -/
theorem not_uniquelyPrepared_doubleVote : ∃ sys,
    System.run symbolic {0} (System.init symbolic fourReplicas)
      (doubleVote 2 7 ++ doubleVote 3 8) = some sys ∧
      ¬ UniquelyPrepared symbolic fourReplicas {0} sys := by
  refine exists_of_checked (fun sys : System Term => ¬ Agree committed {0} sys)
    (by decide +kernel) ?_
  exact fun sys _ hne h => hne h.1

end Fabric.Sbft
