import Fabric.Sbft.Provenance
import Fabric.Sbft.Symbolic

/-!
# Delivered batches

Where the batches that a replica delivers come from: a weak quorum of checkpoints for
the request in flight, a hello, or the view changes of a new view. On the last two
paths the code checks less than on the first: a header without previous hash needs no
signatures, and payloads are not checked at all.
-/

namespace Fabric.Sbft

open Fabric.Common List Event

variable {β : Type} {P : Primitives β}

/-! ### The batches in a message -/

/-- A new view that a handler is entered with, and the state it is entered in. -/
def Event.newView? (e : Event β) : Option (NewView β × Status β) :=
  e.entersView?.or (e.hello?.bind fun a => a.1.newView.map fun nv => (nv, a.2))

/-- The batches that a replica that is behind may deliver on receiving a message. -/
def Msg.catchUp (P : Primitives β) (m : Msg β) : List (Batch β) :=
  (match m with | .hello h => h.batch.toList | _ => []) ++
    m.newView?.toList.flatMap (NewView.checkpoints P)

/-- The batches that were delivered, latest first. -/
def delivered (t : List (Event β)) : List (Batch β) :=
  t.filterMap fun | .deliver b => some b | _ => none

/-- The subjects for which a checkpoint was signed, latest first. -/
def attested (t : List (Event β)) : List (Subject β) :=
  t.filterMap fun | .signCheckpoint sub => some sub | _ => none

variable {t : List (Event β)} {b : Batch β} {cfg : Config} {c c' : Core β}

theorem mem_delivered : b ∈ delivered t ↔ .deliver b ∈ t := by
  simp only [delivered, mem_filterMap]
  constructor
  · rintro ⟨e, he, heq⟩
    split at heq <;> cases heq
    exact he
  · exact fun h => ⟨_, h, rfl⟩

theorem mem_attested {sub : Subject β} : sub ∈ attested t ↔ .signCheckpoint sub ∈ t := by
  simp only [attested, mem_filterMap]
  constructor
  · rintro ⟨e, he, heq⟩
    split at heq <;> cases heq
    exact he
  · exact fun h => ⟨_, h, rfl⟩

/-! ### The three ways to deliver -/

/-- Enough replicas signed `d` according to the messages received. -/
def Certificate (P : Primitives β) (cfg : Config) (t : List (Event β)) (d : β) : Prop :=
  ∃ S : Finset ℕ, cfg.oneCorrectQuorum ≤ S.card ∧ ∀ r ∈ S, ∃ m src sig, .recv m src ∈ t ∧
    (r, d, sig) ∈ msgSigs P src m ∧ P.checkSig d r sig = true

theorem Certificate.extend {t' : List (Event β)} {d : β} (h : Certificate P cfg t d)
    (ht : t <:+ t') :
    Certificate P cfg t' d := by
  obtain ⟨S, hcard, hS⟩ := h
  refine ⟨S, hcard, fun r hr => ?_⟩
  obtain ⟨m, src, sig, hrecv, hsig⟩ := hS r hr
  exact ⟨m, src, sig, ht.subset hrecv, hsig⟩

theorem Preprepare.Checked.payloads {pp : Preprepare β} (h : pp.Checked P)
    (hb : pp.batch = some b) :
    (P.unmarshalHeader b.header).map BatchHeader.dataHash = some (merkleHashData P b.payloads) := by
  obtain ⟨-, b', hd, -, hb', hdec, -, hdata⟩ := h
  obtain rfl : b' = b := by simpa [hb'] using hb
  simp [hdec, hdata]

variable [DecidableEq β]

/-- Where a batch that a step from `c` to `c'` delivers comes from. -/
inductive Delivers (P : Primitives β) (c c' : Core β) : Batch β → Prop
  /-- A weak quorum of checkpoints for the request in flight. -/
  | quorum (pp : Preprepare β) (b : Batch β) (signatures : GoMap β)
      (replicas : List (ℕ × Checkpoint β)) (hpp : c.cur.preprep = some pp)
      (hbatch : pp.batch = some b) (hdone : c.cur.checkpointDone = false)
      (hnodup : (replicas.map Prod.fst).Nodup)
      (hquorum : c.config.oneCorrectQuorum ≤ replicas.length)
      (hreplicas : ∀ e ∈ replicas, .recv (.checkpoint e.2) e.1 ∈ c.trace ∧
        P.checkSig (P.bytes e.2.digest) e.1 e.2.signature = true ∧
        (c.cur.seq.seq = 0 ∨ e.2.seq = c.cur.seq.seq) ∧
        P.bytes e.2.digest = P.bytes c.cur.digest)
      (hsigs : signatures = Std.ExtTreeMap.ofList (replicas.map fun e => (e.1, e.2.signature))) :
      Delivers P c c' { b with signatures }
  /-- A hello. -/
  | hello (h : Hello β) (src : ℕ) (b : Batch β) (hd : BatchHeader β)
      (hrecv : .recv (.hello h) src ∈ c.trace) (hbatch : h.batch = some b)
      (hcheck : checkBatch P c.config b false true = .ok hd) (hahead : seqOf P b ≠ 0) :
      Delivers P c c' b
  /-- The view changes of a new view. -/
  | newView (e : Event β) (m : Msg β) (src : ℕ) (nv : NewView β) (x : Option (Subject β))
      (best : Batch β) (hcall : e ∈ c'.trace) (he : e.newView? = some (nv, c.status))
      (hrecv : .recv m src ∈ c.trace) (hm : m.newView? = some nv)
      (hjust : nv.Justified P c.config x best) (hahead : seqOf P best ≠ 0) :
      Delivers P c c' (c.xsetBatch P best)

theorem Step.delivers (h : Step P c c') (hc : c.Sound P)
    (hb : Added c.trace c'.trace (.deliver b)) :
    Delivers P c c' b := by
  cases h
  case checkpointDeliver replicas pp b hrecv _ hdone hseq hsig hvotes hreplicas hnodup hquorum hpp hbatch =>
    obtain rfl := by simpa using hb
    refine .quorum pp b _ replicas hpp hbatch hdone hnodup hquorum (fun e he => ?_) rfl
    obtain ⟨hmem, hvalid, hvote⟩ :=
      (hc.cur.voteCheckpoint hrecv hsig hseq hvotes).checkpoint _ _ _ rfl (hreplicas e he).1
    exact ⟨hmem, hvalid, hvote, (hreplicas e he).2⟩
  case hello h src b' hd hrecv hbatch hcheck =>
    obtain ⟨hahead, rfl⟩ : c.last P < seqOf P b' ∧ b = b' := by simpa using hb
    exact .hello h src b hd hrecv hbatch hcheck (by omega)
  case helloNewView h src b' hd nv x best hrecv hbatch hcheck hnv _ hjust =>
    -- the batch of the hello comes first, then the checkpoint of its new view
    obtain ⟨⟨hahead, -⟩, rfl⟩ | ⟨hahead, rfl⟩ : (c.last P < seqOf P best ∧
      seqOf P b' < seqOf P best) ∧ b = c.xsetBatch P best ∨ c.last P < seqOf P b' ∧ b = b' := by
        simpa using hb
    · exact .newView (.call (.handleHello h src) c.status) (.hello h) src nv x best (by simp)
        (by simp [newView?, entersView?, hello?, hnv]) hrecv hnv hjust (by omega)
    · exact .hello h src b hd hrecv hbatch hcheck (by omega)
  case newViewNull nv x best _ _ hrecv _ hjust _ =>
    obtain ⟨hahead, rfl⟩ : c.last P < seqOf P best ∧ b = c.xsetBatch P best := by simpa using hb
    exact .newView (.call (.processNewView nv) c.status) _ _ nv x best (by simp) rfl hrecv rfl
      hjust (by omega)
  case accept c₀ _ _ _ _ haccepts =>
    have hb₀ : Added c.trace c₀.trace (.deliver b) := by
      simpa [haccepts.trace_suffix] using hb
    cases haccepts <;> try simp at hb₀
    rename_i nv x best hactive hview hrecv hok hjust hbatch
    obtain ⟨hahead, rfl⟩ := hb₀
    exact .newView (.call (.processNewView nv) c.status) _ _ nv x best (by simp) rfl hrecv rfl
      hjust (by omega)
  case quiet hquiet =>
    cases quiet_of_added hquiet hb
  case greet hes =>
    cases greeting_of_added hes hb (by simp)
  all_goals simp at hb

/-! ### Authentic headers -/

/-- A header without previous hash is that of the genesis batch or comes with enough
signatures. -/
def Batch.Certified (P : Primitives β) (cfg : Config) (b : Batch β) : Prop :=
  ∀ hd ∈ P.unmarshalHeader b.header, hd.prevHash = none →
    hd.seq = 0 ∨ cfg.oneCorrectQuorum ≤ b.signatures.size

instance (cfg : Config) (b : Batch β) : Decidable (b.Certified P cfg) :=
  inferInstanceAs (Decidable (∀ hd ∈ P.unmarshalHeader b.header, _ → _))

/-- Received batches that a replica may catch up with are certified. -/
def CatchUpCertified (P : Primitives β) (cfg : Config) (e : Event β) (_ : List (Event β)) : Prop :=
  ∀ m ∈ e.received?, ∀ b ∈ m.catchUp P, b.Certified P cfg

instance (cfg : Config) (e : Event β) (t : List (Event β)) :
    Decidable (CatchUpCertified P cfg e t) :=
  inferInstanceAs (Decidable (∀ m ∈ e.received?, ∀ b ∈ m.catchUp P, _))

theorem Certificate.of_checkBatch {m : Msg β} {src : ℕ} {hd : BatchHeader β}
    (hrecv : .recv m src ∈ t) (hcheck : checkBatch P cfg b false true = .ok hd)
    (hahead : seqOf P b ≠ 0) (hcert : b.Certified P cfg) (hsigs : batchSigs P b ⊆ msgSigs P src m) :
    Certificate P cfg t (b.hash P) := by
  obtain ⟨hdec, -, hneed, hvalid⟩ := checkBatch_eq_ok P hcheck
  have hsize : cfg.oneCorrectQuorum ≤ b.signatures.size := by
    by_cases hprev : hd.prevHash = none
    · refine (hcert hd hdec hprev).resolve_left ?_
      rwa [← seqOf_of_checkBatch P hcheck]
    · exact hneed hprev rfl
  refine ⟨b.signatures.keys.toFinset, ?_, fun r hr => ?_⟩
  · rw [toFinset_card_of_nodup Std.ExtTreeMap.nodup_keys, Std.ExtTreeMap.length_keys]
    exact hsize
  · rw [mem_toFinset, Std.ExtTreeMap.mem_keys] at hr
    obtain ⟨sig, hsig⟩ := Option.isSome_iff_exists.mp (Std.ExtTreeMap.mem_iff_isSome_getElem?.mp hr)
    refine ⟨m, src, sig, hrecv, hsigs (mem_map.mpr ⟨(r, sig), ?_, rfl⟩), hvalid r sig hsig⟩
    exact Std.ExtTreeMap.mem_toList_iff_getElem?_eq_some.mpr hsig

theorem Delivers.certificate (h : Delivers P c c' b) (hc : c.Sound P)
    (hφ : Always (CatchUpCertified P c.config) c.trace) :
    Certificate P c.config c.trace (b.hash P) := by
  have hcert : ∀ m src, .recv m src ∈ c.trace → ∀ b ∈ m.catchUp P, b.Certified P c.config := by
    intro m src hrecv
    obtain ⟨t, -, hm⟩ := hφ.of_mem hrecv
    exact hm m rfl
  cases h with
  | quorum pp b _ replicas hpp hbatch _ hnodup hquorum hreplicas =>
    obtain ⟨-, -, b', -, hb', hdigest, -⟩ := hc.cur.preprep pp hpp
    obtain rfl : b' = b := by simpa [hb'] using hbatch
    refine ⟨(replicas.map Prod.fst).toFinset, ?_, fun r hr => ?_⟩
    · rw [toFinset_card_of_nodup hnodup, length_map]
      exact hquorum
    · obtain ⟨e, he, rfl⟩ := mem_map.mp (mem_toFinset.mp hr)
      obtain ⟨hrecv, hsig, -, hsame⟩ := hreplicas e he
      have hhash : P.bytes e.2.digest = b'.hash P := by rw [hsame, hdigest, P.bytes_some]
      exact ⟨_, _, e.2.signature, hrecv, by simp [msgSigs, hhash, Batch.hash], hhash ▸ hsig⟩
  | hello _ _ b _ hrecv hbatch hcheck hahead =>
    refine .of_checkBatch hrecv hcheck hahead (hcert _ _ hrecv b ?_) ?_
    · simp [Msg.catchUp, hbatch]
    · simp [msgSigs, hbatch]
  | newView _ m src _ _ best _ _ hrecv hm hjust hahead =>
    obtain ⟨r, vc, ⟨svc, cp, hd, hvset, -, hdec, -, hcp, hcheck⟩, hbest⟩ := hjust.exists_best
    obtain rfl : cp = best := by simpa [hcp] using hbest
    obtain ⟨hmem, hsigs⟩ := NewView.mem_checkpoints hvset hdec hcp
    rw [Batch.hash, Core.header_xsetBatch]
    refine .of_checkBatch hrecv hcheck hahead (hcert m src hrecv cp ?_)
      (List.Subset.trans hsigs (Msg.newViewSigs_subset hm))
    simp only [Msg.catchUp, hm, Option.toList_some, flatMap_singleton]
    exact mem_append_right _ hmem

/-- Every delivered batch has a certificate, if those caught up with are certified. -/
theorem Alone.certificates {id : ℕ} {r : Prop} (h : Alone P cfg id r c)
    (hφ : Always (CatchUpCertified P cfg) c.trace) :
    Always (fun e t => ∀ b, e = .deliver b → Certificate P cfg t (b.hash P)) c.trace := by
  refine h.induction_restart hφ ?_ (fun c hc => hc) ?_ ?_ ?_
  · intro e t hfree
    cases e <;> first | exact hfree.elim | simp [CatchUpCertified, received?]
  · intro t c hc _ ht
    cases hc <;> simpa using ht
  · intro c m src _ hc
    simpa using hc
  · intro c c' hc hφ hI hstep
    refine hI.extend hstep.frame.2.2 fun e t hnew ht _ b he => ?_
    subst he
    obtain ⟨rfl, -⟩ := hc.frame
    have hcert := (hstep.delivers hc.sound hnew).certificate hc.sound (hφ.suffix hstep.frame.2.2)
    exact hcert.extend ht

/-- Every delivered batch has a header that a correct replica signed a checkpoint for. -/
def AuthenticHeaders (P : Primitives β) (B : Finset ℕ) (sys : System β) : Prop :=
  ∀ e ∈ sys.histories B, ∀ b ∈ delivered e.2, ∃ e' ∈ sys.histories B, ∃ sub ∈ attested e'.2,
    P.bytes sub.digest = b.hash P

instance (B : Finset ℕ) (sys : System β) : Decidable (AuthenticHeaders P B sys) :=
  inferInstanceAs (Decidable (∀ e ∈ sys.histories B, ∀ b ∈ delivered e.2, ∃ e' ∈ _, ∃ sub ∈ _, _))

/-- Headers are authentic in every run in which the batches caught up with are certified. -/
theorem authenticHeaders_of_certified {cfg : Config} {B : Finset ℕ} {ls : List (Label β)}
    {sys : System β} (hB : B.card ≤ cfg.F)
    (hrun : System.run P B (System.init P cfg) ls = some sys)
    (hφ : ∀ e ∈ sys.histories B, Always (CatchUpCertified P cfg) e.2) :
    AuthenticHeaders P B sys := by
  obtain ⟨g, hg, hhist⟩ := run_refines hrun
  rintro ⟨i, t⟩ hit b hb
  obtain ⟨hi, hiB, rfl⟩ := (hhist i t).mp hit
  obtain ⟨t, ht, hcert⟩ := ((hg.alone i hi).certificates (hφ _ hit)).of_mem (mem_delivered.mp hb)
  -- one of the replicas behind the certificate is correct
  obtain ⟨S, hcard, hS⟩ := hcert b rfl
  have hlt := lt_of_le_of_lt hB hcard
  obtain ⟨r, hr, hrB⟩ := exists_not_mem_of_card_lt hlt
  obtain ⟨m, src, sig, hrecv, hmem, hsig⟩ := hS r hr
  obtain ⟨-, -, hgenuine⟩ := hg.recv i hi hiB m src (ht.subset (mem_cons_of_mem _ hrecv))
  obtain ⟨hrN, hdata⟩ := (hgenuine r _ sig hmem hsig).resolve_left hrB
  obtain ⟨sub, hsub, hhash⟩ := exists_signCheckpoint hdata
  exact ⟨(r, (g r).trace), (hhist r _).mpr ⟨hrN, hrB, rfl⟩, sub, mem_attested.mpr hsub, hhash⟩

/-- Replica 0 executes the first batch; Byzantine replica 3 sends it to replica 2 with other
payloads. -/
def catchUpRun (payloads : List Term) : List (Label Term) :=
  let d := (firstBatch 7).hash symbolic
  let b : Batch Term := { firstBatch 7 with
    payloads, signatures := Std.ExtTreeMap.ofList [(0, Term.sig 0 d), (3, Term.sig 3 d)] }
  [.of 0 (.request (.nat 7)), .of 0 (.deliver 0 0), .of 1 (.deliver 0 1), .of 0 (.deliver 1 0),
    .of 0 (.inject 3 (.prepare (firstSubject 0 7))), .of 1 (.deliver 1 0),
    .of 1 (.inject 3 (.prepare (firstSubject 0 7))), .of 0 (.deliver 0 1), .of 0 (.deliver 1 0),
    .of 0 (.inject 3 (.commit (firstSubject 0 7))), .of 2 (.inject 3 (.hello ⟨some b, none⟩))]

theorem authenticHeaders_catchUpRun : ∃ sys,
    System.run symbolic {3} (System.init symbolic fourReplicas) (catchUpRun []) = some sys ∧
      (∃ e ∈ sys.histories {3}, delivered e.2 ≠ []) ∧ AuthenticHeaders symbolic {3} sys := by
  refine System.exists_of_always {3} (CatchUpCertified symbolic fourReplicas) (by decide +kernel) ?_
  exact fun sys hrun hφ => authenticHeaders_of_certified (by decide) hrun hφ

/-- A hello makes a correct replica deliver a header that nobody else has seen: it has no previous
hash and needs no signatures. -/
theorem not_authenticHeaders_hello : ∃ sys,
    System.run symbolic {3} (System.init symbolic fourReplicas)
      [.of 0 (.inject 3 (.hello ⟨some ⟨.ofHeader ⟨1, none, none⟩, [], ∅⟩, none⟩))] = some sys ∧
      ¬ AuthenticHeaders symbolic {3} sys :=
  by decide +kernel

/-! ### Intact payloads -/

/-- The batch has no payloads, or those its header has the hash of. -/
def Batch.PayloadsMatch (P : Primitives β) (b : Batch β) : Prop :=
  b.payloads = [] ∨
    (P.unmarshalHeader b.header).map BatchHeader.dataHash = some (merkleHashData P b.payloads)

instance (b : Batch β) : Decidable (b.PayloadsMatch P) := inferInstanceAs (Decidable (_ ∨ _))

/-- Batches that a replica may catch up with match their payloads, and a checkpoint at the position
of the request in flight is over the same data. -/
def CatchUpMatches (P : Primitives β) (e : Event β) (_ : List (Event β)) : Prop :=
  (∀ m ∈ e.received?, ∀ b ∈ m.catchUp P, b.PayloadsMatch P) ∧
  ∀ a ∈ e.newView?, ∀ cp ∈ a.1.checkpoints P, seqOf P cp = a.2.cur.seq.seq →
    ∀ b ∈ a.2.cur.preprep.bind Preprepare.batch,
      (P.unmarshalHeader b.header).map BatchHeader.dataHash =
        (P.unmarshalHeader cp.header).map BatchHeader.dataHash

instance (e : Event β) (t : List (Event β)) : Decidable (CatchUpMatches P e t) :=
  inferInstanceAs (Decidable ((∀ m ∈ e.received?, ∀ b ∈ m.catchUp P, _) ∧
    ∀ a ∈ e.newView?, ∀ cp ∈ a.1.checkpoints P, _ → ∀ b ∈ _, _ = _))

theorem Delivers.payloadsMatch (h : Delivers P c c' b) (hc : c.Sound P)
    (hφ : Always (CatchUpMatches P) c'.trace) (hsuffix : c.trace <:+ c'.trace) :
    b.PayloadsMatch P := by
  have hmatch : ∀ m src, .recv m src ∈ c.trace → ∀ b ∈ m.catchUp P, b.PayloadsMatch P := by
    intro m src hrecv
    obtain ⟨t, -, hm⟩ := hφ.of_mem (hsuffix.subset hrecv)
    exact hm.1 m rfl
  cases h with
  | quorum pp _ _ _ hpp hbatch =>
    have hchecked := hc.checked pp (hc.cur.preprep pp hpp).1
    exact .inr (by simpa using hchecked.payloads hbatch)
  | hello _ _ b _ hrecv hbatch =>
    exact hmatch _ _ hrecv b (by simp [Msg.catchUp, hbatch])
  | newView _ m src _ _ best hcall he hrecv hm hjust =>
    obtain ⟨r, vc, ⟨svc, cp, hd, hvset, -, hdec, -, hcp, -⟩, hbest⟩ := hjust.exists_best
    obtain rfl : cp = best := by simpa [hcp] using hbest
    have hmem := (NewView.mem_checkpoints hvset hdec hcp).1
    have hcpmatch : cp.PayloadsMatch P := by
      refine hmatch m src hrecv cp (mem_append_right _ ?_)
      simpa only [hm, Option.toList_some, flatMap_singleton] using hmem
    unfold Core.xsetBatch
    split_ifs with hseq
    · split
      · -- the payloads come from the request in flight
        rename_i b hb
        obtain ⟨pp, hpp, hb'⟩ := Option.bind_eq_some_iff.mp hb
        obtain ⟨t, -, hentry⟩ := hφ.of_mem hcall
        have hsame := hentry.2 _ he cp hmem hseq b hb
        have hchecked := hc.checked pp (hc.cur.preprep pp hpp).1
        exact .inr (hsame.symm.trans (hchecked.payloads hb'))
      · exact hcpmatch
    · exact hcpmatch

/-- Every delivered batch matches its payloads, if those caught up with do. -/
theorem Alone.payloadsMatch {id : ℕ} {r : Prop} (h : Alone P cfg id r c)
    (hφ : Always (CatchUpMatches P) c.trace) :
    Always (fun e _ => ∀ b, e = .deliver b → b.PayloadsMatch P) c.trace := by
  refine h.induction_restart hφ ?_ (fun c hc => hc) ?_ ?_ ?_
  · intro e t hfree
    cases e with
    | recv => exact hfree.elim
    | call k =>
      cases k <;> first | exact hfree.elim | simp [CatchUpMatches, received?,
        newView?, entersView?, hello?]
    | _ => simp [CatchUpMatches, received?, newView?, entersView?, hello?]
  · intro t c hc _ ht
    cases hc <;> simpa using ht
  · intro c m src _ hc
    simpa using hc
  · intro c c' hc hφ hI hstep
    refine hI.extend hstep.frame.2.2 fun e t hnew _ _ b he => ?_
    subst he
    exact (hstep.delivers hc.sound hnew).payloadsMatch hc.sound hφ hstep.frame.2.2

/-- Every delivered batch has no payloads, or those its header has the hash of. -/
def IntactPayloads (P : Primitives β) (B : Finset ℕ) (sys : System β) : Prop :=
  ∀ e ∈ sys.histories B, ∀ b ∈ delivered e.2, b.PayloadsMatch P

instance (B : Finset ℕ) (sys : System β) : Decidable (IntactPayloads P B sys) :=
  inferInstanceAs (Decidable (∀ e ∈ sys.histories B, ∀ b ∈ delivered e.2, _))

/-- Payloads are intact in every run in which those caught up with match. -/
theorem intactPayloads_of_matching {cfg : Config} {B : Finset ℕ} {ls : List (Label β)}
    {sys : System β} (hrun : System.run P B (System.init P cfg) ls = some sys)
    (hφ : ∀ e ∈ sys.histories B, Always (CatchUpMatches P) e.2) : IntactPayloads P B sys := by
  obtain ⟨g, hg, hhist⟩ := run_refines hrun
  rintro ⟨i, t⟩ hit b hb
  obtain ⟨hi, -, rfl⟩ := (hhist i t).mp hit
  obtain ⟨-, -, hmatch⟩ := ((hg.alone i hi).payloadsMatch (hφ _ hit)).of_mem (mem_delivered.mp hb)
  exact hmatch b rfl

theorem intactPayloads_catchUpRun : ∃ sys,
    System.run symbolic {3} (System.init symbolic fourReplicas) (catchUpRun [.nat 7]) = some sys ∧
      (∃ e ∈ sys.histories {3}, delivered e.2 ≠ []) ∧ IntactPayloads symbolic {3} sys := by
  refine System.exists_of_always {3} (CatchUpMatches symbolic) (by decide +kernel) ?_
  exact fun sys hrun hφ => intactPayloads_of_matching hrun hφ

/-- A hello with a genuine header makes a correct replica deliver payloads of another batch. -/
theorem not_intactPayloads_hello : ∃ sys,
    System.run symbolic {3} (System.init symbolic fourReplicas) (catchUpRun [.nat 8]) = some sys ∧
      ¬ IntactPayloads symbolic {3} sys :=
  by decide +kernel

/-! ### What a data hash stands for -/

omit [DecidableEq β] in
/-- No other list of payloads has the hash of a list, exactly if the list is a single payload that
is not made of two digests. -/
theorem merkleHashData_unique_iff {xs : List β} (hxs : xs ≠ []) :
    (∀ ys, ys ≠ [] → merkleHashData P xs = merkleHashData P ys → xs = ys) ↔
      ∃ x, xs = [x] ∧ ∀ a b, x ≠ P.append (P.hash a) (P.hash b) := by
  have hseveral : ∀ zs, 1 < zs.length → ∃ a b,
      merkleHashData P zs = merkleHashData P [P.append (P.hash a) (P.hash b)] := fun zs hlen =>
    head?_merkleReduce le_rfl (by simpa using hlen) (map_hash_hashes zs)
  constructor
  · intro hunique
    obtain ⟨x, rfl⟩ : ∃ x, xs = [x] := by
      refine length_eq_one_iff.mp (Nat.le_antisymm (not_lt.mp fun hlen => ?_)
        (length_pos_iff.mpr hxs))
      obtain ⟨a, b, heq⟩ := hseveral xs hlen
      rw [hunique _ (cons_ne_nil _ _) heq] at hlen
      exact Nat.lt_irrefl _ hlen
    refine ⟨x, rfl, ?_⟩
    rintro a b rfl
    have hpair := hunique [a, b] (cons_ne_nil _ _) rfl
    simpa using congrArg List.length hpair
  · rintro ⟨x, rfl, hx⟩ ys hys heq
    by_cases hlen : 1 < ys.length
    · obtain ⟨a, b, hab⟩ := hseveral ys hlen
      exact absurd (P.hash_injective (Option.some.inj (heq.trans hab))) (hx a b)
    · obtain ⟨y, rfl⟩ := length_eq_one_iff.mp
        (Nat.le_antisymm (not_lt.mp hlen) (length_pos_iff.mpr hys))
      rw [P.hash_injective (Option.some.inj heq)]

theorem merkleHashData_unique_nat : ([.nat 7] : List Term) ≠ [] ∧ ∀ ys, ys ≠ [] →
    merkleHashData symbolic [.nat 7] = merkleHashData symbolic ys → [.nat 7] = ys :=
  ⟨cons_ne_nil _ _, (merkleHashData_unique_iff (cons_ne_nil _ _)).mpr
    ⟨_, rfl, fun _ _ heq => Term.noConfusion heq⟩⟩

/-- Two payloads have the hash of the one that is made of their digests. -/
theorem merkleHashData_twoPayloads : merkleHashData symbolic [.nat 1, .nat 2] =
      merkleHashData symbolic [.pair (.hash (.nat 1)) (.hash (.nat 2))] ∧
    ([.nat 1, .nat 2] : List Term) ≠ [.pair (.hash (.nat 1)) (.hash (.nat 2))] := by
  decide

end Fabric.Sbft
