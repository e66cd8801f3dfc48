import Averin.Verify.BrokerTrust

/-!
# What a trusted log guarantees

A trusted verdict is global: the log of the whole DAG is numbered without a gap, holds
every committed grant, and every head is a prefix of it. Only the order of the heads is
not implied, since a later frontier may commit less than an earlier one.
-/

namespace Averin

open Std (TreeMap TreeSet)

variable {sha256 : List UInt8 → Vector UInt8 32} {cpHeads : List CheckpointHead}
  {verifiedHeadless : List (List String)} {malformedHead : Bool} {rts : List RecordTrust}
  {records : List CanonValue} {bid : Option String} {dag : Dag} {latestCpSeq : Int}

/-- A log depends on the members of its frontier only. -/
theorem committedBrokerLog_congr {byHash : TreeMap String Nat} {f g : List String}
    (h : ∀ rt ∈ rts, rt.contentHash ∈ committedSet records byHash f ↔
      rt.contentHash ∈ committedSet records byHash g) :
    committedBrokerLog rts records byHash f bid = committedBrokerLog rts records byHash g bid := by
  rw [committedBrokerLog_eq, committedBrokerLog_eq]
  refine congrArg _ (List.filterMap_congr fun rt hrt => ?_)
  simp only [committedEntry, h rt hrt]

/-- Frontiers with the same members commit the same. -/
theorem mem_committedSet_congr {byHash : TreeMap String Nat} {f g : List String}
    (h : ∀ x, x ∈ f ↔ x ∈ g) (x : String) :
    x ∈ committedSet records byHash f ↔ x ∈ committedSet records byHash g := by
  simp only [mem_committedSet_iff, ReachedFrom, h]

/-- What known hashes reach is known. -/
theorem DagSpec.mem_byHash_of_reached (hs : DagSpec records dag) {frontier : List String}
    (hf : ∀ f ∈ frontier, f ∈ dag.byHash) {h : String}
    (hh : h ∈ committedSet records dag.byHash frontier) : h ∈ dag.byHash :=
  (mem_committedSet_iff.mp hh).mem_of_closed hf fun _ _ _ hp => hs.keptParents_mem hp

/-- The heads of the DAG commit every known hash. -/
theorem DagSpec.mem_committedSet_heads (hs : DagSpec records dag) {h : String}
    (hh : h ∈ dag.byHash) : h ∈ committedSet records dag.byHash dag.heads :=
  mem_committedSet_iff.mpr (hs.exists_head hh)

/-- Two gapless logs, one inside the other, are prefixes. -/
theorem prefix_of_gapless {l full : List (Int × String)} (hl : isGapless l = true)
    (hfull : isGapless full = true) (hsub : ∀ e ∈ l, e ∈ full) : l = full.take l.length := by
  have hseq : ∀ {log : List (Int × String)}, isGapless log = true → ∀ (i : Nat) (e : Int × String),
      log[i]? = some e → e.1 = (i : Int) + 1 := by
    intro log hlog i e he
    have := List.all_eq_true.mp hlog (e, i) (List.mem_zipIdx_iff_getElem?.mpr he)
    simpa using this
  refine List.ext_getElem? fun i => ?_
  rw [List.getElem?_take]
  cases hi : l[i]? with
  | none =>
    have hle : l.length ≤ i := List.getElem?_eq_none_iff.mp hi
    rw [if_neg (by omega)]
  | some e =>
    have hlt : i < l.length := (List.getElem?_eq_some_iff.mp hi).1
    obtain ⟨j, hj⟩ := List.mem_iff_getElem?.mp (hsub e (List.mem_of_getElem? hi))
    have h1 := hseq hl i e hi
    have h2 := hseq hfull j e hj
    obtain rfl : i = j := by omega
    rw [if_pos hlt, hj]

/-- Heads that verify name one another's roots. -/
theorem HeadsVerify.chain {logOf : List String → List (Int × String)} {prevRoot : String}
    {entries : List HeadEntry} (h : HeadsVerify sha256 logOf prevRoot entries) :
    (∀ e ∈ entries.head?, e.head.priorHeadHash = prevRoot) ∧
      entries.IsChain fun a b =>
        b.head.priorHeadHash = grantHeadRoot sha256 (logOf a.frontier) := by
  induction entries generalizing prevRoot with
  | nil => simp
  | cons e rest ih =>
    obtain ⟨hmatch, hprior, hrest⟩ := h
    obtain ⟨hfirst, hchain⟩ := ih hrest
    refine ⟨by simpa using hprior, ?_⟩
    cases rest with
    | nil => simp
    | cons b rest =>
      refine List.isChain_cons_cons.mpr ⟨?_, hchain⟩
      rw [← hmatch.root]
      exact hfirst b rfl

/-- A trusted grant log. If the verdict is better than `assumed` and the latest checkpoint
has the heads of the DAG as its frontier, then the log of the DAG is numbered `1..N`, it
holds every committed grant, grant ids are bound once, checkpoints that commit a log entry
carry a matching head, each head is a prefix of the whole log, and each names the root of
the log before it. -/
theorem broker_trust_sound (h : build records = .ok dag)
    (hlatest : ∀ c, cpHeads.find? (·.seq == latestCpSeq) = some c →
      ∀ f, f ∈ c.frontier ↔ f ∈ dag.heads)
    (htrust : (computeBrokerTrust sha256 cpHeads verifiedHeadless malformedHead rts records
      dag.byHash dag.topoOrder dag.heads latestCpSeq).1 ≠ .assumed) :
    let log := fun frontier => committedBrokerLog rts records dag.byHash frontier none
    let full := log dag.heads
    full.map (·.1) = (List.range full.length).map (fun k : Nat => (k : Int) + 1) ∧
      (∀ rt, CommittedGrant rts records dag.byHash dag.heads rt →
        ∃ seq, (seq, rt.contentHash) ∈ full) ∧
      (∀ rt rt', CommittedGrant rts records dag.byHash dag.heads rt →
        CommittedGrant rts records dag.byHash dag.heads rt' → ∀ gid,
        evStr (recordAt records rt) "grant_evidence" "grant_id" = some gid →
        evStr (recordAt records rt') "grant_evidence" "grant_id" = some gid →
        evInt (recordAt records rt) "grant_evidence" "broker_seq" =
            evInt (recordAt records rt') "grant_evidence" "broker_seq" ∧
          rt.contentHash = rt'.contentHash) ∧
      malformedHead = false ∧ (∀ frontier ∈ verifiedHeadless, log frontier = []) ∧
      (∀ c ∈ cpHeads, c.head.maxSeq = (log c.frontier).length ∧
        c.head.cumulativeRoot = grantHeadRoot sha256 (log c.frontier)) ∧
      (∀ c ∈ cpHeads, (∀ f ∈ c.frontier, f ∈ dag.byHash) →
        log c.frontier = full.take c.head.maxSeq.toNat) ∧
      (∀ e ∈ (orderHeads (cpHeads.map CheckpointHead.entry)).head?,
        e.head.priorHeadHash = grantHeadRoot sha256 []) ∧
      (orderHeads (cpHeads.map CheckpointHead.entry)).IsChain fun a b =>
        b.head.priorHeadHash = grantHeadRoot sha256 (log a.frontier) := by
  intro log full
  have hs := build_eq_ok h
  have hrules := (computeBrokerTrust_ne_assumed_iff hs).mp htrust
  have hmatch : ∀ c ∈ cpHeads, HeadMatches sha256 (log c.frontier) c.head := fun c hc =>
    hrules.heads.matches c.entry (mem_orderHeads.mpr (List.mem_map_of_mem hc))
  have hfull : isGapless full = true := by
    obtain ⟨c, hc, hseq⟩ := hrules.latest
    have hfind : (cpHeads.find? (·.seq == latestCpSeq)).isSome = true :=
      List.find?_isSome.mpr ⟨c, hc, by simpa using hseq⟩
    obtain ⟨latest, hfound⟩ := Option.isSome_iff_exists.mp hfind
    have hsame : log latest.frontier = full :=
      committedBrokerLog_congr fun rt _ => mem_committedSet_congr (hlatest latest hfound) _
    exact hsame ▸ (hmatch latest (List.mem_of_find?_eq_some hfound)).gapless
  refine ⟨isGapless_iff.mp hfull, ?_, ?_, hrules.log.well_formed, hrules.log.headed,
    fun c hc => ⟨(hmatch c hc).maxSeq, (hmatch c hc).root⟩, ?_, hrules.heads.chain⟩
  · rintro rt ⟨hrt, hrole, hcom⟩
    obtain ⟨seq, hseq⟩ := Option.ne_none_iff_exists'.mp
      (hrules.log.numbered rt ⟨hrt, hrole, hcom⟩)
    refine ⟨seq, mem_committedBrokerLog.mpr ⟨rt, hrt, hcom, ?_, rfl⟩⟩
    simp [logSeq, logPayloadKey, hrole, inPartition, hseq]
  · intro rt rt' hrt hrt' gid hgid hgid'
    have hbind := hrules.log.bound_once rt rt' hrt hrt' gid _ _
      (by rw [grantBinding, hgid]; rfl) (by rw [grantBinding, hgid']; rfl)
    obtain ⟨s, hev, -⟩ := exists_of_brokerSeq_ne_none (hrules.log.numbered rt hrt)
    obtain ⟨s', hev', -⟩ := exists_of_brokerSeq_ne_none (hrules.log.numbered rt' hrt')
    rw [hev, hev'] at hbind ⊢
    simpa using hbind
  · intro c hc hknown
    have hsub : ∀ e ∈ log c.frontier, e ∈ full := by
      intro e he
      obtain ⟨rt, hrt, hcom, hseq, heq⟩ := mem_committedBrokerLog.mp he
      exact mem_committedBrokerLog.mpr
        ⟨rt, hrt, hs.mem_committedSet_heads (hs.mem_byHash_of_reached hknown hcom), hseq, heq⟩
    rw [(hmatch c hc).maxSeq, Int.toNat_natCast]
    exact prefix_of_gapless (hmatch c hc).gapless hfull hsub

/-- A checkpoint over the first `n` of the two sample grants, after one over `prior`. -/
def sampleHead (seq : Int) (prior n : Nat) (frontier : List String) : CheckpointHead where
  seq := seq
  anchored := true
  head :=
    { maxSeq := n
      priorHeadHash := grantHeadRoot Sha256.digest ([(1, digest 'a'), (2, digest 'b')].take prior)
      cumulativeRoot := grantHeadRoot Sha256.digest ([(1, digest 'a'), (2, digest 'b')].take n) }
  frontier := frontier

/-- What the checks read of the two sample grants. -/
theorem exists_twoGrants_dag :
    ∃ dag, build twoGrants = .ok dag ∧ dag.heads = [digest 'b'] ∧
      LogRules [] false (recordTrustOf twoGrants) twoGrants dag.byHash [digest 'b'] ∧
      committedBrokerLog (recordTrustOf twoGrants) twoGrants dag.byHash [digest 'a'] none =
        [(1, digest 'a')] ∧
      committedBrokerLog (recordTrustOf twoGrants) twoGrants dag.byHash [digest 'b'] none =
        [(1, digest 'a'), (2, digest 'b')] := by
  obtain ⟨dag, hb, htest⟩ := exists_of_buildsWith twoGrants (fun dag =>
    decide (dag.heads = [digest 'b'] ∧
      logIssues [] false (recordTrustOf twoGrants) twoGrants dag.byHash dag.topoOrder
        [digest 'b'] = [] ∧
      committedBrokerLog (recordTrustOf twoGrants) twoGrants dag.byHash [digest 'a'] none =
        [(1, digest 'a')] ∧
      committedBrokerLog (recordTrustOf twoGrants) twoGrants dag.byHash [digest 'b'] none =
        [(1, digest 'a'), (2, digest 'b')])) (by decide +kernel)
  obtain ⟨hheads, hissues, ha, hb'⟩ := of_decide_eq_true htest
  exact ⟨dag, hb, hheads, (logIssues_eq_nil_iff (build_eq_ok hb)).mp hissues, ha, hb'⟩

/-- Two grants under two checkpoints. -/
theorem broker_trust_sound_two_grants :
    ∃ dag, build twoGrants = .ok dag ∧
      (committedBrokerLog (recordTrustOf twoGrants) twoGrants dag.byHash dag.heads none).map
        (·.1) = [1, 2] := by
  obtain ⟨dag, hb, hheads, hlog, ha, hb'⟩ := exists_twoGrants_dag
  have horder : orderHeads ([sampleHead 0 0 1 [digest 'a'], sampleHead 1 1 2 [digest 'b']].map
      CheckpointHead.entry) =
      [(sampleHead 0 0 1 [digest 'a']).entry, (sampleHead 1 1 2 [digest 'b']).entry] := rfl
  have hrules : GrantLogRules Sha256.digest
      [sampleHead 0 0 1 [digest 'a'], sampleHead 1 1 2 [digest 'b']] [] false
      (recordTrustOf twoGrants) twoGrants dag.byHash dag.heads 1 := by
    refine ⟨hheads ▸ hlog, ⟨_, List.mem_cons_of_mem _ List.mem_cons_self, rfl⟩, ?_⟩
    rw [horder]
    refine ⟨⟨?_, ?_, ?_⟩, rfl, ⟨?_, ?_, ?_⟩, rfl, trivial⟩ <;>
      simp only [CheckpointHead.entry, sampleHead, ha, hb'] <;> rfl
  refine ⟨dag, hb, ?_⟩
  have hsound := (broker_trust_sound hb (fun c hc f => ?_)
    ((computeBrokerTrust_ne_assumed_iff (build_eq_ok hb)).mpr hrules)).1
  · dsimp only at hsound
    rw [hsound, hheads, hb']
    rfl
  · have hfind : [sampleHead 0 0 1 [digest 'a'], sampleHead 1 1 2 [digest 'b']].find?
        (·.seq == 1) = some (sampleHead 1 1 2 [digest 'b']) := rfl
    rw [Option.some.inj (hc.symm.trans hfind), hheads]
    rfl

/-- The logs of the heads need not grow: the middle checkpoint commits less than the one
before it, and the verdict is still the best. -/
theorem head_logs_may_shrink :
    let heads := [sampleHead 0 0 2 [digest 'b'], sampleHead 1 2 1 [digest 'a'],
      sampleHead 2 1 2 [digest 'b']]
    ∃ dag, build twoGrants = .ok dag ∧ dag.heads = [digest 'b'] ∧
      computeBrokerTrust Sha256.digest heads [] false (recordTrustOf twoGrants) twoGrants
        dag.byHash dag.topoOrder dag.heads 2 = (.sequenceVerified, []) ∧
      ¬ (heads.map fun c => committedBrokerLog (recordTrustOf twoGrants) twoGrants dag.byHash
        c.frontier none).IsChain (· <+: ·) := by
  intro heads
  obtain ⟨dag, hb, hheads, hlog, ha, hb'⟩ := exists_twoGrants_dag
  have horder : orderHeads (heads.map CheckpointHead.entry) =
      heads.map CheckpointHead.entry := rfl
  have hrules : GrantLogRules Sha256.digest heads [] false (recordTrustOf twoGrants) twoGrants
      dag.byHash dag.heads 2 := by
    refine ⟨hheads ▸ hlog, ⟨sampleHead 2 1 2 [digest 'b'], by simp [heads], rfl⟩, ?_⟩
    rw [horder]
    refine ⟨⟨?_, ?_, ?_⟩, rfl, ⟨?_, ?_, ?_⟩, rfl, ⟨?_, ?_, ?_⟩, rfl, trivial⟩ <;>
      simp only [CheckpointHead.entry, sampleHead, ha, hb'] <;> rfl
  refine ⟨dag, hb, hheads, computeBrokerTrust_of_rules (build_eq_ok hb) hrules, fun hchain => ?_⟩
  have hprefix : committedBrokerLog (recordTrustOf twoGrants) twoGrants dag.byHash
      [digest 'b'] none <+: committedBrokerLog (recordTrustOf twoGrants) twoGrants dag.byHash
      [digest 'a'] none := (List.isChain_cons_cons.mp hchain).1
  rw [ha, hb'] at hprefix
  exact absurd hprefix.length_le (by decide)

end Averin
