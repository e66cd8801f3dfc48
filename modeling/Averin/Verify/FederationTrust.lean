import Averin.Verify.BrokerTrust

/-!
# Trust in the logs of several brokers

With more than one broker the grants are split by the broker they name. Each broker has a
log of its own and a head of its own on every checkpoint, and the checks on the single log
are made once a broker. A broker whose log or heads fail is suppressed; a failure that
belongs to no broker fails all of them.
-/

namespace Averin

open Std (TreeMap TreeSet)

/-- The nodes a frontier commits. -/
def DagIndex.seenFrom (dix : DagIndex) (frontier : List String) : List Nat :=
  let start := frontier.filterMap (dix.nodeOf[·]?)
  explore dix.parentsOf
    (start.length + openEdges dix.parentsOf (List.range dix.parents.length) []) start.reverse []

/-- The brokers of the seen log entries. A log record without a node refuses the answer. -/
def seenBrokers (dix : DagIndex) (records : List CanonValue) (seen : List Nat) :
    List RecordTrust → Option (List String)
  | [] => some []
  | rt :: rest =>
    match logPayloadKey rt.brokerRole with
    | none => seenBrokers dix records seen rest
    | some key =>
      records[rt.index]?.bind fun rec =>
        dix.nodeOf[rt.contentHash]?.bind fun node =>
          if !seen.contains node || (brokerSeq rec key).isNone then
            seenBrokers dix records seen rest
          else (seenBrokers dix records seen rest).map ((brokerId rec key).toList ++ ·)

/-- The brokers whose log is not empty at a frontier, found in one walk. -/
def brokersCommittedBy (dix : DagIndex) (rts : List RecordTrust) (records : List CanonValue)
    (frontier : List String) : Option (List String) :=
  seenBrokers dix records (dix.seenFrom frontier) rts

/-- A verified checkpoint with a well-formed map of heads, one a broker. -/
structure FedHeadCp where
  seq : Int
  anchored : Bool
  heads : TreeMap String GrantHead
  frontier : List String

/-- The head of one broker at its checkpoint. -/
def FedHeadCp.entry (b : String) (c : FedHeadCp) : Option HeadEntry :=
  c.heads[b]?.map fun head => ⟨c.seq, head, c.frontier⟩

/-- What is said of a federation. -/
inductive FederationStatus where
  | absent | suppression | sequenceVerified | sequenceConsistentExport
  deriving DecidableEq, Repr

/-- What is wrong with it. -/
inductive FederationIssue where
  | malformedHeads
  /-- A committed grant outside of every partition. -/
  | grantWithoutBroker (contentHash : String)
  | grantWithoutSeq (contentHash : String)
  | voidWithoutBroker (contentHash : String)
  /-- A grant id bound to several triples of broker, number and hash. -/
  | equivocatedGrant (grantId : String) (tuples : Nat)
  /-- A verified checkpoint that commits log entries of a broker without any heads. -/
  | headlessCheckpoint (broker : String)
  | latestWithoutHeads
  | latestWithoutHead (broker : String)
  /-- A head for a broker that has nothing committed. -/
  | phantomHead (seq : Int) (broker : String)
  | duplicateSeq (broker : String) (seq : Int)
  /-- A checkpoint that commits log entries of a broker without a head for it. -/
  | checkpointWithoutHead (broker : String) (seq : Int)
  | head (broker : String) (seq : Int) (fault : HeadFault)
  deriving DecidableEq, Repr

/-- The result, broker by broker. -/
structure FederationEval where
  brokerTrust : BrokerTrust
  status : FederationStatus
  brokersTotal : Nat
  brokersSeqVerified : Nat
  crossBrokerSuppression : Nat
  perBroker : List (String × FederationStatus)
  deriving DecidableEq, Repr

/-- The committed tombstones among the trust entries. -/
def committedVoids (rts : List RecordTrust) (committed : List String) : List RecordTrust :=
  rts.filter fun rt => rt.brokerRole == .void && committed.contains rt.contentHash

/-- A grant binds its id to its broker, its number and its hash. -/
def federatedBinding (records : List CanonValue) (rt : RecordTrust) :
    Option (String × (String × Int × String)) :=
  let grant := recordAt records rt
  (evStr grant "grant_evidence" "grant_id").map fun gid =>
    (gid, ((brokerId grant "grant_evidence").getD "",
      (evInt grant "grant_evidence" "broker_seq").getD 0, rt.contentHash))

/-- The heads of brokers outside of a list, each broker once. -/
def phantomHeads (brokers : List String) : List (Int × String) → (seen : List String) →
    List (Int × String)
  | [], _ => []
  | (seq, b) :: rest, seen =>
    if b ∈ brokers ∨ b ∈ seen then phantomHeads brokers rest seen
    else (seq, b) :: phantomHeads brokers rest (b :: seen)

section

variable (sha256 : List UInt8 → Vector UInt8 32) (cpFedHeads : List FedHeadCp)
  (verifiedFedHeadless : List (List String)) (malformedFedHead : Bool) (rts : List RecordTrust)
  (records : List CanonValue) (byHash : TreeMap String Nat) (topoOrder dagHeads : List String)
  (latestCpSeq : Int)

/-- The brokers with a committed grant or tombstone, in order. -/
def fedBrokers : List String :=
  let committed := committedSet records byHash dagHeads
  let named (key : String) (l : List RecordTrust) :=
    l.filterMap fun rt => brokerId (recordAt records rt) key
  (TreeSet.ofList (named "grant_evidence" (committedGrants rts committed) ++
    named "void_evidence" (committedVoids rts committed))).toList

/-- The committed grants and tombstones that are in no log. -/
def smuggledIssues : List FederationIssue :=
  let committed := committedSet records byHash dagHeads
  let grants := (committedGrants rts committed).flatMap fun rt =>
    (if (brokerId (recordAt records rt) "grant_evidence").isNone then
      [.grantWithoutBroker rt.contentHash] else []) ++
    (if (brokerSeq (recordAt records rt) "grant_evidence").isNone then
      [.grantWithoutSeq rt.contentHash] else [])
  let voids := (committedVoids rts committed).filter fun rt =>
    (brokerId (recordAt records rt) "void_evidence").isNone
  grants ++ voids.map fun rt => .voidWithoutBroker rt.contentHash

/-- Numbers that two records of one broker claim. -/
def equivocatedIssues : List FederationIssue :=
  let grants := committedGrants rts (committedSet records byHash dagHeads)
  (equivocated (bindings (federatedBinding records) grants ∅)).map fun (gid, tuples) =>
    .equivocatedGrant gid tuples

/-- Whether a frontier commits entries of a broker, from one walk or from scratch. -/
def commitsBroker (frontier : List String) (b : String) : Bool :=
  match (DagIndex.build records byHash topoOrder).bind
      (brokersCommittedBy · rts records frontier) with
  | some committing => committing.contains b
  | none => !(committedBrokerLog rts records byHash frontier (some b)).isEmpty

/-- The brokers each headless frontier commits. -/
def headlessHits (brokers : List String) : List String :=
  (distinctFrontiers verifiedFedHeadless).flatMap fun frontier =>
    brokers.filter (commitsBroker rts records byHash topoOrder frontier)

/-- The brokers without a head on the latest checkpoint. -/
def latestMissing (brokers : List String) : List String :=
  match cpFedHeads.find? (·.seq == latestCpSeq) with
  | none => brokers
  | some latest => brokers.filter (!latest.heads.contains ·)

/-- The issues of the log and the heads of one broker. -/
def partitionIssues (b : String) : List FederationIssue :=
  let logIndex := (DagIndex.build records byHash topoOrder).bind
    (LogIndex.build · rts records (some b))
  let bare := cpFedHeads.filter fun c =>
    c.heads[b]?.isNone && commitsLog rts records byHash (some b) logIndex c.frontier
  let faults := checkHeads sha256 rts records byHash (some b) (newCursor sha256 logIndex)
    (grantHeadRoot sha256 []) (orderHeads (cpFedHeads.filterMap (FedHeadCp.entry b)))
  (duplicateSeqs (committedBrokerLog rts records byHash dagHeads (some b))).map (.duplicateSeq b) ++
    bare.map (fun c => .checkpointWithoutHead b c.seq) ++
    faults.map fun (seq, fault) => .head b seq fault

/-- The brokers whose own log or heads fail. -/
def suppressed (brokers : List String) (b : String) : Bool :=
  (headlessHits verifiedFedHeadless rts records byHash topoOrder brokers).contains b ||
    (latestMissing cpFedHeads latestCpSeq brokers).contains b ||
    !(partitionIssues sha256 cpFedHeads rts records byHash topoOrder dagHeads b).isEmpty

/-- The verdict on all the logs and the issues it reports. -/
def computeFederationTrust : FederationEval × List FederationIssue :=
  let brokers := fedBrokers rts records byHash dagHeads
  let smuggled := smuggledIssues rts records byHash dagHeads
  let equivocated := equivocatedIssues rts records byHash dagHeads
  let phantom := phantomHeads brokers
    (cpFedHeads.flatMap fun c => c.heads.keys.map (c.seq, ·)) []
  let latest := cpFedHeads.find? (·.seq == latestCpSeq)
  let issues := (if malformedFedHead then [.malformedHeads] else []) ++ smuggled ++ equivocated ++
    (headlessHits verifiedFedHeadless rts records byHash topoOrder brokers).map
      .headlessCheckpoint ++
    (match latest with
      | none => [.latestWithoutHeads]
      | some _ => (latestMissing cpFedHeads latestCpSeq brokers).map .latestWithoutHead) ++
    phantom.map (fun (seq, b) => .phantomHead seq b) ++
    brokers.flatMap (partitionIssues sha256 cpFedHeads rts records byHash topoOrder dagHeads)
  let perBroker := brokers.map fun b =>
    (b, if suppressed sha256 cpFedHeads verifiedFedHeadless rts records byHash topoOrder dagHeads
        latestCpSeq brokers b then FederationStatus.suppression
      else if latest.any (·.anchored) then .sequenceVerified else .sequenceConsistentExport)
  let cross := perBroker.countP (·.2 == .suppression)
  let worst := if perBroker.any (·.2 == .sequenceConsistentExport) then
    BrokerTrust.sequenceConsistentExport else .sequenceVerified
  let failed := !smuggled.isEmpty || !equivocated.isEmpty || malformedFedHead ||
    !phantom.isEmpty || 0 < cross
  ({ brokerTrust := if failed || brokers.isEmpty then .assumed else worst
     status := if failed then .suppression else if brokers.isEmpty then .absent else
       match worst with
       | .sequenceConsistentExport => .sequenceConsistentExport
       | _ => .sequenceVerified
     brokersTotal := brokers.length
     brokersSeqVerified := perBroker.countP (·.2 == .sequenceVerified)
     crossBrokerSuppression := cross
     perBroker := perBroker }, issues)

end

variable {sha256 : List UInt8 → Vector UInt8 32} {cpFedHeads : List FedHeadCp}
  {verifiedFedHeadless : List (List String)} {malformedFedHead : Bool} {rts : List RecordTrust}
  {records : List CanonValue} {dag : Dag} {dagHeads : List String} {latestCpSeq : Int}
  {brokers : List String} {b : String}

/-- A node is seen when the frontier reaches it. -/
theorem mem_seenFrom {dix : DagIndex} {frontier : List String} {x : Nat} :
    x ∈ dix.seenFrom frontier ↔
      ReachedFrom dix.parentsOf (frontier.filterMap (dix.nodeOf[·]?)) x := by
  have hout : ∀ x ∉ List.range dix.parents.length, dix.parentsOf x = [] := fun x hx =>
    DagIndex.parentsOf_eq_nil (by simpa using hx)
  rw [DagIndex.seenFrom, mem_explore_iff List.nodup_range hout (by simp)]
  simp [ReachedFrom]

/-- The entries of a broker among the seen nodes name it. -/
theorem seenBrokers_eq_some {dix : DagIndex} {seen : List Nat} {out : List String}
    (h : seenBrokers dix records seen rts = some out) :
    (b ∈ out ↔ ∃ rt ∈ rts, logSeq records (some b) rt ≠ none ∧
        ∃ node ∈ seen, dix.nodeOf[rt.contentHash]? = some node) ∧
      ∀ rt ∈ rts, logSeq records (some b) rt ≠ none → dix.nodeOf[rt.contentHash]? ≠ none := by
  induction rts generalizing out with
  | nil =>
    obtain rfl : [] = out := by simpa [seenBrokers] using h
    simp
  | cons rt rest ih =>
    rw [seenBrokers] at h
    cases hkey : logPayloadKey rt.brokerRole with
    | none =>
      rw [hkey] at h
      have hseq : logSeq records (some b) rt = none := by simp [logSeq, hkey]
      obtain ⟨hmem, hknown⟩ := ih h
      refine ⟨hmem.trans ?_, List.forall_mem_cons.mpr ⟨fun hne => absurd hseq hne, hknown⟩⟩
      rw [List.exists_mem_cons_iff]
      simp [hseq]
    | some key =>
      simp only [hkey] at h
      obtain ⟨rec, hrec, h⟩ := Option.bind_eq_some_iff.mp h
      obtain ⟨node, hnode, h⟩ := Option.bind_eq_some_iff.mp h
      have hat : recordAt records rt = rec := by simp [recordAt, hrec]
      have hseq : logSeq records (some b) rt ≠ none ↔
          brokerId rec key = some b ∧ brokerSeq rec key ≠ none := by
        simp only [logSeq, hkey, Option.bind_some, hat, inPartition]
        by_cases hb : brokerId rec key = some b <;> simp [hb]
      have hhead : (logSeq records (some b) rt ≠ none ∧
          ∃ n ∈ seen, dix.nodeOf[rt.contentHash]? = some n) ↔
            (brokerId rec key = some b ∧ brokerSeq rec key ≠ none) ∧ node ∈ seen := by
        rw [hseq, hnode]
        simp
      split_ifs at h with hskip
      · obtain ⟨hmem, hknown⟩ := ih h
        refine ⟨hmem.trans ?_, List.forall_mem_cons.mpr ⟨fun _ => by simp [hnode], hknown⟩⟩
        rw [List.exists_mem_cons_iff, hhead]
        refine (or_iff_right ?_).symm
        rintro ⟨⟨-, hsome⟩, hseen⟩
        simp [hsome, hseen] at hskip
      · obtain ⟨tail, htail, rfl⟩ := Option.map_eq_some_iff.mp h
        obtain ⟨hmem, hknown⟩ := ih htail
        refine ⟨?_, List.forall_mem_cons.mpr ⟨fun _ => by simp [hnode], hknown⟩⟩
        rw [List.exists_mem_cons_iff, hhead, List.mem_append, hmem, Option.mem_toList]
        refine or_congr_left ?_
        simp only [Bool.or_eq_true, Bool.not_eq_true', List.contains_eq_mem,
          decide_eq_false_iff_not, Option.isNone_iff_eq_none, not_or, not_not] at hskip
        simp [hskip.1, hskip.2]

/-- Asking for a broker is asking whether its log is empty. -/
theorem commitsBroker_iff (hs : DagSpec records dag) {frontier : List String} :
    commitsBroker rts records dag.byHash dag.topoOrder frontier b = true ↔
      committedBrokerLog rts records dag.byHash frontier (some b) ≠ [] := by
  unfold commitsBroker
  cases hset : (DagIndex.build records dag.byHash dag.topoOrder).bind
      (brokersCommittedBy · rts records frontier) with
  | none => simp
  | some out =>
    obtain ⟨dix, hdix, hout⟩ := Option.bind_eq_some_iff.mp hset
    have hspec := hs.dagIndexSpec hdix
    obtain ⟨hmem, hknown⟩ := seenBrokers_eq_some (b := b) hout
    simp only [List.contains_eq_mem, decide_eq_true_eq, hmem]
    constructor
    · rintro ⟨rt, hrt, hseq, node, hseen, hnode⟩
      obtain ⟨seq, hseq⟩ := Option.ne_none_iff_exists'.mp hseq
      refine List.ne_nil_of_mem (a := (seq, rt.contentHash)) (mem_committedBrokerLog.mpr ?_)
      exact ⟨rt, hrt, mem_committedSet_iff.mpr
        ((hspec.reached_iff hs hnode).mpr (mem_seenFrom.mp hseen)), hseq, rfl⟩
    · intro hne
      obtain ⟨entry, hentry⟩ := List.exists_mem_of_ne_nil _ hne
      obtain ⟨rt, hrt, hcom, hseq, -⟩ := mem_committedBrokerLog.mp hentry
      have hsome : logSeq records (some b) rt ≠ none := by simp [hseq]
      obtain ⟨node, hnode⟩ := Option.ne_none_iff_exists'.mp (hknown rt hrt hsome)
      exact ⟨rt, hrt, hsome, node,
        mem_seenFrom.mpr ((hspec.reached_iff hs hnode).mp (mem_committedSet_iff.mp hcom)), hnode⟩

/-- The rules on the log and the heads of one broker: no headless checkpoint commits an
entry, the latest checkpoint has a head, equal numbers mean equal hashes, a checkpoint
without a head commits no entry, and the heads verify in order from the empty log. -/
structure PartitionRules (sha256 : List UInt8 → Vector UInt8 32) (cpFedHeads : List FedHeadCp)
    (verifiedFedHeadless : List (List String)) (dagHeads : List String) (latestCpSeq : Int)
    (b : String) (logOf : List String → List (Int × String)) : Prop where
  headed : ∀ frontier ∈ verifiedFedHeadless, logOf frontier = []
  latest : ∃ c, cpFedHeads.find? (·.seq == latestCpSeq) = some c ∧ b ∈ c.heads
  seq_unique : ∀ a ∈ logOf dagHeads, ∀ a' ∈ logOf dagHeads, a.1 = a'.1 → a.2 = a'.2
  carried : ∀ c ∈ cpFedHeads, c.heads[b]? = none → logOf c.frontier = []
  heads : HeadsVerify sha256 logOf (grantHeadRoot sha256 [])
    (orderHeads (cpFedHeads.filterMap (FedHeadCp.entry b)))

/-- A broker without a head is hit when a grant of it is committed. -/
theorem mem_headlessHits (hs : DagSpec records dag) :
    b ∈ headlessHits verifiedFedHeadless rts records dag.byHash dag.topoOrder brokers ↔
      b ∈ brokers ∧ ∃ frontier ∈ verifiedFedHeadless,
        committedBrokerLog rts records dag.byHash frontier (some b) ≠ [] := by
  simp only [headlessHits, List.mem_flatMap, mem_distinctFrontiers, List.mem_filter,
    commitsBroker_iff hs]
  constructor
  · rintro ⟨f, hf, hb, hne⟩
    exact ⟨hb, f, hf, hne⟩
  · rintro ⟨hb, f, hf, hne⟩
    exact ⟨f, hf, hb, hne⟩

/-- A broker is not missing when the latest checkpoint has its head. -/
theorem not_mem_latestMissing_iff (hb : b ∈ brokers) :
    b ∉ latestMissing cpFedHeads latestCpSeq brokers ↔
      ∃ c, cpFedHeads.find? (·.seq == latestCpSeq) = some c ∧ b ∈ c.heads := by
  unfold latestMissing
  cases cpFedHeads.find? (·.seq == latestCpSeq) with
  | none => simp [hb]
  | some c => simp [hb, TreeMap.contains_iff_mem]

/-- Nothing is wrong exactly if the partition is whole. -/
theorem partitionIssues_eq_nil_iff (hs : DagSpec records dag) :
    partitionIssues sha256 cpFedHeads rts records dag.byHash dag.topoOrder dagHeads b = [] ↔
      let logOf := fun frontier => committedBrokerLog rts records dag.byHash frontier (some b)
      (∀ a ∈ logOf dagHeads, ∀ a' ∈ logOf dagHeads, a.1 = a'.1 → a.2 = a'.2) ∧
      (∀ c ∈ cpFedHeads, c.heads[b]? = none → logOf c.frontier = []) ∧
      HeadsVerify sha256 logOf (grantHeadRoot sha256 [])
        (orderHeads (cpFedHeads.filterMap (FedHeadCp.entry b))) := by
  dsimp only
  unfold partitionIssues
  dsimp only
  rw [List.append_eq_nil_iff, List.append_eq_nil_iff, List.map_eq_nil_iff, List.map_eq_nil_iff,
    List.map_eq_nil_iff, duplicateSeqs_eq_nil_iff pairwise_committedBrokerLog,
    checkHeads_eq_nil_iff hs (cursorRight_newCursor hs), List.filter_eq_nil_iff, and_assoc]
  refine and_congr_right fun _ => and_congr_left fun _ => forall₂_congr fun c _ => ?_
  simp only [Bool.and_eq_true, Option.isNone_iff_eq_none, commitsLog_iff hs, not_and, not_not]

/-- A broker is not suppressed exactly when its log and its heads follow the rules. -/
theorem suppressed_eq_false_iff (hs : DagSpec records dag) (hb : b ∈ brokers) :
    suppressed sha256 cpFedHeads verifiedFedHeadless rts records dag.byHash dag.topoOrder dagHeads
        latestCpSeq brokers b = false ↔
      PartitionRules sha256 cpFedHeads verifiedFedHeadless dagHeads latestCpSeq b
        (committedBrokerLog rts records dag.byHash · (some b)) := by
  have hheadless : b ∉ headlessHits verifiedFedHeadless rts records dag.byHash dag.topoOrder
      brokers ↔ ∀ frontier ∈ verifiedFedHeadless,
        committedBrokerLog rts records dag.byHash frontier (some b) = [] := by
    rw [mem_headlessHits hs]
    simp [hb]
  simp only [suppressed, Bool.or_eq_false_iff, List.contains_eq_mem, decide_eq_false_iff_not,
    hheadless, not_mem_latestMissing_iff hb, Bool.not_eq_false', List.isEmpty_iff,
    partitionIssues_eq_nil_iff hs]
  constructor
  · rintro ⟨⟨h1, h2⟩, h3, h4, h5⟩
    exact ⟨h1, h2, h3, h4, h5⟩
  · rintro ⟨h1, h2, h3, h4, h5⟩
    exact ⟨⟨h1, h2⟩, h3, h4, h5⟩

/-- A tombstone committed by a frontier. -/
def CommittedVoid (rts : List RecordTrust) (records : List CanonValue)
    (byHash : TreeMap String Nat) (frontier : List String) (rt : RecordTrust) : Prop :=
  rt ∈ rts ∧ rt.brokerRole = .void ∧ rt.contentHash ∈ committedSet records byHash frontier

/-- A committed tombstone is a record in the closure. -/
theorem mem_committedVoids {committed : List String} {rt : RecordTrust} :
    rt ∈ committedVoids rts committed ↔
      rt ∈ rts ∧ rt.brokerRole = .void ∧ rt.contentHash ∈ committed := by
  simp [committedVoids]

/-- The brokers are those of the committed records. -/
theorem mem_fedBrokers {byHash : TreeMap String Nat} :
    b ∈ fedBrokers rts records byHash dagHeads ↔
      (∃ rt, CommittedGrant rts records byHash dagHeads rt ∧
        brokerId (recordAt records rt) "grant_evidence" = some b) ∨
      ∃ rt, CommittedVoid rts records byHash dagHeads rt ∧
        brokerId (recordAt records rt) "void_evidence" = some b := by
  simp only [fedBrokers, TreeSet.mem_toList, TreeSet.mem_ofList, List.contains_eq_mem,
    decide_eq_true_eq, List.mem_append, List.mem_filterMap, mem_committedGrants,
    mem_committedVoids]
  rfl

/-- A list of phantom heads is empty exactly when every head is of a listed broker. -/
theorem phantomHeads_eq_nil_iff {heads : List (Int × String)} :
    phantomHeads brokers heads [] = [] ↔ ∀ p ∈ heads, p.2 ∈ brokers := by
  induction heads with
  | nil => simp [phantomHeads]
  | cons p rest ih =>
    obtain ⟨seq, b⟩ := p
    rw [phantomHeads, List.forall_mem_cons]
    by_cases hb : b ∈ brokers
    · simp [hb, ih]
    · simp [hb]

/-- All the rules: heads are well formed and of known brokers, committed grants and
tombstones name a broker, grants are numbered and bound once, and every broker follows the
rules of its own log. -/
structure FederationRules (sha256 : List UInt8 → Vector UInt8 32) (cpFedHeads : List FedHeadCp)
    (verifiedFedHeadless : List (List String)) (malformedFedHead : Bool) (rts : List RecordTrust)
    (records : List CanonValue) (byHash : TreeMap String Nat) (dagHeads : List String)
    (latestCpSeq : Int) : Prop where
  well_formed : malformedFedHead = false
  grants : ∀ rt, CommittedGrant rts records byHash dagHeads rt →
    brokerId (recordAt records rt) "grant_evidence" ≠ none ∧
      brokerSeq (recordAt records rt) "grant_evidence" ≠ none
  voids : ∀ rt, CommittedVoid rts records byHash dagHeads rt →
    brokerId (recordAt records rt) "void_evidence" ≠ none
  bound_once : ∀ rt rt', CommittedGrant rts records byHash dagHeads rt →
    CommittedGrant rts records byHash dagHeads rt' → ∀ gid t t',
      federatedBinding records rt = some (gid, t) →
      federatedBinding records rt' = some (gid, t') → t = t'
  known : ∀ c ∈ cpFedHeads, ∀ b ∈ c.heads, b ∈ fedBrokers rts records byHash dagHeads
  inhabited : fedBrokers rts records byHash dagHeads ≠ []
  partitions : ∀ b ∈ fedBrokers rts records byHash dagHeads,
    PartitionRules sha256 cpFedHeads verifiedFedHeadless dagHeads latestCpSeq b
      (committedBrokerLog rts records byHash · (some b))

/-- Nothing is smuggled when every grant has its broker and number. -/
theorem smuggledIssues_eq_nil_iff {byHash : TreeMap String Nat} :
    smuggledIssues rts records byHash dagHeads = [] ↔
      (∀ rt, CommittedGrant rts records byHash dagHeads rt →
        brokerId (recordAt records rt) "grant_evidence" ≠ none ∧
          brokerSeq (recordAt records rt) "grant_evidence" ≠ none) ∧
      ∀ rt, CommittedVoid rts records byHash dagHeads rt →
        brokerId (recordAt records rt) "void_evidence" ≠ none := by
  have hif : ∀ {c : Prop} [Decidable c] {f : FederationIssue},
      (if c then [f] else []) = [] ↔ ¬ c := by
    intro c _ f
    split_ifs with hc <;> simp [hc]
  simp only [smuggledIssues, List.append_eq_nil_iff, List.flatMap_eq_nil_iff, List.map_eq_nil_iff,
    List.filter_eq_nil_iff, mem_committedGrants, mem_committedVoids, hif,
    Option.isNone_iff_eq_none]
  rfl

/-- Nobody equivocates when one number has one record. -/
theorem equivocatedIssues_eq_nil_iff {byHash : TreeMap String Nat} :
    equivocatedIssues rts records byHash dagHeads = [] ↔
      ∀ rt rt', CommittedGrant rts records byHash dagHeads rt →
        CommittedGrant rts records byHash dagHeads rt' → ∀ gid t t',
          federatedBinding records rt = some (gid, t) →
          federatedBinding records rt' = some (gid, t') → t = t' := by
  simp only [equivocatedIssues, List.map_eq_nil_iff, equivocated_eq_nil_iff, mem_committedGrants]
  exact ⟨fun h rt rt' hrt hrt' => h rt hrt rt' hrt', fun h rt hrt rt' hrt' => h rt rt' hrt hrt'⟩

/-- The verdict of one broker among the brokers of the federation. -/
theorem mem_perBroker_iff {byHash : TreeMap String Nat} {topoOrder : List String}
    {t : FederationStatus} :
    (b, t) ∈ (computeFederationTrust sha256 cpFedHeads verifiedFedHeadless malformedFedHead rts
        records byHash topoOrder dagHeads latestCpSeq).1.perBroker ↔
      b ∈ fedBrokers rts records byHash dagHeads ∧
        t = if suppressed sha256 cpFedHeads verifiedFedHeadless rts records byHash topoOrder
            dagHeads latestCpSeq (fedBrokers rts records byHash dagHeads) b then .suppression
          else if (cpFedHeads.find? (·.seq == latestCpSeq)).any (·.anchored) then .sequenceVerified
          else .sequenceConsistentExport := by
  simp only [computeFederationTrust, List.mem_map, Prod.mk.injEq]
  constructor
  · rintro ⟨b', hb', rfl, rfl⟩
    exact ⟨hb', rfl⟩
  · rintro ⟨hb, rfl⟩
    exact ⟨b, hb, rfl, rfl⟩

/-- The verdict is better than `assumed` exactly when the federation follows the rules. -/
theorem computeFederationTrust_ne_assumed_iff (hs : DagSpec records dag) :
    (computeFederationTrust sha256 cpFedHeads verifiedFedHeadless malformedFedHead rts records
        dag.byHash dag.topoOrder dagHeads latestCpSeq).1.brokerTrust ≠ .assumed ↔
      FederationRules sha256 cpFedHeads verifiedFedHeadless malformedFedHead rts records dag.byHash
        dagHeads latestCpSeq := by
  set brokers := fedBrokers rts records dag.byHash dagHeads with hbrokers
  set bad := suppressed sha256 cpFedHeads verifiedFedHeadless rts records dag.byHash dag.topoOrder
    dagHeads latestCpSeq brokers with hbad
  have hcross : ∀ t : FederationStatus, t ≠ .suppression →
      (((brokers.map fun b => (b, if bad b then FederationStatus.suppression else t)).countP
        (·.2 == .suppression)) = 0 ↔ ∀ b ∈ brokers, bad b = false) := by
    intro t ht
    rw [List.countP_eq_zero, List.forall_mem_map]
    refine forall₂_congr fun b _ => ?_
    cases bad b <;> simp [ht]
  have hphantom : phantomHeads brokers (cpFedHeads.flatMap fun c => c.heads.keys.map (c.seq, ·)) []
      = [] ↔ ∀ c ∈ cpFedHeads, ∀ b ∈ c.heads, b ∈ brokers := by
    rw [phantomHeads_eq_nil_iff]
    simp only [List.mem_flatMap, List.mem_map, TreeMap.mem_keys]
    constructor
    · intro h c hc b hb
      exact h (c.seq, b) ⟨c, hc, b, hb, rfl⟩
    · rintro h _ ⟨c, hc, b, hb, rfl⟩
      exact h c hc b hb
  have htrust : (computeFederationTrust sha256 cpFedHeads verifiedFedHeadless malformedFedHead rts
        records dag.byHash dag.topoOrder dagHeads latestCpSeq).1.brokerTrust ≠ .assumed ↔
      (smuggledIssues rts records dag.byHash dagHeads = [] ∧
        equivocatedIssues rts records dag.byHash dagHeads = [] ∧ malformedFedHead = false ∧
        (∀ c ∈ cpFedHeads, ∀ b ∈ c.heads, b ∈ brokers) ∧
        ∀ b ∈ brokers, bad b = false) ∧ brokers ≠ [] := by
    have hstatus : (if (cpFedHeads.find? (·.seq == latestCpSeq)).any (·.anchored) = true then
        FederationStatus.sequenceVerified else .sequenceConsistentExport) ≠ .suppression := by
      split_ifs <;> simp
    simp only [computeFederationTrust, ← hbrokers, ← hbad]
    generalize (if (cpFedHeads.find? (·.seq == latestCpSeq)).any (·.anchored) = true then
      FederationStatus.sequenceVerified else .sequenceConsistentExport) = t at hstatus ⊢
    rw [← hphantom, ← hcross t hstatus]
    split_ifs with hfail hany
    · refine iff_of_false (by simp) fun h => ?_
      simp [h] at hfail
    all_goals
      refine iff_of_true (by simp) ?_
      simp only [Bool.or_eq_true, not_or, Bool.not_eq_true, Bool.not_eq_false',
        List.isEmpty_iff, decide_eq_false_iff_not, not_lt, Nat.le_zero] at hfail
      obtain ⟨⟨⟨⟨⟨h1, h2⟩, h3⟩, h4⟩, h5⟩, h6⟩ := hfail
      exact ⟨⟨h1, h2, h3, h4, h5⟩, h6⟩
  rw [htrust, smuggledIssues_eq_nil_iff, equivocatedIssues_eq_nil_iff]
  constructor
  · rintro ⟨⟨⟨h1, h2⟩, h3, h4, h5, h6⟩, h7⟩
    exact ⟨h4, h1, h2, h3, h5, h7, fun b hb => (suppressed_eq_false_iff hs hb).mp (h6 b hb)⟩
  · rintro ⟨h1, h2, h3, h4, h5, h6, h7⟩
    exact ⟨⟨⟨h2, h3⟩, h4, h1, h5, fun b hb => (suppressed_eq_false_iff hs hb).mpr (h7 b hb)⟩, h6⟩

end Averin
