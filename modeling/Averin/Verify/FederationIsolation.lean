import Averin.Verify.FederationTrust
import Averin.Verify.Transparency

/-!
# What a trusted federation guarantees

A trusted verdict says of every broker what the single-log verdict says of the one log.
The verdict of one broker depends on its own log and its own heads only, so the grants of
another broker can neither fill a gap in its log nor open one.
-/

namespace Averin

open Std (TreeMap TreeSet)

variable {sha256 : List UInt8 → Vector UInt8 32} {cpFedHeads cpFedHeads' : List FedHeadCp}
  {verifiedFedHeadless : List (List String)} {malformedFedHead malformedFedHead' : Bool}
  {records records' : List CanonValue} {dag dag' : Dag} {latestCpSeq : Int} {b : String}

/-- What a trusted verdict guarantees about the brokers. -/
structure FederationSound (sha256 : List UInt8 → Vector UInt8 32) (cpFedHeads : List FedHeadCp)
    (verifiedFedHeadless : List (List String)) (malformedFedHead : Bool) (rts : List RecordTrust)
    (records : List CanonValue) (byHash : TreeMap String Nat) (dagHeads : List String)
    (log : String → List String → List (Int × String)) : Prop where
  /-- A committed grant is in one partition, and in the log of that partition. -/
  grant_partition : ∀ rt, CommittedGrant rts records byHash dagHeads rt → ∃ b seq,
    (∀ b', inPartition (some b') (recordAt records rt) "grant_evidence" = true ↔ b' = b) ∧
      (seq, rt.contentHash) ∈ log b dagHeads
  void_partition : ∀ rt, CommittedVoid rts records byHash dagHeads rt → ∃ b,
    ∀ b', inPartition (some b') (recordAt records rt) "void_evidence" = true ↔ b' = b
  /-- Each log is numbered from one without a gap or a repetition. -/
  numbered : ∀ b, (log b dagHeads).map (·.1) =
    (List.range (log b dagHeads).length).map fun k : Nat => (k : Int) + 1
  well_formed : malformedFedHead = false
  /-- A checkpoint that commits an entry of a broker carries a head for it that says what
  its log is. -/
  headed : ∀ b, ∀ frontier ∈ verifiedFedHeadless, log b frontier = []
  carried : ∀ b, ∀ c ∈ cpFedHeads, log b c.frontier ≠ [] → ∃ head, c.heads[b]? = some head
  matching : ∀ b, ∀ c ∈ cpFedHeads, ∀ head : GrantHead, c.heads[b]? = some head →
    head.maxSeq = ((log b c.frontier).length : Int) ∧
      head.cumulativeRoot = grantHeadRoot sha256 (log b c.frontier)
  /-- The heads of a broker, in checkpoint order, start from the empty log and name the root
  of the log before them. -/
  first : ∀ b, ∀ e ∈ (orderHeads (cpFedHeads.filterMap (FedHeadCp.entry b))).head?,
    e.head.priorHeadHash = grantHeadRoot sha256 []
  chained : ∀ b, (orderHeads (cpFedHeads.filterMap (FedHeadCp.entry b))).IsChain fun a e =>
    e.head.priorHeadHash = grantHeadRoot sha256 (log b a.frontier)
  /-- A head is for a broker with a committed grant or tombstone. -/
  known : ∀ c ∈ cpFedHeads, ∀ b ∈ c.heads,
    (∃ rt, CommittedGrant rts records byHash dagHeads rt ∧
      brokerId (recordAt records rt) "grant_evidence" = some b) ∨
    ∃ rt, CommittedVoid rts records byHash dagHeads rt ∧
      brokerId (recordAt records rt) "void_evidence" = some b
  bound_once : ∀ rt rt', CommittedGrant rts records byHash dagHeads rt →
    CommittedGrant rts records byHash dagHeads rt' → ∀ gid,
    evStr (recordAt records rt) "grant_evidence" "grant_id" = some gid →
    evStr (recordAt records rt') "grant_evidence" "grant_id" = some gid →
    brokerId (recordAt records rt) "grant_evidence" =
        brokerId (recordAt records rt') "grant_evidence" ∧
      evInt (recordAt records rt) "grant_evidence" "broker_seq" =
        evInt (recordAt records rt') "grant_evidence" "broker_seq" ∧
      rt.contentHash = rt'.contentHash

/-- A broker with a log entry at any frontier is one of the federation. -/
theorem mem_fedBrokers_of_log (hs : DagSpec records dag) {frontier : List String}
    (hne : committedBrokerLog (recordTrustOf records) records dag.byHash frontier (some b) ≠ []) :
    b ∈ fedBrokers (recordTrustOf records) records dag.byHash dag.heads := by
  obtain ⟨e, he⟩ := List.exists_mem_of_ne_nil _ hne
  obtain ⟨rt, hrt, -, hseq, -⟩ := mem_committedBrokerLog.mp he
  have hcom : rt.contentHash ∈ committedSet records dag.byHash dag.heads := by
    obtain ⟨i, rec, hrec, rfl⟩ := mem_recordTrustOf.mp hrt
    obtain ⟨ch, hch, -⟩ := hs.hashes rec (List.mem_of_getElem? hrec)
    apply hs.mem_committedSet_heads
    simp only [trustEntry, hch, Option.getD_some]
    exact hs.mem_byHash_iff.mpr ⟨rec, List.mem_of_getElem? hrec, hch⟩
  rw [mem_fedBrokers]
  obtain ⟨key, hkey, hpart⟩ := Option.bind_eq_some_iff.mp hseq
  split_ifs at hpart with hin
  have hid : brokerId (recordAt records rt) key = some b := by simpa [inPartition] using hin
  cases hrole : rt.brokerRole <;> rw [hrole] at hkey
  · obtain rfl := Option.some.inj hkey
    exact .inl ⟨rt, ⟨hrt, hrole, hcom⟩, hid⟩
  · cases hkey
  · obtain rfl := Option.some.inj hkey
    exact .inr ⟨rt, ⟨hrt, hrole, hcom⟩, hid⟩
  · cases hkey

/-- The rules say it broker by broker, and a broker outside of the federation has no log. -/
theorem FederationRules.sound (hs : DagSpec records dag)
    (hlatest : ∀ c, cpFedHeads.find? (·.seq == latestCpSeq) = some c →
      ∀ f, f ∈ c.frontier ↔ f ∈ dag.heads)
    (h : FederationRules sha256 cpFedHeads verifiedFedHeadless malformedFedHead
      (recordTrustOf records) records dag.byHash dag.heads latestCpSeq) :
    FederationSound sha256 cpFedHeads verifiedFedHeadless malformedFedHead
      (recordTrustOf records) records dag.byHash dag.heads
      fun b frontier => committedBrokerLog (recordTrustOf records) records dag.byHash frontier
        (some b) := by
  have hempty : ∀ b ∉ fedBrokers (recordTrustOf records) records dag.byHash dag.heads,
      ∀ frontier, committedBrokerLog (recordTrustOf records) records dag.byHash frontier (some b) =
        [] := by
    intro b hb frontier
    by_contra hne
    exact hb (mem_fedBrokers_of_log hs hne)
  have hentry : ∀ {b : String} {c : FedHeadCp} {head : GrantHead}, c ∈ cpFedHeads →
      c.heads[b]? = some head →
      b ∈ fedBrokers (recordTrustOf records) records dag.byHash dag.heads ∧
        ⟨c.seq, head, c.frontier⟩ ∈ orderHeads (cpFedHeads.filterMap (FedHeadCp.entry b)) := by
    intro b c head hc hhead
    refine ⟨h.known c hc b (TreeMap.isSome_getElem?_iff_mem.mp (by simp [hhead])), ?_⟩
    refine mem_orderHeads.mpr (List.mem_filterMap.mpr ⟨c, hc, ?_⟩)
    rw [FedHeadCp.entry, hhead]
    rfl
  have hbrokers : ∀ {b : String}, b ∉ fedBrokers (recordTrustOf records) records dag.byHash
      dag.heads → cpFedHeads.filterMap (FedHeadCp.entry b) = [] := by
    intro b hb
    refine List.filterMap_eq_nil_iff.mpr fun c hc => ?_
    cases hhead : c.heads[b]? with
    | none => rw [FedHeadCp.entry, hhead]; rfl
    | some head => exact absurd (hentry hc hhead).1 hb
  have hpartition : ∀ {rec : CanonValue} {key b : String}, brokerId rec key = some b →
      ∀ b', inPartition (some b') rec key = true ↔ b' = b := by
    intro rec key b hb b'
    rw [inPartition, hb, beq_iff_eq, Option.some.injEq]
    exact eq_comm
  constructor
  · rintro rt hrt
    obtain ⟨hid, hseq⟩ := h.grants rt hrt
    obtain ⟨b, hb⟩ := Option.ne_none_iff_exists'.mp hid
    obtain ⟨seq, hseq⟩ := Option.ne_none_iff_exists'.mp hseq
    refine ⟨b, seq, hpartition hb, mem_committedBrokerLog.mpr ⟨rt, hrt.1, hrt.2.2, ?_, rfl⟩⟩
    simp [logSeq, logPayloadKey, hrt.2.1, inPartition, hb, hseq]
  · intro rt hrt
    obtain ⟨b, hb⟩ := Option.ne_none_iff_exists'.mp (h.voids rt hrt)
    exact ⟨b, hpartition hb⟩
  · intro b
    by_cases hb : b ∈ fedBrokers (recordTrustOf records) records dag.byHash dag.heads
    · obtain ⟨c, hfind, hmem⟩ := (h.partitions b hb).latest
      obtain ⟨head, hhead⟩ := Option.isSome_iff_exists.mp (TreeMap.isSome_getElem?_iff_mem.mpr hmem)
      have hgap := ((h.partitions b hb).heads.matches _
        (hentry (List.mem_of_find?_eq_some hfind) hhead).2).gapless
      have hsame : committedBrokerLog (recordTrustOf records) records dag.byHash c.frontier
          (some b) = committedBrokerLog (recordTrustOf records) records dag.byHash dag.heads
            (some b) :=
        committedBrokerLog_congr fun rt _ => mem_committedSet_congr (hlatest c hfind) _
      exact isGapless_iff.mp (hsame ▸ hgap)
    · rw [hempty b hb]
      rfl
  · exact h.well_formed
  · intro b frontier hf
    by_cases hb : b ∈ fedBrokers (recordTrustOf records) records dag.byHash dag.heads
    · exact (h.partitions b hb).headed frontier hf
    · exact hempty b hb frontier
  · intro b c hc hne
    have hb : b ∈ fedBrokers (recordTrustOf records) records dag.byHash dag.heads := by
      by_contra hb
      exact hne (hempty b hb c.frontier)
    refine Option.ne_none_iff_exists'.mp fun hnone => hne ?_
    exact (h.partitions b hb).carried c hc hnone
  · intro b c hc head hhead
    obtain ⟨hb, hmem⟩ := hentry hc hhead
    have hmatch := (h.partitions b hb).heads.matches _ hmem
    exact ⟨hmatch.maxSeq, hmatch.root⟩
  · intro b
    by_cases hb : b ∈ fedBrokers (recordTrustOf records) records dag.byHash dag.heads
    · exact (h.partitions b hb).heads.chain.1
    · rw [hbrokers hb]
      simp [orderHeads]
  · intro b
    by_cases hb : b ∈ fedBrokers (recordTrustOf records) records dag.byHash dag.heads
    · exact (h.partitions b hb).heads.chain.2
    · rw [hbrokers hb]
      exact List.IsChain.nil
  · exact fun c hc b hb => mem_fedBrokers.mp (h.known c hc b hb)
  · intro rt rt' hrt hrt' gid hgid hgid'
    have hbind := h.bound_once rt rt' hrt hrt' gid _ _
      (by rw [federatedBinding, hgid]; rfl) (by rw [federatedBinding, hgid']; rfl)
    obtain ⟨b, hb⟩ := Option.ne_none_iff_exists'.mp (h.grants rt hrt).1
    obtain ⟨b', hb'⟩ := Option.ne_none_iff_exists'.mp (h.grants rt' hrt').1
    obtain ⟨s, hev, -⟩ := exists_of_brokerSeq_ne_none (h.grants rt hrt).2
    obtain ⟨s', hev', -⟩ := exists_of_brokerSeq_ne_none (h.grants rt' hrt').2
    rw [hb, hb', hev, hev'] at hbind ⊢
    simpa using hbind

/-- Two checkpoints that are the same to one broker. -/
structure SameFor (b : String) (c c' : FedHeadCp) : Prop where
  seq : c'.seq = c.seq
  anchored : c'.anchored = c.anchored
  frontier : c'.frontier = c.frontier
  head : c'.heads[b]? = c.heads[b]?

theorem SameFor.symm {c c' : FedHeadCp} (h : SameFor b c c') : SameFor b c' c :=
  ⟨h.seq.symm, h.anchored.symm, h.frontier.symm, h.head.symm⟩

/-- Checkpoints that agree have the same entries. -/
theorem entries_of_same (h : List.Forall₂ (SameFor b) cpFedHeads cpFedHeads') :
    cpFedHeads'.filterMap (FedHeadCp.entry b) = cpFedHeads.filterMap (FedHeadCp.entry b) := by
  induction h with
  | nil => rfl
  | @cons c c' _ _ hc _ ih =>
    have hentry : FedHeadCp.entry b c' = FedHeadCp.entry b c := by
      rw [FedHeadCp.entry, FedHeadCp.entry, hc.seq, hc.frontier, hc.head]
    rw [List.filterMap_cons, List.filterMap_cons, hentry, ih]

/-- Each has its partner. -/
theorem exists_of_same (h : List.Forall₂ (SameFor b) cpFedHeads cpFedHeads') :
    ∀ c' ∈ cpFedHeads', ∃ c ∈ cpFedHeads, SameFor b c c' := by
  induction h with
  | nil => simp
  | @cons c c' _ _ hc _ ih =>
    refine List.forall_mem_cons.mpr ⟨⟨c, List.mem_cons_self, hc⟩, fun d hd => ?_⟩
    obtain ⟨e, he, hsame⟩ := ih d hd
    exact ⟨e, List.mem_cons_of_mem _ he, hsame⟩

/-- The latest checkpoint is found at the same place. -/
theorem find_of_same (latestCpSeq : Int) (h : List.Forall₂ (SameFor b) cpFedHeads cpFedHeads') :
    Option.Rel (SameFor b) (cpFedHeads.find? (·.seq == latestCpSeq))
      (cpFedHeads'.find? (·.seq == latestCpSeq)) := by
  induction h with
  | nil => exact .none
  | @cons c c' _ _ hc _ ih =>
    rw [List.find?_cons, List.find?_cons, hc.seq]
    split
    · exact .some hc
    · exact ih

/-- The rules of a broker read nothing but its own log and its own heads. -/
theorem PartitionRules.of_same {dagHeads dagHeads' : List String}
    {logOf logOf' : List String → List (Int × String)}
    (hcps : List.Forall₂ (SameFor b) cpFedHeads cpFedHeads')
    (hheadless : ∀ f ∈ verifiedFedHeadless, logOf' f = logOf f)
    (hcp : ∀ c ∈ cpFedHeads, logOf' c.frontier = logOf c.frontier)
    (hfull : logOf' dagHeads' = logOf dagHeads)
    (h : PartitionRules sha256 cpFedHeads verifiedFedHeadless dagHeads latestCpSeq b logOf) :
    PartitionRules sha256 cpFedHeads' verifiedFedHeadless dagHeads' latestCpSeq b logOf' := by
  refine ⟨fun f hf => (hheadless f hf).trans (h.headed f hf), ?_, hfull ▸ h.seq_unique, ?_, ?_⟩
  · obtain ⟨c, hfind, hmem⟩ := h.latest
    have hrel := find_of_same latestCpSeq hcps
    rw [hfind] at hrel
    cases hfind' : cpFedHeads'.find? (·.seq == latestCpSeq) with
    | none => rw [hfind'] at hrel; cases hrel
    | some c' =>
      rw [hfind'] at hrel
      obtain ⟨hsame⟩ := hrel
      refine ⟨c', rfl, ?_⟩
      rwa [← TreeMap.isSome_getElem?_iff_mem, hsame.head, TreeMap.isSome_getElem?_iff_mem]
  · intro c' hc' hnone
    obtain ⟨c, hc, hsame⟩ := exists_of_same hcps c' hc'
    rw [hsame.frontier, hcp c hc]
    exact h.carried c hc (hsame.head.symm.trans hnone)
  · rw [entries_of_same hcps]
    refine (headsVerify_congr fun e he => ?_).mpr h.heads
    obtain ⟨c, hc, hentry⟩ := List.mem_filterMap.mp (mem_orderHeads.mp he)
    obtain ⟨head, -, rfl⟩ := Option.map_eq_some_iff.mp hentry
    exact hcp c hc

/-- The verdict of a broker that both runs know is the same when its logs and its heads
are. -/
theorem perBroker_of_same {t t' : FederationStatus} (hs : DagSpec records dag)
    (hs' : DagSpec records' dag') (hcps : List.Forall₂ (SameFor b) cpFedHeads cpFedHeads')
    (hlogs : ∀ f, (f ∈ verifiedFedHeadless ∨ ∃ c ∈ cpFedHeads, f = c.frontier) →
      committedBrokerLog (recordTrustOf records') records' dag'.byHash f (some b) =
        committedBrokerLog (recordTrustOf records) records dag.byHash f (some b))
    (hfull : committedBrokerLog (recordTrustOf records') records' dag'.byHash dag'.heads (some b) =
      committedBrokerLog (recordTrustOf records) records dag.byHash dag.heads (some b))
    (ht : (b, t) ∈ (computeFederationTrust sha256 cpFedHeads verifiedFedHeadless malformedFedHead
      (recordTrustOf records) records dag.byHash dag.topoOrder dag.heads latestCpSeq).1.perBroker)
    (ht' : (b, t') ∈ (computeFederationTrust sha256 cpFedHeads' verifiedFedHeadless
      malformedFedHead' (recordTrustOf records') records' dag'.byHash dag'.topoOrder dag'.heads
      latestCpSeq).1.perBroker) : t' = t := by
  obtain ⟨hb, rfl⟩ := mem_perBroker_iff.mp ht
  obtain ⟨hb', rfl⟩ := mem_perBroker_iff.mp ht'
  have hrules : PartitionRules sha256 cpFedHeads verifiedFedHeadless dag.heads latestCpSeq b
        (committedBrokerLog (recordTrustOf records) records dag.byHash · (some b)) ↔
      PartitionRules sha256 cpFedHeads' verifiedFedHeadless dag'.heads latestCpSeq b
        (committedBrokerLog (recordTrustOf records') records' dag'.byHash · (some b)) := by
    constructor
    · exact PartitionRules.of_same hcps (fun f hf => hlogs f (.inl hf))
        (fun c hc => hlogs c.frontier (.inr ⟨c, hc, rfl⟩)) hfull
    · refine PartitionRules.of_same (hcps.flip.imp fun _ _ h => h.symm)
        (fun f hf => (hlogs f (.inl hf)).symm) (fun c' hc' => ?_) hfull.symm
      obtain ⟨c, hc, hsame⟩ := exists_of_same hcps c' hc'
      exact (hlogs c'.frontier (.inr ⟨c, hc, hsame.frontier⟩)).symm
  have hsup : suppressed sha256 cpFedHeads' verifiedFedHeadless (recordTrustOf records') records'
        dag'.byHash dag'.topoOrder dag'.heads latestCpSeq
        (fedBrokers (recordTrustOf records') records' dag'.byHash dag'.heads) b =
      suppressed sha256 cpFedHeads verifiedFedHeadless (recordTrustOf records) records dag.byHash
        dag.topoOrder dag.heads latestCpSeq
        (fedBrokers (recordTrustOf records) records dag.byHash dag.heads) b := by
    rw [Bool.eq_iff_iff, ← Bool.not_eq_false, ← Bool.not_eq_false, not_iff_not,
      suppressed_eq_false_iff hs hb, suppressed_eq_false_iff hs' hb', hrules]
  have hanchored : (cpFedHeads'.find? (·.seq == latestCpSeq)).any (·.anchored) =
      (cpFedHeads.find? (·.seq == latestCpSeq)).any (·.anchored) := by
    have hrel := find_of_same latestCpSeq hcps
    generalize cpFedHeads.find? (·.seq == latestCpSeq) = latest at hrel ⊢
    generalize cpFedHeads'.find? (·.seq == latestCpSeq) = latest' at hrel ⊢
    cases hrel with
    | none => rfl
    | some hsame => exact hsame.anchored
  rw [hsup, hanchored]

/-- A trusted federation, and one broker in it. If the latest checkpoint has the heads of
the DAG as its frontier, a verdict better than `assumed` is sound. And if another run over
other records leaves the checkpoints as they are for a broker, with the same logs at their
frontiers and over the whole DAG, then the broker has the same verdict in both runs. -/
theorem federation_isolation (h : build records = .ok dag) :
    ((∀ c, cpFedHeads.find? (·.seq == latestCpSeq) = some c → ∀ f, f ∈ c.frontier ↔ f ∈ dag.heads) →
      (computeFederationTrust sha256 cpFedHeads verifiedFedHeadless malformedFedHead
        (recordTrustOf records) records dag.byHash dag.topoOrder dag.heads
        latestCpSeq).1.brokerTrust ≠ .assumed →
      FederationSound sha256 cpFedHeads verifiedFedHeadless malformedFedHead
        (recordTrustOf records) records dag.byHash dag.heads
        fun b frontier => committedBrokerLog (recordTrustOf records) records dag.byHash frontier
          (some b)) ∧
    ∀ (b : String) (records' : List CanonValue) (dag' : Dag) (cpFedHeads' : List FedHeadCp)
      (malformedFedHead' : Bool), build records' = .ok dag' →
      List.Forall₂ (SameFor b) cpFedHeads cpFedHeads' →
      (∀ f, (f ∈ verifiedFedHeadless ∨ ∃ c ∈ cpFedHeads, f = c.frontier) →
        committedBrokerLog (recordTrustOf records') records' dag'.byHash f (some b) =
          committedBrokerLog (recordTrustOf records) records dag.byHash f (some b)) →
      committedBrokerLog (recordTrustOf records') records' dag'.byHash dag'.heads (some b) =
        committedBrokerLog (recordTrustOf records) records dag.byHash dag.heads (some b) →
      ∀ t t', (b, t) ∈ (computeFederationTrust sha256 cpFedHeads verifiedFedHeadless
          malformedFedHead (recordTrustOf records) records dag.byHash dag.topoOrder dag.heads
          latestCpSeq).1.perBroker →
        (b, t') ∈ (computeFederationTrust sha256 cpFedHeads' verifiedFedHeadless malformedFedHead'
          (recordTrustOf records') records' dag'.byHash dag'.topoOrder dag'.heads
          latestCpSeq).1.perBroker → t' = t := by
  have hs := build_eq_ok h
  refine ⟨fun hlatest htrust => ?_, fun b records' dag' cps' bad' h' hcps hlogs hfull t t' => ?_⟩
  · exact ((computeFederationTrust_ne_assumed_iff hs).mp htrust).sound hs hlatest
  · exact perBroker_of_same hs (build_eq_ok h') hcps hlogs hfull

/-- A head over a log that comes first. -/
def firstHead (log : List (Int × String)) : GrantHead where
  maxSeq := log.length
  priorHeadHash := grantHeadRoot Sha256.digest []
  cumulativeRoot := grantHeadRoot Sha256.digest log

/-- An anchored checkpoint with the head of broker `b`. -/
def sampleFedHead (log : List (Int × String)) (frontier : List String) : FedHeadCp where
  seq := 0
  anchored := true
  heads := (∅ : TreeMap String GrantHead).insert "b" (firstHead log)
  frontier := frontier

/-- One checkpoint with the right head satisfies the rules of its broker. -/
theorem partitionRules_singleton {c : FedHeadCp} {dagHeads : List String}
    {logOf : List String → List (Int × String)}
    (hhead : c.heads[b]? = some (firstHead (logOf c.frontier)))
    (hgap : isGapless (logOf c.frontier) = true)
    (hseq : ∀ a ∈ logOf dagHeads, ∀ a' ∈ logOf dagHeads, a.1 = a'.1 → a.2 = a'.2) :
    PartitionRules Sha256.digest [c] [] dagHeads c.seq b logOf := by
  refine ⟨by simp, ⟨c, by simp, ?_⟩, hseq, ?_, ?_⟩
  · rw [← TreeMap.isSome_getElem?_iff_mem, hhead]
    rfl
  · intro d hd hnone
    rw [List.mem_singleton.mp hd, hhead] at hnone
    cases hnone
  · have hentries : orderHeads ([c].filterMap (FedHeadCp.entry b)) =
        [⟨c.seq, firstHead (logOf c.frontier), c.frontier⟩] := by
      simp [FedHeadCp.entry, hhead, orderHeads]
    rw [hentries]
    exact ⟨⟨hgap, rfl, rfl⟩, rfl, trivial⟩

/-- A grant of another broker next to the second grant. -/
def interleavedGrants : List CanonValue :=
  [bareGrant (digest 'a') [] 1 "b" "x", bareGrant (digest 'c') [digest 'a'] 1 "c" "z",
    bareGrant (digest 'b') [digest 'a'] 3 "b" "y"]

/-- Two grants of one broker with a gap between them. -/
def gapGrants : List CanonValue :=
  [bareGrant (digest 'a') [] 1 "b" "x", bareGrant (digest 'b') [digest 'a'] 3 "b" "y"]

/-- A grant under a tombstone of another broker that has no number. -/
def unnumberedVoid : List CanonValue :=
  [bareGrant (digest 'a') [] 1 "b" "x",
    .obj
      [("content_hash", .str (digest 'b')), ("causal_prev_hashes", .arr [.str (digest 'a')]),
        ("authority", .obj [("enforcement_point", .str "credential_broker")]),
        ("extensions", .obj
          [("broker", .obj
            [("kind", .str "grant_void"),
              ("void_evidence", .obj [("broker_id", .str "v")])])])]]

/-- A log with a gap fails its broker, whatever its head says. -/
theorem mem_perBroker_of_gap {c : FedHeadCp} {head : GrantHead} (hs : DagSpec records dag)
    (hb : b ∈ fedBrokers (recordTrustOf records) records dag.byHash dag.heads)
    (hc : c ∈ cpFedHeads) (hhead : c.heads[b]? = some head)
    (hgap : isGapless (committedBrokerLog (recordTrustOf records) records dag.byHash c.frontier
      (some b)) = false) :
    (b, .suppression) ∈ (computeFederationTrust sha256 cpFedHeads verifiedFedHeadless
      malformedFedHead (recordTrustOf records) records dag.byHash dag.topoOrder dag.heads
      latestCpSeq).1.perBroker := by
  refine mem_perBroker_iff.mpr ⟨hb, (if_pos ?_).symm⟩
  by_contra hsup
  rw [Bool.not_eq_true, suppressed_eq_false_iff hs hb] at hsup
  have hmem : ⟨c.seq, head, c.frontier⟩ ∈ orderHeads (cpFedHeads.filterMap (FedHeadCp.entry b)) :=
    mem_orderHeads.mpr (List.mem_filterMap.mpr ⟨c, hc, by rw [FedHeadCp.entry, hhead]; rfl⟩)
  have hgapless := (hsup.heads.matches _ hmem).gapless
  rw [hgap] at hgapless
  cases hgapless

/-- One checkpoint with the right heads satisfies all the rules. -/
theorem federationRules_singleton {c : FedHeadCp} {dagHeads : List String}
    (hsmuggled : smuggledIssues (recordTrustOf records) records dag.byHash dagHeads = [])
    (hequivocated : equivocatedIssues (recordTrustOf records) records dag.byHash dagHeads = [])
    (hbrokers : fedBrokers (recordTrustOf records) records dag.byHash dagHeads = c.heads.keys)
    (hsome : c.heads.keys ≠ [])
    (hlogs : ∀ b ∈ c.heads.keys, c.heads[b]? = some (firstHead (committedBrokerLog
        (recordTrustOf records) records dag.byHash c.frontier (some b))) ∧
      isGapless (committedBrokerLog (recordTrustOf records) records dag.byHash c.frontier
        (some b)) = true ∧
      duplicateSeqs (committedBrokerLog (recordTrustOf records) records dag.byHash dagHeads
        (some b)) = []) :
    FederationRules Sha256.digest [c] [] false (recordTrustOf records) records dag.byHash dagHeads
      c.seq := by
  obtain ⟨hgrants, hvoids⟩ := smuggledIssues_eq_nil_iff.mp hsmuggled
  refine ⟨rfl, hgrants, hvoids, equivocatedIssues_eq_nil_iff.mp hequivocated, ?_,
    hbrokers ▸ hsome, ?_⟩
  · intro d hd b hb
    rw [hbrokers, ← List.mem_singleton.mp hd, TreeMap.mem_keys]
    exact hb
  · intro b hb
    obtain ⟨hhead, hgap, hseq⟩ := hlogs b (hbrokers ▸ hb)
    exact partitionRules_singleton hhead hgap
      ((duplicateSeqs_eq_nil_iff pairwise_committedBrokerLog).mp hseq)

theorem keys_sampleFedHead {log : List (Int × String)} {frontier : List String} :
    (sampleFedHead log frontier).heads.keys = ["b"] := rfl

/-- Two numbered grants are trusted as far as their numbers; and the grant of another broker
between two grants does not hide the gap between them. -/
theorem federation_isolation_samples :
    (∃ dag, build twoGrants = .ok dag ∧
      (committedBrokerLog (recordTrustOf twoGrants) twoGrants dag.byHash dag.heads
        (some "b")).map (·.1) = [1, 2]) ∧
    ∃ dag, build interleavedGrants = .ok dag ∧
      ("b", .suppression) ∈ (computeFederationTrust Sha256.digest
        [sampleFedHead [(1, digest 'a'), (3, digest 'b')] [digest 'b']] [] false
        (recordTrustOf interleavedGrants) interleavedGrants dag.byHash dag.topoOrder dag.heads
        0).1.perBroker := by
  constructor
  · obtain ⟨dag, hb, htest⟩ := exists_of_buildsWith twoGrants (fun dag =>
      decide (dag.heads = [digest 'b'] ∧
        fedBrokers (recordTrustOf twoGrants) twoGrants dag.byHash dag.heads = ["b"] ∧
        smuggledIssues (recordTrustOf twoGrants) twoGrants dag.byHash dag.heads = [] ∧
        equivocatedIssues (recordTrustOf twoGrants) twoGrants dag.byHash dag.heads = [] ∧
        committedBrokerLog (recordTrustOf twoGrants) twoGrants dag.byHash [digest 'b'] (some "b") =
          [(1, digest 'a'), (2, digest 'b')])) (by decide +kernel)
    obtain ⟨hheads, hbrokers, hsmuggled, hequiv, hlog⟩ := of_decide_eq_true htest
    refine ⟨dag, hb, ?_⟩
    have hrules := @federationRules_singleton twoGrants dag
      (sampleFedHead [(1, digest 'a'), (2, digest 'b')] [digest 'b']) dag.heads
      hsmuggled hequiv (hbrokers.trans keys_sampleFedHead.symm) (by simp [keys_sampleFedHead]) (by
        intro b hb
        rw [keys_sampleFedHead, List.mem_singleton] at hb
        subst hb
        rw [hheads]
        simp only [sampleFedHead, hlog]
        exact ⟨by simp, by decide, by decide⟩)
    have hsound := (federation_isolation hb).1 (fun c hc f => ?_)
      ((computeFederationTrust_ne_assumed_iff (build_eq_ok hb)).mpr hrules)
    · have hnum := hsound.numbered "b"
      rw [hnum, hheads, hlog]
      rfl
    · obtain rfl : sampleFedHead [(1, digest 'a'), (2, digest 'b')] [digest 'b'] = c := by
        simpa using hc
      rw [hheads]
      rfl
  · obtain ⟨dag, hb, htest⟩ := exists_of_buildsWith gapGrants (fun dag =>
      decide ("b" ∈ fedBrokers (recordTrustOf gapGrants) gapGrants dag.byHash dag.heads ∧
        committedBrokerLog (recordTrustOf gapGrants) gapGrants dag.byHash dag.heads (some "b") =
          [(1, digest 'a'), (3, digest 'b')] ∧
        committedBrokerLog (recordTrustOf gapGrants) gapGrants dag.byHash [digest 'b'] (some "b") =
          [(1, digest 'a'), (3, digest 'b')])) (by decide +kernel)
    obtain ⟨dag', hb', htest'⟩ := exists_of_buildsWith interleavedGrants
      (fun dag => decide (
        "b" ∈ fedBrokers (recordTrustOf interleavedGrants) interleavedGrants dag.byHash dag.heads ∧
        committedBrokerLog (recordTrustOf interleavedGrants) interleavedGrants dag.byHash dag.heads
          (some "b") = [(1, digest 'a'), (3, digest 'b')] ∧
        committedBrokerLog (recordTrustOf interleavedGrants) interleavedGrants dag.byHash
          [digest 'b'] (some "b") = [(1, digest 'a'), (3, digest 'b')])) (by decide +kernel)
    obtain ⟨hmem, hfull, hlog⟩ := of_decide_eq_true htest
    obtain ⟨hmem', hfull', hlog'⟩ := of_decide_eq_true htest'
    have hgap : ("b", .suppression) ∈ (computeFederationTrust Sha256.digest
        [sampleFedHead [(1, digest 'a'), (3, digest 'b')] [digest 'b']] [] false
        (recordTrustOf gapGrants) gapGrants dag.byHash dag.topoOrder dag.heads 0).1.perBroker :=
      mem_perBroker_of_gap (build_eq_ok hb) hmem List.mem_cons_self (by simp [sampleFedHead]; rfl)
        (by simp only [sampleFedHead, hlog]; decide)
    have hverdict : ("b", _) ∈ (computeFederationTrust Sha256.digest
        [sampleFedHead [(1, digest 'a'), (3, digest 'b')] [digest 'b']] [] false
        (recordTrustOf interleavedGrants) interleavedGrants dag'.byHash dag'.topoOrder dag'.heads
        0).1.perBroker :=
      mem_perBroker_iff.mpr ⟨hmem', rfl⟩
    refine ⟨dag', hb', ?_⟩
    rwa [(federation_isolation hb).2 "b" interleavedGrants dag' _ false hb'
      (.cons ⟨rfl, rfl, rfl, rfl⟩ .nil) (fun f hf => ?_) (hfull'.trans hfull.symm) _ _ hgap
      hverdict] at hverdict
    obtain rfl : f = [digest 'b'] := by simpa [sampleFedHead] using hf
    exact hlog'.trans hlog.symm

/-- Two verdicts better than `assumed`. The latest checkpoint does not commit the second
grant, and the log of the whole DAG has a gap; and a head names a broker whose log is
empty, for which there is only a tombstone without a number. -/
theorem trusted_federation_limits :
    (∃ dag, build gapGrants = .ok dag ∧
      (computeFederationTrust Sha256.digest [sampleFedHead [(1, digest 'a')] [digest 'a']] [] false
        (recordTrustOf gapGrants) gapGrants dag.byHash dag.topoOrder dag.heads
        0).1.brokerTrust ≠ .assumed ∧
      (committedBrokerLog (recordTrustOf gapGrants) gapGrants dag.byHash dag.heads
        (some "b")).map (·.1) = [1, 3]) ∧
    ∃ dag, build unnumberedVoid = .ok dag ∧
      let c := { sampleFedHead [(1, digest 'a')] [digest 'b'] with
        heads := ((∅ : TreeMap String GrantHead).insert "b" (firstHead [(1, digest 'a')])).insert
          "v" (firstHead []) }
      dag.heads = c.frontier ∧
      (computeFederationTrust Sha256.digest [c] [] false (recordTrustOf unnumberedVoid)
        unnumberedVoid dag.byHash dag.topoOrder dag.heads 0).1.brokerTrust ≠ .assumed ∧
      "v" ∈ c.heads ∧ committedBrokerLog (recordTrustOf unnumberedVoid) unnumberedVoid dag.byHash
        dag.heads (some "v") = [] := by
  constructor
  · obtain ⟨dag, hb, htest⟩ := exists_of_buildsWith gapGrants (fun dag =>
      decide (fedBrokers (recordTrustOf gapGrants) gapGrants dag.byHash dag.heads = ["b"] ∧
        smuggledIssues (recordTrustOf gapGrants) gapGrants dag.byHash dag.heads = [] ∧
        equivocatedIssues (recordTrustOf gapGrants) gapGrants dag.byHash dag.heads = [] ∧
        committedBrokerLog (recordTrustOf gapGrants) gapGrants dag.byHash dag.heads (some "b") =
          [(1, digest 'a'), (3, digest 'b')] ∧
        committedBrokerLog (recordTrustOf gapGrants) gapGrants dag.byHash [digest 'a'] (some "b") =
          [(1, digest 'a')])) (by decide +kernel)
    obtain ⟨hbrokers, hsmuggled, hequiv, hfull, hlog⟩ := of_decide_eq_true htest
    have hrules := @federationRules_singleton gapGrants dag
      (sampleFedHead [(1, digest 'a')] [digest 'a']) dag.heads
      hsmuggled hequiv (hbrokers.trans keys_sampleFedHead.symm) (by simp [keys_sampleFedHead]) (by
        intro b hb
        rw [keys_sampleFedHead, List.mem_singleton] at hb
        subst hb
        simp only [sampleFedHead, hlog, hfull]
        exact ⟨by simp, by decide, by decide⟩)
    exact ⟨dag, hb, (computeFederationTrust_ne_assumed_iff (build_eq_ok hb)).mpr hrules,
      by rw [hfull]; rfl⟩
  · obtain ⟨dag, hb, htest⟩ := exists_of_buildsWith unnumberedVoid (fun dag =>
      decide (dag.heads = [digest 'b'] ∧
        fedBrokers (recordTrustOf unnumberedVoid) unnumberedVoid dag.byHash dag.heads = ["b", "v"] ∧
        smuggledIssues (recordTrustOf unnumberedVoid) unnumberedVoid dag.byHash dag.heads = [] ∧
        equivocatedIssues (recordTrustOf unnumberedVoid) unnumberedVoid dag.byHash dag.heads = [] ∧
        committedBrokerLog (recordTrustOf unnumberedVoid) unnumberedVoid dag.byHash [digest 'b']
          (some "b") = [(1, digest 'a')] ∧
        committedBrokerLog (recordTrustOf unnumberedVoid) unnumberedVoid dag.byHash [digest 'b']
          (some "v") = [])) (by decide +kernel)
    obtain ⟨hheads, hbrokers, hsmuggled, hequiv, hlog, hvoid⟩ := of_decide_eq_true htest
    refine ⟨dag, hb, hheads, ?_, by simp, by rw [hheads]; exact hvoid⟩
    refine (computeFederationTrust_ne_assumed_iff (build_eq_ok hb)).mpr
      (federationRules_singleton hsmuggled hequiv hbrokers (by decide) ?_)
    intro b hb
    have hcases : "v" = b ∨ "b" = b := by simpa using hb
    rw [hheads]
    rcases hcases with rfl | rfl
    · simp only [sampleFedHead, hvoid]
      exact ⟨by simp, by decide, by decide⟩
    · simp only [sampleFedHead, hlog]
      refine ⟨?_, by decide, by decide⟩
      rw [TreeMap.getElem?_insert, if_neg (by decide), TreeMap.getElem?_insert_self]

end Averin
