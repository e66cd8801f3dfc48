import Averin.Verify.HeadChain

/-!
# Trust in one grant log

The checks on the single log of all brokers. Every grant the DAG commits must be numbered
and bound to one name, every checkpoint that commits a log entry must carry a head, and
the heads must verify in checkpoint order. The rules are stated over the logs, and the
computation returns a trusted verdict exactly when they hold.
-/

namespace Averin

open Std (TreeMap TreeSet)

/-- A verified checkpoint with a well-formed head. -/
structure CheckpointHead where
  seq : Int
  anchored : Bool
  head : GrantHead
  frontier : List String
  deriving DecidableEq, Repr

/-- What a head says of the log. -/
def CheckpointHead.entry (c : CheckpointHead) : HeadEntry := ⟨c.seq, c.head, c.frontier⟩

/-- How far the log of a broker is trusted. -/
inductive BrokerTrust where
  | assumed | sequenceVerified | sequenceConsistentExport
  deriving DecidableEq, Repr

/-- What is wrong with the log. -/
inductive BrokerIssue where
  /-- A number claimed by more than one committed record. -/
  | duplicateSeq (seq : Int)
  | malformedHead
  /-- A committed grant outside of the log. -/
  | grantWithoutSeq (contentHash : String)
  /-- A grant id bound to several pairs of number and hash. -/
  | equivocatedGrant (grantId : String) (pairs : Nat)
  /-- A verified checkpoint that commits log entries without a head. -/
  | headlessCheckpoint
  | latestWithoutHead
  | head (seq : Int) (fault : HeadFault)
  deriving DecidableEq, Repr

section Bindings

variable {α β : Type*} [DecidableEq β]

/-- What each grant id is bound to, each binding once. -/
def bindings (bind : α → Option (String × β)) : List α → TreeMap String (List β) →
    TreeMap String (List β)
  | [], m => m
  | a :: rest, m =>
    match bind a with
    | none => bindings bind rest m
    | some (gid, b) => bindings bind rest (m.insert gid ((m.getD gid []).insert b))

/-- The grant ids with more than one binding, and how many. -/
def equivocated (m : TreeMap String (List β)) : List (String × Nat) :=
  (m.toList.filter (1 < ·.2.length)).map fun (gid, l) => (gid, l.length)

/-- What each grant is bound to, without repeats. -/
theorem bindings_spec (bind : α → Option (String × β)) (l : List α)
    {m : TreeMap String (List β)} (hm : ∀ gid, (m.getD gid []).Nodup) (gid : String) :
    ((bindings bind l m).getD gid []).Nodup ∧
      ∀ b, b ∈ (bindings bind l m).getD gid [] ↔
        b ∈ m.getD gid [] ∨ ∃ a ∈ l, bind a = some (gid, b) := by
  induction l generalizing m with
  | nil => exact ⟨hm gid, by simp [bindings]⟩
  | cons a l ih =>
    rw [bindings]
    cases ha : bind a with
    | none =>
      obtain ⟨hnodup, hmem⟩ := ih hm
      exact ⟨hnodup, fun b => by rw [hmem, List.exists_mem_cons_iff, ha]; simp⟩
    | some p =>
      obtain ⟨g, c⟩ := p
      have hins : ∀ gid', (m.insert g ((m.getD g []).insert c)).getD gid' [] =
          if g = gid' then (m.getD g []).insert c else m.getD gid' [] := by
        intro gid'
        simp only [TreeMap.getD_insert, Std.compare_eq_iff_eq]
      obtain ⟨hnodup, hmem⟩ := ih (m := m.insert g ((m.getD g []).insert c)) (fun gid' => by
        rw [hins]
        split_ifs
        · exact (hm g).insert
        · exact hm gid')
      refine ⟨hnodup, fun b => ?_⟩
      rw [hmem, hins, List.exists_mem_cons_iff, ha]
      by_cases hg : g = gid
      · subst hg
        simp only [if_true, List.mem_insert_iff, Option.some.injEq, Prod.mk.injEq, true_and,
          or_assoc, eq_comm (a := c)]
        exact or_left_comm
      · simp [hg]

/-- No id is equivocated exactly when bindings of one id are equal. -/
theorem equivocated_eq_nil_iff {bind : α → Option (String × β)} {l : List α} :
    equivocated (bindings bind l ∅) = [] ↔
      ∀ a ∈ l, ∀ a' ∈ l, ∀ gid b b', bind a = some (gid, b) → bind a' = some (gid, b') →
        b = b' := by
  have hspec := bindings_spec bind l (m := ∅) (by simp)
  rw [equivocated, List.map_eq_nil_iff, List.filter_eq_nil_iff]
  constructor
  · intro h a ha a' ha' gid b b' hb hb'
    obtain ⟨hnodup, hmem⟩ := hspec gid
    have hbm := (hmem b).mpr (Or.inr ⟨a, ha, hb⟩)
    have hbm' := (hmem b').mpr (Or.inr ⟨a', ha', hb'⟩)
    rw [TreeMap.getD_eq_getD_getElem?] at hbm hbm'
    cases hget : (bindings bind l ∅)[gid]? with
    | none => simp [hget] at hbm
    | some bs =>
      rw [hget, Option.getD_some] at hbm hbm'
      have hle := h (gid, bs) (TreeMap.mem_toList_iff_getElem?_eq_some.mpr hget)
      simp only [decide_eq_true_eq, not_lt] at hle
      match bs, hle with
      | [c], _ => rw [List.mem_singleton.mp hbm, List.mem_singleton.mp hbm']
  · rintro h ⟨gid, bs⟩ hmem hlt
    have hget := TreeMap.mem_toList_iff_getElem?_eq_some.mp hmem
    obtain ⟨hnodup, hbs⟩ := hspec gid
    rw [TreeMap.getD_eq_getD_getElem?, hget, Option.getD_some] at hnodup hbs
    match bs, hlt with
    | b :: b' :: _, _ =>
      obtain ⟨a, ha, hab⟩ := ((hbs b).mp (by simp)).resolve_left (by simp)
      obtain ⟨a', ha', hab'⟩ := ((hbs b').mp (by simp)).resolve_left (by simp)
      have heq := h a ha a' ha' gid b b' hab hab'
      exact (List.nodup_cons.mp hnodup).1 (by simp [heq])

end Bindings

/-- The committed grants among the trust entries. -/
def committedGrants (rts : List RecordTrust) (committed : List String) : List RecordTrust :=
  rts.filter fun rt => rt.brokerRole == .broker && committed.contains rt.contentHash

/-- A grant binds its id to its number and its hash. -/
def grantBinding (records : List CanonValue) (rt : RecordTrust) :
    Option (String × (Int × String)) :=
  (evStr (recordAt records rt) "grant_evidence" "grant_id").map fun gid =>
    (gid, ((evInt (recordAt records rt) "grant_evidence" "broker_seq").getD 0, rt.contentHash))

section

variable (sha256 : List UInt8 → Vector UInt8 32) (cpHeads : List CheckpointHead)
  (verifiedHeadless : List (List String)) (malformedHead : Bool) (rts : List RecordTrust)
  (records : List CanonValue) (byHash : TreeMap String Nat) (topoOrder dagHeads : List String)
  (latestCpSeq : Int)

/-- The index over the log of all brokers. -/
def fullLogIndex : Option LogIndex :=
  (DagIndex.build records byHash topoOrder).bind (LogIndex.build · rts records none)

/-- The issues found before the heads are replayed. -/
def logIssues : List BrokerIssue :=
  let fullLog := committedBrokerLog rts records byHash dagHeads none
  let grants := committedGrants rts (committedSet records byHash dagHeads)
  let unnumbered := grants.filter fun rt =>
    (brokerSeq (recordAt records rt) "grant_evidence").isNone
  let headless := (distinctFrontiers verifiedHeadless).filter
    (commitsLog rts records byHash none (fullLogIndex rts records byHash topoOrder))
  (duplicateSeqs fullLog).map .duplicateSeq ++
    (if malformedHead then [.malformedHead] else []) ++
    unnumbered.map (fun rt => .grantWithoutSeq rt.contentHash) ++
    (equivocated (bindings (grantBinding records) grants ∅)).map
      (fun (gid, pairs) => .equivocatedGrant gid pairs) ++
    headless.map fun _ => .headlessCheckpoint

/-- The verdict on the log and the issues it reports. Without any sign of a log nothing is
checked; otherwise every issue keeps the verdict at `assumed`. -/
def computeBrokerTrust : BrokerTrust × List BrokerIssue :=
  let fullLog := committedBrokerLog rts records byHash dagHeads none
  if cpHeads.isEmpty && fullLog.isEmpty && !malformedHead then (.assumed, [])
  else
    let issues := logIssues verifiedHeadless malformedHead rts records byHash topoOrder dagHeads
    match cpHeads.find? (·.seq == latestCpSeq) with
    | none => (.assumed, issues ++ [.latestWithoutHead])
    | some latest =>
      let heads := orderHeads (cpHeads.map CheckpointHead.entry)
      let faults := checkHeads sha256 rts records byHash none
        (newCursor sha256 (fullLogIndex rts records byHash topoOrder))
        (grantHeadRoot sha256 []) heads
      let issues := issues ++ faults.map fun (seq, fault) => .head seq fault
      if !issues.isEmpty then (.assumed, issues)
      else if latest.anchored then (.sequenceVerified, issues)
      else (.sequenceConsistentExport, issues)

end

/-- A grant committed by a frontier. -/
def CommittedGrant (rts : List RecordTrust) (records : List CanonValue)
    (byHash : TreeMap String Nat) (frontier : List String) (rt : RecordTrust) : Prop :=
  rt ∈ rts ∧ rt.brokerRole = .broker ∧ rt.contentHash ∈ committedSet records byHash frontier

/-- The rules before the heads: equal numbers mean equal hashes, heads are well formed,
grants are numbered, ids are bound once, and no headless checkpoint commits an entry. -/
structure LogRules (verifiedHeadless : List (List String)) (malformedHead : Bool)
    (rts : List RecordTrust) (records : List CanonValue) (byHash : TreeMap String Nat)
    (dagHeads : List String) : Prop where
  seq_unique : ∀ a ∈ committedBrokerLog rts records byHash dagHeads none,
    ∀ b ∈ committedBrokerLog rts records byHash dagHeads none, a.1 = b.1 → a.2 = b.2
  well_formed : malformedHead = false
  numbered : ∀ rt, CommittedGrant rts records byHash dagHeads rt →
    brokerSeq (recordAt records rt) "grant_evidence" ≠ none
  bound_once : ∀ rt rt', CommittedGrant rts records byHash dagHeads rt →
    CommittedGrant rts records byHash dagHeads rt' → ∀ gid b b',
      grantBinding records rt = some (gid, b) → grantBinding records rt' = some (gid, b') → b = b'
  headed : ∀ frontier ∈ verifiedHeadless, committedBrokerLog rts records byHash frontier none = []

/-- All the rules: those of the log, a head on the latest checkpoint, and heads that verify
in order from the root of the empty log. -/
structure GrantLogRules (sha256 : List UInt8 → Vector UInt8 32) (cpHeads : List CheckpointHead)
    (verifiedHeadless : List (List String)) (malformedHead : Bool) (rts : List RecordTrust)
    (records : List CanonValue) (byHash : TreeMap String Nat) (dagHeads : List String)
    (latestCpSeq : Int) : Prop where
  log : LogRules verifiedHeadless malformedHead rts records byHash dagHeads
  latest : ∃ c ∈ cpHeads, c.seq = latestCpSeq
  heads : HeadsVerify sha256 (committedBrokerLog rts records byHash · none)
    (grantHeadRoot sha256 []) (orderHeads (cpHeads.map CheckpointHead.entry))

variable {sha256 : List UInt8 → Vector UInt8 32} {cpHeads : List CheckpointHead}
  {verifiedHeadless : List (List String)} {malformedHead : Bool} {rts : List RecordTrust}
  {records : List CanonValue} {bid : Option String} {dag : Dag} {latestCpSeq : Int}

/-- A committed grant is a broker's record in the closure. -/
theorem mem_committedGrants {committed : List String} {rt : RecordTrust} :
    rt ∈ committedGrants rts committed ↔
      rt ∈ rts ∧ rt.brokerRole = .broker ∧ rt.contentHash ∈ committed := by
  simp [committedGrants]

theorem pairwise_committedBrokerLog {byHash : TreeMap String Nat} {frontier : List String} :
    (committedBrokerLog rts records byHash frontier bid).Pairwise (·.1 ≤ ·.1) := by
  rw [committedBrokerLog_eq]
  exact List.pairwise_insertionSort (fun a b : Int × String => a.1 ≤ b.1) _

/-- In a sorted log, neighbours show whether equal numbers have equal hashes. -/
theorem duplicateSeqs_eq_nil_iff {log : List (Int × String)} (hlog : log.Pairwise (·.1 ≤ ·.1)) :
    duplicateSeqs log = [] ↔ ∀ a ∈ log, ∀ b ∈ log, a.1 = b.1 → a.2 = b.2 := by
  have hchain : duplicateSeqs log = [] ↔ log.IsChain fun a b => a.1 = b.1 → a.2 = b.2 := by
    rw [duplicateSeqs, List.map_eq_nil_iff, List.filter_eq_nil_iff,
      ← forall_neighbours_iff_isChain]
    refine forall₂_congr fun p _ => ?_
    simp
  rw [hchain]
  constructor
  · intro h
    -- between two entries of one number, every neighbour has that number too
    have hpair : log.Pairwise fun a b => a.1 = b.1 → a.2 = b.2 := by
      clear hchain
      induction log with
      | nil => exact List.Pairwise.nil
      | cons a log ih =>
        obtain ⟨ha, hlog'⟩ := List.pairwise_cons.mp hlog
        have htail := ih hlog' h.tail
        refine List.pairwise_cons.mpr ⟨fun c hc hac => ?_, htail⟩
        cases log with
        | nil => cases hc
        | cons b log =>
          have hab := (List.isChain_cons_cons.mp h).1
          rcases List.mem_cons.mp hc with rfl | hc
          · exact hab hac
          · obtain ⟨hb, -⟩ := List.pairwise_cons.mp hlog'
            have hle := ha b List.mem_cons_self
            have hle' := hb c hc
            have hbc : b.1 = c.1 := by omega
            exact (hab (hac.trans hbc.symm)).trans ((List.pairwise_cons.mp htail).1 c hc hbc)
    have : Std.Symm fun a b : Int × String => a.1 = b.1 → a.2 = b.2 :=
      ⟨fun _ _ h hba => (h hba.symm).symm⟩
    exact fun a ha b hb => hpair.forall_of_forall (fun _ _ _ => rfl) ha hb
  · intro h
    refine List.Pairwise.isChain (List.pairwise_iff_forall_sublist.mpr fun {a b} hsub hab => ?_)
    exact h a (hsub.subset (by simp)) b (hsub.subset (by simp)) hab

/-- Nothing is wrong exactly if the log is whole. -/
theorem logIssues_eq_nil_iff (hs : DagSpec records dag) {dagHeads : List String} :
    logIssues verifiedHeadless malformedHead rts records dag.byHash dag.topoOrder dagHeads = [] ↔
      LogRules verifiedHeadless malformedHead rts records dag.byHash dagHeads := by
  have hheadless : ∀ frontier, commitsLog rts records dag.byHash none
      (fullLogIndex rts records dag.byHash dag.topoOrder) frontier = true ↔
        committedBrokerLog rts records dag.byHash frontier none ≠ [] := fun _ => commitsLog_iff hs
  unfold logIssues
  simp only [List.append_eq_nil_iff, List.map_eq_nil_iff, List.filter_eq_nil_iff,
    duplicateSeqs_eq_nil_iff pairwise_committedBrokerLog, equivocated_eq_nil_iff,
    mem_distinctFrontiers, hheadless, not_not, mem_committedGrants, Option.isNone_iff_eq_none]
  constructor
  · rintro ⟨⟨⟨⟨h1, h2⟩, h3⟩, h4⟩, h5⟩
    refine ⟨h1, ?_, h3, fun rt rt' hrt hrt' => h4 rt hrt rt' hrt', h5⟩
    cases malformedHead with
    | false => rfl
    | true => simp at h2
  · rintro ⟨h1, h2, h3, h4, h5⟩
    exact ⟨⟨⟨⟨h1, by simp [h2]⟩, h3⟩, fun rt hrt rt' hrt' => h4 rt rt' hrt hrt'⟩, h5⟩

/-- The verdict on a log that follows the rules: it is as good as the anchor of the latest
checkpoint. -/
def latestTrust (cpHeads : List CheckpointHead) (latestCpSeq : Int) : BrokerTrust :=
  match cpHeads.find? (·.seq == latestCpSeq) with
  | none => .assumed
  | some latest => if latest.anchored then .sequenceVerified else .sequenceConsistentExport

/-- A latest head is more than assumed. -/
theorem latestTrust_ne_assumed (h : ∃ c ∈ cpHeads, c.seq = latestCpSeq) :
    latestTrust cpHeads latestCpSeq ≠ .assumed := by
  obtain ⟨c, hc, hseq⟩ := h
  have hfind : (cpHeads.find? (·.seq == latestCpSeq)).isSome = true :=
    List.find?_isSome.mpr ⟨c, hc, by simpa using hseq⟩
  obtain ⟨latest, hlatest⟩ := Option.isSome_iff_exists.mp hfind
  simp only [latestTrust, hlatest]
  split_ifs <;> simp

section Spec

variable (hs : DagSpec records dag) {dagHeads : List String}
include hs

/-- A log that follows the rules is trusted without issues. -/
theorem computeBrokerTrust_of_rules
    (h : GrantLogRules sha256 cpHeads verifiedHeadless malformedHead rts records dag.byHash
      dagHeads latestCpSeq) :
    computeBrokerTrust sha256 cpHeads verifiedHeadless malformedHead rts records dag.byHash
      dag.topoOrder dagHeads latestCpSeq = (latestTrust cpHeads latestCpSeq, []) := by
  obtain ⟨c, hc, hseq⟩ := h.latest
  have hfind : (cpHeads.find? (·.seq == latestCpSeq)).isSome = true :=
    List.find?_isSome.mpr ⟨c, hc, by simpa using hseq⟩
  obtain ⟨latest, hlatest⟩ := Option.isSome_iff_exists.mp hfind
  have hactive : cpHeads.isEmpty = false := List.isEmpty_eq_false_iff.mpr (List.ne_nil_of_mem hc)
  have hissues := (logIssues_eq_nil_iff hs).mpr h.log
  have hfaults := (checkHeads_eq_nil_iff hs (cursorRight_newCursor hs)).mpr h.heads
  simp only [computeBrokerTrust, hactive, Bool.false_and, Bool.false_eq_true, if_false, hlatest,
    hissues, latestTrust, fullLogIndex, hfaults, List.map_nil, List.append_nil, List.isEmpty_nil,
    Bool.not_true]
  split_ifs <;> rfl

/-- A log that breaks a rule is not trusted, and an issue says so unless there was no sign
of a log at all. -/
theorem computeBrokerTrust_of_not_rules
    (h : ¬ GrantLogRules sha256 cpHeads verifiedHeadless malformedHead rts records dag.byHash
      dagHeads latestCpSeq) :
    (computeBrokerTrust sha256 cpHeads verifiedHeadless malformedHead rts records dag.byHash
        dag.topoOrder dagHeads latestCpSeq).1 = .assumed ∧
      ((computeBrokerTrust sha256 cpHeads verifiedHeadless malformedHead rts records dag.byHash
          dag.topoOrder dagHeads latestCpSeq).2 = [] ↔
        cpHeads = [] ∧ committedBrokerLog rts records dag.byHash dagHeads none = [] ∧
          malformedHead = false) := by
  unfold computeBrokerTrust
  dsimp only
  by_cases hidle : (cpHeads.isEmpty &&
      (committedBrokerLog rts records dag.byHash dagHeads none).isEmpty && !malformedHead) = true
  · rw [if_pos hidle]
    simpa [and_assoc] using hidle
  · rw [if_neg hidle]
    have hidle' : ¬ (cpHeads = [] ∧ committedBrokerLog rts records dag.byHash dagHeads none = [] ∧
        malformedHead = false) := by simpa [and_assoc] using hidle
    cases hlatest : cpHeads.find? (·.seq == latestCpSeq) with
    | none => exact ⟨rfl, iff_of_false (by simp) hidle'⟩
    | some latest =>
      dsimp only
      have hmem := List.mem_of_find?_eq_some hlatest
      have hseq : latest.seq = latestCpSeq := by simpa using List.find?_some hlatest
      split_ifs with hissues
      · exact ⟨rfl, iff_of_false (by simpa using hissues) hidle'⟩
      all_goals
        refine absurd ?_ h
        rw [Bool.not_eq_true', Bool.not_eq_false, List.isEmpty_iff, List.append_eq_nil_iff,
          List.map_eq_nil_iff, logIssues_eq_nil_iff hs] at hissues
        exact ⟨hissues.1, ⟨latest, hmem, hseq⟩,
          (checkHeads_eq_nil_iff hs (cursorRight_newCursor hs)).mp hissues.2⟩

/-- The verdict is better than `assumed` exactly when the log follows the rules. -/
theorem computeBrokerTrust_ne_assumed_iff :
    (computeBrokerTrust sha256 cpHeads verifiedHeadless malformedHead rts records dag.byHash
        dag.topoOrder dagHeads latestCpSeq).1 ≠ .assumed ↔
      GrantLogRules sha256 cpHeads verifiedHeadless malformedHead rts records dag.byHash
        dagHeads latestCpSeq := by
  constructor
  · intro hne
    by_contra h
    exact hne (computeBrokerTrust_of_not_rules hs h).1
  · intro h
    rw [computeBrokerTrust_of_rules hs h]
    exact latestTrust_ne_assumed h.latest

end Spec

end Averin
