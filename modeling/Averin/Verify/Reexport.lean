import Averin.Dag.Copies
import Averin.Verify.Transparency

/-!
# Re-exported records

Each copy of a log entry is another entry with the same number, and a copy may change which record
is kept for its hash, and with it the graph. The rules before the heads notice neither. A head
whose frontier commits the numbers from one on without repetition does, if the copies add to these
entries or change what is reached.
-/

namespace Averin

open Std (TreeMap TreeSet)

/-- The hash of a record as its trust entry keeps it. -/
def hashText (rec : CanonValue) : String := (recordHash rec).getD ""

/-- The log number of a record in a partition, if it is a log entry. -/
def recordSeq (bid : Option String) (rec : CanonValue) : Option Int :=
  (logPayloadKey (classifyRole rec)).bind fun key =>
    if inPartition bid rec key then brokerSeq rec key else none

/-- The entry of a record that is committed. -/
def recordEntry (bid : Option String) (committed : List String) (rec : CanonValue) :
    Option (Int × String) :=
  if hashText rec ∈ committed then (recordSeq bid rec).map (·, hashText rec) else none

variable {records copies : List CanonValue} {byHash : TreeMap String Nat} {bid : Option String}

/-- The entries of the trust list are those of the records. -/
theorem filterMap_recordTrustOf {committed : List String} :
    (recordTrustOf records).filterMap (committedEntry records bid committed) =
      records.filterMap (recordEntry bid committed) := by
  rw [recordTrustOf, List.mapIdx_eq_zipIdx_map, List.filterMap_map]
  conv_rhs => rw [← List.zipIdx_map_fst 0 records, List.filterMap_map]
  refine List.filterMap_congr fun e he => ?_
  have hget := List.mem_zipIdx_iff_getElem?.mp he
  simp only [Function.comp_apply, committedEntry, recordEntry, logSeq, recordAt_trustEntry hget]
  rfl

/-- The log of the trust list is the log of the records. -/
theorem committedBrokerLog_recordTrustOf {frontier : List String} :
    committedBrokerLog (recordTrustOf records) records byHash frontier bid =
      (records.filterMap (recordEntry bid (committedSet records byHash frontier))).insertionSort
        (·.1 ≤ ·.1) := by
  rw [committedBrokerLog_eq, filterMap_recordTrustOf]

/-- The log consists of the entries of the records. -/
theorem mem_log_recordTrustOf {frontier : List String} {e : Int × String} :
    e ∈ committedBrokerLog (recordTrustOf records) records byHash frontier bid ↔
      ∃ rec ∈ records, recordEntry bid (committedSet records byHash frontier) rec = some e := by
  rw [committedBrokerLog_recordTrustOf, (List.perm_insertionSort _ _).mem_iff, List.mem_filterMap]

/-- What the rules ask of the listed records, whatever is committed: entries of one number have
one hash, every grant is numbered, and a grant id is bound to one number and hash. -/
structure GrantsAgree (records : List CanonValue) : Prop where
  seq_unique : ∀ r ∈ records, ∀ r' ∈ records, ∀ n, recordSeq none r = some n →
    recordSeq none r' = some n → hashText r = hashText r'
  numbered : ∀ r ∈ records, classifyRole r = .broker → brokerSeq r "grant_evidence" ≠ none
  bound_once : ∀ r ∈ records, ∀ r' ∈ records, classifyRole r = .broker →
    classifyRole r' = .broker → ∀ gid, evStr r "grant_evidence" "grant_id" = some gid →
      evStr r' "grant_evidence" "grant_id" = some gid →
        (evInt r "grant_evidence" "broker_seq").getD 0 =
          (evInt r' "grant_evidence" "broker_seq").getD 0 ∧ hashText r = hashText r'

/-- What is agreed on stays so for fewer records. -/
theorem GrantsAgree.of_subset {records' : List CanonValue} (h : GrantsAgree records)
    (hsub : ∀ r ∈ records', r ∈ records) : GrantsAgree records' where
  seq_unique r hr r' hr' := h.seq_unique r (hsub r hr) r' (hsub r' hr')
  numbered r hr := h.numbered r (hsub r hr)
  bound_once r hr r' hr' := h.bound_once r (hsub r hr) r' (hsub r' hr')

/-- The log of all brokers that a frontier commits. -/
abbrev frontierLog (records : List CanonValue) (dag : Dag) (frontier : List String) :
    List (Int × String) :=
  committedBrokerLog (recordTrustOf records) records dag.byHash frontier none

section Whole

variable {dag : Dag} (hs : DagSpec records dag)
include hs

/-- The heads of the graph commit every listed record. -/
theorem DagSpec.hashText_mem_committedSet {r : CanonValue} (hr : r ∈ records) :
    hashText r ∈ committedSet records dag.byHash dag.heads := by
  obtain ⟨ch, hch, -⟩ := hs.hashes r hr
  have htext : hashText r = ch := by rw [hashText, hch, Option.getD_some]
  rw [htext]
  exact hs.mem_committedSet_heads (hs.mem_byHash_iff.mpr ⟨r, hr, hch⟩)

/-- At the heads every record is committed. -/
theorem mem_frontierLog_heads {e : Int × String} :
    e ∈ frontierLog records dag dag.heads ↔
      ∃ r ∈ records, recordSeq none r = some e.1 ∧ hashText r = e.2 := by
  rw [mem_log_recordTrustOf]
  refine exists_congr fun r => and_congr_right fun hr => ?_
  rw [recordEntry, if_pos (hs.hashText_mem_committedSet hr), Option.map_eq_some_iff]
  constructor
  · rintro ⟨n, hn, rfl⟩
    exact ⟨hn, rfl⟩
  · rintro ⟨hn, hhash⟩
    exact ⟨e.1, hn, Prod.ext rfl hhash⟩

/-- A grant is committed at the heads. -/
theorem committedGrant_trustEntry {i : Nat} {r : CanonValue} (hget : records[i]? = some r)
    (hrole : classifyRole r = .broker) :
    CommittedGrant (recordTrustOf records) records dag.byHash dag.heads (trustEntry r i) :=
  ⟨mem_recordTrustOf.mpr ⟨i, r, hget, rfl⟩, hrole,
    hs.hashText_mem_committedSet (List.mem_of_getElem? hget)⟩

omit hs in
/-- What a record binds its grant to. -/
theorem grantBinding_trustEntry {i : Nat} {r : CanonValue} (hget : records[i]? = some r) :
    grantBinding records (trustEntry r i) =
      (evStr r "grant_evidence" "grant_id").map fun gid =>
        (gid, ((evInt r "grant_evidence" "broker_seq").getD 0, hashText r)) := by
  rw [grantBinding, recordAt_trustEntry hget]
  rfl

/-- The rules before the heads: one on the records, and one on the checkpoints without a head. -/
theorem logRules_iff {verifiedHeadless : List (List String)} {malformedHead : Bool} :
    LogRules verifiedHeadless malformedHead (recordTrustOf records) records dag.byHash dag.heads ↔
      GrantsAgree records ∧ malformedHead = false ∧
        ∀ f ∈ verifiedHeadless, frontierLog records dag f = [] := by
  constructor
  · intro h
    refine ⟨⟨?_, ?_, ?_⟩, h.well_formed, h.headed⟩
    · intro r hr r' hr' n hn hn'
      exact h.seq_unique (n, hashText r) ((mem_frontierLog_heads hs).mpr ⟨r, hr, hn, rfl⟩)
        (n, hashText r') ((mem_frontierLog_heads hs).mpr ⟨r', hr', hn', rfl⟩) rfl
    · intro r hr hrole
      obtain ⟨i, hget⟩ := List.mem_iff_getElem?.mp hr
      have hnum := h.numbered _ (committedGrant_trustEntry hs hget hrole)
      rwa [recordAt_trustEntry hget] at hnum
    · intro r hr r' hr' hrole hrole' gid hgid hgid'
      obtain ⟨i, hget⟩ := List.mem_iff_getElem?.mp hr
      obtain ⟨i', hget'⟩ := List.mem_iff_getElem?.mp hr'
      have hbound := h.bound_once _ _ (committedGrant_trustEntry hs hget hrole)
        (committedGrant_trustEntry hs hget' hrole') gid
      simp only [grantBinding_trustEntry hget, grantBinding_trustEntry hget', hgid, hgid',
        Option.map_some, Option.some.injEq, Prod.mk.injEq, true_and] at hbound
      have hsame := hbound _ _ rfl rfl
      exact Prod.mk.inj hsame
  · rintro ⟨hagree, hformed, hheaded⟩
    refine ⟨?_, hformed, ?_, ?_, hheaded⟩
    · rintro ⟨n, a⟩ ha ⟨n', b⟩ hb hab
      obtain ⟨r, hr, hn, rfl⟩ := (mem_frontierLog_heads hs).mp ha
      obtain ⟨r', hr', hn', rfl⟩ := (mem_frontierLog_heads hs).mp hb
      dsimp only at hab hn hn' ⊢
      exact hagree.seq_unique r hr r' hr' n hn (hab ▸ hn')
    · rintro rt ⟨hrt, hrole, -⟩
      obtain ⟨i, r, hget, rfl⟩ := mem_recordTrustOf.mp hrt
      rw [recordAt_trustEntry hget]
      exact hagree.numbered r (List.mem_of_getElem? hget) hrole
    · rintro rt rt' ⟨hrt, hrole, -⟩ ⟨hrt', hrole', -⟩ gid b b' hb hb'
      obtain ⟨i, r, hget, rfl⟩ := mem_recordTrustOf.mp hrt
      obtain ⟨i', r', hget', rfl⟩ := mem_recordTrustOf.mp hrt'
      rw [grantBinding_trustEntry hget] at hb
      rw [grantBinding_trustEntry hget'] at hb'
      obtain ⟨gid₁, hgid, heq⟩ := Option.map_eq_some_iff.mp hb
      obtain ⟨gid₂, hgid', heq'⟩ := Option.map_eq_some_iff.mp hb'
      obtain ⟨rfl, rfl⟩ := Prod.mk.inj heq
      obtain ⟨rfl, rfl⟩ := Prod.mk.inj heq'
      obtain ⟨hseq, hhash⟩ := hagree.bound_once r (List.mem_of_getElem? hget) r'
        (List.mem_of_getElem? hget') hrole hrole' _ hgid hgid'
      rw [hseq, hhash]

end Whole

/-- The log numbers of the records that a frontier reaches. -/
def reachedNumbers (records : List CanonValue) (byHash : TreeMap String Nat)
    (frontier : List String) : List Int :=
  (records.filter fun r => hashText r ∈ committedSet records byHash frontier).filterMap
    (recordSeq none)

/-- They are the numbers from one on, each once. -/
def NumberedFromOne (records : List CanonValue) (byHash : TreeMap String Nat)
    (frontier : List String) : Prop :=
  (reachedNumbers records byHash frontier).Perm
    ((List.range (reachedNumbers records byHash frontier).length).map fun i : Nat => (i : Int) + 1)

section Numbers

variable {dag : Dag} {frontier : List String}

/-- The numbers of the log are those of the records reached. -/
theorem map_frontierLog_perm :
    ((frontierLog records dag frontier).map (·.1)).Perm
      (reachedNumbers records dag.byHash frontier) := by
  have hnumbers : (records.filterMap (recordEntry none
      (committedSet records dag.byHash frontier))).map (·.1) =
      reachedNumbers records dag.byHash frontier := by
    rw [reachedNumbers, List.map_filterMap, List.filterMap_filter]
    refine List.filterMap_congr fun r _ => ?_
    rw [recordEntry]
    split_ifs with hin hin
    · cases recordSeq none r <;> rfl
    · simp_all
    · simp_all
    · rfl
  rw [frontierLog, committedBrokerLog_recordTrustOf, ← hnumbers]
  exact (List.perm_insertionSort _ _).map _

/-- The log is gapless exactly if these count from one. -/
theorem isGapless_frontierLog_iff :
    isGapless (frontierLog records dag frontier) = true ↔
      NumberedFromOne records dag.byHash frontier := by
  have hperm := @map_frontierLog_perm records dag frontier
  have hlength := hperm.length_eq
  rw [List.length_map] at hlength
  rw [isGapless_iff, NumberedFromOne, ← hlength]
  constructor
  · intro h
    exact hperm.symm.trans (h ▸ List.Perm.refl _)
  · intro h
    have hsorted : ((frontierLog records dag frontier).map (·.1)).Pairwise (· ≤ ·) :=
      List.pairwise_map.mpr pairwise_committedBrokerLog
    have hrange : ((List.range (frontierLog records dag frontier).length).map
        fun i : Nat => (i : Int) + 1).Pairwise (· ≤ ·) := by
      rw [List.pairwise_map]
      exact List.pairwise_lt_range.imp fun hlt => by omega
    exact List.Perm.eq_of_pairwise' hsorted hrange (hperm.trans h)

end Numbers

/-- The copies go unseen at a frontier: it reaches no copied log entry, and the same log entries
of the list with the copies as without them. -/
structure CopiesUnseenAt (records copies : List CanonValue) (byHash byHash' : TreeMap String Nat)
    (frontier : List String) : Prop where
  uncopied : ∀ c ∈ copies, recordSeq none c ≠ none →
    hashText c ∉ committedSet (records ++ copies) byHash' frontier
  reached : ∀ r ∈ records, recordSeq none r ≠ none →
    (hashText r ∈ committedSet (records ++ copies) byHash' frontier ↔
      hashText r ∈ committedSet records byHash frontier)

/-- They go unseen wherever the numbers reached are those from one on, in either list. -/
def CopiesUnseen (records copies : List CanonValue) (byHash byHash' : TreeMap String Nat) : Prop :=
  ∀ frontier, NumberedFromOne records byHash frontier ∨
    NumberedFromOne (records ++ copies) byHash' frontier →
      CopiesUnseenAt records copies byHash byHash' frontier

variable {dag dag' : Dag} {frontier : List String}

/-- Copies that go unseen leave the log as it was. -/
theorem CopiesUnseenAt.frontierLog_eq
    (h : CopiesUnseenAt records copies dag.byHash dag'.byHash frontier) :
    frontierLog (records ++ copies) dag' frontier = frontierLog records dag frontier := by
  have hrecords : records.filterMap (recordEntry none
      (committedSet (records ++ copies) dag'.byHash frontier)) =
      records.filterMap (recordEntry none (committedSet records dag.byHash frontier)) := by
    refine List.filterMap_congr fun r hr => ?_
    unfold recordEntry
    cases hseq : recordSeq none r with
    | none => simp
    | some n => simp only [h.reached r hr (by simp [hseq])]
  have hcopies : copies.filterMap (recordEntry none
      (committedSet (records ++ copies) dag'.byHash frontier)) = [] := by
    refine List.filterMap_eq_nil_iff.mpr fun c hcm => ?_
    unfold recordEntry
    cases hseq : recordSeq none c with
    | none => simp
    | some n => rw [if_neg (h.uncopied c hcm (by simp [hseq]))]
  rw [frontierLog, frontierLog, committedBrokerLog_recordTrustOf,
    committedBrokerLog_recordTrustOf, List.filterMap_append, hrecords, hcopies, List.append_nil]

section Copies

variable (hc : ∀ c ∈ copies, c ∈ records)
include hc

/-- A reached copy of an entry repeats its number. -/
theorem not_numberedFromOne_append {c : CanonValue} (hcm : c ∈ copies)
    (hseq : recordSeq none c ≠ none)
    (hcom : hashText c ∈ committedSet (records ++ copies) dag'.byHash frontier) :
    ¬ NumberedFromOne (records ++ copies) dag'.byHash frontier := by
  intro hnumbered
  have hnodup : (reachedNumbers (records ++ copies) dag'.byHash frontier).Nodup :=
    hnumbered.nodup_iff.mpr (List.nodup_range.map fun a b hab => by simpa using hab)
  rw [reachedNumbers, List.filter_append, List.filterMap_append] at hnodup
  obtain ⟨n, hn⟩ := Option.ne_none_iff_exists'.mp hseq
  have hin : ∀ l : List CanonValue, c ∈ l → n ∈ (l.filter fun r =>
      hashText r ∈ committedSet (records ++ copies) dag'.byHash frontier).filterMap
        (recordSeq none) := fun l hcl =>
    List.mem_filterMap.mpr ⟨c, List.mem_filter.mpr ⟨hcl, decide_eq_true hcom⟩, hn⟩
  exact List.disjoint_of_nodup_append hnodup (hin records (hc c hcm)) (hin copies hcm)

omit hc in
/-- A number in range is the number of a reached record. -/
theorem exists_of_numberedFromOne (h : NumberedFromOne records dag.byHash frontier) {n : Int}
    (hn : 1 ≤ n ∧ n ≤ (reachedNumbers records dag.byHash frontier).length) :
    ∃ r ∈ records, recordSeq none r = some n ∧
      hashText r ∈ committedSet records dag.byHash frontier := by
  have hmem : n ∈ reachedNumbers records dag.byHash frontier := by
    rw [h.mem_iff, List.mem_map]
    exact ⟨(n - 1).toNat, List.mem_range.mpr (by omega), by omega⟩
  obtain ⟨r, hr, hseq⟩ := List.mem_filterMap.mp hmem
  obtain ⟨hrec, hcom⟩ := List.mem_filter.mp hr
  exact ⟨r, hrec, hseq, of_decide_eq_true hcom⟩

omit hc in
/-- The number of a committed record is reached. -/
theorem mem_reachedNumbers {r : CanonValue} (hr : r ∈ records) {n : Int}
    (hseq : recordSeq none r = some n)
    (hcom : hashText r ∈ committedSet records dag.byHash frontier) :
    n ∈ reachedNumbers records dag.byHash frontier :=
  List.mem_filterMap.mpr ⟨r, List.mem_filter.mpr ⟨hr, decide_eq_true hcom⟩, hseq⟩

omit hc in
/-- Numbers that count from one lie between one and their count. -/
theorem NumberedFromOne.bounds (h : NumberedFromOne records dag.byHash frontier) {n : Int}
    (hn : n ∈ reachedNumbers records dag.byHash frontier) :
    1 ≤ n ∧ n ≤ (reachedNumbers records dag.byHash frontier).length := by
  rw [h.mem_iff, List.mem_map] at hn
  obtain ⟨i, hi, rfl⟩ := hn
  have := List.mem_range.mp hi
  omega

/-- Where both lists reach the same numbers from one on, the copies go unseen. -/
theorem copiesUnseenAt_of_numbered (hagree : GrantsAgree records)
    (h : NumberedFromOne records dag.byHash frontier)
    (h' : NumberedFromOne (records ++ copies) dag'.byHash frontier)
    (hlength : (reachedNumbers (records ++ copies) dag'.byHash frontier).length =
      (reachedNumbers records dag.byHash frontier).length) :
    CopiesUnseenAt records copies dag.byHash dag'.byHash frontier := by
  refine ⟨fun c hcm hseq hcom => not_numberedFromOne_append hc hcm hseq hcom h', ?_⟩
  intro r hr hseq
  obtain ⟨n, hn⟩ := Option.ne_none_iff_exists'.mp hseq
  have hwhole : ∀ r ∈ records ++ copies, r ∈ records := by
    intro r hr
    exact (List.mem_append.mp hr).elim id (hc r)
  -- The number is reached in the other list too, by a record of the same hash.
  constructor
  · intro hcom
    have hbounds := h'.bounds (mem_reachedNumbers (List.mem_append_left copies hr) hn hcom)
    obtain ⟨r₁, hr₁, hn₁, hcom₁⟩ := exists_of_numberedFromOne h (hlength ▸ hbounds)
    rwa [hagree.seq_unique r hr r₁ hr₁ n hn hn₁]
  · intro hcom
    have hbounds := h.bounds (mem_reachedNumbers hr hn hcom)
    obtain ⟨r₁, hr₁, hn₁, hcom₁⟩ := exists_of_numberedFromOne h' (hlength ▸ hbounds)
    rwa [hagree.seq_unique r hr r₁ (hwhole r₁ hr₁) n hn hn₁]

end Copies

/-- Copies that name the parents of the record kept for their hash leave the graph alone, so they
go unseen where no frontier that reaches the numbers from one on reaches a copied log entry. -/
theorem copiesUnseen_iff_of_reexports (hs : DagSpec records dag)
    (hs' : DagSpec (records ++ copies) dag') (hc : Reexports records copies dag.byHash) :
    CopiesUnseen records copies dag.byHash dag'.byHash ↔
      ∀ frontier, NumberedFromOne records dag.byHash frontier → ∀ c ∈ copies,
        recordSeq none c ≠ none → hashText c ∉ committedSet records dag.byHash frontier := by
  have hsame : ∀ frontier h, h ∈ committedSet (records ++ copies) dag'.byHash frontier ↔
      h ∈ committedSet records dag.byHash frontier := by
    intro frontier h
    rw [mem_committedSet_iff, mem_committedSet_iff, keptParents_append hs hs' hc]
  constructor
  · intro h frontier hnumbered c hcm hseq
    rw [← hsame]
    exact (h frontier (Or.inl hnumbered)).uncopied c hcm hseq
  · intro h frontier hnumbered
    refine ⟨fun c hcm hseq hcom => ?_, fun r _ _ => hsame frontier (hashText r)⟩
    rcases hnumbered with hold | hnew
    · exact h frontier hold c hcm hseq ((hsame _ _).mp hcom)
    · exact not_numberedFromOne_append (fun c hcm => (hc c hcm).1) hcm hseq hcom hnew

section OneHead

variable {sha256 : List UInt8 → Vector UInt8 32}

/-- A checkpoint with the head that a log has, the first one. -/
def headOf (sha256 : List UInt8 → Vector UInt8 32) (log : List (Int × String))
    (frontier : List String) : CheckpointHead where
  seq := 0
  anchored := true
  head := ⟨log.length, grantHeadRoot sha256 [], grantHeadRoot sha256 log⟩
  frontier := frontier

/-- As the only head it is right where the log is the one it was made for. -/
theorem grantLogRules_headOf (hs : DagSpec records dag) (hagree : GrantsAgree records)
    {log : List (Int × String)} :
    GrantLogRules sha256 [headOf sha256 log frontier] [] false (recordTrustOf records) records
        dag.byHash dag.heads 0 ↔
      HeadMatches sha256 (frontierLog records dag frontier) (headOf sha256 log frontier).head := by
  have horder : orderHeads ([headOf sha256 log frontier].map CheckpointHead.entry) =
      [(headOf sha256 log frontier).entry] := rfl
  constructor
  · intro h
    have hheads := h.heads
    rw [horder] at hheads
    exact hheads.1
  · intro h
    refine ⟨(logRules_iff hs).mpr ⟨hagree, rfl, by simp⟩, ⟨_, List.mem_singleton.mpr rfl, rfl⟩, ?_⟩
    rw [horder]
    exact ⟨h, rfl, trivial⟩

/-- The head of a gapless log is the right one. -/
theorem headMatches_headOf {log : List (Int × String)} (h : isGapless log = true) :
    HeadMatches sha256 log (headOf sha256 log frontier).head := ⟨h, rfl, rfl⟩

end OneHead

/-- The same verdict, with an issue reported by both or by neither. -/
def SameResult (r r' : BrokerTrust × List BrokerIssue) : Prop :=
  r'.1 = r.1 ∧ (r'.2 = [] ↔ r.2 = [])

section Result

variable {sha256 : List UInt8 → Vector UInt8 32} {cpHeads : List CheckpointHead}
  {verifiedHeadless : List (List String)} {malformedHead : Bool} {latestCpSeq : Int}

/-- The rules hold of another list that agrees and has the same logs where they are gapless. -/
theorem GrantLogRules.of_frontierLog_eq {records' : List CanonValue} (hs : DagSpec records dag)
    (hs' : DagSpec records' dag') (hagree : GrantsAgree records')
    (hlog : ∀ f, f ∈ verifiedHeadless ∨ (∃ head ∈ cpHeads, head.frontier = f) →
      isGapless (frontierLog records dag f) = true →
        frontierLog records' dag' f = frontierLog records dag f)
    (h : GrantLogRules sha256 cpHeads verifiedHeadless malformedHead (recordTrustOf records) records
      dag.byHash dag.heads latestCpSeq) :
    GrantLogRules sha256 cpHeads verifiedHeadless malformedHead (recordTrustOf records') records'
      dag'.byHash dag'.heads latestCpSeq := by
  obtain ⟨-, hformed, hheaded⟩ := (logRules_iff hs).mp h.log
  refine ⟨(logRules_iff hs').mpr ⟨hagree, hformed, fun f hf => ?_⟩, h.latest, ?_⟩
  · rw [hlog f (Or.inl hf) (by rw [hheaded f hf]; rfl)]
    exact hheaded f hf
  · refine (headsVerify_congr fun e he => ?_).mp h.heads
    have hgapless := (h.heads.matches e he).gapless
    obtain ⟨head, hhead, rfl⟩ := List.mem_map.mp (mem_orderHeads.mp he)
    exact (hlog _ (Or.inr ⟨head, hhead, rfl⟩) hgapless).symm

variable (hs : DagSpec records dag) (hs' : DagSpec (records ++ copies) dag')
  (hc : ∀ c ∈ copies, c ∈ records)
include hs hs' hc

/-- The result is the same when the rules hold in both lists or in neither. -/
theorem sameResult_iff :
    SameResult
        (computeBrokerTrust sha256 cpHeads verifiedHeadless malformedHead (recordTrustOf records)
          records dag.byHash dag.topoOrder dag.heads latestCpSeq)
        (computeBrokerTrust sha256 cpHeads verifiedHeadless malformedHead
          (recordTrustOf (records ++ copies)) (records ++ copies) dag'.byHash dag'.topoOrder
          dag'.heads latestCpSeq) ↔
      (GrantLogRules sha256 cpHeads verifiedHeadless malformedHead
          (recordTrustOf (records ++ copies)) (records ++ copies) dag'.byHash dag'.heads
          latestCpSeq ↔
        GrantLogRules sha256 cpHeads verifiedHeadless malformedHead (recordTrustOf records) records
          dag.byHash dag.heads latestCpSeq) := by
  have hidle : frontierLog (records ++ copies) dag' dag'.heads = [] ↔
      frontierLog records dag dag.heads = [] := by
    simp only [List.eq_nil_iff_forall_not_mem, mem_frontierLog_heads hs, mem_frontierLog_heads hs',
      List.mem_append]
    refine forall_congr' fun e => not_congr ⟨?_, ?_⟩
    · rintro ⟨r, hr, hentry⟩
      exact ⟨r, hr.elim id (hc r), hentry⟩
    · rintro ⟨r, hr, hentry⟩
      exact ⟨r, Or.inl hr, hentry⟩
  constructor
  · intro hsame
    rw [← computeBrokerTrust_ne_assumed_iff hs, ← computeBrokerTrust_ne_assumed_iff hs', hsame.1]
  · intro hrules
    by_cases h : GrantLogRules sha256 cpHeads verifiedHeadless malformedHead (recordTrustOf records)
        records dag.byHash dag.heads latestCpSeq
    · rw [computeBrokerTrust_of_rules hs h, computeBrokerTrust_of_rules hs' (hrules.mpr h)]
      exact ⟨rfl, Iff.rfl⟩
    · obtain ⟨hold, holdIssues⟩ := computeBrokerTrust_of_not_rules hs h
      obtain ⟨hnew, hnewIssues⟩ := computeBrokerTrust_of_not_rules hs' (mt hrules.mp h)
      exact ⟨hnew.trans hold.symm, by rw [hnewIssues, holdIssues, hidle]⟩

/-- Copies that go unseen at the frontiers in use leave the result as it was. -/
theorem sameResult_of_unseen
    (hunseen : GrantsAgree records →
      ∀ f, f ∈ verifiedHeadless ∨ (∃ head ∈ cpHeads, head.frontier = f) →
        NumberedFromOne records dag.byHash f ∨
          NumberedFromOne (records ++ copies) dag'.byHash f →
        CopiesUnseenAt records copies dag.byHash dag'.byHash f) :
    SameResult
      (computeBrokerTrust sha256 cpHeads verifiedHeadless malformedHead (recordTrustOf records)
        records dag.byHash dag.topoOrder dag.heads latestCpSeq)
      (computeBrokerTrust sha256 cpHeads verifiedHeadless malformedHead
        (recordTrustOf (records ++ copies)) (records ++ copies) dag'.byHash dag'.topoOrder
        dag'.heads latestCpSeq) := by
  have hwhole : ∀ r ∈ records ++ copies, r ∈ records := by
    intro r hr
    exact (List.mem_append.mp hr).elim id (hc r)
  rw [sameResult_iff hs hs' hc]
  constructor
  · intro h
    have hagree := ((logRules_iff hs').mp h.log).1.of_subset fun r => List.mem_append_left copies
    refine h.of_frontierLog_eq hs' hs hagree fun f hf hgap => ?_
    have hnumbered := isGapless_frontierLog_iff.mp hgap
    exact (hunseen hagree f hf (Or.inr hnumbered)).frontierLog_eq.symm
  · intro h
    have hagree := ((logRules_iff hs).mp h.log).1
    refine h.of_frontierLog_eq hs hs' (hagree.of_subset hwhole) fun f hf hgap => ?_
    have hnumbered := isGapless_frontierLog_iff.mp hgap
    exact (hunseen hagree f hf (Or.inl hnumbered)).frontierLog_eq

/-- If no head tells the lists apart, the copies go unseen. -/
theorem copiesUnseen_of_sameResult (hagree : GrantsAgree records)
    (hsame : ∀ head : CheckpointHead, SameResult
      (computeBrokerTrust sha256 [head] [] false (recordTrustOf records) records dag.byHash
        dag.topoOrder dag.heads 0)
      (computeBrokerTrust sha256 [head] [] false (recordTrustOf (records ++ copies))
        (records ++ copies) dag'.byHash dag'.topoOrder dag'.heads 0)) :
    CopiesUnseen records copies dag.byHash dag'.byHash := by
  intro f hnumbered
  have hagree' : GrantsAgree (records ++ copies) := by
    refine hagree.of_subset fun r hr => ?_
    exact (List.mem_append.mp hr).elim id (hc r)
  -- The head of the log that is gapless is right in both lists.
  obtain ⟨log, hold, hnew⟩ : ∃ log,
      HeadMatches sha256 (frontierLog records dag f) (headOf sha256 log f).head ∧
        HeadMatches sha256 (frontierLog (records ++ copies) dag' f) (headOf sha256 log f).head := by
    have hiff : ∀ log,
        HeadMatches sha256 (frontierLog (records ++ copies) dag' f) (headOf sha256 log f).head ↔
          HeadMatches sha256 (frontierLog records dag f) (headOf sha256 log f).head := by
      intro log
      rw [← grantLogRules_headOf hs hagree, ← grantLogRules_headOf hs' hagree']
      exact (sameResult_iff hs hs' hc).mp (hsame _)
    rcases hnumbered with h | h
    · have hold := @headMatches_headOf f sha256 _ (isGapless_frontierLog_iff.mpr h)
      exact ⟨_, hold, (hiff _).mpr hold⟩
    · have hnew := @headMatches_headOf f sha256 _ (isGapless_frontierLog_iff.mpr h)
      exact ⟨_, (hiff _).mp hnew, hnew⟩
  have hlength : (frontierLog (records ++ copies) dag' f).length =
      (frontierLog records dag f).length := by
    exact_mod_cast hnew.maxSeq.symm.trans hold.maxSeq
  refine copiesUnseenAt_of_numbered hc hagree (isGapless_frontierLog_iff.mp hold.gapless)
    (isGapless_frontierLog_iff.mp hnew.gapless) ?_
  rw [← map_frontierLog_perm.length_eq, ← map_frontierLog_perm.length_eq, List.length_map,
    List.length_map, hlength]

end Result

/-- Identical re-exports. Appending copies of listed records leaves the verdict, and whether an
issue is reported, unchanged for every set of checkpoint heads and frontiers exactly when the list
with the copies is accepted and the listed grants disagree among each other already, or else the
copies go unseen wherever the log numbers reached are those from one on. -/
theorem reexports_collapse_iff {sha256 : List UInt8 → Vector UInt8 32}
    (h : build records = .ok dag) (hc : ∀ c ∈ copies, c ∈ records) :
    (∃ dag', build (records ++ copies) = .ok dag' ∧
      ∀ cpHeads verifiedHeadless malformedHead latestCpSeq, SameResult
        (computeBrokerTrust sha256 cpHeads verifiedHeadless malformedHead (recordTrustOf records)
          records dag.byHash dag.topoOrder dag.heads latestCpSeq)
        (computeBrokerTrust sha256 cpHeads verifiedHeadless malformedHead
          (recordTrustOf (records ++ copies)) (records ++ copies) dag'.byHash dag'.topoOrder
          dag'.heads latestCpSeq)) ↔
      ∃ dag', build (records ++ copies) = .ok dag' ∧
        (GrantsAgree records → CopiesUnseen records copies dag.byHash dag'.byHash) := by
  have hs := build_eq_ok h
  refine exists_congr fun dag' => and_congr_right fun h' => ?_
  have hs' := build_eq_ok h'
  constructor
  · intro hsame hagree
    exact copiesUnseen_of_sameResult hs hs' hc hagree fun head => hsame [head] [] false 0
  · intro hunseen cpHeads verifiedHeadless malformedHead latestCpSeq
    exact sameResult_of_unseen hs hs' hc fun hagree f _ => hunseen hagree f

/-- A grant with another record on top of it. -/
def grantAndRecord : List CanonValue :=
  [bareGrant (digest 'a') [] 1 "b" "x", bareRecord (digest 'b') [digest 'a']]

/-- The record that is no grant, exported twice. -/
theorem reexported_record_collapses :
    ∃ dag dag', build grantAndRecord = .ok dag ∧
      build (grantAndRecord ++ [bareRecord (digest 'b') [digest 'a']]) = .ok dag' ∧
      ∀ cpHeads verifiedHeadless malformedHead latestCpSeq, SameResult
        (computeBrokerTrust Sha256.digest cpHeads verifiedHeadless malformedHead
          (recordTrustOf grantAndRecord) grantAndRecord dag.byHash dag.topoOrder dag.heads
          latestCpSeq)
        (computeBrokerTrust Sha256.digest cpHeads verifiedHeadless malformedHead
          (recordTrustOf (grantAndRecord ++ [bareRecord (digest 'b') [digest 'a']]))
          (grantAndRecord ++ [bareRecord (digest 'b') [digest 'a']]) dag'.byHash dag'.topoOrder
          dag'.heads latestCpSeq) := by
  obtain ⟨dag, hb, -⟩ := exists_of_buildsWith grantAndRecord (fun _ => true) (by decide +kernel)
  have hcopy : Reexports grantAndRecord [bareRecord (digest 'b') [digest 'a']] dag.byHash := by
    intro c hcm
    obtain rfl := List.mem_singleton.mp hcm
    refine ⟨List.mem_cons_of_mem _ List.mem_cons_self, fun h i hh hi => ?_⟩
    obtain ⟨rec, hrec, hget, hhash⟩ := (build_eq_ok hb).exists_kept hi
    rw [← hh] at hhash
    rw [List.getD_eq_getElem?_getD, hget]
    rcases List.mem_cons.mp hrec with rfl | hrec
    · exact absurd hhash (by decide)
    · rw [List.mem_singleton.mp hrec]
      rfl
  obtain ⟨dag', hb'⟩ := exists_build_append hb hcopy
  have hunseen : CopiesUnseen grantAndRecord [bareRecord (digest 'b') [digest 'a']] dag.byHash
      dag'.byHash := by
    refine (copiesUnseen_iff_of_reexports (build_eq_ok hb) (build_eq_ok hb') hcopy).mpr ?_
    intro frontier _ c hcm hseq
    obtain rfl := List.mem_singleton.mp hcm
    exact absurd rfl hseq
  obtain ⟨dag'', hb'', hsame⟩ := (reexports_collapse_iff hb fun c hcm => (hcopy c hcm).1).mpr
    ⟨dag', hb', fun _ => hunseen⟩
  exact ⟨dag, dag'', hb, hb'', hsame⟩

/-- One grant. -/
def oneGrant : List CanonValue := [bareGrant (digest 'a') [] 1 "b" "x"]

/-- The grant, exported twice under a head that commits it, loses its verdict. -/
theorem reexported_grant_loses_trust :
    ∃ dag dag', build oneGrant = .ok dag ∧ build (oneGrant ++ oneGrant) = .ok dag' ∧
      computeBrokerTrust Sha256.digest [sampleHead 0 0 1 [digest 'a']] [] false
          (recordTrustOf oneGrant) oneGrant dag.byHash dag.topoOrder dag.heads 0 =
        (.sequenceVerified, []) ∧
      (computeBrokerTrust Sha256.digest [sampleHead 0 0 1 [digest 'a']] [] false
          (recordTrustOf (oneGrant ++ oneGrant)) (oneGrant ++ oneGrant) dag'.byHash
          dag'.topoOrder dag'.heads 0).1 = .assumed ∧
      (computeBrokerTrust Sha256.digest [sampleHead 0 0 1 [digest 'a']] [] false
          (recordTrustOf (oneGrant ++ oneGrant)) (oneGrant ++ oneGrant) dag'.byHash
          dag'.topoOrder dag'.heads 0).2 ≠ [] := by
  have horder : orderHeads ([sampleHead 0 0 1 [digest 'a']].map CheckpointHead.entry) =
      [(sampleHead 0 0 1 [digest 'a']).entry] := rfl
  obtain ⟨dag, hb, htest⟩ := exists_of_buildsWith oneGrant (fun dag =>
    decide (logIssues [] false (recordTrustOf oneGrant) oneGrant dag.byHash dag.topoOrder
        dag.heads = [] ∧
      committedBrokerLog (recordTrustOf oneGrant) oneGrant dag.byHash [digest 'a'] none =
        [(1, digest 'a')])) (by decide +kernel)
  obtain ⟨hissues, hlog⟩ := of_decide_eq_true htest
  obtain ⟨dag', hb', htest'⟩ := exists_of_buildsWith (oneGrant ++ oneGrant)
    (fun dag => decide (committedBrokerLog (recordTrustOf (oneGrant ++ oneGrant))
      (oneGrant ++ oneGrant) dag.byHash [digest 'a'] none =
        [(1, digest 'a'), (1, digest 'a')])) (by decide +kernel)
  have hlog' := of_decide_eq_true htest'
  have hrules : GrantLogRules Sha256.digest [sampleHead 0 0 1 [digest 'a']] [] false
      (recordTrustOf oneGrant) oneGrant dag.byHash dag.heads 0 := by
    refine ⟨(logIssues_eq_nil_iff (build_eq_ok hb)).mp hissues, ⟨_, List.mem_cons_self, rfl⟩, ?_⟩
    rw [horder]
    refine ⟨⟨?_, ?_, ?_⟩, rfl, trivial⟩ <;>
      simp only [CheckpointHead.entry, sampleHead, hlog] <;> rfl
  have hbroken : ¬ GrantLogRules Sha256.digest [sampleHead 0 0 1 [digest 'a']] [] false
      (recordTrustOf (oneGrant ++ oneGrant)) (oneGrant ++ oneGrant) dag'.byHash dag'.heads 0 := by
    intro hrules
    have hgap := (hrules.heads.matches (sampleHead 0 0 1 [digest 'a']).entry
      (mem_orderHeads.mpr List.mem_cons_self)).gapless
    simp only [CheckpointHead.entry, sampleHead, hlog'] at hgap
    exact absurd hgap (by decide)
  obtain ⟨htrust, hreport⟩ := computeBrokerTrust_of_not_rules (build_eq_ok hb') hbroken
  refine ⟨dag, dag', hb, hb', computeBrokerTrust_of_rules (build_eq_ok hb) hrules, htrust, ?_⟩
  exact fun hnil => List.cons_ne_nil _ _ (hreport.mp hnil).1

end Averin
