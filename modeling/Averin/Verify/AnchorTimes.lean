import Averin.Core.Lowering
import Averin.Verify.CanonicalTs
import Averin.Verify.FederationTrust

/-!
# The earliest anchor of every record

An anchored checkpoint dates the records its frontier commits. One pass over the indexed graph
finds the earliest date of every record at once, and a table of the nodes that reach a log entry
tells at once whether a frontier commits one. Both answer as the walk from each frontier does.
-/

namespace Averin

open Std (TreeMap TreeSet)

namespace DagIndex

/-- Put the time of an anchor on the known members of its frontier. -/
def seedAnchor (dix : DagIndex) (minTs : List (Option String)) (ts : String)
    (frontier : List String) : List (Option String) :=
  frontier.foldl (fun minTs f => dix.nodeOf[f]?.elim minTs (lowerAt minTs · ts)) minTs

/-- The earliest canonical anchor time of every node, from the anchors and their frontiers. -/
def minAnchorTimes (dix : DagIndex) (anchors : List (String × List String))
    (isCanonical : String → Bool) : List (Option String) :=
  pushAll dix.parentsOf dix.parents.length
    (anchors.foldl (fun minTs a => if isCanonical a.1 then dix.seedAnchor minTs a.1 a.2 else minTs)
      (.replicate dix.parents.length none))

end DagIndex

/-- Some anchored checkpoint early enough commits the hash: one walk for each of them. -/
def anchoredByWalk (records : List CanonValue) (byHash : TreeMap String Nat)
    (anchored : List (String × List String)) (contentHash changedAt : String) : Bool :=
  anchored.any fun a => isCanonicalTs a.1 && decide (a.1 ≤ changedAt) &&
    (committedSet records byHash a.2).contains contentHash

/-- A record is anchored before a change. The index answers for every hash it has a node for. -/
def anchoredBefore (records : List CanonValue) (dag : Option Dag)
    (anchored : List (String × List String)) (contentHash changedAt : String) : Bool :=
  isCanonicalTs changedAt && dag.any fun d =>
    let dix := DagIndex.build records d.byHash d.topoOrder
    let minTs := dix.elim [] (·.minAnchorTimes anchored isCanonicalTs)
    match dix.bind (·.nodeOf[contentHash]?) with
    | some n => (minTs.getD n none).any (· ≤ changedAt)
    | none => anchoredByWalk records d.byHash anchored contentHash changedAt

variable {records : List CanonValue} {dag : Dag} {dix : DagIndex}
  {anchors : List (String × List String)} {isCanonical : String → Bool}

/-- The times put on a node: those of the canonical anchors with the node in their frontier. -/
def SeedTimes (dix : DagIndex) (anchors : List (String × List String))
    (isCanonical : String → Bool) (x : Nat) : Set String :=
  { t | ∃ frontier, (t, frontier) ∈ anchors ∧ isCanonical t = true ∧
    x ∈ frontier.filterMap (dix.nodeOf[·]?) }

/-- The times of the canonical anchors that commit a hash. -/
def CommitTimes (records : List CanonValue) (byHash : TreeMap String Nat)
    (anchors : List (String × List String)) (isCanonical : String → Bool) (h : String) :
    Set String :=
  { t | ∃ frontier, (t, frontier) ∈ anchors ∧ isCanonical t = true ∧
    h ∈ committedSet records byHash frontier }

/-- The earliest anchor of a frontier. -/
theorem seedAnchor_eq (dix : DagIndex) (minTs : List (Option String)) (ts : String)
    (frontier : List String) :
    dix.seedAnchor minTs ts frontier =
      ((frontier.filterMap (dix.nodeOf[·]?)).map (·, ts)).foldl
        (fun minTs e => lowerAt minTs e.1 e.2) minTs := by
  rw [List.foldl_map, List.foldl_filterMap, DagIndex.seedAnchor]
  congr 1
  funext minTs f
  cases dix.nodeOf[f]? <;> rfl

/-- The seeds, anchor after anchor. -/
theorem holds_seeds (hd : DagIndexSpec records dag dix) :
    ∀ (anchors : List (String × List String)) {S : Nat → Set String}
      {minTs : List (Option String)}, Holds dix.parents.length S minTs →
      Holds dix.parents.length (fun x => S x ∪ SeedTimes dix anchors isCanonical x)
        (anchors.foldl (fun minTs a =>
          if isCanonical a.1 then dix.seedAnchor minTs a.1 a.2 else minTs) minTs) := by
  intro anchors
  induction anchors with
  | nil => exact fun h => h.congr fun x _ => by simp [SeedTimes]
  | cons a anchors ih =>
    obtain ⟨ts, frontier⟩ := a
    intro S minTs h
    rw [List.foldl_cons]
    by_cases hc : isCanonical ts = true
    · rw [if_pos hc, seedAnchor_eq]
      have hseed := h.lowerAll (l := (frontier.filterMap (dix.nodeOf[·]?)).map (·, ts)) <| by
        intro e he
        obtain ⟨x, hx, rfl⟩ := List.mem_map.mp he
        obtain ⟨f, -, hf⟩ := List.mem_filterMap.mp hx
        exact hd.node_lt hf
      refine (ih hseed).congr fun x _ => ?_
      ext t
      simp only [SeedTimes, Set.mem_union, Set.mem_ofPred_eq, List.mem_map, Prod.mk.injEq,
        List.mem_cons, or_assoc]
      refine or_congr_right ?_
      constructor
      · rintro (⟨y, hy, rfl, rfl⟩ | ⟨g, hg, ht⟩)
        · exact ⟨frontier, Or.inl ⟨rfl, rfl⟩, hc, hy⟩
        · exact ⟨g, Or.inr hg, ht⟩
      · rintro ⟨g, ⟨rfl, rfl⟩ | hg, ht⟩
        · exact Or.inl ⟨x, ht.2, rfl, rfl⟩
        · exact Or.inr ⟨g, hg, ht⟩
    · rw [if_neg hc]
      refine (ih h).congr fun x _ => ?_
      congr 1
      ext t
      simp only [SeedTimes, Set.mem_ofPred_eq, List.mem_cons, Prod.mk.injEq]
      constructor
      · rintro ⟨g, hg, ht⟩
        exact ⟨g, Or.inr hg, ht⟩
      · rintro ⟨g, ⟨rfl, rfl⟩ | hg, ht⟩
        · exact absurd ht.1 hc
        · exact ⟨g, hg, ht⟩

/-- Every node gets the least time of the canonical anchors that commit its hash. -/
theorem minAnchorTimes_leastOf (hs : DagSpec records dag) (hd : DagIndexSpec records dag dix)
    (anchors : List (String × List String)) (isCanonical : String → Bool) {h : String} {x : Nat}
    (hx : dix.nodeOf[h]? = some x) :
    LeastOf (CommitTimes records dag.byHash anchors isCanonical h)
      ((dix.minAnchorTimes anchors isCanonical).getD x none) := by
  have hseeds := @holds_seeds _ _ _ isCanonical hd anchors _ _ holds_replicate
  have hpass := (hseeds.pushAll hd.parents_lt).least x (hd.node_lt hx)
  have hset : CommitTimes records dag.byHash anchors isCanonical h =
      { t | ∃ z < dix.parents.length,
        Relation.ReflTransGen (fun c p => p ∈ dix.parentsOf c) z x ∧
          t ∈ ∅ ∪ SeedTimes dix anchors isCanonical z } := by
    ext t
    simp only [CommitTimes, SeedTimes, mem_committedSet_iff, hd.reached_iff hs hx,
      Set.empty_union, Set.mem_ofPred_eq]
    constructor
    · rintro ⟨frontier, hmem, hc, z, hz, hr⟩
      obtain ⟨f, -, hf⟩ := List.mem_filterMap.mp hz
      exact ⟨z, hd.node_lt hf, hr, frontier, hmem, hc, hz⟩
    · rintro ⟨z, -, hr, frontier, hmem, hc, hz⟩
      exact ⟨frontier, hmem, hc, z, hz, hr⟩
  rw [hset]
  exact hpass

/-- A record is anchored when an earlier anchor reaches it. -/
theorem anchoredByWalk_iff {byHash : TreeMap String Nat} {contentHash changedAt : String} :
    anchoredByWalk records byHash anchors contentHash changedAt = true ↔
      ∃ t ∈ CommitTimes records byHash anchors isCanonicalTs contentHash, t ≤ changedAt := by
  simp only [anchoredByWalk, List.any_eq_true, Bool.and_eq_true, decide_eq_true_eq,
    List.contains_eq_mem, CommitTimes, Set.mem_ofPred_eq]
  constructor
  · rintro ⟨⟨t, frontier⟩, hmem, ⟨hc, hle⟩, hcom⟩
    exact ⟨t, ⟨frontier, hmem, hc, hcom⟩, hle⟩
  · rintro ⟨t, ⟨frontier, hmem, hc, hcom⟩, hle⟩
    exact ⟨(t, frontier), hmem, ⟨hc, hle⟩, hcom⟩

/-- The gate answers as the walk from each anchored checkpoint. -/
theorem anchoredBefore_eq_walk (hs : DagSpec records dag)
    (anchored : List (String × List String)) (contentHash changedAt : String) :
    anchoredBefore records (some dag) anchored contentHash changedAt =
      (isCanonicalTs changedAt &&
        anchoredByWalk records dag.byHash anchored contentHash changedAt) := by
  obtain ⟨dix, hdix⟩ := hs.exists_dagIndex
  have hd := hs.dagIndexSpec hdix
  simp only [anchoredBefore, Option.any_some, hdix, Option.bind_some, Option.elim_some]
  congr 1
  cases hn : dix.nodeOf[contentHash]? with
  | none => rfl
  | some n =>
    dsimp only
    rw [Bool.eq_iff_iff, anchoredByWalk_iff]
    exact (minAnchorTimes_leastOf hs hd anchored isCanonicalTs hn).any_le_iff

/-- The trust entries of the listed records are at nodes. -/
theorem exists_node_of_mem_recordTrustOf (hs : DagSpec records dag)
    (hd : DagIndexSpec records dag dix) {rt : RecordTrust} (hrt : rt ∈ recordTrustOf records) :
    (∃ rec, records[rt.index]? = some rec) ∧ ∃ x, dix.nodeOf[rt.contentHash]? = some x := by
  obtain ⟨i, rec, hget, rfl⟩ := mem_recordTrustOf.mp hrt
  obtain ⟨ch, hch, -⟩ := hs.hashes rec (List.mem_of_getElem? hget)
  have hmem : ch ∈ dag.topoOrder := by
    rw [hs.mem_topoOrder, ← TreeMap.isSome_getElem?_iff_mem, hs.index, isSome_lastIndex_iff]
    exact ⟨rec, List.mem_of_getElem? hget, hch⟩
  obtain ⟨x, hx⟩ := List.mem_iff_getElem?.mp hmem
  refine ⟨⟨rec, hget⟩, x, (hd.node _ x).mpr ?_⟩
  rw [hx, trustEntry, hch, Option.getD_some]

/-- The checkpoints of a broker are collected. -/
theorem exists_collect {bid : Option String} {rts : List RecordTrust}
    (hrts : ∀ rt ∈ rts, (∃ rec, records[rt.index]? = some rec) ∧
      ∃ x, dix.nodeOf[rt.contentHash]? = some x) (pos : Nat)
    (entries : List (List (Int × Nat))) :
    ∃ out, LogIndex.collect dix records bid rts pos entries = some out := by
  induction rts generalizing pos entries with
  | nil => exact ⟨entries, rfl⟩
  | cons rt rest ih =>
    obtain ⟨⟨⟨rec, hrec⟩, x, hx⟩, hrest⟩ := List.forall_mem_cons.mp hrts
    rw [LogIndex.collect]
    cases logPayloadKey rt.brokerRole with
    | none => exact ih hrest _ _
    | some key =>
      simp only [hrec, hx]
      split_ifs
      · exact ih hrest _ _
      · cases brokerSeq rec key with
        | none => exact ih hrest _ _
        | some seq => exact ih hrest _ _

theorem exists_seenBrokers {seen : List Nat} {rts : List RecordTrust}
    (hrts : ∀ rt ∈ rts, (∃ rec, records[rt.index]? = some rec) ∧
      ∃ x, dix.nodeOf[rt.contentHash]? = some x) :
    ∃ out, seenBrokers dix records seen rts = some out := by
  induction rts with
  | nil => exact ⟨[], rfl⟩
  | cons rt rest ih =>
    obtain ⟨⟨⟨rec, hrec⟩, x, hx⟩, hrest⟩ := List.forall_mem_cons.mp hrts
    obtain ⟨out, hout⟩ := ih hrest
    rw [seenBrokers]
    cases logPayloadKey rt.brokerRole with
    | none => exact ⟨out, hout⟩
    | some key =>
      simp only [hrec, hx, hout, Option.bind_some, Option.map_some]
      split_ifs
      · exact ⟨out, rfl⟩
      · exact ⟨_, rfl⟩

/-- The index and the tables agree with the walks: every node of an accepted DAG is dated by the
least canonical anchor that commits it, the gate answers as the walk of each anchored checkpoint,
and a frontier commits a log entry of a partition exactly if the log read from it is not empty.
For the trust entries of the records themselves the tables are never refused. -/
theorem anchorIndex_exact {records : List CanonValue} {dag : Dag}
    (h : build records = .ok dag) :
    ∃ dix, DagIndex.build records dag.byHash dag.topoOrder = some dix ∧
      (∀ anchors isCanonical hash x, dix.nodeOf[hash]? = some x →
        (∀ t, (dix.minAnchorTimes anchors isCanonical).getD x none = some t ↔
          IsLeast (CommitTimes records dag.byHash anchors isCanonical hash) t) ∧
        ((dix.minAnchorTimes anchors isCanonical).getD x none = none ↔
          CommitTimes records dag.byHash anchors isCanonical hash = ∅)) ∧
      (∀ anchored contentHash changedAt,
        anchoredBefore records (some dag) anchored contentHash changedAt =
          (isCanonicalTs changedAt &&
            anchoredByWalk records dag.byHash anchored contentHash changedAt)) ∧
      (∀ rts bid idx, LogIndex.build dix rts records bid = some idx → ∀ frontier,
        idx.commitsAny idx.reach frontier = true ↔
          committedBrokerLog rts records dag.byHash frontier bid ≠ []) ∧
      (∀ rts frontier out, brokersCommittedBy dix rts records frontier = some out → ∀ b,
        b ∈ out ↔ committedBrokerLog rts records dag.byHash frontier (some b) ≠ []) ∧
      (∀ bid, ∃ idx, LogIndex.build dix (recordTrustOf records) records bid = some idx) ∧
      ∀ frontier, ∃ out,
        brokersCommittedBy dix (recordTrustOf records) records frontier = some out := by
  have hs := build_eq_ok h
  obtain ⟨dix, hdix⟩ := hs.exists_dagIndex
  have hd := hs.dagIndexSpec hdix
  refine ⟨dix, hdix, fun anchors isCanonical hash x hx => ?_, anchoredBefore_eq_walk hs,
    ?_, ?_, ?_, ?_⟩
  · have hleast := minAnchorTimes_leastOf hs hd anchors isCanonical hx
    exact ⟨fun t => hleast.eq_some_iff, hleast.eq_none_iff⟩
  · intro rts bid idx hidx frontier
    rw [← commitsLog_iff hs, hdix, Option.bind_some, hidx]
    rfl
  · intro rts frontier out hout b
    rw [← commitsBroker_iff hs, commitsBroker, hdix, Option.bind_some, hout]
    simp
  · intro bid
    obtain ⟨out, hout⟩ := exists_collect
      (fun rt hrt => exists_node_of_mem_recordTrustOf hs hd hrt) 0 _
    exact ⟨_, by rw [LogIndex.build, hout]; rfl⟩
  · intro frontier
    exact exists_seenBrokers fun rt hrt => exists_node_of_mem_recordTrustOf hs hd hrt

/-- The first of two grants is dated by the anchor of the second. -/
theorem anchorIndex_exact_two_grants :
    ∃ dag, build twoGrants = .ok dag ∧
      anchoredBefore twoGrants (some dag)
        [("2026-03-01T00:00:00.000Z", [digest 'b', "z"]), ("2026", [digest 'a'])] (digest 'a')
        "2026-04-01T00:00:00.000Z" = true := by
  obtain ⟨dag, hb, htest⟩ := exists_of_buildsWith twoGrants (fun dag =>
    anchoredByWalk twoGrants dag.byHash
      [("2026-03-01T00:00:00.000Z", [digest 'b', "z"]), ("2026", [digest 'a'])] (digest 'a')
      "2026-04-01T00:00:00.000Z") (by decide +kernel)
  obtain ⟨dix, hdix, -, hgate, -⟩ := anchorIndex_exact hb
  refine ⟨dag, hb, ?_⟩
  rw [hgate, htest, Bool.and_true]
  decide +kernel

end Averin
