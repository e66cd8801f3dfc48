import Averin.Segment.Chain

/-!
# A segment carries exactly its month

The records of a segment stand on the frontier of its base. When no parent lies before the
base, the heads are those of the base and of the records together; a count that adds up then
leaves no room for a record that is missing or for one that the base already commits.
-/

namespace Averin

open Std (TreeMap TreeSet)

variable {records : List CanonValue} {byHash : TreeMap String Nat} {base : TreeSet String}

/-- What the parents outside the record set add to the two tables of such parents. -/
structure LinkedOutside (base : TreeSet String) (outside : String → Prop) (links links' : Links) :
    Prop where
  baseReferenced : ∀ p, p ∈ links'.baseReferenced ↔
    p ∈ links.baseReferenced ∨ (outside p ∧ p ∈ base)
  earlierRefs : ∀ p, p ∈ links'.earlierRefs ↔ p ∈ links.earlierRefs ∨ (outside p ∧ p ∉ base)

/-- What is linked outside in two parts. -/
theorem LinkedOutside.trans {o o' : String → Prop} {links mid links' : Links}
    (h : LinkedOutside base o links mid) (h' : LinkedOutside base o' mid links') :
    LinkedOutside base (fun p => o p ∨ o' p) links links' := by
  constructor
  · intro p
    rw [h'.baseReferenced, h.baseReferenced, or_and_right, or_assoc]
  · intro p
    rw [h'.earlierRefs, h.earlierRefs, or_and_right, or_assoc]

theorem LinkedOutside.congr {o o' : String → Prop} {links links' : Links}
    (h : LinkedOutside base o links links') (ho : ∀ p, o p ↔ o' p) :
    LinkedOutside base o' links links' := by
  obtain rfl : o = o' := funext fun p => propext (ho p)
  exact h

theorem LinkedOutside.refl (base : TreeSet String) (links : Links) :
    LinkedOutside base (fun _ => False) links links := by
  constructor <;> simp

/-- A parent in the base is linked outside. -/
theorem linkOutside_outside {ch p : String} {links links' : Links}
    (h : linkOutside (some base) ch p links = .ok links') :
    LinkedOutside base (· = p) links links' := by
  unfold linkOutside at h
  dsimp only at h
  split_ifs at h with hp
  · obtain rfl := Except.ok.inj h
    rw [TreeSet.contains_iff_mem] at hp
    constructor <;> intro q
    · rw [TreeSet.mem_insert, Std.compare_eq_iff_eq, or_comm]
      refine or_congr_right ⟨?_, fun hq => hq.1.symm⟩
      rintro rfl
      exact ⟨rfl, hp⟩
    · refine (or_iff_left ?_).symm
      rintro ⟨rfl, hq⟩
      exact hq hp
  · obtain rfl := Except.ok.inj h
    rw [TreeSet.contains_iff_mem] at hp
    constructor <;> intro q
    · refine (or_iff_left ?_).symm
      rintro ⟨rfl, hq⟩
      exact hp hq
    · rw [TreeSet.mem_insert, Std.compare_eq_iff_eq, or_comm]
      refine or_congr_right ⟨?_, fun hq => hq.1.symm⟩
      rintro rfl
      exact ⟨rfl, hp⟩

theorem linkParents_outside {ch : String} {ps seen : List String} {links links' : Links}
    (h : linkParents byHash (some base) ch ps seen links = .ok links') :
    LinkedOutside base (fun p => p ∈ ps ∧ p ∉ byHash) links links' := by
  induction ps generalizing seen links with
  | nil =>
    obtain rfl := Except.ok.inj h
    exact (LinkedOutside.refl base links).congr (by simp)
  | cons q ps ih =>
    rw [linkParents] at h
    -- A parent that is indexed touches neither table, a repeated one nothing at all.
    have hin : q ∈ byHash → ∀ p, (p ∈ ps ∧ p ∉ byHash) ↔ p ∈ q :: ps ∧ p ∉ byHash := by
      intro hq p
      rw [List.mem_cons]
      constructor
      · exact fun hp => ⟨Or.inr hp.1, hp.2⟩
      · rintro ⟨rfl | hp, hn⟩
        · exact absurd hq hn
        · exact ⟨hp, hn⟩
    split_ifs at h with hsha hmem hseen
    · cases ho : linkOutside (some base) ch q links with
      | error e => simp [ho] at h
      | ok mid =>
        simp only [ho] at h
        refine ((linkOutside_outside ho).trans (ih h)).congr fun p => ?_
        simp only [Bool.not_eq_true', ← Bool.not_eq_true, TreeMap.contains_iff_mem] at hmem
        rw [List.mem_cons, or_and_right]
        refine or_congr_left ⟨?_, fun hp => hp.1⟩
        rintro rfl
        exact ⟨rfl, hmem⟩
    · exact (ih h).congr (hin (by simpa using hmem))
    · have hrest := (ih h).congr (hin (by simpa using hmem))
      exact ⟨hrest.baseReferenced, hrest.earlierRefs⟩

theorem linkRecords_outside {entries : List (String × Nat)} {links links' : Links}
    (h : linkRecords records byHash (some base) entries links = .ok links') :
    LinkedOutside base
      (fun p => ∃ e ∈ entries, p ∈ causalPrevHashes (records.getD e.2 .null) ∧ p ∉ byHash)
      links links' := by
  induction entries generalizing links with
  | nil =>
    obtain rfl := Except.ok.inj h
    exact (LinkedOutside.refl base links).congr (by simp)
  | cons e entries ih =>
    obtain ⟨ch, i⟩ := e
    rw [linkRecords] at h
    cases hp : parentsOf (records.getD i .null) i with
    | error e => simp only [hp, reduceCtorEq] at h
    | ok parents =>
      simp only [hp] at h
      obtain rfl := parentsOf_eq_ok hp
      cases hl : linkParents byHash (some base) ch (causalPrevHashes (records.getD i .null)) []
          links with
      | error e => simp only [hl, reduceCtorEq] at h
      | ok mid =>
        simp only [hl] at h
        refine ((linkParents_outside hl).trans (ih h)).congr fun p => ?_
        rw [List.exists_mem_cons_iff]

/-- The facts an accepted build over a base rests on. -/
structure SegmentDagSpec (records : List CanonValue) (base : TreeSet String) (dag : Dag) :
    Prop where
  index : ∀ h, dag.byHash[h]? = lastIndex h records 0
  topo_perm : dag.topoOrder.Perm dag.byHash.keys
  topo_first : ParentsFirst (resolvedParents records dag.byHash) dag.topoOrder
  mem_earlierRefs : ∀ p, p ∈ dag.earlierRefs ↔
    ∃ c, p ∈ keptParents records dag.byHash c ∧ p ∉ dag.byHash ∧ p ∉ base
  mem_heads : ∀ h, h ∈ dag.heads ↔
    (h ∈ dag.byHash ∧ ∀ c ∈ dag.byHash, h ∉ resolvedParents records dag.byHash c) ∨
      (h ∈ base ∧ h ∉ dag.byHash ∧ ∀ c, h ∉ keptParents records dag.byHash c)

/-- The parents named by the indexed records, by entry and by hash. -/
theorem exists_entry_iff {p : String} :
    (∃ e ∈ byHash.toList, p ∈ causalPrevHashes (records.getD e.2 .null)) ↔
      ∃ c, p ∈ keptParents records byHash c := by
  constructor
  · rintro ⟨e, he, hp⟩
    refine ⟨e.1, ?_⟩
    simpa only [keptParents, TreeMap.mem_toList_iff_getElem?_eq_some.mp he] using hp
  · rintro ⟨c, hp⟩
    unfold keptParents at hp
    cases hc : byHash[c]? with
    | none => simp [hc] at hp
    | some i =>
      rw [hc] at hp
      exact ⟨(c, i), TreeMap.mem_toList_iff_getElem?_eq_some.mpr hc, hp⟩

/-- The graph of a segment is what it should be. -/
theorem buildFrom_eq_ok {dag : Dag} (h : buildFrom records (some base) = .ok dag) :
    SegmentDagSpec records base dag := by
  unfold buildFrom at h
  cases hi : indexRecords records 0 ∅ 0 with
  | error e => simp [hi] at h
  | ok r =>
    obtain ⟨byHash, collapsed⟩ := r
    simp only [hi] at h
    cases hl : linkRecords records byHash (some base) byHash.toList (noLinks byHash) with
    | error e => simp [hl] at h
    | ok links =>
      simp only [hl] at h
      split_ifs at h with hlen
      obtain rfl := Except.ok.inj h
      obtain ⟨-, hindex⟩ := indexRecords_eq_ok hi
      obtain ⟨hall, -⟩ := linkRecords_noLinks hl
      obtain ⟨hperm, hfirst⟩ := hall.topo rfl (not_ne_iff.mp hlen)
      -- The tables start empty, so they hold what the indexed records name outside the set.
      have hout : LinkedOutside base (fun p => (∃ c, p ∈ keptParents records byHash c) ∧
          p ∉ byHash) (noLinks byHash) links := by
        refine (linkRecords_outside hl).congr fun p => ?_
        rw [← exists_entry_iff]
        constructor
        · rintro ⟨e, he, hp, hn⟩
          exact ⟨⟨e, he, hp⟩, hn⟩
        · rintro ⟨⟨e, he, hp⟩, hn⟩
          exact ⟨e, he, hp, hn⟩
      refine ⟨fun k => ?_, hperm, hfirst, fun p => ?_, fun v => ?_⟩
      · rw [hindex]
        simp
      · rw [hout.earlierRefs]
        simp [noLinks, and_assoc]
      · rw [List.mem_dedup, (List.perm_insertionSort _ _).mem_iff, List.mem_append]
        refine or_congr (hall.mem_heads v) ?_
        rw [baseHeads, List.mem_filter, TreeSet.mem_toList, Bool.and_eq_true, Bool.not_eq_true',
          Bool.not_eq_true', ← Bool.not_eq_true, ← Bool.not_eq_true, TreeSet.contains_iff_mem,
          TreeMap.contains_iff_mem, hout.baseReferenced]
        simp only [noLinks, TreeSet.not_mem_emptyc, false_or, not_and]
        constructor
        · rintro ⟨hb, hno, hn⟩
          exact ⟨hb, hn, fun c hc => hno ⟨⟨c, hc⟩, hn⟩ hb⟩
        · rintro ⟨hb, hn, hno⟩
          refine ⟨hb, ?_, hn⟩
          rintro ⟨⟨c, hc⟩, -⟩
          exact absurd hc (hno c)

/-- A global set of records, in which a content hash stands for one list of parents. -/
structure History where
  records : List CanonValue
  bind : RecordsBind records

/-- The records of a history that a frontier commits. -/
def History.closure (R : History) (frontier : List String) : Set String :=
  ancestors R.records frontier ∩ contentHashes R.records

/-- The count a checkpoint states is the number of records its frontier commits. -/
def History.TrueCount (R : History) (cp : CanonValue) : Prop :=
  recordCount cp = some ((R.closure (frontierOf cp)).ncard : Int)

/-- The base of a segment, read off its checkpoint. -/
def segmentBaseOf (cp : CanonValue) : Option SegmentBase :=
  match checkpointSeq cp, checkpointHash cp, recordCount cp with
  | some seq, some hash, some count => some ⟨seq, hash, count⟩
  | _, _, _ => none

/-- The checkpoint that is last in sequence order. -/
def latestCheckpoint (checkpoints : List CanonValue) : Option CanonValue :=
  (checkpoints.insertionSort fun a b => seqKey a ≤ seqKey b).getLast?

/-- The latest checkpoint of an accepted segment names the heads and counts the base and the
records. -/
theorem validateSegmentChain_eq_ok {checkpoints : List CanonValue} {dag : Dag} {b : SegmentBase}
    (h : validateSegmentChain checkpoints dag (some b) = .ok ()) :
    ∃ latest ∈ checkpoints, latestCheckpoint checkpoints = some latest ∧
      (∀ f, f ∈ frontierOf latest ↔ f ∈ dag.heads) ∧
      recordCount latest = some (dag.byHash.size + b.recordCount) := by
  simp only [validateSegmentChain, bind_eq_ok_iff, orFail_eq_ok_iff] at h
  obtain ⟨_, -, _, -, _, -, _, -, _, -, _, -, latest, hlatest, hchecks⟩ := h
  simp only [checkSegmentLatest, bind_eq_ok_iff, orFail_eq_ok_iff, mapError_eq_ok_iff,
    intField_eq_ok_iff, require_eq_ok_iff] at hchecks
  obtain ⟨seq, -, _, -, items, hitems, _, hset, stated, hstated, hadd⟩ := hchecks
  have hmem : latest ∈ checkpoints :=
    (List.perm_insertionSort _ _).mem_iff.mp (List.mem_of_getLast? hlatest)
  have hf : frontierOf latest = items.filterMap CanonValue.asStr := by
    simp [frontierOf, hitems]
  refine ⟨latest, hmem, hlatest, fun f => hf ▸ mem_iff_of_toList_ofList_eq hset f, ?_⟩
  unfold addChecked at hadd
  split_ifs at hadd
  rw [recordCount, hstated, ← hadd]

/-- Sets that cover a third one, as large as both together, split it. -/
theorem eq_diff_of_ncard {α : Type} {s b l : Set α} (hl : l.Finite) (hs : s ⊆ l) (hb : b ⊆ l)
    (hcover : l ⊆ s ∪ b) (hcard : l.ncard = s.ncard + b.ncard) : s = l \ b := by
  have hunion : l = s ∪ b := Set.Subset.antisymm hcover (Set.union_subset hs hb)
  have hsum := Set.ncard_union_add_ncard_inter s b (hl.subset hs) (hl.subset hb)
  have hzero : (s ∩ b).ncard = 0 := by
    rw [← hunion] at hsum
    omega
  have hempty : s ∩ b = ∅ := by
    rwa [Set.ncard_eq_zero ((hl.subset hs).subset Set.inter_subset_left)] at hzero
  rw [hunion, Set.union_sdiff_right]
  exact (sdiff_eq_left.mpr (Set.disjoint_iff_inter_eq_empty.mpr hempty)).symm

theorem finite_contentHashes (records : List CanonValue) : (contentHashes records).Finite := by
  refine (records.filterMap recordHash).finite_toSet.subset ?_
  rintro h ⟨rec, hrec, hh⟩
  exact List.mem_filterMap.mpr ⟨rec, hrec, hh⟩

/-- What a frontier's ancestors commit in turn. -/
theorem ancestors_subset {R : List CanonValue} {F F' : List String}
    (h : ∀ f ∈ F, f ∈ ancestors R F') : ancestors R F ⊆ ancestors R F' := by
  rintro x ⟨f, hf, hreach⟩
  obtain ⟨g, hg, hgf⟩ := h f hf
  exact ⟨g, hg, hgf.trans hreach⟩

namespace SegmentDagSpec

variable {dag : Dag} {R : History} (hs : SegmentDagSpec records base dag)
  (hdrawn : ∀ rec ∈ records, rec ∈ R.records)
include hs hdrawn

/-- The parents of a carried hash are those it has in the history. -/
theorem parentOf_iff {c p : String} (hc : c ∈ dag.byHash) :
    ParentOf R.records c p ↔ p ∈ keptParents records dag.byHash c :=
  (indexes_of_lastIndex hs.index).parentOf_iff_of_mem R.bind hdrawn hc

/-- Every carried hash is an ancestor of a carried head. -/
theorem byHash_subset {h : String} (hh : h ∈ dag.byHash) : h ∈ ancestors R.records dag.heads := by
  have hnodup : dag.topoOrder.Nodup := hs.topo_perm.nodup_iff.mpr TreeMap.nodup_keys
  have hmem : ∀ c, c ∈ dag.topoOrder ↔ c ∈ dag.byHash := fun c => by
    rw [hs.topo_perm.mem_iff, TreeMap.mem_keys]
  obtain ⟨s, hst, hsink, hreach⟩ := hs.topo_first.exists_sink hnodup ((hmem h).mpr hh)
  refine ⟨s, (hs.mem_heads s).mpr (Or.inl ⟨(hmem s).mp hst, fun c hc => ?_⟩), ?_⟩
  · exact hsink c ((hmem c).mpr hc)
  · refine Relation.ReflTransGen.mono (fun c p hp => ?_) _ _ hreach
    unfold resolvedParents at hp
    cases hc : dag.byHash[c]? with
    | none => simp [hc] at hp
    | some i =>
      rw [hc] at hp
      have hcm : c ∈ dag.byHash := TreeMap.isSome_getElem?_iff_mem.mp (by simp [hc])
      refine (hs.parentOf_iff hdrawn hcm).mpr ?_
      rw [keptParents, hc]
      exact (mem_freshParents.mp hp).1

/-- A member of the base frontier is carried, is named by a carried record, or is a head. -/
theorem base_subset {f : String} (hf : f ∈ base) : f ∈ ancestors R.records dag.heads := by
  by_cases hin : f ∈ dag.byHash
  · exact hs.byHash_subset hdrawn hin
  by_cases hnamed : ∃ c, f ∈ keptParents records dag.byHash c
  · obtain ⟨c, hc⟩ := hnamed
    have hcm := mem_of_mem_keptParents hc
    obtain ⟨s, hs', hreach⟩ := hs.byHash_subset hdrawn hcm
    exact ⟨s, hs', hreach.tail ((hs.parentOf_iff hdrawn hcm).mpr hc)⟩
  · exact ⟨f, (hs.mem_heads f).mpr (Or.inr ⟨hf, hin, not_exists.mp hnamed⟩), .refl⟩

/-- Without references before the base, an ancestor of a head is carried or lies under the
base frontier. -/
theorem ancestors_heads_cover (hrefs : ∀ p, p ∉ dag.earlierRefs) {h : String}
    (hh : h ∈ ancestors R.records dag.heads) :
    h ∈ dag.byHash ∨ h ∈ ancestors R.records base.toList := by
  obtain ⟨f, hf, hreach⟩ := hh
  induction hreach with
  | refl =>
    rcases (hs.mem_heads f).mp hf with hin | hin
    · exact Or.inl hin.1
    · exact Or.inr ⟨f, TreeSet.mem_toList.mpr hin.1, .refl⟩
  | @tail c p _ hstep ih =>
    rcases ih with hc | ⟨b, hb, hbc⟩
    · have hp := (hs.parentOf_iff hdrawn hc).mp hstep
      by_cases hin : p ∈ dag.byHash
      · exact Or.inl hin
      · refine Or.inr ⟨p, ?_, .refl⟩
        by_contra hnb
        exact hrefs p ((hs.mem_earlierRefs p).mpr ⟨c, hp, hin, fun h => hnb (by simpa using h)⟩)
    · exact Or.inr ⟨b, hb, hbc.tail hstep⟩

end SegmentDagSpec

/-- The records of an accepted segment without references before its base are those that the
latest frontier commits and the base frontier does not, when the signed counts are true. -/
theorem segment_carries_difference (R : History) (records checkpoints : List CanonValue)
    (baseCp : CanonValue) (b : SegmentBase) (dag : Dag)
    (hdrawn : ∀ rec ∈ records, rec ∈ R.records)
    (hb : segmentBaseOf baseCp = some b) (hbase : R.TrueCount baseCp)
    (hcounts : ∀ cp ∈ checkpoints, R.TrueCount cp)
    (hd : buildFrom records (some (TreeSet.ofList (frontierOf baseCp))) = .ok dag)
    (hrefs : dag.earlierRefs.isEmpty = true)
    (hc : validateSegmentChain checkpoints dag (some b) = .ok ()) :
    ∃ latest ∈ checkpoints, latestCheckpoint checkpoints = some latest ∧
      contentHashes records = R.closure (frontierOf latest) \ R.closure (frontierOf baseCp) := by
  have hs := buildFrom_eq_ok hd
  obtain ⟨latest, hmem, hlatest, hheads, hcount⟩ := validateSegmentChain_eq_ok hc
  refine ⟨latest, hmem, hlatest, ?_⟩
  have hcarried : contentHashes records = { h | h ∈ dag.byHash } := by
    ext h
    exact ((indexes_of_lastIndex hs.index).mem_iff h).symm
  have hanc : ancestors R.records (frontierOf latest) = ancestors R.records dag.heads := by
    ext h
    simp only [ancestors, hheads]
  have hbaseAnc : ancestors R.records (TreeSet.ofList (frontierOf baseCp) : TreeSet String).toList =
      ancestors R.records (frontierOf baseCp) := by
    ext h
    simp [ancestors]
  have hin : contentHashes records ⊆ contentHashes R.records :=
    fun h ⟨rec, hrec, hh⟩ => ⟨rec, hdrawn rec hrec, hh⟩
  refine eq_diff_of_ncard ((finite_contentHashes R.records).subset Set.inter_subset_right)
    ?_ ?_ ?_ ?_
  · intro h hh
    refine ⟨?_, hin hh⟩
    rw [hcarried] at hh
    rw [hanc]
    exact hs.byHash_subset hdrawn hh
  · refine Set.inter_subset_inter_left _ ?_
    rw [hanc]
    exact ancestors_subset fun f hf => hs.base_subset hdrawn (by simpa using hf)
  · rintro h ⟨hh, hrec⟩
    rw [hanc] at hh
    have hno : ∀ p, p ∉ dag.earlierRefs := fun p hp => by
      rw [TreeSet.isEmpty_iff_forall_not_mem] at hrefs
      exact hrefs p hp
    rcases hs.ancestors_heads_cover hdrawn hno hh with hc | hc
    · exact Or.inl (hcarried ▸ hc)
    · exact Or.inr ⟨hbaseAnc ▸ hc, hrec⟩
  · -- The stated count is both the size of the closure and the sum that was checked.
    have hbc : recordCount baseCp = some b.recordCount := by
      unfold segmentBaseOf at hb
      split at hb
      · rename_i hrc
        rw [hrc]
        exact congrArg (fun x => some (SegmentBase.recordCount x)) (Option.some.inj hb)
      · cases hb
    have hl := hcounts latest hmem
    rw [History.TrueCount] at hl hbase
    rw [hcount] at hl
    rw [hbc] at hbase
    rw [hcarried, ncard_byHash]
    have hl' := Option.some.inj hl
    have hb' := Option.some.inj hbase
    omega

/-- A record and one that names it as its parent. -/
def twoRecords : History where
  records := [bareRecord (digest 'a') [], bareRecord (digest 'b') [digest 'a']]
  bind := recordsBind_pair (by decide +kernel)

/-- The second record has the first for its parent. -/
theorem twoRecords_parentOf {c p : String} :
    ParentOf twoRecords.records c p ↔ c = digest 'b' ∧ p = digest 'a' := by
  constructor
  · rintro ⟨rec, hrec, hh, hp⟩
    rcases List.mem_pair.mp hrec with rfl | rfl
    · cases hp
    · exact ⟨(Option.some.inj hh).symm, List.mem_singleton.mp hp⟩
  · rintro ⟨rfl, rfl⟩
    exact ⟨bareRecord (digest 'b') [digest 'a'], by simp [twoRecords], rfl,
      List.mem_singleton.mpr rfl⟩

theorem twoRecords_contentHashes :
    contentHashes twoRecords.records = {digest 'a', digest 'b'} := by
  ext h
  simp [contentHashes, twoRecords, eq_comm]

/-- The first record has nothing before it. -/
theorem twoRecords_closure_first : twoRecords.closure [digest 'a'] = {digest 'a'} := by
  rw [History.closure, twoRecords_contentHashes]
  ext h
  constructor
  · rintro ⟨⟨f, hf, hreach⟩, -⟩
    obtain rfl := List.mem_singleton.mp hf
    rcases Relation.ReflTransGen.cases_head hreach with rfl | ⟨c, hstep, -⟩
    · rfl
    · exact absurd (twoRecords_parentOf.mp hstep).1 (by decide +kernel)
  · rintro rfl
    exact ⟨⟨_, List.mem_singleton.mpr rfl, .refl⟩, Or.inl rfl⟩

/-- The second has the first before it. -/
theorem twoRecords_closure_second : twoRecords.closure [digest 'b'] = {digest 'a', digest 'b'} := by
  rw [History.closure, twoRecords_contentHashes]
  refine Set.inter_eq_right.mpr ?_
  rintro h (rfl | rfl)
  · exact ⟨_, List.mem_singleton.mpr rfl, .single (twoRecords_parentOf.mpr ⟨rfl, rfl⟩)⟩
  · exact ⟨_, List.mem_singleton.mpr rfl, .refl⟩

/-- A segment of one record on top of a base of one record. -/
theorem segment_carries_second_record :
    ∃ latest ∈ [bareCheckpoint 0 "h0" .null 1 [digest 'a'],
        bareCheckpoint 1 "h1" (.str "h0") 2 [digest 'b']],
      latestCheckpoint [bareCheckpoint 0 "h0" .null 1 [digest 'a'],
        bareCheckpoint 1 "h1" (.str "h0") 2 [digest 'b']] = some latest ∧
      contentHashes [bareRecord (digest 'b') [digest 'a']] =
        twoRecords.closure (frontierOf latest) \
          twoRecords.closure (frontierOf (bareCheckpoint 0 "h0" .null 1 [digest 'a'])) := by
  have hne : digest 'a' ≠ digest 'b' := by decide +kernel
  have hfirst : twoRecords.TrueCount (bareCheckpoint 0 "h0" .null 1 [digest 'a']) := by
    show some (1 : Int) = some ((twoRecords.closure [digest 'a']).ncard : Int)
    rw [twoRecords_closure_first, Set.ncard_singleton]
    rfl
  have hsecond : twoRecords.TrueCount (bareCheckpoint 1 "h1" (.str "h0") 2 [digest 'b']) := by
    show some (2 : Int) = some ((twoRecords.closure [digest 'b']).ncard : Int)
    rw [twoRecords_closure_second, Set.ncard_pair hne]
    rfl
  obtain ⟨dag, hd, hrefs, hc⟩ : ∃ dag, buildFrom [bareRecord (digest 'b') [digest 'a']]
      (some (TreeSet.ofList [digest 'a'])) = .ok dag ∧ dag.earlierRefs.isEmpty = true ∧
      validateSegmentChain [bareCheckpoint 0 "h0" .null 1 [digest 'a'],
        bareCheckpoint 1 "h1" (.str "h0") 2 [digest 'b']] dag (some ⟨0, "h0", 1⟩) = .ok () :=
    ⟨_, rfl, by decide +kernel, by decide +kernel⟩
  refine segment_carries_difference twoRecords [bareRecord (digest 'b') [digest 'a']] _
    (bareCheckpoint 0 "h0" .null 1 [digest 'a']) ⟨0, "h0", 1⟩ dag ?_ rfl hfirst ?_ hd hrefs hc
  · simp [twoRecords]
  · intro cp hcp
    rcases List.mem_pair.mp hcp with rfl | rfl
    · exact hfirst
    · exact hsecond

end Averin
