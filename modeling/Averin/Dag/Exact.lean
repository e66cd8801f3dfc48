import Averin.Checkpoint.Coverage
import Averin.Core.KahnRun
import Averin.Dag.Copies

/-!
# When a DAG is built

A build succeeds exactly when the records are well formed, their parents are listed and no
record is its own ancestor. What it returns then does not depend on the order of the list. The
records are taken to be verified, so records with one content hash name the same parents.
-/

namespace Averin

open Std (TreeMap TreeSet)

/-- Unsigned subtraction, which stops the program below zero. -/
def subUsize (a b : Nat) : Option Nat := if b ≤ a then some (a - b) else none

/-- A run of the builder. It is none when a counter goes below zero, when the number of
unresolved records does, or when the queue is not empty after `fuel` rounds. -/
def buildRun (fuel : Nat) (records : List CanonValue) : Option (Except DagError Dag) :=
  match indexRecords records 0 ∅ 0 with
  | .error e => some (.error e)
  | .ok (byHash, collapsed) =>
    match linkRecords records byHash none byHash.toList (noLinks byHash) with
    | .error e => some (.error e)
    | .ok links =>
      let queue := (links.inDegree.toList.filter (·.2 == 0)).map (·.1)
      (kahnRun links.children fuel (queue.insertionSort (· ≤ ·)) links.inDegree []).bind fun topo =>
        if topo.length ≠ byHash.size then
          (subUsize byHash.size topo.length).map fun remaining => .error (.cycle remaining)
        else
          let heads := (links.referenced.toList.filter (!·.2)).map (·.1)
          some (.ok
            { byHash := byHash
              heads := (heads.insertionSort (· ≤ ·)).dedup
              topoOrder := topo
              collapsedDuplicates := collapsed
              externalFrontier := ∅
              earlierRefs := links.earlierRefs })

variable {records : List CanonValue} {byHash : TreeMap String Nat}

/-- There are no more hashes than records. -/
theorem size_le_of_indexes (hi : Indexes records byHash) : byHash.size ≤ records.length := by
  have hsub : byHash.keys.map some ⊆ records.map recordHash := by
    intro x hx
    obtain ⟨h, hh, rfl⟩ := List.mem_map.mp hx
    obtain ⟨rec, hrec, heq⟩ := (hi.mem_iff h).mp (TreeMap.mem_keys.mp hh)
    exact List.mem_map.mpr ⟨rec, hrec, heq⟩
  have hnodup : (byHash.keys.map some).Nodup :=
    TreeMap.nodup_keys.map (Option.some_injective _)
  have hle := (List.subperm_of_subset hnodup hsub).length_le
  simpa using hle

/-- What the first pass builds is an index. -/
theorem indexes_of_indexRecords {c : Nat} (h : indexRecords records 0 ∅ 0 = .ok (byHash, c)) :
    Indexes records byHash := by
  refine indexes_of_lastIndex fun k => ?_
  rw [(indexRecords_eq_ok h).2]
  simp

/-- As many rounds as records are enough, and then a run is the build. -/
theorem buildRun_eq {fuel : Nat} (hf : records.length ≤ fuel) :
    buildRun fuel records = some (build records) := by
  unfold buildRun build buildFrom
  cases hi : indexRecords records 0 ∅ 0 with
  | error e => rfl
  | ok r =>
    obtain ⟨byHash, collapsed⟩ := r
    dsimp only
    cases hl : linkRecords records byHash none byHash.toList (noLinks byHash) with
    | error e => rfl
    | ok links =>
      obtain ⟨hall, -⟩ := linkRecords_noLinks hl
      have hsize := size_le_of_indexes (indexes_of_indexRecords hi)
      obtain ⟨indeg, hdone⟩ := hall.kahn_done
      have hlen := (hdone.nodup.subperm hdone.subset).length_le
      rw [List.append_nil, TreeMap.length_keys] at hlen
      have hrun : kahnRun links.children fuel _ links.inDegree [] =
          some (kahn links.children byHash.size _ links.inDegree []) :=
        kahnRun_eq hall.kahnGraph hall.kahn_init
          (by rw [TreeMap.length_keys, List.length_nil]; omega)
          (by rw [TreeMap.length_keys, List.length_nil]; omega)
      dsimp only
      rw [hrun, Option.bind_some]
      split_ifs with hne
      · rw [subUsize, if_pos hlen]
        rfl
      · simp only [baseHeads, List.append_nil]
        rfl

/-- A record with a digest as its hash and digests as its parents. -/
structure WellFormed (rec : CanonValue) : Prop where
  object : rec.asObject.isSome = true
  hash : ∃ ch, recordHash rec = some ch ∧ (parseSha256 ch).isSome = true
  parents : ∃ ps, parentsOf rec 0 = .ok ps ∧ ∀ p ∈ ps, (parseSha256 p).isSome = true

/-- Every parent is the hash of a listed record. -/
def ParentsListed (records : List CanonValue) : Prop :=
  ∀ rec ∈ records, ∀ p ∈ causalPrevHashes rec, ∃ rec' ∈ records, recordHash rec' = some p

/-- No hash is its own ancestor. -/
def Acyclic (records : List CanonValue) : Prop :=
  ∀ h, ¬ Relation.TransGen (ParentOf records) h h

/-- Records with one content hash carry the same parents, as verified records do. -/
def ParentsAgree (records : List CanonValue) : Prop :=
  ∀ r ∈ records, ∀ r' ∈ records, ∀ h, recordHash r = some h → recordHash r' = some h →
    r.get "causal_prev_hashes" = r'.get "causal_prev_hashes"

/-- The distinct hashes of the records. -/
def distinctHashes (records : List CanonValue) : List String := (records.filterMap recordHash).dedup

/-- The distinct hashes are those a record carries. -/
theorem mem_distinctHashes {h : String} :
    h ∈ distinctHashes records ↔ ∃ rec ∈ records, recordHash rec = some h := by
  rw [distinctHashes, List.mem_dedup, List.mem_filterMap]

/-- Records that agree on their parents are bound by their hash. -/
theorem ParentsAgree.recordsBind (h : ParentsAgree records) : RecordsBind records := by
  intro r hr r' hr' k hk hk'
  rw [causalPrevHashes, causalPrevHashes, h r hr r' hr' k hk hk']

/-- The keys of an index are the distinct hashes. -/
theorem Indexes.keys_perm (hi : Indexes records byHash) :
    byHash.keys.Perm (distinctHashes records) := by
  refine (List.perm_ext_iff_of_nodup TreeMap.nodup_keys (List.nodup_dedup _)).mpr fun h => ?_
  rw [TreeMap.mem_keys, hi.mem_iff]
  exact mem_distinctHashes.symm

/-- With agreeing copies the resolved parents are all parents that are listed. -/
theorem mem_resolvedParents_iff (hi : Indexes records byHash) (hagree : ParentsAgree records)
    (hlisted : ParentsListed records) {c p : String} :
    p ∈ resolvedParents records byHash c ↔ ParentOf records c p := by
  rw [hi.parentOf_iff hagree.recordsBind]
  unfold resolvedParents keptParents
  cases hc : byHash[c]? with
  | none => rfl
  | some i =>
    obtain ⟨rec, hrec, hget, -⟩ := hi.kept hc
    have hgetD : records.getD i .null = rec := by rw [List.getD_eq_getElem?_getD, hget]; rfl
    show p ∈ parentsAt records byHash i ↔ p ∈ causalPrevHashes (records.getD i .null)
    rw [parentsAt, mem_freshParents, hgetD]
    exact ⟨fun h => h.1, fun h => ⟨h, (hi.mem_iff p).mpr (hlisted rec hrec p h), by simp⟩⟩

/-- A build succeeds exactly on well-formed records whose parents are listed and whose parent
relation has no cycle. -/
theorem build_isOk_iff (hagree : ParentsAgree records) :
    (∃ dag, build records = .ok dag) ↔
      (∀ rec ∈ records, WellFormed rec) ∧ ParentsListed records ∧ Acyclic records := by
  constructor
  · rintro ⟨dag, h⟩
    have hs := build_eq_ok h
    obtain ⟨hobj, hlinks⟩ := build_links h
    have hread : ∀ rec ∈ records, ∃ ps, parentsOf rec 0 = .ok ps ∧
        ∀ p ∈ ps, (parseSha256 p).isSome = true ∧ p ∈ dag.byHash := by
      intro rec hrec
      obtain ⟨ch, hch, -⟩ := (hobj rec hrec).2
      have hmem : ch ∈ dag.byHash := hs.mem_byHash_iff.mpr ⟨rec, hrec, hch⟩
      obtain ⟨i, hi⟩ := Option.isSome_iff_exists.mp (TreeMap.isSome_getElem?_iff_mem.mpr hmem)
      obtain ⟨kept, hkept, hget, hkh⟩ := hs.exists_kept hi
      obtain ⟨ps, hps, hall⟩ :=
        hlinks (ch, i) (TreeMap.mem_toList_iff_getElem?_eq_some.mpr hi)
      rw [List.getD_eq_getElem?_getD, hget] at hps
      exact ⟨ps, parentsOf_congr (hagree kept hkept rec hrec ch hkh hch) hps, hall⟩
    have hlisted : ParentsListed records := by
      intro rec hrec p hp
      obtain ⟨ps, hps, hall⟩ := hread rec hrec
      rw [← parentsOf_eq_ok hps] at hp
      exact hs.mem_byHash_iff.mp (hall p hp).2
    refine ⟨fun rec hrec => ?_, hlisted, ?_⟩
    · obtain ⟨ps, hps, hall⟩ := hread rec hrec
      exact ⟨(hobj rec hrec).1, (hobj rec hrec).2, ps, hps, fun p hp => (hall p hp).1⟩
    · have hrel : ParentOf records = fun c p => p ∈ resolvedParents records dag.byHash c := by
        funext c p
        exact propext (mem_resolvedParents_iff hs.indexes hagree hlisted).symm
      intro v
      rw [hrel]
      refine hs.topo_first.acyclic (hs.topo_perm.nodup_iff.mpr TreeMap.nodup_keys) ?_ v
      intro c p hp
      rw [hs.topo_perm.mem_iff, TreeMap.mem_keys]
      exact mem_of_mem_keptParents (hs.mem_resolvedParents.mp hp)
  · rintro ⟨hwell, hlisted, hacyclic⟩
    obtain ⟨⟨byHash, collapsed⟩, hi⟩ := (@indexRecords_isOk_iff records 0 0 ∅).mpr fun rec hrec =>
      ⟨(hwell rec hrec).object, (hwell rec hrec).hash⟩
    have hix := indexes_of_indexRecords hi
    have hentries : ∀ e ∈ byHash.toList, ∃ ps, parentsOf (records.getD e.2 .null) e.2 = .ok ps ∧
        ∀ p ∈ ps, (parseSha256 p).isSome = true ∧ p ∈ byHash := by
      rintro ⟨ch, i⟩ he
      obtain ⟨rec, hrec, hget, -⟩ := hix.kept (TreeMap.mem_toList_iff_getElem?_eq_some.mp he)
      obtain ⟨ps, hps, hall⟩ := (hwell rec hrec).parents
      have hgetD : records.getD i .null = rec := by rw [List.getD_eq_getElem?_getD, hget]; rfl
      refine ⟨ps, ?_, fun p hp => ⟨hall p hp, (hix.mem_iff p).mpr ?_⟩⟩
      · rw [hgetD]
        exact parentsOf_congr rfl hps
      · exact hlisted rec hrec p (parentsOf_eq_ok hps ▸ hp)
    obtain ⟨links, hl⟩ := linkRecords_isOk_iff.mpr hentries
    obtain ⟨hall, -⟩ := linkRecords_noLinks hl
    obtain ⟨indeg, hdone⟩ := hall.kahn_done
    have hrel : (fun c p => p ∈ resolvedParents records byHash c) = ParentOf records := by
      funext c p
      exact propext (mem_resolvedParents_iff hix hagree hlisted)
    refine exists_build _ hi hentries (hdone.perm ?_) hdone.first
    refine hdone.length_eq_of_acyclic TreeMap.nodup_keys (fun c _ p hp => ?_) ?_
    · rw [mem_resolvedParents_iff hix hagree hlisted] at hp
      obtain ⟨rec, hrec, -, hp⟩ := hp
      exact TreeMap.mem_keys.mpr ((hix.mem_iff p).mpr (hlisted rec hrec p hp))
    · rw [hrel]
      exact hacyclic

/-- The index and the heads as they were computed. -/
theorem build_result {dag : Dag} (h : build records = .ok dag) :
    indexRecords records 0 ∅ 0 = .ok (dag.byHash, dag.collapsedDuplicates) ∧
      ∃ l : List String, dag.heads = (l.insertionSort (· ≤ ·)).dedup := by
  unfold build buildFrom at h
  cases hi : indexRecords records 0 ∅ 0 with
  | error e => simp [hi] at h
  | ok r =>
    obtain ⟨byHash, collapsed⟩ := r
    simp only [hi] at h
    cases hl : linkRecords records byHash none byHash.toList (noLinks byHash) with
    | error e => simp [hl] at h
    | ok links =>
      simp only [hl] at h
      split_ifs at h
      obtain rfl := Except.ok.inj h
      exact ⟨rfl, _, rfl⟩

/-- Every record is indexed or counted as collapsed. -/
theorem indexRecords_collapsed {i c c' : Nat} {m m' : TreeMap String Nat}
    (h : indexRecords records i m c = .ok (m', c')) :
    c' + m'.size = c + m.size + records.length := by
  induction records generalizing i m c with
  | nil =>
    obtain ⟨rfl, rfl⟩ := Prod.mk.inj (Except.ok.inj h)
    rfl
  | cons rec rest ih =>
    rw [indexRecords] at h
    split_ifs at h with hobj
    cases hc : contentHashOf rec i with
    | error e => simp [hc] at h
    | ok ch =>
      simp only [hc] at h
      have hrest := ih h
      rw [TreeMap.size_insert] at hrest
      rw [List.length_cons]
      split_ifs at hrest with hmem
      · omega
      · omega

/-- Each record is kept or counted as a duplicate. -/
theorem build_collapsed {dag : Dag} (h : build records = .ok dag) :
    dag.collapsedDuplicates + (distinctHashes records).length = records.length := by
  have hcount := indexRecords_collapsed (build_result h).1
  rw [← (build_eq_ok h).indexes.keys_perm.length_eq, TreeMap.length_keys]
  simpa using hcount

/-- The heads are listed in order, each once. -/
theorem build_heads_pairwise {dag : Dag} (h : build records = .ok dag) :
    dag.heads.Pairwise (· ≤ ·) ∧ dag.heads.Nodup := by
  obtain ⟨-, l, hl⟩ := build_result h
  rw [hl]
  exact ⟨(List.pairwise_insertionSort _ l).sublist (List.dedup_sublist _), List.nodup_dedup _⟩

/-- The heads are the hashes that no record names. -/
theorem build_mem_heads (hagree : ParentsAgree records) {dag : Dag} (h : build records = .ok dag)
    (v : String) : v ∈ dag.heads ↔
      (∃ rec ∈ records, recordHash rec = some v) ∧ ∀ rec ∈ records, v ∉ causalPrevHashes rec := by
  have hs := build_eq_ok h
  have hlisted := ((build_isOk_iff hagree).mp ⟨dag, h⟩).2.1
  rw [hs.mem_heads, hs.mem_byHash_iff]
  refine and_congr_right fun _ => ⟨fun hno rec hrec hv => ?_, fun hno c _ hv => ?_⟩
  · obtain ⟨ch, hch, -⟩ := hs.hashes rec hrec
    refine hno ch (hs.mem_byHash_iff.mpr ⟨rec, hrec, hch⟩) ?_
    exact (mem_resolvedParents_iff hs.indexes hagree hlisted).mpr ⟨rec, hrec, hch, hv⟩
  · obtain ⟨rec, hrec, -, hv⟩ := (mem_resolvedParents_iff hs.indexes hagree hlisted).mp hv
    exact hno rec hrec hv

/-- Every hash stands once in the order, after its parents. -/
theorem build_topoOrder (hagree : ParentsAgree records) {dag : Dag}
    (h : build records = .ok dag) :
    dag.topoOrder.Perm (distinctHashes records) ∧
      ∀ (k : Nat) (c p : String), dag.topoOrder[k]? = some c → ParentOf records c p →
        ∃ j < k, dag.topoOrder[j]? = some p := by
  have hs := build_eq_ok h
  have hlisted := ((build_isOk_iff hagree).mp ⟨dag, h⟩).2.1
  refine ⟨hs.topo_perm.trans hs.indexes.keys_perm, fun k c p hc hp => ?_⟩
  exact hs.topo_first.exists_lt hc ((mem_resolvedParents_iff hs.indexes hagree hlisted).mpr hp)

section Perm

variable {records' : List CanonValue} (hperm : records.Perm records')
include hperm

/-- The agreement does not depend on the order. -/
theorem ParentsAgree.of_perm (h : ParentsAgree records) : ParentsAgree records' :=
  fun r hr r' hr' => h r (hperm.mem_iff.mpr hr) r' (hperm.mem_iff.mpr hr')

theorem build_isOk_of_perm (hagree : ParentsAgree records) (h : ∃ dag, build records = .ok dag) :
    ∃ dag, build records' = .ok dag := by
  obtain ⟨hwell, hlisted, hacyclic⟩ := (build_isOk_iff hagree).mp h
  have hrel : ParentOf records' = ParentOf records := by
    funext c p
    simp only [ParentOf, hperm.mem_iff]
  refine (build_isOk_iff (hagree.of_perm hperm)).mpr ⟨fun rec hrec => ?_, fun rec hrec p hp => ?_,
    fun v => ?_⟩
  · exact hwell rec (hperm.mem_iff.mpr hrec)
  · obtain ⟨rec', hrec', hh⟩ := hlisted rec (hperm.mem_iff.mpr hrec) p hp
    exact ⟨rec', hperm.mem_iff.mp hrec', hh⟩
  · rw [hrel]
    exact hacyclic v

/-- The heads and the number of copies are the same in every order. -/
theorem build_congr_perm (hagree : ParentsAgree records) {dag dag' : Dag}
    (h : build records = .ok dag) (h' : build records' = .ok dag') :
    dag'.heads = dag.heads ∧ dag'.collapsedDuplicates = dag.collapsedDuplicates := by
  constructor
  · obtain ⟨hsorted, hnodup⟩ := build_heads_pairwise h
    obtain ⟨hsorted', hnodup'⟩ := build_heads_pairwise h'
    refine List.Perm.eq_of_pairwise (fun _ _ _ _ => le_antisymm) hsorted' hsorted ?_
    refine (List.perm_ext_iff_of_nodup hnodup' hnodup).mpr fun v => ?_
    rw [build_mem_heads hagree h, build_mem_heads (hagree.of_perm hperm) h']
    simp only [hperm.mem_iff]
  · have hcount := build_collapsed h
    have hcount' := build_collapsed h'
    have hdistinct : (distinctHashes records').Perm (distinctHashes records) :=
      ((hperm.symm.filterMap _).dedup)
    rw [hdistinct.length_eq, hperm.length_eq.symm] at hcount'
    omega

end Perm

/-- The builder is exact on records whose copies agree. It succeeds on well-formed records with
listed parents and no cycle; the order is a permutation of the hashes with parents first, and the
heads are the hashes no record names; no counter goes below zero; and the order of the list changes
neither success nor the heads nor the number of copies. -/
theorem build_exact (records : List CanonValue) (hagree : ParentsAgree records) :
    ((∃ dag, build records = .ok dag) ↔
      (∀ rec ∈ records, WellFormed rec) ∧ ParentsListed records ∧ Acyclic records) ∧
    (∀ dag, build records = .ok dag →
      (dag.topoOrder.Perm (distinctHashes records) ∧
        ∀ (k : Nat) (c p : String), dag.topoOrder[k]? = some c → ParentOf records c p →
          ∃ j < k, dag.topoOrder[j]? = some p) ∧
      dag.heads.Nodup ∧ ∀ v, v ∈ dag.heads ↔
        (∃ rec ∈ records, recordHash rec = some v) ∧ ∀ rec ∈ records, v ∉ causalPrevHashes rec) ∧
    (∀ fuel, records.length ≤ fuel → buildRun fuel records = some (build records)) ∧
    ∀ records', records.Perm records' →
      ((∃ dag, build records' = .ok dag) ↔ ∃ dag, build records = .ok dag) ∧
      ∀ dag dag', build records = .ok dag → build records' = .ok dag' →
        dag'.heads = dag.heads ∧ dag'.collapsedDuplicates = dag.collapsedDuplicates := by
  refine ⟨build_isOk_iff hagree, fun dag h => ⟨build_topoOrder hagree h,
    (build_heads_pairwise h).2, build_mem_heads hagree h⟩, fun fuel => buildRun_eq,
    fun records' hperm => ⟨⟨?_, build_isOk_of_perm hperm hagree⟩, fun dag dag' h h' => ?_⟩⟩
  · exact build_isOk_of_perm hperm.symm (hagree.of_perm hperm)
  · exact build_congr_perm hperm hagree h h'

/-- Two linked records. -/
theorem build_exact_pair : ∃ dag,
    build [bareRecord (digest 'a') [], bareRecord (digest 'b') [digest 'a']] = .ok dag ∧
      dag.heads.Nodup := by
  have hne : digest 'a' ≠ digest 'b' := by decide +kernel
  obtain ⟨dag, -, hb, -⟩ := exists_of_accepted
    [bareRecord (digest 'a') [], bareRecord (digest 'b') [digest 'a']]
    [bareCheckpoint 0 "h0" .null 2 [digest 'b']] (by decide +kernel)
  refine ⟨dag, hb, ((build_exact [bareRecord (digest 'a') [],
    bareRecord (digest 'b') [digest 'a']] ?_).2.1 dag hb).2.1⟩
  intro r hr r' hr' k hk hk'
  rcases List.mem_pair.mp hr with rfl | rfl <;> rcases List.mem_pair.mp hr' with rfl | rfl
  · rfl
  · exact absurd (Option.some.inj (hk.trans hk'.symm)) hne
  · exact absurd (Option.some.inj (hk'.trans hk.symm)) hne
  · rfl

/-- Of two records with one hash and different parents only the last is checked, so the order of
the list matters. -/
theorem build_last_copy_counts :
    (∃ dag, build [bareRecord (digest 'a') [digest 'b'], bareRecord (digest 'a') []] = .ok dag) ∧
      (¬ ∃ dag, build [bareRecord (digest 'a') [], bareRecord (digest 'a') [digest 'b']] =
        .ok dag) ∧
      ¬ ParentsListed [bareRecord (digest 'a') [digest 'b'], bareRecord (digest 'a') []] := by
  have hne : digest 'a' ≠ digest 'b' := by decide +kernel
  have hsingle : ∀ ps : List String,
      ∀ rec ∈ [bareRecord (digest 'a') ps, bareRecord (digest 'a') []],
      recordHash rec ≠ some (digest 'b') := by
    intro ps rec hrec hh
    rcases List.mem_pair.mp hrec with rfl | rfl
    · exact hne (Option.some.inj hh)
    · exact hne (Option.some.inj hh)
  refine ⟨?_, ?_, fun hlisted => ?_⟩
  · obtain ⟨dag, -, hb, -⟩ := exists_of_accepted
      [bareRecord (digest 'a') [digest 'b'], bareRecord (digest 'a') []]
      [bareCheckpoint 0 "h0" .null 1 [digest 'a']] (by decide +kernel)
    exact ⟨dag, hb⟩
  · rintro ⟨dag, h⟩
    have hs := build_eq_ok h
    have hindex : dag.byHash[digest 'a']? = some 1 := by
      rw [hs.index]
      decide +kernel
    have hin := hs.parents _ 1 hindex (digest 'b') (by decide +kernel)
    obtain ⟨rec, hrec, hh⟩ := hs.mem_byHash_iff.mp hin
    exact hsingle [digest 'b'] rec (by simpa [or_comm] using hrec) hh
  · obtain ⟨rec, hrec, hh⟩ := hlisted (bareRecord (digest 'a') [digest 'b']) (by simp) (digest 'b')
      (by decide +kernel)
    exact hsingle [digest 'b'] rec hrec hh

end Averin
