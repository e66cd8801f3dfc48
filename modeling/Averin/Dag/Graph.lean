import Averin.Dag.Build

/-!
# What an accepted DAG is

The loops of the builder against the graph they compute: the index holds the last record
of every hash, the link tables are the parent relation and its converse, and the topological
order has parents first. Every node is then an ancestor of a head.
-/

namespace Averin

open Std (TreeMap TreeSet)

variable {records : List CanonValue} {byHash : TreeMap String Nat} {base : Option (TreeSet String)}

/-- The hash a record carries. -/
def recordHash (rec : CanonValue) : Option String := (rec.get "content_hash").bind CanonValue.asStr

/-- The hashes a record names as its parents. -/
def causalPrevHashes (rec : CanonValue) : List String :=
  match rec.get "causal_prev_hashes" with
  | some (.arr items) => items.filterMap CanonValue.asStr
  | _ => []

/-- The last position of a hash, counted from `i`. -/
def lastIndex (h : String) : List CanonValue → (i : Nat) → Option Nat
  | [], _ => none
  | rec :: rest, i =>
    (lastIndex h rest (i + 1)).or (if recordHash rec = some h then some i else none)

/-- A hash that is read is the record's, and well formed. -/
theorem contentHashOf_eq_ok {rec : CanonValue} {i : Nat} {ch : String}
    (h : contentHashOf rec i = .ok ch) :
    recordHash rec = some ch ∧ (parseSha256 ch).isSome = true := by
  unfold contentHashOf at h
  unfold recordHash
  cases hb : (rec.get "content_hash").bind CanonValue.asStr with
  | none => simp [hb] at h
  | some c =>
    simp only [hb] at h
    split_ifs at h with hs
    obtain rfl := Except.ok.inj h
    exact ⟨rfl, by simpa [Option.isSome_iff_ne_none] using hs⟩

/-- The first pass indexes the last record of each hash. -/
theorem indexRecords_eq_ok {i c c' : Nat} {m m' : TreeMap String Nat}
    (h : indexRecords records i m c = .ok (m', c')) :
    (∀ rec ∈ records, ∃ ch, recordHash rec = some ch ∧ (parseSha256 ch).isSome = true) ∧
      ∀ k, m'[k]? = (lastIndex k records i).or m[k]? := by
  induction records generalizing i m c with
  | nil =>
    obtain ⟨rfl, -⟩ := Prod.mk.inj (Except.ok.inj h)
    exact ⟨by simp, by simp [lastIndex]⟩
  | cons rec rest ih =>
    rw [indexRecords] at h
    split_ifs at h with hobj
    cases hc : contentHashOf rec i with
    | error e => simp [hc] at h
    | ok ch =>
      simp only [hc] at h
      obtain ⟨hall, hget⟩ := ih h
      obtain ⟨hhash, hsha⟩ := contentHashOf_eq_ok hc
      refine ⟨List.forall_mem_cons.mpr ⟨⟨ch, hhash, hsha⟩, hall⟩, fun k => ?_⟩
      rw [hget, lastIndex, Option.or_assoc, hhash]
      congr 1
      by_cases hk : ch = k
      · subst hk
        simp
      · rw [TreeMap.getElem?_insert, if_neg (by simpa using hk), if_neg (by simpa using hk)]
        rfl

/-- A found position holds the hash. -/
theorem lastIndex_eq_some {h : String} {i j : Nat} (hj : lastIndex h records i = some j) :
    i ≤ j ∧ ∃ rec, records[j - i]? = some rec ∧ recordHash rec = some h := by
  induction records generalizing i with
  | nil => cases hj
  | cons rec rest ih =>
    rw [lastIndex] at hj
    cases hl : lastIndex h rest (i + 1) with
    | some k =>
      rw [hl, Option.some_or] at hj
      obtain rfl := Option.some.inj hj
      obtain ⟨hle, r, hr, hh⟩ := ih hl
      have hk : k - i = (k - (i + 1)) + 1 := by omega
      exact ⟨by omega, r, by rw [hk, List.getElem?_cons_succ, hr], hh⟩
    | none =>
      rw [hl, Option.none_or] at hj
      split_ifs at hj with hhash
      obtain rfl := Option.some.inj hj
      exact ⟨le_refl _, rec, by simp, hhash⟩

/-- Every hash of the list has a last position. -/
theorem isSome_lastIndex_iff {h : String} {i : Nat} :
    (lastIndex h records i).isSome = true ↔ ∃ rec ∈ records, recordHash rec = some h := by
  induction records generalizing i with
  | nil => simp [lastIndex]
  | cons rec rest ih =>
    rw [lastIndex, Option.isSome_or, Bool.or_eq_true, ih, List.exists_mem_cons_iff, or_comm]
    refine or_congr_left ?_
    split_ifs with hh <;> simp [hh]

/-- Items that are all texts are read as they are. -/
theorem stringItems_eq_some {items : List CanonValue} {out : List String}
    (h : stringItems items = some out) : items.filterMap CanonValue.asStr = out := by
  induction items generalizing out with
  | nil => exact Option.some.inj h
  | cons v items ih =>
    rw [stringItems] at h
    cases hv : v.asStr with
    | none => simp [hv] at h
    | some s =>
      cases hr : stringItems items with
      | none => simp [hv, hr] at h
      | some rest =>
        simp only [hv, hr] at h
        rw [List.filterMap_cons_some hv, ih hr]
        exact Option.some.inj h

/-- The parents that are read are the causal hashes. -/
theorem parentsOf_eq_ok {rec : CanonValue} {i : Nat} {parents : List String}
    (h : parentsOf rec i = .ok parents) : parents = causalPrevHashes rec := by
  unfold parentsOf at h
  unfold causalPrevHashes
  cases hg : rec.get "causal_prev_hashes" with
  | none =>
    simp only [hg] at h
    exact (Except.ok.inj h).symm
  | some v =>
    simp only [hg] at h
    cases v with
    | arr items =>
      cases hs : stringItems items with
      | none => simp [CanonValue.asArray, hs] at h
      | some out =>
        simp only [CanonValue.asArray, Option.bind_some, hs] at h
        rw [← Except.ok.inj h]
        exact (stringItems_eq_some hs).symm
    | _ => simp [CanonValue.asArray] at h

/-- The first occurrences of the indexed parents, outside those already seen. -/
def freshParents (byHash : TreeMap String Nat) : List String → (seen : List String) → List String
  | [], _ => []
  | p :: ps, seen =>
    if !byHash.contains p || seen.contains p then freshParents byHash ps seen
    else p :: freshParents byHash ps (p :: seen)

/-- A parent is linked once, and only if it is a record. -/
theorem mem_freshParents {p : String} {ps seen : List String} :
    p ∈ freshParents byHash ps seen ↔ p ∈ ps ∧ p ∈ byHash ∧ p ∉ seen := by
  induction ps generalizing seen with
  | nil => simp [freshParents]
  | cons q ps ih =>
    rw [freshParents]
    split_ifs with h
    · rw [ih, List.mem_cons]
      simp only [Bool.or_eq_true, Bool.not_eq_true', ← Bool.not_eq_true, TreeMap.contains_iff_mem,
        List.contains_iff_mem] at h
      constructor
      · exact fun hp => ⟨Or.inr hp.1, hp.2⟩
      · rintro ⟨rfl | hp, hm, hs⟩
        · exact (h.elim (absurd hm) (absurd · hs))
        · exact ⟨hp, hm, hs⟩
    · rw [List.mem_cons, ih, List.mem_cons, List.mem_cons]
      simp only [Bool.or_eq_true, Bool.not_eq_true', ← Bool.not_eq_true, TreeMap.contains_iff_mem,
        List.contains_iff_mem, not_or, not_not] at h
      constructor
      · rintro (rfl | ⟨hp, hm, hs⟩)
        · exact ⟨Or.inl rfl, h⟩
        · exact ⟨Or.inr hp, hm, fun hs' => hs (Or.inr hs')⟩
      · rintro ⟨rfl | hp, hm, hs⟩
        · exact Or.inl rfl
        · by_cases hpq : p = q
          · exact Or.inl hpq
          · exact Or.inr ⟨hp, hm, by simp [hpq, hs]⟩

/-- No parent is linked twice. -/
theorem nodup_freshParents (ps seen : List String) : (freshParents byHash ps seen).Nodup := by
  induction ps generalizing seen with
  | nil => exact List.nodup_nil
  | cons q ps ih =>
    rw [freshParents]
    split_ifs
    · exact ih seen
    · refine List.nodup_cons.mpr ⟨fun h => ?_, ih _⟩
      exact (mem_freshParents.mp h).2.2 (by simp)

/-- The tables after the edges from `ch` to each of `fresh` have been added. -/
structure Linked (ch : String) (fresh : List String) (links links' : Links) : Prop where
  inDegree : ∀ v, links'.inDegree[v]? =
    links.inDegree[v]?.map (· + if ch = v then fresh.length else 0)
  children : ∀ p, links'.children.getD p [] =
    links.children.getD p [] ++ if p ∈ fresh then [ch] else []
  referenced : ∀ p, links'.referenced[p]? = if p ∈ fresh then some true else links.referenced[p]?

theorem Linked.refl (ch : String) (links : Links) : Linked ch [] links links := by
  refine ⟨fun v => ?_, fun p => ?_, fun p => ?_⟩ <;> simp

/-- One parent more is one link more. -/
theorem Linked.cons {ch p : String} {fresh : List String} {links links' : Links}
    (hch : ch ∈ links.inDegree) (hp : p ∉ fresh)
    (h : Linked ch fresh (linkParent ch p links) links') : Linked ch (p :: fresh) links links' := by
  refine ⟨fun v => ?_, fun q => ?_, fun q => ?_⟩
  · obtain ⟨d, hd⟩ := Option.isSome_iff_exists.mp (TreeMap.isSome_getElem?_iff_mem.mpr hch)
    rw [h.inDegree]
    simp only [linkParent, TreeMap.getElem?_insert, Std.compare_eq_iff_eq,
      TreeMap.getD_eq_getD_getElem?, hd, Option.getD_some, List.length_cons]
    by_cases hv : ch = v
    · subst hv
      simp [hd]
      omega
    · simp [hv]
  · rw [h.children]
    simp only [linkParent, TreeMap.getD_insert, Std.compare_eq_iff_eq, List.mem_cons]
    by_cases hq : p = q
    · subst hq
      simp [hp]
    · simp [hq, Ne.symm hq]
  · rw [h.referenced]
    simp only [linkParent, TreeMap.getElem?_insert, Std.compare_eq_iff_eq, List.mem_cons]
    by_cases hq : p = q
    · subst hq
      simp
    · simp [hq, Ne.symm hq]

/-- A parent outside the set leaves the three tables alone. -/
theorem linkOutside_eq_ok {ch p : String} {links links' : Links}
    (h : linkOutside base ch p links = .ok links') :
    base ≠ none ∧ links'.inDegree = links.inDegree ∧ links'.children = links.children ∧
      links'.referenced = links.referenced := by
  unfold linkOutside at h
  cases base with
  | none => cases h
  | some b =>
    dsimp only at h
    split_ifs at h <;> obtain rfl := Except.ok.inj h <;> exact ⟨by simp, rfl, rfl, rfl⟩

/-- Linking a record's parents adds its fresh edges, and every parent is a digest, which
outside of segments must be indexed. -/
theorem linkParents_eq_ok {ch : String} {ps seen : List String} {links links' : Links}
    (h : linkParents byHash base ch ps seen links = .ok links') (hch : ch ∈ links.inDegree) :
    Linked ch (freshParents byHash ps seen) links links' ∧
      (∀ p ∈ ps, (parseSha256 p).isSome = true) ∧ (base = none → ∀ p ∈ ps, p ∈ byHash) := by
  induction ps generalizing seen links with
  | nil =>
    obtain rfl := Except.ok.inj h
    exact ⟨.refl ch links, by simp, by simp⟩
  | cons p ps ih =>
    rw [linkParents] at h
    split_ifs at h with hsha hmem hseen
    · cases ho : linkOutside base ch p links with
      | error e => simp [ho] at h
      | ok mid =>
        simp only [ho] at h
        obtain ⟨hbase, hdeg, hchildren, href⟩ := linkOutside_eq_ok ho
        obtain ⟨hl, hdig, -⟩ := ih h (hdeg ▸ hch)
        rw [freshParents, if_pos (by simp [hmem])]
        refine ⟨⟨?_, ?_, ?_⟩, ?_, fun hn => absurd hn hbase⟩
        · exact hdeg ▸ hl.inDegree
        · exact hchildren ▸ hl.children
        · exact href ▸ hl.referenced
        · exact List.forall_mem_cons.mpr ⟨by simpa [Option.isSome_iff_ne_none] using hsha, hdig⟩
    · obtain ⟨hl, hdig, hin⟩ := ih h hch
      rw [freshParents, if_pos (by rw [hseen, Bool.or_true])]
      refine ⟨hl, ?_, ?_⟩
      · exact List.forall_mem_cons.mpr ⟨by simpa [Option.isSome_iff_ne_none] using hsha, hdig⟩
      · exact fun hn => List.forall_mem_cons.mpr ⟨by simpa using hmem, hin hn⟩
    · have hch' : ch ∈ (linkParent ch p links).inDegree := by simp [linkParent]
      obtain ⟨hl, hdig, hin⟩ := ih h hch'
      rw [freshParents, if_neg (by rw [Bool.or_eq_true, not_or]; exact ⟨hmem, hseen⟩)]
      refine ⟨hl.cons hch ?_, ?_, ?_⟩
      · exact fun hp => (mem_freshParents.mp hp).2.2 (by simp)
      · exact List.forall_mem_cons.mpr ⟨by simpa [Option.isSome_iff_ne_none] using hsha, hdig⟩
      · exact fun hn => List.forall_mem_cons.mpr ⟨by simpa using hmem, hin hn⟩

/-- The resolved parents of the record at an index. -/
def parentsAt (records : List CanonValue) (byHash : TreeMap String Nat) (i : Nat) : List String :=
  freshParents byHash (causalPrevHashes (records.getD i .null)) []

/-- The tables after all the records of `entries` have been linked. -/
structure LinkedAll (records : List CanonValue) (byHash : TreeMap String Nat)
    (entries : List (String × Nat)) (links links' : Links) : Prop where
  inDegree : ∀ v, links'.inDegree[v]? = links.inDegree[v]?.map
    (· + ((entries.filter (·.1 = v)).map fun e => (parentsAt records byHash e.2).length).sum)
  children : ∀ p, links'.children.getD p [] = links.children.getD p [] ++
    (entries.filter fun e => p ∈ parentsAt records byHash e.2).map (·.1)
  referenced : ∀ p, links'.referenced[p]? =
    if ∃ e ∈ entries, p ∈ parentsAt records byHash e.2 then some true else links.referenced[p]?

/-- The second pass links every record to its parents. -/
theorem linkRecords_eq_ok {entries : List (String × Nat)} {links links' : Links}
    (h : linkRecords records byHash base entries links = .ok links')
    (hin : ∀ e ∈ entries, e.1 ∈ links.inDegree) :
    LinkedAll records byHash entries links links' ∧
      (∀ e ∈ entries, ∀ p ∈ causalPrevHashes (records.getD e.2 .null),
        (parseSha256 p).isSome = true) ∧
      (base = none → ∀ e ∈ entries, ∀ p ∈ causalPrevHashes (records.getD e.2 .null),
        p ∈ byHash) := by
  induction entries generalizing links with
  | nil =>
    obtain rfl := Except.ok.inj h
    refine ⟨⟨fun v => ?_, fun p => ?_, fun p => ?_⟩, by simp, by simp⟩ <;> simp
  | cons e entries ih =>
    obtain ⟨ch, i⟩ := e
    rw [List.forall_mem_cons] at hin
    rw [linkRecords] at h
    cases hp : parentsOf (records.getD i .null) i with
    | error e => simp only [hp, reduceCtorEq] at h
    | ok parents =>
      simp only [hp] at h
      obtain rfl := parentsOf_eq_ok hp
      cases hl : linkParents byHash base ch (causalPrevHashes (records.getD i .null)) [] links with
      | error e => simp only [hl, reduceCtorEq] at h
      | ok mid =>
        simp only [hl] at h
        obtain ⟨hlinked, hdig, hmem⟩ := linkParents_eq_ok hl hin.1
        have hone : Linked ch (parentsAt records byHash i) links mid := hlinked
        have hin' : ∀ e ∈ entries, e.1 ∈ mid.inDegree := by
          intro e he
          rw [← TreeMap.isSome_getElem?_iff_mem, hone.inDegree, Option.isSome_map]
          exact TreeMap.isSome_getElem?_iff_mem.mpr (hin.2 e he)
        obtain ⟨hall, hdig', hmem'⟩ := ih h hin'
        refine ⟨⟨fun v => ?_, fun p => ?_, fun p => ?_⟩, ?_, ?_⟩
        · rw [hall.inDegree, hone.inDegree, Option.map_map]
          refine congrArg (Option.map · _) (funext fun d => ?_)
          by_cases hv : ch = v
          · simp [hv, Nat.add_assoc]
          · simp [hv]
        · rw [hall.children, hone.children, List.append_assoc]
          by_cases hpp : p ∈ parentsAt records byHash i <;> simp [hpp]
        · rw [hall.referenced, hone.referenced]
          simp only [List.exists_mem_cons_iff]
          by_cases hpp : p ∈ parentsAt records byHash i <;> simp only [hpp, true_or, false_or,
            if_true, if_false, ite_self]
        · exact List.forall_mem_cons.mpr ⟨hdig, hdig'⟩
        · exact fun hn => List.forall_mem_cons.mpr ⟨hmem hn, hmem' hn⟩

/-- The resolved parents of an indexed hash. -/
def resolvedParents (records : List CanonValue) (byHash : TreeMap String Nat) (h : String) :
    List String :=
  match byHash[h]? with
  | none => []
  | some i => parentsAt records byHash i

/-- The parents of an indexed hash are those of its record. -/
theorem resolvedParents_of_mem {e : String × Nat} (he : e ∈ byHash.toList) :
    resolvedParents records byHash e.1 = parentsAt records byHash e.2 := by
  have hget := TreeMap.mem_toList_iff_getElem?_eq_some.mp he
  simp only [resolvedParents, hget]

/-- The entry of an indexed hash is the only one. -/
theorem filter_toList_eq {k : String} {i : Nat} (hk : byHash[k]? = some i) :
    byHash.toList.filter (fun e => e.1 = k) = [(k, i)] := by
  have hmem : (k, i) ∈ byHash.toList := TreeMap.mem_toList_iff_getElem?_eq_some.mpr hk
  have hnodup : (byHash.toList.map Prod.fst).Nodup := by
    rw [TreeMap.map_fst_toList_eq_keys]
    exact TreeMap.nodup_keys
  obtain ⟨l, r, hlr⟩ := List.append_of_mem hmem
  rw [hlr] at hnodup ⊢
  rw [List.map_append, List.map_cons, List.nodup_append] at hnodup
  obtain ⟨-, hr, hl⟩ := hnodup
  have hleft : l.filter (fun e => e.1 = k) = [] := by
    refine List.filter_eq_nil_iff.mpr fun e he => ?_
    simpa using hl e.1 (List.mem_map_of_mem he) k (by simp)
  have hright : r.filter (fun e => e.1 = k) = [] := by
    refine List.filter_eq_nil_iff.mpr fun e he => ?_
    have hne := (List.nodup_cons.mp hr).1
    simp only [decide_eq_true_eq]
    rintro rfl
    exact hne (List.mem_map.mpr ⟨e, he, rfl⟩)
  rw [List.filter_append, List.filter_cons_of_pos (by simp), hleft, hright, List.nil_append]

/-- The facts an accepted build rests on: where each hash is indexed, that parents resolve,
a topological order of the index, and the heads. -/
structure DagSpec (records : List CanonValue) (dag : Dag) : Prop where
  hashes : ∀ rec ∈ records, ∃ ch, recordHash rec = some ch ∧ (parseSha256 ch).isSome = true
  index : ∀ h, dag.byHash[h]? = lastIndex h records 0
  parents : ∀ (h : String) (i : Nat), dag.byHash[h]? = some i →
    ∀ p ∈ causalPrevHashes (records.getD i .null), p ∈ dag.byHash
  topo_perm : dag.topoOrder.Perm dag.byHash.keys
  topo_first : ParentsFirst (resolvedParents records dag.byHash) dag.topoOrder
  mem_heads : ∀ h, h ∈ dag.heads ↔
    h ∈ dag.byHash ∧ ∀ c ∈ dag.byHash, h ∉ resolvedParents records dag.byHash c

/-- The link tables of a whole build. -/
theorem linkRecords_noLinks {links : Links}
    (h : linkRecords records byHash base byHash.toList (noLinks byHash) = .ok links) :
    LinkedAll records byHash byHash.toList (noLinks byHash) links ∧
      (base = none → ∀ (k : String) (i : Nat), byHash[k]? = some i →
        ∀ p ∈ causalPrevHashes (records.getD i .null), p ∈ byHash) := by
  have hin : ∀ e ∈ byHash.toList, e.1 ∈ (noLinks byHash).inDegree := by
    intro e he
    have hget := TreeMap.mem_toList_iff_getElem?_eq_some.mp he
    rw [← TreeMap.isSome_getElem?_iff_mem, noLinks, TreeMap.getElem?_map, hget]
    rfl
  obtain ⟨hall, -, hmem⟩ := linkRecords_eq_ok h hin
  refine ⟨hall, fun hn k i hk => ?_⟩
  exact hmem hn (k, i) (TreeMap.mem_toList_iff_getElem?_eq_some.mpr hk)

/-- The in-degrees count the resolved parents. -/
theorem LinkedAll.inDegree_eq {links : Links}
    (h : LinkedAll records byHash byHash.toList (noLinks byHash) links) (v : String) :
    links.inDegree[v]? =
      byHash[v]?.map fun _ => (resolvedParents records byHash v).length := by
  rw [h.inDegree, noLinks, TreeMap.getElem?_map]
  cases hv : byHash[v]? with
  | none => rfl
  | some i =>
    simp only [Option.map_some, filter_toList_eq hv, resolvedParents, hv, List.map_cons,
      List.map_nil, List.sum_singleton, Nat.zero_add]

/-- The links are a graph for the sort. -/
theorem LinkedAll.kahnGraph {links : Links}
    (h : LinkedAll records byHash byHash.toList (noLinks byHash) links) :
    KahnGraph byHash.keys (resolvedParents records byHash) links.children := by
  have hch : ∀ n, links.children.getD n [] =
      (byHash.toList.filter fun e => n ∈ parentsAt records byHash e.2).map (·.1) := by
    intro n
    rw [h.children, noLinks]
    simp
  refine ⟨fun v _ => ?_, fun n _ => ?_, fun n _ v => ?_⟩
  · unfold resolvedParents
    split
    · exact List.nodup_nil
    · exact nodup_freshParents _ _
  · rw [hch]
    refine List.Nodup.sublist (List.filter_sublist.map _) ?_
    rw [TreeMap.map_fst_toList_eq_keys]
    exact TreeMap.nodup_keys
  · rw [hch, List.mem_map]
    constructor
    · rintro ⟨e, he, rfl⟩
      obtain ⟨he, hp⟩ := List.mem_filter.mp he
      rw [resolvedParents_of_mem he, ← TreeMap.map_fst_toList_eq_keys]
      exact ⟨List.mem_map_of_mem he, by simpa using hp⟩
    · rintro ⟨hv, hp⟩
      rw [← TreeMap.map_fst_toList_eq_keys] at hv
      obtain ⟨e, he, rfl⟩ := List.mem_map.mp hv
      rw [resolvedParents_of_mem he] at hp
      exact ⟨e, List.mem_filter.mpr ⟨he, by simpa using hp⟩, rfl⟩

/-- The loop starts with the nodes without parents. -/
theorem LinkedAll.kahn_init {links : Links}
    (h : LinkedAll records byHash byHash.toList (noLinks byHash) links) :
    KahnInv byHash.keys (resolvedParents records byHash)
      (((links.inDegree.toList.filter (·.2 == 0)).map (·.1)).insertionSort (· ≤ ·)) []
      links.inDegree := by
  have hmem : ∀ v, v ∈ ((links.inDegree.toList.filter (·.2 == 0)).map (·.1)).insertionSort (· ≤ ·) ↔
      v ∈ byHash.keys ∧ links.inDegree.getD v 0 = 0 := by
    intro v
    rw [(List.perm_insertionSort _ _).mem_iff, List.mem_map, TreeMap.mem_keys]
    constructor
    · rintro ⟨e, he, rfl⟩
      obtain ⟨he, hz⟩ := List.mem_filter.mp he
      have hget := TreeMap.mem_toList_iff_getElem?_eq_some.mp he
      have hsome := h.inDegree_eq e.1
      rw [hget] at hsome
      refine ⟨?_, ?_⟩
      · rw [← TreeMap.isSome_getElem?_iff_mem]
        cases hb : byHash[e.1]? with
        | none => simp [hb] at hsome
        | some i => rfl
      · rw [TreeMap.getD_eq_getD_getElem?, hget]
        simpa using hz
    · rintro ⟨hv, hz⟩
      obtain ⟨i, hi⟩ := Option.isSome_iff_exists.mp (TreeMap.isSome_getElem?_iff_mem.mpr hv)
      have hsome := h.inDegree_eq v
      rw [hi, Option.map_some] at hsome
      rw [TreeMap.getD_eq_getD_getElem?, hsome, Option.getD_some] at hz
      rw [hz] at hsome
      exact ⟨(v, 0), List.mem_filter.mpr
        ⟨TreeMap.mem_toList_iff_getElem?_eq_some.mpr hsome, rfl⟩, rfl⟩
  refine ⟨?_, ?_, ?_, ?_, .nil⟩
  · rw [List.nil_append, (List.perm_insertionSort _ _).nodup_iff]
    refine List.Nodup.sublist (List.filter_sublist.map _) ?_
    rw [TreeMap.map_fst_toList_eq_keys]
    exact TreeMap.nodup_keys
  · exact fun v hv => ((hmem v).mp hv).1
  · intro v hv
    obtain ⟨i, hi⟩ := Option.isSome_iff_exists.mp
      (TreeMap.isSome_getElem?_iff_mem.mpr (TreeMap.mem_keys.mp hv))
    rw [TreeMap.getD_eq_getD_getElem?, h.inDegree_eq, hi]
    simp
  · exact fun v hv => (hmem v).trans (and_iff_right hv)

/-- The loop ends with an empty queue. -/
theorem LinkedAll.kahn_done {links : Links}
    (h : LinkedAll records byHash byHash.toList (noLinks byHash) links) :
    ∃ indeg, KahnInv byHash.keys (resolvedParents records byHash) []
      (kahn links.children byHash.size
        (((links.inDegree.toList.filter (·.2 == 0)).map (·.1)).insertionSort (· ≤ ·))
        links.inDegree []) indeg :=
  kahn_inv byHash.size h.kahnGraph h.kahn_init (by rw [TreeMap.length_keys]; simp)

/-- A result as long as the index orders all of it. -/
theorem LinkedAll.topo {links : Links}
    (h : LinkedAll records byHash byHash.toList (noLinks byHash) links) {topo : List String}
    (ht : kahn links.children byHash.size
      (((links.inDegree.toList.filter (·.2 == 0)).map (·.1)).insertionSort (· ≤ ·))
      links.inDegree [] = topo) (hlen : topo.length = byHash.size) :
    topo.Perm byHash.keys ∧ ParentsFirst (resolvedParents records byHash) topo := by
  obtain ⟨indeg, hinv⟩ := h.kahn_done
  rw [ht] at hinv
  exact ⟨hinv.perm (by rw [hlen, TreeMap.length_keys]), hinv.first⟩

/-- The heads are the indexed hashes that no indexed record names. -/
theorem LinkedAll.mem_heads {links : Links}
    (h : LinkedAll records byHash byHash.toList (noLinks byHash) links) (v : String) :
    v ∈ (links.referenced.toList.filter (!·.2)).map (·.1) ↔
      v ∈ byHash ∧ ∀ c ∈ byHash, v ∉ resolvedParents records byHash c := by
  have hnames : (∃ e ∈ byHash.toList, v ∈ parentsAt records byHash e.2) ↔
      ∃ c ∈ byHash, v ∈ resolvedParents records byHash c := by
    constructor
    · rintro ⟨e, he, hv⟩
      refine ⟨e.1, ?_, by rwa [resolvedParents_of_mem he]⟩
      rw [← TreeMap.mem_keys, ← TreeMap.map_fst_toList_eq_keys]
      exact List.mem_map_of_mem he
    · rintro ⟨c, hc, hv⟩
      rw [← TreeMap.mem_keys, ← TreeMap.map_fst_toList_eq_keys] at hc
      obtain ⟨e, he, rfl⟩ := List.mem_map.mp hc
      exact ⟨e, he, by rwa [resolvedParents_of_mem he] at hv⟩
  have href : links.referenced[v]? = some false ↔
      v ∈ byHash ∧ ∀ c ∈ byHash, v ∉ resolvedParents records byHash c := by
    rw [h.referenced, noLinks, TreeMap.getElem?_map]
    by_cases hex : ∃ c ∈ byHash, v ∈ resolvedParents records byHash c
    · rw [if_pos (hnames.mpr hex)]
      simp only [Option.some.injEq, Bool.true_eq_false, false_iff, not_and]
      intro _ hall
      obtain ⟨c, hc, hv⟩ := hex
      exact hall c hc hv
    · rw [if_neg (hnames.not.mpr hex)]
      have hall : ∀ c ∈ byHash, v ∉ resolvedParents records byHash c :=
        fun c hc hv => hex ⟨c, hc, hv⟩
      rw [and_iff_left hall, ← TreeMap.isSome_getElem?_iff_mem]
      cases byHash[v]? <;> simp
  rw [← href, List.mem_map]
  constructor
  · rintro ⟨⟨k, b⟩, he, rfl⟩
    obtain ⟨he, hb⟩ := List.mem_filter.mp he
    obtain rfl : b = false := by simpa using hb
    exact TreeMap.mem_toList_iff_getElem?_eq_some.mp he
  · intro hv
    exact ⟨(v, false), List.mem_filter.mpr
      ⟨TreeMap.mem_toList_iff_getElem?_eq_some.mpr hv, rfl⟩, rfl⟩

/-- Every accepted build has these facts. -/
theorem build_eq_ok {dag : Dag} (h : build records = .ok dag) : DagSpec records dag := by
  unfold build buildFrom at h
  cases hi : indexRecords records 0 ∅ 0 with
  | error e => simp [hi] at h
  | ok r =>
    obtain ⟨byHash, collapsed⟩ := r
    simp only [hi] at h
    cases hl : linkRecords records byHash none byHash.toList (noLinks byHash) with
    | error e => simp [hl] at h
    | ok links =>
      simp only [hl] at h
      split_ifs at h with hlen
      obtain rfl := Except.ok.inj h
      obtain ⟨hhash, hindex⟩ := indexRecords_eq_ok hi
      obtain ⟨hall, hpar⟩ := linkRecords_noLinks hl
      obtain ⟨hperm, hfirst⟩ := hall.topo rfl (not_ne_iff.mp hlen)
      refine ⟨hhash, fun k => ?_, hpar rfl, hperm, hfirst, fun v => ?_⟩
      · rw [hindex]
        simp
      · rw [List.mem_dedup, (List.perm_insertionSort _ _).mem_iff, baseHeads, List.append_nil]
        exact hall.mem_heads v

/-- An index holds every hash of the records, each at a record that carries it. -/
structure Indexes (records : List CanonValue) (byHash : TreeMap String Nat) : Prop where
  mem_iff : ∀ h, h ∈ byHash ↔ ∃ rec ∈ records, recordHash rec = some h
  kept : ∀ {h : String} {i : Nat}, byHash[h]? = some i →
    ∃ rec ∈ records, records[i]? = some rec ∧ recordHash rec = some h

/-- The last index of each hash is an index. -/
theorem indexes_of_lastIndex (hindex : ∀ h, byHash[h]? = lastIndex h records 0) :
    Indexes records byHash := by
  constructor
  · intro h
    rw [← TreeMap.isSome_getElem?_iff_mem, hindex, isSome_lastIndex_iff]
  · intro h i hi
    rw [hindex] at hi
    obtain ⟨-, rec, hrec, hh⟩ := lastIndex_eq_some hi
    rw [Nat.sub_zero] at hrec
    exact ⟨rec, List.mem_of_getElem? hrec, hrec, hh⟩

/-- The parents named by the record kept for a hash. -/
def keptParents (records : List CanonValue) (byHash : TreeMap String Nat) (h : String) :
    List String :=
  match byHash[h]? with
  | none => []
  | some i => causalPrevHashes (records.getD i .null)

namespace DagSpec

variable {dag : Dag} (hs : DagSpec records dag)
include hs

/-- The graph holds an index of the records. -/
theorem indexes : Indexes records dag.byHash := indexes_of_lastIndex hs.index

/-- The hashes of the graph are those a record carries. -/
theorem mem_byHash_iff {h : String} :
    h ∈ dag.byHash ↔ ∃ rec ∈ records, recordHash rec = some h :=
  hs.indexes.mem_iff h

theorem exists_kept {h : String} {i : Nat} (hi : dag.byHash[h]? = some i) :
    ∃ rec ∈ records, records[i]? = some rec ∧ recordHash rec = some h :=
  hs.indexes.kept hi

/-- Parents without repeats are the same parents. -/
theorem mem_resolvedParents {c p : String} :
    p ∈ resolvedParents records dag.byHash c ↔ p ∈ keptParents records dag.byHash c := by
  unfold resolvedParents keptParents
  cases hc : dag.byHash[c]? with
  | none => rfl
  | some i =>
    show p ∈ parentsAt records dag.byHash i ↔ p ∈ causalPrevHashes (records.getD i .null)
    rw [parentsAt, mem_freshParents]
    exact ⟨fun h => h.1, fun h => ⟨h, hs.parents c i hc p h, by simp⟩⟩

/-- Parents of kept records are indexed. -/
theorem keptParents_mem {c p : String} (h : p ∈ keptParents records dag.byHash c) :
    p ∈ dag.byHash := by
  unfold keptParents at h
  cases hc : dag.byHash[c]? with
  | none => simp [hc] at h
  | some i =>
    rw [hc] at h
    exact hs.parents c i hc p h

/-- Every indexed hash is an ancestor of a head. -/
theorem exists_head {h : String} (hh : h ∈ dag.byHash) :
    ∃ s ∈ dag.heads,
      Relation.ReflTransGen (fun c p => p ∈ keptParents records dag.byHash c) s h := by
  have hnodup : dag.topoOrder.Nodup := hs.topo_perm.nodup_iff.mpr TreeMap.nodup_keys
  have hmem : ∀ c, c ∈ dag.topoOrder ↔ c ∈ dag.byHash := fun c => by
    rw [hs.topo_perm.mem_iff, TreeMap.mem_keys]
  obtain ⟨s, hst, hsink, hreach⟩ := hs.topo_first.exists_sink hnodup ((hmem h).mpr hh)
  refine ⟨s, (hs.mem_heads s).mpr ⟨(hmem s).mp hst, fun c hc => ?_⟩, ?_⟩
  · exact hsink c ((hmem c).mpr hc)
  · exact Relation.ReflTransGen.mono (fun c p hp => hs.mem_resolvedParents.mp hp) _ _ hreach

end DagSpec

end Averin
