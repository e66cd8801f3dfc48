import Averin.Verify.GrantLog
import Mathlib.Data.List.GetD

/-!
# The indexed log

Hashes are replaced by positions in the topological order, so that parents have smaller
numbers than their children, and the log entries of a partition are kept at their nodes.
Both indexes describe the graph and the log they were built from.
-/

namespace Averin

open Std (TreeMap TreeSet)

/-- The causal DAG over node numbers. -/
structure DagIndex where
  nodeOf : TreeMap String Nat
  /-- The known parents of each node. -/
  parents : List (List Nat)

namespace DagIndex

/-- The known parents of a node. -/
def parentsOf (dix : DagIndex) (x : Nat) : List Nat := dix.parents.getD x []

/-- Number the hashes in order, unless one is unknown or repeated. -/
def numberNodes (byHash : TreeMap String Nat) :
    List String → (i : Nat) → TreeMap String Nat → Option (TreeMap String Nat)
  | [], _, nodeOf => some nodeOf
  | h :: rest, i, nodeOf =>
    if !byHash.contains h || nodeOf.contains h then none
    else numberNodes byHash rest (i + 1) (nodeOf.insert h i)

/-- The numbers of the known parents of node `i`, unless one does not come before it. -/
def knownParents (nodeOf : TreeMap String Nat) (i : Nat) : List CanonValue → Option (List Nat)
  | [] => some []
  | p :: rest =>
    match p.asStr.bind (nodeOf[·]?) with
    | none => knownParents nodeOf i rest
    | some pn => if i ≤ pn then none else (knownParents nodeOf i rest).map (pn :: ·)

/-- The parents of every node from `i` on. -/
def parentLists (records : List CanonValue) (byHash nodeOf : TreeMap String Nat) :
    List String → (i : Nat) → Option (List (List Nat))
  | [], _ => some []
  | h :: rest, i =>
    (byHash[h]?.bind (records[·]?)).bind fun rec =>
      (match (rec.get "causal_prev_hashes").bind CanonValue.asArray with
        | some arr => knownParents nodeOf i arr
        | none => some []).bind fun list =>
        (parentLists records byHash nodeOf rest (i + 1)).map (list :: ·)

/-- Index a DAG whose topological order lists every hash once, parents first. -/
def build (records : List CanonValue) (byHash : TreeMap String Nat) (topoOrder : List String) :
    Option DagIndex :=
  (numberNodes byHash topoOrder 0 ∅).bind fun nodeOf =>
    if nodeOf.size ≠ byHash.size then none
    else (parentLists records byHash nodeOf topoOrder 0).map fun parents => ⟨nodeOf, parents⟩

end DagIndex

variable {records : List CanonValue} {byHash nodeOf : TreeMap String Nat}

/-- Numbering succeeds for hashes that are new and gives each its position. -/
theorem numberNodes_eq_some {l : List String} {i : Nat} {m m' : TreeMap String Nat}
    (h : DagIndex.numberNodes byHash l i m = some m') :
    (∀ h ∈ l, h ∉ m) ∧
      ∀ (h : String) (j : Nat),
        m'[h]? = some j ↔ m[h]? = some j ∨ ∃ k, l[k]? = some h ∧ j = i + k := by
  induction l generalizing i m with
  | nil =>
    obtain rfl : m = m' := by simpa [DagIndex.numberNodes] using h
    simp
  | cons a l ih =>
    rw [DagIndex.numberNodes] at h
    split_ifs at h with hc
    have ham : a ∉ m := fun ha => hc (by simp [TreeMap.contains_iff_mem.mpr ha])
    obtain ⟨hfresh, hget⟩ := ih h
    have hal : a ∉ l := fun hl => hfresh a hl (by simp)
    refine ⟨List.forall_mem_cons.mpr ⟨ham, fun b hb hbm => hfresh b hb (by simp [hbm])⟩, ?_⟩
    intro b j
    rw [hget]
    simp only [TreeMap.getElem?_insert, Std.compare_eq_iff_eq]
    by_cases hab : a = b
    · subst hab
      have hnone : m[a]? = none := by simpa using ham
      rw [if_pos rfl, hnone]
      constructor
      · rintro (hj | ⟨k, hk, -⟩)
        · exact Or.inr ⟨0, rfl, by simpa using hj.symm⟩
        · exact absurd (List.mem_of_getElem? hk) hal
      · rintro (hj | ⟨k, hk, rfl⟩)
        · exact absurd hj (by simp)
        · cases k with
          | zero => exact Or.inl rfl
          | succ k => exact absurd (List.mem_of_getElem? (l := l) hk) hal
    · rw [if_neg hab]
      refine or_congr_right ⟨?_, ?_⟩
      · rintro ⟨k, hk, rfl⟩
        exact ⟨k + 1, hk, by omega⟩
      · rintro ⟨k, hk, rfl⟩
        cases k with
        | zero => exact absurd (Option.some.inj hk) hab
        | succ k => exact ⟨k, hk, by omega⟩

/-- The known parents are those with a number, all of them earlier. -/
theorem knownParents_eq_some_iff {i : Nat} {items : List CanonValue} {list : List Nat} :
    DagIndex.knownParents nodeOf i items = some list ↔
      list = (items.filterMap CanonValue.asStr).filterMap (nodeOf[·]?) ∧ ∀ p ∈ list, p < i := by
  rw [List.filterMap_filterMap]
  induction items generalizing list with
  | nil =>
    simp only [DagIndex.knownParents, Option.some.injEq, List.filterMap_nil]
    exact ⟨fun h => by simp [← h], fun h => h.1.symm⟩
  | cons p rest ih =>
    rw [DagIndex.knownParents]
    cases hp : p.asStr.bind (nodeOf[·]?) with
    | none =>
      simp only [List.filterMap_cons, hp]
      exact ih
    | some pn =>
      simp only [List.filterMap_cons, hp]
      split_ifs with hle
      · constructor
        · intro h
          cases h
        · rintro ⟨rfl, hlt⟩
          exact absurd (hlt pn List.mem_cons_self) (by omega)
      · rw [Option.map_eq_some_iff]
        constructor
        · rintro ⟨tail, htail, rfl⟩
          obtain ⟨rfl, hlt⟩ := ih.mp htail
          exact ⟨rfl, List.forall_mem_cons.mpr ⟨by omega, hlt⟩⟩
        · rintro ⟨rfl, hlt⟩
          exact ⟨_, ih.mpr ⟨rfl, (List.forall_mem_cons.mp hlt).2⟩, rfl⟩

/-- Distinct known hashes can be numbered. -/
theorem exists_numberNodes {l : List String} {i : Nat} {m : TreeMap String Nat}
    (hl : l.Nodup) (hknown : ∀ h ∈ l, h ∈ byHash) (hfresh : ∀ h ∈ l, h ∉ m) :
    ∃ m', DagIndex.numberNodes byHash l i m = some m' := by
  induction l generalizing i m with
  | nil => exact ⟨m, rfl⟩
  | cons a l ih =>
    obtain ⟨ha, hl'⟩ := List.nodup_cons.mp hl
    obtain ⟨haknown, hknown'⟩ := List.forall_mem_cons.mp hknown
    obtain ⟨hafresh, hfresh'⟩ := List.forall_mem_cons.mp hfresh
    have hcond : (!byHash.contains a || m.contains a) = false := by
      simp [haknown, Bool.eq_false_iff, TreeMap.contains_iff_mem, hafresh]
    rw [DagIndex.numberNodes, hcond]
    refine ih hl' hknown' fun b hb hbm => ?_
    rw [TreeMap.mem_insert, Std.compare_eq_iff_eq] at hbm
    rcases hbm with rfl | hbm
    · exact ha hb
    · exact hfresh' b hb hbm

/-- The node numbers of the parents of the record kept for a hash. -/
def nodeParents (records : List CanonValue) (byHash nodeOf : TreeMap String Nat) (h : String) :
    List Nat :=
  (keptParents records byHash h).filterMap (nodeOf[·]?)

/-- Every node gets its known parents. -/
theorem parentLists_eq_some_iff {l : List String} {i : Nat} {lists : List (List Nat)}
    (hl : ∀ h ∈ l, (byHash[h]?.bind (records[·]?)).isSome = true) :
    DagIndex.parentLists records byHash nodeOf l i = some lists ↔
      lists = l.map (nodeParents records byHash nodeOf) ∧
        ∀ k h, l[k]? = some h → ∀ p ∈ nodeParents records byHash nodeOf h, p < i + k := by
  induction l generalizing i lists with
  | nil =>
    simp only [DagIndex.parentLists, Option.some.injEq, List.map_nil]
    exact ⟨fun h => ⟨h.symm, by simp⟩, fun h => h.1.symm⟩
  | cons a l ih =>
    obtain ⟨ha, hl'⟩ := List.forall_mem_cons.mp hl
    obtain ⟨rec, hrec⟩ := Option.isSome_iff_exists.mp ha
    obtain ⟨idx, hidx, hget⟩ := Option.bind_eq_some_iff.mp hrec
    have hkept : keptParents records byHash a = causalPrevHashes rec := by
      simp [keptParents, hidx, hget]
    have hlist : DagIndex.parentLists records byHash nodeOf (a :: l) i =
        (((rec.get "causal_prev_hashes").bind CanonValue.asArray).elim (some [])
          (DagIndex.knownParents nodeOf i)).bind fun list =>
            (DagIndex.parentLists records byHash nodeOf l (i + 1)).map (list :: ·) := by
      rw [DagIndex.parentLists, hrec, Option.bind_some]
      cases (rec.get "causal_prev_hashes").bind CanonValue.asArray <;> rfl
    have hstep : ∀ list, ((rec.get "causal_prev_hashes").bind CanonValue.asArray).elim (some [])
          (DagIndex.knownParents nodeOf i) = some list ↔
        list = nodeParents records byHash nodeOf a ∧
          ∀ p ∈ nodeParents records byHash nodeOf a, p < i := by
      intro list
      rw [nodeParents, hkept, causalPrevHashes]
      cases hv : rec.get "causal_prev_hashes" with
      | none => simp [eq_comm]
      | some v =>
        cases v with
        | arr items =>
          simp only [Option.bind_some, CanonValue.asArray, Option.elim_some,
            knownParents_eq_some_iff]
          constructor
          · rintro ⟨rfl, hlt⟩
            exact ⟨rfl, hlt⟩
          · rintro ⟨rfl, hlt⟩
            exact ⟨rfl, hlt⟩
        | _ => simp [CanonValue.asArray, eq_comm]
    rw [hlist, Option.bind_eq_some_iff]
    simp only [hstep, Option.map_eq_some_iff, ih hl', List.map_cons]
    constructor
    · rintro ⟨list, ⟨rfl, hlt⟩, tail, ⟨rfl, htail⟩, rfl⟩
      refine ⟨rfl, fun k h hk p hp => ?_⟩
      cases k with
      | zero => exact hlt p (Option.some.inj hk ▸ hp)
      | succ k => exact lt_of_lt_of_eq (htail k h hk p hp) (by omega)
    · rintro ⟨rfl, hlt⟩
      refine ⟨_, ⟨rfl, fun p hp => hlt 0 a rfl p hp⟩, _, ⟨rfl, fun k h hk p hp => ?_⟩, rfl⟩
      exact lt_of_lt_of_eq (hlt (k + 1) h hk p hp) (by omega)

/-- Beyond the nodes there are no parents. -/
theorem DagIndex.parentsOf_eq_nil {dix : DagIndex} {x : Nat} (hx : dix.parents.length ≤ x) :
    dix.parentsOf x = [] := by
  rw [DagIndex.parentsOf, List.getD_eq_getElem?_getD, List.getElem?_eq_none hx]
  rfl

/-- What an index says of the DAG it was built from. -/
structure DagIndexSpec (records : List CanonValue) (dag : Dag) (dix : DagIndex) : Prop where
  node : ∀ (h : String) (x : Nat), dix.nodeOf[h]? = some x ↔ dag.topoOrder[x]? = some h
  parents : dix.parents = dag.topoOrder.map (nodeParents records dag.byHash dix.nodeOf)
  parents_lt : ∀ (x : Nat), ∀ p ∈ dix.parentsOf x, p < x

section

variable {dag : Dag} (hs : DagSpec records dag)
include hs

theorem DagSpec.mem_topoOrder {h : String} : h ∈ dag.topoOrder ↔ h ∈ dag.byHash := by
  rw [hs.topo_perm.mem_iff, TreeMap.mem_keys]

/-- Every hash of the topological order has a record. -/
theorem DagSpec.isSome_record {h : String} (hh : h ∈ dag.topoOrder) :
    (dag.byHash[h]?.bind (records[·]?)).isSome = true := by
  rw [hs.mem_topoOrder, ← TreeMap.isSome_getElem?_iff_mem] at hh
  obtain ⟨i, hi⟩ := Option.isSome_iff_exists.mp hh
  obtain ⟨rec, -, hrec, -⟩ := hs.exists_kept hi
  rw [hi, Option.bind_some, hrec]
  rfl

/-- An accepted DAG is indexed. -/
theorem DagSpec.exists_dagIndex :
    ∃ dix, DagIndex.build records dag.byHash dag.topoOrder = some dix := by
  have hnodup : dag.topoOrder.Nodup := hs.topo_perm.nodup_iff.mpr TreeMap.nodup_keys
  obtain ⟨nodeOf, hnum⟩ := @exists_numberNodes dag.byHash dag.topoOrder 0 ∅ hnodup
    (fun h hh => hs.mem_topoOrder.mp hh) (by simp)
  have hnode := (numberNodes_eq_some hnum).2
  have hperm : nodeOf.keys.Perm dag.topoOrder := by
    refine (List.perm_ext_iff_of_nodup TreeMap.nodup_keys hnodup).mpr fun h => ?_
    rw [TreeMap.mem_keys, ← TreeMap.isSome_getElem?_iff_mem, Option.isSome_iff_exists,
      List.mem_iff_getElem?]
    simp [hnode]
  have hsize : nodeOf.size = dag.byHash.size := by
    rw [← TreeMap.length_keys, ← TreeMap.length_keys, (hperm.trans hs.topo_perm).length_eq]
  have hlists : DagIndex.parentLists records dag.byHash nodeOf dag.topoOrder 0 =
      some (dag.topoOrder.map (nodeParents records dag.byHash nodeOf)) := by
    refine (parentLists_eq_some_iff fun h hh => hs.isSome_record hh).mpr ⟨rfl, ?_⟩
    intro k h hk p hp
    obtain ⟨ph, hph, hpn⟩ := List.mem_filterMap.mp hp
    obtain ⟨j, hj, hget⟩ := hs.topo_first.exists_lt hk (hs.mem_resolvedParents.mpr hph)
    have hjn : nodeOf[ph]? = some j := (hnode ph j).mpr (Or.inr ⟨j, hget, by omega⟩)
    rw [hjn] at hpn
    have := Option.some.inj hpn
    omega
  refine ⟨⟨nodeOf, dag.topoOrder.map (nodeParents records dag.byHash nodeOf)⟩, ?_⟩
  simp [DagIndex.build, hnum, hsize, hlists]

/-- An index that is built describes the DAG. -/
theorem DagSpec.dagIndexSpec {dix : DagIndex}
    (h : DagIndex.build records dag.byHash dag.topoOrder = some dix) :
    DagIndexSpec records dag dix := by
  unfold DagIndex.build at h
  obtain ⟨nodeOf, hnum, h⟩ := Option.bind_eq_some_iff.mp h
  split_ifs at h
  obtain ⟨parents, hlists, rfl⟩ := Option.map_eq_some_iff.mp h
  obtain ⟨rfl, hlt⟩ := (parentLists_eq_some_iff fun h hh => hs.isSome_record hh).mp hlists
  refine ⟨fun h x => ?_, rfl, fun x p hp => ?_⟩
  · rw [(numberNodes_eq_some hnum).2]
    simp
  · rw [DagIndex.parentsOf, List.getD_eq_getElem?_getD, List.getElem?_map] at hp
    cases hx : dag.topoOrder[x]? with
    | none => simp [hx] at hp
    | some h =>
      rw [hx] at hp
      simpa using hlt x h hx p hp

end

namespace DagIndexSpec

variable {dag : Dag} {dix : DagIndex} (hd : DagIndexSpec records dag dix)
include hd

theorem length_parents : dix.parents.length = dag.topoOrder.length := by
  rw [hd.parents, List.length_map]

/-- A node's parents are those of its record. -/
theorem parentsOf_eq {x : Nat} {h : String} (hx : dag.topoOrder[x]? = some h) :
    dix.parentsOf x = nodeParents records dag.byHash dix.nodeOf h := by
  rw [DagIndex.parentsOf, hd.parents, List.getD_eq_getElem?_getD, List.getElem?_map, hx]
  rfl

theorem node_lt {h : String} {x : Nat} (hx : dix.nodeOf[h]? = some x) :
    x < dix.parents.length := by
  rw [hd.length_parents]
  exact (List.getElem?_eq_some_iff.mp ((hd.node h x).mp hx)).1

/-- A parent is a node. -/
theorem parent_lt_length {x p : Nat} (hp : p ∈ dix.parentsOf x) : p < dix.parents.length := by
  rcases Nat.lt_or_ge x dix.parents.length with hx | hx
  · exact (hd.parents_lt x p hp).trans hx
  · rw [DagIndex.parentsOf_eq_nil hx] at hp
    cases hp

theorem name_unique {h h' : String} {x : Nat} (hx : dix.nodeOf[h]? = some x)
    (hx' : dix.nodeOf[h']? = some x) : h = h' := by
  rw [hd.node] at hx hx'
  exact Option.some.inj (hx.symm.trans hx')

/-- A known hash is committed exactly when its node is reached from the known members of
the frontier: unknown members have no parents. -/
theorem reached_iff (hs : DagSpec records dag) {frontier : List String} {h : String} {x : Nat}
    (hx : dix.nodeOf[h]? = some x) :
    ReachedFrom (keptParents records dag.byHash) frontier h ↔
      ReachedFrom dix.parentsOf (frontier.filterMap (dix.nodeOf[·]?)) x := by
  constructor
  · rintro ⟨s, hsf, hr⟩
    induction hr generalizing x with
    | refl => exact .of_mem (List.mem_filterMap.mpr ⟨s, hsf, hx⟩)
    | @tail c h _ hp ih =>
      have hc : c ∈ dag.byHash := by
        by_contra hc
        have hnone : dag.byHash[c]? = none := by simpa using hc
        simp [keptParents, hnone] at hp
      obtain ⟨y, hy⟩ := List.mem_iff_getElem?.mp (hs.mem_topoOrder.mpr hc)
      refine (ih ((hd.node c y).mpr hy)).step ?_
      rw [hd.parentsOf_eq hy]
      exact List.mem_filterMap.mpr ⟨h, hp, hx⟩
  · rintro ⟨s, hsf, hr⟩
    obtain ⟨f, hf, hfs⟩ := List.mem_filterMap.mp hsf
    induction hr generalizing h with
    | refl => exact .of_mem (hd.name_unique hfs hx ▸ hf)
    | @tail y x _ hp ih =>
      rcases Nat.lt_or_ge y dix.parents.length with hlt | hge
      · rw [hd.length_parents] at hlt
        have hy := List.getElem?_eq_getElem hlt
        rw [hd.parentsOf_eq hy] at hp
        obtain ⟨g, hg, hgx⟩ := List.mem_filterMap.mp hp
        refine (ih ((hd.node _ y).mpr hy)).step ?_
        rw [hd.name_unique hx hgx]
        exact hg
      · rw [DagIndex.parentsOf_eq_nil hge] at hp
        cases hp

end DagIndexSpec

/-- The log entries of one partition, each at the node of its hash: the number and the
position in the trust list. -/
structure LogIndex where
  dag : DagIndex
  entries : List (List (Int × Nat))

namespace LogIndex

/-- The entries of a node. -/
def entriesOf (idx : LogIndex) (x : Nat) : List (Int × Nat) := idx.entries.getD x []

/-- Collect the entries of the trust list from position `pos` on. A log entry without a
record or without a node refuses the index. -/
def collect (dix : DagIndex) (records : List CanonValue) (bid : Option String) :
    List RecordTrust → (pos : Nat) → List (List (Int × Nat)) → Option (List (List (Int × Nat)))
  | [], _, entries => some entries
  | rt :: rest, pos, entries =>
    match logPayloadKey rt.brokerRole with
    | none => collect dix records bid rest (pos + 1) entries
    | some key =>
      match records[rt.index]? with
      | none => none
      | some rec =>
        if !inPartition bid rec key then collect dix records bid rest (pos + 1) entries
        else
          match brokerSeq rec key with
          | none => collect dix records bid rest (pos + 1) entries
          | some seq =>
            match dix.nodeOf[rt.contentHash]? with
            | none => none
            | some node =>
              collect dix records bid rest (pos + 1) (entries.modify node (· ++ [(seq, pos)]))

/-- The index of the log of one broker. -/
def build (dix : DagIndex) (recordTrust : List RecordTrust) (records : List CanonValue)
    (bid : Option String) : Option LogIndex :=
  (collect dix records bid recordTrust 0 (.replicate dix.parents.length [])).map (⟨dix, ·⟩)

/-- Whether each node has an entry or a parent that reaches one, parents first. -/
def reach (idx : LogIndex) : List Bool :=
  (List.range idx.dag.parents.length).foldl
    (fun reach x => reach ++
      [!(idx.entriesOf x).isEmpty || (idx.dag.parentsOf x).any (reach.getD · false)]) []

/-- Whether a frontier commits an entry. -/
def commitsAny (idx : LogIndex) (reach : List Bool) (frontier : List String) : Bool :=
  frontier.any fun f => idx.dag.nodeOf[f]?.any (reach.getD · false)

end LogIndex

variable {dix : DagIndex} {bid : Option String}

/-- One step: the entry is none of the log, or it goes to its node. -/
theorem collect_cons {rt : RecordTrust} {rest : List RecordTrust} {pos : Nat}
    {entries out : List (List (Int × Nat))}
    (h : LogIndex.collect dix records bid (rt :: rest) pos entries = some out) :
    (logSeq records bid rt = none ∧
        LogIndex.collect dix records bid rest (pos + 1) entries = some out) ∨
      ∃ seq node, logSeq records bid rt = some seq ∧ dix.nodeOf[rt.contentHash]? = some node ∧
        LogIndex.collect dix records bid rest (pos + 1)
          (entries.modify node (· ++ [(seq, pos)])) = some out := by
  rw [LogIndex.collect] at h
  unfold logSeq
  cases hkey : logPayloadKey rt.brokerRole with
  | none =>
    rw [hkey] at h
    exact Or.inl ⟨rfl, h⟩
  | some key =>
    simp only [hkey] at h
    cases hrec : records[rt.index]? with
    | none => simp [hrec] at h
    | some rec =>
      have hat : recordAt records rt = rec := by simp [recordAt, hrec]
      simp only [hrec] at h
      rw [Option.bind_some, hat]
      cases hp : inPartition bid rec key with
      | false =>
        simp only [hp, Bool.not_false, if_true] at h
        exact Or.inl ⟨by simp, h⟩
      | true =>
        simp only [hp, Bool.not_true, Bool.false_eq_true, if_false] at h
        rw [if_pos rfl]
        cases hseq : brokerSeq rec key with
        | none =>
          rw [hseq] at h
          exact Or.inl ⟨rfl, h⟩
        | some seq =>
          simp only [hseq] at h
          cases hnode : dix.nodeOf[rt.contentHash]? with
          | none => simp [hnode] at h
          | some node =>
            rw [hnode] at h
            exact Or.inr ⟨seq, node, rfl, rfl, h⟩

/-- The entry of a positioned trust entry at node `x`. -/
def nodeEntry (dix : DagIndex) (records : List CanonValue) (bid : Option String) (x : Nat)
    (e : RecordTrust × Nat) : Option (Int × Nat) :=
  if dix.nodeOf[e.1.contentHash]? = some x then (logSeq records bid e.1).map (·, e.2) else none

/-- Adding an entry changes one node. -/
theorem getD_modify_append {entries : List (List (Int × Nat))} {node : Nat}
    (hn : node < entries.length) (e : Int × Nat) (x : Nat) :
    (entries.modify node (· ++ [e])).getD x [] =
      entries.getD x [] ++ if node = x then [e] else [] := by
  rw [List.getD_eq_getElem?_getD, List.getElem?_modify, List.getD_eq_getElem?_getD]
  by_cases hx : node = x
  · subst hx
    simp [hn]
  · simp [hx]

/-- Collecting adds the entries of the records, node by node. -/
theorem collect_eq_some {l : List RecordTrust} {pos : Nat}
    {entries out : List (List (Int × Nat))}
    (hlt : ∀ (h : String) (x : Nat), dix.nodeOf[h]? = some x → x < entries.length)
    (h : LogIndex.collect dix records bid l pos entries = some out) :
    (∀ x, out.getD x [] =
        entries.getD x [] ++ (l.zipIdx pos).filterMap (nodeEntry dix records bid x)) ∧
      ∀ rt ∈ l, logSeq records bid rt ≠ none → dix.nodeOf[rt.contentHash]? ≠ none := by
  induction l generalizing pos entries with
  | nil =>
    obtain rfl : entries = out := by simpa [LogIndex.collect] using h
    simp
  | cons rt rest ih =>
    rw [List.zipIdx_cons]
    rcases collect_cons h with ⟨hseq, h⟩ | ⟨seq, node, hseq, hnode, h⟩
    · obtain ⟨hget, hknown⟩ := ih hlt h
      refine ⟨fun x => ?_, List.forall_mem_cons.mpr ⟨fun hne => absurd hseq hne, hknown⟩⟩
      have hnone : nodeEntry dix records bid x (rt, pos) = none := by simp [nodeEntry, hseq]
      rw [List.filterMap_cons_none hnone, hget]
    · have hn := hlt _ _ hnode
      obtain ⟨hget, hknown⟩ := ih (by simpa using hlt) h
      refine ⟨fun x => ?_, List.forall_mem_cons.mpr ⟨fun _ => by simp [hnode], hknown⟩⟩
      rw [hget, getD_modify_append hn, List.append_assoc]
      by_cases hx : node = x
      · have hsome : nodeEntry dix records bid x (rt, pos) = some (seq, pos) := by
          simp [nodeEntry, hseq, hnode, hx]
        rw [List.filterMap_cons_some hsome, if_pos hx]
        rfl
      · have hnone : nodeEntry dix records bid x (rt, pos) = none := by
          simp [nodeEntry, hnode, hx]
        rw [List.filterMap_cons_none hnone, if_neg hx]
        rfl

/-- What an index says of the log it was built from. -/
structure LogIndexSpec (recordTrust : List RecordTrust) (records : List CanonValue)
    (bid : Option String) (idx : LogIndex) : Prop where
  entries : ∀ x, idx.entriesOf x = recordTrust.zipIdx.filterMap (nodeEntry idx.dag records bid x)
  known : ∀ rt ∈ recordTrust, logSeq records bid rt ≠ none →
    idx.dag.nodeOf[rt.contentHash]? ≠ none

/-- An index that is built describes the log. -/
theorem logIndexSpec {dag : Dag} {recordTrust : List RecordTrust} {idx : LogIndex}
    (hd : DagIndexSpec records dag dix)
    (h : LogIndex.build dix recordTrust records bid = some idx) :
    idx.dag = dix ∧ LogIndexSpec recordTrust records bid idx := by
  obtain ⟨entries, hcollect, rfl⟩ := Option.map_eq_some_iff.mp h
  obtain ⟨hget, hknown⟩ := collect_eq_some
    (fun h x hx => by simpa using hd.node_lt hx) hcollect
  refine ⟨rfl, fun x => ?_, hknown⟩
  have hempty : (List.replicate dix.parents.length ([] : List (Int × Nat))).getD x [] = [] := by
    rw [List.getD_eq_getElem?_getD, List.getElem?_replicate]
    split_ifs <;> rfl
  rw [LogIndex.entriesOf, hget, hempty, List.nil_append]

namespace LogIndexSpec

variable {recordTrust : List RecordTrust} {idx : LogIndex}
  (hi : LogIndexSpec recordTrust records bid idx)
include hi

/-- The entries of a node are the positions of its records. -/
theorem mem_entriesOf {x : Nat} {e : Int × Nat} :
    e ∈ idx.entriesOf x ↔ ∃ rt, recordTrust[e.2]? = some rt ∧
      logSeq records bid rt = some e.1 ∧ idx.dag.nodeOf[rt.contentHash]? = some x := by
  rw [hi.entries, List.mem_filterMap]
  constructor
  · rintro ⟨⟨rt, pos⟩, hmem, he⟩
    rw [nodeEntry] at he
    split_ifs at he with hx
    obtain ⟨seq, hseq, rfl⟩ := Option.map_eq_some_iff.mp he
    exact ⟨rt, List.mem_zipIdx_iff_getElem?.mp hmem, hseq, hx⟩
  · rintro ⟨rt, hrt, hseq, hx⟩
    exact ⟨(rt, e.2), List.mem_zipIdx_iff_getElem?.mpr hrt, by simp [nodeEntry, hseq, hx]⟩

/-- No position occurs twice. -/
theorem nodup_entriesOf (x : Nat) : (idx.entriesOf x).Nodup := by
  rw [hi.entries]
  have hpos : recordTrust.zipIdx.Pairwise (·.2 ≠ ·.2) := by
    have := List.nodup_range' (s := 0) (n := recordTrust.length)
    rw [← List.zipIdx_map_snd] at this
    exact List.pairwise_map.mp this
  refine List.Pairwise.filterMap _ ?_ hpos
  intro e e' hne b hb b' hb'
  simp only [nodeEntry] at hb hb'
  split_ifs at hb hb'
  obtain ⟨_, _, rfl⟩ := Option.map_eq_some_iff.mp hb
  obtain ⟨_, _, rfl⟩ := Option.map_eq_some_iff.mp hb'
  exact fun heq => hne (Prod.ext_iff.mp heq).2

end LogIndexSpec

/-- A node from which a log entry can be reached. -/
def LogIndex.Reaches (idx : LogIndex) (x : Nat) : Prop :=
  ∃ y, Relation.ReflTransGen (fun c p => p ∈ idx.dag.parentsOf c) x y ∧ idx.entriesOf y ≠ []

/-- A node reaches an entry of its own or of a parent. -/
theorem LogIndex.reaches_iff {idx : LogIndex} {x : Nat} :
    idx.Reaches x ↔ idx.entriesOf x ≠ [] ∨ ∃ p ∈ idx.dag.parentsOf x, idx.Reaches p := by
  constructor
  · rintro ⟨y, hr, hy⟩
    rcases hr.cases_head with rfl | ⟨p, hp, hr⟩
    · exact Or.inl hy
    · exact Or.inr ⟨p, hp, y, hr, hy⟩
  · rintro (hx | ⟨p, hp, y, hr, hy⟩)
    · exact ⟨x, .refl, hx⟩
    · exact ⟨y, hr.head hp, hy⟩

/-- The table is right for every node of the index. -/
theorem LogIndex.getD_reach_iff {idx : LogIndex}
    (hlt : ∀ (x : Nat), ∀ p ∈ idx.dag.parentsOf x, p < x) {x : Nat}
    (hx : x < idx.dag.parents.length) : idx.reach.getD x false = true ↔ idx.Reaches x := by
  -- over the nodes below `k` the table built so far is complete
  suffices h : ∀ k, ∀ reach, reach = (List.range k).foldl (fun reach x => reach ++
      [!(idx.entriesOf x).isEmpty || (idx.dag.parentsOf x).any (reach.getD · false)]) [] →
      reach.length = k ∧ ∀ x < k, reach.getD x false = true ↔ idx.Reaches x from
    (h idx.dag.parents.length idx.reach rfl).2 x hx
  intro k
  induction k with
  | zero =>
    rintro _ rfl
    simp
  | succ k ih =>
    intro reach hreach
    rw [List.range_succ, List.foldl_append, List.foldl_cons, List.foldl_nil] at hreach
    obtain ⟨hlen, hget⟩ := ih _ rfl
    generalize (List.range k).foldl _ [] = before at hreach hlen hget
    subst hreach
    refine ⟨by simp [hlen], fun x hx => ?_⟩
    rcases Nat.lt_succ_iff_lt_or_eq.mp hx with hx | rfl
    · rw [List.getD_append _ _ _ _ (by omega)]
      exact hget x hx
    · rw [List.getD_append_right _ _ _ _ (by omega), hlen, Nat.sub_self, List.getD_cons_zero,
        LogIndex.reaches_iff, Bool.or_eq_true, List.any_eq_true]
      refine or_congr (by simp) (exists_congr fun p => and_congr_right fun hp => ?_)
      exact hget p (hlt x p hp)

/-- A frontier commits an entry when one of its known members reaches one. -/
theorem commitsAny_iff {dag : Dag} {idx : LogIndex} (hd : DagIndexSpec records dag idx.dag)
    {frontier : List String} :
    idx.commitsAny idx.reach frontier = true ↔ ∃ y,
      ReachedFrom idx.dag.parentsOf (frontier.filterMap (idx.dag.nodeOf[·]?)) y ∧
        idx.entriesOf y ≠ [] := by
  rw [LogIndex.commitsAny, List.any_eq_true]
  constructor
  · rintro ⟨f, hf, hany⟩
    rw [Option.any_eq_true] at hany
    obtain ⟨x, hx, hreach⟩ := hany
    obtain ⟨y, hr, hy⟩ := (LogIndex.getD_reach_iff hd.parents_lt (hd.node_lt hx)).mp hreach
    exact ⟨y, ⟨x, List.mem_filterMap.mpr ⟨f, hf, hx⟩, hr⟩, hy⟩
  · rintro ⟨y, ⟨x, hx, hr⟩, hy⟩
    obtain ⟨f, hf, hfx⟩ := List.mem_filterMap.mp hx
    refine ⟨f, hf, ?_⟩
    rw [hfx, Option.any_some]
    exact (LogIndex.getD_reach_iff hd.parents_lt (hd.node_lt hfx)).mpr ⟨y, hr, hy⟩

end Averin
