import Averin.Dag.Graph

/-!
# Appended copies

A record list may repeat a record. The index then points to the last copy, and if that
names the same parents the graph is the one before: it is accepted again, with the same
hashes and the same parents.
-/

namespace Averin

open Std (TreeMap TreeSet)

variable {records : List CanonValue} {byHash : TreeMap String Nat}

/-- A hash is read where a record carries one. -/
theorem contentHashOf_isOk_iff (rec : CanonValue) (i : Nat) :
    (∃ ch, contentHashOf rec i = .ok ch) ↔
      ∃ ch, recordHash rec = some ch ∧ (parseSha256 ch).isSome = true := by
  constructor
  · rintro ⟨ch, h⟩
    exact ⟨ch, contentHashOf_eq_ok h⟩
  · rintro ⟨ch, hh, hsha⟩
    unfold recordHash at hh
    refine ⟨ch, ?_⟩
    simp only [contentHashOf, hh]
    rw [if_neg (by simpa [Option.isSome_iff_ne_none] using hsha)]

/-- Records are indexed when they are objects with a digest as their hash. -/
theorem indexRecords_isOk_iff {i c : Nat} {m : TreeMap String Nat} :
    (∃ r, indexRecords records i m c = .ok r) ↔
      ∀ rec ∈ records, rec.asObject.isSome = true ∧
        ∃ ch, recordHash rec = some ch ∧ (parseSha256 ch).isSome = true := by
  induction records generalizing i m c with
  | nil => exact iff_of_true ⟨_, rfl⟩ (by simp)
  | cons rec rest ih =>
    rw [List.forall_mem_cons, indexRecords]
    cases hobj : rec.asObject with
    | none => simp
    | some members =>
      rw [if_neg (by simp)]
      cases hc : contentHashOf rec i with
      | error e =>
        have hno := (contentHashOf_isOk_iff rec i).not.mp (by simp [hc])
        simp [hno]
      | ok ch =>
        have hyes := (contentHashOf_isOk_iff rec i).mp ⟨ch, hc⟩
        dsimp only
        rw [ih]
        simp [hyes]

/-- The parents of a record are linked when each is a known hash. -/
theorem linkParents_isOk_iff {ch : String} {ps seen : List String} {links : Links} :
    (∃ links', linkParents byHash none ch ps seen links = .ok links') ↔
      ∀ p ∈ ps, (parseSha256 p).isSome = true ∧ p ∈ byHash := by
  induction ps generalizing seen links with
  | nil => exact iff_of_true ⟨_, rfl⟩ (by simp)
  | cons p ps ih =>
    rw [List.forall_mem_cons, linkParents]
    cases hsha : parseSha256 p with
    | none => simp
    | some digest =>
      rw [if_neg (by simp)]
      by_cases hp : p ∈ byHash
      · rw [if_neg (by simpa using hp)]
        split_ifs <;> rw [ih] <;> simp [hp]
      · rw [if_pos (by simpa [Bool.eq_false_iff, TreeMap.contains_iff_mem] using hp)]
        simp [linkOutside, hp]

/-- Records link when their parents are digests of the index. -/
theorem linkRecords_isOk_iff {entries : List (String × Nat)} {links : Links} :
    (∃ links', linkRecords records byHash none entries links = .ok links') ↔
      ∀ e ∈ entries, ∃ ps, parentsOf (records.getD e.2 .null) e.2 = .ok ps ∧
        ∀ p ∈ ps, (parseSha256 p).isSome = true ∧ p ∈ byHash := by
  induction entries generalizing links with
  | nil => exact iff_of_true ⟨_, rfl⟩ (by simp)
  | cons e entries ih =>
    obtain ⟨ch, i⟩ := e
    rw [List.forall_mem_cons, linkRecords]
    cases hp : parentsOf (records.getD i .null) i with
    | error e => simp only [reduceCtorEq, exists_false, false_and]
    | ok ps =>
      dsimp only
      have hlinks := @linkParents_isOk_iff byHash ch ps [] links
      cases hl : linkParents byHash none ch ps [] links with
      | error e =>
        simp only [hl, reduceCtorEq, exists_false, false_iff] at hlinks
        simp only [reduceCtorEq, exists_false, Except.ok.injEq, exists_eq_left', hlinks,
          false_and]
      | ok mid =>
        simp only [hl, Except.ok.injEq, exists_eq', true_iff] at hlinks
        dsimp only
        rw [ih]
        simp only [Except.ok.injEq, exists_eq_left']
        exact (and_iff_right hlinks).symm

/-- A build succeeds when records are indexed and linked and some order has parents first. -/
theorem exists_build {collapsed : Nat} (order : List String)
    (hi : indexRecords records 0 ∅ 0 = .ok (byHash, collapsed))
    (hl : ∀ e ∈ byHash.toList, ∃ ps, parentsOf (records.getD e.2 .null) e.2 = .ok ps ∧
      ∀ p ∈ ps, (parseSha256 p).isSome = true ∧ p ∈ byHash)
    (hperm : order.Perm byHash.keys)
    (hfirst : ParentsFirst (resolvedParents records byHash) order) :
    ∃ dag, build records = .ok dag := by
  obtain ⟨links, hlinks⟩ := linkRecords_isOk_iff.mpr hl
  obtain ⟨hall, -⟩ := linkRecords_noLinks hlinks
  obtain ⟨indeg, hinv⟩ := hall.kahn_done
  have hlen := hinv.length_eq TreeMap.nodup_keys hfirst hperm
  rw [TreeMap.length_keys] at hlen
  simp only [build, buildFrom, hi, hlinks]
  rw [if_neg (not_not.mpr hlen)]
  exact ⟨_, rfl⟩

/-- What an accepted build found in its records. -/
theorem build_links {dag : Dag} (h : build records = .ok dag) :
    (∀ rec ∈ records, rec.asObject.isSome = true ∧
        ∃ ch, recordHash rec = some ch ∧ (parseSha256 ch).isSome = true) ∧
      ∀ e ∈ dag.byHash.toList, ∃ ps, parentsOf (records.getD e.2 .null) e.2 = .ok ps ∧
        ∀ p ∈ ps, (parseSha256 p).isSome = true ∧ p ∈ dag.byHash := by
  unfold build buildFrom at h
  cases hi : indexRecords records 0 ∅ 0 with
  | error e => simp [hi] at h
  | ok r =>
    obtain ⟨byHash, collapsed⟩ := r
    simp only [hi] at h
    cases hl : linkRecords records byHash none byHash.toList (noLinks byHash) with
    | error e => simp [hl] at h
    | ok links =>
      simp only [hl] at h
      split_ifs at h
      obtain rfl := Except.ok.inj h
      exact ⟨indexRecords_isOk_iff.mp ⟨_, hi⟩, linkRecords_isOk_iff.mp ⟨_, hl⟩⟩

/-- Copies of listed records that name the parents of the record kept for their hash. -/
def Reexports (records copies : List CanonValue) (byHash : TreeMap String Nat) : Prop :=
  ∀ c ∈ copies, c ∈ records ∧ ∀ (h : String) (i : Nat), recordHash c = some h →
    byHash[h]? = some i →
    c.get "causal_prev_hashes" = (records.getD i .null).get "causal_prev_hashes"

variable {copies : List CanonValue} {dag : Dag}

/-- The last copy is the one that counts. -/
theorem lastIndex_append (h : String) (i : Nat) :
    lastIndex h (records ++ copies) i =
      (lastIndex h copies (i + records.length)).or (lastIndex h records i) := by
  induction records generalizing i with
  | nil => simp [lastIndex]
  | cons rec rest ih =>
    rw [List.cons_append, lastIndex, ih, lastIndex, List.length_cons, Option.or_assoc,
      Nat.add_right_comm, Nat.add_assoc]

/-- The record kept after appending names the parents of the one kept before. -/
theorem kept_append (hs : DagSpec records dag) (hc : Reexports records copies dag.byHash)
    {h : String} {j : Nat} (hj : lastIndex h (records ++ copies) 0 = some j) :
    ∃ i, dag.byHash[h]? = some i ∧
      ((records ++ copies).getD j .null).get "causal_prev_hashes" =
        (records.getD i .null).get "causal_prev_hashes" := by
  rw [lastIndex_append, Nat.zero_add] at hj
  cases hl : lastIndex h copies records.length with
  | some k =>
    rw [hl, Option.some_or] at hj
    obtain rfl := Option.some.inj hj
    obtain ⟨hle, c, hget, hh⟩ := lastIndex_eq_some hl
    have hcm := List.mem_of_getElem? hget
    obtain ⟨i, hi⟩ := Option.isSome_iff_exists.mp (TreeMap.isSome_getElem?_iff_mem.mpr
      (hs.mem_byHash_iff.mpr ⟨c, (hc c hcm).1, hh⟩))
    refine ⟨i, hi, ?_⟩
    rw [List.getD_eq_getElem?_getD, List.getElem?_append_right hle, hget]
    exact (hc c hcm).2 h i hh hi
  | none =>
    rw [hl, Option.none_or] at hj
    refine ⟨j, (hs.index h).trans hj, ?_⟩
    obtain ⟨-, rec, hget, -⟩ := lastIndex_eq_some hj
    rw [Nat.sub_zero] at hget
    have hlt := (List.getElem?_eq_some_iff.mp hget).1
    rw [List.getD_eq_getElem?_getD, List.getElem?_append_left hlt,
      ← List.getD_eq_getElem?_getD]

/-- Copies add no hash. -/
theorem isSome_lastIndex_append (hc : ∀ c ∈ copies, c ∈ records) {h : String} :
    (lastIndex h (records ++ copies) 0).isSome = true ↔ (lastIndex h records 0).isSome = true := by
  rw [isSome_lastIndex_iff, isSome_lastIndex_iff]
  constructor
  · rintro ⟨rec, hrec, hh⟩
    rcases List.mem_append.mp hrec with hrec | hrec
    · exact ⟨rec, hrec, hh⟩
    · exact ⟨rec, hc rec hrec, hh⟩
  · rintro ⟨rec, hrec, hh⟩
    exact ⟨rec, List.mem_append_left _ hrec, hh⟩

/-- The parents depend on one member only. -/
theorem causalPrevHashes_congr {r r' : CanonValue}
    (h : r.get "causal_prev_hashes" = r'.get "causal_prev_hashes") :
    causalPrevHashes r = causalPrevHashes r' := by
  unfold causalPrevHashes
  rw [h]

theorem parentsOf_congr {r r' : CanonValue} {i j : Nat} {ps : List String}
    (h : r.get "causal_prev_hashes" = r'.get "causal_prev_hashes")
    (hp : parentsOf r i = .ok ps) : parentsOf r' j = .ok ps := by
  unfold parentsOf at hp ⊢
  rw [← h]
  cases hv : r.get "causal_prev_hashes" with
  | none => simpa [hv] using hp
  | some v =>
    simp only [hv] at hp ⊢
    cases hb : v.asArray.bind stringItems with
    | none => simp [hb] at hp
    | some out => simpa [hb] using hp

/-- A list with copies appended is accepted again. -/
theorem exists_build_append (h : build records = .ok dag)
    (hc : Reexports records copies dag.byHash) :
    ∃ dag', build (records ++ copies) = .ok dag' := by
  have hs := build_eq_ok h
  obtain ⟨hobj, hlinks⟩ := build_links h
  have hobj' : ∀ rec ∈ records ++ copies, rec.asObject.isSome = true ∧
      ∃ ch, recordHash rec = some ch ∧ (parseSha256 ch).isSome = true := by
    intro rec hrec
    rcases List.mem_append.mp hrec with hrec | hrec
    · exact hobj rec hrec
    · exact hobj rec (hc rec hrec).1
  obtain ⟨⟨byHash, collapsed⟩, hi⟩ :=
    (indexRecords_isOk_iff (i := 0) (c := 0) (m := ∅)).mpr hobj'
  have hindex : ∀ k, byHash[k]? = lastIndex k (records ++ copies) 0 := by
    intro k
    rw [(indexRecords_eq_ok hi).2]
    simp
  have hmem : ∀ k, k ∈ byHash ↔ k ∈ dag.byHash := by
    intro k
    rw [← TreeMap.isSome_getElem?_iff_mem, ← TreeMap.isSome_getElem?_iff_mem, hindex, hs.index,
      isSome_lastIndex_append fun c hcm => (hc c hcm).1]
  refine exists_build dag.topoOrder hi ?_ ?_ ?_
  · rintro ⟨ch, j⟩ he
    have hget := TreeMap.mem_toList_iff_getElem?_eq_some.mp he
    rw [hindex] at hget
    obtain ⟨i, hi', hsame⟩ := kept_append hs hc hget
    obtain ⟨ps, hps, hall⟩ := hlinks (ch, i) (TreeMap.mem_toList_iff_getElem?_eq_some.mpr hi')
    exact ⟨ps, parentsOf_congr hsame.symm hps,
      fun p hp => ⟨(hall p hp).1, (hmem p).mpr (hall p hp).2⟩⟩
  · refine hs.topo_perm.trans ((List.perm_ext_iff_of_nodup TreeMap.nodup_keys
      TreeMap.nodup_keys).mpr fun k => ?_)
    rw [TreeMap.mem_keys, TreeMap.mem_keys, hmem]
  · refine hs.topo_first.mono fun c p hp => ?_
    rw [hs.mem_resolvedParents]
    cases hget : byHash[c]? with
    | none => simp [resolvedParents, hget] at hp
    | some j =>
      simp only [resolvedParents, hget] at hp
      rw [hindex] at hget
      obtain ⟨i, hi', hsame⟩ := kept_append hs hc hget
      rw [parentsAt, mem_freshParents, causalPrevHashes_congr hsame] at hp
      simp only [keptParents, hi']
      exact hp.1

section Same

variable {dag' : Dag} (hs : DagSpec records dag) (hs' : DagSpec (records ++ copies) dag')
  (hc : Reexports records copies dag.byHash)
include hs hs' hc

/-- Both graphs index the same hashes. -/
theorem mem_byHash_append {h : String} : h ∈ dag'.byHash ↔ h ∈ dag.byHash := by
  rw [← TreeMap.isSome_getElem?_iff_mem, ← TreeMap.isSome_getElem?_iff_mem, hs'.index, hs.index,
    isSome_lastIndex_append fun c hcm => (hc c hcm).1]

/-- The graph is the same. -/
theorem keptParents_append :
    keptParents (records ++ copies) dag'.byHash = keptParents records dag.byHash := by
  funext h
  unfold keptParents
  cases hj : dag'.byHash[h]? with
  | none =>
    have hnot : h ∉ dag.byHash := by
      rw [← mem_byHash_append hs hs' hc]
      simpa using hj
    have hnone : dag.byHash[h]? = none := by simpa using hnot
    rw [hnone]
  | some j =>
    rw [hs'.index] at hj
    obtain ⟨i, hi, hsame⟩ := kept_append hs hc hj
    rw [hi]
    exact causalPrevHashes_congr hsame

end Same

end Averin
