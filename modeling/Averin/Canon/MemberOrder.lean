import Averin.Canon.Parse

/-!
# The order of the members and their repeats

Sorting positions by code units keeps the positions of one key in their order. So the last of a
run of equal keys are exactly those that repeat an earlier one, and the least of them is the
member that is refused.
-/

namespace Averin

variable {units : List (List UInt16)} {pos : List Nat}

/-- The order of the members is transitive. -/
theorem unitsLe_trans (p q r : Nat) (hpq : unitsLe units p q = true)
    (hqr : unitsLe units q r = true) : unitsLe units p r = true := by
  rw [unitsLe_iff] at *
  exact hpq.trans hqr

theorem unitsLe_total (p q : Nat) : (unitsLe units p q || unitsLe units q p) = true := by
  rw [Bool.or_eq_true, unitsLe_iff, unitsLe_iff]
  exact le_total _ _

/-- The positions of one key come out as they went in. -/
theorem filter_sortByUnits (u : List UInt16) :
    (sortByUnits units pos).filter (unitsAt units · = u) = pos.filter (unitsAt units · = u) := by
  have hsorted : (pos.filter (unitsAt units · = u)).Pairwise fun p q => unitsLe units p q := by
    refine List.pairwise_of_forall_mem_list fun p hp q hq => ?_
    have hpu := of_decide_eq_true (List.mem_filter.mp hp).2
    have hqu := of_decide_eq_true (List.mem_filter.mp hq).2
    rw [unitsLe_iff, hpu, hqu]
  have hsub := List.sublist_mergeSort unitsLe_trans unitsLe_total hsorted List.filter_sublist
  rw [← sortByUnits_eq_mergeSort] at hsub
  have hfilter := hsub.filter (unitsAt units · = u)
  rw [List.filter_filter] at hfilter
  simp only [Bool.and_self] at hfilter
  refine (hfilter.eq_of_length ?_).symm
  exact ((sortByUnits_perm units pos).filter _).length_eq.symm

/-- A position whose key an earlier position has. -/
def Repeats (units : List (List UInt16)) (j : Nat) : Prop :=
  j < units.length ∧ ∃ i < j, unitsAt units i = unitsAt units j

/-- In the sorted positions, every earlier position of a key stands before the later ones. -/
theorem pairwise_sortByUnits_positions :
    (sortByUnits units (positions units.length)).Pairwise fun p q =>
      unitsAt units p = unitsAt units q → p < q := by
  rw [List.pairwise_iff_forall_sublist]
  intro p q hsub heq
  have hfilter := hsub.filter (unitsAt units · = unitsAt units q)
  rw [filter_sortByUnits] at hfilter
  simp only [List.filter_cons, heq, decide_true, if_true, List.filter_nil] at hfilter
  have hrange : (positions units.length).Pairwise (· < ·) := List.pairwise_lt_range
  exact List.pairwise_pair.mp ((hrange.sublist List.filter_sublist).sublist hfilter)

/-- Neighbours with one key: the right one repeats. And a repeat is the right one of such
neighbours. -/
theorem repeats_iff {j : Nat} :
    Repeats units j ↔ ∃ p ∈ neighbours (sortByUnits units (positions units.length)),
      unitsAt units p.1 = unitsAt units p.2 ∧ p.2 = j := by
  have hperm := sortByUnits_perm units (positions units.length)
  have hsorted := sortByUnits_sorted units (positions units.length)
  have hstable := @pairwise_sortByUnits_positions units
  generalize hl : sortByUnits units (positions units.length) = l at *
  constructor
  · rintro ⟨hj, i, hij, heq⟩
    have hmem : ∀ k, k < units.length → k ∈ l := fun k hk =>
      hperm.mem_iff.mpr (List.mem_range.mpr hk)
    obtain ⟨before, after, hsplit⟩ := List.append_of_mem (hmem j hj)
    have hi : i ∈ before := by
      have hin := hmem i (hij.trans hj)
      rw [hsplit] at hin hstable
      rcases List.mem_append.mp hin with h | h
      · exact h
      · rcases List.mem_cons.mp h with rfl | h
        · exact absurd hij (lt_irrefl _)
        · have hcons := (List.pairwise_append.mp hstable).2.1
          exact absurd ((List.pairwise_cons.mp hcons).1 i h heq.symm) (by omega)
    obtain ⟨init, last, rfl⟩ : ∃ init last, before = init ++ [last] :=
      ⟨_, _, (List.dropLast_append_getLast (List.ne_nil_of_mem hi)).symm⟩
    refine ⟨(last, j), ?_, ?_, rfl⟩
    · have hchain := (forall_neighbours_iff_isChain (fun a b => (a, b) ∈ neighbours l) l).mp
        fun p hp => hp
      conv at hchain => arg 2; rw [hsplit, List.append_assoc, List.singleton_append]
      exact (List.isChain_append_cons_cons.mp hchain).2.1
    · -- between the earlier position and the later one, every key is the same
      rw [hsplit] at hsorted
      obtain ⟨hbefore, -, hcross⟩ := List.pairwise_append.mp hsorted
      have hle := hcross last (by simp) j List.mem_cons_self
      have hge : unitsKey (unitsAt units i) ≤ unitsKey (unitsAt units last) := by
        rcases List.mem_append.mp hi with h | h
        · exact (List.pairwise_append.mp hbefore).2.2 i h last (by simp)
        · rw [List.mem_singleton.mp h]
      rw [heq] at hge
      exact unitsKey_injective (le_antisymm hle hge)
  · rintro ⟨⟨i, j⟩, hmem, heq, rfl⟩
    have hin := List.of_mem_zip hmem
    have hj : j ∈ l := List.mem_of_mem_tail hin.2
    have hlt := (forall_neighbours_iff_isChain _ l).mpr hstable.isChain (i, j) hmem heq
    exact ⟨List.mem_range.mp (hperm.mem_iff.mp hj), i, hlt, heq⟩

/-- The duplicate check names the least position whose key repeats, if there is one. -/
theorem firstRepeat_eq_iff {j : Nat} (hj : j < units.length) :
    firstRepeat units = j ↔ IsLeast { k | Repeats units k } j := by
  have hlt : ∀ n, firstRepeat units < n ↔ units.length < n ∨ ∃ k, Repeats units k ∧ k < n := by
    intro n
    rw [firstRepeat, foldl_least_lt_iff
      (fun p : Nat × Nat => unitsAt units p.1 == unitsAt units p.2) Prod.snd]
    refine or_congr_right ?_
    constructor
    · rintro ⟨p, hp, hmark, hn⟩
      exact ⟨p.2, repeats_iff.mpr ⟨p, hp, by simpa using hmark, rfl⟩, hn⟩
    · rintro ⟨k, hk, hn⟩
      obtain ⟨p, hp, heq, rfl⟩ := repeats_iff.mp hk
      exact ⟨p, hp, by simpa using heq, hn⟩
  constructor
  · rintro rfl
    constructor
    · obtain h | ⟨k, hk, hle⟩ := (hlt (firstRepeat units + 1)).mp (Nat.lt_succ_self _)
      · omega
      · have hge : ¬ firstRepeat units < firstRepeat units := lt_irrefl _
        rw [hlt, not_or] at hge
        have : ¬ k < firstRepeat units := fun h => hge.2 ⟨k, hk, h⟩
        obtain rfl : k = firstRepeat units := by omega
        exact hk
    · intro k hk
      by_contra hlt'
      exact lt_irrefl _ ((hlt _).mpr (Or.inr ⟨k, hk, not_le.mp hlt'⟩))
  · rintro ⟨hmem, hleast⟩
    apply le_antisymm
    · exact Nat.lt_succ_iff.mp ((hlt (j + 1)).mpr (Or.inr ⟨j, hmem, Nat.lt_succ_self j⟩))
    · by_contra hgt
      obtain h | ⟨k, hk, hkj⟩ := (hlt j).mp (not_le.mp hgt)
      · omega
      · exact absurd (hleast hk) (not_le.mpr hkj)

/-- A position whose text an earlier position has. -/
def RepeatsText (texts : List String) (j : Nat) : Prop :=
  ∃ i < j, ∃ t, texts[i]? = some t ∧ texts[j]? = some t

/-- A repeated text is a repeated list of units. -/
theorem repeats_widen_iff {texts : List String} {j : Nat} :
    Repeats (texts.map fun t => widen (bytes t)) j ↔ RepeatsText texts j := by
  have hat : ∀ {k t}, texts[k]? = some t →
      unitsAt (texts.map fun t => widen (bytes t)) k = widen (bytes t) := by
    intro k t hk
    rw [unitsAt, List.getD_eq_getElem?_getD, List.getElem?_map, hk]
    rfl
  constructor
  · rintro ⟨hj, i, hij, heq⟩
    rw [List.length_map] at hj
    have hi := List.getElem?_eq_getElem (hij.trans hj)
    have hj' := List.getElem?_eq_getElem hj
    rw [hat hi, hat hj'] at heq
    refine ⟨i, hij, texts[j], ?_, hj'⟩
    rw [hi, bytes_injective (widen_injective heq)]
  · rintro ⟨i, hij, t, hi, hj⟩
    refine ⟨?_, i, hij, ?_⟩
    · rw [List.length_map]
      exact (List.getElem?_eq_some_iff.mp hj).1
    · rw [hat hi, hat hj]

/-- The first repeat is the least position that repeats a text. -/
theorem firstRepeat_widen_eq_iff {texts : List String} {j : Nat} (hj : j < texts.length) :
    firstRepeat (texts.map fun t => widen (bytes t)) = j ↔
      IsLeast { k | RepeatsText texts k } j := by
  rw [firstRepeat_eq_iff (by rwa [List.length_map])]
  simp only [repeats_widen_iff]

/-- The sort of the members returns their positions in the order of the code units of their keys,
equal keys in place. The duplicate check fires exactly if two keys are equal once normalized, and
names the least position that repeats an earlier key; an object that repeats a key is refused at
that position. -/
theorem sortByUnits_exact (N : Normalizer) (units : List (List UInt16)) (pos : List Nat)
    (keys : List String) (scan : ObjectScan) :
    ((sortByUnits units pos).Perm pos ∧
      (sortByUnits units pos).Pairwise
        (fun p q => unitsKey (unitsAt units p) ≤ unitsKey (unitsAt units q)) ∧
      (∀ u, (sortByUnits units pos).filter (unitsAt units · = u) =
        pos.filter (unitsAt units · = u)) ∧
      ∀ key, utf16Units (bytes key) = utf16 key.toList) ∧
    (let normalized := keys.map (nfc N)
      let dup := firstRepeat (normalized.map fun key => widen (bytes key))
      (dup < keys.length ↔ ¬ normalized.Nodup) ∧
        ∀ j < keys.length, dup = j ↔ IsLeast { k | RepeatsText normalized k } j) ∧
    ((scan.keys.map (·.1)).Nodup → finishObject scan =
      match scan.fault with
      | some e => .error e
      | none => .ok (.obj scan.members, scan.i)) ∧
    ∀ j key start, scan.keys[j]? = some (key, start) →
      IsLeast { k | RepeatsText (scan.keys.map (·.1)) k } j →
        finishObject scan = .error (.duplicateKey key start) := by
  have hcount := firstRepeat_lt_iff (scan.keys.map fun k => widen (bytes k.1))
  refine ⟨⟨sortByUnits_perm units pos, sortByUnits_sorted units pos, filter_sortByUnits,
    utf16Units_bytes⟩, ⟨?_, fun j hj => ?_⟩, fun hnodup => ?_, fun j key start hget hleast => ?_⟩
  · have hlt := firstRepeat_lt_iff ((keys.map (nfc N)).map fun key => widen (bytes key))
    rw [List.length_map, List.length_map] at hlt
    rw [hlt, List.nodup_map_iff fun a b h => bytes_injective (widen_injective h)]
  · exact firstRepeat_widen_eq_iff (by rwa [List.length_map])
  · have hwidened : (scan.keys.map fun k => widen (bytes k.1)).Nodup := by
      have hmap := (List.nodup_map_iff fun a b h => bytes_injective (widen_injective h)).mpr hnodup
      rwa [List.map_map] at hmap
    rw [List.length_map, iff_false_right (not_not.mpr hwidened), not_lt] at hcount
    have hnone := List.getElem?_eq_none hcount
    cases hfault : scan.fault with
    | none => simp only [finishObject, hnone, hfault]
    | some e => simp only [finishObject, hnone, hfault]
  · have hj := (List.getElem?_eq_some_iff.mp hget).1
    have hdup := (firstRepeat_widen_eq_iff (by rwa [List.length_map])).mpr hleast
    rw [List.map_map] at hdup
    have hdup' : firstRepeat (scan.keys.map fun k => widen (bytes k.1)) = j := hdup
    rw [finishObject, hdup', hget]

end Averin
