import Averin.Core.Sorting
import Averin.Canon.Text

/-!
# Ordering members by UTF-16 code units

The serializer and the duplicate check both run the same merge sort over positions.
It is the stable merge sort of the standard library, so its permutation and order
laws carry over, and a repeated key always lands beside its twin.
-/

namespace Averin

/-- Strict lexicographic order on code-unit sequences; a proper prefix sorts first. -/
def unitsLt : List UInt16 → List UInt16 → Bool
  | x :: a, y :: b => if x = y then unitsLt a b else x < y
  | [], _ :: _ => true
  | _, [] => false

/-- The sort key stored at a position. -/
def unitsAt (units : List (List UInt16)) (p : Nat) : List UInt16 := units.getD p []

/-- Merge two sorted position runs, preferring the left one on ties. -/
def mergeByUnits (units : List (List UInt16)) : List Nat → List Nat → List Nat
  | [], right => right
  | left, [] => left
  | l :: left, r :: right =>
    if unitsLt (unitsAt units r) (unitsAt units l) then
      r :: mergeByUnits units (l :: left) right
    else l :: mergeByUnits units left (r :: right)
termination_by left right => left.length + right.length

/-- Stable merge sort of `pos` by the keys stored there: split at the middle, sort both
halves, merge. -/
def sortByUnits (units : List (List UInt16)) (pos : List Nat) : List Nat :=
  if pos.length ≤ 1 then pos
  else
    mergeByUnits units
      (sortByUnits units (pos.take (pos.length - pos.length / 2)))
      (sortByUnits units (pos.drop (pos.length - pos.length / 2)))
termination_by pos.length
decreasing_by all_goals simp only [List.length_take, List.length_drop]; omega

/-- `[0, 1, …, n-1]`. -/
def positions (n : Nat) : List Nat := List.range n

/-- The least index whose key equals an earlier key, or the number of keys. -/
def firstRepeat (units : List (List UInt16)) : Nat :=
  (neighbours (sortByUnits units (positions units.length))).foldl
    (fun first p =>
      if unitsAt units p.1 == unitsAt units p.2 && p.2 < first then p.2 else first)
    units.length

/-- `s`, one code unit per byte. -/
def widen (s : List UInt8) : List UInt16 := s.map UInt8.toUInt16

/-- Code units as numbers, where the library has a linear order. -/
def unitsKey (u : List UInt16) : List Nat := u.map UInt16.toNat

theorem unitsKey_injective : Function.Injective unitsKey :=
  List.map_injective_iff.mpr fun _ _ h => UInt16.toNat_inj.mp h

/-- One list of units is below another as its key is. -/
theorem unitsLt_iff (a b : List UInt16) : unitsLt a b = true ↔ unitsKey a < unitsKey b := by
  induction a generalizing b with
  | nil => cases b <;> simp [unitsLt, unitsKey]
  | cons x a ih =>
    cases b with
    | nil => simp [unitsLt, unitsKey]
    | cons y b =>
      simp only [unitsLt, unitsKey, List.map_cons, List.cons_lt_cons_iff, UInt16.toNat_inj]
      by_cases h : x = y
      · simpa [h, unitsKey] using ih b
      · simp [h, UInt16.lt_iff_toNat_lt]

/-- The merge prefers the left position exactly when its key is not above the right one. -/
def unitsLe (units : List (List UInt16)) (p q : Nat) : Bool :=
  !unitsLt (unitsAt units q) (unitsAt units p)

/-- The order of positions is that of the keys of their units. -/
theorem unitsLe_iff (units : List (List UInt16)) (p q : Nat) :
    unitsLe units p q = true ↔ unitsKey (unitsAt units p) ≤ unitsKey (unitsAt units q) := by
  rw [unitsLe, Bool.not_eq_true', ← not_lt, ← unitsLt_iff, Bool.not_eq_true]

/-- The merge is that of the library. -/
theorem mergeByUnits_eq_merge (units : List (List UInt16)) (left right : List Nat) :
    mergeByUnits units left right = left.merge right (unitsLe units) := by
  fun_induction mergeByUnits units left right with
  | case1 right => simp
  | case2 left _ => simp
  | case3 l left r right h ih =>
    rw [List.cons_merge_cons, if_neg (by simp [unitsLe, h]), ih]
  | case4 l left r right h ih =>
    rw [List.cons_merge_cons, if_pos (by simp [unitsLe, h]), ih]

/-- The program's sort is the library's stable merge sort. -/
theorem sortByUnits_eq_mergeSort (units : List (List UInt16)) (pos : List Nat) :
    sortByUnits units pos = pos.mergeSort (unitsLe units) := by
  fun_induction sortByUnits units pos with
  | case1 pos h =>
    match pos, h with
    | [], _ => simp
    | [p], _ => simp
  | case2 pos h ih1 ih2 =>
    match pos, h with
    | [], h => simp at h
    | [p], h => simp at h
    | a :: b :: pos, _ =>
      have hm : (a :: b :: pos).length - (a :: b :: pos).length / 2 =
          ((a :: b :: pos).length + 1) / 2 := by omega
      rw [ih1, ih2, mergeByUnits_eq_merge, List.mergeSort]
      simp only [List.MergeSort.Internal.splitInTwo, List.splitAt_eq, hm]

theorem sortByUnits_perm (units : List (List UInt16)) (pos : List Nat) :
    (sortByUnits units pos).Perm pos := by
  rw [sortByUnits_eq_mergeSort]
  exact List.mergeSort_perm _ _

/-- The positions are in the order of their units. -/
theorem sortByUnits_sorted (units : List (List UInt16)) (pos : List Nat) :
    (sortByUnits units pos).Pairwise
      fun p q => unitsKey (unitsAt units p) ≤ unitsKey (unitsAt units q) := by
  rw [sortByUnits_eq_mergeSort]
  refine (List.pairwise_mergeSort ?_ ?_ pos).imp fun {p q} h => (unitsLe_iff units p q).mp h
  · intro p q r hpq hqr
    rw [unitsLe_iff] at *
    exact hpq.trans hqr
  · intro p q
    rw [Bool.or_eq_true, unitsLe_iff, unitsLe_iff]
    exact le_total _ _

/-- Reading the keys off every position gives the key list back. -/
theorem map_unitsAt_positions (units : List (List UInt16)) :
    (positions units.length).map (unitsAt units) = units := by
  apply List.ext_getElem
  · simp [positions]
  · intro i h1 h2
    simp [positions, unitsAt, List.getD_eq_getElem?_getD, h2]

/-- The keys are distinct exactly when no neighbours of the sorted positions share one. -/
theorem nodup_iff_neighbours_sortByUnits (units : List (List UInt16)) :
    units.Nodup ↔ ∀ p ∈ neighbours (sortByUnits units (positions units.length)),
      unitsAt units p.1 ≠ unitsAt units p.2 := by
  have hs := nodup_keys_iff_neighbours (fun p => unitsKey (unitsAt units p))
    (sortByUnits_sorted units (positions units.length))
  have hp : ((sortByUnits units (positions units.length)).map (unitsAt units)).Perm units := by
    simpa only [map_unitsAt_positions] using
      (sortByUnits_perm units (positions units.length)).map (unitsAt units)
  have hk : (units.map unitsKey).Nodup ↔ units.Nodup :=
    List.nodup_map_iff unitsKey_injective
  rw [← hk, ← (hp.map unitsKey).nodup_iff, List.map_map]
  exact hs.trans (forall₂_congr fun p _ => not_congr unitsKey_injective.eq_iff)

/-- The duplicate check fires exactly on a repeated key. -/
theorem firstRepeat_lt_iff (units : List (List UInt16)) :
    firstRepeat units < units.length ↔ ¬ units.Nodup := by
  have hmem : ∀ p ∈ neighbours (sortByUnits units (positions units.length)),
      p.2 < units.length := by
    intro p hp
    have h2 : p.2 ∈ sortByUnits units (positions units.length) :=
      List.mem_of_mem_tail (List.of_mem_zip hp).2
    exact List.mem_range.mp ((sortByUnits_perm units _).mem_iff.mp h2)
  rw [firstRepeat, foldl_least_lt_iff
    (fun p : Nat × Nat => unitsAt units p.1 == unitsAt units p.2) Prod.snd,
    nodup_iff_neighbours_sortByUnits]
  push Not
  constructor
  · rintro (h | ⟨p, hp, hm, _⟩)
    · exact absurd h (lt_irrefl _)
    · exact ⟨p, hp, by simpa using hm⟩
  · rintro ⟨p, hp, hm⟩
    exact Or.inr ⟨p, hp, by simpa using hm, hmem p hp⟩

theorem widen_injective : Function.Injective widen :=
  List.map_injective_iff.mpr fun a b h => by
    have := congrArg UInt16.toNat h
    simpa [UInt8.toNat_inj] using this

end Averin
