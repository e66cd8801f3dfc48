import Averin.Core.Sorting
import Mathlib.Data.List.TakeWhile
import Mathlib.Data.Prod.Lex

/-!
# Sorted lists that grow

A list in strict key order is determined by its members. When new elements are merged in,
everything below the least of them keeps its place, so only the tail is sorted again. A
stable sort of a list in position order is a sort by key and position.
-/

namespace Averin

variable {α κ : Type*} [LinearOrder κ] (key : α → κ)

/-- Strict key order leaves one list for a set of members. -/
theorem eq_of_mem_iff_of_sorted {l₁ l₂ : List α} (h : ∀ a, a ∈ l₁ ↔ a ∈ l₂)
    (h₁ : l₁.Pairwise (key · < key ·)) (h₂ : l₂.Pairwise (key · < key ·)) : l₁ = l₂ := by
  have hnodup : ∀ {l : List α}, l.Pairwise (key · < key ·) → (l.map key).Nodup :=
    fun hl => List.pairwise_map.mpr (hl.imp ne_of_lt)
  have hperm : l₁.Perm l₂ :=
    (List.perm_ext_iff_of_nodup (hnodup h₁).of_map (hnodup h₂).of_map).mpr h
  exact eq_of_perm_of_sorted key hperm (hnodup h₁) (h₁.imp le_of_lt) (h₂.imp le_of_lt)

/-- Sorting distinct keys gives strict key order. -/
theorem pairwise_lt_insertionSort {l : List α} (hn : (l.map key).Nodup) :
    (l.insertionSort (key · ≤ key ·)).Pairwise (key · < key ·) := by
  have hperm := List.perm_insertionSort (key · ≤ key ·) l
  have hle : (l.insertionSort (key · ≤ key ·)).Pairwise (key · ≤ key ·) :=
    List.pairwise_insertionSort (key · ≤ key ·) l
  have hne := List.pairwise_map.mp ((hperm.map key).nodup_iff.mpr hn)
  exact (hle.and hne).imp fun h => lt_of_le_of_ne h.1 h.2

/-- The elements below a key at the front of a list. -/
def partitionPoint (a : α) (l : List α) : Nat := (l.takeWhile (key · < key a)).length

/-- What stands before the point is below the key. -/
theorem take_partitionPoint (a : α) (l : List α) :
    l.take (partitionPoint key a l) = l.takeWhile (key · < key a) := by
  have hprefix := List.takeWhile_prefix (l := l) (key · < key a)
  exact (List.prefix_iff_eq_take.mp hprefix).symm

theorem partitionPoint_le (a : α) (l : List α) : partitionPoint key a l ≤ l.length :=
  (List.takeWhile_sublist _).length_le

/-- Sorting only the tail from the least new element on is sorting everything. -/
theorem pairwise_lt_resort {l add : List α} {a : α} (hl : l.Pairwise (key · < key ·))
    (hn : ((l ++ add).map key).Nodup) (ha : ∀ b ∈ add, key a ≤ key b) :
    (l.take (partitionPoint key a l) ++
      (l.drop (partitionPoint key a l) ++ add).insertionSort (key · ≤ key ·)).Pairwise
      (key · < key ·) := by
  have hsub : (l.drop (partitionPoint key a l) ++ add).Sublist (l ++ add) :=
    (List.drop_sublist _ _).append_right add
  refine List.pairwise_append.mpr ⟨hl.sublist (List.take_sublist _ _),
    pairwise_lt_insertionSort key (hn.sublist (hsub.map key)), ?_⟩
  intro x hx y hy
  rw [(List.perm_insertionSort _ _).mem_iff, List.mem_append] at hy
  rcases hy with hy | hy
  · rw [← List.take_append_drop (partitionPoint key a l) l] at hl
    exact (List.pairwise_append.mp hl).2.2 x hx y hy
  · rw [take_partitionPoint] at hx
    have hlt : key x < key a := by simpa using List.mem_takeWhile_imp hx
    exact hlt.trans_le (ha y hy)

/-- The re-sorted list has the old and the new members. -/
theorem mem_resort_iff {l add : List α} {p : Nat} {x : α} :
    x ∈ l.take p ++ (l.drop p ++ add).insertionSort (key · ≤ key ·) ↔ x ∈ l ∨ x ∈ add := by
  rw [List.mem_append, (List.perm_insertionSort _ _).mem_iff, List.mem_append, ← or_assoc,
    ← List.mem_append, List.take_append_drop]

variable {ι : Type*} [LinearOrder ι] (pos : α → ι)

/-- Key first, then position. -/
def keyThenPos (a : α) : κ ×ₗ ι := toLex (key a, pos a)

/-- An element inserted in front of all equal keys keeps key and position order. -/
theorem pairwise_orderedInsert_stable {a : α} {l : List α} (ha : ∀ b ∈ l, pos a < pos b)
    (hl : l.Pairwise (keyThenPos key pos · < keyThenPos key pos ·)) :
    (l.orderedInsert (key · ≤ key ·) a).Pairwise
      (keyThenPos key pos · < keyThenPos key pos ·) := by
  induction l with
  | nil => simp
  | cons b l ih =>
    obtain ⟨hb, hl'⟩ := List.pairwise_cons.mp hl
    rw [List.orderedInsert]
    have hpos := ha b List.mem_cons_self
    split_ifs with hle
    · have hab : keyThenPos key pos a < keyThenPos key pos b := by
        rcases lt_or_eq_of_le hle with hlt | heq
        · exact Prod.Lex.left _ _ hlt
        · simp only [keyThenPos, heq]
          exact Prod.Lex.right _ hpos
      refine List.pairwise_cons.mpr ⟨?_, hl⟩
      exact List.forall_mem_cons.mpr ⟨hab, fun c hc => hab.trans (hb c hc)⟩
    · refine List.pairwise_cons.mpr ⟨fun c hc => ?_, ih (fun c hc => ha c (by simp [hc])) hl'⟩
      rcases (List.mem_orderedInsert _).mp hc with rfl | hc
      · exact Prod.Lex.left _ _ (not_le.mp hle)
      · exact hb c hc

/-- A stable sort by key of a list in position order is in key and position order. -/
theorem pairwise_insertionSort_stable {l : List α} (hl : l.Pairwise (pos · < pos ·)) :
    (l.insertionSort (key · ≤ key ·)).Pairwise
      (keyThenPos key pos · < keyThenPos key pos ·) := by
  induction l with
  | nil => simp
  | cons a l ih =>
    obtain ⟨ha, hl'⟩ := List.pairwise_cons.mp hl
    refine pairwise_orderedInsert_stable key pos (fun b hb => ?_) (ih hl')
    exact ha b ((List.perm_insertionSort _ _).mem_iff.mp hb)

end Averin
