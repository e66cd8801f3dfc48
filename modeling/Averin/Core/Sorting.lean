import Mathlib.Data.List.Sort
import Mathlib.Data.List.Lex
import Mathlib.Tactic

/-!
# Sorting by a key

Facts about lists ordered by a key in a linear order. A sorted list shows a repeated
key on two neighbours, and a list without repeated keys has one sorted arrangement.
-/

namespace Averin

variable {α κ : Type*} [LinearOrder κ] (key : α → κ)

/-- The neighbouring pairs of a list. -/
def neighbours (l : List α) : List (α × α) := l.zip l.tail

@[simp] theorem neighbours_nil : neighbours ([] : List α) = [] := rfl

@[simp] theorem neighbours_singleton (a : α) : neighbours [a] = [] := rfl

@[simp] theorem neighbours_cons_cons (a b : α) (l : List α) :
    neighbours (a :: b :: l) = (a, b) :: neighbours (b :: l) := rfl

/-- A relation on all neighbours is a chain. -/
theorem forall_neighbours_iff_isChain (r : α → α → Prop) (l : List α) :
    (∀ p ∈ neighbours l, r p.1 p.2) ↔ l.IsChain r := by
  induction l with
  | nil => simp
  | cons a l ih =>
    cases l with
    | nil => simp
    | cons b l =>
      rw [neighbours_cons_cons, List.forall_mem_cons, List.isChain_cons_cons, ih]

/-- In key order, keys are distinct exactly when no two neighbours share one. -/
theorem nodup_keys_iff_neighbours {l : List α} (hl : l.Pairwise (key · ≤ key ·)) :
    (l.map key).Nodup ↔ ∀ p ∈ neighbours l, key p.1 ≠ key p.2 := by
  constructor
  · intro h
    exact (forall_neighbours_iff_isChain (fun a b => key a ≠ key b) l).mpr
      (List.pairwise_map.mp h).isChain
  · intro h
    have hle := (forall_neighbours_iff_isChain (fun a b => key a ≤ key b) l).mpr hl.isChain
    have hlt : (l.map key).IsChain (· < ·) := by
      rw [List.isChain_map, ← forall_neighbours_iff_isChain (fun a b => key a < key b)]
      exact fun p hp => lt_of_le_of_ne (hle p hp) (h p hp)
    exact (List.isChain_iff_pairwise.mp hlt).imp ne_of_lt

/-- Distinct keys leave only one sorted arrangement. -/
theorem eq_of_perm_of_sorted {l₁ l₂ : List α} (hp : l₁.Perm l₂) (hn : (l₁.map key).Nodup)
    (h₁ : l₁.Pairwise (key · ≤ key ·)) (h₂ : l₂.Pairwise (key · ≤ key ·)) : l₁ = l₂ := by
  refine List.Perm.eq_of_pairwise ?_ h₁ h₂ hp
  intro a b ha hb hab hba
  exact List.inj_on_of_nodup_map hn ha (hp.mem_iff.mpr hb) (le_antisymm hab hba)

/-- Nothing lies strictly between two neighbours of a sorted list. -/
theorem not_mem_of_between {l : List κ} (hl : l.Pairwise (· ≤ ·)) {i : Nat} {lo hi q : κ}
    (hlo : l[i]? = some lo) (hhi : l[i + 1]? = some hi) (hlt : lo < q) (hgt : q < hi) : q ∉ l := by
  intro hq
  obtain ⟨k, hk, rfl⟩ := List.getElem_of_mem hq
  obtain ⟨hi1, rfl⟩ := List.getElem?_eq_some_iff.mp hlo
  obtain ⟨hi2, rfl⟩ := List.getElem?_eq_some_iff.mp hhi
  rw [List.pairwise_iff_getElem] at hl
  rcases lt_trichotomy k i with h | rfl | h
  · exact absurd (hl k i hk hi1 h) (not_le.mpr hlt)
  · exact lt_irrefl _ hlt
  · rcases eq_or_lt_of_le (Nat.succ_le_of_lt h) with heq | h
    · subst heq
      exact lt_irrefl _ hgt
    · exact absurd (hl (i + 1) k hi2 hk h) (not_le.mpr hgt)

/-- A list that starts below a value and ends above it passes it between two neighbours,
unless it holds the value. -/
theorem exists_neighbours_between (hinj : Function.Injective key) {a b q : α} {l : List α}
    (hlo : key a < key q) (hhi : key q < key b) (hq : q ∉ l) :
    ∃ i lo hi, (a :: (l ++ [b]))[i]? = some lo ∧ (a :: (l ++ [b]))[i + 1]? = some hi ∧
      key lo < key q ∧ key q < key hi := by
  induction l generalizing a with
  | nil => exact ⟨0, a, b, rfl, rfl, hlo, hhi⟩
  | cons x l ih =>
    rw [List.mem_cons, not_or] at hq
    rcases lt_or_gt_of_ne (fun h => hq.1 (hinj h) : key q ≠ key x) with h | h
    · exact ⟨0, a, x, rfl, rfl, hlo, h⟩
    · obtain ⟨i, lo, hi, hget, hget1, hlt, hgt⟩ := ih h hq.2
      exact ⟨i + 1, lo, hi, hget, hget1, hlt, hgt⟩

omit [LinearOrder κ] in
/-- Keeping the least marked value that beats the current one finds a value below `n`
exactly when the start or some marked value is below `n`. -/
theorem foldl_least_lt_iff (mark : α → Bool) (val : α → Nat) (l : List α) (start n : Nat) :
    l.foldl (fun first a => if mark a && val a < first then val a else first) start < n ↔
      start < n ∨ ∃ a ∈ l, mark a = true ∧ val a < n := by
  induction l generalizing start with
  | nil => simp
  | cons a l ih =>
    rw [List.foldl_cons, ih]
    by_cases h : mark a = true ∧ val a < start
    · rw [if_pos (by simpa using h)]
      constructor
      · rintro (hn | ⟨b, hb, hm, hv⟩)
        · exact Or.inr ⟨a, List.mem_cons_self, h.1, hn⟩
        · exact Or.inr ⟨b, List.mem_cons_of_mem a hb, hm, hv⟩
      · rintro (hn | ⟨b, hb, hm, hv⟩)
        · exact Or.inl (h.2.trans hn)
        · rcases List.mem_cons.mp hb with rfl | hb
          · exact Or.inl hv
          · exact Or.inr ⟨b, hb, hm, hv⟩
    · rw [if_neg (by simpa using h)]
      constructor
      · rintro (hn | ⟨b, hb, hm, hv⟩)
        · exact Or.inl hn
        · exact Or.inr ⟨b, List.mem_cons_of_mem a hb, hm, hv⟩
      · rintro (hn | ⟨b, hb, hm, hv⟩)
        · exact Or.inl hn
        · rcases List.mem_cons.mp hb with rfl | hb
          · exact Or.inl ((not_lt.mp fun hlt => h ⟨hm, hlt⟩).trans_lt hv)
          · exact Or.inr ⟨b, hb, hm, hv⟩

end Averin
