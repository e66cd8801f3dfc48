import Mathlib.Data.List.AList
import Mathlib.Tactic

/-!
# Finite maps

Finite maps are association lists without repeated keys. What is added here is the list of
their values and the largest of a map into the integers.
-/

namespace Averin

/-- A finite map. -/
abbrev Table (κ ν : Type*) := AList fun _ : κ => ν

namespace Table

variable {κ ν : Type*} [DecidableEq κ]

omit [DecidableEq κ] in
/-- The values of a map, one for each key. -/
def values (t : Table κ ν) : List ν := t.entries.map Sigma.snd

/-- A value is one of some key. -/
theorem mem_values_iff {t : Table κ ν} {v : ν} : v ∈ values t ↔ ∃ k, t.lookup k = some v := by
  rw [values, List.mem_map]
  constructor
  · rintro ⟨⟨k, u⟩, hmem, rfl⟩
    exact ⟨k, AList.mem_lookup_iff.mpr hmem⟩
  · rintro ⟨k, hk⟩
    exact ⟨⟨k, v⟩, AList.mem_lookup_iff.mp hk, rfl⟩

/-- An insertion changes just its key. -/
theorem lookup_insert_eq (t : Table κ ν) (k k' : κ) (v : ν) :
    (t.insert k v).lookup k' = if k' = k then some v else t.lookup k' := by
  split_ifs with h
  · subst h
    exact AList.lookup_insert t
  · exact AList.lookup_insert_ne h

/-- An erasure changes just its key. -/
theorem lookup_erase_eq (t : Table κ ν) (k k' : κ) :
    (t.erase k).lookup k' = if k' = k then none else t.lookup k' := by
  split_ifs with h
  · subst h
    exact AList.lookup_erase k' t
  · exact AList.lookup_erase_ne h

/-- A list of entries without a repeated key, written one by one. What it has under a key comes
before what was there. -/
theorem lookup_foldl_insert {ν' : Type*} (f : κ → ν → ν') {l : List (Sigma fun _ : κ => ν)}
    (hl : l.NodupKeys) (t : Table κ ν') (k : κ) :
    (l.foldl (fun t e => t.insert e.1 (f e.1 e.2)) t).lookup k =
      ((l.dlookup k).map (f k)).or (t.lookup k) := by
  induction l generalizing t with
  | nil => rfl
  | cons e l ih =>
    obtain ⟨hnew, hl⟩ := List.nodupKeys_cons.mp hl
    rw [List.foldl_cons, ih hl, lookup_insert_eq]
    by_cases hk : k = e.1
    · subst hk
      rw [List.dlookup_eq_none.mpr hnew, List.dlookup_cons_eq, if_pos rfl]
      rfl
    · rw [List.dlookup_cons_ne _ _ hk, if_neg hk]

/-- The largest value of a map into the integers that exceeds zero, and zero without one. -/
def maxValue (t : Table κ Int) : Int := (values t).foldl (fun m v => if v > m then v else m) 0

omit [DecidableEq κ] in
/-- The largest of a start and a list. -/
theorem foldl_max_spec (l : List Int) (m : Int) :
    m ≤ l.foldl (fun m v => if v > m then v else m) m ∧
      (∀ v ∈ l, v ≤ l.foldl (fun m v => if v > m then v else m) m) ∧
        (l.foldl (fun m v => if v > m then v else m) m = m ∨
          l.foldl (fun m v => if v > m then v else m) m ∈ l) := by
  induction l generalizing m with
  | nil => simp
  | cons x l ih =>
    rw [List.foldl_cons]
    obtain ⟨hge, hall, hval⟩ := ih (if x > m then x else m)
    generalize l.foldl (fun m v => if v > m then v else m) (if x > m then x else m) = r at *
    have hx : x ≤ r := by
      split_ifs at hge <;> omega
    have hm : m ≤ r := by
      split_ifs at hge <;> omega
    refine ⟨hm, List.forall_mem_cons.mpr ⟨hx, hall⟩, ?_⟩
    rcases hval with h | h
    · split_ifs at h
      · exact Or.inr (h ▸ List.mem_cons_self)
      · exact Or.inl h
    · exact Or.inr (List.mem_cons_of_mem x h)

omit [DecidableEq κ] in
/-- The largest value is not negative. -/
theorem maxValue_nonneg (t : Table κ Int) : 0 ≤ maxValue t := (foldl_max_spec (values t) 0).1

theorem le_maxValue {t : Table κ Int} {k : κ} {v : Int} (h : t.lookup k = some v) :
    v ≤ maxValue t :=
  (foldl_max_spec (values t) 0).2.1 v (mem_values_iff.mpr ⟨k, h⟩)

/-- The largest value is zero or that of a key. -/
theorem maxValue_eq_zero_or_exists (t : Table κ Int) :
    maxValue t = 0 ∨ ∃ k, t.lookup k = some (maxValue t) := by
  rcases (foldl_max_spec (values t) 0).2.2 with h | h
  · exact Or.inl h
  · exact Or.inr (mem_values_iff.mp h)

/-- A bound on all values that is zero or taken is the largest value. -/
theorem maxValue_eq_of {t : Table κ Int} {m : Int} (hm : 0 ≤ m)
    (hle : ∀ k v, t.lookup k = some v → v ≤ m) (hval : m = 0 ∨ ∃ k, t.lookup k = some m) :
    maxValue t = m := by
  apply le_antisymm
  · rcases maxValue_eq_zero_or_exists t with h | ⟨k, h⟩
    · rw [h]
      exact hm
    · exact hle k _ h
  · rcases hval with rfl | ⟨k, h⟩
    · exact maxValue_nonneg t
    · exact le_maxValue h

end Table

end Averin
