import Mathlib.Data.List.Basic
import Mathlib.Tactic

/-!
# Hash trees over lists

A level of nodes is joined two by two, with an odd last node promoted, until one node is
left. An opening climbs from one position of the lowest level to the top along a list of
siblings. The climb follows the shape that the size of the level prescribes, so an opening
that ends in the root of the tree started from the node of the tree at its position,
unless two different pairs join to one node.
-/

namespace Averin

namespace Merkle

variable {α : Type*} (node : α → α → α)

/-- One level up: neighbours are joined two by two, and an odd last node is promoted. -/
def levelUp : List α → List α
  | a :: b :: rest => node a b :: levelUp rest
  | level => level

/-- A level has half as many nodes, an odd one counted. -/
@[simp] theorem length_levelUp (level : List α) :
    (levelUp node level).length = (level.length + 1) / 2 := by
  induction level using levelUp.induct with
  | case1 a b rest ih =>
    rw [levelUp, List.length_cons, ih]
    simp only [List.length_cons]
    omega
  | case2 level h =>
    rw [levelUp]
    · match level, h with
      | [], _ => simp
      | [a], _ => simp
      | a :: b :: rest, h => exact absurd rfl (h a b rest)
    · exact h

/-- The level that is left when no two nodes can be joined any more. -/
def topLevel (level : List α) : List α :=
  if level.length ≤ 1 then level else topLevel (levelUp node level)
termination_by level.length
decreasing_by
  rw [length_levelUp]
  omega

theorem topLevel_of_le {level : List α} (h : level.length ≤ 1) : topLevel node level = level := by
  rw [topLevel, if_pos h]

/-- Several nodes have a level above them. -/
theorem topLevel_of_lt {level : List α} (h : 1 < level.length) :
    topLevel node level = topLevel node (levelUp node level) := by
  rw [topLevel, if_neg (by omega)]

/-- Something is left of a level that had something. -/
theorem topLevel_ne_nil {level : List α} (h : level ≠ []) : topLevel node level ≠ [] := by
  induction level using topLevel.induct node with
  | case1 level hle => rwa [topLevel_of_le node hle]
  | case2 level hlt ih =>
    rw [topLevel_of_lt node (by omega)]
    apply ih
    intro hnil
    have hlen := congrArg List.length hnil
    rw [length_levelUp, List.length_nil] at hlen
    omega

/-- The root of a tree that has a leaf. -/
def root (level : List α) (h : level ≠ []) : α :=
  (topLevel node level).head (topLevel_ne_nil node h)

theorem length_topLevel_le (level : List α) : (topLevel node level).length ≤ 1 := by
  induction level using topLevel.induct node with
  | case1 level hle => rwa [topLevel_of_le node hle]
  | case2 level hlt ih => rwa [topLevel_of_lt node (by omega)]

/-- Nothing but the root is left. -/
theorem topLevel_eq_root (level : List α) (h : level ≠ []) :
    topLevel node level = [root node level h] := by
  have hle := length_topLevel_le node level
  have hpos := List.length_pos_iff.mpr (topLevel_ne_nil node h)
  obtain ⟨a, ha⟩ := List.length_eq_one_iff.mp (show (topLevel node level).length = 1 by omega)
  simp only [root, ha, List.head_cons]

/-- Follow an opening: the node at position `idx` of a level whose last position is `last`,
joined with its siblings up to the top. Every sibling must be used. -/
def climb (hash : α) (idx last : Nat) (path : List α) : Option α :=
  if last = 0 then
    if path.isEmpty then some hash else none
  else if idx % 2 = 1 then
    match path with
    | [] => none
    | sibling :: path => climb (node sibling hash) (idx / 2) (last / 2) path
  else if idx < last then
    match path with
    | [] => none
    | sibling :: path => climb (node hash sibling) (idx / 2) (last / 2) path
  else
    climb hash (idx / 2) (last / 2) path
termination_by last

/-- The pairs that are joined into one level. -/
def levelPairs : List α → List (α × α)
  | a :: b :: rest => (a, b) :: levelPairs rest
  | _ => []

/-- The pairs that are joined on the way from a level to the root. -/
def treePairs (level : List α) : List (α × α) :=
  if level.length ≤ 1 then [] else levelPairs level ++ treePairs (levelUp node level)
termination_by level.length
decreasing_by
  rw [length_levelUp]
  omega

/-- The pairs that are joined along an opening. -/
def climbPairs (hash : α) (idx last : Nat) (path : List α) : List (α × α) :=
  if last = 0 then []
  else if idx % 2 = 1 then
    match path with
    | [] => []
    | sibling :: path =>
      (sibling, hash) :: climbPairs (node sibling hash) (idx / 2) (last / 2) path
  else if idx < last then
    match path with
    | [] => []
    | sibling :: path =>
      (hash, sibling) :: climbPairs (node hash sibling) (idx / 2) (last / 2) path
  else
    climbPairs hash (idx / 2) (last / 2) path
termination_by last

/-- The parent of a node that has a neighbour joins the two. -/
theorem exists_parent {level : List α} {k : Nat} (hk : 2 * k + 1 < level.length) :
    ∃ a b, level[2 * k]? = some a ∧ level[2 * k + 1]? = some b ∧ (a, b) ∈ levelPairs level ∧
      (levelUp node level)[k]? = some (node a b) := by
  induction level using levelUp.induct generalizing k with
  | case1 a b rest ih =>
    cases k with
    | zero => exact ⟨a, b, rfl, rfl, by simp [levelPairs], rfl⟩
    | succ k =>
      obtain ⟨c, d, hc, hd, hmem, hup⟩ := ih (k := k) (by simp only [List.length_cons] at hk; omega)
      exact ⟨c, d, hc, hd, List.mem_cons_of_mem _ hmem, hup⟩
  | case2 level h =>
    match level, h with
    | [], _ => simp at hk
    | [a], _ => simp at hk
    | a :: b :: rest, h => exact absurd rfl (h a b rest)

/-- The last node of an odd level is promoted. -/
theorem getElem?_levelUp_last {level : List α} {k : Nat} (hk : level.length = 2 * k + 1) :
    (levelUp node level)[k]? = level[2 * k]? := by
  induction level using levelUp.induct generalizing k with
  | case1 a b rest ih =>
    cases k with
    | zero => simp at hk
    | succ k => exact ih (k := k) (by simp only [List.length_cons] at hk; omega)
  | case2 level h =>
    match level, h with
    | [], _ => simp at hk
    | [a], _ =>
      obtain rfl : k = 0 := by simp only [List.length_singleton] at hk; omega
      rfl
    | a :: b :: rest, h => exact absurd rfl (h a b rest)

/-- An opening that ends in the top of a tree starts from the node of the tree at its
position, unless a pair of the opening and another pair of the tree join to one node. -/
theorem getElem?_of_climb (level : List α) {hash top : α} {idx : Nat} {path : List α}
    (hidx : idx < level.length)
    (hc : climb node hash idx (level.length - 1) path = some top)
    (htop : topLevel node level = [top])
    (hinj : ∀ p ∈ treePairs node level, ∀ q ∈ climbPairs node hash idx (level.length - 1) path,
      node p.1 p.2 = node q.1 q.2 → p = q) :
    level[idx]? = some hash := by
  induction level using topLevel.induct node generalizing hash idx path with
  | case1 level hle =>
    rw [topLevel_of_le node hle] at htop
    subst htop
    obtain rfl : idx = 0 := by simpa using hidx
    rw [climb.eq_def, if_pos (by simp)] at hc
    split_ifs at hc
    rw [List.getElem?_cons_zero, Option.some.inj hc]
  | case2 level hlt ih =>
    have hlast : level.length - 1 ≠ 0 := by omega
    have hhalf : (levelUp node level).length - 1 = (level.length - 1) / 2 := by
      rw [length_levelUp]
      omega
    have hidx' : idx / 2 < (levelUp node level).length := by
      rw [length_levelUp]
      omega
    rw [topLevel_of_lt node (by omega)] at htop
    rw [treePairs, if_neg hlt] at hinj
    rw [climbPairs.eq_def, if_neg hlast] at hinj
    rw [climb.eq_def, if_neg hlast] at hc
    -- The joined node is settled one level up; here only its two children are compared.
    have hstep : ∀ (hash' : α) (path' : List α),
        climb node hash' (idx / 2) ((level.length - 1) / 2) path' = some top →
        (∀ p ∈ treePairs node (levelUp node level), ∀ q ∈ climbPairs node hash' (idx / 2)
          ((level.length - 1) / 2) path', node p.1 p.2 = node q.1 q.2 → p = q) →
        (levelUp node level)[idx / 2]? = some hash' := by
      intro hash' path' hc' hinj'
      exact ih hidx' (by rw [hhalf]; exact hc') htop (by rw [hhalf]; exact hinj')
    by_cases hodd : idx % 2 = 1
    · rw [if_pos hodd] at hc hinj
      cases path with
      | nil => cases hc
      | cons sibling path =>
        obtain ⟨a, b, -, hb, hmem, hup⟩ := exists_parent node
          (show 2 * (idx / 2) + 1 < level.length by omega)
        rw [show 2 * (idx / 2) + 1 = idx by omega] at hb
        rw [hstep _ _ hc fun p hp q hq => hinj p (List.mem_append_right _ hp) q
          (List.mem_cons_of_mem _ hq)] at hup
        have hpair := hinj (a, b) (List.mem_append_left _ hmem) _ List.mem_cons_self
          (Option.some.inj hup).symm
        rw [hb, (Prod.mk.inj hpair).2]
    · rw [if_neg hodd] at hc hinj
      by_cases hsib : idx < level.length - 1
      · rw [if_pos hsib] at hc hinj
        cases path with
        | nil => cases hc
        | cons sibling path =>
          obtain ⟨a, b, ha, -, hmem, hup⟩ := exists_parent node
            (show 2 * (idx / 2) + 1 < level.length by omega)
          rw [show 2 * (idx / 2) = idx by omega] at ha
          rw [hstep _ _ hc fun p hp q hq => hinj p (List.mem_append_right _ hp) q
            (List.mem_cons_of_mem _ hq)] at hup
          have hpair := hinj (a, b) (List.mem_append_left _ hmem) _ List.mem_cons_self
            (Option.some.inj hup).symm
          rw [ha, (Prod.mk.inj hpair).1]
      · rw [if_neg hsib] at hc hinj
        have hup := hstep _ _ hc fun p hp q hq => hinj p (List.mem_append_right _ hp) q hq
        rw [getElem?_levelUp_last node (show level.length = 2 * (idx / 2) + 1 by omega),
          show 2 * (idx / 2) = idx by omega] at hup
        exact hup

/-- All levels from the lowest to the top. -/
def levels (level : List α) : List (List α) :=
  if level.length ≤ 1 then [level] else level :: levels (levelUp node level)
termination_by level.length
decreasing_by
  rw [length_levelUp]
  omega

/-- The siblings on the way up from position `idx` of the lowest of the stored levels. A
promoted node has none. -/
def auditPath : List (List α) → (idx : Nat) → List α
  | [], _ => []
  | level :: above, idx =>
    if level.length ≤ 1 then []
    else if idx % 2 = 1 then level[idx - 1]?.toList ++ auditPath above (idx / 2)
    else if idx < level.length - 1 then level[idx + 1]?.toList ++ auditPath above (idx / 2)
    else auditPath above (idx / 2)

/-- The levels end with the top. -/
theorem getLast?_levels (level : List α) :
    (levels node level).getLast? = some (topLevel node level) := by
  induction level using topLevel.induct node with
  | case1 level hle => rw [levels, if_pos hle, topLevel_of_le node hle, List.getLast?_singleton]
  | case2 level hlt ih =>
    rw [levels, if_neg hlt, topLevel_of_lt node (by omega), List.getLast?_cons, ih]
    rfl

/-- The path taken from the stored levels leads from a node to the root. -/
theorem climb_auditPath (level : List α) {hash : α} {idx : Nat} (hget : level[idx]? = some hash) :
    (climb node hash idx (level.length - 1) (auditPath (levels node level) idx)).toList =
      topLevel node level := by
  induction level using topLevel.induct node generalizing hash idx with
  | case1 level hle =>
    obtain ⟨hidx, rfl⟩ := List.getElem?_eq_some_iff.mp hget
    obtain ⟨a, rfl⟩ := List.length_eq_one_iff.mp (show level.length = 1 by omega)
    obtain rfl : idx = 0 := by simpa using hidx
    rw [levels, if_pos hle, auditPath, if_pos hle, climb.eq_def, if_pos (by simp),
      topLevel_of_le node hle]
    rfl
  | case2 level hlt ih =>
    have hidx : idx < level.length := (List.getElem?_eq_some_iff.mp hget).1
    have hhalf : (level.length - 1) / 2 = (levelUp node level).length - 1 := by
      rw [length_levelUp]
      omega
    rw [levels, if_neg hlt, auditPath, if_neg hlt, topLevel_of_lt node (by omega), climb.eq_def,
      if_neg (by omega)]
    by_cases hodd : idx % 2 = 1
    · obtain ⟨a, b, ha, hb, -, hup⟩ := exists_parent node
        (show 2 * (idx / 2) + 1 < level.length by omega)
      rw [show 2 * (idx / 2) + 1 = idx by omega, hget] at hb
      obtain rfl := Option.some.inj hb
      rw [show 2 * (idx / 2) = idx - 1 by omega] at ha
      rw [if_pos hodd, if_pos hodd, ha, hhalf]
      exact ih hup
    · rw [if_neg hodd, if_neg hodd]
      by_cases hsib : idx < level.length - 1
      · obtain ⟨a, b, ha, hb, -, hup⟩ := exists_parent node
          (show 2 * (idx / 2) + 1 < level.length by omega)
        rw [show 2 * (idx / 2) = idx by omega, hget] at ha
        obtain rfl := Option.some.inj ha
        rw [show 2 * (idx / 2) + 1 = idx + 1 by omega] at hb
        rw [if_pos hsib, if_pos hsib, hb, hhalf]
        exact ih hup
      · rw [if_neg hsib, if_neg hsib, hhalf]
        refine ih ?_
        rw [getElem?_levelUp_last node (show level.length = 2 * (idx / 2) + 1 by omega),
          show 2 * (idx / 2) = idx by omega, hget]

/-- A path has at most one sibling a level. -/
theorem length_auditPath_le (level : List α) (idx : Nat) {k : Nat} (hk : level.length ≤ 2 ^ k) :
    (auditPath (levels node level) idx).length ≤ k := by
  induction level using topLevel.induct node generalizing idx k with
  | case1 level hle =>
    rw [levels, if_pos hle, auditPath, if_pos hle]
    exact Nat.zero_le k
  | case2 level hlt ih =>
    obtain ⟨k, rfl⟩ : ∃ m, k = m + 1 := by
      cases k with
      | zero => exact absurd hk (by rw [pow_zero]; omega)
      | succ k => exact ⟨k, rfl⟩
    have hrest : (auditPath (levels node (levelUp node level)) (idx / 2)).length ≤ k := by
      refine ih (idx / 2) ?_
      rw [length_levelUp]
      rw [pow_succ] at hk
      omega
    have hone : ∀ x : Option α, x.toList.length ≤ 1 := by
      intro x
      cases x <;> simp
    rw [levels, if_neg hlt, auditPath, if_neg hlt]
    split_ifs
    · have := hone level[idx - 1]?
      rw [List.length_append]
      omega
    · have := hone level[idx + 1]?
      rw [List.length_append]
      omega
    · omega

end Merkle

end Averin
