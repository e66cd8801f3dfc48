import Mathlib.Data.List.GetD
import Mathlib.Data.List.Range
import Mathlib.Logic.Relation
import Mathlib.Order.Bounds.Basic
import Mathlib.Tactic

/-!
# Pushing least values down a numbered graph

Nodes are numbered so that every parent has a smaller number than its child. Each node starts
with the values put on it; one pass from the highest number down hands the least value of a node
to its parents. Afterwards a node holds the least value put on any node it is reached from.
-/

namespace Averin

variable {T : Type*} [LinearOrder T]

/-- The least element of a set, or none if the set is empty. -/
def LeastOf (S : Set T) : Option T → Prop
  | none => S = ∅
  | some t => IsLeast S t

/-- A value takes the place of a later one. -/
def lower (cur : Option T) (t : T) : Option T := if cur.all (t < ·) then some t else cur

/-- What is kept is the least of the set. -/
theorem LeastOf.eq_some_iff {S : Set T} {o : Option T} (h : LeastOf S o) {t : T} :
    o = some t ↔ IsLeast S t := by
  cases o with
  | none =>
    have hempty : S = ∅ := h
    simp [hempty, IsLeast]
  | some u =>
    have hleast : IsLeast S u := h
    rw [Option.some.injEq]
    exact ⟨fun hu => hu ▸ hleast, fun ht => hleast.unique ht⟩

/-- Nothing is kept of an empty set. -/
theorem LeastOf.eq_none_iff {S : Set T} {o : Option T} (h : LeastOf S o) : o = none ↔ S = ∅ := by
  cases o with
  | none => exact ⟨fun _ => h, fun _ => rfl⟩
  | some u =>
    have hleast : IsLeast S u := h
    simp [hleast.nonempty.ne_empty]

/-- Something of the set is early enough exactly if its least element is. -/
theorem LeastOf.any_le_iff {S : Set T} {o : Option T} (h : LeastOf S o) {c : T} :
    o.any (· ≤ c) = true ↔ ∃ t ∈ S, t ≤ c := by
  cases o with
  | none =>
    have hempty : S = ∅ := h
    simp [hempty]
  | some u =>
    obtain ⟨hmem, hle⟩ : IsLeast S u := h
    rw [Option.any_some, decide_eq_true_eq]
    constructor
    · exact fun hu => ⟨u, hmem, hu⟩
    · rintro ⟨t, ht, htc⟩
      exact (hle ht).trans htc

/-- Another time lowers what is kept. -/
theorem LeastOf.lower {S : Set T} {o : Option T} (h : LeastOf S o) (t : T) :
    LeastOf (insert t S) (lower o t) := by
  cases o with
  | none =>
    obtain rfl : S = ∅ := h
    simp [Averin.lower, LeastOf, IsLeast]
  | some u =>
    obtain ⟨hmem, hle⟩ : IsLeast S u := h
    rw [Averin.lower, Option.all_some]
    by_cases htu : t < u
    · rw [if_pos (by simpa using htu)]
      refine ⟨Set.mem_insert t S, ?_⟩
      rintro v (rfl | hv)
      · exact le_rfl
      · exact htu.le.trans (hle hv)
    · rw [if_neg (by simpa using htu)]
      refine ⟨Set.mem_insert_of_mem t hmem, ?_⟩
      rintro v (rfl | hv)
      · exact not_lt.mp htu
      · exact hle hv

/-- Of a second set only its least element matters. -/
theorem LeastOf.union {S S' : Set T} {o : Option T} {t : T} (hS' : IsLeast S' t)
    (h : LeastOf (insert t S) o) : LeastOf (S ∪ S') o := by
  cases o with
  | none => exact absurd h (Set.insert_nonempty t S).ne_empty
  | some u =>
    obtain ⟨hmem, hle⟩ : IsLeast (insert t S) u := h
    refine ⟨?_, ?_⟩
    · rcases hmem with rfl | hu
      · exact Or.inr hS'.1
      · exact Or.inl hu
    · rintro v (hv | hv)
      · exact hle (Set.mem_insert_of_mem t hv)
      · exact (hle (Set.mem_insert t S)).trans (hS'.2 hv)

/-- Put a value on a node. -/
def lowerAt (table : List (Option T)) (x : Nat) (t : T) : List (Option T) :=
  table.modify x (lower · t)

/-- A table holds the least of every node's set. -/
structure Holds (n : Nat) (S : Nat → Set T) (table : List (Option T)) : Prop where
  length : table.length = n
  least : ∀ x < n, LeastOf (S x) (table.getD x none)

variable {n : Nat} {S S' : Nat → Set T} {table : List (Option T)}

/-- Only the entry of the node is lowered. -/
theorem getD_lowerAt (table : List (Option T)) {x : Nat} (hx : x < table.length) (t : T) (y : Nat) :
    (lowerAt table x t).getD y none =
      if x = y then lower (table.getD y none) t else table.getD y none := by
  rw [lowerAt, List.getD_eq_getElem?_getD, List.getElem?_modify, List.getD_eq_getElem?_getD]
  by_cases hxy : x = y
  · subst hxy
    simp [hx]
  · simp [hxy]

/-- Sets that agree on the nodes are held alike. -/
theorem Holds.congr (h : Holds n S table) (hS : ∀ x < n, S x = S' x) : Holds n S' table :=
  ⟨h.length, fun x hx => hS x hx ▸ h.least x hx⟩

theorem holds_replicate : Holds n (fun _ => (∅ : Set T)) (.replicate n none) := by
  refine ⟨List.length_replicate, fun x hx => ?_⟩
  rw [List.getD_eq_getElem?_getD, List.getElem?_replicate, if_pos hx]
  rfl

/-- Lowering an entry adds the time to its set. -/
theorem Holds.lowerAt (h : Holds n S table) {x : Nat} (hx : x < n) (t : T) :
    Holds n (fun y => S y ∪ { u | x = y ∧ u = t }) (lowerAt table x t) := by
  refine ⟨by rw [Averin.lowerAt, List.length_modify, h.length], fun y hy => ?_⟩
  rw [getD_lowerAt table (h.length.symm ▸ hx)]
  by_cases hxy : x = y
  · have hset : S y ∪ { u | x = y ∧ u = t } = insert t (S y) := by
      ext u
      simp [hxy]
    rw [if_pos hxy, hset]
    exact (h.least y hy).lower t
  · have hset : S y ∪ { u | x = y ∧ u = t } = S y := by
      ext u
      simp [hxy]
    rw [if_neg hxy, hset]
    exact h.least y hy

/-- A list of values, each put on its node. -/
theorem Holds.lowerAll (h : Holds n S table) {l : List (Nat × T)} (hl : ∀ e ∈ l, e.1 < n) :
    Holds n (fun y => S y ∪ { t | (y, t) ∈ l })
      (l.foldl (fun table e => Averin.lowerAt table e.1 e.2) table) := by
  induction l generalizing table S with
  | nil => exact h.congr fun y _ => by simp
  | cons e l ih =>
    obtain ⟨he, hl⟩ := List.forall_mem_cons.mp hl
    refine (ih (h.lowerAt he e.2) hl).congr fun y _ => ?_
    ext t
    simp only [Set.mem_union, Set.mem_ofPred_eq, List.mem_cons, or_assoc]
    refine or_congr_right (or_congr_left ?_)
    constructor
    · rintro ⟨rfl, rfl⟩
      rfl
    · rintro rfl
      exact ⟨rfl, rfl⟩

variable {parents : Nat → List Nat}

/-- Hand the value of a node to its parents. -/
def pushTo (parents : Nat → List Nat) (table : List (Option T)) (x : Nat) : List (Option T) :=
  match table.getD x none with
  | none => table
  | some t => (parents x).foldl (fun table p => lowerAt table p t) table

/-- Every node from the highest number down. -/
def pushAll (parents : Nat → List Nat) (n : Nat) (table : List (Option T)) : List (Option T) :=
  (List.range n).reverse.foldl (pushTo parents) table

/-- `y` is reached from `z` by steps that start at the number `i` or above. -/
def FollowFrom (parents : Nat → List Nat) (i z y : Nat) : Prop :=
  Relation.ReflTransGen (fun c p => i ≤ c ∧ p ∈ parents c) z y

/-- Pushing an entry on adds its set to those of its parents. -/
theorem Holds.pushTo (h : Holds n S table) {x : Nat} (hx : x < n)
    (hlt : ∀ p ∈ parents x, p < x) :
    Holds n (fun y => S y ∪ { t | y ∈ parents x ∧ t ∈ S x }) (pushTo parents table x) := by
  have hleast := h.least x hx
  unfold Averin.pushTo
  cases ho : table.getD x none with
  | none =>
    rw [ho] at hleast
    have hempty : S x = ∅ := hleast
    exact h.congr fun y _ => by simp [hempty]
  | some t =>
    rw [ho] at hleast
    have hall := h.lowerAll (l := (parents x).map (·, t)) fun e he => by
      obtain ⟨p, hp, rfl⟩ := List.mem_map.mp he
      exact (hlt p hp).trans hx
    rw [List.foldl_map] at hall
    refine ⟨hall.length, fun y hy => ?_⟩
    have hy' := hall.least y hy
    by_cases hp : y ∈ parents x
    · have hone : S y ∪ { u | (y, u) ∈ (parents x).map (·, t) } = insert t (S y) := by
        ext u
        simp [hp, eq_comm]
      rw [hone] at hy'
      have hset : S y ∪ { u | y ∈ parents x ∧ u ∈ S x } = S y ∪ S x := by
        ext u
        simp [hp]
      rw [hset]
      exact LeastOf.union hleast hy'
    · have hone : S y ∪ { u | (y, u) ∈ (parents x).map (·, t) } = S y := by
        ext u
        simp [hp]
      rw [hone] at hy'
      have hset : S y ∪ { u | y ∈ parents x ∧ u ∈ S x } = S y := by
        ext u
        simp [hp]
      rw [hset]
      exact hy'

/-- A step from the number `i` itself is the last one: it leads below `i`. -/
theorem followFrom_iff (hlt : ∀ x, ∀ p ∈ parents x, p < x) {i z y : Nat} :
    FollowFrom parents i z y ↔
      FollowFrom parents (i + 1) z y ∨ (FollowFrom parents (i + 1) z i ∧ y ∈ parents i) := by
  constructor
  · intro h
    induction h with
    | refl => exact Or.inl .refl
    | @tail c y _ hstep ih =>
      obtain ⟨hic, hp⟩ := hstep
      rcases ih with hzc | ⟨-, hc⟩
      · rcases Nat.eq_or_lt_of_le hic with rfl | hlt'
        · exact Or.inr ⟨hzc, hp⟩
        · exact Or.inl (hzc.tail ⟨hlt', hp⟩)
      · have := hlt i c hc
        omega
  · have hmono : ∀ {z y}, FollowFrom parents (i + 1) z y → FollowFrom parents i z y := fun h =>
      Relation.ReflTransGen.mono (fun _ _ hstep => ⟨Nat.le_of_succ_le hstep.1, hstep.2⟩) _ _ h
    rintro (h | ⟨h, hp⟩)
    · exact hmono h
    · exact (hmono h).tail ⟨le_rfl, hp⟩

/-- After the pass a node holds the least value put on any node it is reached from. -/
theorem Holds.pushAll (h : Holds n S table) (hlt : ∀ x, ∀ p ∈ parents x, p < x) :
    Holds n (fun y => { t | ∃ z < n,
        Relation.ReflTransGen (fun c p => p ∈ parents c) z y ∧ t ∈ S z })
      (pushAll parents n table) := by
  -- after the nodes from `i` on, the steps from them are taken into account
  have hpass : ∀ k ≤ n, Holds n (fun y => { t | ∃ z < n, FollowFrom parents (n - k) z y ∧ t ∈ S z })
      ((((List.range n).reverse).take k).foldl (Averin.pushTo parents) table) := by
    intro k
    induction k with
    | zero =>
      intro _
      refine h.congr fun y hy => ?_
      ext t
      constructor
      · exact fun ht => ⟨y, hy, .refl, ht⟩
      · rintro ⟨z, hz, hzy, ht⟩
        rcases hzy.cases_head with rfl | ⟨c, ⟨hn, -⟩, -⟩
        · exact ht
        · omega
    | succ k ih =>
      intro hk
      have hget : (List.range n).reverse[k]? = some (n - (k + 1)) := by
        rw [List.getElem?_reverse (by simpa using hk), List.length_range, List.getElem?_range]
        · congr 1
          omega
        · omega
      rw [List.take_add_one, hget, List.foldl_append]
      refine ((ih (by omega)).pushTo (show n - (k + 1) < n by omega) (hlt _)).congr fun y _ => ?_
      have hstep : n - (k + 1) + 1 = n - k := by omega
      ext t
      simp only [Set.mem_union, Set.mem_ofPred_eq, followFrom_iff hlt (i := n - (k + 1)), hstep]
      constructor
      · rintro (⟨z, hz, hzy, ht⟩ | ⟨hy, z, hz, hzx, ht⟩)
        · exact ⟨z, hz, Or.inl hzy, ht⟩
        · exact ⟨z, hz, Or.inr ⟨hzx, hy⟩, ht⟩
      · rintro ⟨z, hz, hzy | ⟨hzx, hy⟩, ht⟩
        · exact Or.inl ⟨z, hz, hzy, ht⟩
        · exact Or.inr ⟨hy, z, hz, hzx, ht⟩
  have hall := hpass n le_rfl
  rw [List.take_of_length_le (by simp), Nat.sub_self] at hall
  refine hall.congr fun y _ => ?_
  have hrel : FollowFrom parents 0 = Relation.ReflTransGen (fun c p => p ∈ parents c) := by
    simp [funext_iff, FollowFrom]
  rw [hrel]

end Averin
