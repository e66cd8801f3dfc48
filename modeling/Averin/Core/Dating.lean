import Mathlib.Data.List.Sort
import Mathlib.Data.Prod.Lex
import Mathlib.Logic.Function.Basic
import Mathlib.Logic.Relation
import Mathlib.Order.Bounds.Basic
import Mathlib.Tactic

/-!
# Dating along links

Every node links to at most one other. A list of dates, each at a node, is worked through in
order: a walk dates its node and what it links to, until it meets a node that has a date. In the
end a node has the first date of the list from whose node it can be reached.
-/

namespace Averin

variable {ι T : Type*} (next : ι → Option ι)

/-- `b` is reached from `a` by following links. -/
def Follow (a b : ι) : Prop := Relation.ReflTransGen (fun a b => next a = some b) a b

section Walk

variable [DecidableEq ι]

/-- One walk. It is none if it is not over after `fuel` steps. -/
def walkDate (t : T) : (fuel : Nat) → ι → (ι → Option T) → Option (ι → Option T)
  | 0, _, _ => none
  | fuel + 1, k, date =>
    if (date k).isSome then some date
    else
      match next k with
      | none => some (Function.update date k (some t))
      | some prev => walkDate t fuel prev (Function.update date k (some t))

/-- All walks, in the order of the list. -/
def walkDates (fuel : Nat) : List (T × ι) → (ι → Option T) → Option (ι → Option T)
  | [], date => some date
  | (t, j) :: rest, date => (walkDate next t fuel j date).bind (walkDates fuel rest)

/-- What is dated links to what is dated. -/
def LinksDated (date : ι → Option T) : Prop :=
  ∀ a b, next a = some b → (date a).isSome = true → (date b).isSome = true

end Walk

variable {next}

/-- What is followed is the start itself, or is followed from its successor. -/
theorem follow_iff {a b : ι} : Follow next a b ↔ a = b ∨ ∃ c, next a = some c ∧ Follow next c b :=
  Relation.ReflTransGen.cases_head_iff

/-- A dated node dates all that it leads to. -/
theorem LinksDated.follow {date : ι → Option T} (h : LinksDated next date) {a b : ι}
    (hab : Follow next a b) (ha : (date a).isSome = true) : (date b).isSome = true := by
  induction hab with
  | refl => exact ha
  | tail _ hbc ih => exact h _ _ hbc ih

open Classical in
/-- Of an ascending list the first date is the least. -/
theorem isLeast_of_find? [LinearOrder T] {l : List (T × ι)} (hl : l.Pairwise fun a b => a.1 ≤ b.1)
    (p : ι → Prop) {t : T} :
    (l.find? fun e => p e.2).map (·.1) = some t ↔
      IsLeast { t | ∃ j, (t, j) ∈ l ∧ p j } t := by
  induction l with
  | nil => simp [IsLeast]
  | cons e l ih =>
    obtain ⟨t₀, j₀⟩ := e
    obtain ⟨hle, hl⟩ := List.pairwise_cons.mp hl
    rw [List.find?_cons]
    by_cases hp : p j₀
    · have hleast : IsLeast { t | ∃ j, (t, j) ∈ (t₀, j₀) :: l ∧ p j } t₀ := by
        refine ⟨⟨j₀, by simp, hp⟩, ?_⟩
        rintro t ⟨j, hj, -⟩
        rcases List.mem_cons.mp hj with heq | hj
        · exact (congrArg Prod.fst heq).ge
        · exact hle _ hj
      simp only [hp, decide_true, Option.map_some, Option.some.injEq]
      exact ⟨fun h => h ▸ hleast, fun h => hleast.unique h⟩
    · have hset : { t | ∃ j, (t, j) ∈ (t₀, j₀) :: l ∧ p j } = { t | ∃ j, (t, j) ∈ l ∧ p j } := by
        ext t
        simp only [List.mem_cons, Prod.mk.injEq, Set.mem_ofPred_eq]
        constructor
        · rintro ⟨j, ⟨-, rfl⟩ | hj, hpj⟩
          · exact absurd hpj hp
          · exact ⟨j, hj, hpj⟩
        · rintro ⟨j, hj, hpj⟩
          exact ⟨j, Or.inr hj, hpj⟩
      rw [hset, ← ih hl]
      simp [hp]

variable [DecidableEq ι]

/-- The nodes of a list without a date. -/
def undated (nodes : List ι) (date : ι → Option T) : Nat := nodes.countP fun k => (date k).isNone

/-- Dating a node leaves fewer nodes without a date. -/
theorem undated_update {nodes : List ι} {date : ι → Option T} {k : ι} {t : T} (hk : k ∈ nodes)
    (hd : date k = none) :
    undated nodes (Function.update date k (some t)) < undated nodes date := by
  obtain ⟨l, r, rfl⟩ := List.append_of_mem hk
  have hmono : ∀ l : List ι,
      undated l (Function.update date k (some t)) ≤ undated l date := by
    intro l
    refine List.countP_mono_left fun x _ hx => ?_
    by_cases hxk : x = k
    · simp [hxk] at hx
    · rwa [Function.update_of_ne hxk] at hx
  have hl := hmono l
  have hr := hmono r
  simp only [undated, List.countP_append, List.countP_cons, Function.update_self, hd] at hl hr ⊢
  simp only [Option.isNone_some, Option.isNone_none, Bool.false_eq_true, if_false, if_true]
  omega

open Classical in
/-- A walk dates what is reached from its start and had no date. -/
theorem walkDate_eq {nodes : List ι} (hnodes : ∀ a ∈ nodes, ∀ b, next a = some b → b ∈ nodes)
    {t : T} {fuel : Nat} {k : ι} {date : ι → Option T} (hk : k ∈ nodes)
    (hf : undated nodes date < fuel)
    (hlinks : ∀ a b, next a = some b → (date a).isSome = true → (date b).isSome = true ∨ b = k) :
    walkDate next t fuel k date =
      some fun x => (date x).or (if Follow next k x then some t else none) := by
  induction fuel generalizing k date with
  | zero => omega
  | succ fuel ih =>
    rw [walkDate]
    by_cases hd : (date k).isSome = true
    · rw [if_pos hd]
      have hdated : LinksDated next date := fun a b hab ha =>
        (hlinks a b hab ha).elim id fun hbk => hbk ▸ hd
      congr 1
      funext x
      split_ifs with hx
      · obtain ⟨d, hdx⟩ := Option.isSome_iff_exists.mp (hdated.follow hx hd)
        rw [hdx]
        rfl
      · rw [Option.or_none]
    · rw [if_neg hd]
      have hnone : date k = none := by simpa using hd
      cases hnext : next k with
      | none =>
        dsimp only
        congr 1
        funext x
        have hfollow : Follow next k x ↔ k = x := by
          rw [follow_iff, hnext]
          simp
        by_cases hx : x = k
        · subst hx
          rw [Function.update_self, hnone, if_pos (hfollow.mpr rfl)]
          rfl
        · rw [Function.update_of_ne hx, if_neg (hfollow.not.mpr (Ne.symm hx)), Option.or_none]
      | some prev =>
        dsimp only
        have hless : undated nodes (Function.update date k (some t)) < undated nodes date :=
          undated_update hk hnone
        rw [ih (hnodes k hk prev hnext) (by omega) fun a b hab ha => ?_]
        · congr 1
          funext x
          have hfollow : Follow next k x ↔ k = x ∨ Follow next prev x := by
            rw [follow_iff, hnext]
            simp
          by_cases hx : x = k
          · subst hx
            rw [Function.update_self, hnone, if_pos (hfollow.mpr (Or.inl rfl))]
            rfl
          · rw [Function.update_of_ne hx]
            simp only [hfollow, Ne.symm hx, false_or]
        · -- Only the node just dated may link to one without a date: the next of the walk.
          by_cases hak : a = k
          · rw [hak, hnext] at hab
            exact Or.inr (Option.some.inj hab).symm
          · rw [Function.update_of_ne hak] at ha
            refine Or.inl ?_
            by_cases hbk : b = k
            · rw [hbk, Function.update_self]
              rfl
            · rw [Function.update_of_ne hbk]
              exact (hlinks a b hab ha).resolve_right hbk

open Classical in
/-- After all walks a node has the first date from whose node it is reached. -/
theorem walkDates_eq {nodes : List ι} (hnodes : ∀ a ∈ nodes, ∀ b, next a = some b → b ∈ nodes)
    {fuel : Nat} (hf : nodes.length < fuel) {l : List (T × ι)} (hl : ∀ e ∈ l, e.2 ∈ nodes)
    {date : ι → Option T} (hdated : LinksDated next date) :
    walkDates next fuel l date =
      some fun x => (date x).or ((l.find? fun e => Follow next e.2 x).map (·.1)) := by
  induction l generalizing date with
  | nil => simp [walkDates]
  | cons e l ih =>
    obtain ⟨t, j⟩ := e
    obtain ⟨hj, hl⟩ := List.forall_mem_cons.mp hl
    have hwalk : walkDate next t fuel j date =
        some fun x => (date x).or (if Follow next j x then some t else none) :=
      walkDate_eq hnodes hj (lt_of_le_of_lt List.countP_le_length hf)
        fun a b hab ha => Or.inl (hdated a b hab ha)
    rw [walkDates, hwalk, Option.bind_some, ih hl]
    · congr 1
      funext x
      rw [Option.or_assoc, List.find?_cons]
      by_cases hx : Follow next j x
      · simp [hx]
      · simp [hx]
    · intro a b hab ha
      rw [Option.isSome_or] at ha ⊢
      rcases Bool.or_eq_true _ _ ▸ ha with ha | ha
      · rw [hdated a b hab ha]
        rfl
      · have hreach : Follow next j a := by
          by_contra hno
          rw [if_neg hno] at ha
          cases ha
        have hreach' : Follow next j b := hreach.tail hab
        rw [if_pos hreach']
        simp

end Averin
