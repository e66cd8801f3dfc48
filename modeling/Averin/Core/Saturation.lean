import Mathlib.Data.List.Basic
import Mathlib.Data.List.Count
import Mathlib.Logic.Relation
import Mathlib.Tactic

/-!
# Following links until nothing changes

Links are offered to a state one after the other, and each may add the key it ends at. The
whole list is offered again as long as an offer was taken. The keys held at the end are those
the first ones lead to, in whatever order the links stand.
-/

namespace Averin

variable {S ε κ : Type*}

/-- Offer every link in turn, and say if one was taken. -/
def offerAll (offer : S → ε → S × Bool) (links : List ε) (s : S) : S × Bool :=
  links.foldl (fun r e => ((offer r.1 e).1, r.2 || (offer r.1 e).2)) (s, false)

/-- Offer all links until none is taken; `none` if the fuel does not last. -/
def saturate (offer : S → ε → S × Bool) (links : List ε) : Nat → S → Option S
  | 0, _ => none
  | fuel + 1, s =>
    if (offerAll offer links s).2 then saturate offer links fuel (offerAll offer links s).1
    else some (offerAll offer links s).1

/-- More fuel changes nothing once the search has ended. -/
theorem saturate_mono {offer : S → ε → S × Bool} {links : List ε} {fuel more : Nat} {s t : S}
    (h : saturate offer links fuel s = some t) (hle : fuel ≤ more) :
    saturate offer links more s = some t := by
  induction fuel generalizing s more with
  | zero => cases h
  | succ fuel ih =>
    obtain ⟨more, rfl⟩ : ∃ m, more = m + 1 := ⟨more - 1, by omega⟩
    rw [saturate] at h ⊢
    cases htaken : (offerAll offer links s).2 with
    | true =>
      rw [htaken, if_pos rfl] at h
      rw [if_pos rfl]
      exact ih h (by omega)
    | false =>
      rw [htaken, if_neg (by simp)] at h
      rw [if_neg (by simp), h]

/-- A link is taken if its start is held, its end is not, and the link is good. -/
structure Extends (offer : S → ε → S × Bool) (Inv : S → Prop) (held : S → List κ)
    (source target : ε → κ) (good : ε → Prop) : Prop where
  inv : ∀ s e, Inv s → Inv (offer s e).1
  taken_iff : ∀ s e, Inv s →
    ((offer s e).2 = true ↔ target e ∉ held s ∧ source e ∈ held s ∧ good e)
  held_taken : ∀ s e, Inv s → (offer s e).2 = true → held (offer s e).1 = held s ++ [target e]
  held_left : ∀ s e, Inv s → (offer s e).2 = false → held (offer s e).1 = held s

/-- A good link between two keys. -/
def LeadsTo (links : List ε) (source target : ε → κ) (good : ε → Prop) (a b : κ) : Prop :=
  ∃ e ∈ links, good e ∧ source e = a ∧ target e = b

namespace Extends

variable {offer : S → ε → S × Bool} {Inv : S → Prop} {held : S → List κ} {source target : ε → κ}
  {good : ε → Prop} (hext : Extends offer Inv held source target good)

include hext

/-- An offer loses nothing. -/
theorem held_subset {s : S} (h : Inv s) (e : ε) : held s ⊆ held (offer s e).1 := by
  cases htaken : (offer s e).2 with
  | true =>
    rw [hext.held_taken s e h htaken]
    exact List.subset_append_left _ _
  | false =>
    rw [hext.held_left s e h htaken]
    exact List.Subset.refl _

omit hext in
/-- A list of offers ends with its last one. -/
theorem offerAll_append (l : List ε) (e : ε) (s : S) :
    offerAll offer (l ++ [e]) s = ((offer (offerAll offer l s).1 e).1,
      (offerAll offer l s).2 || (offer (offerAll offer l s).1 e).2) := by
  rw [offerAll, List.foldl_append, List.foldl_cons, List.foldl_nil, ← offerAll]

/-- Offers keep the invariant. -/
theorem inv_offerAll (l : List ε) {s : S} (h : Inv s) : Inv (offerAll offer l s).1 := by
  induction l using List.reverseRecOn with
  | nil => exact h
  | append_singleton l e ih =>
    rw [offerAll_append]
    exact hext.inv _ e ih

/-- Offers lose nothing. -/
theorem held_subset_offerAll (l : List ε) {s : S} (h : Inv s) :
    held s ⊆ held (offerAll offer l s).1 := by
  induction l using List.reverseRecOn with
  | nil => exact List.Subset.refl _
  | append_singleton l e ih =>
    rw [offerAll_append]
    exact List.Subset.trans ih (hext.held_subset (hext.inv_offerAll l h) e)

/-- A round adds only what the links lead to. -/
theorem leadsTo_of_mem_offerAll (l : List ε) {s : S} (h : Inv s) {k : κ}
    (hk : k ∈ held (offerAll offer l s).1) :
    ∃ p ∈ held s, Relation.ReflTransGen (LeadsTo l source target good) p k := by
  induction l using List.reverseRecOn generalizing k with
  | nil => exact ⟨k, hk, .refl⟩
  | append_singleton l e ih =>
    have hmono : ∀ a b, LeadsTo l source target good a b →
        LeadsTo (l ++ [e]) source target good a b := by
      rintro a b ⟨f, hf, hrest⟩
      exact ⟨f, List.mem_append_left _ hf, hrest⟩
    have hinv := hext.inv_offerAll l h
    rw [offerAll_append] at hk
    cases htaken : (offer (offerAll offer l s).1 e).2 with
    | false =>
      rw [hext.held_left _ e hinv htaken] at hk
      obtain ⟨p, hp, hr⟩ := ih hk
      exact ⟨p, hp, Relation.ReflTransGen.mono hmono _ _ hr⟩
    | true =>
      rw [hext.held_taken _ e hinv htaken] at hk
      rcases List.mem_append.mp hk with hk | hk
      · obtain ⟨p, hp, hr⟩ := ih hk
        exact ⟨p, hp, Relation.ReflTransGen.mono hmono _ _ hr⟩
      · obtain rfl := List.mem_singleton.mp hk
        obtain ⟨-, hsource, hgood⟩ := (hext.taken_iff _ e hinv).mp htaken
        obtain ⟨p, hp, hr⟩ := ih hsource
        have hr' := Relation.ReflTransGen.mono hmono _ _ hr
        exact ⟨p, hp, hr'.tail ⟨e, by simp, hgood, rfl, rfl⟩⟩

/-- A round that takes nothing leaves the held keys, and they were closed under the links. -/
theorem closed_of_quiet (l : List ε) {s : S} (h : Inv s) (hquiet : (offerAll offer l s).2 = false) :
    held (offerAll offer l s).1 = held s ∧
      ∀ a b, LeadsTo l source target good a b → a ∈ held s → b ∈ held s := by
  induction l using List.reverseRecOn with
  | nil => exact ⟨rfl, fun a b ⟨_, he, _⟩ => absurd he (by simp)⟩
  | append_singleton l e ih =>
    have hinv := hext.inv_offerAll l h
    rw [offerAll_append] at hquiet ⊢
    obtain ⟨hbefore, hlast⟩ := Bool.or_eq_false_iff.mp hquiet
    obtain ⟨hheld, hclosed⟩ := ih hbefore
    refine ⟨(hext.held_left _ e hinv hlast).trans hheld, ?_⟩
    rintro a b ⟨f, hf, hgood, rfl, rfl⟩ ha
    rcases List.mem_append.mp hf with hf | hf
    · exact hclosed _ _ ⟨f, hf, hgood, rfl, rfl⟩ ha
    · obtain rfl := List.mem_singleton.mp hf
      by_contra hb
      rw [← hheld] at ha hb
      have htaken := (hext.taken_iff _ f hinv).mpr ⟨hb, ha, hgood⟩
      rw [hlast] at htaken
      cases htaken

section Measure

variable [DecidableEq κ]

/-- The links whose end is not held. -/
def missing (held : List κ) (target : ε → κ) (links : List ε) : Nat :=
  links.countP fun e => target e ∉ held

omit hext in
/-- Who holds more misses less. -/
theorem missing_le_of_subset {a b : List κ} (h : a ⊆ b) (links : List ε) :
    missing b target links ≤ missing a target links := by
  apply List.countP_mono_left
  intro e _ he
  simp only [decide_eq_true_eq] at he ⊢
  exact fun hmem => he (h hmem)

omit hext in
/-- Holding the end of a further link leaves fewer links. -/
theorem missing_append_lt {a : List κ} {links : List ε} {e : ε} (he : e ∈ links)
    (hnew : target e ∉ a) : missing (a ++ [target e]) target links < missing a target links := by
  induction links with
  | nil => cases he
  | cons f links ih =>
    have hrest : missing (a ++ [target e]) target links ≤ missing a target links :=
      missing_le_of_subset (List.subset_append_left _ _) links
    unfold missing at ih hrest ⊢
    rw [List.countP_cons, List.countP_cons]
    rcases List.mem_cons.mp he with rfl | he
    · simp only [List.mem_append, List.mem_singleton, or_true, not_true_eq_false, decide_false,
        hnew, not_false_eq_true, decide_true, if_true]
      simp only [List.mem_append, List.mem_singleton] at hrest
      rw [if_neg (by simp)]
      omega
    · have hhead : target f ∉ a ++ [target e] → target f ∉ a :=
        fun h hmem => h (List.mem_append_left _ hmem)
      have hlt := ih he
      by_cases hf : target f ∉ a ++ [target e]
      · simp only [hf, hhead hf, not_false_eq_true, decide_true, if_true]
        omega
      · simp only [hf, decide_false, Bool.false_eq_true, if_false]
        omega

/-- A round that takes a link leaves fewer links to take. -/
theorem missing_offerAll_lt {links : List ε} (l : List ε) (hl : l ⊆ links) {s : S} (h : Inv s)
    (htaken : (offerAll offer l s).2 = true) :
    missing (held (offerAll offer l s).1) target links < missing (held s) target links := by
  induction l using List.reverseRecOn with
  | nil => cases htaken
  | append_singleton l e ih =>
    have hsub : l ⊆ links := fun _ hx => hl (List.mem_append_left _ hx)
    have hinv := hext.inv_offerAll l h
    have hle : missing (held (offerAll offer l s).1) target links ≤ missing (held s) target links :=
      missing_le_of_subset (hext.held_subset_offerAll l h) links
    rw [offerAll_append] at htaken ⊢
    cases hlast : (offer (offerAll offer l s).1 e).2 with
    | true =>
      rw [hext.held_taken _ e hinv hlast]
      have hnew := ((hext.taken_iff _ e hinv).mp hlast).1
      exact (missing_append_lt (hl (by simp)) hnew).trans_le hle
    | false =>
      rw [hlast, Bool.or_false] at htaken
      rw [hext.held_left _ e hinv hlast]
      exact ih hsub htaken

/-- The search ends within one round more than there are links, and then holds exactly what
the first keys lead to. -/
theorem saturate_spec (links : List ε) {fuel : Nat} {s : S} (h : Inv s)
    (hfuel : missing (held s) target links < fuel) :
    ∃ t, saturate offer links fuel s = some t ∧ Inv t ∧
      ∀ k, k ∈ held t ↔
        ∃ p ∈ held s, Relation.ReflTransGen (LeadsTo links source target good) p k := by
  induction fuel generalizing s with
  | zero => omega
  | succ fuel ih =>
    have hinv := hext.inv_offerAll links h
    rw [saturate]
    cases htaken : (offerAll offer links s).2 with
    | true =>
      have hlt := hext.missing_offerAll_lt links (List.Subset.refl _) h htaken
      obtain ⟨t, ht, htinv, hmem⟩ := ih hinv (by omega)
      refine ⟨t, by rw [if_pos rfl, ht], htinv, fun k => ?_⟩
      rw [hmem]
      constructor
      · rintro ⟨q, hq, hqk⟩
        obtain ⟨p, hp, hpq⟩ := hext.leadsTo_of_mem_offerAll links h hq
        exact ⟨p, hp, hpq.trans hqk⟩
      · rintro ⟨p, hp, hpk⟩
        exact ⟨p, hext.held_subset_offerAll links h hp, hpk⟩
    | false =>
      obtain ⟨hheld, hclosed⟩ := hext.closed_of_quiet links h htaken
      refine ⟨_, if_neg (by simp), hinv, fun k => ?_⟩
      rw [hheld]
      constructor
      · exact fun hk => ⟨k, hk, .refl⟩
      · rintro ⟨p, hp, hr⟩
        induction hr with
        | refl => exact hp
        | tail _ hlink hq => exact hclosed _ _ hlink hq

end Measure

end Extends

end Averin
