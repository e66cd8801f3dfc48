import Mathlib.Data.Finset.Card
import Mathlib.Data.List.Chain
import Mathlib.Logic.Relation

/-!
# Cycles that nothing leaves

Steps between finitely many nodes and a goal, with a step from every node. They lead from every
node to the goal unless some nodes form a cycle that no step leaves.
-/

namespace Averin

open Relation

variable {α : Type*} (step : α → α → Prop)

/-- A closed walk: a step leads from each node to the next one and from the last to the first. -/
def IsCycle (walk : List α) : Prop :=
  ∃ a rest, walk = a :: rest ∧ (a :: (rest ++ [a])).IsChain step

/-- A closed walk whose nodes have no step to any other node. -/
structure ClosedCycle (walk : List α) : Prop where
  cycle : IsCycle step walk
  closed : ∀ a ∈ walk, ∀ b, step a b → b ∈ walk

variable {step} {a b c : α}

/-- A walk of at least one step. -/
theorem exists_walk (h : TransGen step a b) : ∃ mid, (a :: (mid ++ [b])).IsChain step := by
  induction h using TransGen.head_induction_on with
  | single hstep => exact ⟨[], by simpa using hstep⟩
  | head hstep _ ih =>
    obtain ⟨mid, hmid⟩ := ih
    exact ⟨_ :: mid, hmid.cons_cons hstep⟩

/-- What lies on a walk is reached from its first node. -/
theorem reflTransGen_of_mem {walk : List α} (h : (a :: walk).IsChain step) (hb : b ∈ a :: walk) :
    ReflTransGen step a b := by
  induction walk generalizing a with
  | nil => rw [List.mem_singleton.mp hb]
  | cons next walk ih =>
    obtain ⟨hstep, hrest⟩ := List.isChain_cons_cons.mp h
    rcases List.mem_cons.mp hb with rfl | hb
    · exact ReflTransGen.refl
    · exact ReflTransGen.head hstep (ih hrest hb)

/-- Walks there and back again, one after the other, pass through all the targets. -/
theorem exists_covering_walk {targets : List α} (hself : TransGen step b b)
    (hback : ∀ c ∈ targets, ReflTransGen step b c ∧ ReflTransGen step c b) :
    ∃ rest, (b :: (rest ++ [b])).IsChain step ∧ ∀ c ∈ targets, c ∈ b :: rest := by
  induction targets with
  | nil =>
    obtain ⟨rest, hrest⟩ := exists_walk hself
    exact ⟨rest, hrest, fun c hc => absurd hc List.not_mem_nil⟩
  | cons c targets ih =>
    obtain ⟨⟨hthere, hagain⟩, hall⟩ := List.forall_mem_cons.mp hback
    obtain ⟨rest, hrest, hmem⟩ := ih hall
    rcases reflTransGen_iff_eq_or_transGen.mp hthere with rfl | hthere
    · exact ⟨rest, hrest, List.forall_mem_cons.mpr ⟨List.mem_cons_self, hmem⟩⟩
    · obtain ⟨out, hout⟩ := exists_walk hthere
      obtain ⟨home, hhome⟩ := exists_walk (TransGen.trans_right hagain hself)
      refine ⟨out ++ c :: (home ++ b :: rest), ?_, List.forall_mem_cons.mpr ⟨by simp, ?_⟩⟩
      · have hlast : ((c :: home) ++ b :: (rest ++ [b])).IsChain step :=
          List.isChain_split.mpr ⟨hhome, hrest⟩
        have hwhole : ((b :: out) ++ c :: (home ++ b :: (rest ++ [b]))).IsChain step :=
          List.isChain_split.mpr ⟨hout, hlast⟩
        simpa using hwhole
      · intro d hd
        have hin := hmem d hd
        simp only [List.mem_cons, List.mem_append] at hin ⊢
        tauto

/-- Going on for as long as there is no way back ends where there always is one. -/
theorem exists_recurrent {nodes : Finset α} (hin : ∀ a ∈ nodes, ∀ b, step a b → b ∈ nodes)
    (ha : a ∈ nodes) :
    ∃ b ∈ nodes, ReflTransGen step a b ∧ ∀ c, ReflTransGen step b c → ReflTransGen step c b := by
  classical
  have hstays : ∀ a ∈ nodes, ∀ b, ReflTransGen step a b → b ∈ nodes := by
    intro a ha b hreach
    induction hreach with
    | refl => exact ha
    | tail _ hstep ih => exact hin _ ih _ hstep
  -- The nodes still ahead become fewer.
  induction hn : (nodes.filter fun c => ReflTransGen step a c).card using Nat.strong_induction_on
    generalizing a with
  | _ n ih =>
    by_cases hrec : ∀ c, ReflTransGen step a c → ReflTransGen step c a
    · exact ⟨a, ha, ReflTransGen.refl, hrec⟩
    · push Not at hrec
      obtain ⟨c, hac, hca⟩ := hrec
      have hfewer : (nodes.filter fun d => ReflTransGen step c d) ⊂
          nodes.filter fun d => ReflTransGen step a d := by
        refine Finset.ssubset_iff_of_subset ?_ |>.mpr ⟨a, ?_, ?_⟩
        · intro d hd
          obtain ⟨hmem, hcd⟩ := Finset.mem_filter.mp hd
          exact Finset.mem_filter.mpr ⟨hmem, hac.trans hcd⟩
        · exact Finset.mem_filter.mpr ⟨ha, ReflTransGen.refl⟩
        · exact fun hmem => hca (Finset.mem_filter.mp hmem).2
      obtain ⟨b, hb, hcb, hback⟩ :=
        ih _ (hn ▸ Finset.card_lt_card hfewer) (hstays a ha c hac) rfl
      exact ⟨b, hb, hac.trans hcb, hback⟩

/-- Nodes that keep their steps to themselves, each with one, have a cycle that no step leaves. -/
theorem exists_closedCycle {nodes : Finset α} (hin : ∀ a ∈ nodes, ∀ b, step a b → b ∈ nodes)
    (hnext : ∀ a ∈ nodes, ∃ b, step a b) (ha : a ∈ nodes) :
    ∃ walk, (∀ c ∈ walk, c ∈ nodes) ∧ ClosedCycle step walk := by
  classical
  obtain ⟨b, hb, -, hback⟩ := exists_recurrent hin ha
  obtain ⟨next, hstep⟩ := hnext b hb
  have hself : TransGen step b b := TransGen.head' hstep (hback next (ReflTransGen.single hstep))
  have hahead : ∀ c, ReflTransGen step b c → c ∈ nodes := by
    intro c hc
    induction hc with
    | refl => exact hb
    | tail _ hstep ih => exact hin _ ih _ hstep
  let targets := nodes.toList.filter fun c => decide (ReflTransGen step b c)
  have htargets : ∀ c, c ∈ targets ↔ c ∈ nodes ∧ ReflTransGen step b c := by
    intro c
    rw [List.mem_filter, Finset.mem_toList, decide_eq_true_eq]
  obtain ⟨rest, hwalk, hcovers⟩ := exists_covering_walk hself fun c hc =>
    ⟨((htargets c).mp hc).2, hback c ((htargets c).mp hc).2⟩
  have hreached : ∀ c ∈ b :: rest, ReflTransGen step b c := by
    intro c hc
    refine reflTransGen_of_mem hwalk ?_
    rw [← List.cons_append]
    exact List.mem_append_left _ hc
  refine ⟨b :: rest, fun c hc => hahead c (hreached c hc), ⟨b, rest, rfl, hwalk⟩, ?_⟩
  intro c hc d hstep
  have hd := (hreached c hc).tail hstep
  exact hcovers d ((htargets d).mpr ⟨hahead d hd, hd⟩)

/-- Every node leads to the goal exactly when no cycle of nodes keeps all its steps to itself. -/
theorem forall_reaches_iff {goal : α} {nodes : List α} (hgoal : goal ∉ nodes)
    (hnext : ∀ a ∈ nodes, ∃ b, step a b)
    (hin : ∀ a ∈ nodes, ∀ b, step a b → b = goal ∨ b ∈ nodes) :
    (∀ a ∈ nodes, ReflTransGen step a goal) ↔
      ∀ walk, walk ⊆ nodes → ¬ ClosedCycle step walk := by
  classical
  constructor
  · rintro hreach walk hsub ⟨⟨a, rest, rfl, -⟩, hclosed⟩
    have hstays : ∀ b, ReflTransGen step a b → b ∈ a :: rest := by
      intro b hb
      induction hb with
      | refl => exact List.mem_cons_self
      | tail _ hstep ih => exact hclosed _ ih _ hstep
    exact hgoal (hsub (hstays goal (hreach a (hsub List.mem_cons_self))))
  · intro hno a ha
    by_contra hlost
    let lost := nodes.toFinset.filter fun b => ¬ ReflTransGen step b goal
    have hmem : ∀ b, b ∈ lost ↔ b ∈ nodes ∧ ¬ ReflTransGen step b goal := by
      intro b
      rw [Finset.mem_filter, List.mem_toFinset]
    have hkeeps : ∀ b ∈ lost, ∀ c, step b c → c ∈ lost := by
      intro b hb c hstep
      obtain ⟨hbn, hbg⟩ := (hmem b).mp hb
      rcases hin b hbn c hstep with rfl | hc
      · exact absurd (ReflTransGen.single hstep) hbg
      · exact (hmem c).mpr ⟨hc, fun hcg => hbg (ReflTransGen.head hstep hcg)⟩
    obtain ⟨walk, hsub, hcycle⟩ := exists_closedCycle hkeeps
      (fun b hb => hnext b ((hmem b).mp hb).1) ((hmem a).mpr ⟨ha, hlost⟩)
    exact hno walk (fun c hc => ((hmem c).mp (hsub c hc)).1) hcycle

end Averin
