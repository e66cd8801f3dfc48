import Mathlib.Data.List.Basic
import Mathlib.Logic.Relation
import Mathlib.Algebra.BigOperators.Group.List.Basic
import Mathlib.Tactic

/-!
# Worklist exploration

Depth-first search with an explicit stack. Each node is expanded once, so the stack
entries ever pushed are bounded by the start list and the edges of the graph; with that
much fuel the visited list is exactly what the start list reaches.
-/

namespace Averin

variable {α : Type*}

/-- What is reached from a list of nodes. -/
def ReachedFrom (succ : α → List α) (start : List α) (x : α) : Prop :=
  ∃ s ∈ start, Relation.ReflTransGen (fun c p => p ∈ succ c) s x

variable {succ : α → List α} {nodes : List α}

theorem ReachedFrom.of_mem {start : List α} {x : α} (h : x ∈ start) : ReachedFrom succ start x :=
  ⟨x, h, .refl⟩

/-- A successor of what is reached is reached. -/
theorem ReachedFrom.step {start : List α} {x y : α} (h : ReachedFrom succ start x)
    (hy : y ∈ succ x) : ReachedFrom succ start y := by
  obtain ⟨s, hs, hr⟩ := h
  exact ⟨s, hs, hr.tail hy⟩

/-- A set that holds the start and is closed under successors holds all that is reached. -/
theorem ReachedFrom.mem_of_closed {start : List α} {P : α → Prop} {x : α}
    (h : ReachedFrom succ start x) (hstart : ∀ s ∈ start, P s)
    (hclosed : ∀ c, P c → ∀ p ∈ succ c, P p) : P x := by
  obtain ⟨s, hs, hr⟩ := h
  induction hr with
  | refl => exact hstart s hs
  | tail _ hp ih => exact hclosed _ ih _ hp

/-- Visited nodes and what the stack reaches stay together: what is visited has its
successors visited or waiting. -/
theorem closed_visited_or_reached {visited stack : List α}
    (hclosed : ∀ v ∈ visited, ∀ p ∈ succ v, p ∈ visited ∨ p ∈ stack) (c : α)
    (hc : c ∈ visited ∨ ReachedFrom succ stack c) (p : α) (hp : p ∈ succ c) :
    p ∈ visited ∨ ReachedFrom succ stack p := by
  rcases hc with hc | hc
  · exact (hclosed c hc p hp).imp_right .of_mem
  · exact Or.inr (hc.step hp)

/-- Exploration around a closed region. If the region is what `prev` reaches, and the walk
that does not leave the region meets every member of `prev`, then together they are all
that is reached. -/
theorem reachedFrom_iff_around {inside : α → Prop} {open' : α → List α} {prev start : List α}
    (hin : ∀ x, inside x ↔ ReachedFrom succ prev x) (hout : ∀ x, ¬ inside x → open' x = succ x)
    (hsub : ∀ x, ∀ p ∈ open' x, p ∈ succ x) (hmet : ∀ m ∈ prev, ReachedFrom open' start m)
    {x : α} : ReachedFrom succ start x ↔ inside x ∨ ReachedFrom open' start x := by
  have hmono : ∀ y, ReachedFrom open' start y → ReachedFrom succ start y := fun y hy =>
    hy.mem_of_closed (fun _ hs => .of_mem hs) fun c hc p hp => hc.step (hsub c p hp)
  constructor
  · intro hx
    refine hx.mem_of_closed (fun s hs => Or.inr (.of_mem hs)) fun c hc p hp => ?_
    by_cases hci : inside c
    · exact Or.inl ((hin p).mpr (((hin c).mp hci).step hp))
    · have hc' := hc.resolve_left hci
      exact Or.inr (hc'.step (by rwa [hout c hci]))
  · rintro (hx | hx)
    · exact ((hin x).mp hx).mem_of_closed (fun m hm => hmono m (hmet m hm))
        fun c hc p hp => hc.step hp
    · exact hmono x hx

variable [DecidableEq α]

/-- Pop a node; if it is new, visit it and push its successors, last one on top. -/
def explore (succ : α → List α) : (fuel : Nat) → (stack visited : List α) → List α
  | 0, _, visited => visited
  | _ + 1, [], visited => visited
  | fuel + 1, x :: stack, visited =>
    if x ∈ visited then explore succ fuel stack visited
    else explore succ fuel ((succ x).reverse ++ stack) (visited ++ [x])

/-- The edges out of the nodes of a list that are not visited yet. -/
def openEdges (succ : α → List α) (nodes visited : List α) : Nat :=
  ((nodes.filter (· ∉ visited)).map fun x => (succ x).length).sum

/-- Visiting a node closes its edges. -/
theorem openEdges_snoc (succ : α → List α) (hnodes : nodes.Nodup) {visited : List α} {x : α}
    (hx : x ∉ visited) (hin : x ∈ nodes) :
    openEdges succ nodes (visited ++ [x]) + (succ x).length = openEdges succ nodes visited := by
  have hmem : x ∈ nodes.filter (· ∉ visited) := by simp [hin, hx]
  have hnodup : (nodes.filter (· ∉ visited)).Nodup := hnodes.filter _
  have hperm : (nodes.filter (· ∉ visited)).Perm (x :: nodes.filter (· ∉ visited ++ [x])) := by
    refine (List.perm_ext_iff_of_nodup hnodup ?_).mpr fun y => ?_
    · exact List.nodup_cons.mpr ⟨by simp, hnodes.filter _⟩
    · simp only [List.mem_filter, List.mem_cons, List.mem_append, List.not_mem_nil, or_false,
        decide_eq_true_eq, not_or]
      by_cases hy : y = x
      · subst hy
        simp [hin, hx]
      · simp [hy]
  have hsum := (hperm.map fun x => (succ x).length).sum_eq
  rw [List.map_cons, List.sum_cons] at hsum
  unfold openEdges
  omega

/-- Nodes without successors leave nothing open. -/
theorem openEdges_snoc_le (visited : List α) (x : α) :
    openEdges succ nodes (visited ++ [x]) ≤ openEdges succ nodes visited := by
  unfold openEdges
  have hsub : (nodes.filter (· ∉ visited ++ [x])).Sublist (nodes.filter (· ∉ visited)) := by
    refine List.monotone_filter_right nodes fun y => ?_
    simp only [List.mem_append, List.mem_singleton, decide_eq_true_eq, not_or]
    exact fun h => h.1
  exact (hsub.map _).sum_le_sum fun _ _ => Nat.zero_le _

/-- With enough fuel the exploration visits what was visited and what the stack reaches,
each node once. -/
theorem explore_spec (hnodes : nodes.Nodup) (hout : ∀ x ∉ nodes, succ x = []) (fuel : Nat)
    {stack visited : List α} (hf : stack.length + openEdges succ nodes visited ≤ fuel)
    (hn : visited.Nodup)
    (hclosed : ∀ v ∈ visited, ∀ p ∈ succ v, p ∈ visited ∨ p ∈ stack) :
    (explore succ fuel stack visited).Nodup ∧
      ∀ x, x ∈ explore succ fuel stack visited ↔ x ∈ visited ∨ ReachedFrom succ stack x := by
  have hnil : ∀ x, ¬ ReachedFrom succ [] x := by simp [ReachedFrom]
  induction fuel generalizing stack visited with
  | zero =>
    obtain rfl : stack = [] := List.length_eq_zero_iff.mp (by omega)
    exact ⟨hn, by simp [explore, hnil]⟩
  | succ fuel ih =>
    cases stack with
    | nil => exact ⟨hn, by simp [explore, hnil]⟩
    | cons x stack =>
      rw [List.length_cons] at hf
      rw [explore]
      split_ifs with hx
      · have hclosed' : ∀ v ∈ visited, ∀ p ∈ succ v, p ∈ visited ∨ p ∈ stack := by
          intro v hv p hp
          rcases hclosed v hv p hp with h | h
          · exact Or.inl h
          · rcases List.mem_cons.mp h with rfl | h
            · exact Or.inl hx
            · exact Or.inr h
        obtain ⟨hnodup, hmem⟩ := ih (by omega) hn hclosed'
        refine ⟨hnodup, fun y => (hmem y).trans ⟨?_, ?_⟩⟩
        · exact Or.imp_right fun ⟨s, hs, hr⟩ => ⟨s, by simp [hs], hr⟩
        · rintro (hy | hy)
          · exact Or.inl hy
          · refine hy.mem_of_closed ?_ (closed_visited_or_reached hclosed')
            exact List.forall_mem_cons.mpr ⟨Or.inl hx, fun s hs => Or.inr (.of_mem hs)⟩
      · have hlen : (succ x).length + openEdges succ nodes (visited ++ [x]) ≤
            openEdges succ nodes visited := by
          by_cases hin : x ∈ nodes
          · have := openEdges_snoc succ hnodes hx hin
            omega
          · rw [hout x hin, List.length_nil, Nat.zero_add]
            exact openEdges_snoc_le visited x
        have hclosed' : ∀ v ∈ visited ++ [x], ∀ p ∈ succ v,
            p ∈ visited ++ [x] ∨ p ∈ (succ x).reverse ++ stack := by
          intro v hv p hp
          rw [List.mem_append, List.mem_singleton] at hv
          rcases hv with hv | rfl
          · rcases hclosed v hv p hp with h | h
            · exact Or.inl (by simp [h])
            · rcases List.mem_cons.mp h with rfl | h
              · exact Or.inl (by simp)
              · exact Or.inr (by simp [h])
          · exact Or.inr (by simp [hp])
        have hn' : (visited ++ [x]).Nodup :=
          List.nodup_append.mpr ⟨hn, List.nodup_singleton x, by
            intro a ha b hb
            rintro rfl
            exact hx (List.mem_singleton.mp hb ▸ ha)⟩
        obtain ⟨hnodup, hmem⟩ := ih
          (by rw [List.length_append, List.length_reverse]; omega) hn' hclosed'
        refine ⟨hnodup, fun y => (hmem y).trans ⟨?_, ?_⟩⟩
        · have hself : ReachedFrom succ (x :: stack) x := .of_mem (by simp)
          rintro (hy | hy)
          · rw [List.mem_append, List.mem_singleton] at hy
            rcases hy with hy | rfl
            · exact Or.inl hy
            · exact Or.inr hself
          · refine Or.inr (hy.mem_of_closed (fun s hs => ?_) fun c hc p hp => hc.step hp)
            rw [List.mem_append, List.mem_reverse] at hs
            rcases hs with hs | hs
            · exact hself.step hs
            · exact .of_mem (by simp [hs])
        · rintro (hy | hy)
          · exact Or.inl (by simp [hy])
          · refine hy.mem_of_closed ?_ (closed_visited_or_reached hclosed')
            exact List.forall_mem_cons.mpr
              ⟨Or.inl (by simp), fun s hs => Or.inr (.of_mem (by simp [hs]))⟩

/-- Exploration from scratch. -/
theorem mem_explore_iff (hnodes : nodes.Nodup) (hout : ∀ x ∉ nodes, succ x = []) {fuel : Nat}
    {stack : List α} (hf : stack.length + openEdges succ nodes [] ≤ fuel) (x : α) :
    x ∈ explore succ fuel stack [] ↔ ReachedFrom succ stack x := by
  rw [(explore_spec hnodes hout _ hf List.nodup_nil (by simp)).2]
  simp

end Averin
