import Averin.Core.Kahn

/-!
# Runs of Kahn's algorithm

The loop with its partial steps: reading a counter that is not there, counting down from zero
and running on past the given rounds all stop a run. On a graph whose counters are right none of
them happens, and what is left over at the end of the loop is a cycle.
-/

namespace Averin

open Std (TreeMap TransOrd LawfulEqOrd)

variable {α : Type*} {par : α → List α} {nodes topo : List α}

section Run

variable [Ord α]

/-- Count down each child; a missing counter or one at zero stops the run. -/
def releaseRun : List α → TreeMap α Nat → Option (TreeMap α Nat × List α)
  | [], indeg => some (indeg, [])
  | c :: cs, indeg =>
    indeg[c]?.bind fun d =>
      if d = 0 then none
      else
        (releaseRun cs (indeg.insert c (d - 1))).map fun r =>
          (r.1, if d - 1 = 0 then c :: r.2 else r.2)

/-- The queue loop; a run that is not over after `fuel` rounds is none. -/
def kahnRun [LE α] [DecidableLE α] (children : TreeMap α (List α)) :
    (fuel : Nat) → (queue : List α) → TreeMap α Nat → (topo : List α) → Option (List α)
  | _, [], _, topo => some topo
  | 0, _ :: _, _, _ => none
  | fuel + 1, n :: queue, indeg, topo =>
    (releaseRun (children.getD n []) indeg).bind fun r =>
      kahnRun children fuel (queue ++ r.2.insertionSort (· ≤ ·)) r.1 (topo ++ [n])

/-- Counters above zero are counted down. -/
theorem releaseRun_eq [TransOrd α] [LawfulEqOrd α] {cs : List α} (hcs : cs.Nodup)
    {indeg : TreeMap α Nat} (hpos : ∀ c ∈ cs, indeg.getD c 0 ≠ 0) :
    releaseRun cs indeg = some (release cs indeg) := by
  induction cs generalizing indeg with
  | nil => rfl
  | cons c cs ih =>
    obtain ⟨hc, hcs⟩ := List.nodup_cons.mp hcs
    obtain ⟨hd, hpos⟩ := List.forall_mem_cons.mp hpos
    have hget : indeg[c]? = some (indeg.getD c 0) := by
      rw [TreeMap.getD_eq_getD_getElem?] at hd ⊢
      cases hi : indeg[c]? with
      | none => simp [hi] at hd
      | some d => rfl
    have hrest : ∀ v ∈ cs, (indeg.insert c (indeg.getD c 0 - 1)).getD v 0 ≠ 0 := by
      intro v hv
      have hne : c ≠ v := by
        rintro rfl
        exact hc hv
      rw [TreeMap.getD_insert, if_neg (by simpa using hne)]
      exact hpos v hv
    rw [releaseRun, release, hget, Option.bind_some, if_neg hd, ih hcs hrest]
    rfl

variable [DecidableEq α] {children : TreeMap α (List α)}

/-- A queued node is an unfinished parent of its children, so their counters are positive. -/
theorem KahnInv.counter_ne_zero (hg : KahnGraph nodes par children) {n : α} {queue : List α}
    {indeg : TreeMap α Nat} (h : KahnInv nodes par (n :: queue) topo indeg) :
    ∀ c ∈ children.getD n [], indeg.getD c 0 ≠ 0 := by
  intro c hc
  have hnode : n ∈ nodes := h.subset n (by simp)
  obtain ⟨hcn, hpar⟩ := (hg.mem_children n hnode c).mp hc
  have hntopo : n ∉ topo := fun hmem =>
    (List.nodup_append.mp h.nodup).2.2 n hmem n (by simp) rfl
  rw [h.count c hcn]
  intro hzero
  rw [List.length_eq_zero_iff, List.filter_eq_nil_iff] at hzero
  exact hzero n hpar (by simpa using hntopo)

variable [TransOrd α] [LawfulEqOrd α] [LE α] [DecidableLE α]

/-- With enough rounds the run is the loop: no step of it is stopped. -/
theorem kahnRun_eq (hg : KahnGraph nodes par children) {queue : List α} {indeg : TreeMap α Nat}
    (h : KahnInv nodes par queue topo indeg) {fuel fuel' : Nat}
    (hf : nodes.length ≤ topo.length + fuel) (hf' : nodes.length ≤ topo.length + fuel') :
    kahnRun children fuel queue indeg topo = some (kahn children fuel' queue indeg topo) := by
  induction fuel generalizing queue topo indeg fuel' with
  | zero =>
    have hlen := (h.nodup.subperm h.subset).length_le
    rw [List.length_append] at hlen
    obtain rfl : queue = [] := List.length_eq_zero_iff.mp (by omega)
    cases fuel' <;> rfl
  | succ fuel ih =>
    cases queue with
    | nil => cases fuel' <;> rfl
    | cons n queue =>
      have hlen := (h.nodup.subperm h.subset).length_le
      rw [List.length_append, List.length_cons] at hlen
      obtain ⟨k, rfl⟩ : ∃ k, fuel' = k + 1 := ⟨fuel' - 1, by omega⟩
      have hnode : n ∈ nodes := h.subset n (by simp)
      rw [kahnRun, releaseRun_eq (hg.children_nodup n hnode) (h.counter_ne_zero hg), kahn]
      refine ih (h.step hg) ?_ ?_
      · rw [List.length_append, List.length_singleton]
        omega
      · rw [List.length_append, List.length_singleton]
        omega

end Run

/-- Without a cycle, some node outside a list has all its parents in the list. -/
theorem exists_parents_mem (hacyclic : ∀ v, ¬ Relation.TransGen (fun c p => p ∈ par c) v v)
    (hsub : ∀ v ∈ nodes, ∀ p ∈ par v, p ∈ nodes) {v : α} (hv : v ∈ nodes) (hout : v ∉ topo) :
    ∃ m ∈ nodes, m ∉ topo ∧ ∀ p ∈ par m, p ∈ topo := by
  have hfin : Finite { x // x ∈ nodes } := List.finite_toSet nodes
  let r : { x // x ∈ nodes } → { x // x ∈ nodes } → Prop := fun p c =>
    Relation.TransGen (fun c p => p ∈ par c) c.1 p.1
  have htrans : IsTrans { x // x ∈ nodes } r := ⟨fun _ _ _ hab hbc => hbc.trans hab⟩
  have hirrefl : Std.Irrefl r := ⟨fun a => hacyclic a.1⟩
  have hwf : WellFounded r := Finite.wellFounded_of_trans_of_irrefl r
  obtain ⟨m, hm, hmin⟩ := hwf.has_min { x | x.1 ∉ topo } ⟨⟨v, hv⟩, hout⟩
  refine ⟨m.1, m.2, hm, fun p hp => ?_⟩
  by_contra hpt
  exact hmin ⟨p, hsub m.1 m.2 p hp⟩ hpt (.single hp)

/-- Without a cycle the loop ends only when every node is finished. -/
theorem KahnInv.length_eq_of_acyclic [DecidableEq α] [Ord α] {indeg : TreeMap α Nat}
    (h : KahnInv nodes par [] topo indeg) (hnodes : nodes.Nodup)
    (hsub : ∀ v ∈ nodes, ∀ p ∈ par v, p ∈ nodes)
    (hacyclic : ∀ v, ¬ Relation.TransGen (fun c p => p ∈ par c) v v) :
    topo.length = nodes.length := by
  have hall : ∀ v ∈ nodes, v ∈ topo := by
    intro v hv
    by_contra hout
    obtain ⟨m, hm, hmt, hpar⟩ := exists_parents_mem hacyclic hsub hv hout
    have hzero : indeg.getD m 0 = 0 := by
      rw [h.count m hm, List.length_eq_zero_iff, List.filter_eq_nil_iff]
      simpa using hpar
    exact hmt (by simpa using (h.free m hm).mpr hzero)
  have hnodup := h.nodup
  rw [List.append_nil] at hnodup
  refine le_antisymm (hnodup.subperm fun v hv => h.subset v (by simpa using hv)).length_le ?_
  exact (hnodes.subperm hall).length_le

/-- An order with parents first has no cycle among its members. -/
theorem ParentsFirst.acyclic (h : ParentsFirst par topo) (hn : topo.Nodup)
    (hsub : ∀ c p, p ∈ par c → c ∈ topo) (v : α) :
    ¬ Relation.TransGen (fun c p => p ∈ par c) v v := by
  have hlt : ∀ {c p : α}, Relation.TransGen (fun c p => p ∈ par c) c p →
      ∀ k : Nat, topo[k]? = some c → ∃ j < k, topo[j]? = some p := by
    intro c p hcp
    induction hcp with
    | single hp => exact fun k hk => h.exists_lt hk hp
    | tail _ hp ih =>
      intro k hk
      obtain ⟨j, hj, hget⟩ := ih k hk
      obtain ⟨i, hi, hget'⟩ := h.exists_lt hget hp
      exact ⟨i, hi.trans hj, hget'⟩
  intro hcycle
  obtain ⟨p, hp, -⟩ := Relation.TransGen.head'_iff.mp hcycle
  obtain ⟨k, hk⟩ := List.getElem?_of_mem (hsub v p hp)
  obtain ⟨j, hj, hget⟩ := hlt hcycle k hk
  have hkl : k < topo.length := (List.getElem?_eq_some_iff.mp hk).1
  exact hj.ne ((List.getElem?_inj (hj.trans hkl) hn).mp (hget.trans hk.symm))

end Averin
