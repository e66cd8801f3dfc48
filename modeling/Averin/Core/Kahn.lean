import Mathlib.Data.List.Sort
import Mathlib.Data.List.Dedup
import Mathlib.Data.String.Basic
import Mathlib.Logic.Relation
import Mathlib.Tactic

/-!
# Kahn's algorithm

Topological sorting by counting unfinished parents. The loop takes nodes from a queue,
counts down their children and appends those that reach zero. Its invariant says that
the finished list has parents first and that the queue is exactly the set of free nodes.
-/

namespace Averin

open Std (TreeMap TransOrd LawfulEqOrd)

variable {α : Type*} {par : α → List α} {nodes topo : List α}

/-- Every listed node comes after its parents. -/
inductive ParentsFirst (par : α → List α) : List α → Prop
  | nil : ParentsFirst par []
  | snoc {topo : List α} {n : α} : ParentsFirst par topo → (∀ p ∈ par n, p ∈ topo) →
      ParentsFirst par (topo ++ [n])

/-- A parent of what is ordered is ordered. -/
theorem ParentsFirst.mem (h : ParentsFirst par topo) {c p : α} (hc : c ∈ topo)
    (hp : p ∈ par c) : p ∈ topo := by
  induction h with
  | nil => cases hc
  | @snoc topo n _ hn ih =>
    rw [List.mem_append, List.mem_singleton] at hc ⊢
    rcases hc with hc | rfl
    · exact Or.inl (ih hc)
    · exact Or.inl (hn p hp)

/-- With fewer parents an order is still one. -/
theorem ParentsFirst.mono {par' : α → List α} (h : ParentsFirst par topo)
    (hsub : ∀ c, ∀ p ∈ par' c, p ∈ par c) : ParentsFirst par' topo := by
  induction h with
  | nil => exact .nil
  | @snoc topo n _ hn ih => exact ih.snoc fun p hp => hn p (hsub n p hp)

/-- A parent stands at an earlier position. -/
theorem ParentsFirst.exists_lt (h : ParentsFirst par topo) {k : Nat} {c p : α}
    (hc : topo[k]? = some c) (hp : p ∈ par c) : ∃ j < k, topo[j]? = some p := by
  induction h with
  | nil => simp at hc
  | @snoc topo n _ hn ih =>
    rcases Nat.lt_trichotomy k topo.length with hlt | rfl | hgt
    · rw [List.getElem?_append_left hlt] at hc
      obtain ⟨j, hj, hget⟩ := ih hc
      exact ⟨j, hj, by rw [List.getElem?_append_left (by omega), hget]⟩
    · obtain rfl : n = c := by simpa using hc
      obtain ⟨j, hj, hget⟩ := List.getElem_of_mem (hn p hp)
      exact ⟨j, hj, by rw [List.getElem?_append_left hj, List.getElem?_eq_getElem hj, hget]⟩
    · rw [List.getElem?_eq_none (by simpa using hgt)] at hc
      cases hc

/-- Every listed node is an ancestor of a listed node without listed children. -/
theorem ParentsFirst.exists_sink (h : ParentsFirst par topo) (hn : topo.Nodup) {v : α}
    (hv : v ∈ topo) :
    ∃ s ∈ topo, (∀ c ∈ topo, s ∉ par c) ∧
      Relation.ReflTransGen (fun c p => p ∈ par c) s v := by
  induction h generalizing v with
  | nil => cases hv
  | @snoc topo n htopo hpar ih =>
    obtain ⟨hn1, -, hdisj⟩ := List.nodup_append.mp hn
    have hnot : n ∉ topo := fun hmem => hdisj n hmem n (by simp) rfl
    have hsink : ∀ c ∈ topo ++ [n], n ∉ par c := by
      intro c hc hnc
      rw [List.mem_append, List.mem_singleton] at hc
      rcases hc with hc | rfl
      · exact hnot (htopo.mem hc hnc)
      · exact hnot (hpar c hnc)
    rw [List.mem_append, List.mem_singleton] at hv
    rcases hv with hv | rfl
    · obtain ⟨s, hs, hno, hreach⟩ := ih hn1 hv
      by_cases hsn : s ∈ par n
      · exact ⟨n, by simp, hsink, Relation.ReflTransGen.head hsn hreach⟩
      · refine ⟨s, by simp [hs], ?_, hreach⟩
        intro c hc
        rw [List.mem_append, List.mem_singleton] at hc
        rcases hc with hc | rfl
        · exact hno c hc
        · exact hsn
    · exact ⟨v, by simp, hsink, .refl⟩

/-- Finishing one node takes it off the unfinished parents of its children. -/
theorem length_filter_not_mem_snoc [DecidableEq α] {l : List α} {n : α} (hl : l.Nodup)
    (hn : n ∉ topo) :
    (l.filter (· ∉ topo ++ [n])).length =
      if n ∈ l then (l.filter (· ∉ topo)).length - 1 else (l.filter (· ∉ topo)).length := by
  have hsplit : l.filter (· ∉ topo ++ [n]) = (l.filter (· ∉ topo)).filter (· ≠ n) := by
    rw [List.filter_filter]
    refine List.filter_congr fun x _ => ?_
    simp [and_comm]
  have hnodup : (l.filter (· ∉ topo)).Nodup := hl.filter _
  rw [hsplit]
  split_ifs with hmem
  · have hmem' : n ∈ l.filter (· ∉ topo) := by simp [hmem, hn]
    have herase : (l.filter (· ∉ topo)).filter (· ≠ n) = (l.filter (· ∉ topo)).erase n := by
      rw [hnodup.erase_eq_filter]
      exact List.filter_congr fun x _ => by by_cases h : x = n <;> simp [h]
    rw [herase, List.length_erase_of_mem hmem']
  · rw [List.filter_eq_self.mpr]
    intro x hx
    simp only [decide_eq_true_eq]
    rintro rfl
    exact hmem (List.mem_of_mem_filter hx)

variable [Ord α]

/-- Count down each child; those that reach zero are free. -/
def release : List α → TreeMap α Nat → TreeMap α Nat × List α
  | [], indeg => (indeg, [])
  | c :: cs, indeg =>
    let d := indeg.getD c 0 - 1
    let r := release cs (indeg.insert c d)
    (r.1, if d = 0 then c :: r.2 else r.2)

/-- The queue loop; `fuel` bounds its rounds. -/
def kahn [LE α] [DecidableLE α] (children : TreeMap α (List α)) :
    (fuel : Nat) → (queue : List α) → TreeMap α Nat → (topo : List α) → List α
  | 0, _, _, topo => topo
  | _ + 1, [], _, topo => topo
  | fuel + 1, n :: queue, indeg, topo =>
    let r := release (children.getD n []) indeg
    kahn children fuel (queue ++ r.2.insertionSort (· ≤ ·)) r.1 (topo ++ [n])

/-- Only children are released. -/
theorem release_sublist (cs : List α) (indeg : TreeMap α Nat) :
    (release cs indeg).2.Sublist cs := by
  induction cs generalizing indeg with
  | nil => exact List.Sublist.refl []
  | cons c cs ih =>
    simp only [release]
    split_ifs
    · exact (ih _).cons_cons c
    · exact (ih _).cons c

variable [DecidableEq α]

/-- What holds before every round: `count` is the number of unfinished parents, and the
nodes without any are the finished and the queued ones. -/
structure KahnInv (nodes : List α) (par : α → List α) (queue topo : List α)
    (indeg : TreeMap α Nat) : Prop where
  nodup : (topo ++ queue).Nodup
  subset : ∀ v ∈ topo ++ queue, v ∈ nodes
  count : ∀ v ∈ nodes, indeg.getD v 0 = ((par v).filter (· ∉ topo)).length
  free : ∀ v ∈ nodes, v ∈ topo ++ queue ↔ indeg.getD v 0 = 0
  first : ParentsFirst par topo

/-- The graph handed to the loop: parents without repetition, and the children lists are
the parent lists turned around. -/
structure KahnGraph (nodes : List α) (par : α → List α) (children : TreeMap α (List α)) :
    Prop where
  nodup : ∀ v ∈ nodes, (par v).Nodup
  children_nodup : ∀ n ∈ nodes, (children.getD n []).Nodup
  mem_children : ∀ n ∈ nodes, ∀ v, v ∈ children.getD n [] ↔ v ∈ nodes ∧ n ∈ par v

variable {children : TreeMap α (List α)}

/-- A queued node has only finished parents. -/
theorem KahnInv.parents_mem {n : α} {queue : List α} {indeg : TreeMap α Nat}
    (h : KahnInv nodes par queue topo indeg) (hn : n ∈ topo ++ queue) :
    ∀ p ∈ par n, p ∈ topo := by
  have hnode := h.subset n hn
  have hzero := (h.free n hnode).mp hn
  rw [h.count n hnode, List.length_eq_zero_iff, List.filter_eq_nil_iff] at hzero
  simpa using hzero

/-- A finished list as long as the node list lists every node once. -/
theorem KahnInv.perm {indeg : TreeMap α Nat}
    (h : KahnInv nodes par [] topo indeg) (hlen : topo.length = nodes.length) :
    topo.Perm nodes := by
  have hnodup := h.nodup
  have hsub := h.subset
  rw [List.append_nil] at hnodup hsub
  exact (hnodup.subperm hsub).perm_of_length_le (by omega)

/-- If some order lists parents first, the loop ends only when every node is finished. -/
theorem KahnInv.length_eq {indeg : TreeMap α Nat} (h : KahnInv nodes par [] topo indeg)
    (hnodes : nodes.Nodup) {order : List α} (hfirst : ParentsFirst par order)
    (hperm : order.Perm nodes) : topo.length = nodes.length := by
  have hall : ∀ v ∈ order, v ∈ topo := by
    have hsub : ∀ v ∈ order, v ∈ nodes := fun v hv => hperm.mem_iff.mp hv
    clear hperm
    induction hfirst with
    | nil => simp
    | @snoc before n _ hn ih =>
      have hbefore := ih fun v hv => hsub v (List.mem_append_left _ hv)
      intro v hv
      rcases List.mem_append.mp hv with hv | hv
      · exact hbefore v hv
      · obtain rfl := List.mem_singleton.mp hv
        have hnode := hsub v (by simp)
        have hzero : indeg.getD v 0 = 0 := by
          rw [h.count v hnode, List.length_eq_zero_iff, List.filter_eq_nil_iff]
          simpa using fun p hp => hbefore p (hn p hp)
        simpa using (h.free v hnode).mpr hzero
  have hnodup := h.nodup
  rw [List.append_nil] at hnodup
  refine le_antisymm (hnodup.subperm fun v hv => h.subset v (by simpa using hv)).length_le ?_
  exact (hnodes.subperm fun v hv => hall v (hperm.mem_iff.mpr hv)).length_le

variable [TransOrd α] [LawfulEqOrd α]

/-- Each child has one parent less to wait for. -/
theorem release_getD {cs : List α} (hcs : cs.Nodup) (indeg : TreeMap α Nat) (v : α) :
    (release cs indeg).1.getD v 0 =
      if v ∈ cs then indeg.getD v 0 - 1 else indeg.getD v 0 := by
  induction cs generalizing indeg with
  | nil => simp [release]
  | cons c cs ih =>
    rw [List.nodup_cons] at hcs
    rw [release, ih hcs.2]
    simp only [TreeMap.getD_insert, Std.compare_eq_iff_eq]
    by_cases hv : c = v
    · subst hv
      simp [hcs.1]
    · simp [hv, Ne.symm hv]

/-- A child is released when its last parent is done. -/
theorem mem_release {cs : List α} (hcs : cs.Nodup) (indeg : TreeMap α Nat) (v : α) :
    v ∈ (release cs indeg).2 ↔ v ∈ cs ∧ indeg.getD v 0 - 1 = 0 := by
  induction cs generalizing indeg with
  | nil => simp [release]
  | cons c cs ih =>
    rw [List.nodup_cons] at hcs
    have hrest : v ∈ (release cs (indeg.insert c (indeg.getD c 0 - 1))).2 ↔
        v ∈ cs ∧ indeg.getD v 0 - 1 = 0 := by
      rw [ih hcs.2]
      simp only [TreeMap.getD_insert, Std.compare_eq_iff_eq]
      refine and_congr_right fun hv => ?_
      have hne : c ≠ v := by
        rintro rfl
        exact hcs.1 hv
      rw [if_neg hne]
    simp only [release]
    split_ifs with hd
    · rw [List.mem_cons, List.mem_cons, hrest]
      constructor
      · rintro (rfl | h)
        · exact ⟨Or.inl rfl, hd⟩
        · exact ⟨Or.inr h.1, h.2⟩
      · rintro ⟨rfl | h, h0⟩
        · exact Or.inl rfl
        · exact Or.inr ⟨h, h0⟩
    · rw [List.mem_cons, hrest]
      constructor
      · exact fun h => ⟨Or.inr h.1, h.2⟩
      · rintro ⟨rfl | h, h0⟩
        · exact absurd h0 hd
        · exact ⟨h, h0⟩

variable [LE α] [DecidableLE α]

/-- One round keeps the invariant. -/
theorem KahnInv.step (hg : KahnGraph nodes par children) {n : α} {queue : List α}
    {indeg : TreeMap α Nat} (h : KahnInv nodes par (n :: queue) topo indeg) :
    KahnInv nodes par
      (queue ++ (release (children.getD n []) indeg).2.insertionSort (· ≤ ·)) (topo ++ [n])
      (release (children.getD n []) indeg).1 := by
  have hnode : n ∈ nodes := h.subset n (by simp)
  have hntopo : n ∉ topo := fun hmem =>
    (List.nodup_append.mp h.nodup).2.2 n hmem n (by simp) rfl
  have hcs := hg.children_nodup n hnode
  have hget := release_getD hcs indeg
  have hfree : ∀ v, v ∈ (release (children.getD n []) indeg).2.insertionSort (· ≤ ·) ↔
      v ∈ children.getD n [] ∧ indeg.getD v 0 - 1 = 0 := by
    intro v
    rw [(List.perm_insertionSort _ _).mem_iff, mem_release hcs]
  -- A child of the node still counts it among its unfinished parents.
  have hchild : ∀ v ∈ children.getD n [], v ∉ topo ++ n :: queue := by
    intro v hv hmem
    exact hntopo (h.parents_mem hmem n ((hg.mem_children n hnode v).mp hv).2)
  have hlist : topo ++ [n] ++ (queue ++
      (release (children.getD n []) indeg).2.insertionSort (· ≤ ·)) =
      (topo ++ n :: queue) ++ (release (children.getD n []) indeg).2.insertionSort (· ≤ ·) := by
    simp
  refine ⟨?_, ?_, ?_, ?_, ?_⟩
  · rw [hlist]
    refine List.Nodup.append h.nodup ?_ ?_
    · exact (List.perm_insertionSort _ _).nodup_iff.mpr ((release_sublist _ _).nodup hcs)
    · intro v hv hv'
      exact hchild v ((hfree v).mp hv').1 hv
  · rw [hlist]
    intro v hv
    rcases List.mem_append.mp hv with hv | hv
    · exact h.subset v hv
    · exact ((hg.mem_children n hnode v).mp ((hfree v).mp hv).1).1
  · intro v hv
    rw [hget, length_filter_not_mem_snoc (hg.nodup v hv) hntopo, h.count v hv]
    have hiff : v ∈ children.getD n [] ↔ n ∈ par v := by
      rw [hg.mem_children n hnode]
      exact and_iff_right hv
    simp only [hiff]
  · intro v hv
    rw [hlist, List.mem_append, hfree, hget]
    split_ifs with hc
    · simp [hchild v hc, hc]
    · rw [h.free v hv]
      simp [hc]
  · exact h.first.snoc (h.parents_mem (by simp))

/-- With as much fuel as there are nodes left the loop empties its queue. -/
theorem kahn_inv (fuel : Nat) (hg : KahnGraph nodes par children)
    {queue : List α} {indeg : TreeMap α Nat} (h : KahnInv nodes par queue topo indeg)
    (hf : nodes.length ≤ topo.length + fuel) :
    ∃ indeg', KahnInv nodes par [] (kahn children fuel queue indeg topo) indeg' := by
  induction fuel generalizing queue topo indeg with
  | zero =>
    have hlen := (h.nodup.subperm h.subset).length_le
    rw [List.length_append] at hlen
    obtain rfl : queue = [] := List.length_eq_zero_iff.mp (by omega)
    exact ⟨indeg, h⟩
  | succ fuel ih =>
    cases queue with
    | nil => exact ⟨indeg, h⟩
    | cons n queue =>
      rw [kahn]
      exact ih (h.step hg) (by rw [List.length_append, List.length_singleton]; omega)

end Averin
