import Averin.Core.Sha256
import Averin.Verify.LogCursor

/-!
# Answers of the cursor

The walk of a cursor is a plain exploration of the graph in which the last closure has no
parents. The invariant says that the closure, the log, the accumulators and the gap are
those of the last frontier; every answer keeps it, and it determines the answer.
-/

namespace Averin

open Std (TreeMap TreeSet)

/-- The parents a walk follows: none out of the last closure. -/
def openParents (idx : LogIndex) (inPrev : List Bool) (x : Nat) : List Nat :=
  if inPrev.getD x false then [] else idx.dag.parentsOf x

/-- A parent that is open is a parent. -/
theorem openParents_subset {idx : LogIndex} {inPrev : List Bool} {x p : Nat}
    (hp : p ∈ openParents idx inPrev x) : p ∈ idx.dag.parentsOf x := by
  unfold openParents at hp
  split_ifs at hp
  · cases hp
  · exact hp

/-- The stamps of a walk that has visited the nodes `seen`. -/
structure Stamped (n : Nat) (inPrev : List Bool) (g : Nat) (seen visit hit fresh : List Nat) :
    Prop where
  visit_length : visit.length = n
  hit_length : hit.length = n
  visit_le : ∀ s ∈ visit, s ≤ g
  hit_le : ∀ s ∈ hit, s ≤ g
  visited : ∀ x < n, visit.getD x 0 = g ↔ x ∈ seen ∧ inPrev.getD x false = false
  met : ∀ x < n, hit.getD x 0 = g ↔ x ∈ seen ∧ inPrev.getD x false = true
  fresh_eq : fresh = seen.filter (inPrev.getD · false = false)

/-- What is read after one place was set. -/
theorem getD_set_eq_iff {l : List Nat} {x y g d : Nat} (hy : y < l.length) :
    (l.set x g).getD y d = g ↔ y = x ∨ l.getD y d = g := by
  rw [List.getD_eq_getElem?_getD, List.getElem?_set]
  by_cases hx : x = y
  · subst hx
    simp [hy]
  · simp [hx, Ne.symm hx]

namespace Stamped

variable {n g x : Nat} {inPrev : List Bool} {seen visit hit fresh : List Nat}
  (h : Stamped n inPrev g seen visit hit fresh)
include h

/-- Meeting a node of the last closure stamps it, again or for the first time. -/
theorem meet {seen' : List Nat} (hx : inPrev.getD x false = true)
    (hseen : seen' = if x ∈ seen then seen else seen ++ [x]) :
    Stamped n inPrev g seen' visit (hit.set x g) fresh := by
  have hmem : ∀ y, y ∈ seen' ↔ y = x ∨ y ∈ seen := by
    intro y
    subst hseen
    split_ifs with hs
    · exact ⟨Or.inr, fun h => h.elim (· ▸ hs) id⟩
    · simp [or_comm]
  refine ⟨h.visit_length, by simpa using h.hit_length, h.visit_le, ?_, ?_, ?_, ?_⟩
  · intro s hs
    rcases List.mem_or_eq_of_mem_set hs with hs | rfl
    · exact h.hit_le s hs
    · exact le_rfl
  · intro y hy
    rw [h.visited y hy, hmem]
    refine and_congr_left fun hp => ⟨Or.inr, ?_⟩
    rintro (rfl | hs)
    · rw [hx] at hp
      cases hp
    · exact hs
  · intro y hy
    rw [getD_set_eq_iff (h.hit_length ▸ hy), h.met y hy, hmem]
    constructor
    · rintro (rfl | ⟨hs, hp⟩)
      · exact ⟨Or.inl rfl, hx⟩
      · exact ⟨Or.inr hs, hp⟩
    · rintro ⟨rfl | hs, hp⟩
      · exact Or.inl rfl
      · exact Or.inr ⟨hs, hp⟩
  · rw [h.fresh_eq]
    subst hseen
    split_ifs with hs
    · rfl
    · rw [List.filter_append, List.filter_cons_of_neg (by simp only [hx]; decide),
        List.filter_nil, List.append_nil]

/-- A new node outside the last closure is stamped as visited and collected. -/
theorem visit_fresh (hx : inPrev.getD x false = false) :
    Stamped n inPrev g (seen ++ [x]) (visit.set x g) hit (fresh ++ [x]) := by
  refine ⟨by simpa using h.visit_length, h.hit_length, ?_, h.hit_le, ?_, ?_, ?_⟩
  · intro s hs
    rcases List.mem_or_eq_of_mem_set hs with hs | rfl
    · exact h.visit_le s hs
    · exact le_rfl
  · intro y hy
    rw [getD_set_eq_iff (h.visit_length ▸ hy), h.visited y hy, List.mem_append,
      List.mem_singleton]
    constructor
    · rintro (rfl | ⟨hs, hp⟩)
      · exact ⟨Or.inr rfl, hx⟩
      · exact ⟨Or.inl hs, hp⟩
    · rintro ⟨hs | rfl, hp⟩
      · exact Or.inr ⟨hs, hp⟩
      · exact Or.inl rfl
  · intro y hy
    rw [h.met y hy, List.mem_append, List.mem_singleton]
    refine and_congr_left fun hp => ⟨Or.inl, ?_⟩
    rintro (hs | rfl)
    · exact hs
    · rw [hx] at hp
      cases hp
  · rw [h.fresh_eq, List.filter_append, List.filter_cons_of_pos (by simp only [hx]; decide),
      List.filter_nil]

end Stamped

/-- The walk explores the open parents. -/
theorem walkLoop_stamped {idx : LogIndex} {inPrev : List Bool} {g : Nat} (fuel : Nat)
    {stack seen visit hit fresh : List Nat}
    (hlt : ∀ x, ∀ p ∈ idx.dag.parentsOf x, p < idx.dag.parents.length)
    (hstack : ∀ x ∈ stack, x < idx.dag.parents.length)
    (h : Stamped idx.dag.parents.length inPrev g seen visit hit fresh) :
    let out := LogCursor.walkLoop idx inPrev g fuel stack visit hit fresh
    Stamped idx.dag.parents.length inPrev g (explore (openParents idx inPrev) fuel stack seen)
      out.1 out.2.1 out.2.2 := by
  induction fuel generalizing stack seen visit hit fresh with
  | zero => exact h
  | succ fuel ih =>
    cases stack with
    | nil => exact h
    | cons x stack =>
      obtain ⟨hx, hstack'⟩ := List.forall_mem_cons.mp hstack
      rw [LogCursor.walkLoop, explore]
      cases hp : inPrev.getD x false with
      | true =>
        rw [if_pos rfl]
        have hnil : openParents idx inPrev x = [] := if_pos hp
        rw [hnil, List.reverse_nil, List.nil_append]
        have hstep := h.meet hp rfl
        split_ifs with hs
        · rw [if_pos hs] at hstep
          exact ih hstack' hstep
        · rw [if_neg hs] at hstep
          exact ih hstack' hstep
      | false =>
        have hopen : openParents idx inPrev x = idx.dag.parentsOf x :=
          if_neg (by rw [hp]; decide)
        have hvis : visit.getD x 0 = g ↔ x ∈ seen := by
          rw [h.visited x hx, hp]
          exact and_iff_left rfl
        rw [if_neg (by simp), hopen]
        by_cases hs : x ∈ seen
        · rw [if_pos (hvis.mpr hs), if_pos hs]
          exact ih hstack' h
        · rw [if_neg fun hv => hs (hvis.mp hv), if_neg hs]
          refine ih (fun y hy => ?_) (h.visit_fresh hp)
          rcases List.mem_append.mp hy with hy | hy
          · exact hlt x y (List.mem_reverse.mp hy)
          · exact hstack' y hy

section Log

variable (sha256 : List UInt8 → Vector UInt8 32) (rts : List RecordTrust)

/-- The number and the hash of an entry. -/
def logAt (e : Int × Nat) : Int × String := (e.1, LogCursor.hashAt rts e.2)

/-- Fold an entry into the root. -/
def foldEntry (acc : Vector UInt8 32) (e : Int × Nat) : Vector UInt8 32 :=
  grantHeadStep sha256 acc (logAt rts e)

/-- The first entry out of sequence. -/
def firstGap (log : List (Int × Nat)) : Option Nat :=
  log.zipIdx.findIdx? fun e => e.1.1 ≠ (e.2 : Int) + 1

/-- The first gap of two logs. -/
theorem firstGap_append (l₁ l₂ : List (Int × Nat)) :
    firstGap (l₁ ++ l₂) = (firstGap l₁).or
      (((l₂.zipIdx l₁.length).findIdx? fun e => e.1.1 ≠ (e.2 : Int) + 1).map
        (· + l₁.length)) := by
  rw [firstGap, List.zipIdx_append, List.findIdx?_append, List.length_zipIdx, Nat.zero_add,
    firstGap]

/-- The first gap of a longer log. -/
theorem firstGap_snoc (l : List (Int × Nat)) (e : Int × Nat) :
    firstGap (l ++ [e]) =
      if firstGap l = none ∧ e.1 ≠ (l.length : Int) + 1 then some l.length else firstGap l := by
  rw [firstGap_append]
  cases h : firstGap l with
  | some g => simp
  | none =>
    by_cases he : e.1 = (l.length : Int) + 1 <;> simp [he]

/-- A gap of a prefix is the gap of the whole, if it lies inside. -/
theorem firstGap_take {log : List (Int × Nat)} {p : Nat} (hp : p ≤ log.length) :
    firstGap (log.take p) = (firstGap log).filter (· < p) := by
  have hlen : (log.take p).length = p := by simp [hp]
  have happ := firstGap_append (log.take p) (log.drop p)
  rw [List.take_append_drop, hlen] at happ
  rw [happ]
  cases h : firstGap (log.take p) with
  | some g =>
    have hg : g < p := by
      have := (List.findIdx?_eq_some_iff_getElem.mp h).1
      simpa [hlen] using this
    simp [Option.filter, hg]
  | none =>
    rw [Option.none_or]
    cases ((log.drop p).zipIdx p).findIdx? fun e => e.1.1 ≠ (e.2 : Int) + 1 with
    | none => rfl
    | some g => simp [Option.filter]

theorem scanl_snoc {α β : Type*} (f : β → α → β) (b : β) (l : List α) (a : α) :
    (l ++ [a]).scanl f b = l.scanl f b ++ [f (l.foldl f b) a] := by
  rw [List.scanl_append]
  simp

/-- Folding the tail continues the accumulators and the gap of what is done. -/
theorem foldTail_eq (tail done : List (Int × Nat)) :
    LogCursor.foldTail sha256 rts tail done.length (firstGap done)
        (done.scanl (foldEntry sha256 rts) (grantHeadSeed sha256)) =
      (firstGap (done ++ tail),
        (done ++ tail).scanl (foldEntry sha256 rts) (grantHeadSeed sha256)) := by
  induction tail generalizing done with
  | nil => simp [LogCursor.foldTail]
  | cons e tail ih =>
    have hprev : (done.scanl (foldEntry sha256 rts) (grantHeadSeed sha256)).getD done.length
        default = done.foldl (foldEntry sha256 rts) (grantHeadSeed sha256) := by
      rw [List.getD_eq_getElem?_getD, List.getElem?_scanl]
      simp
    have hstep := ih (done ++ [e])
    rw [List.length_append, List.length_singleton, firstGap_snoc, scanl_snoc,
      List.append_assoc, List.singleton_append] at hstep
    obtain ⟨seq, pos⟩ := e
    rw [LogCursor.foldTail, hprev]
    exact hstep

/-- The log of a cursor holds the entries `S` in order, with their accumulators and gap. -/
structure LogInv (S : Int × Nat → Prop) (c : LogCursor) : Prop where
  sorted : c.log.Pairwise (toLex · < toLex ·)
  mem_log : ∀ e, e ∈ c.log ↔ S e
  accs : c.accs = c.log.scanl (foldEntry sha256 rts) (grantHeadSeed sha256)
  gapAt : c.gapAt = firstGap c.log

variable {sha256 rts}

/-- The order of entries keeps them distinct. -/
theorem nodup_map_toLex {l : List (Int × Nat)} (h : l.Nodup) : (l.map toLex).Nodup :=
  h.map toLex.injective

/-- Merging entries keeps the log. -/
theorem LogInv.merge {S S' : Int × Nat → Prop} {c : LogCursor} {add : List (Int × Nat)}
    (h : LogInv sha256 rts S c) (hadd : add.Nodup) (hfresh : ∀ e ∈ add, ¬ S e)
    (hS : ∀ e, S' e ↔ S e ∨ e ∈ add) : LogInv sha256 rts S' (c.merge sha256 rts add) := by
  unfold LogCursor.merge
  have hperm := List.perm_insertionSort (fun a b : Int × Nat => toLex a ≤ toLex b) add
  have hle := List.pairwise_insertionSort (fun a b : Int × Nat => toLex a ≤ toLex b) add
  have hnodup := hperm.nodup_iff.mpr hadd
  have hmem : ∀ e, e ∈ add.insertionSort (toLex · ≤ toLex ·) ↔ e ∈ add := fun e => hperm.mem_iff
  generalize add.insertionSort (toLex · ≤ toLex ·) = sorted at hle hnodup hmem ⊢
  cases sorted with
  | nil =>
    refine ⟨h.sorted, fun e => ?_, h.accs, h.gapAt⟩
    rw [h.mem_log, hS, ← hmem]
    simp
  | cons first rest =>
    have hp := partitionPoint_le toLex first c.log
    have hlen : (c.log.take (partitionPoint toLex first c.log)).length =
        partitionPoint toLex first c.log := by simp [hp]
    have hdisj : (c.log ++ first :: rest).Nodup := by
      refine List.nodup_append.mpr ⟨?_, hnodup, ?_⟩
      · refine List.Pairwise.imp (S := (· ≠ ·)) ?_ h.sorted
        rintro a _ hlt rfl
        exact lt_irrefl _ hlt
      · rintro a ha b hb rfl
        exact hfresh a ((hmem a).mp hb) ((h.mem_log a).mp ha)
    have hmin : ∀ b ∈ first :: rest, toLex first ≤ toLex b :=
      List.forall_mem_cons.mpr ⟨le_rfl, (List.pairwise_cons.mp hle).1⟩
    have hfold := foldTail_eq sha256 rts
      ((c.log.drop (partitionPoint toLex first c.log) ++ first :: rest).insertionSort
        (toLex · ≤ toLex ·)) (c.log.take (partitionPoint toLex first c.log))
    rw [hlen, firstGap_take hp, ← List.take_scanl, ← h.accs, ← h.gapAt] at hfold
    refine ⟨?_, fun e => ?_, ?_, ?_⟩
    · exact pairwise_lt_resort toLex h.sorted (nodup_map_toLex hdisj) hmin
    · rw [hS, ← h.mem_log, ← hmem]
      exact mem_resort_iff toLex
    · simp only [hfold]
    · simp only [hfold]

end Log

/-- The graph part of a cursor: tables of the right size, old stamps, and the closure of
the last frontier. -/
structure GraphInv (idx : LogIndex) (c : LogCursor) : Prop where
  inPrev_length : c.inPrev.length = idx.dag.parents.length
  visit_length : c.visit.length = idx.dag.parents.length
  hit_length : c.hit.length = idx.dag.parents.length
  visit_le : ∀ s ∈ c.visit, s ≤ c.gen
  hit_le : ∀ s ∈ c.hit, s ≤ c.gen
  front_lt : ∀ m ∈ c.prevFront, m < idx.dag.parents.length
  closure : ∀ x, c.inPrev.getD x false = true ↔ ReachedFrom idx.dag.parentsOf c.prevFront x

/-- The log entries of the nodes a frontier reaches. -/
def Logged (idx : LogIndex) (front : List Nat) (e : Int × Nat) : Prop :=
  ∃ x, ReachedFrom idx.dag.parentsOf front x ∧ e ∈ idx.entriesOf x

/-- What a walk finds. -/
structure Walked (idx : LogIndex) (front : List Nat) (c : LogCursor) (fresh : List Nat) :
    Prop where
  nodup : fresh.Nodup
  mem_fresh : ∀ x, x ∈ fresh ↔
    ReachedFrom (openParents idx c.inPrev) front x ∧ c.inPrev.getD x false = false
  met : ∀ x < idx.dag.parents.length, c.hit.getD x 0 = c.gen →
    ReachedFrom (openParents idx c.inPrev) front x

section Graph

variable {idx : LogIndex} {c : LogCursor} {front : List Nat}

/-- A walk keeps the marks. -/
theorem GraphInv.walk (h : GraphInv idx c)
    (hlt : ∀ x, ∀ p ∈ idx.dag.parentsOf x, p < idx.dag.parents.length)
    (hfront : ∀ x ∈ front, x < idx.dag.parents.length) :
    GraphInv idx (c.walk idx front).1 ∧
      Walked idx front (c.walk idx front).1 (c.walk idx front).2 := by
  have hstart : Stamped idx.dag.parents.length c.inPrev (c.gen + 1) [] c.visit c.hit [] := by
    have hold : ∀ {l : List Nat} {x : Nat}, (∀ s ∈ l, s ≤ c.gen) → x < l.length →
        ¬ l.getD x 0 = c.gen + 1 := by
      intro l x hl hx heq
      rw [List.getD_eq_getElem _ _ hx] at heq
      have := hl _ (List.getElem_mem hx)
      omega
    refine ⟨h.visit_length, h.hit_length, fun s hs => (h.visit_le s hs).trans (by omega),
      fun s hs => (h.hit_le s hs).trans (by omega), fun x hx => ?_, fun x hx => ?_, rfl⟩
    · simp only [hold h.visit_le (h.visit_length ▸ hx), List.not_mem_nil, false_and]
    · simp only [hold h.hit_le (h.hit_length ▸ hx), List.not_mem_nil, false_and]
  have hstamped := walkLoop_stamped
    (front.length + openEdges idx.dag.parentsOf (.range idx.dag.parents.length) [])
    hlt (fun x hx => hfront x (List.mem_reverse.mp hx)) hstart
  have hopen : openEdges (openParents idx c.inPrev) (.range idx.dag.parents.length) [] ≤
      openEdges idx.dag.parentsOf (.range idx.dag.parents.length) [] := by
    refine List.sum_le_sum fun x _ => ?_
    unfold openParents
    split_ifs <;> simp
  have hout : ∀ x ∉ List.range idx.dag.parents.length, openParents idx c.inPrev x = [] := by
    intro x hx
    have hx' : idx.dag.parents.length ≤ x := by simpa using hx
    unfold openParents
    split_ifs
    · rfl
    · exact DagIndex.parentsOf_eq_nil hx'
  obtain ⟨hnodup, hmem⟩ := explore_spec List.nodup_range hout
    (front.length + openEdges idx.dag.parentsOf (.range idx.dag.parents.length) [])
    (show front.reverse.length + _ ≤ _ by simpa using hopen) List.nodup_nil (by simp)
  have hreached : ∀ x, x ∈ explore (openParents idx c.inPrev)
      (front.length + openEdges idx.dag.parentsOf (.range idx.dag.parents.length) [])
      front.reverse [] ↔ ReachedFrom (openParents idx c.inPrev) front x := by
    intro x
    rw [hmem]
    simp [ReachedFrom]
  refine ⟨⟨h.inPrev_length, hstamped.visit_length, hstamped.hit_length, hstamped.visit_le,
    hstamped.hit_le, h.front_lt, h.closure⟩, ?_, fun x => ?_, fun x hx hhit => ?_⟩
  · show List.Nodup (LogCursor.walkLoop _ _ _ _ _ _ _ _).2.2
    rw [hstamped.fresh_eq]
    exact hnodup.filter _
  · show x ∈ (LogCursor.walkLoop _ _ _ _ _ _ _ _).2.2 ↔ _
    rw [hstamped.fresh_eq, List.mem_filter, hreached, decide_eq_true_eq]
    rfl
  · exact (hreached x).mp ((hstamped.met x hx).mp hhit).1

theorem GraphInv.reset (h : GraphInv idx c) : GraphInv idx c.reset := by
  refine ⟨by simpa [LogCursor.reset] using h.inPrev_length, h.visit_length, h.hit_length,
    h.visit_le, h.hit_le, by simp [LogCursor.reset], fun x => ?_⟩
  have hfalse : c.reset.inPrev.getD x false = false := by
    rw [LogCursor.reset, List.getD_eq_getElem?_getD, List.getElem?_map]
    cases c.inPrev[x]? <;> rfl
  rw [hfalse]
  simp [ReachedFrom, LogCursor.reset]

/-- What is marked after some were. -/
theorem getD_foldl_set_true {fresh : List Nat} {l : List Bool} (hf : ∀ y ∈ fresh, y < l.length)
    (x : Nat) : (fresh.foldl (·.set · true) l).getD x false = true ↔
      l.getD x false = true ∨ x ∈ fresh := by
  induction fresh generalizing l with
  | nil => simp
  | cons y fresh ih =>
    obtain ⟨hy, hf'⟩ := List.forall_mem_cons.mp hf
    rw [List.foldl_cons, ih (by simpa using hf'), List.mem_cons, ← or_assoc]
    refine or_congr_left ?_
    rw [List.getD_eq_getElem?_getD, List.getElem?_set, List.getD_eq_getElem?_getD]
    by_cases hxy : y = x
    · subst hxy
      simp [hy]
    · simp [hxy, Ne.symm hxy]

/-- If the walk met the last frontier, the closure of the new one is the last closure and
the new nodes. -/
theorem GraphInv.reached_iff {fresh : List Nat} (h : GraphInv idx c)
    (hw : Walked idx front c fresh)
    (hmet : ∀ m ∈ c.prevFront, ReachedFrom (openParents idx c.inPrev) front m) {x : Nat} :
    ReachedFrom idx.dag.parentsOf front x ↔ c.inPrev.getD x false = true ∨ x ∈ fresh := by
  have hout : ∀ y, ¬ c.inPrev.getD y false = true →
      openParents idx c.inPrev y = idx.dag.parentsOf y := fun y hy => if_neg hy
  rw [reachedFrom_iff_around h.closure hout (fun y p hp => openParents_subset hp) hmet,
    hw.mem_fresh, ← Bool.not_eq_true]
  by_cases hx : c.inPrev.getD x false = true
  · exact iff_of_true (Or.inl hx) (Or.inl hx)
  · exact or_congr_right (and_iff_left hx).symm

/-- Marking what was walked keeps them. -/
theorem GraphInv.mark {fresh : List Nat} (h : GraphInv idx c) (hw : Walked idx front c fresh)
    (hlt : ∀ x, ∀ p ∈ idx.dag.parentsOf x, p < idx.dag.parents.length)
    (hfront : ∀ x ∈ front, x < idx.dag.parents.length)
    (hmet : ∀ m ∈ c.prevFront, ReachedFrom (openParents idx c.inPrev) front m) :
    GraphInv idx (c.mark front fresh) := by
  have hfresh : ∀ y ∈ fresh, y < c.inPrev.length := by
    intro y hy
    rw [h.inPrev_length]
    exact ((hw.mem_fresh y).mp hy).1.mem_of_closed hfront
      fun z _ p hp => hlt z p (openParents_subset hp)
  have hlen : (fresh.foldl (·.set · true) c.inPrev).length = c.inPrev.length := by
    clear hw hfresh
    generalize c.inPrev = l
    induction fresh generalizing l with
    | nil => rfl
    | cons y fresh ih => rw [List.foldl_cons, ih, List.length_set]
  refine ⟨hlen.trans h.inPrev_length, h.visit_length, h.hit_length, h.visit_le, h.hit_le,
    hfront, fun x => ?_⟩
  show (fresh.foldl (·.set · true) c.inPrev).getD x false = true ↔ ReachedFrom _ front x
  rw [getD_foldl_set_true hfresh, h.reached_iff hw hmet]

variable {sha256 : List UInt8 → Vector UInt8 32} {rts : List RecordTrust}

/-- Merging does not touch the graph part. -/
theorem GraphInv.merge (h : GraphInv idx c) (add : List (Int × Nat)) :
    GraphInv idx (c.merge sha256 rts add) := by
  unfold LogCursor.merge
  split
  · exact h
  · exact ⟨h.inPrev_length, h.visit_length, h.hit_length, h.visit_le, h.hit_le, h.front_lt,
      h.closure⟩

/-- Merging does not move the frontier. -/
theorem prevFront_merge (add : List (Int × Nat)) :
    (c.merge sha256 rts add).prevFront = c.prevFront := by
  unfold LogCursor.merge
  split <;> rfl

/-- The invariant of a cursor. -/
structure CursorInv (sha256 : List UInt8 → Vector UInt8 32) (rts : List RecordTrust)
    (idx : LogIndex) (c : LogCursor) : Prop where
  graph : GraphInv idx c
  log : LogInv sha256 rts (Logged idx c.prevFront) c

/-- A new cursor has seen nothing. -/
theorem cursorInv_new : CursorInv sha256 rts idx (LogCursor.new sha256 idx) := by
  refine ⟨⟨by simp [LogCursor.new], by simp [LogCursor.new], by simp [LogCursor.new],
    by simp [LogCursor.new], by simp [LogCursor.new], by simp [LogCursor.new], fun x => ?_⟩,
    ⟨by simp [LogCursor.new], by simp [LogCursor.new, Logged, ReachedFrom], rfl, rfl⟩⟩
  have hfalse : (LogCursor.new sha256 idx).inPrev.getD x false = false := by
    rw [LogCursor.new, List.getD_eq_getElem?_getD, List.getElem?_replicate]
    split_ifs <;> rfl
  rw [hfalse]
  simp [ReachedFrom, LogCursor.new]

/-- Starting over keeps the invariant. -/
theorem CursorInv.reset (h : CursorInv sha256 rts idx c) : CursorInv sha256 rts idx c.reset := by
  refine ⟨h.graph.reset, by simp [LogCursor.reset], ?_, ?_, rfl⟩
  · simp [LogCursor.reset, Logged, ReachedFrom]
  · rw [LogCursor.reset, h.log.accs, List.take_scanl, List.take_zero]

end Graph

section Advance

variable {sha256 : List UInt8 → Vector UInt8 32} {rts : List RecordTrust}
  {records : List CanonValue} {bid : Option String} {dag : Dag} {idx : LogIndex} {c : LogCursor}

/-- An entry belongs to one node. -/
theorem LogIndexSpec.node_unique (hi : LogIndexSpec rts records bid idx) {x y : Nat}
    {e : Int × Nat} (hx : e ∈ idx.entriesOf x) (hy : e ∈ idx.entriesOf y) : x = y := by
  obtain ⟨rt, hrt, -, hx⟩ := hi.mem_entriesOf.mp hx
  obtain ⟨rt', hrt', -, hy⟩ := hi.mem_entriesOf.mp hy
  obtain rfl := Option.some.inj (hrt.symm.trans hrt')
  exact Option.some.inj (hx.symm.trans hy)

/-- Taking in the new nodes and their entries, when the last frontier was met. -/
theorem CursorInv.absorb {front fresh : List Nat} (hi : LogIndexSpec rts records bid idx)
    (h : CursorInv sha256 rts idx c) (hw : Walked idx front c fresh)
    (hlt : ∀ x, ∀ p ∈ idx.dag.parentsOf x, p < idx.dag.parents.length)
    (hfront : ∀ x ∈ front, x < idx.dag.parents.length)
    (hmet : ∀ m ∈ c.prevFront, ReachedFrom (openParents idx c.inPrev) front m) :
    CursorInv sha256 rts idx
      ((c.mark front fresh).merge sha256 rts (fresh.flatMap idx.entriesOf)) := by
  refine ⟨(h.graph.mark hw hlt hfront hmet).merge _, ?_⟩
  rw [prevFront_merge]
  have hmarked : LogInv sha256 rts (Logged idx c.prevFront) (c.mark front fresh) :=
    ⟨h.log.sorted, h.log.mem_log, h.log.accs, h.log.gapAt⟩
  refine hmarked.merge ?_ ?_ ?_
  · refine List.nodup_flatMap.mpr ⟨fun x _ => hi.nodup_entriesOf x, ?_⟩
    exact hw.nodup.imp fun hne e hx hy => hne (hi.node_unique hx hy)
  · rintro e he ⟨y, hy, hey⟩
    obtain ⟨x, hx, hex⟩ := List.mem_flatMap.mp he
    have hin := (h.graph.closure y).mpr hy
    rw [hi.node_unique hey hex, ((hw.mem_fresh x).mp hx).2] at hin
    cases hin
  · intro e
    show (∃ x, ReachedFrom idx.dag.parentsOf front x ∧ e ∈ idx.entriesOf x) ↔ _
    simp only [h.graph.reached_iff hw hmet, h.graph.closure, or_and_right, exists_or,
      List.mem_flatMap]
    rfl

/-- Every answer keeps the invariant and stands at its frontier. -/
theorem CursorInv.advance (hd : DagIndexSpec records dag idx.dag)
    (hi : LogIndexSpec rts records bid idx) (h : CursorInv sha256 rts idx c)
    (frontier : List String) :
    CursorInv sha256 rts idx (c.advance sha256 rts idx frontier) ∧
      (c.advance sha256 rts idx frontier).prevFront =
        frontier.filterMap (idx.dag.nodeOf[·]?) := by
  have hlt : ∀ x, ∀ p ∈ idx.dag.parentsOf x, p < idx.dag.parents.length :=
    fun x p hp => hd.parent_lt_length hp
  have hfront : ∀ x ∈ frontier.filterMap (idx.dag.nodeOf[·]?), x < idx.dag.parents.length := by
    intro x hx
    obtain ⟨f, -, hfx⟩ := List.mem_filterMap.mp hx
    exact hd.node_lt hfx
  have hwalk : ∀ {c : LogCursor}, CursorInv sha256 rts idx c →
      CursorInv sha256 rts idx (c.walk idx (frontier.filterMap (idx.dag.nodeOf[·]?))).1 ∧
        Walked idx (frontier.filterMap (idx.dag.nodeOf[·]?))
          (c.walk idx (frontier.filterMap (idx.dag.nodeOf[·]?))).1
          (c.walk idx (frontier.filterMap (idx.dag.nodeOf[·]?))).2 := by
    intro c h
    obtain ⟨hg, hw⟩ := h.graph.walk hlt hfront
    exact ⟨⟨hg, h.log.sorted, h.log.mem_log, h.log.accs, h.log.gapAt⟩, hw⟩
  refine ⟨?_, prevFront_merge _⟩
  obtain ⟨hfirst, hw⟩ := hwalk h
  unfold LogCursor.advance
  dsimp only
  split_ifs with hcont
  · refine hfirst.absorb hi hw hlt hfront fun m hm => ?_
    have hhit := List.all_eq_true.mp hcont m hm
    exact hw.met m (hfirst.graph.front_lt m hm) (beq_iff_eq.mp hhit)
  · obtain ⟨hsecond, hw'⟩ := hwalk hfirst.reset
    exact hsecond.absorb hi hw' hlt hfront fun m hm => absurd hm List.not_mem_nil

/-- The committed entries with their positions, in the order of the trust list. -/
def positionedEntries (rts : List RecordTrust) (records : List CanonValue) (bid : Option String)
    (committed : List String) : List (Int × Nat) :=
  rts.zipIdx.filterMap fun e =>
    (committedEntry records bid committed e.1).map fun entry => (entry.1, e.2)

/-- An entry is a committed grant with its number. -/
theorem mem_positionedEntries {committed : List String} {e : Int × Nat} :
    e ∈ positionedEntries rts records bid committed ↔ ∃ rt, rts[e.2]? = some rt ∧
      rt.contentHash ∈ committed ∧ logSeq records bid rt = some e.1 := by
  unfold positionedEntries committedEntry
  rw [List.mem_filterMap]
  constructor
  · rintro ⟨⟨rt, pos⟩, hmem, he⟩
    obtain ⟨entry, hentry, rfl⟩ := Option.map_eq_some_iff.mp he
    split_ifs at hentry with hc
    obtain ⟨seq, hseq, rfl⟩ := Option.map_eq_some_iff.mp hentry
    exact ⟨rt, List.mem_zipIdx_iff_getElem?.mp hmem, hc, hseq⟩
  · rintro ⟨rt, hrt, hc, hseq⟩
    exact ⟨(rt, e.2), List.mem_zipIdx_iff_getElem?.mpr hrt, by simp [hc, hseq]⟩

/-- Entries come in the order of the records. -/
theorem pairwise_positionedEntries {committed : List String} :
    (positionedEntries rts records bid committed).Pairwise (·.2 < ·.2) := by
  have hpos : rts.zipIdx.Pairwise (·.2 < ·.2) := by
    have := List.pairwise_lt_range' (s := 0) (n := rts.length)
    rw [← List.zipIdx_map_snd] at this
    exact List.pairwise_map.mp this
  refine List.Pairwise.filterMap _ ?_ hpos
  intro e e' hlt b hb b' hb'
  obtain ⟨_, _, rfl⟩ := Option.map_eq_some_iff.mp hb
  obtain ⟨_, _, rfl⟩ := Option.map_eq_some_iff.mp hb'
  exact hlt

/-- Reading the hashes back gives the entries of the log. -/
theorem map_logAt_positionedEntries {committed : List String} :
    (positionedEntries rts records bid committed).map (logAt rts) =
      rts.filterMap (committedEntry records bid committed) := by
  have hstep : ∀ e ∈ rts.zipIdx, ((committedEntry records bid committed e.1).map
      fun entry => (entry.1, e.2)).map (logAt rts) = committedEntry records bid committed e.1 := by
    rintro ⟨rt, pos⟩ hmem
    have hrt := List.mem_zipIdx_iff_getElem?.mp hmem
    have hhash : LogCursor.hashAt rts pos = rt.contentHash := by
      simp only [LogCursor.hashAt, hrt]
      rfl
    unfold committedEntry
    split_ifs
    · cases logSeq records bid rt <;> simp [logAt, hhash]
    · rfl
  rw [positionedEntries, List.map_filterMap, List.filterMap_congr hstep]
  conv_rhs => rw [← List.zipIdx_map_fst 0 rts, List.filterMap_map]
  rfl

/-- A cursor at a frontier holds its committed log. -/
theorem CursorInv.log_eq (hs : DagSpec records dag) (hd : DagIndexSpec records dag idx.dag)
    (hi : LogIndexSpec rts records bid idx) (h : CursorInv sha256 rts idx c)
    {frontier : List String} (hfront : c.prevFront = frontier.filterMap (idx.dag.nodeOf[·]?)) :
    c.log.map (logAt rts) = committedBrokerLog rts records dag.byHash frontier bid := by
  have hsort : c.log = (positionedEntries rts records bid
      (committedSet records dag.byHash frontier)).insertionSort (·.1 ≤ ·.1) := by
    refine eq_of_mem_iff_of_sorted toLex (fun e => ?_) h.log.sorted
      (pairwise_insertionSort_stable Prod.fst Prod.snd pairwise_positionedEntries)
    rw [h.log.mem_log, (List.perm_insertionSort _ _).mem_iff, mem_positionedEntries, hfront]
    constructor
    · rintro ⟨x, hx, he⟩
      obtain ⟨rt, hrt, hseq, hnode⟩ := hi.mem_entriesOf.mp he
      exact ⟨rt, hrt, mem_committedSet_iff.mpr ((hd.reached_iff hs hnode).mpr hx), hseq⟩
    · rintro ⟨rt, hrt, hc, hseq⟩
      obtain ⟨x, hx⟩ := Option.ne_none_iff_exists'.mp
        (hi.known rt (List.mem_of_getElem? hrt) (by simp [hseq]))
      exact ⟨x, (hd.reached_iff hs hx).mp (mem_committedSet_iff.mp hc),
        hi.mem_entriesOf.mpr ⟨rt, hrt, hseq, hx⟩⟩
  rw [committedBrokerLog_eq, ← map_logAt_positionedEntries, hsort]
  exact List.map_insertionSort _ _ _ _ fun _ _ _ _ => Iff.rfl

/-- There is no gap exactly if the log is gapless. -/
theorem firstGap_eq_none_iff {log : List (Int × Nat)} :
    firstGap log = none ↔ isGapless (log.map (logAt rts)) = true := by
  rw [firstGap, List.findIdx?_eq_none_iff, isGapless, List.zipIdx_map, List.all_map,
    List.all_eq_true]
  refine forall₂_congr fun e _ => ?_
  simp [logAt]

/-- The state is that of the log. -/
theorem CursorInv.state_eq (h : CursorInv sha256 rts idx c) :
    c.state = logState sha256 (c.log.map (logAt rts)) := by
  have hacc : c.accs.getD c.log.length default =
      (c.log.map (logAt rts)).foldl (grantHeadStep sha256) (grantHeadSeed sha256) := by
    rw [h.log.accs, List.getD_eq_getElem?_getD, List.getElem?_scanl, List.foldl_map]
    simp only [le_refl, if_true, List.take_length, Option.getD_some]
    rfl
  have hgap : c.gapAt.isNone = isGapless (c.log.map (logAt rts)) := by
    rw [Bool.eq_iff_iff, Option.isNone_iff_eq_none, h.log.gapAt, firstGap_eq_none_iff]
  simp only [LogCursor.state, logState, grantHeadRoot, hacc, hgap, List.length_map]

/-- Each answer of a run is the state of the log committed by its frontier. -/
theorem CursorInv.answers_eq (hs : DagSpec records dag) (hd : DagIndexSpec records dag idx.dag)
    (hi : LogIndexSpec rts records bid idx) (h : CursorInv sha256 rts idx c)
    (frontiers : List (List String)) :
    c.answers sha256 rts idx frontiers = frontiers.map fun frontier =>
      logState sha256 (committedBrokerLog rts records dag.byHash frontier bid) := by
  induction frontiers generalizing c with
  | nil => rfl
  | cons frontier rest ih =>
    obtain ⟨hnext, hfront⟩ := h.advance hd hi frontier
    rw [LogCursor.answers, List.map_cons, ih hnext, hnext.state_eq, hnext.log_eq hs hd hi hfront]

end Advance

/-- The cursor agrees with the computation from scratch on every frontier of every run:
an accepted DAG is always indexed, and then each answer has the length, the gap status and
the root of the log its frontier commits. -/
theorem cursor_answers_from_scratch (sha256 : List UInt8 → Vector UInt8 32)
    {records : List CanonValue} {dag : Dag} (h : build records = .ok dag) :
    ∃ dix, DagIndex.build records dag.byHash dag.topoOrder = some dix ∧
      ∀ rts bid idx, LogIndex.build dix rts records bid = some idx →
        ∀ (frontiers : List (List String)) (i : Nat) (frontier : List String),
          frontiers[i]? = some frontier →
          ∃ st, ((LogCursor.new sha256 idx).answers sha256 rts idx frontiers)[i]? = some st ∧
            let log := committedBrokerLog rts records dag.byHash frontier bid
            st.n = log.length ∧
              (st.gapless = true ↔
                log.map (·.1) = (List.range log.length).map fun k : Nat => (k : Int) + 1) ∧
              st.root = grantHeadRoot sha256 log := by
  have hs := build_eq_ok h
  obtain ⟨dix, hdix⟩ := hs.exists_dagIndex
  have hd := hs.dagIndexSpec hdix
  refine ⟨dix, hdix, fun rts bid idx hidx frontiers i frontier hi => ?_⟩
  obtain ⟨rfl, hlog⟩ := logIndexSpec hd hidx
  refine ⟨logState sha256 (committedBrokerLog rts records dag.byHash frontier bid), ?_, rfl,
    isGapless_iff, rfl⟩
  rw [cursorInv_new.answers_eq hs hd hlog, List.getElem?_map, hi]
  rfl

/-- Two grants, asked for the second, the first and an unknown hash. -/
theorem cursor_answers_two_grants :
    ∃ dag dix idx, build twoGrants = .ok dag ∧
      DagIndex.build twoGrants dag.byHash dag.topoOrder = some dix ∧
      LogIndex.build dix (recordTrustOf twoGrants) twoGrants none = some idx ∧
      ∃ st, ((LogCursor.new Sha256.digest idx).answers Sha256.digest (recordTrustOf twoGrants) idx
          [[digest 'b'], [digest 'a', "z"], ["z"]])[1]? = some st ∧ st.n = 1 := by
  obtain ⟨dag, hb, htest⟩ := exists_of_buildsWith twoGrants (fun dag =>
    ((DagIndex.build twoGrants dag.byHash dag.topoOrder).bind
      (LogIndex.build · (recordTrustOf twoGrants) twoGrants none)).isSome &&
    (committedBrokerLog (recordTrustOf twoGrants) twoGrants dag.byHash
      [digest 'a', "z"] none).length == 1) (by decide +kernel)
  obtain ⟨hidx, hlen⟩ := Bool.and_eq_true_iff.mp htest
  obtain ⟨dix, hdix, h⟩ := cursor_answers_from_scratch Sha256.digest hb
  rw [hdix, Option.bind_some, Option.isSome_iff_exists] at hidx
  obtain ⟨idx, hidx⟩ := hidx
  obtain ⟨st, hst, hn, -⟩ := h _ _ _ hidx [[digest 'b'], [digest 'a', "z"], ["z"]] 1 _ rfl
  refine ⟨dag, dix, idx, hb, hdix, hidx, st, hst, ?_⟩
  rw [hn, beq_iff_eq.mp hlen]
  rfl

end Averin
