import Averin.Checkpoint.Coverage
import Averin.Segment.Chain

/-!
# The order in which checkpoints are listed

A chain check never leaves the range of sequence numbers, since the successor of a number is
formed only before a larger one. Copies of one checkpoint hash may differ in their anchors, which
the check does not read, so its outcome does not depend on the order of the list.
-/

namespace Averin

open Std (TreeMap TreeSet)

/-- Why a run of the chain check ends early: it refuses, or an addition stops it. -/
inductive ChainRunError where
  | refused (e : CheckpointError)
  | overflow

/-- Signed addition, which stops the program out of range. -/
def addI64 (a b : Int) : Except ChainRunError Int :=
  if -2 ^ 63 ≤ a + b ∧ a + b < 2 ^ 63 then .ok (a + b) else .error .overflow

/-- The check of two neighbours, with the addition carried out. -/
def runNeighbours (a b : CanonValue) : Except ChainRunError Unit := do
  let sa ← (intField a "checkpoint_seq").mapError .refused
  let sb ← (intField b "checkpoint_seq").mapError .refused
  if sa = sb then
    let ha ← (strField a "checkpoint_hash").mapError .refused
    let hb ← (strField b "checkpoint_hash").mapError .refused
    require (ha = hb) (.refused (.forkDetected sa))
  else
    let next ← addI64 sa 1
    require (sb = next) (.refused (.seqGap sa sb))
    let prevRef ← orFail ((b.get "prev_checkpoint_hash").bind CanonValue.asStr)
      (.refused (.missingField "prev_checkpoint_hash"))
    let prevHash ← (strField a "checkpoint_hash").mapError .refused
    require (prevRef = prevHash) (.refused (.prevHashMismatch sb prevHash prevRef))
    let ca ← (intField a "record_count").mapError .refused
    let cb ← (intField b "record_count").mapError .refused
    require (ca ≤ cb) (.refused (.recordCountDecreased sb ca cb))

/-- The pairs, where a sequence may overflow. -/
def runWindows : List CanonValue → Except ChainRunError Unit
  | a :: b :: rest => do
    runNeighbours a b
    runWindows (b :: rest)
  | _ => .ok ()

/-- A run of the chain check. -/
def runChain (checkpoints : List CanonValue) (dag : Dag) :
    Except ChainRunError (List CanonValue) := do
  let ordered := checkpoints.insertionSort fun a b => seqKey a ≤ seqKey b
  (ordered.head?.forM checkFirst).mapError .refused
  runWindows ordered
  (ordered.forM (checkFrontier dag)).mapError .refused
  (checkSharedPrev ordered ∅).mapError .refused
  (ordered.getLast?.forM (checkLatest dag)).mapError .refused
  return ordered

/-- A number that is read fits sixty-four bits. -/
theorem intField_bounds {c : CanonValue} {k : String} {n : Int} (h : intField c k = .ok n) :
    -2 ^ 63 ≤ n ∧ n < 2 ^ 63 := by
  rw [intField_eq_ok_iff] at h
  obtain ⟨v, -, hv⟩ := Option.bind_eq_some_iff.mp h
  cases v with
  | int i =>
    obtain rfl := Option.some.inj hv
    exact ⟨i.le_toInt, i.toInt_lt⟩
  | _ => cases hv

/-- The sort key of a readable checkpoint is its number. -/
theorem seqKey_of_intField {c : CanonValue} {n : Int} (h : intField c "checkpoint_seq" = .ok n) :
    seqKey c = n := by
  rw [intField_eq_ok_iff] at h
  rw [seqKey, h]
  rfl

/-- Between neighbours in sequence order the successor is in range. -/
theorem runNeighbours_eq {a b : CanonValue} (h : seqKey a ≤ seqKey b) :
    runNeighbours a b = (checkNeighbours a b).mapError .refused := by
  unfold runNeighbours checkNeighbours
  simp only [bind_mapError, apply_ite (Except.mapError ChainRunError.refused), require_mapError,
    orFail_mapError]
  cases ha : intField a "checkpoint_seq" with
  | error e => rfl
  | ok sa =>
  cases hb : intField b "checkpoint_seq" with
  | error e => rfl
  | ok sb =>
    rw [seqKey_of_intField ha, seqKey_of_intField hb] at h
    have hbounds := intField_bounds ha
    have hbounds' := intField_bounds hb
    change ite _ _ _ = ite _ _ _
    split_ifs with heq
    · rfl
    · have hadd : addI64 sa 1 = .ok (sa + 1) := by
        unfold addI64
        rw [if_pos (by omega)]
      rw [hadd]
      rfl

/-- On sorted checkpoints nothing overflows. -/
theorem runWindows_eq {l : List CanonValue} (h : l.Pairwise fun a b => seqKey a ≤ seqKey b) :
    runWindows l = (checkWindows l).mapError .refused := by
  induction l with
  | nil => rfl
  | cons a l ih =>
    cases l with
    | nil => rfl
    | cons b rest =>
      obtain ⟨hle, hrest⟩ := List.pairwise_cons.mp h
      rw [runWindows, checkWindows, bind_mapError, ih hrest, runNeighbours_eq (hle b (by simp))]

/-- The sort orders them by number. -/
theorem pairwise_seqKey (l : List CanonValue) :
    (l.insertionSort fun a b => seqKey a ≤ seqKey b).Pairwise fun a b => seqKey a ≤ seqKey b := by
  have htrans : IsTrans CanonValue fun a b => seqKey a ≤ seqKey b := ⟨fun _ _ _ => le_trans⟩
  have htotal : Std.Total fun a b : CanonValue => seqKey a ≤ seqKey b := ⟨fun _ _ => le_total _ _⟩
  exact List.pairwise_insertionSort _ l

/-- A run is the check: no addition stops it. -/
theorem runChain_eq (checkpoints : List CanonValue) (dag : Dag) :
    runChain checkpoints dag = (validateChain checkpoints dag).mapError .refused := by
  simp only [runChain, validateChain, bind_mapError, runWindows_eq (pairwise_seqKey checkpoints)]
  rfl

/-- Two checkpoints with the same fields, apart from the anchor. -/
def SameButAnchor (c c' : CanonValue) : Prop := ∀ k, k ≠ "anchor" → c.get k = c'.get k

/-- Checkpoints with one checkpoint hash agree on every field except the anchor. -/
def CopiesAgree (checkpoints : List CanonValue) : Prop :=
  ∀ c ∈ checkpoints, ∀ c' ∈ checkpoints, ∀ h, checkpointHash c = some h →
    checkpointHash c' = some h → SameButAnchor c c'

section Same

variable {a a' b b' : CanonValue} {l l' : List CanonValue} {dag : Dag}

theorem SameButAnchor.intField (h : SameButAnchor a a') {k : String} (hk : k ≠ "anchor") :
    intField a k = intField a' k := by
  rw [Averin.intField, Averin.intField, h k hk]

theorem SameButAnchor.strField (h : SameButAnchor a a') {k : String} (hk : k ≠ "anchor") :
    strField a k = strField a' k := by
  rw [Averin.strField, Averin.strField, h k hk]

theorem checkFirst_congr (h : SameButAnchor a a') : checkFirst a = checkFirst a' := by
  rw [checkFirst, checkFirst, h.intField (by decide), h _ (by decide)]

theorem checkNeighbours_congr (h : SameButAnchor a a') (h' : SameButAnchor b b') :
    checkNeighbours a b = checkNeighbours a' b' := by
  simp only [checkNeighbours, h.intField (by decide : "checkpoint_seq" ≠ "anchor"),
    h'.intField (by decide : "checkpoint_seq" ≠ "anchor"),
    h.strField (by decide : "checkpoint_hash" ≠ "anchor"),
    h'.strField (by decide : "checkpoint_hash" ≠ "anchor"),
    h' "prev_checkpoint_hash" (by decide), h.intField (by decide : "record_count" ≠ "anchor"),
    h'.intField (by decide : "record_count" ≠ "anchor")]

theorem checkWindows_congr (h : List.Forall₂ SameButAnchor l l') :
    checkWindows l = checkWindows l' := by
  induction h with
  | nil => rfl
  | cons hab hrest ih =>
    cases hrest with
    | nil => rfl
    | cons hcd hrest => rw [checkWindows, checkWindows, ih, checkNeighbours_congr hab hcd]

theorem checkFrontier_congr (h : SameButAnchor a a') :
    checkFrontier dag a = checkFrontier dag a' := by
  rw [checkFrontier, checkFrontier, h.intField (by decide), h _ (by decide)]

/-- Checks that agree element by element agree on the lists. -/
theorem forM_congr {α ε : Type} {R : α → α → Prop} {f : α → Except ε Unit} {l l' : List α}
    (h : List.Forall₂ R l l') (hf : ∀ {a a' : α}, R a a' → f a = f a') : l.forM f = l'.forM f := by
  have hcons : ∀ a (l : List α), (a :: l).forM f = f a >>= fun _ => l.forM f := fun _ _ => rfl
  induction h with
  | nil => rfl
  | cons hab hrest ih => rw [hcons, hcons, hf hab, ih]

theorem checkSharedPrev_congr (h : List.Forall₂ SameButAnchor l l') (m : TreeMap String String) :
    checkSharedPrev l m = checkSharedPrev l' m := by
  induction h generalizing m with
  | nil => rfl
  | cons hab hrest ih =>
    simp only [checkSharedPrev, hab "prev_checkpoint_hash" (by decide),
      hab.strField (by decide : "checkpoint_hash" ≠ "anchor"), ih]

theorem checkLatest_congr (h : SameButAnchor a a') : checkLatest dag a = checkLatest dag a' := by
  rw [checkLatest, checkLatest, h.intField (by decide), h _ (by decide), h.intField (by decide)]

theorem head?_forM_congr {α ε : Type} {R : α → α → Prop} {f : α → Except ε Unit} {l l' : List α}
    (h : List.Forall₂ R l l') (hf : ∀ {a a' : α}, R a a' → f a = f a') :
    l.head?.forM f = l'.head?.forM f := by
  cases h with
  | nil => rfl
  | cons hab hrest => exact hf hab

theorem getLast?_forM_congr {α ε : Type} {R : α → α → Prop} {f : α → Except ε Unit}
    {l l' : List α} (h : List.Forall₂ R l l') (hf : ∀ {a a' : α}, R a a' → f a = f a') :
    l.getLast?.forM f = l'.getLast?.forM f := by
  induction h with
  | nil => rfl
  | cons hab hrest ih =>
    cases hrest with
    | nil => exact hf hab
    | cons hcd hrest => rw [List.getLast?_cons_cons, List.getLast?_cons_cons, ih]

end Same

/-- Copies that agree are bound by their hash. -/
theorem CopiesAgree.hashesBind {checkpoints : List CanonValue} (h : CopiesAgree checkpoints) :
    HashesBind checkpoints := by
  intro c hc c' hc' k hk hk'
  have hsame := h c hc c' hc' k hk hk'
  refine ⟨?_, ?_, ?_, ?_⟩
  · rw [checkpointSeq, checkpointSeq, hsame _ (by decide)]
  · rw [prevCheckpointHash, prevCheckpointHash, hsame _ (by decide)]
  · rw [recordCount, recordCount, hsame _ (by decide)]
  · rw [frontierOf, frontierOf, hsame _ (by decide)]

variable {checkpoints checkpoints' : List CanonValue} {dag : Dag}

/-- A checkpoint that names a predecessor has a hash. -/
theorem hash_of_checkSharedPrev {l : List CanonValue} {m : TreeMap String String} {u : Unit}
    (h : checkSharedPrev l m = .ok u) : ∀ c ∈ l, (prevCheckpointHash c).isSome = true →
      (checkpointHash c).isSome = true := by
  induction l generalizing m with
  | nil => simp
  | cons cp rest ih =>
    rw [checkSharedPrev, ← prevCheckpointHash] at h
    cases hprev : prevCheckpointHash cp with
    | none =>
      rw [hprev] at h
      exact List.forall_mem_cons.mpr ⟨by simp [hprev], ih h⟩
    | some prev =>
      rw [hprev] at h
      simp only [bind_eq_ok_iff, strField_eq_ok_iff] at h
      obtain ⟨this, hthis, _, -, hrest⟩ := h
      have hhash : checkpointHash cp = some this := hthis
      exact List.forall_mem_cons.mpr ⟨by simp [hhash], ih hrest⟩

/-- In a chain of two or more every checkpoint has a hash. -/
theorem hash_of_checkWindows {a b : CanonValue} {l : List CanonValue} {u : Unit}
    (h : checkWindows (a :: b :: l) = .ok u)
    (hprev : ∀ c ∈ a :: b :: l, (prevCheckpointHash c).isSome = true →
      (checkpointHash c).isSome = true) :
    ∀ c ∈ a :: b :: l, (checkpointHash c).isSome = true := by
  have hpair : ∀ {a b : CanonValue} {u : Unit}, checkNeighbours a b = .ok u →
      ((prevCheckpointHash b).isSome = true → (checkpointHash b).isSome = true) →
      (checkpointHash a).isSome = true ∧ (checkpointHash b).isSome = true := by
    intro a b u hn hb
    obtain ⟨_, _, -, -, ⟨-, k, hk, hk'⟩ | ⟨-, ⟨k, hk, hlink⟩, -⟩⟩ := checkNeighbours_eq_ok hn
    · exact ⟨by simp [hk], by simp [hk']⟩
    · exact ⟨by simp [hk], hb (by simp [hlink])⟩
  induction l generalizing a b with
  | nil =>
    simp only [checkWindows, bind_eq_ok_iff] at h
    obtain ⟨_, hn, -⟩ := h
    simpa using hpair hn (hprev b (by simp))
  | cons d l ih =>
    rw [checkWindows, bind_eq_ok_iff] at h
    obtain ⟨_, hn, hrest⟩ := h
    refine List.forall_mem_cons.mpr ⟨(hpair hn (hprev b (by simp))).1, ?_⟩
    exact ih hrest fun c hc => hprev c (List.mem_cons_of_mem _ hc)

/-- Sorting a reordered list gives the same numbers. -/
theorem forall₂_seqKey (hperm : checkpoints.Perm checkpoints') :
    List.Forall₂ (fun c c' => seqKey c = seqKey c')
      (checkpoints.insertionSort fun a b => seqKey a ≤ seqKey b)
      (checkpoints'.insertionSort fun a b => seqKey a ≤ seqKey b) := by
  have hkeys : (checkpoints.insertionSort fun a b => seqKey a ≤ seqKey b).map seqKey =
      (checkpoints'.insertionSort fun a b => seqKey a ≤ seqKey b).map seqKey := by
    refine List.Perm.eq_of_pairwise (fun _ _ _ _ hab hba => le_antisymm hab hba)
      (List.pairwise_map.mpr (pairwise_seqKey checkpoints))
      (List.pairwise_map.mpr (pairwise_seqKey checkpoints')) ?_
    refine List.Perm.map _ ?_
    exact ((List.perm_insertionSort _ _).trans hperm).trans (List.perm_insertionSort _ _).symm
  have heq := List.forall₂_eq_eq_eq ▸ hkeys
  exact List.forall₂_map_right_iff.mp (List.forall₂_map_left_iff.mp heq)

/-- In an accepted chain, equal numbers mean copies. -/
theorem same_of_seqKey_eq {ordered : List CanonValue} (hc : CopiesAgree checkpoints)
    (h : validateChain checkpoints dag = .ok ordered) (hlen : 2 ≤ checkpoints.length)
    {c c' : CanonValue} (hcm : c ∈ checkpoints) (hcm' : c' ∈ checkpoints)
    (hkey : seqKey c = seqKey c') : SameButAnchor c c' := by
  simp only [validateChain, bind_eq_ok_iff] at h
  obtain ⟨_, -, _, hwin, _, -, _, hshared, _, -, hret⟩ := h
  have hmem : ∀ c, c ∈ checkpoints.insertionSort (fun a b => seqKey a ≤ seqKey b) ↔
      c ∈ checkpoints := fun c => (List.perm_insertionSort _ _).mem_iff
  have hsize : (checkpoints.insertionSort fun a b => seqKey a ≤ seqKey b).length =
      checkpoints.length := List.length_insertionSort _ _
  generalize checkpoints.insertionSort (fun a b => seqKey a ≤ seqKey b) = sorted at *
  obtain ⟨a, tail, rfl⟩ : ∃ a tail, sorted = a :: tail := by
    refine List.exists_cons_of_ne_nil ?_
    rintro rfl
    rw [List.length_nil] at hsize
    omega
  obtain ⟨b, l, rfl⟩ : ∃ b l, tail = b :: l := by
    refine List.exists_cons_of_ne_nil ?_
    rintro rfl
    rw [List.length_singleton] at hsize
    omega
  have hhash := hash_of_checkWindows hwin (hash_of_checkSharedPrev hshared)
  have hbind : HashesBind (a :: b :: l) := fun d hd d' hd' =>
    hc.hashesBind d ((hmem d).mp hd) d' ((hmem d').mp hd')
  obtain ⟨sa, -, hsa, -⟩ := checkNeighbours_eq_ok (bind_eq_ok_iff.mp hwin).choose_spec.1
  have hspec := chainSpec_of_checkWindows hwin (by simp [hsa]) hbind
  have hkeys : ∀ d ∈ a :: b :: l, seqKey d = seqNumber d := fun d hd => by
    rw [seqKey, ← checkpointSeq, hspec.numbered d hd]
    rfl
  have hn : seqNumber c = seqNumber c' := by
    rw [← hkeys c ((hmem c).mpr hcm), ← hkeys c' ((hmem c').mpr hcm'), hkey]
  obtain ⟨hsame, -⟩ := hspec.same c ((hmem c).mpr hcm) c' ((hmem c').mpr hcm') hn
  obtain ⟨k, hk⟩ := Option.isSome_iff_exists.mp (hhash c ((hmem c).mpr hcm))
  exact hc c hcm c' hcm' k hk (hsame ▸ hk)

/-- An accepted chain is accepted in any order. -/
theorem validateChain_isOk_of_perm (hc : CopiesAgree checkpoints)
    (hperm : checkpoints.Perm checkpoints')
    (h : ∃ ordered, validateChain checkpoints dag = .ok ordered) :
    ∃ ordered, validateChain checkpoints' dag = .ok ordered := by
  obtain ⟨ordered, h⟩ := h
  by_cases hlen : 2 ≤ checkpoints.length
  · have hsorted := List.forall₂_iff_zip.mp (forall₂_seqKey hperm)
    have hall : List.Forall₂ SameButAnchor
        (checkpoints.insertionSort fun a b => seqKey a ≤ seqKey b)
        (checkpoints'.insertionSort fun a b => seqKey a ≤ seqKey b) := by
      refine List.forall₂_iff_zip.mpr ⟨hsorted.1, fun {c c'} hcc => ?_⟩
      obtain ⟨hcm, hcm'⟩ := List.of_mem_zip hcc
      exact same_of_seqKey_eq hc h hlen ((List.perm_insertionSort _ _).mem_iff.mp hcm)
        (hperm.mem_iff.mpr ((List.perm_insertionSort _ _).mem_iff.mp hcm')) (hsorted.2 hcc)
    simp only [validateChain, bind_eq_ok_iff] at h ⊢
    obtain ⟨_, hfirst, _, hwin, _, hfront, _, hshared, _, hlast, -⟩ := h
    rw [head?_forM_congr hall checkFirst_congr] at hfirst
    rw [checkWindows_congr hall] at hwin
    rw [forM_congr hall checkFrontier_congr] at hfront
    rw [checkSharedPrev_congr hall] at hshared
    rw [getLast?_forM_congr hall checkLatest_congr] at hlast
    exact ⟨_, _, hfirst, _, hwin, _, hfront, _, hshared, _, hlast, rfl⟩
  · have heq : checkpoints' = checkpoints := by
      rcases checkpoints with _ | ⟨c, rest⟩
      · exact hperm.nil_eq.symm
      · have hrest : rest = [] := by
          rw [List.length_cons] at hlen
          exact List.length_eq_zero_iff.mp (by omega)
        rw [hrest] at hperm ⊢
        exact List.perm_singleton.mp hperm.symm
    exact ⟨ordered, heq ▸ h⟩

/-- The agreement does not depend on the order. -/
theorem CopiesAgree.of_perm (hc : CopiesAgree checkpoints)
    (hperm : checkpoints.Perm checkpoints') : CopiesAgree checkpoints' :=
  fun c hcm c' hcm' => hc c (hperm.mem_iff.mpr hcm) c' (hperm.mem_iff.mpr hcm')

/-- The chain check never leaves the range of numbers; it accepts a list of checkpoints, whose
copies agree but for their anchors, in every order or in none; and the check of a segment
without a base accepts what it accepts. -/
theorem validateChain_order (checkpoints : List CanonValue) (dag : Dag) :
    runChain checkpoints dag ≠ .error .overflow ∧
      (CopiesAgree checkpoints → ∀ checkpoints', checkpoints.Perm checkpoints' →
        ((∃ ordered, validateChain checkpoints' dag = .ok ordered) ↔
          ∃ ordered, validateChain checkpoints dag = .ok ordered)) ∧
      (validateSegmentChain checkpoints dag none = .ok () ↔
        ∃ ordered, validateChain checkpoints dag = .ok ordered) := by
  refine ⟨?_, fun hc checkpoints' hperm => ⟨?_, ?_⟩, ?_⟩
  · rw [runChain_eq]
    cases validateChain checkpoints dag <;> simp [Except.mapError]
  · exact validateChain_isOk_of_perm (hc.of_perm hperm) hperm.symm
  · exact validateChain_isOk_of_perm hc hperm
  · rw [validateSegmentChain, bind_eq_ok_iff]
    simp only [mapError_eq_ok_iff, and_true]

end Averin
