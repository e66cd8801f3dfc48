import Averin.Core.Sorting
import Averin.Verify.RevocationTree

/-!
# Revocation proofs are sound

An accepted opening names a leaf of the tree at its position. A membership proof therefore
opens the leaf of its grant, and a non-membership proof opens two neighbours of a sorted list
with the grant strictly between them, which leaves no room for the grant in the list. Both
hold unless the hash takes one value on two different inputs among those that the tree and
the check hash.
-/

namespace Averin

section Soundness

variable (sha256 : List UInt8 → Vector UInt8 32)

/-- Two different inputs of a list with one hash. -/
def Collision (hashed : List (List UInt8)) : Prop :=
  ∃ p ∈ hashed, ∃ q ∈ hashed, p ≠ q ∧ sha256 p = sha256 q

variable {sha256}

/-- Where nothing collides, one hash has one preimage. -/
theorem eq_of_not_collision {hashed : List (List UInt8)} (h : ¬ Collision sha256 hashed)
    {p q : List UInt8} (hp : p ∈ hashed) (hq : q ∈ hashed) (heq : sha256 p = sha256 q) :
    p = q := by
  by_contra hne
  exact h ⟨p, hp, q, hq, hne, heq⟩

theorem not_collision_mono {hashed hashed' : List (List UInt8)} (h : ¬ Collision sha256 hashed')
    (hsub : hashed ⊆ hashed') : ¬ Collision sha256 hashed := by
  rintro ⟨p, hp, q, hq, hne, heq⟩
  exact h ⟨p, hsub hp, q, hsub hq, hne, heq⟩

/-- A leaf is read off what is hashed. -/
theorem merkleLeafPreimage_injective : Function.Injective merkleLeafPreimage := by
  intro v w h
  exact Vector.toList_inj.mp (List.cons.inj h).2

theorem merkleNodePreimage_inj {l r l' r' : Vector UInt8 32}
    (h : merkleNodePreimage l r = merkleNodePreimage l' r') : l = l' ∧ r = r' := by
  obtain ⟨hl, hr⟩ := List.append_inj (List.cons.inj h).2 (by simp)
  exact ⟨Vector.toList_inj.mp hl, Vector.toList_inj.mp hr⟩

/-- A leaf value with its position and its siblings. -/
structure Opening where
  leaf : Vector UInt8 32
  index : Nat
  path : List (Vector UInt8 32)

variable (sha256)

/-- What is hashed to follow an opening. -/
def Opening.hashed (size : Nat) (o : Opening) : List (List UInt8) :=
  merkleLeafPreimage o.leaf ::
    (Merkle.climbPairs (merkleNodeHash sha256) (merkleLeafHash sha256 o.leaf) o.index (size - 1)
      o.path).map fun p => merkleNodePreimage p.1 p.2

/-- What is hashed to build a tree. -/
def treeHashed (leaves : List (Vector UInt8 32)) : List (List UInt8) :=
  leaves.map merkleLeafPreimage ++
    (Merkle.treePairs (merkleNodeHash sha256) (leaves.map (merkleLeafHash sha256))).map fun p =>
      merkleNodePreimage p.1 p.2

/-- The opening leads to the root. -/
def Opening.Opens (root : Vector UInt8 32) (size : Nat) (o : Opening) : Prop :=
  merkleRootFromProof sha256 o.leaf o.index size o.path = .ok (some root)

variable {sha256}

/-- No subtraction leaves its range. -/
theorem merkleRootFromProof_eq (leafValue : Vector UInt8 32) (index size : Nat)
    (path : List (Vector UInt8 32)) :
    merkleRootFromProof sha256 leafValue index size path =
      .ok (if size = 0 ∨ size ≤ index then none
        else Merkle.climb (merkleNodeHash sha256) (merkleLeafHash sha256 leafValue) index
          (size - 1) path) := by
  unfold merkleRootFromProof
  by_cases h : size = 0 ∨ size ≤ index
  · rw [if_pos h, if_pos h]
    rfl
  · have hsub : usizeSub size 1 = .ok (size - 1) := by
      rw [usizeSub, if_pos (by omega)]
    rw [if_neg h, if_neg h, hsub]
    rfl

/-- An opening is of a leaf of the tree. -/
theorem Opening.Opens.index_lt {o : Opening} {root : Vector UInt8 32} {size : Nat}
    (h : o.Opens sha256 root size) : o.index < size := by
  unfold Opening.Opens at h
  rw [merkleRootFromProof_eq] at h
  split_ifs at h with hc
  · cases h
  · omega

/-- An opening that leads to the root of a tree opens a leaf of it. -/
theorem Opening.Opens.getElem? {leaves : List (Vector UInt8 32)} {hne : leaves ≠ []}
    {o : Opening} (h : o.Opens sha256 (leafRoot sha256 leaves hne) leaves.length)
    (hno : ¬ Collision sha256 (treeHashed sha256 leaves ++ o.hashed sha256 leaves.length)) :
    leaves[o.index]? = some o.leaf := by
  have hidx := h.index_lt
  unfold Opening.Opens at h
  rw [merkleRootFromProof_eq, if_neg (by omega), Except.ok.injEq] at h
  have htop : Merkle.topLevel (merkleNodeHash sha256) (leaves.map (merkleLeafHash sha256)) =
      [leafRoot sha256 leaves hne] := Merkle.topLevel_eq_root _ _ _
  have hlevel := Merkle.getElem?_of_climb (merkleNodeHash sha256)
    (leaves.map (merkleLeafHash sha256)) (by simpa using hidx) (by simpa using h) htop ?_
  · rw [List.getElem?_map, List.getElem?_eq_getElem hidx, Option.map_some, Option.some.injEq]
      at hlevel
    have hpre := eq_of_not_collision hno
      (List.mem_append_left _ (List.mem_append_left _ (List.mem_map_of_mem
        (List.getElem_mem hidx))))
      (List.mem_append_right _ List.mem_cons_self) hlevel
    rw [List.getElem?_eq_getElem hidx, merkleLeafPreimage_injective hpre]
  · intro p hp q hq heq
    have hpre := eq_of_not_collision hno
      (List.mem_append_left _ (List.mem_append_right _ (List.mem_map_of_mem hp)))
      (List.mem_append_right _ (List.mem_cons_of_mem _ (List.mem_map_of_mem
        (by simpa using hq)))) heq
    obtain ⟨hl, hr⟩ := merkleNodePreimage_inj hpre
    exact Prod.ext hl hr

/-- The order of hashes tells them apart. -/
theorem digestKey_injective : Function.Injective digestKey := by
  intro v w h
  exact Vector.toList_inj.mp (List.map_injective_iff.mpr (fun _ _ => UInt8.toNat_inj.mp) h)

/-- Zeros come first. -/
theorem replicate_zero_le (l : List Nat) : List.replicate l.length 0 ≤ l := by
  induction l with
  | nil => exact le_refl ([] : List Nat)
  | cons x l ih =>
    rw [List.length_cons, List.replicate_succ, ← not_lt, List.cons_lt_cons_iff]
    rintro (h | ⟨-, h⟩)
    · exact Nat.not_lt_zero x h
    · exact not_lt.mpr ih h

/-- The greatest value, repeated, comes last. -/
theorem le_replicate {l : List Nat} {m : Nat} (h : ∀ x ∈ l, x ≤ m) :
    l ≤ List.replicate l.length m := by
  induction l with
  | nil => exact le_refl ([] : List Nat)
  | cons x l ih =>
    rw [List.forall_mem_cons] at h
    rw [List.length_cons, List.replicate_succ, ← not_lt, List.cons_lt_cons_iff]
    rintro (hlt | ⟨-, hlt⟩)
    · exact absurd hlt (not_lt.mpr h.1)
    · exact not_lt.mpr (ih h.2) hlt

theorem minLeaf_le (v : Vector UInt8 32) : digestKey minLeaf ≤ digestKey v := by
  have h := replicate_zero_le (digestKey v)
  rwa [digestKey, List.length_map, Vector.length_toList] at h

/-- The last one is greatest. -/
theorem le_maxLeaf (v : Vector UInt8 32) : digestKey v ≤ digestKey maxLeaf := by
  have h : digestKey v ≤ List.replicate (digestKey v).length 255 := by
    apply le_replicate
    intro x hx
    obtain ⟨b, -, rfl⟩ := List.mem_map.mp hx
    exact Nat.le_of_lt_succ b.toNat_lt
  rwa [show (digestKey v).length = 32 by simp [digestKey]] at h

/-- Sorted values between the sentinels are sorted. -/
theorem pairwise_bracketed {ks : List (Vector UInt8 32)}
    (h : ks.Pairwise (digestKey · ≤ digestKey ·)) :
    ((minLeaf :: (ks ++ [maxLeaf])).map digestKey).Pairwise (· ≤ ·) := by
  rw [List.pairwise_map, List.pairwise_cons, List.pairwise_append]
  refine ⟨fun v _ => minLeaf_le v, h, List.pairwise_singleton _ _, fun v _ u hu => ?_⟩
  rw [List.mem_singleton.mp hu]
  exact le_maxLeaf v

/-- The opening a proof spells in an index and a path, for a leaf known otherwise. -/
def readOpening (w : Nat) (leaf : Option (Vector UInt8 32)) (index path : Option CanonValue) :
    Option Opening := do
  let leaf ← leaf
  let i ← index.bind CanonValue.asInt
  let p ← parseHex32Path path
  return ⟨leaf, asUsize w i, p⟩

/-- When an opening is read. -/
theorem readOpening_eq_some {w : Nat} {leaf : Vector UInt8 32} {index path : Option CanonValue}
    {i : Int} {p : List (Vector UInt8 32)} (hi : index.bind CanonValue.asInt = some i)
    (hp : parseHex32Path path = some p) :
    readOpening w (some leaf) index path = some ⟨leaf, asUsize w i, p⟩ := by
  simp [readOpening, hi, hp]

/-- Two openings at neighbouring positions that lead to the root. -/
def NeighboursOpen (sha256 : List UInt8 → Vector UInt8 32) (w : Nat) (root : Vector UInt8 32)
    (size : Nat) (lo hi : Opening) : Prop :=
  (∃ i : Int, lo.index = asUsize w i ∧ hi.index = asUsize w (i + 1)) ∧
    lo.Opens sha256 root size ∧ hi.Opens sha256 root size

/-- The positions are neighbours on the machine as well: the last machine word is no position
in a tree whose size is a machine word. -/
theorem NeighboursOpen.index_eq {w : Nat} {root : Vector UInt8 32} {size : Nat} {lo hi : Opening}
    (h : NeighboursOpen sha256 w root size lo hi) (hw : size < 2 ^ w) :
    hi.index = lo.index + 1 := by
  obtain ⟨⟨i, hlo, hhi⟩, hopen, -⟩ := h
  have hlt := hopen.index_lt
  rw [hlo] at hlt ⊢
  rw [hhi]
  unfold asUsize at hlt ⊢
  have hpos : (0 : Int) < 2 ^ w := by positivity
  have hcast : ((2 ^ w : Nat) : Int) = 2 ^ w := by push_cast; rfl
  have hnonneg := Int.emod_nonneg i hpos.ne'
  have hsmall : i % 2 ^ w + 1 < 2 ^ w := by omega
  have hstep : (i + 1) % 2 ^ w = i % 2 ^ w + 1 := by
    rw [← Int.emod_add_emod, Int.emod_eq_of_lt (by omega) hsmall]
  omega

/-- Without overflow the sum is the sum. -/
theorem eq_of_checkedAdd {a b c : Int} (h : checkedAdd a b = some c) : c = a + b := by
  unfold checkedAdd at h
  split_ifs at h
  exact (Option.some.inj h).symm

/-- What a check of two neighbours answers, after their fields are read. -/
def bothOpen {ν : Type} (sha256 : List UInt8 → Vector UInt8 32) (root : Vector UInt8 32)
    (size : Nat) (lo hi : Opening) (yes no : ν) : Except Overflow ν := do
  let loTop ← merkleRootFromProof sha256 lo.leaf lo.index size lo.path
  if loTop ≠ some root then return no
  let hiTop ← merkleRootFromProof sha256 hi.leaf hi.index size hi.path
  if hiTop ≠ some root then return no
  return yes

/-- If the answer is yes, both openings were checked. -/
theorem bothOpen_cases {ν : Type} {root : Vector UInt8 32} {size : Nat} {lo hi : Opening}
    {yes no : ν} :
    bothOpen sha256 root size lo hi yes no = .ok no ∨
      bothOpen sha256 root size lo hi yes no = .ok yes ∧ lo.Opens sha256 root size ∧
        hi.Opens sha256 root size := by
  unfold bothOpen Opening.Opens
  rw [merkleRootFromProof_eq, merkleRootFromProof_eq]
  generalize (if size = 0 ∨ size ≤ lo.index then none else _) = loTop
  generalize (if size = 0 ∨ size ≤ hi.index then none else _) = hiTop
  by_cases hlo : loTop = some root
  · by_cases hhi : hiTop = some root
    · right
      simp [bind, Except.bind, pure, Except.pure, hlo, hhi]
    · left
      simp [bind, Except.bind, pure, Except.pure, hlo, hhi]
  · left
    simp [bind, Except.bind, pure, Except.pure, hlo]

/-- The openings a proof of the first version spells for a grant with this leaf. -/
def proofOpenings (w : Nat) (proof : CanonValue) (q : Vector UInt8 32) : List Opening :=
  [readOpening w (some q) (proof.get "index") (proof.get "path"),
    readOpening w (hexField (proof.get "lo")) (proof.get "lo_index") (proof.get "lo_path"),
    readOpening w (hexField (proof.get "hi")) (proof.get "hi_index")
      (proof.get "hi_path")].filterMap id

/-- The check always ends in a verdict, and a verdict other than unproven has its openings. -/
theorem checkRevocationProof_cases (w : Nat) (proof : CanonValue) (g : String)
    (root : Vector UInt8 32) (size : Nat) :
    let v := checkRevocationProof sha256 w proof g root size
    let q := revocationLeaf sha256 g
    v = .ok .unproven ∨
    (v = .ok .revoked ∧ ∃ o ∈ proofOpenings w proof q, o.leaf = q ∧ o.Opens sha256 root size) ∨
    (v = .ok .notRevoked ∧ ∃ lo ∈ proofOpenings w proof q, ∃ hi ∈ proofOpenings w proof q,
      digestKey lo.leaf < digestKey q ∧ digestKey q < digestKey hi.leaf ∧
        NeighboursOpen sha256 w root size lo hi) := by
  intro v q
  simp only [v, checkRevocationProof]
  split
  · split
    · next i p hi hp =>
      split_ifs with hnonneg
      · rw [merkleRootFromProof_eq]
        generalize htop : (if size = 0 ∨ size ≤ asUsize w i then none else _) = top
        by_cases h : top = some root
        · right; left
          refine ⟨by simp [bind, Except.bind, pure, Except.pure, h], ⟨q, asUsize w i, p⟩, ?_, rfl,
            ?_⟩
          · exact List.mem_filterMap.mpr ⟨_, List.mem_cons_self, readOpening_eq_some hi hp⟩
          · unfold Opening.Opens
            rw [merkleRootFromProof_eq, htop, h]
        · left
          simp [bind, Except.bind, pure, Except.pure, h]
      · exact Or.inl rfl
    · exact Or.inl rfl
  · split
    · next lo hi li hiI lp hp hlo hhi hli hhiI hlp hhp =>
      split_ifs with hnonneg hadd hbetween
      · exact Or.inl rfl
      · rw [not_not] at hadd
        rcases @bothOpen_cases sha256 _ root size ⟨lo, asUsize w li, lp⟩ ⟨hi, asUsize w hiI, hp⟩
          ProofVerdict.notRevoked .unproven with h | ⟨h, hopens⟩
        · exact Or.inl h
        · refine Or.inr (Or.inr ⟨h, _, ?_, _, ?_, hbetween.1, hbetween.2, ⟨li, rfl, ?_⟩, hopens⟩)
          · refine List.mem_filterMap.mpr ⟨_, List.mem_cons_of_mem _ List.mem_cons_self, ?_⟩
            rw [hlo]
            exact readOpening_eq_some hli hlp
          · refine List.mem_filterMap.mpr ⟨_, List.mem_cons_of_mem _ (List.mem_cons_of_mem _
              List.mem_cons_self), ?_⟩
            rw [hhi]
            exact readOpening_eq_some hhiI hhp
          · rw [eq_of_checkedAdd hadd]
      · exact Or.inl rfl
      · exact Or.inl rfl
    · exact Or.inl rfl
  · exact Or.inl rfl

/-- A pair of key and state digest that a proof of the second version names, with its opening. -/
def readPair (sha256 : List UInt8 → Vector UInt8 32) (w : Nat)
    (pair : Option (Vector UInt8 32 × Vector UInt8 32)) (index path : Option CanonValue) :
    Option ((Vector UInt8 32 × Vector UInt8 32) × Opening) :=
  pair.bind fun p => (readOpening w (some (revocationEntryV2 sha256 p.1 p.2)) index path).map (p, ·)

/-- The pairs and openings a proof of the second version spells for a grant with this key. -/
def proofPairs (sha256 : List UInt8 → Vector UInt8 32) (w : Nat) (proof : CanonValue)
    (q : Vector UInt8 32) (watermark : Int) :
    List ((Vector UInt8 32 × Vector UInt8 32) × Opening) :=
  [readPair sha256 w ((parseStateFields proof watermark).map fun state =>
      (q, revocationStateDigestV2 sha256 state.mode state.cutoff)) (proof.get "index")
      (proof.get "path"),
    readPair sha256 w (parseSide proof "lo") (proof.get "lo_index") (proof.get "lo_path"),
    readPair sha256 w (parseSide proof "hi") (proof.get "hi_index")
      (proof.get "hi_path")].filterMap id

/-- When a pair is read. -/
theorem readPair_eq_some {w : Nat} {pair : Vector UInt8 32 × Vector UInt8 32} {proof : CanonValue}
    {k : String} {path : Option CanonValue} {i : Int} {p : List (Vector UInt8 32)}
    (hi : indexField proof k = some i) (hp : parseHex32Path path = some p) :
    readPair sha256 w (some pair) (proof.get k) path =
      some (pair, ⟨revocationEntryV2 sha256 pair.1 pair.2, asUsize w i, p⟩) := by
  rw [readPair, Option.bind_some, readOpening_eq_some (Option.filter_eq_some_iff.mp hi).1 hp]
  rfl

/-- The leaf of a pair is computed from it. -/
theorem leaf_of_mem_proofPairs {w : Nat} {proof : CanonValue} {q : Vector UInt8 32}
    {watermark : Int} {e : (Vector UInt8 32 × Vector UInt8 32) × Opening}
    (h : e ∈ proofPairs sha256 w proof q watermark) :
    e.2.leaf = revocationEntryV2 sha256 e.1.1 e.1.2 := by
  have hread : ∀ pair index path, readPair sha256 w pair index path = some e →
      e.2.leaf = revocationEntryV2 sha256 e.1.1 e.1.2 := by
    intro pair index path he
    obtain ⟨p, -, hmap⟩ := Option.bind_eq_some_iff.mp he
    obtain ⟨o, ho, rfl⟩ := Option.map_eq_some_iff.mp hmap
    simp only [readOpening, Option.bind_eq_bind, Option.bind_some, Option.bind_eq_some_iff] at ho
    obtain ⟨i, -, path, -, ho⟩ := ho
    rw [← Option.some.inj ho]
  obtain ⟨r, hr, he⟩ := List.mem_filterMap.mp h
  simp only [List.mem_cons, List.not_mem_nil, or_false] at hr
  rcases hr with rfl | rfl | rfl <;> exact hread _ _ _ he

/-- The same for the second version, where a positive verdict carries the stated state. -/
theorem checkRevocationProofV2_cases (w : Nat) (proof : CanonValue) (g : String)
    (root : Vector UInt8 32) (size : Nat) (watermark : Int) :
    let v := checkRevocationProofV2 sha256 w proof g root size watermark
    let q := revocationKeyV2 sha256 g
    let pairs := proofPairs sha256 w proof q watermark
    v = .ok .unproven ∨
    (∃ state, v = .ok (.revoked state) ∧ parseStateFields proof watermark = some state ∧
      ∃ o, ((q, revocationStateDigestV2 sha256 state.mode state.cutoff), o) ∈ pairs ∧
        o.Opens sha256 root size) ∨
    (v = .ok .notRevoked ∧ ∃ lo ∈ pairs, ∃ hi ∈ pairs,
      digestKey lo.1.1 < digestKey q ∧ digestKey q < digestKey hi.1.1 ∧
        NeighboursOpen sha256 w root size lo.2 hi.2) := by
  intro v q pairs
  simp only [v, checkRevocationProofV2]
  split
  · split
    · next state i p hstate hi hp =>
      rw [merkleRootFromProof_eq]
      generalize htop : (if size = 0 ∨ size ≤ asUsize w i then none else _) = top
      by_cases h : top = some root
      · right; left
        refine ⟨state, by simp [bind, Except.bind, pure, Except.pure, h], hstate,
          ⟨revocationEntryV2 sha256 q (revocationStateDigestV2 sha256 state.mode state.cutoff),
            asUsize w i, p⟩, ?_, ?_⟩
        · refine List.mem_filterMap.mpr ⟨_, List.mem_cons_self, ?_⟩
          rw [hstate, Option.map_some]
          exact readPair_eq_some hi hp
        · unfold Opening.Opens
          rw [merkleRootFromProof_eq, htop, h]
      · left
        simp [bind, Except.bind, pure, Except.pure, h]
    · exact Or.inl rfl
  · split
    · next lo hi li hiI lp hp hlo hhi hli hhiI hlp hhp =>
      split_ifs with hbad
      · exact Or.inl rfl
      · rw [not_or, not_not, not_not] at hbad
        obtain ⟨hadd, hbetween⟩ := hbad
        rcases @bothOpen_cases sha256 _ root size
          ⟨revocationEntryV2 sha256 lo.1 lo.2, asUsize w li, lp⟩
          ⟨revocationEntryV2 sha256 hi.1 hi.2, asUsize w hiI, hp⟩
          ProofV2.notRevoked .unproven with h | ⟨h, hopens⟩
        · exact Or.inl h
        · refine Or.inr (Or.inr ⟨h, (lo, _), ?_, (hi, _), ?_, hbetween.1, hbetween.2,
            ⟨li, rfl, ?_⟩, hopens⟩)
          · refine List.mem_filterMap.mpr ⟨_, List.mem_cons_of_mem _ List.mem_cons_self, ?_⟩
            rw [hlo]
            exact readPair_eq_some hli hlp
          · refine List.mem_filterMap.mpr ⟨_, List.mem_cons_of_mem _ (List.mem_cons_of_mem _
              List.mem_cons_self), ?_⟩
            rw [hhi]
            exact readPair_eq_some hhiI hhp
          · rw [eq_of_checkedAdd hadd]
    · exact Or.inl rfl
  · exact Or.inl rfl

theorem lp4_bytes_injective : Function.Injective fun s => lp4 (bytes s) :=
  (framed_injective 4).comp bytes_injective

/-- A revoked grant is read off its leaf. -/
theorem revocationLeafPreimage_injective : Function.Injective revocationLeafPreimage := by
  intro g g' h
  exact lp4_bytes_injective (List.append_cancel_left h)

theorem revocationKeyV2Preimage_injective : Function.Injective revocationKeyV2Preimage := by
  intro g g' h
  exact lp4_bytes_injective (List.append_cancel_left h)

/-- The entry of the second version gives key and state. -/
theorem revocationEntryV2Preimage_inj {k s k' s' : Vector UInt8 32}
    (h : revocationEntryV2Preimage k s = revocationEntryV2Preimage k' s') : (k, s) = (k', s') := by
  unfold revocationEntryV2Preimage at h
  rw [List.append_assoc, List.append_assoc] at h
  obtain ⟨hk, hs⟩ := List.append_inj (List.append_cancel_left h) (by simp)
  rw [Vector.toList_inj.mp hk, Vector.toList_inj.mp hs]

/-- A cutoff has sixty-four bits. -/
theorem RevState.cutoff_range (state : RevState) :
    -2 ^ 63 ≤ state.cutoff ∧ state.cutoff < 2 ^ 63 := by
  cases state with
  | total => exact ⟨by decide, by decide⟩
  | prospective c => exact ⟨c.le_toInt, c.toInt_lt⟩

theorem RevState.length_mode_lt (state : RevState) : (bytes state.mode).length < 256 ^ 4 := by
  cases state with
  | total => decide
  | prospective c => exact (by decide : (bytes "prospective").length < 256 ^ 4)

/-- A state is determined by the bytes of its digest, and no state has those of a sentinel. -/
theorem revocationStateV2Preimage_inj {state state' : RevState}
    (h : revocationStateV2Preimage state.mode state.cutoff =
      revocationStateV2Preimage state'.mode state'.cutoff) : state = state' := by
  unfold revocationStateV2Preimage at h
  rw [List.append_assoc, List.append_assoc] at h
  obtain ⟨hmode, hcut⟩ := framed_append_inj state.length_mode_lt state'.length_mode_lt
    (List.append_cancel_left h)
  have hcutoff := eq_of_be8_eq state.cutoff_range state'.cutoff_range hcut
  have hmode' := bytes_injective hmode
  cases state <;> cases state'
  · rfl
  · exact absurd hmode' (by simp [RevState.mode])
  · exact absurd hmode' (by simp [RevState.mode])
  · exact congrArg RevState.prospective (Int64.toInt_inj.mp hcutoff)

/-- No state is that of a sentinel. -/
theorem revocationStateV2Preimage_ne_sentinel (state : RevState) :
    revocationStateV2Preimage state.mode state.cutoff ≠ revocationStateV2Preimage "sentinel" 0 := by
  intro h
  unfold revocationStateV2Preimage at h
  rw [List.append_assoc, List.append_assoc] at h
  have hmode := bytes_injective (framed_append_inj state.length_mode_lt (by decide)
    (List.append_cancel_left h)).1
  cases state <;> exact absurd hmode (by simp [RevState.mode])

variable (sha256)

/-- What is hashed to build the tree of the first version and to check proofs against it. -/
def revocationHashed (w : Nat) (revoked : List String) (g : String) (proofs : List CanonValue) :
    List (List UInt8) :=
  (g :: revoked).map revocationLeafPreimage ++
    (treeHashed sha256 (revocationLeaves sha256 revoked) ++
      proofs.flatMap fun proof => (proofOpenings w proof (revocationLeaf sha256 g)).flatMap
        (Opening.hashed sha256 (revoked.length + 2)))

/-- What is hashed to build the tree of the second version and to check proofs against it. -/
def revocationHashedV2 (w : Nat) (entries : List (String × RevState)) (g : String)
    (watermark : Int) (proofs : List CanonValue) : List (List UInt8) :=
  (g :: entries.map (·.1)).map revocationKeyV2Preimage ++
    (revocationStateV2Preimage "sentinel" 0 ::
      (entries.map (·.2) ++ proofs.filterMap (parseStateFields · watermark)).map
        fun state => revocationStateV2Preimage state.mode state.cutoff) ++
    (revocationPairsV2 sha256 entries).map (fun p => revocationEntryV2Preimage p.1 p.2) ++
    (treeHashed sha256 (revocationLeavesV2 sha256 entries) ++
      proofs.flatMap fun proof =>
        (proofPairs sha256 w proof (revocationKeyV2 sha256 g) watermark).flatMap fun e =>
          revocationEntryV2Preimage e.1.1 e.1.2 :: e.2.hashed sha256 (entries.length + 2))

/-- The hash of the grant is the value of a sentinel. -/
def SentinelLeaf (g : String) : Prop :=
  revocationLeaf sha256 g = minLeaf ∨ revocationLeaf sha256 g = maxLeaf

variable {sha256}

@[simp] theorem length_revocationLeaves (revoked : List String) :
    (revocationLeaves sha256 revoked).length = revoked.length + 2 := by
  simp [revocationLeaves]

@[simp] theorem length_revocationLeavesV2 (entries : List (String × RevState)) :
    (revocationLeavesV2 sha256 entries).length = entries.length + 2 := by
  simp [revocationLeavesV2, revocationPairsV2]

/-- A leaf is a sentinel or that of a revoked grant. -/
theorem mem_revocationLeaves {revoked : List String} {v : Vector UInt8 32}
    (h : v ∈ revocationLeaves sha256 revoked) :
    v = minLeaf ∨ v = maxLeaf ∨ ∃ g ∈ revoked, revocationLeaf sha256 g = v := by
  simp only [revocationLeaves, List.mem_cons, List.mem_append, List.mem_insertionSort,
    List.mem_map, List.not_mem_nil, or_false] at h
  tauto

/-- A revoked grant has its leaf. -/
theorem revocationLeaf_mem {revoked : List String} {g : String} (h : g ∈ revoked) :
    revocationLeaf sha256 g ∈ revocationLeaves sha256 revoked := by
  simp only [revocationLeaves, List.mem_cons, List.mem_append, List.mem_insertionSort,
    List.mem_map]
  exact Or.inr (Or.inl ⟨g, h, rfl⟩)

/-- The leaves are in order. -/
theorem pairwise_revocationLeaves (revoked : List String) :
    ((revocationLeaves sha256 revoked).map digestKey).Pairwise (· ≤ ·) := by
  have : Std.Total fun a b : Vector UInt8 32 => digestKey a ≤ digestKey b :=
    ⟨fun a b => le_total _ _⟩
  have : IsTrans (Vector UInt8 32) fun a b => digestKey a ≤ digestKey b :=
    ⟨fun a b c => le_trans⟩
  exact pairwise_bracketed (List.pairwise_insertionSort _ _)

section First

variable {w : Nat} {revoked : List String} {g : String} {proofs : List CanonValue}
  {proof : CanonValue} (hp : proof ∈ proofs)
  (hno : ¬ Collision sha256 (revocationHashed sha256 w revoked g proofs))
include hp hno

/-- A leaf that opens stands at its index. -/
theorem getElem?_revocationLeaves {o : Opening}
    (ho : o ∈ proofOpenings w proof (revocationLeaf sha256 g))
    (hopen : o.Opens sha256
      (leafRoot sha256 (revocationLeaves sha256 revoked) (List.cons_ne_nil _ _))
      (revoked.length + 2)) :
    (revocationLeaves sha256 revoked)[o.index]? = some o.leaf := by
  rw [← @length_revocationLeaves sha256] at hopen
  refine hopen.getElem? (not_collision_mono hno ?_)
  intro b hb
  rw [length_revocationLeaves] at hb
  refine List.mem_append_right _ ?_
  rcases List.mem_append.mp hb with hb | hb
  · exact List.mem_append_left _ hb
  · exact List.mem_append_right _ (List.mem_flatMap.mpr ⟨proof, hp, List.mem_flatMap.mpr
      ⟨o, ho, hb⟩⟩)

/-- What is proved revoked is on the list. -/
theorem mem_of_revoked (hs : ¬ SentinelLeaf sha256 g)
    (h : checkRevocationProof sha256 w proof g
      (leafRoot sha256 (revocationLeaves sha256 revoked) (List.cons_ne_nil _ _))
      (revoked.length + 2) = .ok .revoked) : g ∈ revoked := by
  rcases @checkRevocationProof_cases sha256 w proof g _ _ with hv |
    ⟨-, o, ho, hq, hopen⟩ | ⟨hv, -⟩
  · rw [hv] at h; cases h
  · have hget := getElem?_revocationLeaves hp hno ho hopen
    rw [hq] at hget
    rcases mem_revocationLeaves (List.mem_of_getElem? hget) with hmin | hmax | ⟨g', hg', heq⟩
    · exact absurd (Or.inl hmin) hs
    · exact absurd (Or.inr hmax) hs
    · have hpre := eq_of_not_collision hno
        (List.mem_append_left _ (List.mem_map_of_mem (List.mem_cons_of_mem g hg')))
        (List.mem_append_left _ (List.mem_map_of_mem List.mem_cons_self)) heq
      exact revocationLeafPreimage_injective hpre ▸ hg'
  · rw [hv] at h; cases h

/-- What is proved not revoked is not. -/
theorem not_mem_of_notRevoked (hw : revoked.length + 2 < 2 ^ w)
    (h : checkRevocationProof sha256 w proof g
      (leafRoot sha256 (revocationLeaves sha256 revoked) (List.cons_ne_nil _ _))
      (revoked.length + 2) = .ok .notRevoked) : g ∉ revoked := by
  rcases @checkRevocationProof_cases sha256 w proof g _ _ with hv | ⟨hv, -⟩ |
    ⟨-, lo, hlo, hi, hhi, hlt, hgt, hopen⟩
  · rw [hv] at h; cases h
  · rw [hv] at h; cases h
  · intro hmem
    have hgetLo := getElem?_revocationLeaves hp hno hlo hopen.2.1
    have hgetHi := getElem?_revocationLeaves hp hno hhi hopen.2.2
    rw [hopen.index_eq hw] at hgetHi
    refine not_mem_of_between (pairwise_revocationLeaves revoked)
      (by rw [List.getElem?_map, hgetLo]; rfl) (by rw [List.getElem?_map, hgetHi]; rfl) hlt hgt ?_
    exact List.mem_map_of_mem (revocationLeaf_mem hmem)

end First

/-- A pair is a sentinel or that of an entry. -/
theorem mem_revocationPairsV2 {entries : List (String × RevState)}
    {p : Vector UInt8 32 × Vector UInt8 32} (h : p ∈ revocationPairsV2 sha256 entries) :
    p.2 = revocationStateDigestV2 sha256 "sentinel" 0 ∨
      ∃ e ∈ entries, revocationPair sha256 e = p := by
  simp only [revocationPairsV2, List.mem_cons, List.mem_append, List.mem_insertionSort,
    List.mem_map, List.not_mem_nil, or_false] at h
  rcases h with rfl | h | rfl
  · exact Or.inl rfl
  · exact Or.inr h
  · exact Or.inl rfl

/-- An entry has its key. -/
theorem revocationKeyV2_mem {entries : List (String × RevState)} {e : String × RevState}
    (h : e ∈ entries) :
    revocationKeyV2 sha256 e.1 ∈ (revocationPairsV2 sha256 entries).map (·.1) := by
  refine List.mem_map.mpr ⟨revocationPair sha256 e, ?_, rfl⟩
  simp only [revocationPairsV2, List.mem_cons, List.mem_append, List.mem_insertionSort,
    List.mem_map]
  exact Or.inr (Or.inl ⟨e, h, rfl⟩)

instance : Std.Total PairLe := by
  refine ⟨fun a b => ?_⟩
  rcases lt_trichotomy (digestKey a.1) (digestKey b.1) with h | h | h
  · exact Or.inl (Or.inl h)
  · rcases le_total (digestKey a.2) (digestKey b.2) with h2 | h2
    · exact Or.inl (Or.inr ⟨digestKey_injective h, h2⟩)
    · exact Or.inr (Or.inr ⟨(digestKey_injective h).symm, h2⟩)
  · exact Or.inr (Or.inl h)

instance : IsTrans (Vector UInt8 32 × Vector UInt8 32) PairLe := by
  refine ⟨fun a b c hab hbc => ?_⟩
  rcases hab with hab | ⟨hab, hab2⟩ <;> rcases hbc with hbc | ⟨hbc, hbc2⟩
  · exact Or.inl (hab.trans hbc)
  · exact Or.inl (hbc ▸ hab)
  · exact Or.inl (hab ▸ hbc)
  · exact Or.inr ⟨hab.trans hbc, hab2.trans hbc2⟩

/-- The order of pairs is first that of the keys. -/
theorem PairLe.key_le {a b : Vector UInt8 32 × Vector UInt8 32} (h : PairLe a b) :
    digestKey a.1 ≤ digestKey b.1 := by
  rcases h with h | ⟨h, -⟩
  · exact h.le
  · rw [h]

/-- The keys are in order. -/
theorem pairwise_revocationPairsV2 (entries : List (String × RevState)) :
    (((revocationPairsV2 sha256 entries).map (·.1)).map digestKey).Pairwise (· ≤ ·) := by
  have hkeys : (revocationPairsV2 sha256 entries).map (·.1) =
      minLeaf :: (((entries.map (revocationPair sha256)).insertionSort PairLe).map (·.1) ++
        [maxLeaf]) := by
    simp only [revocationPairsV2, List.map_cons, List.map_append, List.map_nil]
  rw [hkeys]
  refine pairwise_bracketed (List.pairwise_map.mpr ?_)
  exact (List.pairwise_insertionSort PairLe _).imp PairLe.key_le

section Second

variable {w : Nat} {entries : List (String × RevState)} {g : String} {watermark : Int}
  {proofs : List CanonValue} {proof : CanonValue} (hp : proof ∈ proofs)
  (hno : ¬ Collision sha256 (revocationHashedV2 sha256 w entries g watermark proofs))
include hp hno

/-- A pair that opens stands at its index. -/
theorem getElem?_revocationPairsV2 {e : (Vector UInt8 32 × Vector UInt8 32) × Opening}
    {hne : revocationLeavesV2 sha256 entries ≠ []}
    (he : e ∈ proofPairs sha256 w proof (revocationKeyV2 sha256 g) watermark)
    (hopen : e.2.Opens sha256 (leafRoot sha256 (revocationLeavesV2 sha256 entries) hne)
      (entries.length + 2)) :
    (revocationPairsV2 sha256 entries)[e.2.index]? = some e.1 := by
  have hproof : ∀ b ∈ revocationEntryV2Preimage e.1.1 e.1.2 ::
      e.2.hashed sha256 (entries.length + 2),
      b ∈ revocationHashedV2 sha256 w entries g watermark proofs := fun b hb =>
    List.mem_append_right _ (List.mem_append_right _ (List.mem_flatMap.mpr ⟨proof, hp,
      List.mem_flatMap.mpr ⟨e, he, hb⟩⟩))
  have hleaf : (revocationLeavesV2 sha256 entries)[e.2.index]? = some e.2.leaf := by
    rw [← @length_revocationLeavesV2 sha256] at hopen
    refine hopen.getElem? (not_collision_mono hno ?_)
    intro b hb
    rw [length_revocationLeavesV2] at hb
    rcases List.mem_append.mp hb with hb | hb
    · exact List.mem_append_right _ (List.mem_append_left _ hb)
    · exact hproof b (List.mem_cons_of_mem _ hb)
  rw [leaf_of_mem_proofPairs he, revocationLeavesV2, List.getElem?_map,
    Option.map_eq_some_iff] at hleaf
  obtain ⟨p, hget, heq⟩ := hleaf
  have hpre := eq_of_not_collision hno
    (List.mem_append_left _ (List.mem_append_right _ (List.mem_map_of_mem
      (List.mem_of_getElem? hget))))
    (hproof _ List.mem_cons_self) heq
  rw [hget]
  exact congrArg some (revocationEntryV2Preimage_inj hpre)

/-- What is proved revoked is on the list, in that state. -/
theorem mem_of_revokedV2 {state : RevState} {hne : revocationLeavesV2 sha256 entries ≠ []}
    (h : checkRevocationProofV2 sha256 w proof g
      (leafRoot sha256 (revocationLeavesV2 sha256 entries) hne) (entries.length + 2) watermark =
      .ok (.revoked state)) : (g, state) ∈ entries := by
  rcases @checkRevocationProofV2_cases sha256 w proof g _ _ watermark with hv |
    ⟨state', hv, hparse, o, ho, hopen⟩ | ⟨hv, -⟩
  · rw [hv] at h; cases h
  · rw [hv, Except.ok.injEq, ProofV2.revoked.injEq] at h
    subst h
    have hget := getElem?_revocationPairsV2 hp hno ho hopen
    have hstate : revocationStateV2Preimage state'.mode state'.cutoff ∈
        revocationHashedV2 sha256 w entries g watermark proofs := by
      refine List.mem_append_left _ (List.mem_append_left _ (List.mem_append_right _
        (List.mem_cons_of_mem _ (List.mem_map.mpr ⟨state', ?_, rfl⟩))))
      exact List.mem_append_right _ (List.mem_filterMap.mpr ⟨proof, hp, hparse⟩)
    rcases mem_revocationPairsV2 (List.mem_of_getElem? hget) with hsent | ⟨⟨g', st⟩, he, hpair⟩
    · refine absurd (eq_of_not_collision hno hstate ?_ hsent)
        (revocationStateV2Preimage_ne_sentinel state')
      exact List.mem_append_left _ (List.mem_append_left _ (List.mem_append_right _
        List.mem_cons_self))
    · obtain ⟨hkey, hdigest⟩ := Prod.mk.inj hpair
      have hg := revocationKeyV2Preimage_injective (eq_of_not_collision hno
        (List.mem_append_left _ (List.mem_append_left _ (List.mem_append_left _
          (List.mem_map_of_mem (List.mem_cons_of_mem g (List.mem_map_of_mem he))))))
        (List.mem_append_left _ (List.mem_append_left _ (List.mem_append_left _
          (List.mem_map_of_mem List.mem_cons_self)))) hkey)
      have hst := revocationStateV2Preimage_inj (eq_of_not_collision hno
        (List.mem_append_left _ (List.mem_append_left _ (List.mem_append_right _
          (List.mem_cons_of_mem _ (List.mem_map.mpr ⟨st, List.mem_append_left _
            (List.mem_map_of_mem he), rfl⟩))))) hstate hdigest)
      rw [← hg, ← hst]
      exact he
  · rw [hv] at h; cases h

/-- What is proved not revoked has no entry. -/
theorem not_mem_of_notRevokedV2 {hne : revocationLeavesV2 sha256 entries ≠ []}
    (hw : entries.length + 2 < 2 ^ w)
    (h : checkRevocationProofV2 sha256 w proof g
      (leafRoot sha256 (revocationLeavesV2 sha256 entries) hne) (entries.length + 2) watermark =
      .ok .notRevoked) : g ∉ entries.map (·.1) := by
  rcases @checkRevocationProofV2_cases sha256 w proof g _ _ watermark with hv | ⟨_, hv, -⟩ |
    ⟨-, lo, hlo, hi, hhi, hlt, hgt, hopen⟩
  · rw [hv] at h; cases h
  · rw [hv] at h; cases h
  · intro hmem
    obtain ⟨e, he, rfl⟩ := List.mem_map.mp hmem
    have hgetLo := getElem?_revocationPairsV2 hp hno hlo hopen.2.1
    have hgetHi := getElem?_revocationPairsV2 hp hno hhi hopen.2.2
    rw [hopen.index_eq hw] at hgetHi
    refine not_mem_of_between (pairwise_revocationPairsV2 entries)
      (by rw [List.getElem?_map, List.getElem?_map, hgetLo]; rfl)
      (by rw [List.getElem?_map, List.getElem?_map, hgetHi]; rfl) hlt hgt ?_
    exact List.mem_map_of_mem (revocationKeyV2_mem he)

end Second

/-- Revocation proofs are sound and exclusive. For both versions the published root is read
back, every check ends in a verdict without leaving the machine range, and unless the hash of
the grant is a sentinel or two inputs that are hashed here collide, a grant is proved not
revoked only if it is not in the list and proved revoked only if it is, in the second version
with the state it has there. Two proofs for one grant never disagree on this. -/
theorem revocation_proofs_sound (sha256 : List UInt8 → Vector UInt8 32) (w : Nat) (g : String) :
    (∀ revoked : List String, revoked.length + 2 < 2 ^ w →
      ∃ root, stripSha256 (revocationMerkleRoot sha256 revoked) = some root ∧
        let check := fun proof =>
          checkRevocationProof sha256 w proof g root (revoked.length + 2)
        (∀ proof, ∃ v, check proof = .ok v) ∧
        (∀ proof, SentinelLeaf sha256 g ∨
          Collision sha256 (revocationHashed sha256 w revoked g [proof]) ∨
          ((check proof = .ok .notRevoked → g ∉ revoked) ∧
            (check proof = .ok .revoked → g ∈ revoked))) ∧
        ∀ proof proof', SentinelLeaf sha256 g ∨
          Collision sha256 (revocationHashed sha256 w revoked g [proof, proof']) ∨
          ¬ (check proof = .ok .revoked ∧ check proof' = .ok .notRevoked)) ∧
    ∀ (entries : List (String × RevState)) (watermark : Int), entries.length + 2 < 2 ^ w →
      ∃ root, stripSha256 (revocationMerkleRootV2 sha256 entries) = some root ∧
        let check := fun proof =>
          checkRevocationProofV2 sha256 w proof g root (entries.length + 2) watermark
        (∀ proof, ∃ v, check proof = .ok v) ∧
        (∀ proof, Collision sha256 (revocationHashedV2 sha256 w entries g watermark [proof]) ∨
          ((check proof = .ok .notRevoked → g ∉ entries.map (·.1)) ∧
            ∀ state, check proof = .ok (.revoked state) → (g, state) ∈ entries)) ∧
        ∀ proof proof',
          Collision sha256 (revocationHashedV2 sha256 w entries g watermark [proof, proof']) ∨
          ¬ ((∃ state, check proof = .ok (.revoked state)) ∧ check proof' = .ok .notRevoked) := by
  constructor
  · intro revoked hw
    refine ⟨_, stripSha256_rootText _, ?_, ?_, ?_⟩
    · intro proof
      rcases @checkRevocationProof_cases sha256 w proof g _ (revoked.length + 2) with
        h | ⟨h, -⟩ | ⟨h, -⟩ <;> exact ⟨_, h⟩
    · intro proof
      by_cases hs : SentinelLeaf sha256 g
      · exact Or.inl hs
      by_cases hno : Collision sha256 (revocationHashed sha256 w revoked g [proof])
      · exact Or.inr (Or.inl hno)
      · exact Or.inr (Or.inr ⟨not_mem_of_notRevoked List.mem_cons_self hno hw,
          mem_of_revoked List.mem_cons_self hno hs⟩)
    · intro proof proof'
      by_cases hs : SentinelLeaf sha256 g
      · exact Or.inl hs
      by_cases hno : Collision sha256 (revocationHashed sha256 w revoked g [proof, proof'])
      · exact Or.inr (Or.inl hno)
      · refine Or.inr (Or.inr fun ⟨hrev, hnot⟩ => ?_)
        exact not_mem_of_notRevoked (List.mem_cons_of_mem _ List.mem_cons_self) hno hw hnot
          (mem_of_revoked List.mem_cons_self hno hs hrev)
  · intro entries watermark hw
    refine ⟨_, stripSha256_rootText _, ?_, ?_, ?_⟩
    · intro proof
      rcases @checkRevocationProofV2_cases sha256 w proof g _ (entries.length + 2) watermark with
        h | ⟨_, h, -⟩ | ⟨h, -⟩ <;> exact ⟨_, h⟩
    · intro proof
      by_cases hno : Collision sha256 (revocationHashedV2 sha256 w entries g watermark [proof])
      · exact Or.inl hno
      · exact Or.inr ⟨not_mem_of_notRevokedV2 List.mem_cons_self hno hw,
          fun state => mem_of_revokedV2 List.mem_cons_self hno⟩
    · intro proof proof'
      by_cases hno : Collision sha256
          (revocationHashedV2 sha256 w entries g watermark [proof, proof'])
      · exact Or.inl hno
      · refine Or.inr fun ⟨⟨state, hrev⟩, hnot⟩ => ?_
        exact not_mem_of_notRevokedV2 (List.mem_cons_of_mem _ List.mem_cons_self) hno hw hnot
          (List.mem_map_of_mem (mem_of_revokedV2 List.mem_cons_self hno hrev))

/-- A hash that adds the bytes. -/
def byteSum (b : List UInt8) : Vector UInt8 32 := .replicate 32 (b.foldl (· + ·) 1)

/-- The text of a hash of equal bytes. -/
def evenHash (b : UInt8) : CanonValue := .str (hexLower (List.replicate 32 b))

/-- A proof that a grant is not in a list of one. -/
def sampleNonmember : CanonValue :=
  .obj [("type", .str "nonmembership"), ("lo", evenHash 0xC4), ("hi", evenHash 0xFF),
    ("lo_index", .int 1), ("hi_index", .int 2),
    ("lo_path", .arr [evenHash 0x01, evenHash 0xE1]), ("hi_path", .arr [evenHash 0x42])]

/-- The proof is accepted, and nothing that is hashed for it collides. -/
theorem revocation_proofs_sound_nonmember : ∃ root,
    stripSha256 (revocationMerkleRoot byteSum ["g"]) = some root ∧
      checkRevocationProof byteSum 64 sampleNonmember "h" root 3 = .ok .notRevoked ∧
        "h" ∉ ["g"] := by
  obtain ⟨root, hroot, -, hsound, -⟩ :=
    (revocation_proofs_sound byteSum 64 "h").1 ["g"] (by decide)
  have hcheck : checkRevocationProof byteSum 64 sampleNonmember "h" root 3 = .ok .notRevoked := by
    obtain rfl := Option.some.inj (hroot.symm.trans (stripSha256_rootText _))
    decide +kernel
  refine ⟨root, hroot, hcheck, ?_⟩
  rcases hsound sampleNonmember with hsentinel | hcollision | ⟨hnot, -⟩
  · refine absurd hsentinel ?_
    unfold SentinelLeaf
    decide +kernel
  · refine absurd hcollision ?_
    unfold Collision
    decide +kernel
  · exact hnot hcheck

end Soundness

end Averin
