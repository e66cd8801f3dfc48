import Averin.Verify.RevocationProof

/-!
# The producer of revocation trees

The broker builds the tree over the revoked grants, keeps all its levels, and cuts proofs for
single grants from them. What it publishes is what the verifier computes on its own, and the
verifier accepts every proof it hands out.
-/

namespace Averin

/-- A digest in lowercase hex. -/
def hexDigest (v : Vector UInt8 32) : String := hexLower v.toList

/-- The leaf values and the levels of hashes above them. -/
structure RevocationTree where
  leaves : List (Vector UInt8 32)
  levels : List (List (Vector UInt8 32))

namespace RevocationTree

/-- The text of the node on the top level. There always is one; the program would stop. -/
def rootHex (t : RevocationTree) : String := rootText ((t.levels.getLastD []).headD minLeaf)

/-- The leaves of the tree. -/
def leafCount (t : RevocationTree) : Nat := t.leaves.length

/-- The siblings of a leaf, in hex. -/
def auditPath (t : RevocationTree) (index : Nat) : CanonValue :=
  .arr ((Merkle.auditPath t.levels index).map fun v => .str (hexDigest v))

end RevocationTree

/-- The position stands right before `q` in a sorted list, and the next one right after. -/
def brackets (keys : List (Vector UInt8 32)) (q : Vector UInt8 32) (k : Nat) : Bool :=
  match keys[k]?, keys[k + 1]? with
  | some lo, some hi => decide (digestKey lo < digestKey q ∧ digestKey q < digestKey hi)
  | _, _ => false

/-- The first position that brackets `q`. -/
def findBracket (keys : List (Vector UInt8 32)) (q : Vector UInt8 32) : Option Nat :=
  (List.range (keys.length - 1)).find? (brackets keys q)

/-- An index as it is written. -/
def indexValue (k : Nat) : CanonValue := .int (.ofNat k)

section Trees

variable (sha256 : List UInt8 → Vector UInt8 32)

/-- The tree over leaf values. -/
def RevocationTree.ofLeaves (leaves : List (Vector UInt8 32)) : RevocationTree where
  leaves := leaves
  levels := Merkle.levels (merkleNodeHash sha256) (leaves.map (merkleLeafHash sha256))

/-- The tree over the sorted leaves of the revoked grants between the sentinels. -/
def buildRevocationTree (revoked : List String) : RevocationTree :=
  let hs := (revoked.map (revocationLeaf sha256)).insertionSort (digestKey · ≤ digestKey ·)
  .ofLeaves sha256 (minLeaf :: (hs ++ [maxLeaf]))

/-- A proof that a grant is not revoked: the leaves around it. -/
def RevocationTree.nonMembershipProof (t : RevocationTree) (grantId : String) :
    Option CanonValue :=
  (findBracket t.leaves (revocationLeaf sha256 grantId)).map fun k =>
    .obj [("type", .str "nonmembership"), ("lo", .str (hexDigest (t.leaves.getD k minLeaf))),
      ("hi", .str (hexDigest (t.leaves.getD (k + 1) minLeaf))), ("lo_index", indexValue k),
      ("hi_index", indexValue (k + 1)), ("lo_path", t.auditPath k),
      ("hi_path", t.auditPath (k + 1))]

/-- A proof that a grant is revoked: its leaf. -/
def RevocationTree.membershipProof (t : RevocationTree) (grantId : String) : Option CanonValue :=
  (t.leaves.findIdx? (· = revocationLeaf sha256 grantId)).map fun k =>
    .obj [("type", .str "membership"), ("index", indexValue k), ("path", t.auditPath k)]

/-- One grant's committed revocation, as the store spells it. -/
structure RevocationStateEntry where
  grantId : String
  mode : String
  cutoffOrder : Int64
  deriving DecidableEq, Repr

/-- Why no tree of the second version is built. -/
inductive TreeV2Error where
  | emptyOrDuplicate (grantId : String)
  | invalidState (grantId : String)
  deriving DecidableEq, Repr

/-- The state an entry spells, if it is a valid one. -/
def RevocationStateEntry.state (e : RevocationStateEntry) : Option RevState :=
  if e.mode = "total" ∧ e.cutoffOrder = 0 then some .total
  else if e.mode = "prospective" ∧ 1 ≤ e.cutoffOrder.toInt then some (.prospective e.cutoffOrder)
  else none

/-- A leaf of the second version: its key, its state digest and its entry. -/
structure PairV2 where
  key : Vector UInt8 32
  state : Vector UInt8 32
  entry : RevocationStateEntry

/-- The checks on the entries, in order. -/
def pairsV2 : List RevocationStateEntry → (seen : List String) → Except TreeV2Error (List PairV2)
  | [], _ => .ok []
  | e :: rest, seen =>
    if e.grantId = "" ∨ e.grantId ∈ seen then .error (.emptyOrDuplicate e.grantId)
    else if e.state = none then .error (.invalidState e.grantId)
    else
      match pairsV2 rest (e.grantId :: seen) with
      | .error err => .error err
      | .ok pairs =>
        .ok (⟨revocationKeyV2 sha256 e.grantId,
          revocationStateDigestV2 sha256 e.mode e.cutoffOrder.toInt, e⟩ :: pairs)

/-- The tree of the second version. The entries are found by key, the last one put there. -/
structure RevocationTreeV2 where
  keys : List (Vector UInt8 32)
  states : List (Vector UInt8 32)
  entries : List PairV2
  tree : RevocationTree

/-- The tree over entries with their states. -/
def buildRevocationTreeV2 (entries : List RevocationStateEntry) :
    Except TreeV2Error RevocationTreeV2 :=
  match pairsV2 sha256 entries [] with
  | .error e => .error e
  | .ok pairs =>
    let pairs := pairs.insertionSort (digestKey ·.key ≤ digestKey ·.key)
    let sentinel := revocationStateDigestV2 sha256 "sentinel" 0
    let keys := minLeaf :: (pairs.map (·.key) ++ [maxLeaf])
    let states := sentinel :: (pairs.map (·.state) ++ [sentinel])
    .ok
      { keys := keys
        states := states
        entries := pairs
        tree := .ofLeaves sha256 (List.zipWith (revocationEntryV2 sha256) keys states) }

namespace RevocationTreeV2

variable (t : RevocationTreeV2)

/-- The root as it is written. -/
def rootHex : String := t.tree.rootHex

/-- The leaves, with both sentinels. -/
def leafCount : Nat := t.tree.leafCount

/-- A neighbour: its key and an opaque state digest. -/
def side (k : Nat) : CanonValue :=
  .obj [("key", .str (hexDigest (t.keys.getD k minLeaf))),
    ("state_digest", .str (hexDigest (t.states.getD k minLeaf)))]

/-- The mode and the cutoff of the entry under a key. A key without an entry has no mode. -/
def clearState (q : Vector UInt8 32) : List (String × CanonValue) :=
  match t.entries.reverse.find? (·.key = q) with
  | none => [("mode", .str "")]
  | some p =>
    ("mode", .str p.entry.mode) ::
      if p.entry.mode = "prospective" then [("cutoff_order", .int p.entry.cutoffOrder)] else []

/-- The proof for a grant: its leaf with its state in clear, or the leaves around it. -/
def proof (grantId : String) : Option CanonValue :=
  let q := revocationKeyV2 sha256 grantId
  match t.keys.findIdx? (· = q) with
  | some k =>
    some (.obj ([("type", .str "membership"), ("index", indexValue k),
      ("path", t.tree.auditPath k)] ++ t.clearState q))
  | none =>
    (findBracket t.keys q).map fun k =>
      .obj [("type", .str "nonmembership"), ("lo", t.side k), ("hi", t.side (k + 1)),
        ("lo_index", indexValue k), ("hi_index", indexValue (k + 1)),
        ("lo_path", t.tree.auditPath k), ("hi_path", t.tree.auditPath (k + 1))]

end RevocationTreeV2


variable {sha256}

/-- The last level is the root. -/
theorem getLastD_levels (leaves : List (Vector UInt8 32)) (h : leaves ≠ []) :
    (RevocationTree.ofLeaves sha256 leaves).levels.getLastD [] =
      [leafRoot sha256 leaves h] := by
  rw [List.getLastD_eq_getLast?, RevocationTree.ofLeaves, Merkle.getLast?_levels,
    Option.getD_some]
  exact Merkle.topLevel_eq_root _ _ _

/-- The published root is the root over the leaves. -/
theorem rootHex_ofLeaves (leaves : List (Vector UInt8 32)) (h : leaves ≠ []) :
    (RevocationTree.ofLeaves sha256 leaves).rootHex = rootText (leafRoot sha256 leaves h) := by
  rw [RevocationTree.rootHex, getLastD_levels leaves h]
  rfl

/-- The tree is the one over its leaves. -/
theorem buildRevocationTree_eq (revoked : List String) :
    buildRevocationTree sha256 revoked = .ofLeaves sha256 (revocationLeaves sha256 revoked) := rfl

@[simp] theorem hexField_hexDigest (v : Vector UInt8 32) :
    hexField (some (.str (hexDigest v))) = some v :=
  hex32Bytes_hexLower v

theorem toInt_ofNat_of_lt {k : Nat} (hk : k < 2 ^ 63) : (Int64.ofNat k).toInt = k := by
  exact Int64.toInt_ofNat_of_lt hk

theorem asInt_indexValue {k : Nat} (hk : k < 2 ^ 63) : (indexValue k).asInt = some (k : Int) := by
  rw [indexValue, CanonValue.asInt, toInt_ofNat_of_lt hk]

theorem asUsize_of_lt {w k : Nat} (hk : k < 2 ^ w) : asUsize w k = k := by
  unfold asUsize
  have hcast : ((2 ^ w : Nat) : Int) = 2 ^ w := by push_cast; rfl
  rw [Int.emod_eq_of_lt (Int.natCast_nonneg k) (by omega), Int.toNat_natCast]

theorem checkedAdd_one {k : Nat} (hk : k + 1 < 2 ^ 63) :
    checkedAdd k 1 = some ((k + 1 : Nat) : Int) := by
  rw [checkedAdd, if_pos (by omega)]
  rfl

/-- A path that was written is read back. -/
theorem mapM_hexDigest (path : List (Vector UInt8 32)) :
    (path.map fun v => CanonValue.str (hexDigest v)).mapM (fun e => e.asStr.bind hex32) =
      some path := by
  induction path with
  | nil => rfl
  | cons v path ih =>
    rw [List.map_cons, List.mapM_cons, ih]
    have hv : (CanonValue.str (hexDigest v)).asStr.bind hex32 = some v := hexField_hexDigest v
    rw [hv]
    rfl

/-- A path of the tree is short enough to be read. -/
theorem parseHex32Path_auditPath (leaves : List (Vector UInt8 32)) (k : Nat)
    (hlen : leaves.length < 2 ^ 63) :
    parseHex32Path (some ((RevocationTree.ofLeaves sha256 leaves).auditPath k)) =
      some (Merkle.auditPath (RevocationTree.ofLeaves sha256 leaves).levels k) := by
  have hshort :
      (Merkle.auditPath (RevocationTree.ofLeaves sha256 leaves).levels k).length ≤ 63 := by
    apply Merkle.length_auditPath_le
    rw [List.length_map]
    exact hlen.le
  unfold parseHex32Path RevocationTree.auditPath
  simp only [Option.bind_eq_bind, Option.bind_some, CanonValue.asArray, List.length_map]
  rw [if_neg (by unfold maxRevocationPath; omega), mapM_hexDigest]

/-- A path of the tree leads from its leaf to the root. -/
theorem merkleRootFromProof_auditPath (leaves : List (Vector UInt8 32)) (h : leaves ≠ [])
    {k : Nat} {v : Vector UInt8 32} (hget : leaves[k]? = some v) :
    merkleRootFromProof sha256 v k leaves.length
        (Merkle.auditPath (RevocationTree.ofLeaves sha256 leaves).levels k) =
      .ok (some (leafRoot sha256 leaves h)) := by
  have hk : k < leaves.length := (List.getElem?_eq_some_iff.mp hget).1
  have hlevel : (leaves.map (merkleLeafHash sha256))[k]? = some (merkleLeafHash sha256 v) := by
    rw [List.getElem?_map, hget]
    rfl
  have hclimb := Merkle.climb_auditPath (merkleNodeHash sha256) _ hlevel
  rw [Merkle.topLevel_eq_root _ _ (by simpa using h), List.length_map] at hclimb
  rw [merkleRootFromProof_eq, if_neg (by omega)]
  exact congrArg Except.ok (Option.toList_eq_singleton_iff.mp hclimb)

/-- A bracket encloses what is asked for. -/
theorem findBracket_eq_some {keys : List (Vector UInt8 32)} {q : Vector UInt8 32} {k : Nat}
    (h : findBracket keys q = some k) :
    ∃ lo hi, keys[k]? = some lo ∧ keys[k + 1]? = some hi ∧ digestKey lo < digestKey q ∧
      digestKey q < digestKey hi := by
  have hb := List.find?_some h
  unfold brackets at hb
  split at hb
  · next lo hi hlo hhi => exact ⟨lo, hi, hlo, hhi, of_decide_eq_true hb⟩
  · cases hb

/-- A list that starts below a value and ends above it passes it between two neighbours or
holds it. -/
theorem exists_findBracket {ks : List (Vector UInt8 32)} {q : Vector UInt8 32}
    (hmin : q ≠ minLeaf) (hmax : q ≠ maxLeaf) (hq : q ∉ ks) :
    ∃ k, findBracket (minLeaf :: (ks ++ [maxLeaf])) q = some k := by
  have hlo : digestKey minLeaf < digestKey q :=
    lt_of_le_of_ne (minLeaf_le q) fun h => hmin (digestKey_injective h).symm
  have hhi : digestKey q < digestKey maxLeaf :=
    lt_of_le_of_ne (le_maxLeaf q) fun h => hmax (digestKey_injective h)
  obtain ⟨k, lo, hi, hk, hk1, hlt, hgt⟩ := exists_neighbours_between digestKey digestKey_injective
    hlo hhi hq
  refine Option.isSome_iff_exists.mp (List.find?_isSome.mpr ⟨k, ?_, ?_⟩)
  · have := (List.getElem?_eq_some_iff.mp hk1).1
    rw [List.mem_range]
    omega
  · rw [brackets, hk, hk1]
    exact decide_eq_true ⟨hlt, hgt⟩

/-- Neighbours in a sorted list leave no room for a value that stands in it. -/
theorem findBracket_eq_none {keys : List (Vector UInt8 32)} {q : Vector UInt8 32}
    (hsorted : (keys.map digestKey).Pairwise (· ≤ ·)) (hq : q ∈ keys) :
    findBracket keys q = none := by
  cases h : findBracket keys q with
  | none => rfl
  | some k =>
    obtain ⟨lo, hi, hlo, hhi, hlt, hgt⟩ := findBracket_eq_some h
    refine absurd (List.mem_map_of_mem hq) (not_mem_of_between hsorted (i := k)
      (by rw [List.getElem?_map, hlo]; rfl) (by rw [List.getElem?_map, hhi]; rfl) hlt hgt)

variable {w : Nat} {g : String}

/-- A membership proof whose opening leads to the root is accepted. -/
theorem checkRevocationProof_membership {proof : CanonValue} {root : Vector UInt8 32}
    {size k : Nat} {path : List (Vector UInt8 32)} (hk : k < 2 ^ w)
    (htype : proof.get "type" = some (.str "membership"))
    (hindex : (proof.get "index").bind CanonValue.asInt = some (k : Int))
    (hpath : parseHex32Path (proof.get "path") = some path)
    (htop : merkleRootFromProof sha256 (revocationLeaf sha256 g) k size path = .ok (some root)) :
    checkRevocationProof sha256 w proof g root size = .ok .revoked := by
  unfold checkRevocationProof
  simp only [htype, Option.bind_some, CanonValue.asStr, Option.getD_some, hindex, hpath,
    asUsize_of_lt hk, htop, Int.natCast_nonneg, if_true]
  simp [bind, Except.bind, pure, Except.pure]

/-- A non-membership proof whose openings lead to the root is accepted. -/
theorem checkRevocationProof_nonMembership {proof : CanonValue} {root lo hi : Vector UInt8 32}
    {size k : Nat} {lp hp : List (Vector UInt8 32)} (hk : k + 1 < 2 ^ w) (hk63 : k + 1 < 2 ^ 63)
    (htype : proof.get "type" = some (.str "nonmembership"))
    (hlo : hexField (proof.get "lo") = some lo) (hhi : hexField (proof.get "hi") = some hi)
    (hli : (proof.get "lo_index").bind CanonValue.asInt = some (k : Int))
    (hhiI : (proof.get "hi_index").bind CanonValue.asInt = some ((k + 1 : Nat) : Int))
    (hlp : parseHex32Path (proof.get "lo_path") = some lp)
    (hhp : parseHex32Path (proof.get "hi_path") = some hp)
    (hlt : digestKey lo < digestKey (revocationLeaf sha256 g))
    (hgt : digestKey (revocationLeaf sha256 g) < digestKey hi)
    (hloTop : merkleRootFromProof sha256 lo k size lp = .ok (some root))
    (hhiTop : merkleRootFromProof sha256 hi (k + 1) size hp = .ok (some root)) :
    checkRevocationProof sha256 w proof g root size = .ok .notRevoked := by
  unfold checkRevocationProof
  simp only [htype, Option.bind_some, CanonValue.asStr, Option.getD_some, hlo, hhi, hli, hhiI, hlp,
    hhp, asUsize_of_lt (show k < 2 ^ w by omega), asUsize_of_lt hk, checkedAdd_one hk63, hlt, hgt,
    Int.natCast_nonneg, and_self, if_true, ne_eq, not_true_eq_false, if_false, hloTop, hhiTop]
  simp [bind, Except.bind, pure, Except.pure]

/-- A value that stands in a list is found at a position that holds it. -/
theorem exists_findIdx?_eq {keys : List (Vector UInt8 32)} {q : Vector UInt8 32} (h : q ∈ keys) :
    ∃ k, keys.findIdx? (· = q) = some k ∧ keys[k]? = some q := by
  have hsome : (keys.findIdx? (· = q)).isSome := by
    rw [List.findIdx?_isSome, List.any_eq_true]
    exact ⟨q, h, decide_eq_true rfl⟩
  obtain ⟨k, hk⟩ := Option.isSome_iff_exists.mp hsome
  obtain ⟨hlt, heq, -⟩ := List.findIdx?_eq_some_iff_getElem.mp hk
  refine ⟨k, hk, ?_⟩
  rw [List.getElem?_eq_getElem hlt, of_decide_eq_true heq]

/-- What is not a key has no index. -/
theorem findIdx?_eq_none {keys : List (Vector UInt8 32)} {q : Vector UInt8 32} (h : q ∉ keys) :
    keys.findIdx? (· = q) = none := by
  rw [List.findIdx?_eq_none_iff]
  intro v hv
  exact decide_eq_false fun heq => h (heq ▸ hv)

section Revoked

variable {revoked : List String} (hw : revoked.length + 2 < 2 ^ w)
  (hlen : revoked.length + 2 < 2 ^ 63)
include hw hlen

/-- A revoked grant has a membership proof only, and it is accepted. -/
theorem membershipProof_spec (hg : g ∈ revoked) :
    (buildRevocationTree sha256 revoked).nonMembershipProof sha256 g = none ∧
      ∃ p, (buildRevocationTree sha256 revoked).membershipProof sha256 g = some p ∧
        checkRevocationProof sha256 w p g
          (leafRoot sha256 (revocationLeaves sha256 revoked) (List.cons_ne_nil _ _))
          (revoked.length + 2) = .ok .revoked := by
  have hmem : revocationLeaf sha256 g ∈ revocationLeaves sha256 revoked := revocationLeaf_mem hg
  obtain ⟨k, hfind, hget⟩ := exists_findIdx?_eq hmem
  have hk := (List.getElem?_eq_some_iff.mp hget).1
  have hsize := @length_revocationLeaves sha256 revoked
  have hsmall : (revocationLeaves sha256 revoked).length < 2 ^ 63 := by rw [hsize]; exact hlen
  refine ⟨?_, _, congrArg (Option.map _) hfind, ?_⟩
  · rw [buildRevocationTree_eq, RevocationTree.nonMembershipProof, RevocationTree.ofLeaves,
      findBracket_eq_none (pairwise_revocationLeaves revoked) hmem]
    rfl
  · refine checkRevocationProof_membership (k := k) (by omega) rfl
      (asInt_indexValue (by omega)) (parseHex32Path_auditPath _ k hsmall) ?_
    rw [← hsize]
    exact merkleRootFromProof_auditPath _ _ hget

/-- A grant that is not revoked has a non-membership proof only, and it is accepted. -/
theorem nonMembershipProof_spec (hs : ¬ SentinelLeaf sha256 g)
    (hother : ∀ r ∈ revoked, revocationLeaf sha256 r = revocationLeaf sha256 g → r = g)
    (hg : g ∉ revoked) :
    (buildRevocationTree sha256 revoked).membershipProof sha256 g = none ∧
      ∃ p, (buildRevocationTree sha256 revoked).nonMembershipProof sha256 g = some p ∧
        checkRevocationProof sha256 w p g
          (leafRoot sha256 (revocationLeaves sha256 revoked) (List.cons_ne_nil _ _))
          (revoked.length + 2) = .ok .notRevoked := by
  have hsorted : revocationLeaf sha256 g ∉
      (revoked.map (revocationLeaf sha256)).insertionSort (digestKey · ≤ digestKey ·) := by
    rw [List.mem_insertionSort, List.mem_map]
    rintro ⟨r, hr, heq⟩
    exact hg (hother r hr heq ▸ hr)
  obtain ⟨k, hfind⟩ := exists_findBracket (fun h => hs (Or.inl h)) (fun h => hs (Or.inr h)) hsorted
  obtain ⟨lo, hi, hlo, hhi, hlt, hgt⟩ := findBracket_eq_some hfind
  change (revocationLeaves sha256 revoked)[k]? = some lo at hlo
  change (revocationLeaves sha256 revoked)[k + 1]? = some hi at hhi
  have hk := (List.getElem?_eq_some_iff.mp hhi).1
  have hsize := @length_revocationLeaves sha256 revoked
  have hsmall : (revocationLeaves sha256 revoked).length < 2 ^ 63 := by rw [hsize]; exact hlen
  have hloD : (revocationLeaves sha256 revoked).getD k minLeaf = lo := by
    rw [List.getD_eq_getElem?_getD, hlo, Option.getD_some]
  have hhiD : (revocationLeaves sha256 revoked).getD (k + 1) minLeaf = hi := by
    rw [List.getD_eq_getElem?_getD, hhi, Option.getD_some]
  refine ⟨?_, _, congrArg (Option.map _) hfind, ?_⟩
  · have hnone : revocationLeaf sha256 g ∉ revocationLeaves sha256 revoked := by
      intro hmem
      exact not_mem_of_between (pairwise_revocationLeaves revoked) (i := k)
        (by rw [List.getElem?_map, hlo]; rfl) (by rw [List.getElem?_map, hhi]; rfl) hlt hgt
        (List.mem_map_of_mem hmem)
    rw [buildRevocationTree_eq, RevocationTree.membershipProof, RevocationTree.ofLeaves,
      findIdx?_eq_none hnone]
    rfl
  · have hloTop := @merkleRootFromProof_auditPath sha256 (revocationLeaves sha256 revoked)
      (List.cons_ne_nil _ _) _ _ hlo
    have hhiTop := @merkleRootFromProof_auditPath sha256 (revocationLeaves sha256 revoked)
      (List.cons_ne_nil _ _) _ _ hhi
    rw [← hloD] at hloTop hlt
    rw [← hhiD] at hhiTop hgt
    rw [hsize] at hloTop hhiTop
    exact checkRevocationProof_nonMembership (k := k) (by omega) (by omega) rfl
      (hexField_hexDigest _) (hexField_hexDigest _) (asInt_indexValue (by omega))
      (asInt_indexValue (by omega)) (parseHex32Path_auditPath _ k hsmall)
      (parseHex32Path_auditPath _ (k + 1) hsmall) hlt hgt hloTop hhiTop

end Revoked

/-- The pair of an entry. -/
def pairV2 (sha256 : List UInt8 → Vector UInt8 32) (e : RevocationStateEntry) : PairV2 :=
  ⟨revocationKeyV2 sha256 e.grantId, revocationStateDigestV2 sha256 e.mode e.cutoffOrder.toInt, e⟩

/-- The pairs are those of the entries, which are distinct and have a state. -/
theorem pairsV2_eq_ok {entries : List RevocationStateEntry} {seen : List String}
    {pairs : List PairV2} (h : pairsV2 sha256 entries seen = .ok pairs) :
    pairs = entries.map (pairV2 sha256) ∧ (∀ e ∈ entries, e.state ≠ none) ∧
      (∀ e ∈ entries, e.grantId ∉ seen) ∧ (entries.map (·.grantId)).Nodup := by
  induction entries generalizing seen pairs with
  | nil =>
    obtain rfl := Except.ok.inj h
    exact ⟨rfl, by simp, by simp, List.nodup_nil⟩
  | cons e rest ih =>
    rw [pairsV2] at h
    split at h
    · cases h
    · next hseen =>
      split at h
      · cases h
      · next hstate =>
        split at h
        · cases h
        · next pairs' heq =>
          obtain rfl := Except.ok.inj h
          obtain ⟨rfl, hstates, hfresh, hnodup⟩ := ih heq
          rw [not_or] at hseen
          refine ⟨rfl, List.forall_mem_cons.mpr ⟨hstate, hstates⟩,
            List.forall_mem_cons.mpr ⟨hseen.2, fun e' he' hin =>
              hfresh e' he' (List.mem_cons_of_mem _ hin)⟩, ?_⟩
          rw [List.map_cons, List.nodup_cons, List.mem_map]
          refine ⟨?_, hnodup⟩
          rintro ⟨e', he', heq⟩
          exact hfresh e' he' (heq ▸ List.mem_cons_self)

/-- The grants with their states, as the verifier lists them. -/
def committed (entries : List RevocationStateEntry) : List (String × RevState) :=
  entries.filterMap fun e => e.state.map (e.grantId, ·)

/-- A state is the one the entry spells. -/
theorem RevocationStateEntry.of_state_eq_some {e : RevocationStateEntry} {st : RevState}
    (h : e.state = some st) :
    e.mode = st.mode ∧ e.cutoffOrder.toInt = st.cutoff ∧
      (∀ c, st = .prospective c → c = e.cutoffOrder ∧ 1 ≤ c.toInt) := by
  unfold state at h
  split_ifs at h with htotal hpros
  · obtain rfl := Option.some.inj h
    exact ⟨htotal.1, by rw [htotal.2]; rfl, by simp⟩
  · obtain rfl := Option.some.inj h
    refine ⟨hpros.1, rfl, ?_⟩
    intro c hc
    obtain rfl := RevState.prospective.inj hc
    exact ⟨rfl, hpros.2⟩

/-- The pair of an entry is that of its state. -/
theorem pair_of_state {e : RevocationStateEntry} {st : RevState} (h : e.state = some st) :
    ((pairV2 sha256 e).key, (pairV2 sha256 e).state) = revocationPair sha256 (e.grantId, st) := by
  obtain ⟨hmode, hcut, -⟩ := RevocationStateEntry.of_state_eq_some h
  rw [pairV2, hmode, hcut]
  rfl

theorem map_pairV2 {entries : List RevocationStateEntry} (h : ∀ e ∈ entries, e.state ≠ none) :
    (entries.map (pairV2 sha256)).map (fun p => (p.key, p.state)) =
      (committed entries).map (revocationPair sha256) := by
  induction entries with
  | nil => rfl
  | cons e entries ih =>
    rw [List.forall_mem_cons] at h
    obtain ⟨st, hst⟩ := Option.ne_none_iff_exists'.mp h.1
    rw [List.map_cons, List.map_cons, ih h.2, pair_of_state hst, committed, committed,
      List.filterMap_cons, hst]
    rfl

/-- A membership proof of the second version whose opening leads to the root is accepted with
the state it names. -/
theorem checkRevocationProofV2_membership {proof : CanonValue} {root : Vector UInt8 32}
    {size k : Nat} {path : List (Vector UInt8 32)} {st : RevState} {watermark : Int}
    (hk : k < 2 ^ w) (htype : proof.get "type" = some (.str "membership"))
    (hstate : parseStateFields proof watermark = some st)
    (hindex : indexField proof "index" = some (k : Int))
    (hpath : parseHex32Path (proof.get "path") = some path)
    (htop : merkleRootFromProof sha256 (revocationEntryV2 sha256 (revocationKeyV2 sha256 g)
      (revocationStateDigestV2 sha256 st.mode st.cutoff)) k size path = .ok (some root)) :
    checkRevocationProofV2 sha256 w proof g root size watermark = .ok (.revoked st) := by
  unfold checkRevocationProofV2
  simp only [htype, Option.bind_some, CanonValue.asStr, Option.getD_some, hstate, hindex, hpath,
    asUsize_of_lt hk, htop]
  simp [bind, Except.bind, pure, Except.pure]

/-- A non-membership proof of the second version whose openings lead to the root is accepted. -/
theorem checkRevocationProofV2_nonMembership {proof : CanonValue} {root : Vector UInt8 32}
    {lo hi : Vector UInt8 32 × Vector UInt8 32} {size k : Nat} {lp hp : List (Vector UInt8 32)}
    {watermark : Int} (hk : k + 1 < 2 ^ w) (hk63 : k + 1 < 2 ^ 63)
    (htype : proof.get "type" = some (.str "nonmembership"))
    (hlo : parseSide proof "lo" = some lo) (hhi : parseSide proof "hi" = some hi)
    (hli : indexField proof "lo_index" = some (k : Int))
    (hhiI : indexField proof "hi_index" = some ((k + 1 : Nat) : Int))
    (hlp : parseHex32Path (proof.get "lo_path") = some lp)
    (hhp : parseHex32Path (proof.get "hi_path") = some hp)
    (hlt : digestKey lo.1 < digestKey (revocationKeyV2 sha256 g))
    (hgt : digestKey (revocationKeyV2 sha256 g) < digestKey hi.1)
    (hloTop : merkleRootFromProof sha256 (revocationEntryV2 sha256 lo.1 lo.2) k size lp =
      .ok (some root))
    (hhiTop : merkleRootFromProof sha256 (revocationEntryV2 sha256 hi.1 hi.2) (k + 1) size hp =
      .ok (some root)) :
    checkRevocationProofV2 sha256 w proof g root size watermark = .ok .notRevoked := by
  unfold checkRevocationProofV2
  simp only [htype, Option.bind_some, CanonValue.asStr, Option.getD_some, hlo, hhi, hli, hhiI, hlp,
    hhp, asUsize_of_lt (show k < 2 ^ w by omega), asUsize_of_lt hk, checkedAdd_one hk63, hlt, hgt,
    and_self, ne_eq, not_true_eq_false, or_self, if_false, hloTop, hhiTop]
  simp [bind, Except.bind, pure, Except.pure]

/-- An index that was written is read back. -/
theorem indexField_indexValue {proof : CanonValue} {key : String} {k : Nat} (hk : k < 2 ^ 63)
    (h : proof.get key = some (indexValue k)) : indexField proof key = some (k : Int) := by
  rw [indexField, h, Option.bind_some, asInt_indexValue hk]
  exact Option.filter_some_pos (by simp)

/-- What the producer keeps in its tree: the pairs the verifier sorts on its own. -/
theorem buildRevocationTreeV2_eq_ok {entries : List RevocationStateEntry} {t : RevocationTreeV2}
    (h : buildRevocationTreeV2 sha256 entries = .ok t)
    (hinj : ∀ e ∈ entries, ∀ e' ∈ entries,
      revocationKeyV2 sha256 e.grantId = revocationKeyV2 sha256 e'.grantId →
        e.grantId = e'.grantId) :
    (∀ e ∈ entries, e.state ≠ none) ∧ (entries.map (·.grantId)).Nodup ∧
      t.entries.Perm (entries.map (pairV2 sha256)) ∧
      t.keys = (revocationPairsV2 sha256 (committed entries)).map (·.1) ∧
      t.states = (revocationPairsV2 sha256 (committed entries)).map (·.2) ∧
      t.tree = .ofLeaves sha256 (revocationLeavesV2 sha256 (committed entries)) := by
  unfold buildRevocationTreeV2 at h
  split at h
  · cases h
  · next pairs hpairs =>
    obtain ⟨rfl, hstates, -, hnodup⟩ := pairsV2_eq_ok hpairs
    have hperm := List.perm_insertionSort (fun a b : PairV2 => digestKey a.key ≤ digestKey b.key)
      (entries.map (pairV2 sha256))
    generalize hsort : List.insertionSort (fun a b : PairV2 => digestKey a.key ≤ digestKey b.key)
      (entries.map (pairV2 sha256)) = sorted at h hperm
    have hordered : sorted.Pairwise fun a b => digestKey a.key ≤ digestKey b.key := by
      have : Std.Total fun a b : PairV2 => digestKey a.key ≤ digestKey b.key :=
        ⟨fun a b => le_total _ _⟩
      have : IsTrans PairV2 fun a b => digestKey a.key ≤ digestKey b.key :=
        ⟨fun a b c => le_trans⟩
      rw [← hsort]
      exact List.pairwise_insertionSort _ _
    -- Distinct keys leave one sorted list, so sorting by key alone is sorting by pairs.
    have hpairs : sorted.map (fun p => (p.key, p.state)) =
        ((committed entries).map (revocationPair sha256)).insertionSort PairLe := by
      refine eq_of_perm_of_sorted (fun p : Vector UInt8 32 × Vector UInt8 32 => digestKey p.1)
        ?_ ?_ ?_ ?_
      · rw [← map_pairV2 hstates]
        exact (hperm.map _).trans (List.perm_insertionSort PairLe _).symm
      · rw [List.map_map, show ((fun p : Vector UInt8 32 × Vector UInt8 32 => digestKey p.1) ∘
            fun p : PairV2 => (p.key, p.state)) = digestKey ∘ PairV2.key from rfl, ← List.map_map]
        refine List.Nodup.map digestKey_injective ((hperm.map PairV2.key).nodup_iff.mpr ?_)
        rw [List.map_map, show PairV2.key ∘ pairV2 sha256 =
          revocationKeyV2 sha256 ∘ RevocationStateEntry.grantId from rfl, ← List.map_map]
        refine List.Nodup.map_on ?_ hnodup
        intro a ha b hb heq
        obtain ⟨e, he, rfl⟩ := List.mem_map.mp ha
        obtain ⟨e', he', rfl⟩ := List.mem_map.mp hb
        exact hinj e he e' he' heq
      · exact List.pairwise_map.mpr hordered
      · exact (List.pairwise_insertionSort PairLe _).imp PairLe.key_le
    obtain rfl := Except.ok.inj h
    have hk : sorted.map (·.key) = (((committed entries).map
        (revocationPair sha256)).insertionSort PairLe).map (·.1) := by
      rw [← hpairs, List.map_map]
      rfl
    have hs : sorted.map (·.state) = (((committed entries).map
        (revocationPair sha256)).insertionSort PairLe).map (·.2) := by
      rw [← hpairs, List.map_map]
      rfl
    refine ⟨hstates, hnodup, hperm, ?_, ?_, ?_⟩
    · simp only [revocationPairsV2, hk, List.map_cons, List.map_append, List.map_nil]
    · simp only [revocationPairsV2, hs, List.map_cons, List.map_append, List.map_nil]
    · simp only [revocationLeavesV2, revocationPairsV2, hk, hs, List.map_cons, List.map_append,
        List.map_nil, List.zipWith_cons_cons]
      rw [List.zipWith_append (by simp), List.zipWith_map, List.zipWith_self]
      rfl

theorem length_committed {entries : List RevocationStateEntry}
    (h : ∀ e ∈ entries, e.state ≠ none) : (committed entries).length = entries.length := by
  have hlen := congrArg List.length (@map_pairV2 (fun _ => minLeaf) entries h)
  simpa using hlen.symm

/-- What is committed is an entry's state. -/
theorem mem_committed {entries : List RevocationStateEntry} {g : String} {st : RevState} :
    (g, st) ∈ committed entries ↔ ∃ e ∈ entries, e.grantId = g ∧ e.state = some st := by
  simp only [committed, List.mem_filterMap, Option.map_eq_some_iff, Prod.mk.injEq]
  constructor
  · rintro ⟨e, he, st', hst, hg, rfl⟩
    exact ⟨e, he, hg, hst⟩
  · rintro ⟨e, he, hg, hst⟩
    exact ⟨e, he, st, hst, hg, rfl⟩

/-- A grant has one state. -/
theorem eq_of_mem_committed {entries : List RevocationStateEntry} {e : RevocationStateEntry}
    (hnodup : (entries.map (·.grantId)).Nodup) (he : e ∈ entries) {st st' : RevState}
    (hst : e.state = some st) (h : (e.grantId, st') ∈ committed entries) : st' = st := by
  obtain ⟨e', he', hg, hst'⟩ := mem_committed.mp h
  obtain rfl := List.inj_on_of_nodup_map hnodup he' he hg
  exact Option.some.inj (hst'.symm.trans hst)

/-- No grant is expected to have a sentinel for its key. -/
def SentinelKeyV2 (sha256 : List UInt8 → Vector UInt8 32) (g : String) : Prop :=
  revocationKeyV2 sha256 g = minLeaf ∨ revocationKeyV2 sha256 g = maxLeaf

/-- A pair under a key that is no sentinel is the pair of an entry. -/
theorem exists_entry_of_pair {entries : List (String × RevState)}
    {p : Vector UInt8 32 × Vector UInt8 32} (h : p ∈ revocationPairsV2 sha256 entries)
    (hmin : p.1 ≠ minLeaf) (hmax : p.1 ≠ maxLeaf) : ∃ e ∈ entries, revocationPair sha256 e = p := by
  simp only [revocationPairsV2, List.mem_cons, List.mem_append, List.mem_insertionSort,
    List.mem_map, List.not_mem_nil, or_false] at h
  rcases h with rfl | h | rfl
  · exact absurd rfl hmin
  · exact h
  · exact absurd rfl hmax

/-- A leaf is the hash of its pair. -/
theorem getElem?_revocationLeavesV2 {entries : List (String × RevState)} {k : Nat}
    {p : Vector UInt8 32 × Vector UInt8 32}
    (h : (revocationPairsV2 sha256 entries)[k]? = some p) :
    (revocationLeavesV2 sha256 entries)[k]? = some (revocationEntryV2 sha256 p.1 p.2) := by
  rw [revocationLeavesV2, List.getElem?_map, h]
  rfl

/-- A neighbour is read back as the pair at its position. -/
theorem side_spec {t : RevocationTreeV2} {pairs : List (Vector UInt8 32 × Vector UInt8 32)}
    (hkeys : t.keys = pairs.map (·.1)) (hstates : t.states = pairs.map (·.2)) {k : Nat}
    {key : Vector UInt8 32} (hget : t.keys[k]? = some key) :
    ∃ p, pairs[k]? = some p ∧
      (∀ proof name, proof.get name = some (t.side k) → parseSide proof name = some p) ∧
        key = p.1 := by
  rw [hkeys, List.getElem?_map, Option.map_eq_some_iff] at hget
  obtain ⟨p, hp, rfl⟩ := hget
  have hkey : t.keys.getD k minLeaf = p.1 := by
    rw [hkeys, List.getD_eq_getElem?_getD, List.getElem?_map, hp]
    rfl
  have hstate : t.states.getD k minLeaf = p.2 := by
    rw [hstates, List.getD_eq_getElem?_getD, List.getElem?_map, hp]
    rfl
  refine ⟨p, hp, ?_, rfl⟩
  intro proof name hname
  unfold parseSide
  rw [hname, RevocationTreeV2.side, hkey, hstate]
  simp [CanonValue.asObject, CanonValue.get, CanonValue.member]

section Entries

variable {entries : List RevocationStateEntry} {t : RevocationTreeV2} {watermark : Int}
  (hbuild : buildRevocationTreeV2 sha256 entries = .ok t) (hw : entries.length + 2 < 2 ^ w)
  (hlen : entries.length + 2 < 2 ^ 63)
  (hinj : ∀ e ∈ entries, ∀ e' ∈ entries,
    revocationKeyV2 sha256 e.grantId = revocationKeyV2 sha256 e'.grantId → e.grantId = e'.grantId)
include hbuild hinj

/-- The root and the count are those of the committed entries. -/
theorem rootHex_buildRevocationTreeV2 :
    t.rootHex = revocationMerkleRootV2 sha256 (committed entries) ∧
      t.leafCount = entries.length + 2 := by
  obtain ⟨hstates, -, -, -, -, htree⟩ := buildRevocationTreeV2_eq_ok hbuild hinj
  rw [RevocationTreeV2.rootHex, RevocationTreeV2.leafCount, htree]
  refine ⟨rootHex_ofLeaves _ _, ?_⟩
  rw [RevocationTree.leafCount, RevocationTree.ofLeaves, length_revocationLeavesV2,
    length_committed hstates]

/-- The position of a committed grant's key holds the pair of its entry. -/
theorem getElem?_pairs_of_key {e : RevocationStateEntry} {st : RevState} (he : e ∈ entries)
    (hst : e.state = some st) (hs : ¬ SentinelKeyV2 sha256 e.grantId) {k : Nat}
    (hget : t.keys[k]? = some (revocationKeyV2 sha256 e.grantId)) :
    (revocationPairsV2 sha256 (committed entries))[k]? =
      some (revocationPair sha256 (e.grantId, st)) := by
  obtain ⟨-, hnodup, -, hkeys, -⟩ := buildRevocationTreeV2_eq_ok hbuild hinj
  rw [SentinelKeyV2, not_or] at hs
  rw [hkeys, List.getElem?_map, Option.map_eq_some_iff] at hget
  obtain ⟨p, hp, hkey⟩ := hget
  obtain ⟨⟨g', st'⟩, hc, rfl⟩ := exists_entry_of_pair (List.mem_of_getElem? hp)
    (hkey ▸ hs.1) (hkey ▸ hs.2)
  obtain ⟨e', he', rfl, hst'⟩ := mem_committed.mp hc
  obtain rfl := List.inj_on_of_nodup_map hnodup he' he (hinj e' he' e he hkey)
  rw [hp, eq_of_mem_committed hnodup he hst hc]

/-- The entry under a committed grant's key is its own. -/
theorem exists_find?_entry {e : RevocationStateEntry} (he : e ∈ entries) :
    ∃ p, t.entries.reverse.find? (·.key = revocationKeyV2 sha256 e.grantId) = some p ∧
      p.entry = e := by
  obtain ⟨-, hnodup, hperm, -⟩ := buildRevocationTreeV2_eq_ok hbuild hinj
  have hsome : (t.entries.reverse.find? (·.key = revocationKeyV2 sha256 e.grantId)).isSome := by
    rw [List.find?_isSome]
    refine ⟨pairV2 sha256 e, ?_, decide_eq_true rfl⟩
    rw [List.mem_reverse, hperm.mem_iff]
    exact List.mem_map_of_mem he
  obtain ⟨p, hp⟩ := Option.isSome_iff_exists.mp hsome
  have hin := List.mem_of_find?_eq_some hp
  rw [List.mem_reverse, hperm.mem_iff, List.mem_map] at hin
  obtain ⟨e', he', rfl⟩ := hin
  have hkey : (pairV2 sha256 e').key = revocationKeyV2 sha256 e.grantId := by
    simpa using List.find?_some hp
  exact ⟨_, hp, List.inj_on_of_nodup_map hnodup he' he (hinj e' he' e he hkey)⟩

/-- The state in clear is read back as the state of the entry. -/
theorem parseStateFields_clearState {e : RevocationStateEntry} {st : RevState} (he : e ∈ entries)
    (hst : e.state = some st)
    (hwater : e.mode = "prospective" → e.cutoffOrder.toInt ≤ watermark) (index path : CanonValue) :
    parseStateFields (.obj ([("type", .str "membership"), ("index", index), ("path", path)] ++
      t.clearState (revocationKeyV2 sha256 e.grantId))) watermark = some st := by
  obtain ⟨hmode, -, hpros⟩ := RevocationStateEntry.of_state_eq_some hst
  obtain ⟨p, hp, hentry⟩ := exists_find?_entry hbuild hinj he
  simp only [RevocationTreeV2.clearState, hp, hentry]
  cases st with
  | total =>
    rw [show e.mode = "total" from hmode]
    rfl
  | prospective c =>
    obtain ⟨rfl, hpos⟩ := hpros c rfl
    have hle := hwater hmode
    rw [show e.mode = "prospective" from hmode]
    simp [parseStateFields, CanonValue.get, CanonValue.member, CanonValue.asStr, hpos, hle]

include hw hlen

/-- The proof of a committed grant is accepted with its state. -/
theorem proofV2_membership {e : RevocationStateEntry} {st : RevState} (he : e ∈ entries)
    (hst : e.state = some st) (hs : ¬ SentinelKeyV2 sha256 e.grantId)
    (hwater : e.mode = "prospective" → e.cutoffOrder.toInt ≤ watermark) :
    ∃ p, t.proof sha256 e.grantId = some p ∧
      checkRevocationProofV2 sha256 w p e.grantId
        (leafRoot sha256 (revocationLeavesV2 sha256 (committed entries))
          (by simp [revocationLeavesV2, revocationPairsV2]))
        (entries.length + 2) watermark = .ok (.revoked st) := by
  obtain ⟨hstates, -, -, hkeys, -, htree⟩ := buildRevocationTreeV2_eq_ok hbuild hinj
  have hmem : revocationKeyV2 sha256 e.grantId ∈ t.keys := by
    rw [hkeys]
    exact revocationKeyV2_mem (e := (e.grantId, st)) (mem_committed.mpr ⟨e, he, rfl, hst⟩)
  obtain ⟨k, hfind, hget⟩ := exists_findIdx?_eq hmem
  have hpair := getElem?_pairs_of_key hbuild hinj he hst hs hget
  have hleaf : (revocationLeavesV2 sha256 (committed entries))[k]? =
      some (revocationEntryV2 sha256 (revocationKeyV2 sha256 e.grantId)
        (revocationStateDigestV2 sha256 st.mode st.cutoff)) := by
    rw [revocationLeavesV2, List.getElem?_map, hpair]
    rfl
  have hsize : (revocationLeavesV2 sha256 (committed entries)).length = entries.length + 2 := by
    rw [length_revocationLeavesV2, length_committed hstates]
  have hsmall : (revocationLeavesV2 sha256 (committed entries)).length < 2 ^ 63 := by omega
  have hk := (List.getElem?_eq_some_iff.mp hleaf).1
  have hproof : t.proof sha256 e.grantId =
      some (.obj ([("type", .str "membership"), ("index", indexValue k),
        ("path", t.tree.auditPath k)] ++ t.clearState (revocationKeyV2 sha256 e.grantId))) := by
    rw [RevocationTreeV2.proof, hfind]
  refine ⟨_, hproof, ?_⟩
  have hpath : parseHex32Path (some (t.tree.auditPath k)) = some
      (Merkle.auditPath (RevocationTree.ofLeaves sha256 (revocationLeavesV2 sha256
        (committed entries))).levels k) := by
    rw [htree]
    exact parseHex32Path_auditPath _ k hsmall
  apply checkRevocationProofV2_membership (k := k) (by omega) rfl
    (parseStateFields_clearState hbuild hinj he hst hwater _ _)
    (indexField_indexValue (by omega) rfl) hpath
  rw [← hsize]
  exact merkleRootFromProof_auditPath _ _ hleaf

/-- The proof of a grant that is not committed is accepted as such. -/
theorem proofV2_nonMembership (hg : g ∉ entries.map (·.grantId)) (hs : ¬ SentinelKeyV2 sha256 g)
    (hother : ∀ e ∈ entries, revocationKeyV2 sha256 e.grantId = revocationKeyV2 sha256 g →
      e.grantId = g) :
    ∃ p, t.proof sha256 g = some p ∧
      checkRevocationProofV2 sha256 w p g
        (leafRoot sha256 (revocationLeavesV2 sha256 (committed entries))
          (by simp [revocationLeavesV2, revocationPairsV2]))
        (entries.length + 2) watermark = .ok .notRevoked := by
  obtain ⟨hstates, -, -, hkeys, hstatesEq, htree⟩ := buildRevocationTreeV2_eq_ok hbuild hinj
  have hbracketed : t.keys = minLeaf :: ((((committed entries).map
      (revocationPair sha256)).insertionSort PairLe).map (·.1) ++ [maxLeaf]) := by
    rw [hkeys]
    simp only [revocationPairsV2, List.map_cons, List.map_append, List.map_nil]
  have hfree : revocationKeyV2 sha256 g ∉ (((committed entries).map
      (revocationPair sha256)).insertionSort PairLe).map (·.1) := by
    simp only [List.mem_map, List.mem_insertionSort]
    rintro ⟨p, ⟨⟨g', st⟩, hc, rfl⟩, hkey⟩
    obtain ⟨e, he, rfl, -⟩ := mem_committed.mp hc
    exact hg (List.mem_map.mpr ⟨e, he, hother e he hkey⟩)
  obtain ⟨k, hfind⟩ := exists_findBracket (fun h => hs (Or.inl h)) (fun h => hs (Or.inr h)) hfree
  rw [← hbracketed] at hfind
  obtain ⟨lo, hi, hlo, hhi, hlt, hgt⟩ := findBracket_eq_some hfind
  have hnone : revocationKeyV2 sha256 g ∉ t.keys := by
    intro hmem
    rw [findBracket_eq_none (hkeys ▸ pairwise_revocationPairsV2 _) hmem] at hfind
    cases hfind
  have hproof : t.proof sha256 g =
      some (.obj [("type", .str "nonmembership"), ("lo", t.side k), ("hi", t.side (k + 1)),
        ("lo_index", indexValue k), ("hi_index", indexValue (k + 1)),
        ("lo_path", t.tree.auditPath k), ("hi_path", t.tree.auditPath (k + 1))]) := by
    rw [RevocationTreeV2.proof, findIdx?_eq_none hnone, hfind]
    rfl
  refine ⟨_, hproof, ?_⟩
  obtain ⟨lo', hloPair, hloSide, rfl⟩ := side_spec hkeys hstatesEq hlo
  obtain ⟨hi', hhiPair, hhiSide, rfl⟩ := side_spec hkeys hstatesEq hhi
  have hsize : (revocationLeavesV2 sha256 (committed entries)).length = entries.length + 2 := by
    rw [length_revocationLeavesV2, length_committed hstates]
  have hsmall : (revocationLeavesV2 sha256 (committed entries)).length < 2 ^ 63 := by omega
  have hloLeaf := getElem?_revocationLeavesV2 hloPair
  have hhiLeaf := getElem?_revocationLeavesV2 hhiPair
  have hk := (List.getElem?_eq_some_iff.mp hhiLeaf).1
  have hloTop := @merkleRootFromProof_auditPath sha256 _
    (by simp [revocationLeavesV2, revocationPairsV2]) _ _ hloLeaf
  have hhiTop := @merkleRootFromProof_auditPath sha256 _
    (by simp [revocationLeavesV2, revocationPairsV2]) _ _ hhiLeaf
  rw [hsize] at hloTop hhiTop
  have hpath : ∀ j, parseHex32Path (some (t.tree.auditPath j)) = some
      (Merkle.auditPath (RevocationTree.ofLeaves sha256 (revocationLeavesV2 sha256
        (committed entries))).levels j) := by
    intro j
    rw [htree]
    exact parseHex32Path_auditPath _ j hsmall
  exact checkRevocationProofV2_nonMembership (k := k) (by omega) (by omega) rfl
    (hloSide _ "lo" rfl) (hhiSide _ "hi" rfl) (indexField_indexValue (by omega) rfl)
    (indexField_indexValue (by omega) rfl) (hpath k) (hpath (k + 1)) hlt hgt hloTop hhiTop

end Entries

/-- Producer and verifier agree. The published root and leaf count are those the verifier
computes. In the first version exactly one proof exists for every grant and is accepted as
what it says; in the second the proof is accepted with exactly the committed state. A list is
no longer than a machine word can count, and the key of the grant is neither a sentinel nor
the key of another grant. -/
theorem revocation_trees_agree (sha256 : List UInt8 → Vector UInt8 32) (w : Nat) :
    (∀ revoked : List String, revoked.length + 2 < 2 ^ w → revoked.length + 2 < 2 ^ 63 →
      let t := buildRevocationTree sha256 revoked
      t.rootHex = revocationMerkleRoot sha256 revoked ∧ t.leafCount = revoked.length + 2 ∧
      ∃ root, stripSha256 t.rootHex = some root ∧
        ∀ g, ¬ SentinelLeaf sha256 g →
          (∀ r ∈ revoked, revocationLeaf sha256 r = revocationLeaf sha256 g → r = g) →
          (g ∉ revoked ∧ t.membershipProof sha256 g = none ∧
            ∃ p, t.nonMembershipProof sha256 g = some p ∧
              checkRevocationProof sha256 w p g root t.leafCount = .ok .notRevoked) ∨
          (g ∈ revoked ∧ t.nonMembershipProof sha256 g = none ∧
            ∃ p, t.membershipProof sha256 g = some p ∧
              checkRevocationProof sha256 w p g root t.leafCount = .ok .revoked)) ∧
    ∀ (entries : List RevocationStateEntry) (t : RevocationTreeV2) (watermark : Int),
      buildRevocationTreeV2 sha256 entries = .ok t →
      entries.length + 2 < 2 ^ w → entries.length + 2 < 2 ^ 63 →
      (∀ e ∈ entries, e.mode = "prospective" → e.cutoffOrder.toInt ≤ watermark) →
      (∀ e ∈ entries, ∀ e' ∈ entries, revocationKeyV2 sha256 e.grantId =
        revocationKeyV2 sha256 e'.grantId → e.grantId = e'.grantId) →
      t.rootHex = revocationMerkleRootV2 sha256 (committed entries) ∧
      t.leafCount = (committed entries).length + 2 ∧
      ∃ root, stripSha256 t.rootHex = some root ∧
        ∀ g, ¬ SentinelKeyV2 sha256 g →
          (∀ e ∈ entries, revocationKeyV2 sha256 e.grantId = revocationKeyV2 sha256 g →
            e.grantId = g) →
          ∃ p, t.proof sha256 g = some p ∧
            (∀ st, (g, st) ∈ committed entries →
              checkRevocationProofV2 sha256 w p g root t.leafCount watermark =
                .ok (.revoked st)) ∧
            (g ∉ (committed entries).map (·.1) →
              checkRevocationProofV2 sha256 w p g root t.leafCount watermark =
                .ok .notRevoked) := by
  constructor
  · intro revoked hw hlen t
    have hroot : t.rootHex = revocationMerkleRoot sha256 revoked := rootHex_ofLeaves _ _
    have hcount : t.leafCount = revoked.length + 2 := length_revocationLeaves revoked
    refine ⟨hroot, hcount, _, (congrArg stripSha256 hroot).trans (stripSha256_rootText _), ?_⟩
    intro g hs hother
    rw [hcount]
    by_cases hg : g ∈ revoked
    · exact Or.inr ⟨hg, membershipProof_spec hw hlen hg⟩
    · exact Or.inl ⟨hg, nonMembershipProof_spec hw hlen hs hother hg⟩
  · intro entries t watermark hbuild hw hlen hwater hinj
    obtain ⟨hstates, -⟩ := buildRevocationTreeV2_eq_ok hbuild hinj
    obtain ⟨hroot, hcount⟩ := rootHex_buildRevocationTreeV2 hbuild hinj
    refine ⟨hroot, by rw [hcount, length_committed hstates], _,
      (congrArg stripSha256 hroot).trans (stripSha256_rootText _), ?_⟩
    intro g hs hother
    rw [hcount]
    by_cases hg : g ∈ entries.map (·.grantId)
    · obtain ⟨e, he, rfl⟩ := List.mem_map.mp hg
      obtain ⟨st, hst⟩ := Option.ne_none_iff_exists'.mp (hstates e he)
      obtain ⟨-, hnodup, -⟩ := buildRevocationTreeV2_eq_ok hbuild hinj
      obtain ⟨p, hp, hcheck⟩ := proofV2_membership hbuild hw hlen hinj he hst hs (hwater e he)
      refine ⟨p, hp, ?_, ?_⟩
      · intro st' hst'
        rw [eq_of_mem_committed hnodup he hst hst']
        exact hcheck
      · intro hnot
        exact absurd (List.mem_map_of_mem (mem_committed.mpr ⟨e, he, rfl, hst⟩)) hnot
    · obtain ⟨p, hp, hcheck⟩ := proofV2_nonMembership hbuild hw hlen hinj hg hs hother
      refine ⟨p, hp, ?_, fun _ => hcheck⟩
      intro st hst
      obtain ⟨e, he, heq, -⟩ := mem_committed.mp hst
      exact absurd (List.mem_map.mpr ⟨e, he, heq⟩) hg

/-- One grant of two is revoked, in the second version from the fifth use on. -/
theorem revocation_trees_agree_two :
    (∃ root p, checkRevocationProof byteSum 64 p "g" root 3 = .ok .revoked) ∧
    (∃ root p, checkRevocationProof byteSum 64 p "h" root 3 = .ok .notRevoked) ∧
    ∃ t root p, buildRevocationTreeV2 byteSum [⟨"g", "prospective", 5⟩] = .ok t ∧
      t.proof byteSum "g" = some p ∧
      checkRevocationProofV2 byteSum 64 p "g" root t.leafCount 7 =
        .ok (.revoked (.prospective 5)) := by
  obtain ⟨hfirst, hsecond⟩ := revocation_trees_agree byteSum 64
  obtain ⟨-, hcount, root, -, hall⟩ := hfirst ["g"] (by decide) (by decide)
  rw [hcount] at hall
  obtain ⟨t, ht⟩ : ∃ t, buildRevocationTreeV2 byteSum [⟨"g", "prospective", 5⟩] = .ok t := ⟨_, rfl⟩
  obtain ⟨-, -, root', -, hall'⟩ := hsecond [⟨"g", "prospective", 5⟩] t 7 ht (by decide) (by decide)
    (by decide) (by simp)
  refine ⟨?_, ?_, ?_⟩
  · rcases hall "g" (by unfold SentinelLeaf; decide +kernel) (by simp) with
      ⟨hnot, -⟩ | ⟨-, -, p, -, hcheck⟩
    · exact absurd List.mem_cons_self hnot
    · exact ⟨root, p, hcheck⟩
  · rcases hall "h" (by unfold SentinelLeaf; decide +kernel) (by decide +kernel) with
      ⟨-, -, p, -, hcheck⟩ | ⟨hin, -⟩
    · exact ⟨root, p, hcheck⟩
    · exact absurd hin (by decide)
  · obtain ⟨p, hp, hrevoked, -⟩ := hall' "g" (by unfold SentinelKeyV2; decide +kernel) (by simp)
    exact ⟨t, root', p, ht, hp, hrevoked (.prospective 5) List.mem_cons_self⟩

end Trees

end Averin
