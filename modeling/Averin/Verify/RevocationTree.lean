import Mathlib.Data.List.Lex
import Averin.Core.Merkle
import Averin.Verify.HexText

/-!
# Revocation trees and their proofs

The issuer of a revocation commits to the revoked grants by the root of a hash tree. The
leaves are sorted and stand between two sentinels, so that a grant is shown to be revoked by
opening its own leaf, and shown not to be revoked by opening two neighbours around it. The
first version commits to the grants alone, the second to each grant with its state. A proof
comes from outside and is read field by field; arithmetic on its numbers is written out so
that leaving the machine range is a visible outcome.
-/

namespace Averin

/-- An arithmetic operation left its range. -/
inductive Overflow where
  | overflow
  deriving DecidableEq, Repr

/-- Subtraction of machine words. -/
def usizeSub (a b : Nat) : Except Overflow Nat := if b ≤ a then .ok (a - b) else .error .overflow

/-- `i64::checked_add`. -/
def checkedAdd (a b : Int) : Option Int :=
  if -2 ^ 63 ≤ a + b ∧ a + b < 2 ^ 63 then some (a + b) else none

/-- `as usize` on a machine of `w` bits. -/
def asUsize (w : Nat) (i : Int) : Nat := (i % 2 ^ w).toNat

/-- The committed state of a revoked grant. -/
inductive RevState where
  | total
  | prospective (cutoff : Int64)
  deriving DecidableEq, Repr

namespace RevState

/-- How a state writes its mode. -/
def mode : RevState → String
  | .total => "total"
  | .prospective _ => "prospective"

/-- From which place on the grant is revoked. -/
def cutoff : RevState → Int
  | .total => 0
  | .prospective c => c.toInt

end RevState

/-- What the leaf of a grant is the hash of. -/
def revocationLeafPreimage (grantId : String) : List UInt8 :=
  lp4 (bytes "averin.broker.revocation.leaf.v1") ++ lp4 (bytes grantId)

/-- A leaf is hashed after a zero byte, a node after a one byte. -/
def merkleLeafPreimage (v : Vector UInt8 32) : List UInt8 := 0x00 :: v.toList

/-- What a node is the hash of. -/
def merkleNodePreimage (l r : Vector UInt8 32) : List UInt8 := 0x01 :: (l.toList ++ r.toList)

/-- What the key of a grant is the hash of. -/
def revocationKeyV2Preimage (grantId : String) : List UInt8 :=
  lp4 (bytes "averin.broker.revocation.key.v2") ++ lp4 (bytes grantId)

/-- What a state is the hash of. -/
def revocationStateV2Preimage (mode : String) (cutoff : Int) : List UInt8 :=
  lp4 (bytes "averin.broker.revocation.state.v2") ++ lp4 (bytes mode) ++
    be8 (cutoff % 2 ^ 64).toNat

/-- The key and the state digest go in raw. -/
def revocationEntryV2Preimage (key stateDigest : Vector UInt8 32) : List UInt8 :=
  lp4 (bytes "averin.broker.revocation.entry.v2") ++ key.toList ++ stateDigest.toList

/-- What digests are ordered by: their bytes as numbers, the first one first. -/
def digestKey (v : Vector UInt8 32) : List Nat := v.toList.map UInt8.toNat

/-- The least and the greatest hash, which no grant is expected to have. -/
def minLeaf : Vector UInt8 32 := .replicate 32 0x00

/-- The last sentinel. -/
def maxLeaf : Vector UInt8 32 := .replicate 32 0xFF

section Hashing

variable (sha256 : List UInt8 → Vector UInt8 32)

/-- The leaf of a grant. -/
def revocationLeaf (grantId : String) : Vector UInt8 32 := sha256 (revocationLeafPreimage grantId)

/-- The hash of a leaf. -/
def merkleLeafHash (v : Vector UInt8 32) : Vector UInt8 32 := sha256 (merkleLeafPreimage v)

/-- The hash of a node. -/
def merkleNodeHash (l r : Vector UInt8 32) : Vector UInt8 32 := sha256 (merkleNodePreimage l r)

/-- The key of a grant in the second version. -/
def revocationKeyV2 (grantId : String) : Vector UInt8 32 := sha256 (revocationKeyV2Preimage grantId)

/-- The hash of a state. -/
def revocationStateDigestV2 (mode : String) (cutoff : Int) : Vector UInt8 32 :=
  sha256 (revocationStateV2Preimage mode cutoff)

/-- The leaf of a grant and its state. -/
def revocationEntryV2 (key stateDigest : Vector UInt8 32) : Vector UInt8 32 :=
  sha256 (revocationEntryV2Preimage key stateDigest)

/-- The root over leaf values: their hashes joined level by level. -/
def leafRoot (leaves : List (Vector UInt8 32)) (h : leaves ≠ []) : Vector UInt8 32 :=
  Merkle.root (merkleNodeHash sha256) (leaves.map (merkleLeafHash sha256)) (by simpa using h)

/-- The hashes of the revoked grants in order, between the sentinels. -/
def revocationLeaves (revoked : List String) : List (Vector UInt8 32) :=
  minLeaf ::
    ((revoked.map (revocationLeaf sha256)).insertionSort (digestKey · ≤ digestKey ·) ++
      [maxLeaf])

/-- The root that the broker publishes. -/
def revocationMerkleRoot (revoked : List String) : String :=
  rootText (leafRoot sha256 (revocationLeaves sha256 revoked) (List.cons_ne_nil _ _))

/-- The key of a grant and the digest of its state. -/
def revocationPair (entry : String × RevState) : Vector UInt8 32 × Vector UInt8 32 :=
  (revocationKeyV2 sha256 entry.1,
    revocationStateDigestV2 sha256 entry.2.mode entry.2.cutoff)

/-- The order of pairs: by key, then by state digest. -/
def PairLe (a b : Vector UInt8 32 × Vector UInt8 32) : Prop :=
  digestKey a.1 < digestKey b.1 ∨ a.1 = b.1 ∧ digestKey a.2 ≤ digestKey b.2

instance : DecidableRel PairLe := fun _ _ => inferInstanceAs (Decidable (_ ∨ _))

/-- The pairs in order between the sentinels, whose state is a mode of its own. -/
def revocationPairsV2 (entries : List (String × RevState)) :
    List (Vector UInt8 32 × Vector UInt8 32) :=
  let sentinel := revocationStateDigestV2 sha256 "sentinel" 0
  (minLeaf, sentinel) ::
    ((entries.map (revocationPair sha256)).insertionSort PairLe ++ [(maxLeaf, sentinel)])

/-- The leaves of the second version, by key. -/
def revocationLeavesV2 (entries : List (String × RevState)) : List (Vector UInt8 32) :=
  (revocationPairsV2 sha256 entries).map fun p => revocationEntryV2 sha256 p.1 p.2

/-- Its root. -/
def revocationMerkleRootV2 (entries : List (String × RevState)) : String :=
  rootText (leafRoot sha256 (revocationLeavesV2 sha256 entries) (by simp [revocationLeavesV2,
    revocationPairsV2]))

/-- The root an opening leads to, unless it is out of range or its path has the wrong
length. -/
def merkleRootFromProof (leafValue : Vector UInt8 32) (index size : Nat)
    (path : List (Vector UInt8 32)) : Except Overflow (Option (Vector UInt8 32)) := do
  if size = 0 ∨ size ≤ index then return none
  let last ← usizeSub size 1
  return Merkle.climb (merkleNodeHash sha256) (merkleLeafHash sha256 leafValue) index last path

/-- How long a path may be. -/
def maxRevocationPath : Nat := 64

/-- The siblings a proof lists, unless there are too many or one is malformed. -/
def parseHex32Path (v : Option CanonValue) : Option (List (Vector UInt8 32)) := do
  let arr ← (← v).asArray
  if arr.length > maxRevocationPath then none
  else arr.mapM fun e => e.asStr.bind hex32

/-- What a proof of the first version shows. -/
inductive ProofVerdict where
  | notRevoked | revoked | unproven
  deriving DecidableEq, Repr

/-- A digest a proof spells in hex. -/
def hexField (v : Option CanonValue) : Option (Vector UInt8 32) :=
  (v.bind CanonValue.asStr).bind hex32

/-- Check a proof of the first version for one grant. -/
def checkRevocationProof (w : Nat) (proof : CanonValue) (grantId : String)
    (root : Vector UInt8 32) (leafCount : Nat) : Except Overflow ProofVerdict :=
  let q := revocationLeaf sha256 grantId
  match ((proof.get "type").bind CanonValue.asStr).getD "" with
  | "membership" =>
    match (proof.get "index").bind CanonValue.asInt, parseHex32Path (proof.get "path") with
    | some i, some p =>
      if 0 ≤ i then do
        let top ← merkleRootFromProof sha256 q (asUsize w i) leafCount p
        return if top = some root then .revoked else .unproven
      else .ok .unproven
    | _, _ => .ok .unproven
  | "nonmembership" =>
    match hexField (proof.get "lo"), hexField (proof.get "hi"),
      (proof.get "lo_index").bind CanonValue.asInt, (proof.get "hi_index").bind CanonValue.asInt,
      parseHex32Path (proof.get "lo_path"), parseHex32Path (proof.get "hi_path") with
    | some lo, some hi, some li, some hiI, some lp, some hp =>
      if 0 ≤ li ∧ 0 ≤ hiI then
        if checkedAdd li 1 ≠ some hiI then .ok .unproven
        else if ¬ (digestKey lo < digestKey q ∧ digestKey q < digestKey hi) then .ok .unproven
        else do
          let loTop ← merkleRootFromProof sha256 lo (asUsize w li) leafCount lp
          if loTop ≠ some root then return .unproven
          let hiTop ← merkleRootFromProof sha256 hi (asUsize w hiI) leafCount hp
          if hiTop ≠ some root then return .unproven
          return .notRevoked
      else .ok .unproven
    | _, _, _, _, _, _ => .ok .unproven
  | _ => .ok .unproven

/-- What a proof of the second version shows. -/
inductive ProofV2 where
  | notRevoked
  | revoked (state : RevState)
  | unproven
  deriving DecidableEq, Repr

/-- The state a membership proof names in clear. -/
def parseStateFields (proof : CanonValue) (watermark : Int) : Option RevState :=
  match (proof.get "mode").bind CanonValue.asStr with
  | some "total" => if (proof.get "cutoff_order").isNone then some .total else none
  | some "prospective" =>
    match proof.get "cutoff_order" with
    | some (.int c) => if 1 ≤ c.toInt ∧ c.toInt ≤ watermark then some (.prospective c) else none
    | _ => none
  | _ => none

/-- A neighbour: exactly a key and a state digest. -/
def parseSide (proof : CanonValue) (k : String) : Option (Vector UInt8 32 × Vector UInt8 32) := do
  let o ← proof.get k
  if (← o.asObject).length ≠ 2 then none
  else return (← hexField (o.get "key"), ← hexField (o.get "state_digest"))

/-- An index a proof gives, which may not be negative. -/
def indexField (proof : CanonValue) (k : String) : Option Int :=
  ((proof.get k).bind CanonValue.asInt).filter (0 ≤ ·)

/-- Check a proof of the second version for one grant. -/
def checkRevocationProofV2 (w : Nat) (proof : CanonValue) (grantId : String)
    (root : Vector UInt8 32) (leafCount : Nat) (watermark : Int) : Except Overflow ProofV2 :=
  let q := revocationKeyV2 sha256 grantId
  match ((proof.get "type").bind CanonValue.asStr).getD "" with
  | "membership" =>
    match parseStateFields proof watermark, indexField proof "index",
      parseHex32Path (proof.get "path") with
    | some state, some i, some p => do
      let leaf := revocationEntryV2 sha256 q
        (revocationStateDigestV2 sha256 state.mode state.cutoff)
      let top ← merkleRootFromProof sha256 leaf (asUsize w i) leafCount p
      return if top = some root then .revoked state else .unproven
    | _, _, _ => .ok .unproven
  | "nonmembership" =>
    match parseSide proof "lo", parseSide proof "hi", indexField proof "lo_index",
      indexField proof "hi_index", parseHex32Path (proof.get "lo_path"),
      parseHex32Path (proof.get "hi_path") with
    | some lo, some hi, some li, some hiI, some lp, some hp =>
      if checkedAdd li 1 ≠ some hiI ∨
          ¬ (digestKey lo.1 < digestKey q ∧ digestKey q < digestKey hi.1) then
        .ok .unproven
      else do
        let loTop ← merkleRootFromProof sha256 (revocationEntryV2 sha256 lo.1 lo.2)
          (asUsize w li) leafCount lp
        if loTop ≠ some root then return .unproven
        let hiTop ← merkleRootFromProof sha256 (revocationEntryV2 sha256 hi.1 hi.2)
          (asUsize w hiI) leafCount hp
        if hiTop ≠ some root then return .unproven
        return .notRevoked
    | _, _, _, _, _, _ => .ok .unproven
  | _ => .ok .unproven

end Hashing

end Averin
