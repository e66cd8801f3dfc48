import Averin.Core.B64Lenient
import Averin.Server.Signing
import Averin.Verify.KeyRotations

/-!
# The lineage of the recording key

The server signs a statement for each rotation of its recording key, checks all of them again when
it starts, and publishes them with the retired keys in every bundle.
-/

namespace Averin

/-- A recording key as the bundle publishes it. -/
structure LineageKey where
  id : String
  epoch : Int
  publicKey : String
  deriving DecidableEq

/-- A recording key that no longer signs. -/
structure RetiredKey extends LineageKey where
  status : String
  changedAt : String

/-- An entry of the file of retired keys. -/
structure RetiredFile where
  signingKeyId : String
  keyEpoch : Int
  publicKey : String
  keyStatus : String
  statusChangedAt : String

/-- Why a statement is not made, or not accepted. -/
inductive LineageError where
  | reason | rotatedAt | oldKeyMissing | newKeyMissing | newSeed | oldSeed | digest
  | notObject | unknownField (name : String) | kind | keyRefs | sameKey | oldPub | newPub
  | sigNew | sigOld
  | current | retiredId (i : Nat) | retiredStatus (i : Nat) | retiredTime (i : Nat)
  | retiredPub (i : Nat) | retiredTwice (i : Nat) | rotation (i : Nat) (e : LineageError)
  | stranger (i : Nat) (key : String) | unlinked (key : String) | noSuccessor (key : String)
  deriving DecidableEq

/-- Two digits from `10 * lo` on. -/
def digitPair (b : List UInt8) (i : Nat) (first : UInt8) (lo hi : UInt8) : Bool :=
  b.getD i 0 == first && lo ≤ b.getD (i + 1) 0 && b.getD (i + 1) 0 ≤ hi

/-- Two digits below sixty. -/
def sixty (b : List UInt8) (i : Nat) : Bool :=
  0x30 ≤ b.getD i 0 && b.getD i 0 ≤ 0x35 && isAsciiDigit (b.getD (i + 1) 0)

/-- The pattern of a canonical time, alternative by alternative. -/
def isCanonicalTS (s : String) : Bool :=
  let b := bytes s
  let digit i := isAsciiDigit (b.getD i 0)
  b.length == 24 && ([0, 1, 2, 3].all digit) && b.getD 4 0 == 0x2D &&
    (digitPair b 5 0x30 0x31 0x39 || digitPair b 5 0x31 0x30 0x32) && b.getD 7 0 == 0x2D &&
    (digitPair b 8 0x30 0x31 0x39 || digitPair b 8 0x31 0x30 0x39 || digitPair b 8 0x32 0x30 0x39 ||
      digitPair b 8 0x33 0x30 0x31) && b.getD 10 0 == 0x54 &&
    (digitPair b 11 0x30 0x30 0x39 || digitPair b 11 0x31 0x30 0x39 ||
      digitPair b 11 0x32 0x30 0x33) && b.getD 13 0 == 0x3A && sixty b 14 && b.getD 16 0 == 0x3A &&
    sixty b 17 && b.getD 19 0 == 0x2E && ([20, 21, 22].all digit) && b.getD 23 0 == 0x5A

/-- A key as a statement refers to it. -/
def LineageKey.toJson (k : LineageKey) : Json :=
  .obj [("signing_key_id", .str k.id), ("key_epoch", .int k.epoch),
    ("public_key", .str k.publicKey)]

/-- `PubString`. -/
def pubString (pub : Vector UInt8 32) : String := pubkeyPrefix ++ B64.encode pub.toList

/-- The bytes of a key text; line breaks are skipped and the point is not checked. -/
def decodePub (s : String) : Option (Vector UInt8 32) :=
  (stripPrefix pubkeyPrefix s).bind (B64.strictFixed 32)

section Lineage

variable (N : Normalizer) (sha256 : List UInt8 → Vector UInt8 32) {ed : Ed25519}

/-- The digest of a body, which the core parses first. -/
def digestOf (body : Json) : Option String := (body.toCanon N).bind (rcpEvidenceHash N sha256)

/-- A statement before it is signed. -/
def rotationBody (old successor : LineageKey) (rotatedAt reason : String) : List (String × Json) :=
  [("kind", .str "key_rotation"), ("old_key", old.toJson), ("new_key", successor.toJson),
    ("rotated_at", .str rotatedAt), ("reason", .str reason)]

/-- Build a signed statement; the old key signs a scheduled one too. -/
def signRotation (old successor : LineageKey) (rotatedAt reason : String)
    (oldSK newSK : Option (SigningKey ed)) : Except LineageError Json := do
  require (reason = "scheduled" ∨ reason = "compromise") .reason
  require (isCanonicalTS rotatedAt = true) .rotatedAt
  require (¬ (reason = "scheduled" ∧ oldSK.isNone)) .oldKeyMissing
  let newSK ← orFail newSK .newKeyMissing
  require (pubString newSK.verifyingKey = successor.publicKey) .newSeed
  require (reason = "scheduled" → ∀ sk ∈ oldSK, pubString sk.verifyingKey = old.publicKey) .oldSeed
  let body := rotationBody old successor rotatedAt reason
  let digest ← orFail (digestOf N sha256 (.obj body)) .digest
  let sigNew ← orFail (signText keyRotationSigTag digest newSK) .digest
  let body := body ++ [("sig_new", .str sigNew)]
  if reason = "scheduled" then
    let oldSK ← orFail oldSK .oldKeyMissing
    let sigOld ← orFail (signText keyRotationSigTag digest oldSK) .digest
    return .obj (body ++ [("sig_old", .str sigOld)])
  else return .obj body

/-- The value of a number that was decoded as a double, if it is a whole one of 64 bits. -/
def wholeDouble : Json → Option Int
  | .int n =>
    let ep := Float64.roundInt n
    if -2 ^ 63 ≤ ep ∧ ep < 2 ^ 63 then some ep else none
  | _ => none

/-- A key of exactly three members. -/
def keyOf (v : Json) : Option LineageKey := do
  let m ← v.asObject
  guard (m.length = 3)
  let id ← v.strOf "signing_key_id"
  let epoch ← (v.get "key_epoch").bind wholeDouble
  let publicKey ← v.strOf "public_key"
  guard (id ≠ "")
  return ⟨id, epoch, publicKey⟩

/-- A text is a signature of the digest under a key. -/
def verifySig (ed : Ed25519) (digest sig : String) (pub : Vector UInt8 32) : Bool :=
  ((stripPrefix sigPrefix sig).bind (B64.strictFixed 64)).any fun b =>
    (signPreimage keyRotationSigTag digest).any fun msg => ed.verifyStrict pub msg b

/-- A statement that passed. -/
structure Verified where
  old : LineageKey
  new : LineageKey
  rotatedAt : String
  reason : String

/-- The members that the signatures cover. -/
def unsignedMembers (members : List (String × Json)) : List (String × Json) :=
  members.filter fun m => !(["sig_new", "sig_old"].contains m.1)

variable (ed) in
/-- Check one statement, given as the text that it is marshalled to. It is decoded without types
and the digest is taken of what is marshalled then. -/
def verifyRotation (st : Json) : Except LineageError Verified := do
  let members ← orFail st.asObject .notObject
  match members.find? fun m => m.1 ∉ rotationFields with
  | some m => .error (.unknownField m.1)
  | none =>
    require (st.strOf "kind" = some "key_rotation") .kind
    let reason := (st.strOf "reason").getD ""
    require (reason = "scheduled" ∨ reason = "compromise") .reason
    let rotatedAt := (st.strOf "rotated_at").getD ""
    require (isCanonicalTS rotatedAt = true) .rotatedAt
    let old ← orFail ((st.get "old_key").bind keyOf) .keyRefs
    let new ← orFail ((st.get "new_key").bind keyOf) .keyRefs
    require (¬ (old.id = new.id ∧ old.epoch = new.epoch ∨ old.publicKey = new.publicKey)) .sameKey
    let oldPub ← orFail (decodePub old.publicKey) .oldPub
    let newPub ← orFail (decodePub new.publicKey) .newPub
    let body := Json.obj (unsignedMembers members)
    let digest ← orFail (digestOf N sha256 body.viaDouble) .digest
    require (verifySig ed digest ((st.strOf "sig_new").getD "") newPub = true) .sigNew
    require (reason = "scheduled" →
      verifySig ed digest ((st.strOf "sig_old").getD "") oldPub = true) .sigOld
    return ⟨old, new, rotatedAt, reason⟩

end Lineage

/-- The name of a key, by which it is looked up. -/
def LineageKey.name (k : LineageKey) : String := k.id ++ "/" ++ toString k.epoch

/-- The key history that the server publishes. -/
structure Lineage where
  current : LineageKey
  retired : List RetiredKey
  rotations : List Json

/-- Take in the retired keys from entry `i` on, given the names and the public keys so far. -/
def buildRetired : Nat → (seen seenPub : List String) → List RetiredFile →
    Except LineageError (List RetiredKey)
  | _, _, _, [] => .ok []
  | i, seen, seenPub, r :: files => do
    require (r.signingKeyId ≠ "" ∧ 0 ≤ r.keyEpoch) (.retiredId i)
    require (r.keyStatus = "retired" ∨ r.keyStatus = "compromised") (.retiredStatus i)
    require (isCanonicalTS r.statusChangedAt = true) (.retiredTime i)
    require ((decodePub r.publicKey).isSome = true) (.retiredPub i)
    let key : LineageKey := ⟨r.signingKeyId, r.keyEpoch, r.publicKey⟩
    require (¬ (key.name ∈ seen ∨ r.publicKey ∈ seenPub)) (.retiredTwice i)
    let rest ← buildRetired (i + 1) (key.name :: seen) (r.publicKey :: seenPub) files
    return ⟨key, r.keyStatus, r.statusChangedAt⟩ :: rest

/-- Verify the statements from number `i` on; each names known keys only. -/
def buildRotations (verify : Json → Except LineageError Verified) (known : Table String String) :
    Nat → List Json → Except LineageError (List Verified)
  | _, [] => .ok []
  | i, st :: statements => do
    let v ← (verify st).mapError (.rotation i)
    require (known.lookup v.old.name = some v.old.publicKey) (.stranger i v.old.name)
    require (known.lookup v.new.name = some v.new.publicKey) (.stranger i v.new.name)
    let rest ← buildRotations verify known (i + 1) statements
    return v :: rest

/-- The public keys by the names of the current and the retired keys. -/
def knownKeys (current : LineageKey) (retired : List RetiredKey) : Table String String :=
  retired.foldl (fun known r => known.insert r.toLineageKey.name r.publicKey)
    ((∅ : Table String String).insert current.name current.publicKey)

section Build

variable (N : Normalizer) (sha256 : List UInt8 → Vector UInt8 32) (ed : Ed25519)

/-- Validate the configuration, or report the error that stops the server. -/
def Lineage.build (current : LineageKey) (retired : List RetiredFile) (statements : List Json) :
    Except LineageError Lineage := do
  require (current.id ≠ "" ∧ 0 ≤ current.epoch) .current
  let keys ← buildRetired 0 [current.name] [current.publicKey] retired
  let verified ← buildRotations (verifyRotation N sha256 ed) (knownKeys current keys) 0 statements
  match keys.find? fun r => r.toLineageKey.name ∉ verified.map fun v => v.old.name with
  | some r => .error (.unlinked r.toLineageKey.name)
  | none =>
    require (keys = [] ∨ ∃ v ∈ verified, v.new.id = current.id ∧ v.new.epoch = current.epoch)
      (.noSuccessor current.name)
    return ⟨current, keys, statements⟩

end Build

end Averin
