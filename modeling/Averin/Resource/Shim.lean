import Averin.Canon.Parse
import Averin.Canon.RoundTrip
import Averin.Core.B64Lenient
import Averin.Sign.Challenges
import Averin.Store.Ledger

/-!
# The gateway of a resource

A capability is read back and checked against the operation it is presented for: who issued
it, for which project, resource and action, when, and whether the one who presents it holds its
key. What a use consumes, and the evidence it leaves, follows from the checked capability.
-/

namespace Averin

/-- A truth value of a decoded struct. -/
def decodeBool : Option CanonValue → Option Bool
  | none | some .null => some false
  | some (.bool b) => some b
  | _ => none

/-- What a capability states. -/
structure Claims where
  version : Int
  projectId : String
  typ : String
  alg : String
  kid : String
  iss : String
  sub : String
  aud : String
  act : String
  jti : String
  scope : String
  cnf : String
  mode : String
  nbf : Int
  iat : Int
  exp : Int
  singleUse : Bool
  useLimit : Int
  deriving DecidableEq, Repr

/-- Read a descriptor. A member of another type refuses the whole. -/
def claimsOf (v : CanonValue) : Option Claims := do
  let v := CanonValue.obj (← decodeObj (some v))
  return {
    version := ← decodeInt (v.get "version")
    projectId := ← decodeStr (v.get "project_id")
    typ := ← decodeStr (v.get "typ")
    alg := ← decodeStr (v.get "alg")
    kid := ← decodeStr (v.get "kid")
    iss := ← decodeStr (v.get "iss")
    sub := ← decodeStr (v.get "sub")
    aud := ← decodeStr (v.get "aud")
    act := ← decodeStr (v.get "act")
    jti := ← decodeStr (v.get "jti")
    scope := ← decodeStr (v.get "scope")
    cnf := ← decodeStr (v.get "cnf")
    mode := ← decodeStr (v.get "mode")
    nbf := ← decodeInt (v.get "nbf")
    iat := ← decodeInt (v.get "iat")
    exp := ← decodeInt (v.get "exp")
    singleUse := ← decodeBool (v.get "single_use")
    useLimit := ← decodeInt (v.get "use_limit") }

/-- Read the text of a descriptor, without normalizing it. -/
def unmarshalClaims (payload : List UInt8) : Option Claims :=
  match parseDocument .identity payload with
  | .error _ => none
  | .ok v => claimsOf v

/-- What stands before and after the first dot. -/
def cutDot (s : String) : Option (String × String) :=
  match s.toList.span (· ≠ '.') with
  | (_, []) => none
  | (before, _ :: after) => some (.ofList before, .ofList after)

/-- Why a capability or a use of it is refused. -/
inductive UseRefusal where
  | malformedToken | malformedSignature | notIssued | malformedPayload | notADescriptor
  | projectRequired | projectMismatch | legacyProject | unsupportedVersion
  | lifetime | window | issuedInFuture | notYetValid | expired
  | audience | action | nonceRequired | badCnf | badUseSig | notPossessed
  | sequence (seq limit : Int)
  | revoked (grantId : String)
  | invalidClaim
  | nonceReplay
  | doubleSpend
  deriving DecidableEq, Repr

/-- The longest life of a capability, and how far clocks may differ, in seconds. -/
def maxTTL : Int := 3600

/-- How far a clock may be off, in seconds. -/
def requestClockSkew : Int := 30

/-- The largest time. -/
def maxInt64 : Int := 2 ^ 63 - 1

/-- `unicode.IsSpace`. -/
def isSpaceRune (c : Char) : Bool :=
  c.toNat ∈ [0x09, 0x0A, 0x0B, 0x0C, 0x0D, 0x20, 0x85, 0xA0, 0x1680, 0x2028, 0x2029, 0x202F, 0x205F,
    0x3000] || (0x2000 ≤ c.toNat && c.toNat ≤ 0x200A)

/-- Nothing is left of a text without the spaces around it. -/
def isBlank (s : String) : Bool := s.toList.all isSpaceRune

/-- The operation a capability is presented for. -/
structure Op where
  action : String
  paramsCommitment : String
  useSequenceNumber : Int

/-- The gateway: who issues for it, what it is, and the project of the request. -/
structure Shim where
  issuingPub : Vector UInt8 32
  resourceId : String
  projectId : String

/-- A checked capability with the proof of possession that came with it. -/
structure Preflight where
  claims : Claims
  unix : Int
  challenge : Vector UInt8 32
  cnfPub : Vector UInt8 32
  useSig : Vector UInt8 64
  bounded : Bool
  useSeq : Int

section Check

variable (sha256 : List UInt8 → Vector UInt8 32) (ed : Ed25519)

/-- The descriptor of a capability, if the key issued it. -/
def verifyCapability (token : String) (issuingPub : Vector UInt8 32) :
    Except UseRefusal Claims := do
  let (enc, sigB64) ← orFail (cutDot token) .malformedToken
  let sig ← orFail (B64.lenientFixed 64 sigB64) .malformedSignature
  require (ed.verifyStrict issuingPub (bytes enc) sig = true) .notIssued
  let payload ← orFail (B64.lenientDecode enc) .malformedPayload
  orFail (unmarshalClaims payload) .notADescriptor

/-- The hash of the descriptor a capability carries. -/
def credentialBindingOf (token : String) : Except UseRefusal String := do
  let (enc, _) ← orFail (cutDot token) .malformedToken
  let payload ← orFail (B64.lenientDecode enc) .malformedPayload
  return rootText (sha256 payload)

/-- The project of a capability is the one of the request. -/
def checkProject (s : Shim) (claims : Claims) : Except UseRefusal Unit := do
  require (s.projectId ≠ "") .projectRequired
  if claims.version = 2 then
    require (claims.projectId ≠ "" ∧ claims.projectId = s.projectId) .projectMismatch
  else if claims.version = 0 then .error .legacyProject
  else .error .unsupportedVersion

/-- The window of a capability is well formed, and the time lies in it. -/
def checkWindow (claims : Claims) (unix : Int) : Except UseRefusal Unit := do
  require (0 < claims.iat ∧ claims.iat ≤ maxInt64 - maxTTL ∧ claims.iat < claims.exp ∧
    claims.exp ≤ claims.iat + maxTTL) .lifetime
  require (claims.iat ≤ claims.nbf ∧ claims.nbf < claims.exp) .window
  require (0 ≤ unix ∧ unix ≤ maxInt64 - requestClockSkew ∧ claims.iat ≤ unix + requestClockSkew)
    .issuedInFuture
  require (claims.nbf ≤ unix) .notYetValid
  require (unix < claims.exp) .expired

/-- A capability with a limit is used under a number within it. -/
def checkSequence (claims : Claims) (op : Op) : Except UseRefusal Unit :=
  require (0 < claims.useLimit →
    1 ≤ op.useSequenceNumber ∧ op.useSequenceNumber ≤ claims.useLimit)
    (.sequence op.useSequenceNumber claims.useLimit)

/-- The number a use is counted under, zero where uses are not counted. -/
def usedSequence (claims : Claims) (op : Op) : Int :=
  if 0 < claims.useLimit then op.useSequenceNumber else 0

/-- The checks that look at nothing that is stored. -/
def preflightUse (s : Shim) (token useSigB64 : String) (op : Op) (nonce : String) (unix : Int) :
    Except UseRefusal Preflight := do
  let claims ← verifyCapability ed token s.issuingPub
  checkProject s claims
  checkWindow claims unix
  require (claims.aud = s.resourceId) .audience
  require (op.action ≠ "" ∧ op.action = claims.act) .action
  require (isBlank nonce = false) .nonceRequired
  let cnfPub ← orFail (B64.lenientFixed 32 claims.cnf) .badCnf
  let binding ← credentialBindingOf sha256 token
  let challenge := usePopChallenge sha256 claims.jti s.resourceId op.action op.paramsCommitment
    binding nonce
  let useSig ← orFail (B64.lenientFixed 64 useSigB64) .badUseSig
  require (ed.verifyStrict cnfPub challenge.toList useSig = true) .notPossessed
  checkSequence claims op
  return ⟨claims, unix, challenge, cnfPub, useSig, 0 < claims.useLimit, usedSequence claims op⟩

/-- The key a credential is spent under. -/
def consumeKey (jti : String) (useSeq : Int) : String :=
  if useSeq > 0 then jti ++ "#" ++ toString useSeq else jti

/-- The claim on the nonce. -/
def Preflight.nonceClaim (s : Shim) (nonce owner : String) : Except UseRefusal NonceClaim := do
  require (s.projectId ≠ "" ∧ s.resourceId ≠ "" ∧ nonce ≠ "") .invalidClaim
  return ⟨s.projectId, s.resourceId, nonce, owner⟩

/-- A credential that is spent is claimed, one that is not has no claim. -/
def Preflight.spends (c : Preflight) : Bool := c.claims.singleUse || c.bounded

/-- What a use claims of its grant. -/
def Preflight.jtiClaim (c : Preflight) (owner : String) : Except UseRefusal JTIClaim := do
  require (consumeKey c.claims.jti c.useSeq ≠ "") .invalidClaim
  return ⟨consumeKey c.claims.jti c.useSeq, owner⟩

/-- The evidence of a use. -/
structure UseEvidence where
  grantId : String
  action : String
  resourceId : String
  jti : String
  nonce : String
  popChallengeHash : String
  cnfKid : String
  ledgerCommitment : String
  usedAt : Int
  cnfPub : String
  useSig : String
  useSequenceNumber : Int
  deriving DecidableEq

/-- The evidence of a checked use. Keys and signatures are spelled anew from their bytes. -/
def Preflight.evidence (c : Preflight) (s : Shim) (op : Op) (nonce : String) : UseEvidence where
  grantId := c.claims.jti
  action := op.action
  resourceId := s.resourceId
  jti := c.claims.jti
  nonce := nonce
  popChallengeHash := rootText c.challenge
  cnfKid := cnfKid sha256 c.cnfPub
  ledgerCommitment := rootText (sha256 (ledgerCommitmentPreimage c.claims.jti nonce c.unix))
  usedAt := c.unix
  cnfPub := B64.encode c.cnfPub.toList
  useSig := B64.encode c.useSig.toList
  useSequenceNumber := c.useSeq

end Check

end Averin
