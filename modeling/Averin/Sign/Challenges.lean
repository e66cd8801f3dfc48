import Averin.Authority.Evidence
import Averin.Verify.RevocationTree
import Averin.Verify.Uses

/-!
# Challenges

The bytes behind the remaining signatures and digests: anchors, hiding commitments, the
entries of a resource's ledger, approvals, delegation hops, introspection transcripts and
certificates between brokers. Each begins with a length-prefixed tag of its own.
-/

namespace Averin

/-- What a digest text is signed for. -/
inductive SigPurpose where
  | record | checkpoint | taxonomy | revocationList | revocationListV2 | revocationRoot
  | revocationRootV2 | keyRotation
  deriving DecidableEq, Repr

/-- The text a purpose signs its subject under. -/
def SigPurpose.tag : SigPurpose → String
  | record => recordSigTag
  | checkpoint => checkpointSigTag
  | taxonomy => "averin.taxonomy.v1"
  | revocationList => "averin.revocation.v1"
  | revocationListV2 => "averin.revocation.v2"
  | revocationRoot => "averin.broker.revocation.merkleroot.v1"
  | revocationRootV2 => "averin.broker.revocation.merkleroot.v2"
  | keyRotation => "averin.key_rotation.v1"

/-- The tag of an external anchor. -/
def anchorTag : String := "averin.anchor.v1"

/-- What an anchor signs. The outcome of the framing is not looked at. -/
def anchorPreimage (checkpointHash anchoredTs : String) : List UInt8 :=
  lpOrNothing anchorTag ++ lpOrNothing checkpointHash ++ lpOrNothing anchoredTs

/-- The tag of a field commitment. -/
def commitTag : String := "averin.commit.v1"

/-- The bytes of a commitment's nonce. -/
def nonceLen : Nat := 32

/-- The fields a commitment may hide. -/
inductive FieldDomain where
  | input | output | rationale | credential
  deriving DecidableEq, Repr

/-- The name of a committed field. -/
def FieldDomain.asStr : FieldDomain → String
  | input => "input"
  | output => "output"
  | rationale => "rationale"
  | credential => "credential"

/-- Why a field is not committed. -/
inductive CommitError where
  | tooLong
  | badNonceLen (length : Nat)
  deriving DecidableEq, Repr

/-- The bytes of a commitment to a value under a nonce. -/
def commitPreimage (domain : FieldDomain) (value nonce : List UInt8) :
    Except CommitError (List UInt8) := do
  require (nonce.length = nonceLen) (.badNonceLen nonce.length)
  orFail (do
    let tag ← lpStrInto commitTag
    let field ← lpStrInto domain.asStr
    let n ← lpInto nonce
    let v ← lpInto value
    return tag ++ field ++ n ++ v) .tooLong

/-- A number as eight bytes; the sign goes into the top bit. -/
def be8Int (n : Int) : List UInt8 := be8 (n % 2 ^ 64).toNat

/-- What a use commits to in the ledger. -/
def ledgerCommitmentPreimage (jti nonce : String) (usedAt : Int) : List UInt8 :=
  (["averin.broker.use.ledger.v1", jti, nonce].flatMap fun part => lp4 (bytes part)) ++
    be8Int usedAt

/-- What an approver signs. -/
def cosigApprovalPreimage (grantId approverKid credentialBinding : String)
    (thresholdM exp : Int) : List UInt8 :=
  (["averin.broker.cosig.approval.v1", grantId, approverKid, credentialBinding].flatMap
    fun part => lp4 (bytes part)) ++ be8Int thresholdM ++ be8Int exp

/-- What a delegator signs over one hop. -/
def delegationHopPreimage (grantId : String) (hopIndex : Int)
    (delegatorKid delegateKid scope action resourceId : String) (exp : Int) : List UInt8 :=
  lp4 (bytes "averin.broker.delegation.hop.v1") ++ lp4 (bytes grantId) ++ be8Int hopIndex ++
    lp4 (bytes delegatorKid) ++ lp4 (bytes delegateKid) ++ lp4 (bytes scope) ++
    lp4 (bytes action) ++ lp4 (bytes resourceId) ++ be8Int exp

/-- What a resource signs over an introspection. -/
def introspectionTranscriptPreimage (grantId credentialRef effectiveScope resourceId : String)
    (introspectedAt effectiveExp : Int) : List UInt8 :=
  lp4 (bytes "averin.resource.introspection.v1") ++ lp4 (bytes grantId) ++
    lp4 (bytes credentialRef) ++ lp4 (bytes effectiveScope) ++ lp4 (bytes resourceId) ++
    be8Int introspectedAt ++ be8Int effectiveExp

/-- What one broker signs over another. -/
def federationCertPreimage (issuerBrokerId subjectBrokerId subjectKid scope resourceId : String)
    (notAfter : Int) : List UInt8 :=
  lp4 (bytes "averin.broker.federation.cert.v1") ++ lp4 (bytes issuerBrokerId) ++
    lp4 (bytes subjectBrokerId) ++ lp4 (bytes subjectKid) ++ lp4 (bytes scope) ++
    lp4 (bytes resourceId) ++ be8Int notAfter

end Averin
