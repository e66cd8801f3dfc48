import Averin.Sign.Signature
import Averin.Verify.HexText

/-!
# Authority evidence

An authority signs the subject of a record: the record without the envelope its recorder adds
later and without the signature itself. The third version of the evidence signs the digest of
that subject together with the identifiers of the record; the second version, which binds the
identifiers only, is still recognized where no trace of the third is present.
-/

namespace Averin

/-- The tag of the second version. -/
def authoritySigTag : String := "averin.authority.v2"

/-- The tag of the third version. -/
def authoritySigTagV3 : String := "averin.authority.v3"

/-- The name of the projection that is signed. -/
def subjectProjectionId : String := "averin.authority.subject.v1"

/-- The tag of the subject's digest. -/
def subjectHashTag : String := "averin.authority.subject.digest.v1"

/-- The envelope a recorder adds after the approval, and the proofs over the record. -/
def subjectTopExclusions : List String :=
  ["received_ts", "display_seq", "causal_prev_hashes", "key", "content_hash", "sig"]

/-- What the authority leaves out of its subject. -/
def subjectAuthorityExclusions : List String := ["evidence_sig", "subject_digest"]

/-- What a subject has to carry. -/
def subjectRequired : List String :=
  ["schema_version", "canon_version", "domain", "record_id", "project_id", "agent_id",
    "agent_version", "session_id", "span_id", "parent_span_id", "agent_ts", "event_type", "action",
    "observed_via", "status", "authority"]

/-- What is said of a record's authority. -/
inductive AuthorityTrust where
  | none | declared | verified | legacyUnbound | unverifiable | failed
  deriving DecidableEq, Repr

/-- A string member. -/
def CanonValue.strAt (v : CanonValue) (key : String) : Option String :=
  (v.get key).bind CanonValue.asStr

/-- The members of a record without the envelope, and with its authority replaced. -/
def subjectMembers (members : List (String × CanonValue)) (strippedAuthority : CanonValue) :
    List (String × CanonValue) :=
  members.filterMap fun (key, value) =>
    if subjectTopExclusions.contains key then none
    else if key = "authority" then some (key, strippedAuthority)
    else some (key, value)

/-- What the authority signs of a record, if the record has the profile it signs. -/
def subjectProjection (record : CanonValue) : Except String CanonValue := do
  let members ← orFail record.asObject "authority subject must be an object"
  require (∀ k ∈ subjectRequired, (record.get k).isSome = true)
    "authority subject is missing a required semantic field"
  require (record.strAt "schema_version" = some "2" ∧ record.strAt "canon_version" = some "rcp-1" ∧
      record.strAt "domain" = some "flightrecorder.record.v2")
    "authority subject has an unsupported record profile"
  require (∀ id ∈ ["record_id", "project_id", "session_id", "span_id", "agent_ts"],
      (record.strAt id).getD "" ≠ "")
    "authority subject has an empty required semantic value"
  require (∀ field ∈ ["agent_id", "agent_version", "event_type", "action", "observed_via",
      "status"], (record.strAt field).isSome = true)
    "authority subject has a non-string semantic field"
  require (∀ parent ∈ record.get "parent_span_id",
      parent.isNull = true ∨ parent.asStr.isSome = true)
    "authority subject has an invalid parent span"
  let authority ← orFail ((record.get "authority").bind CanonValue.asObject)
    "authority subject is missing authority object"
  require (((record.get "authority").bind (·.strAt "proof_version")) = some "v3" ∧
      ((record.get "authority").bind (·.strAt "subject_projection")) = some subjectProjectionId)
    "authority subject has an unsupported proof profile"
  let strippedAuthority := CanonValue.obj
    (authority.filter fun m => !subjectAuthorityExclusions.contains m.1)
  return .obj (subjectMembers members strippedAuthority)

/-- The bytes a subject digest is taken of. -/
def subjectDigestPreimage (N : Normalizer) (subject : CanonValue) : Except String (List UInt8) :=
  match lpStrInto subjectHashTag, lpStrInto subjectProjectionId with
  | some tag, some projection => .ok (tag ++ projection ++ (writeCanonical N subject).bytes)
  | _, _ => .error "authority subject framing overflow"

/-- Frame every text in turn; one that is too long stops the rest. -/
def lpAll : List String → Option (List UInt8)
  | [] => some []
  | s :: rest => do
    let b ← lpStrInto s
    let bs ← lpAll rest
    return b ++ bs

/-- What the third version of the evidence signs. -/
def authorityPreimageV3 (source projectId recordId evidenceHash digest : String) :
    Except String (List UInt8) :=
  orFail (lpAll [authoritySigTagV3, subjectProjectionId, source, projectId, recordId, evidenceHash,
    digest]) "authority v3 preimage framing overflow"

/-- A framed text, or nothing at all where it is too long: the outcome is not looked at. -/
def lpOrNothing (s : String) : List UInt8 := (lpStrInto s).getD []

/-- What the second version of the evidence signs; the digest text goes in raw. -/
def authorityPreimage (source projectId recordId evidenceHash : String) : List UInt8 :=
  lpOrNothing authoritySigTag ++ lpOrNothing source ++ lpOrNothing projectId ++
    lpOrNothing recordId ++ bytes evidenceHash

section Verification

variable (N : Normalizer) (sha256 : List UInt8 → Vector UInt8 32) (ed : Ed25519)

/-- The digest of the subject of a record. -/
def subjectDigest (record : CanonValue) : Except String String := do
  let subject ← subjectProjection record
  let preimage ← subjectDigestPreimage N subject
  return rootText (sha256 preimage)

/-- The message a record's evidence must sign and the trust it earns, by the version of the
proof; `none` for a malformed claim. -/
def authorityMessage (record authority : CanonValue) (source projectId recordId eh : String) :
    Option (List UInt8 × AuthorityTrust) :=
  match authority.get "proof_version" with
  | some version =>
    if version.asStr ≠ some "v3" then none
    else if authority.strAt "subject_projection" ≠ some subjectProjectionId then none
    else
      match authority.strAt "subject_digest" with
      | none => none
      | some digest =>
        if (parseSha256 digest).isNone ∨ (subjectDigest N sha256 record).toOption ≠ some digest then
          none
        else
          match authorityPreimageV3 source projectId recordId eh digest with
          | .error _ => none
          | .ok pre => some (pre, .verified)
  | none =>
    if (authority.get "subject_projection").isSome ∨ (authority.get "subject_digest").isSome then
      none
    else some (authorityPreimage source projectId recordId eh, .legacyUnbound)

/-- The trust in a record's authority and the key that earned it. -/
def verifyAuthorityWithKey (record : CanonValue) (trusted : List (Vector UInt8 32)) :
    AuthorityTrust × Option (Vector UInt8 32) :=
  match record.get "authority" with
  | none => (.none, none)
  | some authority =>
    let source := (authority.strAt "source").getD ""
    if source = "" then (.none, none)
    else if source = "caller_declared" then (.declared, none)
    else if source ∈ ["policy_engine_signed", "human_signed", "delegate_signed",
        "gateway_enforced"] then
      let recordId := (record.strAt "record_id").getD ""
      let projectId := (record.strAt "project_id").getD ""
      match authority.strAt "evidence_hash", authority.strAt "evidence_sig" with
      | some eh, some es =>
        if (parseSha256 eh).isNone ∨ recordId = "" ∨ projectId = "" then (.failed, none)
        else
          match (stripPrefix "ed25519:" es).bind (B64.decodeFixed 64) with
          | none => (.failed, none)
          | some sig =>
            match authorityMessage N sha256 record authority source projectId recordId eh with
            | none => (.failed, none)
            | some (pre, trust) =>
              if trusted.isEmpty then (.unverifiable, none)
              else
                match trusted.find? (ed.verifyStrict · pre sig) with
                | some vk => (trust, some vk)
                | none => (.failed, none)
      | _, _ => (.failed, none)
    else (.declared, none)

end Verification

end Averin
