import Averin.Authority.Evidence
import Averin.Canon.Json
import Averin.Server.Sealing
import Averin.Sign.Challenges

/-!
# What the server signs itself

The broker and the resource gateway build the bodies of their records. They derive the
identifiers from the request, hash the evidence and hide the values with the core, and sign the
authority of the finished body before it is sealed. None of it touches what the body says
elsewhere.
-/

namespace Averin

/-- The time and the identifiers that complete a body. -/
structure Stamp where
  now : String
  freshId : String
  freshSpan : String

section Core

variable (N : Normalizer) (sha256 : List UInt8 → Vector UInt8 32)

/-- The identifier of a record, which a retry derives again. -/
def uuidV5Shaped (space projectId idem : String) : String :=
  let sum := (sha256 (bytes (space ++ "\x00" ++ projectId ++ "\x00" ++ idem))).toList
  let b := (sum.take 16).mapIdx fun i x =>
    if i = 6 then x &&& 0x0F ||| 0x50 else if i = 8 then x &&& 0x3F ||| 0x80 else x
  let part start len := hexLower ((b.drop start).take len)
  part 0 4 ++ "-" ++ part 4 2 ++ "-" ++ part 6 2 ++ "-" ++ part 8 2 ++ "-" ++ part 10 6

/-- The hash of evidence, which the core parses first. -/
def rcpEvidenceHash (v : CanonValue) : Option String :=
  if v.depth ≤ maxDepth then some (rootText (sha256 (writeCanonical N v).bytes)) else none

/-- A hiding commitment, with the nonce as 64 hex digits. -/
def commitText (domain : FieldDomain) (value : List UInt8) (nonceHex : String) : Option String := do
  let nonce ← hex32 nonceHex
  let pre ← (commitPreimage domain value nonce.toList).toOption
  return rootText (sha256 pre)

variable {ed : Ed25519}

/-- The authority of a body without the proof, and with the profile of the proof. -/
def claimV3 (authority : CanonValue) : CanonValue :=
  ((authority.withoutKeys subjectAuthorityExclusions).withField "proof_version"
    (.str "v3")).withField "subject_projection" (.str subjectProjectionId)

/-- Complete a body and sign its authority, which must verify at once. -/
def signLocalAuthorityV3 (key : SigningKey ed) (stamp : Stamp) (body : CanonValue) :
    Option CanonValue := do
  let body := finalizeSemanticRecord stamp.now stamp.freshId stamp.freshSpan body
  let members ← (body.get "authority").bind CanonValue.asObject
  let authority := claimV3 (.obj members)
  if authority.strAt "source" ≠ some "gateway_enforced" then none
  else
    let claimed := body.withField "authority" authority
    let digest ← (subjectDigest N sha256 claimed).toOption
    let pre ← (authorityPreimageV3 "gateway_enforced" (textField claimed "project_id")
      (textField claimed "record_id") (textField authority "evidence_hash") digest).toOption
    let signed := claimed.withField "authority"
      ((authority.withField "subject_digest" (.str digest)).withField "evidence_sig"
        (.str (sigPrefix ++ B64.encode (key.sign pre).toList)))
    if (verifyAuthorityWithKey N sha256 ed signed [key.verifyingKey]).1 = .verified then
      some signed
    else none

variable {N sha256} {key : SigningKey ed} {stamp : Stamp} {body signed : CanonValue} {k : String}

/-- The claim keeps what the authority says. -/
theorem get_claimV3 {authority : CanonValue} (h : k ∉ subjectAuthorityExclusions)
    (hversion : k ≠ "proof_version") (hprojection : k ≠ "subject_projection") :
    (claimV3 authority).get k = authority.get k := by
  rw [claimV3, CanonValue.get_withField_of_ne hprojection, CanonValue.get_withField_of_ne hversion,
    CanonValue.get_withoutKeys h]

/-- Signing changes the authority and what completing the body changes. -/
theorem signLocalAuthorityV3_cases
    (h : signLocalAuthorityV3 N sha256 key stamp body = some signed) :
    ∃ authority digest sig, (finalizeSemanticRecord stamp.now stamp.freshId stamp.freshSpan
        body).get "authority" = some (.obj authority) ∧
      signed = ((finalizeSemanticRecord stamp.now stamp.freshId stamp.freshSpan body).withField
        "authority" (claimV3 (.obj authority))).withField "authority"
          (((claimV3 (.obj authority)).withField "subject_digest" (.str digest)).withField
            "evidence_sig" (.str sig)) := by
  unfold signLocalAuthorityV3 at h
  dsimp only at h
  obtain ⟨authority, hauthority, h⟩ := Option.bind_eq_some_iff.mp h
  obtain ⟨v, hv, hobj⟩ := Option.bind_eq_some_iff.mp hauthority
  split_ifs at h
  obtain ⟨digest, -, h⟩ := Option.bind_eq_some_iff.mp h
  obtain ⟨pre, -, h⟩ := Option.bind_eq_some_iff.mp h
  split_ifs at h
  refine ⟨authority, digest, _, ?_, (Option.some.inj h).symm⟩
  rw [hv]
  cases v with
  | obj members => rw [CanonValue.asObject, Option.some.injEq] at hobj; rw [hobj]
  | null | bool _ | int _ | str _ | arr _ => cases hobj

/-- What a handler put into the body stays there. -/
theorem get_signLocalAuthorityV3 (h : signLocalAuthorityV3 N sha256 key stamp body = some signed)
    (hext : (body.get "extensions").bind (·.get "feir_evidence") = none) (hk : k ∈ keptKeys)
    (hauthority : k ≠ "authority") : signed.get k = body.get k := by
  obtain ⟨authority, digest, sig, -, hsigned⟩ := signLocalAuthorityV3_cases h
  rw [hsigned, CanonValue.get_withField_of_ne hauthority, CanonValue.get_withField_of_ne hauthority]
  exact get_finalizeSemanticRecord hk hext

/-- An identifier that is there stays. -/
theorem get_signLocalAuthorityV3_recordId
    (h : signLocalAuthorityV3 N sha256 key stamp body = some signed)
    (hid : textField body "record_id" ≠ "") : signed.get "record_id" = body.get "record_id" := by
  obtain ⟨authority, digest, sig, -, hsigned⟩ := signLocalAuthorityV3_cases h
  rw [hsigned, CanonValue.get_withField_of_ne (by decide),
    CanonValue.get_withField_of_ne (by decide), recordId_finalizeSemanticRecord hid]

/-- The authority keeps what it says besides its proof. -/
theorem get_authority_signLocalAuthorityV3
    (h : signLocalAuthorityV3 N sha256 key stamp body = some signed)
    (hext : (body.get "extensions").bind (·.get "feir_evidence") = none)
    (hk : k ∉ subjectAuthorityExclusions) (hversion : k ≠ "proof_version")
    (hprojection : k ≠ "subject_projection") :
    (signed.get "authority").bind (·.get k) = (body.get "authority").bind (·.get k) := by
  obtain ⟨authority, digest, sig, hauthority, hsigned⟩ := signLocalAuthorityV3_cases h
  rw [get_finalizeSemanticRecord (by decide) hext] at hauthority
  have hobj : ∃ members, (finalizeSemanticRecord stamp.now stamp.freshId stamp.freshSpan
      body).withField "authority" (claimV3 (.obj authority)) = .obj members := by
    have hget : (finalizeSemanticRecord stamp.now stamp.freshId stamp.freshSpan body).get
        "authority" = some (.obj authority) := by
      rw [get_finalizeSemanticRecord (by decide) hext, hauthority]
    cases hbody : finalizeSemanticRecord stamp.now stamp.freshId stamp.freshSpan body with
    | obj members => exact ⟨_, rfl⟩
    | null | bool _ | int _ | str _ | arr _ => rw [hbody] at hget; cases hget
  obtain ⟨members, hmembers⟩ := hobj
  simp only [subjectAuthorityExclusions, List.mem_cons, List.not_mem_nil, or_false, not_or] at hk
  rw [hsigned, hmembers, CanonValue.get_withField_self, hauthority, Option.bind_some,
    Option.bind_some, CanonValue.get_withField_of_ne hk.1, CanonValue.get_withField_of_ne hk.2]
  exact get_claimV3 (by simp [subjectAuthorityExclusions, hk.1, hk.2]) hversion hprojection

end Core

end Averin
