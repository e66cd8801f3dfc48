import Averin.Sign.Signature
import Averin.Verify.HexText

/-!
# Sealing and verifying records

A record is sealed by hashing its body without the hash and the signature, signing the digest
text and putting both into the body. Verification checks the shape, the pinned domain and
version, the hash and the signature, each where the sealer put it.
-/

namespace Averin

/-- The version of the canonical form. -/
def canonVersion : String := "rcp-1"

/-- Why a record is not sealed, or does not verify. -/
inductive RecordError where
  | notObject
  | missingField (key : String)
  | fieldNotString (key : String)
  | domainMismatch (expected found : String)
  | canonVersionMismatch (expected found : String)
  | tooLong
  | contentHashMismatch (expected computed : String)
  | signatureInvalid (e : SigError)
  | unknownField (key : String)
  | duplicateKey
  deriving DecidableEq, Repr

/-- The error of a record whose preimage is not made. -/
def PreimageFault.intoRecordError : PreimageFault → RecordError
  | notObject => .notObject
  | missingDomain => .missingField "domain"
  | domainNotString => .fieldNotString "domain"
  | missingCanonVersion => .missingField "canon_version"
  | canonVersionNotString => .fieldNotString "canon_version"
  | tooLong => .tooLong
  | duplicateKey => .duplicateKey

/-- The closed set of top-level keys of a record. -/
def allowedTopKeys : List String :=
  ["schema_version", "canon_version", "domain", "record_id", "project_id", "agent_id",
    "agent_version", "session_id", "span_id", "parent_span_id", "causal_prev_hashes",
    "display_seq", "agent_ts", "received_ts", "anchored_ts", "event_type", "record_kind", "action",
    "observed_via", "input_commit", "output_commit", "rationale_commit", "credential_commit",
    "status", "tokens", "cost_micros_usd", "authority", "content", "content_hash", "sig", "key",
    "framework", "extensions"]

/-- What every record has to carry. -/
def requiredTopKeys : List String :=
  ["schema_version", "canon_version", "domain", "record_id", "project_id", "agent_id",
    "agent_version", "session_id", "span_id", "parent_span_id", "causal_prev_hashes",
    "display_seq", "agent_ts", "received_ts", "event_type", "action", "observed_via", "status",
    "content_hash", "sig", "key"]

/-- No unknown key at the top level, and every required one. -/
def validateRecordShape (record : CanonValue) : Except RecordError Unit := do
  let members ← orFail record.asObject .notObject
  members.forM fun m => require (m.1 ∈ allowedTopKeys) (.unknownField m.1)
  requiredTopKeys.forM fun req => require ((record.get req).isSome = true) (.missingField req)

/-- A string member of a record. -/
def recordStr (obj : CanonValue) (key : String) : Except RecordError String := do
  let v ← orFail (obj.get key) (.missingField key)
  orFail v.asStr (.fieldNotString key)

/-- The domain and the version are the given ones. -/
def checkPins (domain : String) (value : CanonValue) : Except RecordError Unit := do
  let found ← recordStr value "domain"
  require (found = domain) (.domainMismatch domain found)
  let cv ← recordStr value "canon_version"
  require (cv = canonVersion) (.canonVersionMismatch canonVersion cv)

/-- The members with `key` set: overwritten where it stands first, else appended. -/
def setMember (key : String) (value : CanonValue) :
    List (String × CanonValue) → List (String × CanonValue)
  | [] => [(key, value)]
  | m :: members =>
    if m.1 = key then (m.1, value) :: members else m :: setMember key value members

/-- Set a member of an object. The source stops on a value that is none, where it is never
called. -/
def CanonValue.withField (v : CanonValue) (key : String) (value : CanonValue) : CanonValue :=
  match v with
  | .obj members => .obj (setMember key value members)
  | other => other

/-- The body with its old hash and signature dropped and the new ones set. -/
def CanonValue.putSeal (body : CanonValue) (hashKey contentHash sig : String) : CanonValue :=
  let stripped := body.withoutKeys [hashKey, "sig"]
  (stripped.withField hashKey (.str contentHash)).withField "sig" (.str sig)

/-- What sealing does with a body that would not verify. -/
inductive SealShapeMode where
  | enforce | shadow
  deriving DecidableEq, Repr

section Sealing

variable (N : Normalizer) (sha256 : List UInt8 → Vector UInt8 32)

/-- The hash of a body without the stripped members, as text. -/
def hashBody (value : CanonValue) (strip : List String) : Except RecordError String :=
  match bodyPreimage N value strip with
  | .error fault => .error fault.intoRecordError
  | .ok preimage => .ok (rootText (sha256 preimage))

/-- The hash of a record's body. -/
def computeContentHash (record : CanonValue) : Except RecordError String :=
  hashBody N sha256 record recordStrip

/-- The hash a record carries is that of its body. -/
def verifyContentHash (record : CanonValue) : Except RecordError Unit := do
  checkPins recordDomain record
  let stored ← recordStr record "content_hash"
  let computed ← computeContentHash N sha256 record
  require (stored = computed) (.contentHashMismatch stored computed)

/-- A sealed record still has the shape of a record. -/
def checkSealedShape (sealed : CanonValue) : Except RecordError Unit := do
  validateRecordShape sealed
  checkPins recordDomain sealed

variable {ed : Ed25519}

/-- A tag that fits its length prefix is always signed. -/
theorem isSome_signText {tag : String} (h : (bytes tag).length ≤ maxLpLen) (text : String)
    (sk : SigningKey ed) : (signText tag text sk).isSome = true := by
  rw [signText, signPreimage, lpStrInto_eq_some_iff.mpr ⟨h, rfl⟩]
  rfl

/-- Hash, sign, and put both into the body. -/
def sealUnchecked (record : CanonValue) (sk : SigningKey ed) : Except RecordError CanonValue := do
  let contentHash ← computeContentHash N sha256 record
  let sig := (signText recordSigTag contentHash sk).get (isSome_signText (by decide) _ sk)
  return record.putSeal "content_hash" contentHash sig

/-- Seal a record; the mode says whether one that would not verify is refused. -/
def sealWithMode (record : CanonValue) (sk : SigningKey ed) (mode : SealShapeMode) :
    Except RecordError CanonValue := do
  let sealed ← sealUnchecked N sha256 record sk
  match checkSealedShape sealed, mode with
  | .error e, .enforce => .error e
  | _, _ => return sealed

/-- Seal a record that will verify. -/
def sealRecord (record : CanonValue) (sk : SigningKey ed) : Except RecordError CanonValue :=
  sealWithMode N sha256 record sk .enforce

variable (ed)

/-- A signature check whose error is one of a record. -/
def verifyTextAs (tag contentHash sig : String) (vk : Vector UInt8 32) : Except RecordError Unit :=
  match verifyText ed tag contentHash sig vk with
  | .error e => .error (.signatureInvalid e)
  | .ok () => .ok ()

/-- The signature is the key's over the hash. -/
def verifySignature (record : CanonValue) (vk : Vector UInt8 32) : Except RecordError Unit := do
  let contentHash ← recordStr record "content_hash"
  let sig ← recordStr record "sig"
  verifyTextAs ed recordSigTag contentHash sig vk

/-- Shape, domain and version, hash and signature of a sealed record. -/
def verifySealed (record : CanonValue) (vk : Vector UInt8 32) : Except RecordError Unit := do
  validateRecordShape record
  verifyContentHash N sha256 record
  verifySignature ed record vk

end Sealing

namespace CanonValue

variable {v x : CanonValue} {k k' : String} {keys keys' : List String}

/-- A member that was set is read back. -/
theorem get_withField_self {members : List (String × CanonValue)} :
    ((obj members).withField k x).get k = some x := by
  simp only [withField, get, member]
  induction members with
  | nil => simp [setMember]
  | cons m members ih =>
    rw [setMember]
    split_ifs with hm
    · simp [hm]
    · rw [List.find?_cons_of_neg (by simpa using hm)]
      exact ih

/-- The others stay as they are. -/
theorem get_withField_of_ne (h : k' ≠ k) : (v.withField k x).get k' = v.get k' := by
  cases v with
  | obj members =>
    simp only [withField, get, member]
    congr 1
    induction members with
    | nil => simp [setMember, h.symm]
    | cons m members ih =>
      rw [setMember]
      split_ifs with hm
      · rw [List.find?_cons_of_neg (by simpa [hm] using h.symm),
          List.find?_cons_of_neg (by simpa [hm] using h.symm)]
      · rw [List.find?_cons, List.find?_cons, ih]
  | _ => rfl

/-- A member that is dropped may have been set to anything. -/
theorem withoutKeys_withField (h : k ∈ keys) :
    (v.withField k x).withoutKeys keys = v.withoutKeys keys := by
  cases v with
  | obj members =>
    simp only [withField, withoutKeys, obj.injEq]
    induction members with
    | nil => simp [setMember, h]
    | cons m members ih =>
      rw [setMember]
      split_ifs with hm
      · simp [hm, h]
      · rw [List.filter_cons, List.filter_cons, ih]
  | _ => rfl

/-- A key that is not removed stays. -/
theorem get_withoutKeys (h : k ∉ keys) : (v.withoutKeys keys).get k = v.get k := by
  cases v with
  | obj members =>
    simp only [withoutKeys, get, member, List.find?_filter]
    congr 2
    ext m
    by_cases hm : m.1 = k <;> simp [hm, h]
  | _ => rfl

/-- Removing more keys removes the first ones too. -/
theorem withoutKeys_withoutKeys (h : keys ⊆ keys') :
    (v.withoutKeys keys).withoutKeys keys' = v.withoutKeys keys' := by
  cases v with
  | obj members =>
    simp only [withoutKeys, List.filter_filter, obj.injEq]
    apply List.filter_congr
    intro m _
    by_cases hm : m.1 ∈ keys'
    · simp [hm]
    · have hm' : m.1 ∉ keys := fun hk => hm (h hk)
      simp [hm, hm']
  | _ => rfl

variable {hashKey contentHash sig : String} {members : List (String × CanonValue)}

/-- A new member is put last. -/
theorem setMember_of_forall_ne {ms : List (String × CanonValue)} (h : ∀ m ∈ ms, m.1 ≠ k) :
    setMember k x ms = ms ++ [(k, x)] := by
  induction ms with
  | nil => rfl
  | cons m ms ih =>
    rw [List.forall_mem_cons] at h
    rw [setMember, if_neg h.1, ih h.2, List.cons_append]

/-- The hash and the signature go to the end. -/
theorem putSeal_obj (h : hashKey ≠ "sig") :
    (obj members).putSeal hashKey contentHash sig =
      obj (members.filter (fun m => !([hashKey, "sig"].contains m.1)) ++
        [(hashKey, .str contentHash), ("sig", .str sig)]) := by
  have hkept : ∀ m ∈ members.filter (fun m => !([hashKey, "sig"].contains m.1)),
      m.1 ≠ hashKey ∧ m.1 ≠ "sig" := by
    intro m hm
    simpa using (List.mem_filter.mp hm).2
  rw [putSeal, withoutKeys, withField, withField,
    setMember_of_forall_ne fun m hm => (hkept m hm).1, setMember_of_forall_ne, List.append_assoc]
  · rfl
  · intro m hm
    rcases List.mem_append.mp hm with hm | hm
    · exact (hkept m hm).2
    · rw [List.mem_singleton.mp hm]
      exact h

theorem get_putSeal_hash (h : hashKey ≠ "sig") :
    ((obj members).putSeal hashKey contentHash sig).get hashKey = some (.str contentHash) := by
  rw [putSeal, get_withField_of_ne h]
  exact get_withField_self

theorem get_putSeal_sig :
    ((obj members).putSeal hashKey contentHash sig).get "sig" = some (.str sig) :=
  get_withField_self

theorem get_putSeal_of_ne (h : k ≠ hashKey) (hsig : k ≠ "sig") :
    (v.putSeal hashKey contentHash sig).get k = v.get k := by
  rw [putSeal, get_withField_of_ne hsig, get_withField_of_ne h, get_withoutKeys (by simp [h, hsig])]

/-- Nothing that is hashed is touched by sealing. -/
theorem withoutKeys_putSeal (hhash : hashKey ∈ keys) (hsig : "sig" ∈ keys) :
    (v.putSeal hashKey contentHash sig).withoutKeys keys = v.withoutKeys keys := by
  rw [putSeal, withoutKeys_withField hsig, withoutKeys_withField hhash,
    withoutKeys_withoutKeys (by simp [hhash, hsig])]

end CanonValue

/-- The preimage depends on the domain, the version and the members that are kept. -/
theorem bodyPreimage_congr {N : Normalizer} {v v' : CanonValue} {strip : List String}
    (hdomain : v'.get "domain" = v.get "domain")
    (hversion : v'.get "canon_version" = v.get "canon_version")
    (hkept : v'.withoutKeys strip = v.withoutKeys strip) :
    bodyPreimage N v' strip = bodyPreimage N v strip := by
  rw [CanonValue.get, CanonValue.get] at hdomain hversion
  cases v <;> cases v' <;> first | rfl | cases hkept | skip
  simp only [bodyPreimage, hdomain, hversion, writeObject_eq, hkept]
  rfl

/-- The hash depends on the pins and on what is not stripped. -/
theorem hashBody_congr {N : Normalizer} {sha256 : List UInt8 → Vector UInt8 32}
    {v v' : CanonValue} {strip : List String} (hdomain : v'.get "domain" = v.get "domain")
    (hversion : v'.get "canon_version" = v.get "canon_version")
    (hkept : v'.withoutKeys strip = v.withoutKeys strip) :
    hashBody N sha256 v' strip = hashBody N sha256 v strip := by
  rw [hashBody, hashBody, bodyPreimage_congr hdomain hversion hkept]

section Accepted

variable {N : Normalizer} {sha256 : List UInt8 → Vector UInt8 32} {ed : Ed25519}

/-- A text is read where there is one. -/
theorem bind_asStr_eq_some_iff {x : Option CanonValue} {s : String} :
    x.bind CanonValue.asStr = some s ↔ x = some (.str s) := by
  rcases x with _ | v
  · simp
  · cases v <;> simp [CanonValue.asStr]

theorem recordStr_eq_ok_iff {obj : CanonValue} {key s : String} :
    recordStr obj key = .ok s ↔ obj.get key = some (.str s) := by
  rw [← bind_asStr_eq_some_iff, Option.bind_eq_some_iff]
  simp only [recordStr, bind_eq_ok_iff, orFail_eq_ok_iff]

/-- The pins are those of the domain and the version. -/
theorem checkPins_eq_ok_iff {domain : String} {value : CanonValue} {u : Unit} :
    checkPins domain value = .ok u ↔
      value.get "domain" = some (.str domain) ∧
        value.get "canon_version" = some (.str canonVersion) := by
  simp only [checkPins, bind_eq_ok_iff, recordStr_eq_ok_iff, require_eq_ok_iff]
  constructor
  · rintro ⟨_, hd, _, rfl, _, hc, rfl⟩
    exact ⟨hd, hc⟩
  · rintro ⟨hd, hc⟩
    exact ⟨_, hd, (), rfl, _, hc, rfl⟩

/-- A record has the required keys and only allowed ones. -/
theorem validateRecordShape_eq_ok_iff {record : CanonValue} {u : Unit} :
    validateRecordShape record = .ok u ↔
      (∃ members, record = .obj members ∧ ∀ m ∈ members, m.1 ∈ allowedTopKeys) ∧
        ∀ req ∈ requiredTopKeys, (record.get req).isSome = true := by
  simp only [validateRecordShape, bind_eq_ok_iff, orFail_eq_ok_iff]
  constructor
  · rintro ⟨members, hobj, _, hkeys, hreq⟩
    cases record <;> cases hobj
    exact ⟨⟨members, rfl, fun m hm => require_eq_ok_iff.mp (forM_eq_ok_iff.mp hkeys m hm)⟩,
      fun req hmem => require_eq_ok_iff.mp (forM_eq_ok_iff.mp hreq req hmem)⟩
  · rintro ⟨⟨members, rfl, hkeys⟩, hreq⟩
    exact ⟨members, rfl, (), forM_eq_ok_iff.mpr fun m hm => require_eq_ok_iff.mpr (hkeys m hm),
      forM_eq_ok_iff.mpr fun req hmem => require_eq_ok_iff.mpr (hreq req hmem)⟩

/-- A text verifies as a record error exactly when it verifies. -/
theorem verifyTextAs_eq_ok_iff {tag contentHash sig : String} {vk : Vector UInt8 32} {u : Unit} :
    verifyTextAs ed tag contentHash sig vk = .ok u ↔
      verifyText ed tag contentHash sig vk = .ok () := by
  unfold verifyTextAs
  split
  · next e he => simp [he]
  · next he => simp [he]

/-- A record verifies if it has the shape and the pins, and its own hash, signed. -/
theorem verifySealed_eq_ok_iff {record : CanonValue} {vk : Vector UInt8 32} {u : Unit} :
    verifySealed N sha256 ed record vk = .ok u ↔
      checkSealedShape record = .ok () ∧
        ∃ contentHash sig, record.get "content_hash" = some (.str contentHash) ∧
          record.get "sig" = some (.str sig) ∧
          computeContentHash N sha256 record = .ok contentHash ∧
          verifyText ed recordSigTag contentHash sig vk = .ok () := by
  simp only [verifySealed, verifyContentHash, verifySignature, checkSealedShape, bind_eq_ok_iff,
    recordStr_eq_ok_iff, require_eq_ok_iff, verifyTextAs_eq_ok_iff]
  constructor
  · rintro ⟨_, hshape, _, ⟨_, hpins, ch, hch, _, hcomputed, rfl⟩, ch', hch', sig, hsig, hverify⟩
    obtain rfl : ch' = ch := by simpa [hch] using hch'.symm
    exact ⟨⟨_, hshape, hpins⟩, ch', sig, hch, hsig, hcomputed, hverify⟩
  · rintro ⟨⟨_, hshape, hpins⟩, ch, sig, hch, hsig, hcomputed, hverify⟩
    exact ⟨_, hshape, (), ⟨_, hpins, ch, hch, ch, hcomputed, rfl⟩, ch, hch, sig, hsig, hverify⟩

/-- What a key signs, it verifies. -/
theorem verifyText_of_signText {tag text sig : String} {sk : SigningKey ed}
    (h : signText tag text sk = some sig) :
    verifyText ed tag text sig sk.verifyingKey = .ok () := by
  obtain ⟨msg, hmsg, rfl⟩ := Option.map_eq_some_iff.mp h
  simp only [verifyText, bind_eq_ok_iff, orFail_eq_ok_iff, require_eq_ok_iff]
  exact ⟨_, stripPrefix_append _ _, _, B64.decodeFixed_encode _, msg, hmsg, sk.correct msg⟩

/-- A sealed record is the body with its hash and its signature put in, and has the shape
verification asks for. -/
theorem sealRecord_eq_ok_iff {body sealed : CanonValue} {sk : SigningKey ed} :
    sealRecord N sha256 body sk = .ok sealed ↔
      ∃ contentHash sig, computeContentHash N sha256 body = .ok contentHash ∧
        signText recordSigTag contentHash sk = some sig ∧
        sealed = body.putSeal "content_hash" contentHash sig ∧
        checkSealedShape sealed = .ok () := by
  simp only [sealRecord, sealWithMode, sealUnchecked, bind_eq_ok_iff]
  constructor
  · rintro ⟨sealed', ⟨ch, hch, hsealed⟩, hmode⟩
    split at hmode
    · cases hmode
    · next hnot =>
      obtain rfl := Except.ok.inj hmode
      refine ⟨ch, _, hch, (Option.some_get _).symm, (Except.ok.inj hsealed).symm, ?_⟩
      cases hshape : checkSealedShape sealed' with
      | error e => exact absurd rfl (hnot e hshape)
      | ok u => rfl
  · rintro ⟨ch, sig, hch, hsig, rfl, hshape⟩
    refine ⟨_, ⟨ch, hch, rfl⟩, ?_⟩
    simp only [hsig, Option.get_some, hshape]
    rfl

/-- A body has the shape of a record once its hash and its signature are put in. -/
theorem checkSealedShape_of_body {members : List (String × CanonValue)} {contentHash sig : String}
    (hkeys : ∀ m ∈ members, m.1 ∈ allowedTopKeys)
    (hreq : ∀ req ∈ requiredTopKeys, req ≠ "content_hash" → req ≠ "sig" →
      ((CanonValue.obj members).get req).isSome = true)
    (hd : (CanonValue.obj members).get "domain" = some (.str recordDomain))
    (hc : (CanonValue.obj members).get "canon_version" = some (.str canonVersion)) :
    checkSealedShape ((CanonValue.obj members).putSeal "content_hash" contentHash sig) =
      .ok () := by
  simp only [checkSealedShape, bind_eq_ok_iff, validateRecordShape_eq_ok_iff, checkPins_eq_ok_iff]
  refine ⟨(), ⟨⟨_, CanonValue.putSeal_obj (by decide), ?_⟩, ?_⟩, ?_, ?_⟩
  · intro m hm
    rcases List.mem_append.mp hm with hm | hm
    · exact hkeys m (List.mem_of_mem_filter hm)
    · simp only [List.mem_cons, List.not_mem_nil, or_false] at hm
      rcases hm with rfl | rfl <;> simp [allowedTopKeys]
  · intro req hmem
    by_cases hhash : req = "content_hash"
    · rw [hhash, CanonValue.get_putSeal_hash (by decide)]
      rfl
    by_cases hsig : req = "sig"
    · rw [hsig, CanonValue.get_putSeal_sig]
      rfl
    · rw [CanonValue.get_putSeal_of_ne hhash hsig]
      exact hreq req hmem hhash hsig
  · rw [CanonValue.get_putSeal_of_ne (by decide) (by decide), hd]
  · rw [CanonValue.get_putSeal_of_ne (by decide) (by decide), hc]

/-- The shape survives another seal. -/
theorem checkSealedShape_putSeal {v : CanonValue} {contentHash sig : String}
    (h : checkSealedShape v = .ok ()) :
    checkSealedShape (v.putSeal "content_hash" contentHash sig) = .ok () := by
  simp only [checkSealedShape, bind_eq_ok_iff, validateRecordShape_eq_ok_iff,
    checkPins_eq_ok_iff] at h
  obtain ⟨-, ⟨⟨members, rfl, hkeys⟩, hreq⟩, hd, hc⟩ := h
  exact checkSealedShape_of_body hkeys (fun req hmem _ _ => hreq req hmem) hd hc

end Accepted

end Averin
