import Averin.Canon.Equivalence
import Averin.Core.Framing

/-!
# Hash preimages

The bytes a seal commits to: the domain and the profile version, each with a length in
front, and then the canonical text of the body without the members that cannot cover
themselves. Two bodies share these bytes only if they say the same thing.
-/

namespace Averin

/-- The domain of a record. -/
def recordDomain : String := "flightrecorder.record.v2"

/-- The domain of a checkpoint. -/
def checkpointDomain : String := "flightrecorder.checkpoint.v2"

/-- Why a body has no hash preimage. -/
inductive PreimageFault where
  | notObject | missingDomain | domainNotString | missingCanonVersion | canonVersionNotString
  | tooLong | duplicateKey
  deriving DecidableEq, Repr

/-- The largest length a 4-byte prefix can hold. -/
def maxLpLen : Nat := 4294967295

/-- A byte string behind its 4-byte length, or `none` if the length does not fit. -/
def lpInto (b : List UInt8) : Option (List UInt8) :=
  if maxLpLen < b.length then none else some (framed 4 b)

/-- Length-prefix the UTF-8 bytes of a string. -/
def lpStrInto (s : String) : Option (List UInt8) := lpInto (bytes s)

/-- The exact bytes that are hashed: both length-prefixed constants, read from the body,
and the canonical body without the stripped keys. -/
def bodyPreimage (N : Normalizer) (value : CanonValue) (strip : List String) :
    Except PreimageFault (List UInt8) :=
  match value with
  | .obj members =>
    match value.member "domain" with
    | none => .error .missingDomain
    | some (.str domain) =>
      match value.member "canon_version" with
      | none => .error .missingCanonVersion
      | some (.str canonVersion) =>
        match lpStrInto domain, lpStrInto canonVersion with
        | some d, some c =>
          let body := writeObject N members strip
          if body.unique then .ok (d ++ c ++ body.bytes) else .error .duplicateKey
        | _, _ => .error .tooLong
      | some _ => .error .canonVersionNotString
    | some _ => .error .domainNotString
  | _ => .error .notObject

/-- What a record leaves out of its preimage. -/
def recordStrip : List String := ["content_hash", "sig"]

/-- What a checkpoint leaves out of its preimage. -/
def checkpointStrip : List String := ["anchor", "checkpoint_hash", "sig"]

/-- The bytes a record's hash is of. -/
def recordPreimage (N : Normalizer) (body : CanonValue) : Except PreimageFault (List UInt8) :=
  bodyPreimage N body recordStrip

/-- The bytes a checkpoint's hash is of. -/
def checkpointPreimage (N : Normalizer) (cp : CanonValue) : Except PreimageFault (List UInt8) :=
  bodyPreimage N cp checkpointStrip

/-- A text is framed when its length fits the field. -/
theorem lpStrInto_eq_some_iff {s : String} {w : List UInt8} :
    lpStrInto s = some w ↔ (bytes s).length ≤ maxLpLen ∧ w = framed 4 (bytes s) := by
  unfold lpStrInto lpInto
  split_ifs with h
  · simp only [false_iff]
    omega
  · simp only [Option.some.injEq, eq_comm (a := framed 4 (bytes s))]
    exact ⟨fun hw => ⟨by omega, hw⟩, fun hw => hw.2⟩

/-- Writing without the stripped keys is writing the stripped object. -/
theorem writeObject_eq (N : Normalizer) (members : List (String × CanonValue))
    (strip : List String) :
    writeObject N members strip = writeCanonical N ((CanonValue.obj members).withoutKeys strip) :=
  rfl

/-- A body has a preimage exactly when it is an object that names its domain and version
in strings short enough to frame and repeats no key outside the stripped members. -/
theorem bodyPreimage_eq_ok_iff {N : Normalizer} {v : CanonValue} {strip : List String}
    {p : List UInt8} :
    bodyPreimage N v strip = .ok p ↔
      ∃ d c, v.member "domain" = some (.str d) ∧ v.member "canon_version" = some (.str c) ∧
        (bytes d).length ≤ maxLpLen ∧ (bytes c).length ≤ maxLpLen ∧
        DistinctNfcKeys N (v.withoutKeys strip) ∧
        p = framed 4 (bytes d) ++ (framed 4 (bytes c) ++
          (writeCanonical N (v.withoutKeys strip)).bytes) := by
  rw [← writeCanonical_unique]
  constructor
  · intro h
    unfold bodyPreimage at h
    split at h <;> try cases h
    split at h <;> try cases h
    split at h <;> try cases h
    split at h <;> try cases h
    rename_i members _ domain hd _ canonVersion hc _ _ d c hld hlc
    dsimp only at h
    rw [writeObject_eq] at h
    split_ifs at h with hu
    obtain ⟨hdl, rfl⟩ := lpStrInto_eq_some_iff.mp hld
    obtain ⟨hcl, rfl⟩ := lpStrInto_eq_some_iff.mp hlc
    exact ⟨domain, canonVersion, hd, hc, hdl, hcl, hu, by
      rw [← Except.ok.inj h, List.append_assoc]⟩
  · rintro ⟨d, c, hd, hc, hdl, hcl, hu, rfl⟩
    cases v with
    | obj members =>
      simp only [bodyPreimage, hd, hc, lpStrInto_eq_some_iff.mpr ⟨hdl, rfl⟩,
        lpStrInto_eq_some_iff.mpr ⟨hcl, rfl⟩, writeObject_eq, hu, if_true, List.append_assoc]
    | _ => cases hd

/-- Equal preimages: the same domain and version to the byte, and the same stripped body. -/
theorem bodyPreimage_eq_iff {N : Normalizer} {a b : CanonValue} {strip strip' : List String}
    {p q : List UInt8} (hp : bodyPreimage N a strip = .ok p)
    (hq : bodyPreimage N b strip' = .ok q) :
    p = q ↔ a.get "domain" = b.get "domain" ∧ a.get "canon_version" = b.get "canon_version" ∧
      Same N (a.withoutKeys strip) (b.withoutKeys strip') := by
  obtain ⟨d, c, hd, hc, hdl, hcl, hu, rfl⟩ := bodyPreimage_eq_ok_iff.mp hp
  obtain ⟨d', c', hd', hc', hdl', hcl', hu', rfl⟩ := bodyPreimage_eq_ok_iff.mp hq
  have hmax : maxLpLen < 256 ^ 4 := by decide
  rw [← writeCanonical_bytes_eq_iff hu hu', CanonValue.get, CanonValue.get, CanonValue.get,
    CanonValue.get, hd, hd', hc, hc']
  constructor
  · intro h
    obtain ⟨h1, h2⟩ := framed_append_inj (by omega) (by omega) h
    obtain ⟨h3, h4⟩ := framed_append_inj (by omega) (by omega) h2
    rw [bytes_injective h1, bytes_injective h3]
    exact ⟨rfl, rfl, h4⟩
  · rintro ⟨h1, h2, h3⟩
    obtain rfl : d = d' := by simpa using h1
    obtain rfl : c = c' := by simpa using h2
    rw [h3]

/-- Seal binding. Two records share a preimage exactly when their domain and version
strings agree to the byte and the rest of their bodies agree up to member order and
normalization; the same for checkpoints; and a record never shares one with a
checkpoint. -/
theorem preimage_binding (N : Normalizer) :
    (∀ a b p q, recordPreimage N a = .ok p → recordPreimage N b = .ok q →
      (p = q ↔ a.get "domain" = b.get "domain" ∧
        a.get "canon_version" = b.get "canon_version" ∧
        Same N (a.withoutKeys ["content_hash", "sig"])
          (b.withoutKeys ["content_hash", "sig"]))) ∧
    (∀ a b p q, checkpointPreimage N a = .ok p → checkpointPreimage N b = .ok q →
      (p = q ↔ a.get "domain" = b.get "domain" ∧
        a.get "canon_version" = b.get "canon_version" ∧
        Same N (a.withoutKeys ["anchor", "checkpoint_hash", "sig"])
          (b.withoutKeys ["anchor", "checkpoint_hash", "sig"]))) ∧
    (∀ a b p q, recordPreimage N a = .ok p → checkpointPreimage N b = .ok q →
      a.get "domain" = some (.str recordDomain) →
      b.get "domain" = some (.str checkpointDomain) → p ≠ q) := by
  refine ⟨fun a b p q hp hq => bodyPreimage_eq_iff hp hq,
    fun a b p q hp hq => bodyPreimage_eq_iff hp hq, ?_⟩
  intro a b p q hp hq ha hb h
  have hd := ((bodyPreimage_eq_iff hp hq).mp h).1
  rw [ha, hb] at hd
  have hne : recordDomain ≠ checkpointDomain := by decide
  exact hne (by simpa using hd)

/-- Tables that compose one letter with its accent, as Unicode does. -/
def composeAcute : Normalizer where
  normalize s := if s = "e\u0301" then "\u00e9" else s
  idem s := by split_ifs <;> simp_all

/-- A record body with the given domain text and further members. -/
def bodyWithDomain (domain : String) (more : List (String × CanonValue)) : CanonValue :=
  .obj ([("domain", .str domain), ("canon_version", .str "rcp-1")] ++ more)

/-- A short body with distinct keys has a preimage under any domain that fits. -/
theorem bodyWithDomain_preimage (domain : String) (strip : List String)
    (more : List (String × CanonValue)) (hd : (bytes domain).length ≤ maxLpLen)
    (hs : (bodyWithDomain domain more).withoutKeys strip = bodyWithDomain domain []) :
    ∃ p, bodyPreimage composeAcute (bodyWithDomain domain more) strip = .ok p := by
  refine ⟨_, bodyPreimage_eq_ok_iff.mpr ⟨domain, "rcp-1", rfl, rfl, hd, by decide, ?_, rfl⟩⟩
  rw [hs]
  refine .obj (by decide : (["domain", "canon_version"].map (nfc composeAcute)).Nodup) ?_
  simp only [List.append_nil, List.forall_mem_cons, List.not_mem_nil, false_imp_iff, implies_true,
    and_true]
  exact ⟨.str trivial, .str trivial⟩

/-- Two domains with one normal form: the bodies say the same thing and differ in their
preimages, since the domain is framed as it stands. -/
theorem preimage_domain_not_normalized :
    ∃ p q, recordPreimage composeAcute (bodyWithDomain "e\u0301" []) = .ok p ∧
      recordPreimage composeAcute (bodyWithDomain "\u00e9" []) = .ok q ∧
      Same composeAcute ((bodyWithDomain "e\u0301" []).withoutKeys ["content_hash", "sig"])
        ((bodyWithDomain "\u00e9" []).withoutKeys ["content_hash", "sig"]) ∧ p ≠ q := by
  obtain ⟨p, hp⟩ := bodyWithDomain_preimage "e\u0301" recordStrip [] (by decide) rfl
  obtain ⟨q, hq⟩ := bodyWithDomain_preimage "\u00e9" recordStrip [] (by decide) rfl
  refine ⟨p, q, hp, hq, ?_, fun h => ?_⟩
  · have hnfc : nfc composeAcute "e\u0301" = nfc composeAcute "\u00e9" := by decide
    apply same_of_canonical_eq
    show CanonValue.obj (sortMembers [(_, .str (nfc composeAcute "e\u0301")), _]) = _
    rw [hnfc]
    rfl
  · have hd := ((bodyPreimage_eq_iff hp hq).mp h).1
    have hne : "e\u0301" ≠ "\u00e9" := by decide
    exact hne (CanonValue.str.inj (Option.some.inj hd))

/-- A signature changes no record preimage, and a checkpoint has another one. -/
theorem preimage_binding_signed :
    ∃ p q r, recordPreimage composeAcute (bodyWithDomain recordDomain []) = .ok p ∧
      recordPreimage composeAcute (bodyWithDomain recordDomain [("sig", .str "s")]) = .ok q ∧
      checkpointPreimage composeAcute (bodyWithDomain checkpointDomain []) = .ok r ∧
      p = q ∧ p ≠ r := by
  obtain ⟨p, hp⟩ := bodyWithDomain_preimage recordDomain recordStrip [] (by decide) rfl
  obtain ⟨q, hq⟩ := bodyWithDomain_preimage recordDomain recordStrip
    [("sig", .str "s")] (by decide) rfl
  obtain ⟨r, hr⟩ := bodyWithDomain_preimage checkpointDomain checkpointStrip [] (by decide) rfl
  refine ⟨p, q, r, hp, hq, hr, ?_, ?_⟩
  · exact ((preimage_binding composeAcute).1 _ _ p q hp hq).mpr
      ⟨rfl, rfl, same_of_canonical_eq rfl⟩
  · exact (preimage_binding composeAcute).2.2 _ _ p r hp hr rfl rfl

end Averin
