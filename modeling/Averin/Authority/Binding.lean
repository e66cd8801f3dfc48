import Averin.Authority.Evidence

/-!
# What authority evidence binds

Equal subject digests, as far as their bytes go, come from records that say the same thing
outside the excluded members. A record is verified only by a signature over the digest of its
own subject and its own identifiers.
-/

namespace Averin

variable {N : Normalizer}

/-- A projection exists for an object with an authority, and is made of both. -/
theorem subjectProjection_eq_ok {record subject : CanonValue}
    (h : subjectProjection record = .ok subject) :
    ∃ members authority, record = .obj members ∧
      record.get "authority" = some (.obj authority) ∧
      subject = .obj (subjectMembers members
        ((CanonValue.obj authority).withoutKeys subjectAuthorityExclusions)) := by
  simp only [subjectProjection, bind_eq_ok_iff, orFail_eq_ok_iff, require_eq_ok_iff] at h
  obtain ⟨members, hobj, -, -, -, -, -, -, -, -, -, -, authority, hauth, -, -, hs⟩ := h
  refine ⟨members, authority, ?_, ?_, (Except.ok.inj hs).symm⟩
  · cases record <;> simp_all [CanonValue.asObject]
  · obtain ⟨a, ha, hm⟩ := Option.bind_eq_some_iff.mp hauth
    cases a <;> simp_all [CanonValue.asObject]

/-- The members that an authority signs as they are. -/
def boundMembers (members : List (String × CanonValue)) : List (String × CanonValue) :=
  members.filter fun m => !subjectTopExclusions.contains m.1 && m.1 != "authority"

/-- The subject consists of the authority and of the members that are signed as they are. -/
theorem subjectMembers_perm {members : List (String × CanonValue)} {a stripped : CanonValue}
    (hn : (members.map (·.1)).Nodup) (ha : ("authority", a) ∈ members) :
    (subjectMembers members stripped).Perm (("authority", stripped) :: boundMembers members) := by
  induction members with
  | nil => cases ha
  | cons m members ih =>
    rw [List.map_cons, List.nodup_cons] at hn
    by_cases hm : m.1 = "authority"
    · have hrest : ∀ m' ∈ members, m'.1 ≠ "authority" := by
        intro m' hm' heq
        exact hn.1 (List.mem_map.mpr ⟨m', hm', by rw [heq, hm]⟩)
      have heq : subjectMembers members stripped = boundMembers members := by
        unfold subjectMembers boundMembers
        rw [← List.filterMap_eq_filter]
        refine List.filterMap_congr fun m' hm' => ?_
        have hne := hrest m' hm'
        by_cases hex : m'.1 ∈ subjectTopExclusions <;> simp [hne, hex, Option.guard]
      have hcons : subjectMembers (m :: members) stripped =
          ("authority", stripped) :: subjectMembers members stripped := by
        simp [subjectMembers, hm, subjectTopExclusions]
      have hbound : boundMembers (m :: members) = boundMembers members := by
        simp [boundMembers, hm]
      rw [hcons, hbound, heq]
    · have hmem : ("authority", a) ∈ members := by
        rcases List.mem_cons.mp ha with rfl | h
        · exact absurd rfl hm
        · exact h
      have hperm := ih hn.2 hmem
      by_cases hex : m.1 ∈ subjectTopExclusions
      · have hcons : subjectMembers (m :: members) stripped = subjectMembers members stripped := by
          simp [subjectMembers, hex]
        have hbound : boundMembers (m :: members) = boundMembers members := by
          simp [boundMembers, hex]
        rw [hcons, hbound]
        exact hperm
      · have hcons : subjectMembers (m :: members) stripped =
            m :: subjectMembers members stripped := by
          simp [subjectMembers, hex, hm]
        have hbound : boundMembers (m :: members) = m :: boundMembers members := by
          simp [boundMembers, hex, hm]
        rw [hcons, hbound]
        exact (hperm.cons m).trans (List.Perm.swap _ _ _)

/-- The authority is one member, so no other key reads the same after normalization. -/
theorem not_mem_boundMembers {ms : List (String × CanonValue)} {a : CanonValue}
    (h : DistinctNfcKeys N (.obj ms)) (ha : ("authority", a) ∈ ms) {m : String × CanonValue}
    (hm : m ∈ boundMembers ms) : nfc N m.1 ≠ nfc N "authority" := by
  intro heq
  obtain ⟨hmem, hb⟩ := List.mem_filter.mp hm
  have hsame := List.inj_on_of_nodup_map h.nodup hmem ha heq
  rw [hsame] at hb
  simp at hb

/-- Two records say the same thing to an authority: outside the envelope and outside their
authority they have the same members, and so have their authorities outside the proof. -/
def SameSubject (N : Normalizer) (r r' : CanonValue) : Prop :=
  ∃ ms ms' a a', r = .obj ms ∧ r' = .obj ms' ∧
    r.get "authority" = some a ∧ r'.get "authority" = some a' ∧
    Same N (.obj (boundMembers ms)) (.obj (boundMembers ms')) ∧
    Same N (a.withoutKeys subjectAuthorityExclusions) (a'.withoutKeys subjectAuthorityExclusions)

section Projection

variable {ms : List (String × CanonValue)} {a : List (String × CanonValue)}
  (h : DistinctNfcKeys N (.obj ms)) (ha : (CanonValue.obj ms).get "authority" = some (.obj a))
include h ha

/-- An authority without its signature keeps distinct keys. -/
theorem distinct_stripped :
    DistinctNfcKeys N ((CanonValue.obj a).withoutKeys subjectAuthorityExclusions) :=
  (h.of_mem (mem_of_get ha)).sublist List.filter_sublist

/-- The subject is the stripped authority and the bound members. -/
theorem perm_subject {stripped : CanonValue} :
    (subjectMembers ms stripped).Perm (("authority", stripped) :: boundMembers ms) := by
  refine subjectMembers_perm ?_ (mem_of_get ha)
  obtain _ | _ | _ | _ | _ | ⟨hkeys, -⟩ := h
  exact hkeys.of_map _

/-- No key of the subject repeats. -/
theorem nodup_subject (stripped : CanonValue) :
    ((("authority", stripped) :: boundMembers ms).map fun m => nfc N m.1).Nodup := by
  rw [List.map_cons, List.nodup_cons]
  refine ⟨?_, (List.filter_sublist.map _).nodup h.nodup⟩
  intro hmem
  obtain ⟨m, hm, heq⟩ := List.mem_map.mp hmem
  exact not_mem_boundMembers h (mem_of_get ha) hm heq

/-- The subject's keys are distinct. -/
theorem distinct_subject :
    DistinctNfcKeys N (.obj (subjectMembers ms
      ((CanonValue.obj a).withoutKeys subjectAuthorityExclusions))) := by
  have hperm := @perm_subject N ms a h ha
    ((CanonValue.obj a).withoutKeys subjectAuthorityExclusions)
  refine .obj ?_ fun m hm => ?_
  · rw [List.map_map]
    exact (hperm.map _).nodup_iff.mpr (nodup_subject h ha _)
  · rcases List.mem_cons.mp (hperm.mem_iff.mp hm) with rfl | hm
    · exact distinct_stripped h ha
    · exact h.of_mem (List.mem_filter.mp hm).1

end Projection

/-- The bytes of two subject digests agree only for records that say the same thing. -/
theorem sameSubject_of_preimage_eq {r r' s s' : CanonValue} {p : List UInt8}
    (hr : DistinctNfcKeys N r) (hr' : DistinctNfcKeys N r') (hs : subjectProjection r = .ok s)
    (hs' : subjectProjection r' = .ok s') (hp : subjectDigestPreimage N s = .ok p)
    (hp' : subjectDigestPreimage N s' = .ok p) : SameSubject N r r' := by
  obtain ⟨ms, a, rfl, ha, rfl⟩ := subjectProjection_eq_ok hs
  obtain ⟨ms', a', rfl, ha', rfl⟩ := subjectProjection_eq_ok hs'
  have hbytes := hp.trans hp'.symm
  have hsame := (writeCanonical_bytes_eq_iff (distinct_subject hr ha)
    (distinct_subject hr' ha')).mp (List.append_cancel_left (Except.ok.inj hbytes))
  have hcanon := hsame.canonical_eq (distinct_subject hr ha)
  have hperm := (canonical_obj_eq_iff (distinct_subject hr ha).nodup).mp hcanon
  replace hperm := ((perm_subject hr ha).map _).symm.trans
    (hperm.trans ((perm_subject hr' ha').map _))
  rw [List.map_cons, List.map_cons] at hperm
  -- The authority of one side can only be matched with the authority of the other.
  have hauth : canonical N ((CanonValue.obj a).withoutKeys subjectAuthorityExclusions) =
      canonical N ((CanonValue.obj a').withoutKeys subjectAuthorityExclusions) := by
    rcases List.mem_cons.mp (hperm.mem_iff.mp List.mem_cons_self) with heq | hmem
    · exact (Prod.mk.inj heq).2
    · obtain ⟨m, hm, heq⟩ := List.mem_map.mp hmem
      exact absurd (Prod.mk.inj heq).1 (not_mem_boundMembers hr' (mem_of_get ha') hm)
  rw [hauth] at hperm
  refine ⟨ms, ms', _, _, rfl, rfl, ha, ha', ?_, same_of_canonical_eq hauth⟩
  refine same_of_canonical_eq ((canonical_obj_eq_iff ?_).mpr hperm.cons_inv)
  exact (List.filter_sublist.map _).nodup hr.nodup

section Verified

variable (N) (sha256 : List UInt8 → Vector UInt8 32) (ed : Ed25519)

/-- A signature over the third version of the evidence, for the digest of the record's own
subject and the record's own identifiers, verifies under the key. -/
structure SignedSubject (record : CanonValue) (vk : Vector UInt8 32) : Prop where
  /-- The carried digest is the one that is computed again, and what is signed names it. -/
  signed : ∃ authority source evidenceHash evidenceSig projectId recordId digest raw preimage sig,
    record.get "authority" = some authority ∧ authority.strAt "source" = some source ∧
    authority.strAt "evidence_hash" = some evidenceHash ∧
    authority.strAt "evidence_sig" = some evidenceSig ∧
    record.strAt "project_id" = some projectId ∧ record.strAt "record_id" = some recordId ∧
    authority.strAt "subject_digest" = some digest ∧ subjectDigest N sha256 record = .ok digest ∧
    authorityPreimageV3 source projectId recordId evidenceHash digest = .ok preimage ∧
    stripPrefix "ed25519:" evidenceSig = some raw ∧ B64.decodeFixed 64 raw = some sig ∧
    ed.verifyStrict vk preimage sig = true

variable {N sha256 ed}

/-- Only the third version earns the verified message. -/
theorem authorityMessage_eq_verified {record authority : CanonValue}
    {source projectId recordId eh : String} {pre : List UInt8}
    (h : authorityMessage N sha256 record authority source projectId recordId eh =
      some (pre, .verified)) :
    ∃ digest, authority.strAt "subject_digest" = some digest ∧
      subjectDigest N sha256 record = .ok digest ∧
      authorityPreimageV3 source projectId recordId eh digest = .ok pre := by
  unfold authorityMessage at h
  split at h
  · split_ifs at h
    split at h
    · cases h
    · next digest hdigest =>
      split_ifs at h with hbad
      rw [not_or, not_not] at hbad
      split at h
      · cases h
      · next pre' hpre =>
        obtain ⟨rfl, -⟩ := Prod.mk.inj (Option.some.inj h)
        refine ⟨digest, hdigest, ?_, hpre⟩
        cases hd : subjectDigest N sha256 record with
        | error e => rw [hd] at hbad; cases hbad.2
        | ok d => rw [hd] at hbad; exact congrArg _ (Option.some.inj hbad.2)
  · split_ifs at h
    exact absurd (Prod.mk.inj (Option.some.inj h)).2 (by simp)

/-- A text that is read and not empty. -/
theorem eq_some_of_getD_ne {x : Option String} (h : ¬ x.getD "" = "") :
    x = some (x.getD "") := by
  cases x with
  | none => exact absurd rfl h
  | some s => rfl

/-- A verified authority was signed over its subject by a trusted key. -/
theorem signedSubject_of_verified {record : CanonValue} {trusted : List (Vector UInt8 32)}
    (h : (verifyAuthorityWithKey N sha256 ed record trusted).1 = .verified) :
    ∃ vk ∈ trusted, (verifyAuthorityWithKey N sha256 ed record trusted).2 = some vk ∧
      SignedSubject N sha256 ed record vk := by
  generalize hr : verifyAuthorityWithKey N sha256 ed record trusted = r at h ⊢
  obtain ⟨trust, key⟩ := r
  obtain rfl : trust = .verified := h
  unfold verifyAuthorityWithKey at hr
  split at hr
  · cases hr
  · next authority hauth =>
    dsimp only at hr
    by_cases hempty : (authority.strAt "source").getD "" = ""
    · rw [if_pos hempty] at hr
      cases hr
    rw [if_neg hempty] at hr
    split at hr
    · cases hr
    split at hr
    · split at hr
      · next eh es heh hes =>
        split at hr
        · cases hr
        next hbad =>
        rw [not_or, not_or] at hbad
        split at hr
        · cases hr
        · next sig hsig =>
          split at hr
          · cases hr
          · next pre trust hmsg =>
            split at hr
            · cases hr
            split at hr
            · next vk hfind =>
              obtain ⟨rfl, rfl⟩ := Prod.mk.inj hr
              obtain ⟨digest, hdigest, hcomputed, hpre⟩ := authorityMessage_eq_verified hmsg
              obtain ⟨raw, hraw, hdec⟩ := Option.bind_eq_some_iff.mp hsig
              refine ⟨vk, List.mem_of_find?_eq_some hfind, rfl, ⟨authority, _, eh, es, _, _,
                digest, raw, pre, sig, hauth, eq_some_of_getD_ne hempty, heh, hes,
                eq_some_of_getD_ne hbad.2.2, eq_some_of_getD_ne hbad.2.1, hdigest, hcomputed,
                hpre, hraw, hdec, by simpa using List.find?_some hfind⟩⟩
            · cases hr
      · cases hr
    · cases hr

end Verified

/-- The third version of the evidence binds the record. Records without repeated keys whose
subjects have one digest preimage agree up to member order and normal form outside the
excluded members. And a record is verified only if the digest of its subject is the one it
carries and one of the given keys verifies its signature over that digest together with the
identifiers of the record; that key is the one reported. -/
theorem authority_v3_binding (N : Normalizer) (sha256 : List UInt8 → Vector UInt8 32)
    (ed : Ed25519) :
    (∀ r r' s s' p, DistinctNfcKeys N r → DistinctNfcKeys N r' → subjectProjection r = .ok s →
      subjectProjection r' = .ok s' → subjectDigestPreimage N s = .ok p →
      subjectDigestPreimage N s' = .ok p → SameSubject N r r') ∧
    ∀ record trusted, (verifyAuthorityWithKey N sha256 ed record trusted).1 = .verified →
      ∃ vk ∈ trusted, (verifyAuthorityWithKey N sha256 ed record trusted).2 = some vk ∧
        SignedSubject N sha256 ed record vk :=
  ⟨fun _ _ _ _ _ => sameSubject_of_preimage_eq, fun _ _ => signedSubject_of_verified⟩

/-- The text of a hash of zeros. -/
def zeroDigest : String := String.ofList ("sha256:".toList ++ List.replicate 64 '0')

/-- A record of the third version whose digest and signature are zeros. -/
def verifiedRecord : CanonValue :=
  .obj [("schema_version", .str "2"), ("canon_version", .str "rcp-1"),
    ("domain", .str "flightrecorder.record.v2"), ("record_id", .str "r"), ("project_id", .str "p"),
    ("agent_id", .str "a"), ("agent_version", .str "1"), ("session_id", .str "s"),
    ("span_id", .str "x"), ("parent_span_id", .null), ("agent_ts", .str "2026-01-01T00:00:00.000Z"),
    ("event_type", .str "tool_call"), ("action", .str "read"), ("observed_via", .str "gateway"),
    ("status", .str "ok"), ("authority", .obj [("source", .str "human_signed"),
      ("proof_version", .str "v3"), ("subject_projection", .str subjectProjectionId),
      ("evidence_hash", .str zeroDigest), ("subject_digest", .str zeroDigest),
      ("evidence_sig", .str ("ed25519:" ++ B64.encode (.replicate 64 0)))])]

/-- The record is verified, and it is bound. -/
theorem authority_v3_binding_verified :
    SignedSubject .identity (fun _ => .replicate 32 0) ⟨fun _ => true, fun _ _ _ => true⟩
      verifiedRecord (.replicate 32 0) := by
  obtain ⟨vk, hvk, -, hsigned⟩ := (authority_v3_binding .identity (fun _ => .replicate 32 0)
    ⟨fun _ => true, fun _ _ _ => true⟩).2 verifiedRecord [.replicate 32 0] (by decide +kernel)
  rwa [List.mem_singleton.mp hvk] at hsigned

end Averin
