import Averin.Server.LineageStatements

/-!
# Rotation statements on both sides

The server checks a statement on the tree that it decodes without types, the verifier on the value
that it parses. Both agree on a statement whose epochs come through a double unchanged and whose
base64 texts have no line breaks.
-/

namespace Averin

variable {N : Normalizer} {sha256 : List UInt8 → Vector UInt8 32} {ed : Ed25519}

/-- What the verifier reads of a statement in the list of a bundle. -/
def Json.inBundle (N : Normalizer) (st : Json) : Option CanonValue :=
  (st.toCanon N).filter fun c => c.depth + 2 ≤ maxDepth

/-- A bundle lists a key. -/
def Lists (N : Normalizer) (ed : Ed25519) (keys : Table (String × Int) KeyEntry) (k : LineageKey) :
    Prop :=
  ∃ entry, keys.lookup (nfc N k.id, k.epoch) = some entry ∧ decodePub k.publicKey = some entry.vk ∧
    ed.validKey entry.vk = true

/-- The statement counts in every bundle that lists both its keys. -/
def CountsEverywhere (N : Normalizer) (sha256 : List UInt8 → Vector UInt8 32) (ed : Ed25519)
    (st : Json) (old new : LineageKey) : Prop :=
  ∃ c, st.inBundle N = some c ∧ ∀ keys, Lists N ed keys old → Lists N ed keys new →
    (checkRotation N sha256 ed keys c).isOk = true

/-- A statement means the same on both sides: its epochs come through a double unchanged, its
base64 texts have no line breaks, and it can be read in a bundle. -/
structure SpelledAlike (N : Normalizer) (st : Json) : Prop where
  epochs : ∀ f ∈ ["old_key", "new_key"], ∀ v n, st.get f = some v →
    v.get "key_epoch" = some (.int n) → EpochExact n
  keys : ∀ f ∈ ["old_key", "new_key"], ∀ v pk, st.get f = some v →
    v.get "public_key" = some (.str pk) → B64.withoutBreaks pk = pk
  sigNew : ∀ s, st.strOf "sig_new" = some s → B64.withoutBreaks s = s
  sigOld : st.strOf "reason" = some "scheduled" →
    ∀ s, st.strOf "sig_old" = some s → B64.withoutBreaks s = s
  readable : (st.inBundle N).isSome = true

theorem isAscii_rotationFields {f : String} (h : f ∈ rotationFields) : isAscii f = true := by
  revert f
  decide

theorem nfc_rotationField {f : String} (h : f ∈ rotationFields) : nfc N f = f :=
  nfc_of_isAscii N (isAscii_rotationFields h)

section Forward

variable {members : List (String × Json)} {v : Verified} {oldPub newPub : Vector UInt8 32}
  {digest : String} {c : CanonValue}

/-- An accepted statement with exact epochs is hashed as it stands. -/
theorem StatementFacts.unsigned_viaDouble
    (hf : StatementFacts N sha256 ed members v oldPub newPub digest)
    (hc : (Json.obj members).toCanon N = some c)
    (hepochs : ∀ f ∈ ["old_key", "new_key"], ∀ w n, (Json.obj members).get f = some w →
      w.get "key_epoch" = some (.int n) → EpochExact n) :
    (Json.obj (unsignedMembers members)).viaDouble = .obj (unsignedMembers members) := by
  apply viaDouble_obj
  intro m hm
  obtain ⟨hmem, hkept⟩ := List.mem_filter.mp hm
  have hget := Json.get_of_mem (Json.keys_nodup_of_toCanon hc) (show (m.1, m.2) ∈ members from hmem)
  have hfield := hf.fields m hmem
  have hkey : ∀ f ∈ ["old_key", "new_key"], ∀ k, ((Json.obj members).get f).bind keyOf = some k →
      m.1 = f → m.2.viaDouble = m.2 := by
    intro f hmemf k hk hm1
    obtain ⟨w, hw, hkeyOf⟩ := Option.bind_eq_some_iff.mp hk
    obtain rfl : w = m.2 := by
      rw [hm1, hw] at hget
      exact Option.some.inj hget
    obtain ⟨n, hfacts⟩ := keyOf_facts hkeyOf
    obtain ⟨x, hx, -⟩ := Json.get_toCanon hc hw (by
      rw [← hm1]
      exact nfc_rotationField hfield)
    exact hfacts.viaDouble (hepochs f hmemf _ n hw hfacts.epoch) hx
  have htext : ∀ f t, (Json.obj members).strOf f = some t → m.1 = f → m.2.viaDouble = m.2 := by
    intro f t ht hm1
    have hstr := get_of_strOf ht
    rw [← hm1, hget] at hstr
    rw [Option.some.inj hstr]
    rfl
  simp only [rotationFields, List.mem_cons, List.not_mem_nil, or_false] at hfield
  rcases hfield with hk | ho | hn | ht | hr | hs | hs
  · exact htext _ _ hf.kind hk
  · exact hkey "old_key" (by simp) _ hf.old ho
  · exact hkey "new_key" (by simp) _ hf.new hn
  · exact htext _ _ hf.rotatedAt ht
  · exact htext _ _ hf.reason hr
  · rw [hs] at hkept
    cases hkept
  · rw [hs] at hkept
    cases hkept

/-- With exact epochs both sides sign the same digest. -/
theorem StatementFacts.digest_eq (hf : StatementFacts N sha256 ed members v oldPub newPub digest)
    (hc : (Json.obj members).toCanon N = some c)
    (hepochs : ∀ f ∈ ["old_key", "new_key"], ∀ w n, (Json.obj members).get f = some w →
      w.get "key_epoch" = some (.int n) → EpochExact n) :
    digest = rotationDigest N sha256 c := by
  have hhash := hf.hash
  rw [hf.unsigned_viaDouble hc hepochs, digestOf, unsignedMembers, Json.toCanon_filter hc
    (fun m hm => nfc_rotationField (hf.fields m hm)), Option.bind_some, rcpEvidenceHash] at hhash
  split_ifs at hhash
  exact (Option.some.inj hhash).symm

theorem verifySig_empty {vk : Vector UInt8 32} : verifySig ed digest "" vk = false := by
  unfold verifySig
  rw [show stripPrefix sigPrefix "" = none by decide]
  rfl

/-- A signature that the server found is found and accepted by the verifier. -/
theorem rotationSigOk_of_verifySig {field : String} {vk : Vector UInt8 32}
    (hc : (Json.obj members).toCanon N = some c) (hfield : field ∈ rotationFields)
    (hdigest : digest = rotationDigest N sha256 c)
    (hverify : verifySig ed digest (((Json.obj members).strOf field).getD "") vk = true)
    (hbreaks : ∀ s, (Json.obj members).strOf field = some s → B64.withoutBreaks s = s) :
    rotationSigOk N sha256 ed c field vk = true := by
  cases hsig : (Json.obj members).strOf field with
  | none =>
    rw [hsig, Option.getD_none, verifySig_empty] at hverify
    cases hverify
  | some s =>
    rw [hsig, Option.getD_some] at hverify
    have hplain := hbreaks s hsig
    have hread := Json.strOf_toCanon hc hsig (nfc_rotationField hfield)
    rw [nfc_of_isAscii N (isAscii_of_verifySig hverify hplain)] at hread
    rw [rotationSigOk, hread, Option.any_some]
    rw [hdigest] at hverify
    exact verifyText_isOk_iff.mpr ⟨hverify, hplain⟩

/-- What the verifier reads where the server read a key that is listed. -/
theorem ListedAs.of_lists {keys : Table (String × Int) KeyEntry} {w : Json} {k : LineageKey}
    {vk : Vector UInt8 32} {field : String} (hc : (Json.obj members).toCanon N = some c)
    (hfield : field ∈ rotationFields) (hget : (Json.obj members).get field = some w)
    (hkey : keyOf w = some k) (hpub : decodePub k.publicKey = some vk)
    (hepochs : ∀ n, w.get "key_epoch" = some (.int n) → EpochExact n)
    (hbreaks : B64.withoutBreaks k.publicKey = k.publicKey) (hlists : Lists N ed keys k) :
    ∃ ref entry, (c.get field).bind rotationKeyRef = some ref ∧ ListedAs ed keys ref entry ∧
      entry.vk = vk ∧ ref = ⟨nfc N k.id, k.epoch, k.publicKey⟩ ∧
        keys.lookup (nfc N k.id, k.epoch) = some entry := by
  obtain ⟨n, hfacts⟩ := keyOf_facts hkey
  obtain ⟨x, hx, hfound⟩ := Json.get_toCanon hc hget (nfc_rotationField hfield)
  obtain ⟨entry, hentry, hvk, hvalid⟩ := hlists
  obtain rfl := Option.some.inj (hvk.symm.trans hpub)
  have hepoch : k.epoch = n := by
    rw [hfacts.value]
    exact (hepochs n hfacts.epoch).1
  have hascii := nfc_of_isAscii N (isAscii_of_decodePub hpub hbreaks)
  refine ⟨⟨nfc N k.id, k.epoch, k.publicKey⟩, entry, ?_, ⟨hentry, ?_⟩, rfl, rfl, hentry⟩
  · rw [hfound, Option.bind_some, hfacts.rotationKeyRef hx, hascii, hepoch]
  · exact (decodePubkey_iff hpub hvalid).mpr ⟨hbreaks, rfl⟩

/-- A key text without line breaks is the text of its bytes. -/
theorem eq_pubString {pk : String} {vk : Vector UInt8 32} (h : decodePub pk = some vk)
    (hbreaks : B64.withoutBreaks pk = pk) : pk = pubString vk := by
  obtain ⟨raw, hraw, hstrict⟩ := Option.bind_eq_some_iff.mp h
  have hpk := stripPrefix_eq_some hraw
  rw [hpk] at hbreaks
  have hbreaks := (B64.withoutBreaks_append_eq_self_iff withoutBreaks_pubkeyPrefix).mp hbreaks
  have hread := (B64.decodeFixed_of_strictFixed hstrict).mpr ⟨hbreaks, rfl⟩
  rw [hpk, B64.decodeFixed_eq_some_iff.mp hread]
  rfl

/-- An accepted statement that is spelled alike counts in every bundle with both its keys. -/
theorem countsEverywhere_of_spelledAlike {st : Json}
    (hv : verifyRotation N sha256 ed st = .ok v) (hs : SpelledAlike N st) :
    CountsEverywhere N sha256 ed st v.old v.new := by
  obtain ⟨members, oldPub, newPub, digest, rfl, hf⟩ := verifyRotation_eq_ok_iff.mp hv
  obtain ⟨c, hbundle⟩ := Option.isSome_iff_exists.mp hs.readable
  have hc := (Option.filter_eq_some_iff.mp hbundle).1
  refine ⟨c, hbundle, ?_⟩
  intro keys hold hnew
  obtain ⟨wo, hwo, hko⟩ := Option.bind_eq_some_iff.mp hf.old
  obtain ⟨wn, hwn, hkn⟩ := Option.bind_eq_some_iff.mp hf.new
  have hobreaks : B64.withoutBreaks v.old.publicKey = v.old.publicKey := by
    obtain ⟨n, hfacts⟩ := keyOf_facts hko
    exact hs.keys "old_key" (by simp) wo _ hwo hfacts.publicKey
  have hnbreaks : B64.withoutBreaks v.new.publicKey = v.new.publicKey := by
    obtain ⟨n, hfacts⟩ := keyOf_facts hkn
    exact hs.keys "new_key" (by simp) wn _ hwn hfacts.publicKey
  obtain ⟨o, oe, ho, hoListed, rfl, rfl, hoe⟩ := ListedAs.of_lists hc (by decide) hwo hko hf.oldKey
    (fun n => hs.epochs "old_key" (by simp) wo n hwo) hobreaks hold
  obtain ⟨n, ne, hn, hnListed, rfl, rfl, hne⟩ := ListedAs.of_lists hc (by decide) hwn hkn hf.newKey
    (fun n => hs.epochs "new_key" (by simp) wn n hwn) hnbreaks hnew
  have hdigest := hf.digest_eq hc hs.epochs
  obtain ⟨pairs, hpairs, -, rfl⟩ := Json.toCanon_obj_eq_some_iff.mp hc
  refine checkRotation_isOk_iff.mpr
    ⟨_, _, oe, ne, ⟨pairs, rfl, ?_⟩, ?_, ?_, ?_, ho, hn, ?_, hoListed,
    hnListed, ?_, ?_⟩
  · intro p hp
    obtain ⟨m, hm, hread⟩ := Json.ReadAs.exists_left hpairs hp
    rw [hread.1, nfc_rotationField (hf.fields m hm)]
    exact hf.fields m hm
  · rw [Json.strOf_toCanon hc hf.kind (nfc_rotationField (by decide)),
      nfc_of_isAscii N (by decide)]
  · have hread := Json.strOf_toCanon hc hf.reason (nfc_rotationField (by decide))
    rcases hf.reasonKnown with hr | hr
    · rw [hread, hr, nfc_of_isAscii N (by decide)]
      exact Or.inl rfl
    · rw [hread, hr, nfc_of_isAscii N (by decide)]
      exact Or.inr rfl
  · have hcanonical := hf.canonical
    rw [isCanonicalTS_eq] at hcanonical
    rw [Json.strOf_toCanon hc hf.rotatedAt (nfc_rotationField (by decide)),
      nfc_of_isAscii N (isAscii_of_isCanonicalTs hcanonical)]
    exact hcanonical
  · rintro (hsame | hsame)
    · -- One entry would stand for both keys, so their texts would be the same.
      have hentry : oe = ne := by
        rw [hsame, hne] at hoe
        exact (Option.some.inj hoe).symm
      have htexts : v.old.publicKey = v.new.publicKey := by
        rw [eq_pubString hf.oldKey hobreaks, eq_pubString hf.newKey hnbreaks, hentry]
      exact hf.differ (Or.inr htexts)
    · exact hf.differ (Or.inr hsame)
  · exact rotationSigOk_of_verifySig hc (by decide) hdigest hf.sigNew hs.sigNew
  · intro hscheduled
    rw [Json.strOf_toCanon hc hf.reason (nfc_rotationField (by decide))] at hscheduled
    have hreason : v.reason = "scheduled" := by
      rcases hf.reasonKnown with hr | hr
      · exact hr
      · rw [hr, nfc_of_isAscii N (by decide)] at hscheduled
        exact absurd (Option.some.inj hscheduled) (by decide)
    exact rotationSigOk_of_verifySig hc (by decide) hdigest (hf.sigOld hreason)
      (hs.sigOld (by rw [hf.reason, hreason]))

end Forward

/-- Line breaks and letters are plain text. -/
theorem isAscii_of_withoutBreaks {s : String} {input : List UInt8}
    (h : B64.withoutBreaks s = B64.encode input) : isAscii s = true := by
  have hletters := isAscii_encode input
  rw [← h, isAscii, B64.withoutBreaks, bytes_ofList, List.all_eq_true] at hletters
  apply List.all_eq_true.mpr
  intro b hb
  rw [bytes_eq_utf8, utf8] at hb
  obtain ⟨c, hc, hb⟩ := List.mem_flatMap.mp hb
  by_cases hbreak : c = '\n' ∨ c = '\r'
  · have hlow : c.toNat < 0x80 := by
      rcases hbreak with rfl | rfl <;> decide
    rcases utf8EncodeChar_ascii_or c with ⟨-, hone⟩ | ⟨hhigh, -⟩
    · rw [hone, List.mem_singleton] at hb
      rw [hb, decide_eq_true_eq, UInt8.lt_iff_toNat_lt, UInt8.toNat_ofNat']
      exact (Nat.mod_le _ _).trans_lt hlow
    · omega
  · apply hletters b
    rw [utf8]
    refine List.mem_flatMap.mpr ⟨c, List.mem_filter.mpr ⟨hc, ?_⟩, hb⟩
    simpa [not_or] using hbreak

/-- A key that is read is ASCII. -/
theorem isAscii_of_decodePub_eq_some {pk : String} {vk : Vector UInt8 32}
    (h : decodePub pk = some vk) : isAscii pk = true := by
  obtain ⟨raw, hraw, hstrict⟩ := Option.bind_eq_some_iff.mp h
  rw [stripPrefix_eq_some hraw]
  exact isAscii_append (by decide)
    (isAscii_of_withoutBreaks (B64.decodeFixed_eq_some_iff.mp hstrict))

theorem isAscii_of_verifySig_eq_true {digest sig : String} {vk : Vector UInt8 32}
    (h : verifySig ed digest sig vk = true) : isAscii sig = true := by
  unfold verifySig at h
  simp only [Option.any_eq_true, Option.bind_eq_some_iff] at h
  obtain ⟨b, ⟨raw, hraw, hb⟩, -⟩ := h
  rw [stripPrefix_eq_some hraw]
  exact isAscii_append (by decide) (isAscii_of_withoutBreaks (B64.decodeFixed_eq_some_iff.mp hb))

/-- Of the two bodies that are hashed of a statement, what the server keeps after its doubles and
what the verifier reads, the signature of the new key is good for one body only. -/
def SignsOne (N : Normalizer) (sha256 : List UInt8 → Vector UInt8 32) (ed : Ed25519) (st : Json)
    (pub : Vector UInt8 32) : Prop :=
  ∀ members sig b c, st = .obj members → st.strOf "sig_new" = some sig →
    (Json.obj (unsignedMembers members)).viaDouble.toCanon N = some b → st.toCanon N = some c →
    verifySig ed (rootText (sha256 (writeCanonical N b).bytes)) sig pub = true →
    verifySig ed (rotationDigest N sha256 c) sig pub = true →
      canonical N b = canonical N (c.withoutKeys ["sig_new", "sig_old"])

/-- Where the epochs come through unchanged the two bodies are one. -/
theorem signsOne_of_spelledAlike {st : Json} {v : Verified} {pub : Vector UInt8 32}
    (hv : verifyRotation N sha256 ed st = .ok v) (hs : SpelledAlike N st) :
    SignsOne N sha256 ed st pub := by
  obtain ⟨members, oldPub, newPub, digest, rfl, hf⟩ := verifyRotation_eq_ok_iff.mp hv
  intro members' sig b c hst _ hb hc _ _
  obtain rfl := Json.obj.inj hst
  rw [hf.unsigned_viaDouble hc hs.epochs, unsignedMembers, Json.toCanon_filter hc
    (fun m hm => nfc_rotationField (hf.fields m hm))] at hb
  rw [Option.some.inj hb]

section Backward

variable {members : List (String × Json)} {v : Verified} {oldPub newPub : Vector UInt8 32}
  {digest : String} {c : CanonValue}

/-- A signature that the verifier accepts has no line breaks, and the server accepts it. -/
theorem verifySig_of_rotationSigOk {field sig : String} {vk : Vector UInt8 32}
    (hc : (Json.obj members).toCanon N = some c) (hfield : field ∈ rotationFields)
    (hsig : (Json.obj members).strOf field = some sig) (hascii : isAscii sig = true)
    (h : rotationSigOk N sha256 ed c field vk = true) :
    verifySig ed (rotationDigest N sha256 c) sig vk = true ∧ B64.withoutBreaks sig = sig := by
  have hread := Json.strOf_toCanon hc hsig (nfc_rotationField hfield)
  rw [nfc_of_isAscii N hascii] at hread
  rw [rotationSigOk, hread, Option.any_some] at h
  exact verifyText_isOk_iff.mp h

/-- The list of exactly two keys. -/
def twoKeys (N : Normalizer) (old new : LineageKey) (oldPub newPub : Vector UInt8 32) :
    Table (String × Int) KeyEntry :=
  (((∅ : Table (String × Int) KeyEntry).insert (nfc N old.id, old.epoch) ⟨oldPub, "retired"⟩).insert
    (nfc N new.id, new.epoch) ⟨newPub, "active"⟩)

/-- The two keys are found under their names. -/
theorem lookup_twoKeys {old new : LineageKey} {id : String × Int} :
    (twoKeys N old new oldPub newPub).lookup id =
      if id = (nfc N new.id, new.epoch) then some ⟨newPub, "active"⟩
      else if id = (nfc N old.id, old.epoch) then some ⟨oldPub, "retired"⟩ else none := by
  rw [twoKeys, Table.lookup_insert_eq, Table.lookup_insert_eq]
  rfl

/-- The epoch of a key in what both sides hash. -/
theorem rewritten_eq_of_canonical_eq {b b' x x' : CanonValue} {field : String} {w : Json} {n : Int}
    (hb : DistinctNfcKeys N b) (hb' : DistinctNfcKeys N b') (hsame : canonical N b = canonical N b')
    (hfield : nfc N field = field) (hget : b.get field = some x) (hget' : b'.get field = some x')
    (hx : w.viaDouble.toCanon N = some x) (hx' : w.toCanon N = some x')
    (hepoch : w.get "key_epoch" = some (.int n)) : Float64.rewritten n = n := by
  have hkey : nfc N "key_epoch" = "key_epoch" := nfc_of_isAscii N (by decide)
  have hfirst := get_canonical hb hfield hget
  have hsecond := get_canonical hb' hfield hget'
  rw [hsame, hsecond] at hfirst
  have hpart : canonical N x' = canonical N x := Option.some.inj hfirst
  have hvia : w.viaDouble.get "key_epoch" = some (Json.int n).viaDouble := by
    rw [Json.get_viaDouble, hepoch, Option.map_some]
  obtain ⟨e', he', hfound'⟩ := Json.get_toCanon hx' hepoch hkey
  obtain ⟨e, he, hfound⟩ := Json.get_toCanon hx hvia hkey
  have hlast := get_canonical (Json.distinctNfcKeys_of_toCanon hx) hkey hfound
  rw [← hpart, get_canonical (Json.distinctNfcKeys_of_toCanon hx') hkey hfound'] at hlast
  have hepochs : canonical N e' = canonical N e := Option.some.inj hlast
  rw [Json.toCanon] at he'
  rw [Json.viaDouble] at he
  split_ifs at he
  · rw [Json.toCanon] at he
    have hint := asInt_jsonInt he
    have hint' := asInt_jsonInt he'
    unfold jsonInt at he he'
    split_ifs at he he'
    obtain rfl := Option.some.inj he
    obtain rfl := Option.some.inj he'
    rw [canonical, canonical] at hepochs
    rw [← hepochs, hint'] at hint
    exact (Option.some.inj hint).symm
  · cases he

/-- What a counted statement says of one of its keys. -/
theorem key_of_counted {keys : Table (String × Int) KeyEntry} {field : String} {w : Json}
    {k : LineageKey} {n : Int} {ref : RotationKeyRef} {entry : KeyEntry} {vk : Vector UInt8 32}
    (hc : (Json.obj members).toCanon N = some c) (hfield : field ∈ rotationFields)
    (hget : (Json.obj members).get field = some w) (hfacts : KeyFacts w k n)
    (hpub : decodePub k.publicKey = some vk) (hvalid : ed.validKey vk = true)
    (href : (c.get field).bind rotationKeyRef = some ref) (hlisted : ListedAs ed keys ref entry) :
    B64.withoutBreaks k.publicKey = k.publicKey ∧ entry.vk = vk ∧
      keys.lookup (nfc N k.id, n) = some entry := by
  obtain ⟨x, hx, hfound⟩ := Json.get_toCanon hc hget (nfc_rotationField hfield)
  rw [hfound, Option.bind_some, hfacts.rotationKeyRef hx,
    nfc_of_isAscii N (isAscii_of_decodePub_eq_some hpub)] at href
  obtain rfl := Option.some.inj href
  obtain ⟨hbreaks, hvk⟩ := (decodePubkey_iff hpub hvalid).mp hlisted.key
  exact ⟨hbreaks, hvk, hlisted.listed⟩

/-- A signature that the server accepted for its own digest and the verifier for the statement as it
stands is one for a statement with epochs that come through as texts. -/
theorem rewritten_eq_of_signed {sig field : String} {w : Json} {n : Int}
    (hf : StatementFacts N sha256 ed members v oldPub newPub digest)
    (hc : (Json.obj members).toCanon N = some c)
    (hsig : (Json.obj members).strOf "sig_new" = some sig)
    (hone : SignsOne N sha256 ed (.obj members) newPub)
    (hverify : verifySig ed (rotationDigest N sha256 c) sig newPub = true)
    (hfield : field ∈ ["old_key", "new_key"]) (hget : (Json.obj members).get field = some w)
    (hepoch : w.get "key_epoch" = some (.int n)) : Float64.rewritten n = n := by
  obtain ⟨b, hb, hhash⟩ := Option.bind_eq_some_iff.mp hf.hash
  rw [rcpEvidenceHash] at hhash
  split_ifs at hhash
  have hsigned := hf.sigNew
  rw [hsig, Option.getD_some, ← Option.some.inj hhash] at hsigned
  have hkeys : ∀ m ∈ members, nfc N m.1 = m.1 := fun m hm => nfc_rotationField (hf.fields m hm)
  have hplain : nfc N field = field := by
    apply nfc_rotationField
    revert hfield
    simp only [List.mem_cons, List.not_mem_nil, or_false]
    rintro (rfl | rfl) <;> decide
  have hkept : field ∉ ["sig_new", "sig_old"] := by
    revert hfield
    simp only [List.mem_cons, List.not_mem_nil, or_false]
    rintro (rfl | rfl) <;> decide
  have hsame := hone members sig b c rfl hsig hb hc hsigned hverify
  have hvia : (Json.obj (unsignedMembers members)).viaDouble.get field = some w.viaDouble := by
    rw [Json.get_viaDouble, unsignedMembers, Json.get_filter hkept, hget, Option.map_some]
  obtain ⟨x, hx, hfound⟩ := Json.get_toCanon hb hvia hplain
  have hrest := @Json.toCanon_filter N members c ["sig_new", "sig_old"] hc hkeys
  have hget' :
      (Json.obj (members.filter fun m => !(["sig_new", "sig_old"].contains m.1))).get field =
      some w := by
    rw [Json.get_filter hkept, hget]
  obtain ⟨x', hx', hfound'⟩ := Json.get_toCanon hrest hget' hplain
  exact rewritten_eq_of_canonical_eq (Json.distinctNfcKeys_of_toCanon hb)
    (Json.distinctNfcKeys_of_toCanon hrest) hsame hplain hfound hfound' hx hx' hepoch

/-- An accepted statement that counts in every bundle with both its keys is spelled alike, if
there are such bundles and its signature is good for one body only. -/
theorem spelledAlike_of_countsEverywhere {st : Json}
    (hv : verifyRotation N sha256 ed st = .ok v)
    (hids : (nfc N v.old.id, v.old.epoch) ≠ (nfc N v.new.id, v.new.epoch))
    (hvalid : ∀ k ∈ [v.old, v.new], ∀ pub, decodePub k.publicKey = some pub →
      ed.validKey pub = true)
    (hone : ∀ pub, decodePub v.new.publicKey = some pub → SignsOne N sha256 ed st pub)
    (h : CountsEverywhere N sha256 ed st v.old v.new) : SpelledAlike N st := by
  obtain ⟨members, oldPub, newPub, digest, rfl, hf⟩ := verifyRotation_eq_ok_iff.mp hv
  obtain ⟨c, hbundle, hall⟩ := h
  have hc := (Option.filter_eq_some_iff.mp hbundle).1
  have holdValid := hvalid v.old (by simp) oldPub hf.oldKey
  have hnewValid := hvalid v.new (by simp) newPub hf.newKey
  have hlookup := fun id => @lookup_twoKeys N oldPub newPub v.old v.new id
  have hcounted := hall (twoKeys N v.old v.new oldPub newPub)
    ⟨_, by rw [hlookup, if_neg hids, if_pos rfl], hf.oldKey, holdValid⟩
    ⟨_, by rw [hlookup, if_pos rfl], hf.newKey, hnewValid⟩
  obtain ⟨o, n, oe, ne, hcr⟩ := checkRotation_isOk_iff.mp hcounted
  obtain ⟨wo, hwo, hko⟩ := Option.bind_eq_some_iff.mp hf.old
  obtain ⟨wn, hwn, hkn⟩ := Option.bind_eq_some_iff.mp hf.new
  obtain ⟨no, hfo⟩ := keyOf_facts hko
  obtain ⟨nn, hfn⟩ := keyOf_facts hkn
  obtain ⟨hobreaks, hovk, holookup⟩ := key_of_counted hc (by decide) hwo hfo hf.oldKey holdValid
    hcr.oldRef hcr.oldListed
  obtain ⟨hnbreaks, hnvk, hnlookup⟩ := key_of_counted hc (by decide) hwn hfn hf.newKey hnewValid
    hcr.newRef hcr.newListed
  have hpubs : oldPub ≠ newPub := by
    rintro rfl
    exact hf.differ (Or.inr
      ((eq_pubString hf.oldKey hobreaks).trans (eq_pubString hf.newKey hnbreaks).symm))
  have hno : Float64.roundInt no = no := by
    rw [hlookup] at holookup
    split_ifs at holookup with hnew hold
    · rw [← hovk, ← Option.some.inj holookup] at hpubs
      exact absurd rfl hpubs
    · rw [← hfo.value]
      exact (Prod.mk.inj hold).2.symm
  have hnn : Float64.roundInt nn = nn := by
    rw [hlookup] at hnlookup
    split_ifs at hnlookup with hnew hold
    · rw [← hfn.value]
      exact (Prod.mk.inj hnew).2.symm
    · rw [← hnvk, ← Option.some.inj hnlookup] at hpubs
      exact absurd rfl hpubs
  obtain ⟨sig, hsig⟩ : ∃ sig, (Json.obj members).strOf "sig_new" = some sig := by
    cases hsig : (Json.obj members).strOf "sig_new" with
    | some sig => exact ⟨sig, rfl⟩
    | none =>
      have hempty := hf.sigNew
      rw [hsig, Option.getD_none, verifySig_empty] at hempty
      cases hempty
  have hsigned := hf.sigNew
  rw [hsig, Option.getD_some] at hsigned
  have hsigNew := hcr.sigNew
  rw [hnvk] at hsigNew
  obtain ⟨hverify, hsigBreaks⟩ := verifySig_of_rotationSigOk hc (by decide) hsig
    (isAscii_of_verifySig_eq_true hsigned) hsigNew
  have hrewritten := fun field w n => @rewritten_eq_of_signed N sha256 ed members v oldPub newPub
    digest c sig field w n hf hc hsig (hone newPub hf.newKey) hverify
  refine ⟨?_, ?_, ?_, ?_, ?_⟩
  · intro f hmem w e hget hepoch
    refine ⟨?_, hrewritten f w e hmem hget hepoch⟩
    simp only [List.mem_cons, List.not_mem_nil, or_false] at hmem
    rcases hmem with rfl | rfl
    · obtain rfl := Option.some.inj (hwo.symm.trans hget)
      obtain rfl := Json.int.inj (Option.some.inj (hfo.epoch.symm.trans hepoch))
      exact hno
    · obtain rfl := Option.some.inj (hwn.symm.trans hget)
      obtain rfl := Json.int.inj (Option.some.inj (hfn.epoch.symm.trans hepoch))
      exact hnn
  · intro f hmem w pk hget hpk
    simp only [List.mem_cons, List.not_mem_nil, or_false] at hmem
    rcases hmem with rfl | rfl
    · obtain rfl := Option.some.inj (hwo.symm.trans hget)
      obtain rfl := Json.str.inj (Option.some.inj (hfo.publicKey.symm.trans hpk))
      exact hobreaks
    · obtain rfl := Option.some.inj (hwn.symm.trans hget)
      obtain rfl := Json.str.inj (Option.some.inj (hfn.publicKey.symm.trans hpk))
      exact hnbreaks
  · intro s hs
    obtain rfl := Option.some.inj (hsig.symm.trans hs)
    exact hsigBreaks
  · intro hreason s hs
    have hscheduled : v.reason = "scheduled" := Option.some.inj (hf.reason.symm.trans hreason)
    have hsigOld := hf.sigOld hscheduled
    rw [hs, Option.getD_some] at hsigOld
    have hread := Json.strOf_toCanon hc hreason (nfc_rotationField (by decide))
    rw [nfc_of_isAscii N (by decide)] at hread
    exact (verifySig_of_rotationSigOk hc (by decide) hs (isAscii_of_verifySig_eq_true hsigOld)
      (hcr.sigOld hread)).2
  · rw [hbundle]
    rfl

end Backward

section Signed

variable {old new : LineageKey} {rotatedAt reason : String} {oldSK newSK : Option (SigningKey ed)}
  {st : Json}

/-- The signatures of a statement, as its reason asks. -/
def SignedBy (digest reason : String) (old new : LineageKey) (newKey : SigningKey ed)
    (oldSK : Option (SigningKey ed)) (sigs : List (String × Json)) : Prop :=
  new.publicKey = pubString newKey.verifyingKey ∧
    ∃ sigNew, signText keyRotationSigTag digest newKey = some sigNew ∧
      ((reason = "compromise" ∧ sigs = [("sig_new", .str sigNew)]) ∨
        (reason = "scheduled" ∧ ∃ oldKey sigOld, oldSK = some oldKey ∧
          old.publicKey = pubString oldKey.verifyingKey ∧
          signText keyRotationSigTag digest oldKey = some sigOld ∧
          sigs = [("sig_new", .str sigNew), ("sig_old", .str sigOld)]))

/-- A signed statement is the body with its signatures. -/
theorem signRotation_eq_ok
    (h : signRotation N sha256 old new rotatedAt reason oldSK newSK = .ok st) :
    isCanonicalTS rotatedAt = true ∧ ∃ digest newKey sigs, newSK = some newKey ∧
      digestOf N sha256 (.obj (rotationBody old new rotatedAt reason)) = some digest ∧
      SignedBy digest reason old new newKey oldSK sigs ∧
        st = .obj (rotationBody old new rotatedAt reason ++ sigs) := by
  unfold signRotation at h
  simp only [bind_eq_ok_iff, require_eq_ok_iff, orFail_eq_ok_iff] at h
  obtain ⟨_, hreason, _, hat, _, hold, newKey, hnew, _, hpub, _, hoPub, digest, hdigest, sigNew,
    hsigNew, h⟩ := h
  refine ⟨hat, digest, newKey, ?_⟩
  by_cases hscheduled : reason = "scheduled"
  · rw [if_pos hscheduled] at h
    simp only [bind_eq_ok_iff, orFail_eq_ok_iff] at h
    obtain ⟨oldKey, holdKey, sigOld, hsigOld, heq⟩ := h
    obtain rfl := Except.ok.inj heq
    refine ⟨[("sig_new", .str sigNew), ("sig_old", .str sigOld)], hnew, hdigest,
      ⟨hpub.symm, sigNew, hsigNew,
        Or.inr ⟨hscheduled, oldKey, sigOld, holdKey, ?_, hsigOld, rfl⟩⟩, ?_⟩
    · exact (hoPub hscheduled oldKey (Option.mem_def.mpr holdKey)).symm
    · rw [List.append_assoc]
      rfl
  · rw [if_neg hscheduled] at h
    obtain rfl := Except.ok.inj h
    exact ⟨[("sig_new", .str sigNew)], hnew, hdigest,
      ⟨hpub.symm, sigNew, hsigNew, Or.inl ⟨hreason.resolve_left hscheduled, rfl⟩⟩, rfl⟩

/-- A key that was written is read back. -/
theorem decodePub_pubString (vk : Vector UInt8 32) : decodePub (pubString vk) = some vk := by
  rw [decodePub, pubString, stripPrefix_append, Option.bind_some, B64.strictFixed_encode]

theorem withoutBreaks_pubString (vk : Vector UInt8 32) :
    B64.withoutBreaks (pubString vk) = pubString vk :=
  (B64.withoutBreaks_append_eq_self_iff withoutBreaks_pubkeyPrefix).mpr (B64.withoutBreaks_encode _)

/-- What the server signs, both sides accept. -/
theorem verifySig_of_signText {digest sig : String} {sk : SigningKey ed}
    (h : signText keyRotationSigTag digest sk = some sig) :
    verifySig ed digest sig sk.verifyingKey = true ∧ B64.withoutBreaks sig = sig := by
  obtain ⟨msg, hmsg, rfl⟩ := Option.map_eq_some_iff.mp h
  constructor
  · unfold verifySig
    rw [stripPrefix_append, Option.bind_some, B64.strictFixed_encode, Option.any_some, hmsg,
      Option.any_some]
    exact sk.correct msg
  · exact (B64.withoutBreaks_append_eq_self_iff withoutBreaks_sigPrefix).mpr
      (B64.withoutBreaks_encode _)

/-- A key that is read back as it was written. -/
structure Sound (k : LineageKey) (pub : Vector UInt8 32) : Prop where
  id : k.id ≠ ""
  epoch : 0 ≤ k.epoch ∧ k.epoch < 2 ^ 63
  publicKey : k.publicKey = pubString pub

/-- A sound key with an exact epoch is read back. -/
theorem keyOf_toJson {k : LineageKey} {pub : Vector UInt8 32} (h : Sound k pub)
    (hexact : Float64.roundInt k.epoch = k.epoch) : keyOf k.toJson = some k := by
  have hrange := h.epoch
  have hwhole : wholeDouble (.int k.epoch) = some k.epoch := by
    rw [wholeDouble, hexact]
    exact if_pos (by omega)
  have hid := h.id
  simp [keyOf, LineageKey.toJson, Json.asObject, Json.strOf, Json.get, Json.asStr, hwhole, hid]

theorem toCanon_str (t : String) : ∃ c, (Json.str t).toCanon N = some c ∧ c.depth ≤ 0 :=
  ⟨_, rfl, Nat.le_refl 0⟩

theorem toCanon_toJson {k : LineageKey} {pub : Vector UInt8 32} (h : Sound k pub) :
    ∃ c, k.toJson.toCanon N = some c ∧ c.depth ≤ 1 := by
  have hrange := h.epoch
  have hint : (Json.int k.epoch).toCanon N = some (.int (Int64.ofInt k.epoch)) := if_pos (by omega)
  refine Json.exists_toCanon_obj ?_ (show ["signing_key_id", "key_epoch", "public_key"].Nodup by
    decide)
  intro m hm
  simp only [List.mem_cons, List.not_mem_nil, or_false] at hm
  rcases hm with rfl | rfl | rfl
  · exact ⟨(by decide : isAscii "signing_key_id" = true), toCanon_str k.id⟩
  · exact ⟨(by decide : isAscii "key_epoch" = true), _, hint, Nat.le_refl 0⟩
  · exact ⟨(by decide : isAscii "public_key" = true), toCanon_str k.publicKey⟩

/-- What a written key has for its fields. -/
theorem toJson_facts {k : LineageKey} (hexact : Float64.roundInt k.epoch = k.epoch) :
    KeyFacts k.toJson k k.epoch :=
  ⟨⟨_, rfl, rfl⟩, rfl, rfl, rfl, hexact.symm⟩

/-- A body is read together with texts under other plain keys. -/
theorem toCanon_rotationBody {oldPub newPub : Vector UInt8 32} (hold : Sound old oldPub)
    (hnew : Sound new newPub) {sigs : List (String × Json)}
    (htexts : ∀ m ∈ sigs, isAscii m.1 = true ∧ ∃ t, m.2 = .str t)
    (hnodup : (["kind", "old_key", "new_key", "rotated_at", "reason"] ++ sigs.map (·.1)).Nodup) :
    ∃ c, (Json.obj (rotationBody old new rotatedAt reason ++ sigs)).toCanon N = some c ∧
      c.depth ≤ 2 := by
  have htext : ∀ f t, isAscii f = true → isAscii (f, Json.str t).1 = true ∧
      ∃ c, (f, Json.str t).2.toCanon N = some c ∧ c.depth ≤ 1 := by
    intro f t hf
    obtain ⟨c, hc, hd⟩ := @toCanon_str N t
    exact ⟨hf, c, hc, hd.trans (Nat.zero_le 1)⟩
  refine Json.exists_toCanon_obj ?_ (by
    rw [List.map_append]
    exact hnodup)
  intro m hm
  rcases List.mem_append.mp hm with hm | hm
  · simp only [rotationBody, List.mem_cons, List.not_mem_nil, or_false] at hm
    rcases hm with rfl | rfl | rfl | rfl | rfl
    · exact htext _ _ (by decide)
    · exact ⟨(by decide : isAscii "old_key" = true), toCanon_toJson hold⟩
    · exact ⟨(by decide : isAscii "new_key" = true), toCanon_toJson hnew⟩
    · exact htext _ _ (by decide)
    · exact htext _ _ (by decide)
  · obtain ⟨hascii, t, ht⟩ := htexts m hm
    obtain ⟨c, hc, hd⟩ := @toCanon_str N t
    refine ⟨hascii, c, ?_, hd.trans (Nat.zero_le 1)⟩
    rw [ht, hc]

/-- The members of a signed statement are read in a bundle. -/
theorem inBundle_signed {oldPub newPub : Vector UInt8 32} (hold : Sound old oldPub)
    (hnew : Sound new newPub) {sigs : List (String × Json)}
    (hsigs : ∃ sigNew, sigs = [("sig_new", .str sigNew)] ∨
      ∃ sigOld, sigs = [("sig_new", .str sigNew), ("sig_old", .str sigOld)]) :
    ((Json.obj (rotationBody old new rotatedAt reason ++ sigs)).inBundle N).isSome = true := by
  obtain ⟨c, hc, hdepth⟩ :
      ∃ c, (Json.obj (rotationBody old new rotatedAt reason ++ sigs)).toCanon N =
      some c ∧ c.depth ≤ 2 := by
    apply toCanon_rotationBody hold hnew
    · obtain ⟨sigNew, rfl | ⟨sigOld, rfl⟩⟩ := hsigs <;> intro m hm <;>
        simp only [List.mem_cons, List.not_mem_nil, or_false] at hm
      · rw [hm]
        exact ⟨(by decide : isAscii "sig_new" = true), sigNew, rfl⟩
      · rcases hm with rfl | rfl
        · exact ⟨(by decide : isAscii "sig_new" = true), sigNew, rfl⟩
        · exact ⟨(by decide : isAscii "sig_old" = true), sigOld, rfl⟩
    · obtain ⟨sigNew, rfl | ⟨sigOld, rfl⟩⟩ := hsigs <;> simp
  have hbundle :
      (Json.obj (rotationBody old new rotatedAt reason ++ sigs)).inBundle N = some c := by
    rw [Json.inBundle, hc, Option.filter_eq_some_iff]
    refine ⟨rfl, decide_eq_true ?_⟩
    unfold maxDepth
    omega
  rw [hbundle]
  rfl

/-- A rotation between two keys at hand is signed. -/
theorem exists_signRotation {oldKey newKey : SigningKey ed}
    (hold : Sound old oldKey.verifyingKey) (hnew : Sound new newKey.verifyingKey)
    (hat : isCanonicalTS rotatedAt = true) (hreason : reason = "scheduled") :
    ∃ st, signRotation N sha256 old new rotatedAt reason (some oldKey) (some newKey) = .ok st := by
  obtain ⟨c, hc, hdepth⟩ := @toCanon_rotationBody N old new rotatedAt reason _ _ hold hnew []
    (fun m hm => absurd hm List.not_mem_nil) (by simp)
  rw [List.append_nil] at hc
  have hdigest : ∃ digest, digestOf N sha256 (.obj (rotationBody old new rotatedAt reason)) =
      some digest := by
    refine ⟨rootText (sha256 (writeCanonical N c).bytes), ?_⟩
    rw [digestOf, hc, Option.bind_some, rcpEvidenceHash, if_pos]
    unfold maxDepth
    omega
  obtain ⟨digest, hdigest⟩ := hdigest
  have hsig : ∀ sk : SigningKey ed, ∃ sig, signText keyRotationSigTag digest sk = some sig :=
    fun sk => ⟨_, rfl⟩
  obtain ⟨sigNew, hsigNew⟩ := hsig newKey
  obtain ⟨sigOld, hsigOld⟩ := hsig oldKey
  refine ⟨.obj (rotationBody old new rotatedAt reason ++ [("sig_new", .str sigNew)] ++
    [("sig_old", .str sigOld)]), ?_⟩
  unfold signRotation
  simp only [bind_eq_ok_iff, require_eq_ok_iff, orFail_eq_ok_iff]
  refine ⟨(), Or.inl hreason, (), hat, (), ?_, newKey, rfl, (), hnew.publicKey.symm, (), ?_,
    digest, hdigest,
    sigNew, hsigNew, ?_⟩
  · rintro ⟨-, hnone⟩
    cases hnone
  · intro _ sk hsk
    rw [← Option.some.inj (Option.mem_def.mp hsk)]
    exact hold.publicKey.symm
  · rw [if_pos hreason]
    simp only [bind_eq_ok_iff, orFail_eq_ok_iff]
    exact ⟨oldKey, rfl, sigOld, hsigOld, rfl⟩

/-- A body with exact epochs is hashed as it stands. -/
theorem viaDouble_rotationBody {oldPub newPub : Vector UInt8 32} (hold : Sound old oldPub)
    (hnew : Sound new newPub) (hexact : EpochExact old.epoch) (hexact' : EpochExact new.epoch) :
    (Json.obj (rotationBody old new rotatedAt reason)).viaDouble =
      .obj (rotationBody old new rotatedAt reason) := by
  obtain ⟨co, hco, -⟩ := @toCanon_toJson .identity _ _ hold
  obtain ⟨cn, hcn, -⟩ := @toCanon_toJson .identity _ _ hnew
  apply viaDouble_obj
  intro m hm
  simp only [rotationBody, List.mem_cons, List.not_mem_nil, or_false] at hm
  rcases hm with rfl | rfl | rfl | rfl | rfl
  · rfl
  · exact (toJson_facts hexact.1).viaDouble hexact hco
  · exact (toJson_facts hexact'.1).viaDouble hexact' hcn
  · rfl
  · rfl

/-- What a signed statement says, if the epochs are exact. -/
theorem statementFacts_of_signed {oldPub newPub : Vector UInt8 32} {digest : String}
    {newKey : SigningKey ed} {sigs : List (String × Json)}
    (hold : Sound old oldPub) (hnew : Sound new newPub)
    (hdiffer : ¬ (old.id = new.id ∧ old.epoch = new.epoch ∨ old.publicKey = new.publicKey))
    (hexact : EpochExact old.epoch) (hexact' : EpochExact new.epoch)
    (hat : isCanonicalTS rotatedAt = true)
    (hdigest : digestOf N sha256 (.obj (rotationBody old new rotatedAt reason)) = some digest)
    (hsigs : SignedBy digest reason old new newKey oldSK sigs) :
    StatementFacts N sha256 ed (rotationBody old new rotatedAt reason ++ sigs)
      ⟨old, new, rotatedAt, reason⟩ oldPub newPub digest := by
  obtain ⟨hpub, sigNew, hsigNew, hshape⟩ := hsigs
  have hnewPub : newPub = newKey.verifyingKey := by
    have hsame := decodePub_pubString newKey.verifyingKey
    rw [← hpub, hnew.publicKey, decodePub_pubString] at hsame
    exact Option.some.inj hsame
  have holdKey : decodePub old.publicKey = some oldPub := by
    rw [hold.publicKey, decodePub_pubString]
  have hnewKey : decodePub new.publicKey = some newPub := by
    rw [hnew.publicKey, decodePub_pubString]
  have hunsigned : unsignedMembers (rotationBody old new rotatedAt reason ++ sigs) =
      rotationBody old new rotatedAt reason := by
    rcases hshape with ⟨-, rfl⟩ | ⟨-, _, _, -, -, -, rfl⟩ <;>
      simp [unsignedMembers, rotationBody]
  have hhash : digestOf N sha256
      (Json.obj (unsignedMembers (rotationBody old new rotatedAt reason ++ sigs))).viaDouble =
        some digest := by
    rw [hunsigned, viaDouble_rotationBody hold hnew hexact hexact', hdigest]
  have hfound : ((Json.obj (rotationBody old new rotatedAt reason ++ sigs)).strOf "sig_new").getD
      "" = sigNew := by
    rcases hshape with ⟨-, rfl⟩ | ⟨-, _, _, -, -, -, rfl⟩ <;> rfl
  have hgetOld : (Json.obj (rotationBody old new rotatedAt reason ++ sigs)).get "old_key" =
      some old.toJson := rfl
  have hgetNew : (Json.obj (rotationBody old new rotatedAt reason ++ sigs)).get "new_key" =
      some new.toJson := rfl
  refine ⟨?_, rfl, rfl, ?_, rfl, hat, ?_, ?_, hdiffer, holdKey, hnewKey, hhash, ?_, ?_⟩
  · rcases hshape with ⟨-, rfl⟩ | ⟨-, _, _, -, -, -, rfl⟩ <;> simp [rotationBody, rotationFields]
  · rcases hshape with ⟨hr, -⟩ | ⟨hr, -⟩
    · exact Or.inr hr
    · exact Or.inl hr
  · rw [hgetOld, Option.bind_some, keyOf_toJson hold hexact.1]
  · rw [hgetNew, Option.bind_some, keyOf_toJson hnew hexact'.1]
  · rw [hfound, hnewPub]
    exact (verifySig_of_signText hsigNew).1
  · rintro hscheduled
    rcases hshape with ⟨hr, -⟩ | ⟨-, oldSigner, sigOld, -, holdPub, hsigOld, rfl⟩
    · exact absurd (hr.symm.trans hscheduled) (by decide)
    · have hsame : oldPub = oldSigner.verifyingKey := by
        have hsame := decodePub_pubString oldSigner.verifyingKey
        rw [← holdPub, hold.publicKey, decodePub_pubString] at hsame
        exact Option.some.inj hsame
      rw [hsame]
      exact (verifySig_of_signText hsigOld).1

end Signed

/-- Two different recording keys with names in normal form and valid points. -/
structure DistinctKeyPair (N : Normalizer) (ed : Ed25519) (old new : LineageKey)
    (oldPub newPub : Vector UInt8 32) : Prop where
  oldSound : Sound old oldPub
  newSound : Sound new newPub
  normal : nfc N old.id = old.id ∧ nfc N new.id = new.id
  points : ed.validKey oldPub = true ∧ ed.validKey newPub = true
  ids : (old.id, old.epoch) ≠ (new.id, new.epoch)
  publicKeys : old.publicKey ≠ new.publicKey

/-- The two keys differ. -/
theorem DistinctKeyPair.not_same {old new : LineageKey} {oldPub newPub : Vector UInt8 32}
    (h : DistinctKeyPair N ed old new oldPub newPub) :
    ¬ (old.id = new.id ∧ old.epoch = new.epoch ∨ old.publicKey = new.publicKey) := by
  rintro (⟨hid, hepoch⟩ | hpub)
  · exact h.ids (Prod.ext hid hepoch)
  · exact h.publicKeys hpub

/-- The signatures of a statement end it. -/
theorem SignedBy.shape {digest reason : String} {old new : LineageKey} {newKey : SigningKey ed}
    {oldSK : Option (SigningKey ed)} {sigs : List (String × Json)}
    (h : SignedBy digest reason old new newKey oldSK sigs) :
    ∃ sigNew, sigs = [("sig_new", .str sigNew)] ∨
      ∃ sigOld, sigs = [("sig_new", .str sigNew), ("sig_old", .str sigOld)] := by
  obtain ⟨-, sigNew, -, ⟨-, rfl⟩ | ⟨-, _, sigOld, -, -, -, rfl⟩⟩ := h
  · exact ⟨sigNew, Or.inl rfl⟩
  · exact ⟨sigNew, Or.inr ⟨sigOld, rfl⟩⟩

/-- A signed statement with exact epochs is spelled alike. -/
theorem spelledAlike_of_signed {old new : LineageKey} {oldPub newPub : Vector UInt8 32}
    {rotatedAt reason digest : String} {newKey : SigningKey ed} {oldSK : Option (SigningKey ed)}
    {sigs : List (String × Json)} (h : DistinctKeyPair N ed old new oldPub newPub)
    (hexact : EpochExact old.epoch) (hexact' : EpochExact new.epoch)
    (hsigs : SignedBy digest reason old new newKey oldSK sigs) :
    SpelledAlike N (.obj (rotationBody old new rotatedAt reason ++ sigs)) := by
  refine ⟨?_, ?_, ?_, ?_, inBundle_signed h.oldSound h.newSound hsigs.shape⟩
  · intro f hf w n hget hepoch
    simp only [List.mem_cons, List.not_mem_nil, or_false] at hf
    rcases hf with rfl | rfl
    · obtain rfl := Option.some.inj hget
      obtain rfl := Json.int.inj (Option.some.inj hepoch)
      exact hexact
    · obtain rfl := Option.some.inj hget
      obtain rfl := Json.int.inj (Option.some.inj hepoch)
      exact hexact'
  · intro f hf w pk hget hpub
    simp only [List.mem_cons, List.not_mem_nil, or_false] at hf
    rcases hf with rfl | rfl
    · obtain rfl := Option.some.inj hget
      obtain rfl := Json.str.inj (Option.some.inj hpub)
      rw [h.oldSound.publicKey]
      exact withoutBreaks_pubString oldPub
    · obtain rfl := Option.some.inj hget
      obtain rfl := Json.str.inj (Option.some.inj hpub)
      rw [h.newSound.publicKey]
      exact withoutBreaks_pubString newPub
  · intro s hs
    obtain ⟨-, sigNew, hsigNew, hshape⟩ := hsigs
    obtain rfl : sigNew = s := by
      rcases hshape with ⟨-, rfl⟩ | ⟨-, _, _, -, -, -, rfl⟩ <;> exact Option.some.inj hs
    exact (verifySig_of_signText hsigNew).2
  · intro hreason s hs
    obtain ⟨-, sigNew, -, ⟨hr, -⟩ | ⟨-, _, sigOld, -, -, hsigOld, rfl⟩⟩ := hsigs
    · exact absurd (hr.symm.trans (Option.some.inj hreason)) (by decide)
    · obtain rfl : sigOld = s := Option.some.inj hs
      exact (verifySig_of_signText hsigOld).2

/-- What the server signs with exact epochs it also accepts, and it counts. -/
theorem verifyRotation_of_signed {old new : LineageKey} {oldPub newPub : Vector UInt8 32}
    {rotatedAt reason : String} {oldSK newSK : Option (SigningKey ed)} {st : Json}
    (hpair : DistinctKeyPair N ed old new oldPub newPub)
    (hsign : signRotation N sha256 old new rotatedAt reason oldSK newSK = .ok st)
    (hexact : EpochExact old.epoch) (hexact' : EpochExact new.epoch) :
    verifyRotation N sha256 ed st = .ok ⟨old, new, rotatedAt, reason⟩ ∧
      CountsEverywhere N sha256 ed st old new := by
  obtain ⟨hat, digest, newKey, sigs, -, hdigest, hsigs, rfl⟩ := signRotation_eq_ok hsign
  have hok : verifyRotation N sha256 ed (.obj (rotationBody old new rotatedAt reason ++ sigs)) =
      .ok ⟨old, new, rotatedAt, reason⟩ :=
    verifyRotation_eq_ok_iff.mpr ⟨_, oldPub, newPub, digest, rfl, statementFacts_of_signed
      hpair.oldSound hpair.newSound hpair.not_same hexact hexact' hat hdigest hsigs⟩
  exact ⟨hok, countsEverywhere_of_spelledAlike hok
    (spelledAlike_of_signed hpair hexact hexact' hsigs)⟩

/-- What the server signs it also accepts, with the same keys, and it counts in every bundle with
both keys, exactly if the epochs come through a double unchanged. What the server accepts counts so
exactly if it is spelled alike. That this is needed rests on the signature not being good for both
of the bodies that the two sides hash, if these differ. -/
theorem rotation_judgedAlike :
    (∀ {old new : LineageKey} {oldPub newPub : Vector UInt8 32} {rotatedAt reason : String}
        {oldSK newSK : Option (SigningKey ed)} {st : Json},
      DistinctKeyPair N ed old new oldPub newPub →
      signRotation N sha256 old new rotatedAt reason oldSK newSK = .ok st →
      (EpochExact old.epoch ∧ EpochExact new.epoch →
        verifyRotation N sha256 ed st = .ok ⟨old, new, rotatedAt, reason⟩ ∧
          CountsEverywhere N sha256 ed st old new) ∧
      (SignsOne N sha256 ed st newPub →
        verifyRotation N sha256 ed st = .ok ⟨old, new, rotatedAt, reason⟩ ∧
          CountsEverywhere N sha256 ed st old new →
        EpochExact old.epoch ∧ EpochExact new.epoch)) ∧
    ∀ {st : Json} {v : Verified}, verifyRotation N sha256 ed st = .ok v →
      (SpelledAlike N st → CountsEverywhere N sha256 ed st v.old v.new) ∧
      ((nfc N v.old.id, v.old.epoch) ≠ (nfc N v.new.id, v.new.epoch) →
        (∀ k ∈ [v.old, v.new], ∀ pub, decodePub k.publicKey = some pub → ed.validKey pub = true) →
        (∀ pub, decodePub v.new.publicKey = some pub → SignsOne N sha256 ed st pub) →
        CountsEverywhere N sha256 ed st v.old v.new → SpelledAlike N st) := by
  refine ⟨?_, ?_⟩
  · intro old new oldPub newPub rotatedAt reason oldSK newSK st hpair hsign
    constructor
    · rintro ⟨hexact, hexact'⟩
      exact verifyRotation_of_signed hpair hsign hexact hexact'
    · rintro hone ⟨hok, hcounts⟩
      obtain ⟨-, digest, newKey, sigs, -, -, -, rfl⟩ := signRotation_eq_ok hsign
      have hnewKey : decodePub new.publicKey = some newPub := by
        rw [hpair.newSound.publicKey, decodePub_pubString]
      have hspelled := spelledAlike_of_countsEverywhere hok
        (by
          rw [hpair.normal.1, hpair.normal.2]
          exact hpair.ids)
        (by
          intro k hk pub hpub
          simp only [List.mem_cons, List.not_mem_nil, or_false] at hk
          rcases hk with rfl | rfl
          · rw [hpair.oldSound.publicKey, decodePub_pubString] at hpub
            rw [← Option.some.inj hpub]
            exact hpair.points.1
          · rw [hpair.newSound.publicKey, decodePub_pubString] at hpub
            rw [← Option.some.inj hpub]
            exact hpair.points.2)
        (by
          intro pub hpub
          rw [← Option.some.inj (hnewKey.symm.trans hpub)]
          exact hone)
        hcounts
      exact ⟨hspelled.epochs "old_key" (by simp) old.toJson old.epoch rfl rfl,
        hspelled.epochs "new_key" (by simp) new.toJson new.epoch rfl rfl⟩
  · intro st v hok
    refine ⟨countsEverywhere_of_spelledAlike hok, ?_⟩
    intro hids hvalid hone hcounts
    exact spelledAlike_of_countsEverywhere hok hids hvalid hone hcounts

/-- A key of the scheme that accepts every signature. -/
def anyKey (b : UInt8) : SigningKey anySig :=
  ⟨fun _ => Vector.replicate 64 0, Vector.replicate 32 b, fun _ => rfl⟩

/-- The public half of such a key under a name. -/
def anyLineageKey (id : String) (epoch : Int) (b : UInt8) : LineageKey :=
  ⟨id, epoch, pubString (anyKey b).verifyingKey⟩

/-- A canonical time. -/
def someTime : String := "2026-01-02T03:04:05.678Z"

theorem sound_anyLineageKey {id : String} {epoch : Int} {b : UInt8} (hid : id ≠ "")
    (hepoch : 0 ≤ epoch ∧ epoch < 2 ^ 63) :
    Sound (anyLineageKey id epoch b) (anyKey b).verifyingKey :=
  ⟨hid, hepoch, rfl⟩

/-- Different keys have different texts. -/
theorem pubString_injective : Function.Injective pubString := by
  intro v w h
  have hread := decodePub_pubString v
  rw [h, decodePub_pubString] at hread
  exact (Option.some.inj hread).symm

/-- The sample's keys have different texts. -/
theorem anyKey_ne {a b : UInt8} (h : a ≠ b) :
    pubString (anyKey a).verifyingKey ≠ pubString (anyKey b).verifyingKey := by
  intro hsame
  have hvec : Vector.replicate 32 a = Vector.replicate 32 b := pubString_injective hsame
  apply h
  have hhead := congrArg (fun v => v[0]) hvec
  simpa using hhead

/-- Two keys of the scheme under different names. -/
theorem distinctKeyPair_any {id id' : String} {epoch epoch' : Int} {a b : UInt8}
    (hid : id ≠ "" ∧ id' ≠ "" ∧ id ≠ id') (hepoch : 0 ≤ epoch ∧ epoch < 2 ^ 63)
    (hepoch' : 0 ≤ epoch' ∧ epoch' < 2 ^ 63) (hab : a ≠ b) :
    DistinctKeyPair .identity anySig (anyLineageKey id epoch a) (anyLineageKey id' epoch' b)
      (anyKey a).verifyingKey (anyKey b).verifyingKey := by
  refine ⟨sound_anyLineageKey hid.1 hepoch, sound_anyLineageKey hid.2.1 hepoch', ⟨?_, ?_⟩,
    ⟨rfl, rfl⟩, ?_, anyKey_ne hab⟩
  · unfold nfc
    split_ifs <;> rfl
  · unfold nfc
    split_ifs <;> rfl
  · intro hsame
    exact hid.2.2 (Prod.mk.inj hsame).1

/-- A key whose epoch no double holds: the server signs the rotation and does not accept it. -/
theorem rotation_largeEpoch :
    DistinctKeyPair .identity anySig (anyLineageKey "a" (2 ^ 53 + 1) 1) (anyLineageKey "b" 0 2)
        (anyKey 1).verifyingKey (anyKey 2).verifyingKey ∧
      ∃ st, signRotation .identity blankHash (anyLineageKey "a" (2 ^ 53 + 1) 1)
          (anyLineageKey "b" 0 2) someTime "scheduled" (some (anyKey 1)) (some (anyKey 2)) =
            .ok st ∧
        verifyRotation .identity blankHash anySig st ≠
          .ok ⟨anyLineageKey "a" (2 ^ 53 + 1) 1, anyLineageKey "b" 0 2, someTime, "scheduled"⟩ := by
  have hpair := @distinctKeyPair_any "a" "b" (2 ^ 53 + 1) 0 1 2 (by decide) (by omega) (by omega)
    (by decide)
  refine ⟨hpair, ?_⟩
  obtain ⟨st, hst⟩ := @exists_signRotation .identity blankHash anySig _ _ someTime "scheduled" _ _
    hpair.oldSound hpair.newSound (by decide) rfl
  refine ⟨st, hst, ?_⟩
  intro hok
  obtain ⟨-, digest, newKey, sigs, -, -, -, rfl⟩ := signRotation_eq_ok hst
  obtain ⟨members, oldPub, newPub, digest', hmembers, hf⟩ := verifyRotation_eq_ok_iff.mp hok
  obtain rfl := Json.obj.inj hmembers
  obtain ⟨w, hw, hkey⟩ := Option.bind_eq_some_iff.mp hf.old
  obtain rfl := Option.some.inj hw
  obtain ⟨n, hfacts⟩ := keyOf_facts hkey
  obtain rfl := Json.int.inj (Option.some.inj hfacts.epoch)
  have hvalue := hfacts.value
  revert hvalue
  decide +kernel

/-- An epoch below two to the fifty-third is exact. -/
theorem epochExact_of_lt {n : Int} (h : n.natAbs < 2 ^ 53) : EpochExact n :=
  ⟨Float64.roundInt_of_lt h, Float64.rewritten_of_lt h⟩

/-- Keys with small epochs. The statement that is signed for them is accepted and counts, and from
that it follows again that it is spelled alike. -/
theorem rotation_judgedAlike_small :
    ∃ st, signRotation .identity blankHash (anyLineageKey "a" 1 1) (anyLineageKey "b" 2 2) someTime
        "scheduled" (some (anyKey 1)) (some (anyKey 2)) = .ok st ∧
      verifyRotation .identity blankHash anySig st =
        .ok ⟨anyLineageKey "a" 1 1, anyLineageKey "b" 2 2, someTime, "scheduled"⟩ ∧
      CountsEverywhere .identity blankHash anySig st (anyLineageKey "a" 1 1)
        (anyLineageKey "b" 2 2) ∧ (EpochExact 1 ∧ EpochExact 2) ∧ SpelledAlike .identity st := by
  have hpair := @distinctKeyPair_any "a" "b" 1 2 1 2 (by decide) (by omega) (by omega) (by decide)
  obtain ⟨st, hst⟩ := @exists_signRotation .identity blankHash anySig _ _ someTime "scheduled" _ _
    hpair.oldSound hpair.newSound (by decide) rfl
  have hone : EpochExact 1 := epochExact_of_lt (by decide)
  have htwo : EpochExact 2 := epochExact_of_lt (by decide)
  obtain ⟨hok, hcounts⟩ := (rotation_judgedAlike.1 hpair hst).1 ⟨hone, htwo⟩
  have hspelled : SpelledAlike .identity st := by
    obtain ⟨-, digest, newKey, sigs, -, -, hsigs, rfl⟩ := signRotation_eq_ok hst
    exact spelledAlike_of_signed hpair hone htwo hsigs
  have hsigns : ∀ pub, SignsOne .identity blankHash anySig st pub :=
    fun _ => signsOne_of_spelledAlike hok hspelled
  refine ⟨st, hst, hok, hcounts,
    (rotation_judgedAlike.1 hpair hst).2 (hsigns _) ⟨hok, hcounts⟩, ?_⟩
  refine (rotation_judgedAlike.2 hok).2 ?_ (fun _ _ _ _ => rfl) (fun pub _ => hsigns pub) hcounts
  exact hpair.ids

end Averin
