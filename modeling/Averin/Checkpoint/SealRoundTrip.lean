import Averin.Checkpoint.Seal
import Averin.Core.Sha256

/-!
# What was sealed verifies

What a key seals verifies under its public half, also after another seal and after an anchor
is attached. Reading the sealed text back gives the canonical form, which hashes alike and
keeps every member that verification reads.
-/

namespace Averin

variable {N : Normalizer} {sha256 : List UInt8 → Vector UInt8 32} {ed : Ed25519}

/-- A text of two ASCII texts is ASCII. -/
theorem isAscii_append {s t : String} (hs : isAscii s = true) (ht : isAscii t = true) :
    isAscii (s ++ t) = true := by
  rw [isAscii, bytes_append, List.all_append, Bool.and_eq_true]
  exact ⟨hs, ht⟩

theorem isAscii_rootText (acc : Vector UInt8 32) : isAscii (rootText acc) = true := by
  refine isAscii_append (by decide) (List.all_eq_true.mpr fun b hb => ?_)
  simpa using lt_of_mem_hexLower hb

theorem isAscii_of_signText {tag text sig : String} {sk : SigningKey ed}
    (h : signText tag text sk = some sig) : isAscii sig = true := by
  obtain ⟨msg, -, rfl⟩ := Option.map_eq_some_iff.mp h
  refine isAscii_append (by decide) (List.all_eq_true.mpr fun b hb => ?_)
  simpa using B64.lt_of_mem_encode hb

/-- A member under a key that is its own normal form is found in the canonical form. -/
theorem get_canonical {v x : CanonValue} {k : String} (hv : DistinctNfcKeys N v)
    (hk : nfc N k = k) (hget : v.get k = some x) :
    (canonical N v).get k = some (canonical N x) := by
  cases v with
  | obj members =>
    have hmem : (k, canonical N x) ∈ members.map fun m => (nfc N m.1, canonical N m.2) := by
      refine List.mem_map.mpr ⟨(k, x), mem_of_get hget, ?_⟩
      rw [hk]
    have hkeys : ((members.map fun m => (nfc N m.1, canonical N m.2)).map (·.1)).Nodup := by
      rw [List.map_map]
      exact hv.nodup
    have hperm := sortMembers_perm (members.map fun m => (nfc N m.1, canonical N m.2))
    rw [canonical, canonicalMembers_eq_map]
    exact get_of_mem ((hperm.map _).nodup_iff.mpr hkeys) (hperm.mem_iff.mpr hmem)
  | _ => cases hget

/-- Keys are stripped from the canonical form as from the value, if normalization makes no
other key look like a stripped one. -/
theorem canonical_withoutKeys {members : List (String × CanonValue)} {strip : List String}
    (hv : DistinctNfcKeys N (.obj members))
    (hstrip : ∀ m ∈ members, nfc N m.1 ∈ strip ↔ m.1 ∈ strip) :
    canonical N ((canonical N (.obj members)).withoutKeys strip) =
      canonical N ((CanonValue.obj members).withoutKeys strip) := by
  have hperm := sortMembers_perm (members.map fun m => (nfc N m.1, canonical N m.2))
  have hfilter : (members.map fun m => (nfc N m.1, canonical N m.2)).filter
        (fun m => !strip.contains m.1) =
      (members.filter fun m => !strip.contains m.1).map fun m =>
        (nfc N m.1, canonical N m.2) := by
    rw [List.filter_map]
    congr 1
    apply List.filter_congr
    intro m hm
    simp [hstrip m hm]
  rw [canonical, canonicalMembers_eq_map, CanonValue.withoutKeys, CanonValue.withoutKeys]
  symm
  rw [canonical_obj_eq_iff (hv.sublist List.filter_sublist).nodup]
  have hsorted := (hperm.filter fun m => !strip.contains m.1).map fun m =>
    (nfc N m.1, canonical N m.2)
  rw [hfilter, List.map_map] at hsorted
  refine List.Perm.trans (List.Perm.of_eq ?_) hsorted.symm
  apply List.map_congr_left
  intro m _
  rw [Function.comp_apply, nfc_nfc, canonical_canonical]

/-- The canonical form keeps keys distinct. -/
theorem DistinctNfcKeys.canonical {v : CanonValue} (h : DistinctNfcKeys N v) :
    DistinctNfcKeys N (canonical N v) := by
  obtain ⟨hfixed, hkeys, -⟩ := (writeCanonical_text h le_rfl).wellFormed
  exact hkeys.nfc hfixed

theorem DistinctNfcKeys.withoutKeys {v : CanonValue} (h : DistinctNfcKeys N v)
    (keys : List String) : DistinctNfcKeys N (v.withoutKeys keys) := by
  cases v with
  | obj members => exact h.sublist List.filter_sublist
  | _ => exact h

/-- The canonical form of a body hashes like the body. -/
theorem hashBody_canonical {members : List (String × CanonValue)} {strip : List String}
    {domain version ch : String} (hv : DistinctNfcKeys N (.obj members))
    (hstrip : ∀ m ∈ members, nfc N m.1 ∈ strip ↔ m.1 ∈ strip)
    (hdomain : (CanonValue.obj members).get "domain" = some (.str domain))
    (hversion : (CanonValue.obj members).get "canon_version" = some (.str version))
    (had : isAscii domain = true) (hav : isAscii version = true)
    (h : hashBody N sha256 (.obj members) strip = .ok ch) :
    hashBody N sha256 (canonical N (.obj members)) strip = .ok ch := by
  unfold hashBody at h ⊢
  split at h
  · cases h
  · next p hp =>
    obtain ⟨d, c, hd, hc, hdl, hcl, hu, rfl⟩ := bodyPreimage_eq_ok_iff.mp hp
    obtain rfl : d = domain := by simpa using hd.symm.trans hdomain
    obtain rfl : c = version := by simpa using hc.symm.trans hversion
    have hd' := get_canonical hv (nfc_of_isAscii N (by decide)) hdomain
    have hc' := get_canonical hv (nfc_of_isAscii N (by decide)) hversion
    rw [canonical, nfc_of_isAscii N had] at hd'
    rw [canonical, nfc_of_isAscii N hav] at hc'
    have hp' := bodyPreimage_eq_ok_iff.mpr ⟨d, c, hd', hc', hdl, hcl,
      hv.canonical.withoutKeys strip, rfl⟩
    rw [← writeCanonical_canonical, canonical_withoutKeys hv hstrip,
      writeCanonical_canonical] at hp'
    rw [hp']
    exact h

/-- A body's hash is ASCII. -/
theorem isAscii_of_hashBody {v : CanonValue} {strip : List String} {ch : String}
    (h : hashBody N sha256 v strip = .ok ch) : isAscii ch = true := by
  unfold hashBody at h
  split at h
  · cases h
  · exact Except.ok.inj h ▸ isAscii_rootText _

/-- What is hashed is an object whose members outside the stripped ones repeat no key. -/
theorem exists_of_hashBody {v : CanonValue} {strip : List String} {ch : String}
    (h : hashBody N sha256 v strip = .ok ch) :
    ∃ members, v = .obj members ∧
      DistinctNfcKeys N (.obj (members.filter fun m => !strip.contains m.1)) := by
  unfold hashBody at h
  split at h
  · cases h
  · next p hp =>
    obtain ⟨d, c, hd, -, -, -, hu, -⟩ := bodyPreimage_eq_ok_iff.mp hp
    cases v with
    | obj members => exact ⟨members, rfl, hu⟩
    | _ => cases hd

/-- A key that is present is not the normal form of another one. -/
theorem key_eq_of_nfc_eq {members : List (String × CanonValue)} {k : String} {x : CanonValue}
    (hv : DistinctNfcKeys N (.obj members)) (hget : (CanonValue.obj members).get k = some x)
    (hk : nfc N k = k) {m : String × CanonValue} (hm : m ∈ members) (h : nfc N m.1 = k) :
    m.1 = k := by
  have heq := List.inj_on_of_nodup_map hv.nodup hm (mem_of_get hget) (h.trans hk.symm)
  rw [heq]

theorem isAscii_requiredTopKeys : ∀ k ∈ requiredTopKeys, isAscii k = true :=
  forall_mem_of_all (by decide)

theorem isAscii_allowedTopKeys : ∀ k ∈ allowedTopKeys, isAscii k = true :=
  forall_mem_of_all (by decide)

/-- The members of a sealed record under their keys, of which no two are one. -/
theorem distinct_of_sealed {body sealed : CanonValue} {sk : SigningKey ed}
    (h : sealRecord N sha256 body sk = .ok sealed) : DistinctNfcKeys N sealed := by
  obtain ⟨ch, sig, hch, hsig, rfl, hshape⟩ := sealRecord_eq_ok_iff.mp h
  obtain ⟨members, rfl, hkept⟩ := exists_of_hashBody hch
  obtain ⟨_, hvalid, -⟩ := bind_eq_ok_iff.mp hshape
  obtain ⟨⟨sealedMembers, hobj, hallowed⟩, -⟩ := validateRecordShape_eq_ok_iff.mp hvalid
  rw [CanonValue.putSeal_obj (by decide)] at hobj ⊢
  obtain rfl := CanonValue.obj.inj hobj
  obtain _ | _ | _ | _ | _ | ⟨hnodup, hvals⟩ := hkept
  refine .obj ?_ ?_
  · -- the keys are ASCII, so normalization does not bring two of them together
    rw [List.map_map, List.map_congr_left fun m hm => ?_, List.map_append]
    · refine List.Nodup.append (List.Nodup.of_map _ hnodup) (by simp) ?_
      intro k hk hk'
      obtain ⟨m, hm, rfl⟩ := List.mem_map.mp hk
      have hm' := (List.mem_filter.mp hm).2
      simp only [List.map_cons, List.map_nil] at hk'
      simp [hk'] at hm'
    · exact nfc_of_isAscii N (isAscii_allowedTopKeys _ (hallowed m hm))
  · intro m hm
    rcases List.mem_append.mp hm with hm | hm
    · exact hvals m hm
    · simp only [List.mem_cons, List.not_mem_nil, or_false] at hm
      rcases hm with rfl | rfl
      · exact .str trivial
      · exact .str trivial

/-- A record that verifies also does so in its canonical form. -/
theorem verifySealed_canonical {record : CanonValue} {vk : Vector UInt8 32} {sig : String}
    (hkeys : DistinctNfcKeys N record) (hsig : record.get "sig" = some (.str sig))
    (hascii : isAscii sig = true) (h : verifySealed N sha256 ed record vk = .ok ()) :
    verifySealed N sha256 ed (canonical N record) vk = .ok () := by
  obtain ⟨hshape, ch, sig', hch, hsig', hcomputed, hverify⟩ := verifySealed_eq_ok_iff.mp h
  obtain rfl : sig' = sig := by simpa using hsig'.symm.trans hsig
  simp only [checkSealedShape, bind_eq_ok_iff, validateRecordShape_eq_ok_iff,
    checkPins_eq_ok_iff] at hshape
  obtain ⟨u, ⟨⟨members, rfl, hallowed⟩, hreq⟩, hdomain, hversion⟩ := hshape
  have hget : ∀ {k s}, isAscii k = true → isAscii s = true →
      (CanonValue.obj members).get k = some (.str s) →
      (canonical N (.obj members)).get k = some (.str s) := by
    intro k s hk hs hks
    have := get_canonical hkeys (nfc_of_isAscii N hk) hks
    rwa [canonical, nfc_of_isAscii N hs] at this
  have hnfc : ∀ m ∈ members, nfc N m.1 = m.1 := fun m hm =>
    nfc_of_isAscii N (isAscii_allowedTopKeys _ (hallowed m hm))
  rw [verifySealed_eq_ok_iff]
  refine ⟨?_, ch, sig', hget (by decide) (isAscii_of_hashBody hcomputed) hch,
    hget (by decide) hascii hsig', ?_, hverify⟩
  · simp only [checkSealedShape, bind_eq_ok_iff, validateRecordShape_eq_ok_iff,
      checkPins_eq_ok_iff]
    refine ⟨u, ⟨⟨_, canonical_obj N members, ?_⟩, ?_⟩, hget (by decide) (by decide) hdomain,
      hget (by decide) (by decide) hversion⟩
    · intro m hm
      obtain ⟨m', hm', rfl⟩ := List.mem_map.mp hm
      obtain ⟨m'', hm'', rfl⟩ := exists_of_mem_writingOrder hm'
      exact (hnfc m'' hm'').symm ▸ hallowed m'' hm''
    · intro req hmem
      obtain ⟨x, hx⟩ := Option.isSome_iff_exists.mp (hreq req hmem)
      rw [get_canonical hkeys (nfc_of_isAscii N (isAscii_requiredTopKeys req hmem)) hx]
      rfl
  · exact hashBody_canonical hkeys (fun m hm => by rw [hnfc m hm]) hdomain hversion (by decide)
      (by decide) hcomputed

/-- A record that was sealed verifies under its key. -/
theorem verifySealed_of_sealed {body sealed : CanonValue} {sk : SigningKey ed}
    (h : sealRecord N sha256 body sk = .ok sealed) :
    verifySealed N sha256 ed sealed sk.verifyingKey = .ok () := by
  obtain ⟨ch, sig, hch, hsig, rfl, hshape⟩ := sealRecord_eq_ok_iff.mp h
  obtain ⟨members, rfl, -⟩ := exists_of_hashBody hch
  refine verifySealed_eq_ok_iff.mpr ⟨hshape, ch, sig, CanonValue.get_putSeal_hash (by decide),
    CanonValue.get_putSeal_sig, ?_, verifyText_of_signText hsig⟩
  rw [← hch]
  exact hashBody_congr (CanonValue.get_putSeal_of_ne (by decide) (by decide))
    (CanonValue.get_putSeal_of_ne (by decide) (by decide))
    (CanonValue.withoutKeys_putSeal (by decide) (by decide))

/-- Another seal, by whichever key, finds the same hash. -/
theorem sealRecord_of_sealed {body sealed : CanonValue} {sk : SigningKey ed}
    (h : sealRecord N sha256 body sk = .ok sealed) (sk' : SigningKey ed) :
    ∃ again, sealRecord N sha256 sealed sk' = .ok again ∧
      again.get "content_hash" = sealed.get "content_hash" := by
  obtain ⟨hshape, ch, -, hch, -, hcomputed, -⟩ :=
    verifySealed_eq_ok_iff.mp (verifySealed_of_sealed h)
  obtain ⟨sig, hsig⟩ := Option.isSome_iff_exists.mp
    (isSome_signText (by decide : (bytes recordSigTag).length ≤ maxLpLen) ch sk')
  refine ⟨_, sealRecord_eq_ok_iff.mpr ⟨ch, sig, hcomputed, hsig, rfl,
    checkSealedShape_putSeal hshape⟩, ?_⟩
  obtain ⟨members, rfl, -⟩ := exists_of_hashBody hcomputed
  rw [CanonValue.get_putSeal_hash (by decide), hch]

/-- A sealed record within the depth of the parser is read back and verifies. -/
theorem parse_of_sealed {body sealed : CanonValue} {sk : SigningKey ed}
    (h : sealRecord N sha256 body sk = .ok sealed) (hdepth : sealed.depth ≤ maxDepth) :
    ∃ t v, serialize N sealed = some t ∧ parse N t = .ok v ∧
      verifySealed N sha256 ed v sk.verifyingKey = .ok () := by
  have hkeys := distinct_of_sealed h
  obtain ⟨t, ht, hp⟩ := parse_serialize_canonical hkeys hdepth
  obtain ⟨ch, sig, hch, hsig, hput, -⟩ := sealRecord_eq_ok_iff.mp h
  obtain ⟨members, rfl, -⟩ := exists_of_hashBody hch
  have hget : sealed.get "sig" = some (.str sig) := hput ▸ CanonValue.get_putSeal_sig
  exact ⟨t, _, ht, hp, verifySealed_canonical hkeys hget (isAscii_of_signText hsig)
    (verifySealed_of_sealed h)⟩

theorem verifyCheckpointSealed_of_sealed {body sealed : CanonValue} {sk : SigningKey ed}
    (h : sealCheckpoint N sha256 body sk = .ok sealed) :
    verifyCheckpointSealed N sha256 ed sealed sk.verifyingKey = .ok () := by
  obtain ⟨ch, sig, hch, hsig, rfl, hpins⟩ := sealCheckpoint_eq_ok_iff.mp h
  obtain ⟨members, rfl, -⟩ := exists_of_hashBody hch
  refine verifyCheckpointSealed_eq_ok_iff.mpr ⟨hpins, ch, sig,
    CanonValue.get_putSeal_hash (by decide), CanonValue.get_putSeal_sig, ?_,
    verifyText_of_signText hsig⟩
  rw [← hch]
  exact hashBody_congr (CanonValue.get_putSeal_of_ne (by decide) (by decide))
    (CanonValue.get_putSeal_of_ne (by decide) (by decide))
    (CanonValue.withoutKeys_putSeal (by decide) (by decide))

/-- Another seal, by whichever key, finds the same hash. -/
theorem sealCheckpoint_of_sealed {body sealed : CanonValue} {sk : SigningKey ed}
    (h : sealCheckpoint N sha256 body sk = .ok sealed) (sk' : SigningKey ed) :
    ∃ again, sealCheckpoint N sha256 sealed sk' = .ok again ∧
      again.get "checkpoint_hash" = sealed.get "checkpoint_hash" := by
  obtain ⟨hpins, ch, -, hch, -, hcomputed, -⟩ :=
    verifyCheckpointSealed_eq_ok_iff.mp (verifyCheckpointSealed_of_sealed h)
  obtain ⟨sig, hsig⟩ := Option.isSome_iff_exists.mp
    (isSome_signText (by decide : (bytes checkpointSigTag).length ≤ maxLpLen) ch sk')
  refine ⟨_, sealCheckpoint_eq_ok_iff.mpr ⟨ch, sig, hcomputed, hsig, rfl,
    checkSealedCheckpointPins_putSeal hpins⟩, ?_⟩
  obtain ⟨members, rfl, -⟩ := exists_of_hashBody hcomputed
  rw [CanonValue.get_putSeal_hash (by decide), hch]

/-- An anchor changes nothing that a checkpoint is hashed from or verified by. -/
theorem attachAnchor_unchanged (cp anchor : CanonValue) :
    (attachAnchor cp anchor).get "checkpoint_hash" = cp.get "checkpoint_hash" ∧
      computeCheckpointHash N sha256 (attachAnchor cp anchor) =
        computeCheckpointHash N sha256 cp ∧
      ∀ vk, verifyCheckpointSealed N sha256 ed (attachAnchor cp anchor) vk =
        verifyCheckpointSealed N sha256 ed cp vk := by
  have hget : ∀ k, k ≠ "anchor" → (attachAnchor cp anchor).get k = cp.get k := fun k hk =>
    CanonValue.get_withField_of_ne hk
  have hkept : (attachAnchor cp anchor).withoutKeys checkpointStrip =
      cp.withoutKeys checkpointStrip := CanonValue.withoutKeys_withField (by decide)
  refine ⟨hget _ (by decide), hashBody_congr (hget _ (by decide)) (hget _ (by decide)) hkept,
    fun vk => verifyCheckpointSealed_congr ?_ hkept⟩
  simp only [List.forall_mem_cons, List.not_mem_nil, false_implies, implies_true, and_true]
  exact ⟨hget _ (by decide), hget _ (by decide), hget _ (by decide), hget _ (by decide)⟩

/-- A checkpoint that verifies also does so in its canonical form, if normalization makes no
other key look like the anchor. -/
theorem verifyCheckpointSealed_canonical {cp : CanonValue} {vk : Vector UInt8 32} {sig : String}
    (hanchor : ∀ s, nfc N s = "anchor" → s = "anchor") (hkeys : DistinctNfcKeys N cp)
    (hsig : cp.get "sig" = some (.str sig)) (hascii : isAscii sig = true)
    (h : verifyCheckpointSealed N sha256 ed cp vk = .ok ()) :
    verifyCheckpointSealed N sha256 ed (canonical N cp) vk = .ok () := by
  obtain ⟨hpins, ch, sig', hch, hsig', hcomputed, hverify⟩ :=
    verifyCheckpointSealed_eq_ok_iff.mp h
  obtain rfl : sig' = sig := by simpa using hsig'.symm.trans hsig
  rw [checkSealedCheckpointPins, checkPins_eq_ok_iff] at hpins
  obtain ⟨members, rfl, -⟩ := exists_of_hashBody hcomputed
  have hget : ∀ {k s}, isAscii k = true → isAscii s = true →
      (CanonValue.obj members).get k = some (.str s) →
      (canonical N (.obj members)).get k = some (.str s) := by
    intro k s hk hs hks
    have := get_canonical hkeys (nfc_of_isAscii N hk) hks
    rwa [canonical, nfc_of_isAscii N hs] at this
  have hstrip : ∀ m ∈ members, nfc N m.1 ∈ checkpointStrip ↔ m.1 ∈ checkpointStrip := by
    intro m hm
    constructor
    · intro hmem
      simp only [checkpointStrip, List.mem_cons, List.not_mem_nil, or_false] at hmem
      rcases hmem with hmem | hmem | hmem
      · rw [hanchor _ hmem]
        decide
      · rw [key_eq_of_nfc_eq hkeys hch (nfc_of_isAscii N (by decide)) hm hmem]
        decide
      · rw [key_eq_of_nfc_eq hkeys hsig' (nfc_of_isAscii N (by decide)) hm hmem]
        decide
    · intro hmem
      have hall : ∀ k ∈ checkpointStrip, isAscii k = true := forall_mem_of_all (by decide)
      rwa [nfc_of_isAscii N (hall _ hmem)]
  refine verifyCheckpointSealed_eq_ok_iff.mpr ⟨?_, ch, sig',
    hget (by decide) (isAscii_of_hashBody hcomputed) hch, hget (by decide) hascii hsig', ?_,
    hverify⟩
  · rw [checkSealedCheckpointPins, checkPins_eq_ok_iff]
    exact ⟨hget (by decide) (by decide) hpins.1, hget (by decide) (by decide) hpins.2⟩
  · exact hashBody_canonical hkeys hstrip hpins.1 hpins.2 (by decide) (by decide) hcomputed

/-- A sealed checkpoint within the depth of the parser, whose anchor repeats no key either, is
read back and verifies. -/
theorem parse_of_sealedCheckpoint {body sealed : CanonValue} {sk : SigningKey ed}
    (hanchor : ∀ s, nfc N s = "anchor" → s = "anchor")
    (h : sealCheckpoint N sha256 body sk = .ok sealed) (hkeys : DistinctNfcKeys N sealed)
    (hdepth : sealed.depth ≤ maxDepth) :
    ∃ t v, serialize N sealed = some t ∧ parse N t = .ok v ∧
      verifyCheckpointSealed N sha256 ed v sk.verifyingKey = .ok () := by
  obtain ⟨t, ht, hp⟩ := parse_serialize_canonical hkeys hdepth
  obtain ⟨ch, sig, hch, hsig, hput, -⟩ := sealCheckpoint_eq_ok_iff.mp h
  obtain ⟨members, rfl, -⟩ := exists_of_hashBody hch
  have hget : sealed.get "sig" = some (.str sig) := hput ▸ CanonValue.get_putSeal_sig
  exact ⟨t, _, ht, hp, verifyCheckpointSealed_canonical hanchor hkeys hget
    (isAscii_of_signText hsig) (verifyCheckpointSealed_of_sealed h)⟩

/-- Sealing and verifying. A sealed record verifies under the public half of the key, another
seal finds the same hash, and the record verifies after it was written and read back, provided
it is nested no deeper than the parser goes. So does a sealed checkpoint, where the anchor,
which is not hashed, has to be readable as well; and whichever anchor is attached to it, its
hash and the outcome of its verification stay the same. -/
theorem seal_then_verify (N : Normalizer) (sha256 : List UInt8 → Vector UInt8 32) (ed : Ed25519)
    (sk : SigningKey ed) :
    (∀ body sealed, sealRecord N sha256 body sk = .ok sealed →
      verifySealed N sha256 ed sealed sk.verifyingKey = .ok () ∧
      (∀ sk' : SigningKey ed, ∃ again, sealRecord N sha256 sealed sk' = .ok again ∧
        again.get "content_hash" = sealed.get "content_hash") ∧
      (sealed.depth ≤ maxDepth → ∃ t v, serialize N sealed = some t ∧ parse N t = .ok v ∧
        verifySealed N sha256 ed v sk.verifyingKey = .ok ())) ∧
    (∀ body sealed, sealCheckpoint N sha256 body sk = .ok sealed →
      verifyCheckpointSealed N sha256 ed sealed sk.verifyingKey = .ok () ∧
      (∀ sk' : SigningKey ed, ∃ again, sealCheckpoint N sha256 sealed sk' = .ok again ∧
        again.get "checkpoint_hash" = sealed.get "checkpoint_hash") ∧
      (∀ anchor, (attachAnchor sealed anchor).get "checkpoint_hash" =
          sealed.get "checkpoint_hash" ∧
        computeCheckpointHash N sha256 (attachAnchor sealed anchor) =
          computeCheckpointHash N sha256 sealed ∧
        ∀ vk, verifyCheckpointSealed N sha256 ed (attachAnchor sealed anchor) vk =
          verifyCheckpointSealed N sha256 ed sealed vk) ∧
      ((∀ s, nfc N s = "anchor" → s = "anchor") → DistinctNfcKeys N sealed →
        sealed.depth ≤ maxDepth → ∃ t v, serialize N sealed = some t ∧ parse N t = .ok v ∧
          verifyCheckpointSealed N sha256 ed v sk.verifyingKey = .ok ())) := by
  refine ⟨?_, ?_⟩
  · intro body sealed h
    exact ⟨verifySealed_of_sealed h, sealRecord_of_sealed h, parse_of_sealed h⟩
  · intro body sealed h
    exact ⟨verifyCheckpointSealed_of_sealed h, sealCheckpoint_of_sealed h,
      attachAnchor_unchanged sealed, fun hanchor => parse_of_sealedCheckpoint hanchor h⟩

/-- `null` inside the given number of arrays. -/
def nested : Nat → CanonValue
  | 0 => .null
  | n + 1 => .arr [nested n]

theorem depth_nested (n : Nat) : (nested n).depth = n := by
  induction n with
  | zero => rfl
  | succ n ih => simp [nested, CanonValue.depth, CanonValue.depthItems, ih]

theorem distinct_nested (n : Nat) : DistinctNfcKeys N (nested n) := by
  induction n with
  | zero => exact .null
  | succ n ih => exact .arr (List.forall_mem_singleton.mpr ih)

/-- The members of a record body whose action is nested as deep as the parser goes. -/
def deepMembers : List (String × CanonValue) :=
  ("action", nested maxDepth) :: ("domain", .str recordDomain) ::
    ("canon_version", .str canonVersion) ::
    (requiredTopKeys.filter fun k =>
      !(["action", "domain", "canon_version", "content_hash", "sig"].contains k)).map
        fun k => (k, .null)

theorem distinct_deepMembers : DistinctNfcKeys .identity (.obj deepMembers) := by
  refine .obj ?_ ?_
  · rw [List.map_congr_left fun k _ => nfc_identity k, List.map_id']
    decide
  · simp only [deepMembers, List.forall_mem_cons, List.forall_mem_map]
    exact ⟨distinct_nested _, .str trivial, .str trivial, fun _ _ => .null⟩

theorem allowed_deepMembers : ∀ m ∈ deepMembers, m.1 ∈ allowedTopKeys := by
  simp only [deepMembers, List.forall_mem_cons, List.forall_mem_map]
  refine ⟨by decide, by decide, by decide, fun k hk => ?_⟩
  have hall : ∀ k ∈ requiredTopKeys, k ∈ allowedTopKeys := forall_mem_of_all (by decide)
  exact hall k (List.mem_of_mem_filter hk)

theorem required_deepMembers : ∀ req ∈ requiredTopKeys, req ≠ "content_hash" → req ≠ "sig" →
    ((CanonValue.obj deepMembers).get req).isSome = true :=
  forall_mem_of_all (by decide)

/-- A record that is sealed and verifies but is nested deeper than the parser goes: no key of
any scheme seals it so that it can be read back. -/
theorem deep_record_is_not_read_back :
    ¬ ∃ (ed : Ed25519) (sk : SigningKey ed), ∀ sealed,
      sealRecord .identity Sha256.digest (.obj deepMembers) sk = .ok sealed →
      ∃ t v, serialize .identity sealed = some t ∧ parse .identity t = .ok v ∧
        verifySealed .identity Sha256.digest ed v sk.verifyingKey = .ok () := by
  rintro ⟨ed, sk, hclaim⟩
  obtain ⟨p, hpre⟩ : ∃ p, bodyPreimage .identity (.obj deepMembers) recordStrip = .ok p :=
    ⟨_, bodyPreimage_eq_ok_iff.mpr ⟨recordDomain, canonVersion, rfl, rfl, by decide, by decide,
      distinct_deepMembers.withoutKeys recordStrip, rfl⟩⟩
  have hhash : computeContentHash .identity Sha256.digest (.obj deepMembers) =
      .ok (rootText (Sha256.digest p)) := by
    rw [computeContentHash, hashBody, hpre]
  obtain ⟨sig, hsig⟩ := Option.isSome_iff_exists.mp
    (isSome_signText (by decide : (bytes recordSigTag).length ≤ maxLpLen) _ sk)
  have hseal := sealRecord_eq_ok_iff.mpr ⟨_, sig, hhash, hsig, rfl,
    checkSealedShape_of_body allowed_deepMembers required_deepMembers rfl rfl⟩
  obtain ⟨t, v, ht, hp, -⟩ := hclaim _ hseal
  have hdepth := depth_le_of_parse (distinct_of_sealed hseal) ht hp
  have haction : ("action", nested maxDepth) ∈ deepMembers.filter fun m =>
      !(["content_hash", "sig"].contains m.1) := by simp [deepMembers]
  have hdeep := CanonValue.depth_le_depthMembers (List.mem_append_left
    [("content_hash", .str (rootText (Sha256.digest p))), ("sig", .str sig)] haction)
  rw [CanonValue.putSeal_obj (by decide), CanonValue.depth] at hdepth
  rw [depth_nested] at hdeep
  omega

end Averin
