import Averin.Canon.Equivalence
import Averin.Checkpoint.SealRoundTrip
import Averin.Server.KeyLineage

/-!
# What a checked rotation statement says

The facts that the check of the server and the check of the verifier establish, each as a structure,
and how the two read times and base64 texts.
-/

namespace Averin

variable {N : Normalizer} {sha256 : List UInt8 → Vector UInt8 32} {ed : Ed25519}

/-- The number of two digits. -/
theorem toNat_twoDigits {b : List UInt8} {i : Nat} (h : isAsciiDigit (b.getD i 0) = true)
    (h' : isAsciiDigit (b.getD (i + 1) 0) = true) :
    (twoDigits b i).toNat = ((b.getD i 0).toNat - 48) * 10 + ((b.getD (i + 1) 0).toNat - 48) := by
  unfold isAsciiDigit at h h'
  simp only [Bool.and_eq_true, decide_eq_true_eq, UInt8.le_iff_toNat_le, UInt8.reduceToNat] at h h'
  unfold twoDigits
  simp only [UInt8.toNat_add, UInt8.toNat_mul, UInt8.toNat_sub, UInt8.reduceToNat]
  omega

/-- The digits are those from zero to nine. -/
theorem isAsciiDigit_iff {c : UInt8} : isAsciiDigit c = true ↔ 48 ≤ c.toNat ∧ c.toNat ≤ 57 := by
  simp [isAsciiDigit, UInt8.le_iff_toNat_le]

/-- A pair of digits in the range of a field. -/
def PairIn (b : List UInt8) (i lo hi : Nat) : Prop :=
  isAsciiDigit (b.getD i 0) = true ∧ isAsciiDigit (b.getD (i + 1) 0) = true ∧
    lo ≤ (twoDigits b i).toNat ∧ (twoDigits b i).toNat ≤ hi

/-- Two digits in a range, as numbers. -/
theorem pairIn_iff {b : List UInt8} {i lo hi : Nat} :
    PairIn b i lo hi ↔ (48 ≤ (b.getD i 0).toNat ∧ (b.getD i 0).toNat ≤ 57) ∧
      (48 ≤ (b.getD (i + 1) 0).toNat ∧ (b.getD (i + 1) 0).toNat ≤ 57) ∧
      lo ≤ ((b.getD i 0).toNat - 48) * 10 + ((b.getD (i + 1) 0).toNat - 48) ∧
      ((b.getD i 0).toNat - 48) * 10 + ((b.getD (i + 1) 0).toNat - 48) ≤ hi := by
  unfold PairIn
  constructor
  · rintro ⟨h, h', hlo, hhi⟩
    rw [toNat_twoDigits h h'] at hlo hhi
    exact ⟨isAsciiDigit_iff.mp h, isAsciiDigit_iff.mp h', hlo, hhi⟩
  · rintro ⟨h, h', hlo, hhi⟩
    rw [toNat_twoDigits (isAsciiDigit_iff.mpr h) (isAsciiDigit_iff.mpr h')]
    exact ⟨isAsciiDigit_iff.mpr h, isAsciiDigit_iff.mpr h', hlo, hhi⟩

/-- A first digit with a range for the second. -/
theorem digitPair_iff {b : List UInt8} {i : Nat} {first lo hi : UInt8} :
    digitPair b i first lo hi = true ↔ (b.getD i 0).toNat = first.toNat ∧
      lo.toNat ≤ (b.getD (i + 1) 0).toNat ∧ (b.getD (i + 1) 0).toNat ≤ hi.toNat := by
  simp [digitPair, ← UInt8.toNat_inj, UInt8.le_iff_toNat_le, and_assoc]

theorem month_iff {b : List UInt8} {i : Nat} :
    (digitPair b i 0x30 0x31 0x39 || digitPair b i 0x31 0x30 0x32) = true ↔ PairIn b i 1 12 := by
  rw [Bool.or_eq_true, digitPair_iff, digitPair_iff, pairIn_iff]
  simp only [UInt8.reduceToNat]
  omega

theorem day_iff {b : List UInt8} {i : Nat} :
    (digitPair b i 0x30 0x31 0x39 || digitPair b i 0x31 0x30 0x39 || digitPair b i 0x32 0x30 0x39 ||
      digitPair b i 0x33 0x30 0x31) = true ↔ PairIn b i 1 31 := by
  rw [Bool.or_eq_true, Bool.or_eq_true, Bool.or_eq_true, digitPair_iff, digitPair_iff,
    digitPair_iff, digitPair_iff, pairIn_iff]
  simp only [UInt8.reduceToNat]
  omega

theorem hour_iff {b : List UInt8} {i : Nat} :
    (digitPair b i 0x30 0x30 0x39 || digitPair b i 0x31 0x30 0x39 ||
      digitPair b i 0x32 0x30 0x33) = true ↔ PairIn b i 0 23 := by
  rw [Bool.or_eq_true, Bool.or_eq_true, digitPair_iff, digitPair_iff, digitPair_iff, pairIn_iff]
  simp only [UInt8.reduceToNat]
  omega

theorem sixty_iff {b : List UInt8} {i : Nat} :
    sixty b i = true ↔ PairIn b i 0 59 := by
  rw [sixty, Bool.and_eq_true, Bool.and_eq_true, decide_eq_true_eq, decide_eq_true_eq,
    UInt8.le_iff_toNat_le, UInt8.le_iff_toNat_le, isAsciiDigit_iff, pairIn_iff]
  simp only [UInt8.reduceToNat]
  omega

/-- The pattern of the server and the check of the verifier accept the same times. -/
theorem isCanonicalTS_eq (s : String) : isCanonicalTS s = isCanonicalTs s := by
  rw [Bool.eq_iff_iff]
  unfold isCanonicalTS isCanonicalTs canonicalShape
  simp only [Bool.and_eq_true, month_iff, day_iff, hour_iff, sixty_iff, List.all_cons,
    List.all_nil, and_true, beq_iff_eq, decide_eq_true_eq, UInt8.le_iff_toNat_le,
    UInt8.reduceToNat, PairIn, Nat.zero_le, true_and]
  tauto

/-- What the server read of a key: its three members, the epoch as it is written. -/
structure KeyFacts (v : Json) (k : LineageKey) (n : Int) : Prop where
  object : ∃ members, v = .obj members ∧ members.length = 3
  id : v.get "signing_key_id" = some (.str k.id)
  epoch : v.get "key_epoch" = some (.int n)
  publicKey : v.get "public_key" = some (.str k.publicKey)
  value : k.epoch = Float64.roundInt n

/-- A text that is read is there. -/
theorem get_of_strOf {v : Json} {key t : String} (h : v.strOf key = some t) :
    v.get key = some (.str t) := by
  obtain ⟨w, hget, hw⟩ := Option.bind_eq_some_iff.mp h
  cases w with
  | str s =>
    obtain rfl := Option.some.inj hw
    exact hget
  | _ => cases hw

theorem strOf_of_get {v : Json} {key t : String} (h : v.get key = some (.str t)) :
    v.strOf key = some t := by
  rw [Json.strOf, h]
  rfl

/-- A key that is read has its fields. -/
theorem keyOf_facts {v : Json} {k : LineageKey} (h : keyOf v = some k) : ∃ n, KeyFacts v k n := by
  unfold keyOf at h
  obtain ⟨members, hobj, h⟩ := Option.bind_eq_some_iff.mp h
  obtain ⟨_, hthree, h⟩ := Option.bind_eq_some_iff.mp h
  obtain ⟨id, hid, h⟩ := Option.bind_eq_some_iff.mp h
  obtain ⟨epoch, hepoch, h⟩ := Option.bind_eq_some_iff.mp h
  obtain ⟨publicKey, hpub, h⟩ := Option.bind_eq_some_iff.mp h
  obtain ⟨_, _, h⟩ := Option.bind_eq_some_iff.mp h
  obtain rfl := Option.some.inj h
  obtain ⟨w, hget, hwhole⟩ := Option.bind_eq_some_iff.mp hepoch
  have hlength : members.length = 3 := by
    by_contra hne
    rw [guard, if_neg hne] at hthree
    cases hthree
  cases v with
  | obj members' =>
    rw [← Option.some.inj hobj] at hlength
    cases w with
    | int n =>
      rw [wholeDouble] at hwhole
      split_ifs at hwhole
      exact ⟨n, ⟨members', rfl, hlength⟩, get_of_strOf hid, hget, get_of_strOf hpub,
        (Option.some.inj hwhole).symm⟩
    | _ => cases hwhole
  | _ => cases hobj

/-- Three members under three keys are all. -/
theorem eq_of_mem_three {members : List (String × Json)} {a b c : String} {x y z : Json}
    (hlength : members.length = 3)
    (hab : a ≠ b) (hac : a ≠ c) (hbc : b ≠ c) (hx : (Json.obj members).get a = some x)
    (hy : (Json.obj members).get b = some y) (hz : (Json.obj members).get c = some z)
    {m : String × Json} (hm : m ∈ members) : m = (a, x) ∨ m = (b, y) ∨ m = (c, z) := by
  have hsub : [(a, x), (b, y), (c, z)] ⊆ members := by
    intro m hm
    simp only [List.mem_cons, List.not_mem_nil, or_false] at hm
    rcases hm with rfl | rfl | rfl
    · exact Json.mem_of_get hx
    · exact Json.mem_of_get hy
    · exact Json.mem_of_get hz
  have hthree : [(a, x), (b, y), (c, z)].Nodup := by
    apply List.Nodup.of_map Prod.fst
    simp [hab, hac, hbc]
  have hperm := (hthree.subperm hsub).perm_of_length_le (by simp [hlength])
  simpa using hperm.mem_iff.mpr hm

/-- An epoch that comes through a double unchanged, as a number and as a text. -/
def EpochExact (n : Int) : Prop := Float64.roundInt n = n ∧ Float64.rewritten n = n

theorem natAbs_roundInt (n : Int) : (Float64.roundInt n).natAbs = Float64.round n.natAbs := by
  unfold Float64.roundInt
  split_ifs <;> omega

theorem viaDouble_int {n : Int} (h : EpochExact n) (hrange : -2 ^ 63 ≤ n ∧ n < 2 ^ 63) :
    (Json.int n).viaDouble = .int n := by
  have hround : Float64.round n.natAbs < 10 ^ 21 := by
    rw [← natAbs_roundInt, h.1]
    omega
  rw [Json.viaDouble, if_pos hround, h.2]

theorem viaDouble_obj {members : List (String × Json)} (h : ∀ m ∈ members, m.2.viaDouble = m.2) :
    (Json.obj members).viaDouble = .obj members := by
  rw [Json.viaDouble, Json.membersViaDouble_eq_map]
  congr 1
  calc members.map (fun m => (m.1, m.2.viaDouble)) = members.map id := by
        apply List.map_congr_left
        intro m hm
        rw [h m hm]
        rfl
    _ = members := List.map_id members

/-- A number that the core reads has 64 bits. -/
theorem range_of_toCanon {n : Int} {c : CanonValue} (h : (Json.int n).toCanon N = some c) :
    -2 ^ 63 ≤ n ∧ n < 2 ^ 63 := by
  rw [Json.toCanon, jsonInt] at h
  split_ifs at h with hrange
  exact hrange

section KeyFacts

variable {v : Json} {k : LineageKey} {n : Int}

/-- A key with an exact epoch comes through the decoding unchanged. -/
theorem KeyFacts.viaDouble (h : KeyFacts v k n) (hexact : EpochExact n) {c : CanonValue}
    (hc : v.toCanon N = some c) : v.viaDouble = v := by
  obtain ⟨members, rfl, hlength⟩ := h.object
  obtain ⟨x, hx, -⟩ := Json.get_toCanon hc h.epoch (nfc_of_isAscii N (by decide))
  apply viaDouble_obj
  intro m hm
  rcases eq_of_mem_three hlength (by decide) (by decide) (by decide) h.id h.epoch h.publicKey
    hm with rfl | rfl | rfl
  · rfl
  · exact viaDouble_int hexact (range_of_toCanon hx)
  · rfl

/-- What the verifier reads of the same key. -/
theorem KeyFacts.rotationKeyRef (h : KeyFacts v k n) {c : CanonValue}
    (hc : v.toCanon N = some c) :
    rotationKeyRef c = some ⟨nfc N k.id, n, nfc N k.publicKey⟩ := by
  obtain ⟨members, rfl, hlength⟩ := h.object
  obtain ⟨x, hx, hepoch⟩ := Json.get_toCanon hc h.epoch (nfc_of_isAscii N (by decide))
  have hid := Json.strOf_toCanon hc (strOf_of_get h.id) (nfc_of_isAscii N (by decide))
  have hpub := Json.strOf_toCanon hc (strOf_of_get h.publicKey) (nfc_of_isAscii N (by decide))
  obtain ⟨pairs, hpairs, -, rfl⟩ := Json.toCanon_obj_eq_some_iff.mp hc
  have hthree : pairs.length = 3 := hpairs.length_eq.symm.trans hlength
  have hint : x.asInt = some n := asInt_jsonInt hx
  unfold Averin.rotationKeyRef
  rw [CanonValue.asObject, Option.bind_eq_bind, Option.bind_some, guard, if_pos hthree, hid, hepoch,
    hpub, Option.bind_some, hint]
  rfl

end KeyFacts

/-- What the server found in a statement that it accepted. -/
structure StatementFacts (N : Normalizer) (sha256 : List UInt8 → Vector UInt8 32) (ed : Ed25519)
    (members : List (String × Json)) (v : Verified) (oldPub newPub : Vector UInt8 32)
    (digest : String) : Prop where
  fields : ∀ m ∈ members, m.1 ∈ rotationFields
  kind : (Json.obj members).strOf "kind" = some "key_rotation"
  reason : (Json.obj members).strOf "reason" = some v.reason
  reasonKnown : v.reason = "scheduled" ∨ v.reason = "compromise"
  rotatedAt : (Json.obj members).strOf "rotated_at" = some v.rotatedAt
  canonical : isCanonicalTS v.rotatedAt = true
  old : ((Json.obj members).get "old_key").bind keyOf = some v.old
  new : ((Json.obj members).get "new_key").bind keyOf = some v.new
  differ : ¬ (v.old.id = v.new.id ∧ v.old.epoch = v.new.epoch ∨ v.old.publicKey = v.new.publicKey)
  oldKey : decodePub v.old.publicKey = some oldPub
  newKey : decodePub v.new.publicKey = some newPub
  hash : digestOf N sha256 (Json.obj (unsignedMembers members)).viaDouble = some digest
  sigNew : verifySig ed digest (((Json.obj members).strOf "sig_new").getD "") newPub = true
  sigOld : v.reason = "scheduled" →
    verifySig ed digest (((Json.obj members).strOf "sig_old").getD "") oldPub = true

theorem not_isCanonicalTS_empty : isCanonicalTS "" = false := by decide

/-- A text that is not the default is there. -/
theorem eq_some_of_getD {o : Option String} {t : String} (h : o.getD "" = t) (ht : t ≠ "") :
    o = some t := (getD_empty_eq_iff ht).mp h

/-- A statement is accepted exactly with these facts. -/
theorem verifyRotation_eq_ok_iff {st : Json} {v : Verified} :
    verifyRotation N sha256 ed st = .ok v ↔ ∃ members oldPub newPub digest, st = .obj members ∧
      StatementFacts N sha256 ed members v oldPub newPub digest := by
  unfold verifyRotation
  simp only [bind_eq_ok_iff, orFail_eq_ok_iff]
  constructor
  · rintro ⟨members, hobj, h⟩
    obtain rfl : st = .obj members := by
      cases st with
      | obj members' => rw [Option.some.inj hobj]
      | _ => cases hobj
    cases hfind : members.find? fun m => m.1 ∉ rotationFields with
    | some m =>
      rw [hfind] at h
      cases h
    | none =>
      rw [hfind] at h
      simp only [bind_eq_ok_iff, orFail_eq_ok_iff, require_eq_ok_iff] at h
      obtain ⟨_, hkind, _, hreason, _, hat, old, hold, new, hnew, _, hdiffer, oldPub, holdPub,
        newPub, hnewPub, digest, hdigest, _, hsigNew, _, hsigOld, heq⟩ := h
      obtain rfl := Except.ok.inj heq
      have hfields := List.find?_eq_none.mp hfind
      refine ⟨members, oldPub, newPub, digest, rfl, ?_, hkind, ?_, hreason, ?_, hat, hold, hnew,
        hdiffer, holdPub, hnewPub, hdigest, hsigNew, hsigOld⟩
      · intro m hm
        have hno := hfields m hm
        rwa [decide_eq_true_eq, not_not] at hno
      · apply eq_some_of_getD rfl
        intro hempty
        have hcases : "" = "scheduled" ∨ "" = "compromise" := hempty ▸ hreason
        revert hcases
        decide
      · apply eq_some_of_getD rfl
        intro hempty
        have hat' : isCanonicalTS "" = true := hempty ▸ hat
        rw [not_isCanonicalTS_empty] at hat'
        cases hat'
  · rintro ⟨members, oldPub, newPub, digest, rfl, hf⟩
    refine ⟨members, rfl, ?_⟩
    have hfind : (members.find? fun m => m.1 ∉ rotationFields) = none := by
      apply List.find?_eq_none.mpr
      intro m hm
      simpa using hf.fields m hm
    have hreason : ((Json.obj members).strOf "reason").getD "" = v.reason := by
      rw [hf.reason]
      rfl
    have hat : ((Json.obj members).strOf "rotated_at").getD "" = v.rotatedAt := by
      rw [hf.rotatedAt]
      rfl
    rw [hfind]
    simp only [bind_eq_ok_iff, orFail_eq_ok_iff, require_eq_ok_iff, hreason, hat]
    exact ⟨(), hf.kind, (), hf.reasonKnown, (), hf.canonical, v.old, hf.old, v.new, hf.new, (),
      hf.differ, oldPub, hf.oldKey, newPub, hf.newKey, digest, hf.hash, (), hf.sigNew, (),
      hf.sigOld, rfl⟩

theorem isAscii_encode (v : List UInt8) : isAscii (B64.encode v) = true := by
  apply List.all_eq_true.mpr
  intro b hb
  simpa using B64.lt_of_mem_encode hb

theorem withoutBreaks_pubkeyPrefix : B64.withoutBreaks pubkeyPrefix = pubkeyPrefix := by
  decide +kernel

theorem withoutBreaks_sigPrefix : B64.withoutBreaks sigPrefix = sigPrefix := by decide +kernel

/-- Of the key texts that the server decodes, the verifier decodes those without line breaks, to
the same bytes. -/
theorem decodePubkey_iff {pk : String} {vk w : Vector UInt8 32} (h : decodePub pk = some vk)
    (hvalid : ed.validKey vk = true) :
    decodePubkey ed pk = some w ↔ B64.withoutBreaks pk = pk ∧ w = vk := by
  obtain ⟨raw, hraw, hstrict⟩ := Option.bind_eq_some_iff.mp h
  have hpk := stripPrefix_eq_some hraw
  have hbreaks : B64.withoutBreaks pk = pk ↔ B64.withoutBreaks raw = raw := by
    rw [hpk]
    exact B64.withoutBreaks_append_eq_self_iff withoutBreaks_pubkeyPrefix
  rw [decodePubkey, hraw, Option.bind_some, Option.filter_eq_some_iff,
    B64.decodeFixed_of_strictFixed hstrict, hbreaks]
  constructor
  · exact fun hw => hw.1
  · rintro ⟨hraw, rfl⟩
    exact ⟨⟨hraw, rfl⟩, hvalid⟩

/-- A key without line breaks is ASCII. -/
theorem isAscii_of_decodePub {pk : String} {vk : Vector UInt8 32} (h : decodePub pk = some vk)
    (hbreaks : B64.withoutBreaks pk = pk) : isAscii pk = true := by
  obtain ⟨raw, hraw, hstrict⟩ := Option.bind_eq_some_iff.mp h
  rw [stripPrefix_eq_some hraw] at hbreaks ⊢
  have hbreaks := (B64.withoutBreaks_append_eq_self_iff withoutBreaks_pubkeyPrefix).mp hbreaks
  have hread := (B64.decodeFixed_of_strictFixed hstrict).mpr ⟨hbreaks, rfl⟩
  rw [B64.decodeFixed_eq_some_iff.mp hread]
  exact isAscii_append (by decide) (isAscii_encode _)

/-- Of the signatures that the server accepts, the verifier accepts those without line breaks. -/
theorem verifyText_isOk_iff {digest sig : String} {vk : Vector UInt8 32} :
    (verifyText ed keyRotationSigTag digest sig vk).isOk = true ↔
      verifySig ed digest sig vk = true ∧ B64.withoutBreaks sig = sig := by
  unfold verifyText verifySig
  simp only [isOk_iff, bind_eq_ok_iff, orFail_eq_ok_iff, require_eq_ok_iff, Option.any_eq_true,
    Option.bind_eq_some_iff]
  constructor
  · rintro ⟨_, raw, hraw, b, hb, msg, hmsg, hverify⟩
    have hbreaks : B64.withoutBreaks raw = raw := by
      rw [B64.decodeFixed_eq_some_iff.mp hb]
      exact B64.withoutBreaks_encode _
    refine ⟨⟨b, ⟨raw, hraw, ?_⟩, msg, hmsg, hverify⟩, ?_⟩
    · rw [B64.strictFixed, hbreaks, hb]
    · rw [stripPrefix_eq_some hraw]
      exact (B64.withoutBreaks_append_eq_self_iff withoutBreaks_sigPrefix).mpr hbreaks
  · rintro ⟨⟨b, ⟨raw, hraw, hb⟩, msg, hmsg, hverify⟩, hbreaks⟩
    rw [stripPrefix_eq_some hraw] at hbreaks
    have hbreaks := (B64.withoutBreaks_append_eq_self_iff withoutBreaks_sigPrefix).mp hbreaks
    exact ⟨(), raw, hraw, b, (B64.decodeFixed_of_strictFixed hb).mpr ⟨hbreaks, rfl⟩, msg, hmsg,
      hverify⟩

theorem isAscii_of_verifySig {digest sig : String} {vk : Vector UInt8 32}
    (h : verifySig ed digest sig vk = true) (hbreaks : B64.withoutBreaks sig = sig) :
    isAscii sig = true := by
  unfold verifySig at h
  simp only [Option.any_eq_true, Option.bind_eq_some_iff] at h
  obtain ⟨b, ⟨raw, hraw, hb⟩, -⟩ := h
  rw [stripPrefix_eq_some hraw] at hbreaks ⊢
  have hbreaks := (B64.withoutBreaks_append_eq_self_iff withoutBreaks_sigPrefix).mp hbreaks
  have hread := (B64.decodeFixed_of_strictFixed hb).mpr ⟨hbreaks, rfl⟩
  rw [B64.decodeFixed_eq_some_iff.mp hread]
  exact isAscii_append (by decide) (isAscii_encode _)

/-- A statement that counts: well formed, about two listed keys, and signed as its reason asks. -/
structure CountedRotation (N : Normalizer) (sha256 : List UInt8 → Vector UInt8 32) (ed : Ed25519)
    (keys : Table (String × Int) KeyEntry) (st : CanonValue) (o n : RotationKeyRef)
    (old new : KeyEntry) : Prop where
  fields : ∃ obj, st = .obj obj ∧ ∀ m ∈ obj, m.1 ∈ rotationFields
  kind : strOf st "kind" = some "key_rotation"
  reason : strOf st "reason" = some "scheduled" ∨ strOf st "reason" = some "compromise"
  rotatedAt : (strOf st "rotated_at").any isCanonicalTs = true
  oldRef : (st.get "old_key").bind rotationKeyRef = some o
  newRef : (st.get "new_key").bind rotationKeyRef = some n
  differ : ¬ ((o.signingKeyId, o.keyEpoch) = (n.signingKeyId, n.keyEpoch) ∨
    o.publicKey = n.publicKey)
  oldListed : ListedAs ed keys o old
  newListed : ListedAs ed keys n new
  sigNew : rotationSigOk N sha256 ed st "sig_new" new.vk = true
  sigOld : strOf st "reason" = some "scheduled" →
    rotationSigOk N sha256 ed st "sig_old" old.vk = true

/-- A rotation counts when it is one. -/
theorem checkRotation_isOk_iff {keys : Table (String × Int) KeyEntry} {st : CanonValue} :
    (checkRotation N sha256 ed keys st).isOk = true ↔
      ∃ o n old new, CountedRotation N sha256 ed keys st o n old new := by
  unfold checkRotation
  simp only [isOk_iff, bind_eq_ok_iff, orFail_eq_ok_iff, require_eq_ok_iff,
    rejectUnknown_eq_ok_iff]
  constructor
  · rintro ⟨a, obj, hobj, _, hfields, _, hkind, _, hreason, _, hrotated, o, ho, n, hn, _, hdiffer,
      oe, hoe, ne, hne, ovk, hovk, nvk, hnvk, _, ⟨rfl, rfl⟩, _, hsigNew, hrest⟩
    refine ⟨o, n, oe, ne, ⟨obj, asObject_eq_some_iff.mp hobj, hfields⟩, hkind, ?_, hrotated, ho, hn,
      hdiffer, ⟨hoe, hovk⟩, ⟨hne, hnvk⟩, hsigNew, ?_⟩
    · rcases hreason with hr | hr
      · exact Or.inl (getD_empty_eq_iff (by decide) |>.mp hr)
      · exact Or.inr (getD_empty_eq_iff (by decide) |>.mp hr)
    · intro hscheduled
      rw [if_pos (getD_empty_eq_iff (by decide) |>.mpr hscheduled)] at hrest
      simp only [bind_eq_ok_iff, require_eq_ok_iff] at hrest
      obtain ⟨_, hsigOld, -⟩ := hrest
      exact hsigOld
  · rintro ⟨o, n, oe, ne, hc⟩
    obtain ⟨obj, rfl, hfields⟩ := hc.fields
    have hreason : (strOf (.obj obj) "reason").getD "" = "scheduled" ∨
        (strOf (.obj obj) "reason").getD "" = "compromise" := by
      rcases hc.reason with hr | hr
      · exact Or.inl (getD_empty_eq_iff (by decide) |>.mpr hr)
      · exact Or.inr (getD_empty_eq_iff (by decide) |>.mpr hr)
    by_cases hscheduled : (strOf (.obj obj) "reason").getD "" = "scheduled"
    · refine ⟨some ⟨oe.vk, oe.status, ne.vk⟩, obj, rfl, (), hfields, (), hc.kind, (), hreason, (),
        hc.rotatedAt, o, hc.oldRef, n, hc.newRef, (), hc.differ, oe, hc.oldListed.listed, ne,
        hc.newListed.listed, oe.vk, hc.oldListed.key, ne.vk, hc.newListed.key, (), ⟨rfl, rfl⟩, (),
        hc.sigNew, ?_⟩
      rw [if_pos hscheduled]
      simp only [bind_eq_ok_iff, require_eq_ok_iff]
      exact ⟨(), hc.sigOld (getD_empty_eq_iff (by decide) |>.mp hscheduled), rfl⟩
    · refine ⟨none, obj, rfl, (), hfields, (), hc.kind, (), hreason, (),
        hc.rotatedAt, o, hc.oldRef, n, hc.newRef, (), hc.differ, oe, hc.oldListed.listed, ne,
        hc.newListed.listed, oe.vk, hc.oldListed.key, ne.vk, hc.newListed.key, (), ⟨rfl, rfl⟩, (),
        hc.sigNew, ?_⟩
      rw [if_neg hscheduled]
      rfl

end Averin
