import Averin.Core.Layout
import Averin.Sign.Challenges

/-!
# Families of messages

Every family of signed or hashed messages is told apart by its tag, and within a family the
bytes determine the fields. The two messages of the hash tree carry no tag but one byte: a
leaf can then only be confused with a signature or an anchor over a text too short to be a
digest.
-/

namespace Averin

/-- The families; the seed and the steps of a grant log share their tag. -/
inductive Family where
  | signed (purpose : SigPurpose) | authority | authorityV3 | anchor | commitment | grantHeadSeed
  | grantHeadStep | usePop | cosigApproval | delegationHop | introspection | ledger
  | federationCert | revocationLeaf | revocationKeyV2 | revocationStateV2 | revocationEntryV2
  | merkleLeaf | merkleNode
  deriving DecidableEq

namespace Family

/-- The tag of a family; the messages of a hash tree have none. -/
def tag : Family → Option String
  | signed purpose => some purpose.tag
  | authority => some authoritySigTag
  | authorityV3 => some authoritySigTagV3
  | anchor => some anchorTag
  | commitment => some commitTag
  | grantHeadSeed | grantHeadStep => some grantHeadTag
  | usePop => some "averin.broker.use.pop.v1"
  | cosigApproval => some "averin.broker.cosig.approval.v1"
  | delegationHop => some "averin.broker.delegation.hop.v1"
  | introspection => some "averin.resource.introspection.v1"
  | ledger => some "averin.broker.use.ledger.v1"
  | federationCert => some "averin.broker.federation.cert.v1"
  | revocationLeaf => some "averin.broker.revocation.leaf.v1"
  | revocationKeyV2 => some "averin.broker.revocation.key.v2"
  | revocationStateV2 => some "averin.broker.revocation.state.v2"
  | revocationEntryV2 => some "averin.broker.revocation.entry.v2"
  | merkleLeaf | merkleNode => none

/-- How the fields of a family are written after the tag. -/
def slots : Family → List Slot
  | signed _ => [.tail]
  | authority => [.text, .text, .text, .tail]
  | authorityV3 => [.text, .text, .text, .text, .text, .text]
  | anchor => [.text, .text]
  | commitment => [.text, .blob, .blob]
  | grantHeadSeed => []
  | grantHeadStep => [.fixed 32, .number, .text]
  | usePop => [.text, .text, .text, .text, .text, .text]
  | cosigApproval => [.text, .text, .text, .number, .number]
  | delegationHop => [.text, .number, .text, .text, .text, .text, .text, .number]
  | introspection => [.text, .text, .text, .text, .number, .number]
  | ledger => [.text, .text, .number]
  | federationCert => [.text, .text, .text, .text, .text, .number]
  | revocationLeaf | revocationKeyV2 => [.text]
  | revocationStateV2 => [.text, .number]
  | revocationEntryV2 => [.fixed 32, .fixed 32]
  | merkleLeaf => [.fixed 32]
  | merkleNode => [.fixed 32, .fixed 32]

/-- The families with a tag of their own. -/
def tagged : List Family :=
  [.signed .record, .signed .checkpoint, .signed .taxonomy, .signed .revocationList,
    .signed .revocationListV2, .signed .revocationRoot, .signed .revocationRootV2,
    .signed .keyRotation, .authority, .authorityV3, .anchor, .commitment, .grantHeadStep, .usePop,
    .cosigApproval, .delegationHop, .introspection, .ledger, .federationCert, .revocationLeaf,
    .revocationKeyV2, .revocationStateV2, .revocationEntryV2]

/-- The list leaves out only the families without a tag and the seed. -/
theorem mem_tagged {f : Family} (h : f.tag ≠ none) (hseed : f ≠ .grantHeadSeed) : f ∈ tagged := by
  cases f with
  | signed purpose => cases purpose <;> simp [tagged]
  | grantHeadSeed => exact absurd rfl hseed
  | merkleLeaf | merkleNode => exact absurd rfl h
  | _ => simp [tagged]

/-- Apart from the seed no two families share a tag. -/
theorem eq_of_tag_eq {f g : Family} (hf : f.tag ≠ none) (hfs : f ≠ .grantHeadSeed)
    (hgs : g ≠ .grantHeadSeed) (h : f.tag = g.tag) : f = g := by
  have hnodup : (tagged.map tag).Nodup := by decide
  exact List.inj_on_of_nodup_map hnodup (mem_tagged hf hfs) (mem_tagged (h ▸ hf) hgs) h

/-- Only the steps share the tag of the seed. -/
theorem eq_step_of_tag_eq {f : Family} (h : f.tag = tag .grantHeadSeed) :
    f = .grantHeadSeed ∨ f = .grantHeadStep := by
  by_cases hseed : f = .grantHeadSeed
  · exact Or.inl hseed
  · have hstep : f.tag = tag .grantHeadStep := h
    apply Or.inr
    apply eq_of_tag_eq ?_ hseed (by decide) hstep
    rw [h]
    exact Option.some_ne_none _

theorem delimited_slots (f : Family) : Slot.Delimited f.slots := by
  cases f with
  | signed _ => trivial
  | _ => decide

/-- Every tag has its length in one byte. -/
theorem length_tag_lt {f : Family} {t : String} (h : f.tag = some t) :
    (bytes t).length < 256 := by
  have hall : ∀ g ∈ Family.grantHeadSeed :: tagged, ∀ t ∈ g.tag, (bytes t).length < 256 :=
    forall_mem_of_all (by decide)
  by_cases hseed : f = .grantHeadSeed
  · exact hall f (hseed ▸ List.mem_cons_self) t h
  · exact hall f (List.mem_cons_of_mem _ (mem_tagged (by simp [h]) hseed)) t h

end Family

/-- A message of one of the families, with its fields. -/
inductive Message where
  | signed (purpose : SigPurpose) (contentHash : String)
  | authority (source projectId recordId evidenceHash : String)
  | authorityV3 (source projectId recordId evidenceHash digest : String)
  | anchor (checkpointHash anchoredTs : String)
  | commitment (domain : FieldDomain) (value nonce : List UInt8)
  | grantHeadSeed
  | grantHeadStep (acc : Vector UInt8 32) (seq : Int) (contentHash : String)
  | usePop (grantId resourceId action paramsCommitment credentialBinding nonce : String)
  | cosigApproval (grantId approverKid credentialBinding : String) (thresholdM exp : Int)
  | delegationHop (grantId : String) (hopIndex : Int)
      (delegatorKid delegateKid scope action resourceId : String) (exp : Int)
  | introspection (grantId credentialRef effectiveScope resourceId : String)
      (introspectedAt effectiveExp : Int)
  | ledger (jti nonce : String) (usedAt : Int)
  | federationCert (issuerBrokerId subjectBrokerId subjectKid scope resourceId : String)
      (notAfter : Int)
  | revocationLeaf (grantId : String)
  | revocationKeyV2 (grantId : String)
  | revocationStateV2 (mode : String) (cutoff : Int)
  | revocationEntryV2 (key stateDigest : Vector UInt8 32)
  | merkleLeaf (v : Vector UInt8 32)
  | merkleNode (l r : Vector UInt8 32)

namespace Message

/-- The bytes of a message, if its family can write the fields. -/
def preimage : Message → Option (List UInt8)
  | signed purpose text => signPreimage purpose.tag text
  | authority source projectId recordId eh => some (authorityPreimage source projectId recordId eh)
  | authorityV3 source projectId recordId eh digest =>
    (authorityPreimageV3 source projectId recordId eh digest).toOption
  | anchor checkpointHash anchoredTs => some (anchorPreimage checkpointHash anchoredTs)
  | commitment domain value nonce => (commitPreimage domain value nonce).toOption
  | grantHeadSeed => some grantHeadSeedPreimage
  | grantHeadStep acc seq contentHash => some (grantHeadStepPreimage acc seq contentHash)
  | usePop g r a p c n => some (usePopPreimage g r a p c n)
  | cosigApproval g k c m e => some (cosigApprovalPreimage g k c m e)
  | delegationHop g i d d' s a r e => some (delegationHopPreimage g i d d' s a r e)
  | introspection g c s r at' e => some (introspectionTranscriptPreimage g c s r at' e)
  | ledger jti nonce usedAt => some (ledgerCommitmentPreimage jti nonce usedAt)
  | federationCert i s k sc r t => some (federationCertPreimage i s k sc r t)
  | revocationLeaf g => some (revocationLeafPreimage g)
  | revocationKeyV2 g => some (revocationKeyV2Preimage g)
  | revocationStateV2 mode cutoff => some (revocationStateV2Preimage mode cutoff)
  | revocationEntryV2 key state => some (revocationEntryV2Preimage key state)
  | merkleLeaf v => some (merkleLeafPreimage v)
  | merkleNode l r => some (merkleNodePreimage l r)

/-- The family of a message. -/
def family : Message → Family
  | signed purpose _ => .signed purpose
  | authority .. => .authority
  | authorityV3 .. => .authorityV3
  | anchor .. => .anchor
  | commitment .. => .commitment
  | grantHeadSeed => .grantHeadSeed
  | grantHeadStep .. => .grantHeadStep
  | usePop .. => .usePop
  | cosigApproval .. => .cosigApproval
  | delegationHop .. => .delegationHop
  | introspection .. => .introspection
  | ledger .. => .ledger
  | federationCert .. => .federationCert
  | revocationLeaf _ => .revocationLeaf
  | revocationKeyV2 _ => .revocationKeyV2
  | revocationStateV2 .. => .revocationStateV2
  | revocationEntryV2 .. => .revocationEntryV2
  | merkleLeaf _ => .merkleLeaf
  | merkleNode .. => .merkleNode

/-- The fields after the tag or the byte, as they are written. -/
def fields : Message → List Field
  | signed _ text => [.tail text]
  | authority source projectId recordId eh =>
    [.text source, .text projectId, .text recordId, .tail eh]
  | authorityV3 source projectId recordId eh digest =>
    [.text subjectProjectionId, .text source, .text projectId, .text recordId, .text eh,
      .text digest]
  | anchor checkpointHash anchoredTs => [.text checkpointHash, .text anchoredTs]
  | commitment domain value nonce => [.text domain.asStr, .blob nonce, .blob value]
  | grantHeadSeed => []
  | grantHeadStep acc seq contentHash => [.fixed acc.toList, .number seq, .text contentHash]
  | usePop g r a p c n => [.text g, .text r, .text a, .text p, .text c, .text n]
  | cosigApproval g k c m e => [.text g, .text k, .text c, .number m, .number e]
  | delegationHop g i d d' s a r e =>
    [.text g, .number i, .text d, .text d', .text s, .text a, .text r, .number e]
  | introspection g c s r at' e => [.text g, .text c, .text s, .text r, .number at', .number e]
  | ledger jti nonce usedAt => [.text jti, .text nonce, .number usedAt]
  | federationCert i s k sc r t => [.text i, .text s, .text k, .text sc, .text r, .number t]
  | revocationLeaf g | revocationKeyV2 g => [.text g]
  | revocationStateV2 mode cutoff => [.text mode, .number cutoff]
  | revocationEntryV2 key state => [.fixed key.toList, .fixed state.toList]
  | merkleLeaf v => [.fixed v.toList]
  | merkleNode l r => [.fixed l.toList, .fixed r.toList]

/-- Texts and byte strings are shorter than `2 ^ 32`, numbers are signed 64-bit ones. -/
def Sized (m : Message) : Prop := ∀ f ∈ m.fields, f.Sized

/-- A message has the slots of its family. -/
theorem map_slot_fields (m : Message) : m.fields.map Field.slot = m.family.slots := by
  cases m <;> simp [fields, family, Family.slots, Field.slot]

/-- The family and the fields make up the message. -/
theorem eq_of_fields_eq {m m' : Message} (hfamily : m.family = m'.family)
    (hfields : m.fields = m'.fields) : m = m' := by
  cases m <;> cases m' <;> try cases hfamily
  case commitment.commitment.refl d v n d' v' n' =>
    obtain ⟨hd, rfl, rfl⟩ : d.asStr = d'.asStr ∧ n = n' ∧ v = v' := by simpa [fields] using hfields
    cases d <;> cases d' <;> first | rfl | exact absurd hd (by decide)
  all_goals
    simp only [fields, List.cons.injEq, Field.text.injEq, Field.number.injEq, Field.fixed.injEq,
      Field.tail.injEq, Vector.toList_inj, and_true, true_and] at hfields
    try simp only [hfields]

/-- Bytes that fit are framed with their length. -/
theorem lpInto_of_lt {b : List UInt8} (h : b.length < 2 ^ 32) : lpInto b = some (framed 4 b) := by
  rw [lpInto, if_neg (by unfold maxLpLen; omega)]

theorem lpStrInto_of_lt {s : String} (h : (bytes s).length < 2 ^ 32) :
    lpStrInto s = some (framed 4 (bytes s)) := lpInto_of_lt h

theorem lpOrNothing_of_lt {s : String} (h : (bytes s).length < 2 ^ 32) :
    lpOrNothing s = framed 4 (bytes s) := by
  rw [lpOrNothing, lpStrInto_of_lt h, Option.getD_some]

/-- Texts that fit are framed one after the other. -/
theorem lpAll_of_lt {texts : List String} (h : ∀ s ∈ texts, (bytes s).length < 2 ^ 32) :
    lpAll texts = some (encodeFields (texts.map .text)) := by
  induction texts with
  | nil => rfl
  | cons s texts ih =>
    rw [List.forall_mem_cons] at h
    rw [lpAll, lpStrInto_of_lt h.1, ih h.2]
    rfl

/-- A message with a tag is its tag and its fields. -/
theorem preimage_tagged {m : Message} {t : String} {p : List UInt8} (ht : m.family.tag = some t)
    (hs : m.Sized) (h : m.preimage = some p) : p = encodeFields (.text t :: m.fields) := by
  have htag : (bytes t).length < 2 ^ 32 := lt_trans (Family.length_tag_lt ht) (by decide)
  cases m <;> cases ht
  case signed purpose text =>
    rw [preimage, signPreimage, lpStrInto_of_lt htag] at h
    simpa [encodeFields, fields, Field.encode] using h.symm
  case authority source projectId recordId eh =>
    obtain ⟨h1, h2, h3, -⟩ : _ ∧ _ ∧ _ ∧ _ := by simpa [Sized, fields] using hs
    obtain rfl := Option.some.inj h
    rw [authorityPreimage, lpOrNothing_of_lt htag, lpOrNothing_of_lt h1, lpOrNothing_of_lt h2,
      lpOrNothing_of_lt h3]
    simp [encodeFields, fields, Field.encode]
  case authorityV3 source projectId recordId eh digest =>
    have htexts : ∀ s ∈ [authoritySigTagV3, subjectProjectionId, source, projectId, recordId, eh,
        digest], (bytes s).length < 2 ^ 32 := by
      intro s hmem
      rcases List.mem_cons.mp hmem with rfl | hmem
      · exact htag
      · exact hs (.text s) (List.mem_map_of_mem hmem)
    rw [preimage, authorityPreimageV3, lpAll_of_lt htexts] at h
    exact (Option.some.inj h).symm
  case anchor checkpointHash anchoredTs =>
    obtain ⟨h1, h2⟩ : _ ∧ _ := by simpa [Sized, fields] using hs
    obtain rfl := Option.some.inj h
    rw [anchorPreimage, lpOrNothing_of_lt htag, lpOrNothing_of_lt h1, lpOrNothing_of_lt h2]
    simp [encodeFields, fields, Field.encode]
  case commitment domain value nonce =>
    obtain ⟨h1, h2, h3⟩ : _ ∧ _ ∧ _ := by simpa [Sized, fields] using hs
    have hok : commitPreimage domain value nonce = .ok p := by
      rw [preimage] at h
      cases hc : commitPreimage domain value nonce with
      | error e => rw [hc] at h; cases h
      | ok q => rw [hc] at h; exact congrArg _ (Option.some.inj h)
    obtain ⟨_, -, hbytes⟩ := bind_eq_ok_iff.mp hok
    rw [orFail_eq_ok_iff, lpStrInto_of_lt htag, lpStrInto_of_lt h1, lpInto_of_lt h2,
      lpInto_of_lt h3] at hbytes
    simpa [encodeFields, fields, Field.encode] using (Option.some.inj hbytes).symm
  all_goals
    obtain rfl := Option.some.inj h
    simp [usePopPreimage, cosigApprovalPreimage, delegationHopPreimage,
      introspectionTranscriptPreimage, ledgerCommitmentPreimage, federationCertPreimage,
      grantHeadSeedPreimage, grantHeadStepPreimage, revocationLeafPreimage,
      revocationKeyV2Preimage, revocationStateV2Preimage, revocationEntryV2Preimage, lp4, be8Int,
      be8, encodeFields, fields, Field.encode]

/-- A tag has its length in one byte, so a tagged message begins with a zero byte. -/
theorem head?_tagged {t : String} (h : (bytes t).length < 256) (fs : List Field) :
    (encodeFields (.text t :: fs)).head? = some 0 := by
  have hlen : (bytes t).length / 256 = 0 := Nat.div_eq_of_lt h
  rw [encodeFields_cons, Field.encode, framed, beBytes, hlen]
  rfl

/-- The seed of a grant log is shorter than every step. -/
theorem encodeFields_seed_ne_step {m m' : Message} (hm : m.family = .grantHeadSeed)
    (hm' : m'.family = .grantHeadStep) : encodeFields m.fields ≠ encodeFields m'.fields := by
  intro h
  have hroom := room_le_length_encodeFields m'.fields
  rw [map_slot_fields, hm', ← h] at hroom
  cases m <;> cases hm
  exact absurd hroom (by decide)

/-- Equal tags and equal bytes have one family. -/
theorem family_eq_of_tag_eq {m m' : Message} (htag : m.family.tag = m'.family.tag)
    (hsome : m.family.tag ≠ none) (h : encodeFields m.fields = encodeFields m'.fields) :
    m.family = m'.family := by
  by_cases hseed : m.family = .grantHeadSeed
  · rcases Family.eq_step_of_tag_eq (htag.symm.trans (congrArg _ hseed)) with hs | hs
    · rw [hseed, hs]
    · exact absurd h (encodeFields_seed_ne_step hseed hs)
  · by_cases hseed' : m'.family = .grantHeadSeed
    · rcases Family.eq_step_of_tag_eq (htag.trans (congrArg _ hseed')) with hs | hs
      · exact absurd hs hseed
      · exact absurd h.symm (encodeFields_seed_ne_step hseed' hs)
    · exact Family.eq_of_tag_eq hsome hseed hseed' htag

/-- Messages with a tag are determined by their bytes. -/
theorem eq_of_tagged {m m' : Message} {t t' : String} {p : List UInt8}
    (ht : m.family.tag = some t) (ht' : m'.family.tag = some t') (hm : m.Sized) (hm' : m'.Sized)
    (h : m.preimage = some p) (h' : m'.preimage = some p) : m = m' := by
  have hbytes : encodeFields (.text t :: m.fields) = encodeFields (.text t' :: m'.fields) := by
    rw [← preimage_tagged ht hm h, ← preimage_tagged ht' hm' h']
  have hsized : ∀ {f : Family} {s : String}, f.tag = some s → (Field.text s).Sized :=
    fun hs => lt_trans (Family.length_tag_lt hs) (by decide)
  obtain ⟨htag, hfields⟩ := Field.encode_append_inj (f := .text t) (g := .text t') rfl
    (by simp [Field.slot]) (hsized ht) (hsized ht') hbytes
  obtain rfl := Field.text.inj htag
  have hfamily := family_eq_of_tag_eq (ht.trans ht'.symm) (by simp [ht]) hfields
  have hslots : m.fields.map Field.slot = m'.fields.map Field.slot := by
    rw [map_slot_fields, map_slot_fields, hfamily]
  refine eq_of_fields_eq hfamily (encodeFields_inj hslots ?_ hm hm' hfields)
  rw [map_slot_fields]
  exact m.family.delimited_slots

end Message

/-- A leaf of the hash tree and a message of the same length, which is a signature over a text
or an anchor of a hash that is no digest. -/
structure LeafClash (m m' : Message) : Prop where
  leaf : ∃ v, m = .merkleLeaf v
  short : (∃ purpose text, m' = .signed purpose text ∧
      (bytes purpose.tag).length + (bytes text).length = 29 ∧ parseSha256 text = none) ∨
    ∃ checkpointHash anchoredTs, m' = .anchor checkpointHash anchoredTs ∧
      (bytes checkpointHash).length + (bytes anchoredTs).length = 5 ∧
      parseSha256 checkpointHash = none

/-- A digest text has 71 bytes. -/
theorem parseSha256_of_length_lt {s : String} (h : (bytes s).length < 71) :
    parseSha256 s = none := by
  unfold parseSha256
  split
  · rfl
  · next hex hhex =>
    rw [if_pos]
    have hlen := congrArg List.length (eq_append_of_isPrefixOf? hhex)
    have hseven : (bytes "sha256:").length = 7 := by decide
    rw [List.length_append, hseven] at hlen
    omega

namespace Message

/-- Only short signatures and anchors have as few bytes as a leaf. -/
theorem leafClash_of_tagged {v : Vector UInt8 32} {m : Message} {t : String}
    (ht : m.family.tag = some t) (hm : m.Sized)
    (h : m.preimage = some (merkleLeafPreimage v)) : LeafClash (.merkleLeaf v) m := by
  have hlen := congrArg List.length (preimage_tagged ht hm h)
  rw [encodeFields_cons, List.length_append, Field.encode, framed, List.length_append,
    length_beBytes] at hlen
  replace hlen : 33 = 4 + (bytes t).length + (encodeFields m.fields).length := by
    simpa [merkleLeafPreimage] using hlen
  have hroom := room_le_length_encodeFields m.fields
  rw [map_slot_fields] at hroom
  cases m with
  | signed purpose text =>
    obtain rfl := Option.some.inj ht
    have htext : (encodeFields (signed purpose text).fields).length = (bytes text).length := by
      simp [encodeFields, fields, Field.encode]
    refine ⟨⟨v, rfl⟩, Or.inl ⟨purpose, text, rfl, by omega, parseSha256_of_length_lt (by omega)⟩⟩
  | anchor checkpointHash anchoredTs =>
    have htag : (bytes t).length = 16 := by
      rw [← Option.some.inj ht]
      decide
    have htexts : (encodeFields (anchor checkpointHash anchoredTs).fields).length =
        8 + (bytes checkpointHash).length + (bytes anchoredTs).length := by
      simp [encodeFields, fields, Field.encode, framed]
      omega
    refine ⟨⟨v, rfl⟩, Or.inr ⟨checkpointHash, anchoredTs, rfl, by omega,
      parseSha256_of_length_lt (by omega)⟩⟩
  | commitment domain value nonce =>
    -- the name of the field alone makes the message longer than a leaf
    have htag : (bytes t).length = 16 := by
      rw [← Option.some.inj ht]
      decide
    have hdomain : 5 ≤ (bytes domain.asStr).length := by cases domain <;> decide
    have hfields : (encodeFields (commitment domain value nonce).fields).length =
        12 + (bytes domain.asStr).length + nonce.length + value.length := by
      simp [encodeFields, fields, Field.encode, framed]
      omega
    omega
  | grantHeadSeed =>
    rw [← Option.some.inj ht] at hlen
    exact absurd hlen (by decide)
  | merkleLeaf _ | merkleNode _ _ => cases ht
  | _ =>
    rw [← Option.some.inj ht] at hlen
    dsimp only [family] at hroom
    have hlong := (Nat.add_le_add_left hroom _).trans_eq hlen.symm
    exact absurd hlong (by decide)

/-- A node begins with another byte than a message with a tag. -/
theorem preimage_ne_node {m : Message} {t : String} (ht : m.family.tag = some t) (hm : m.Sized)
    (l r : Vector UInt8 32) : m.preimage ≠ some (merkleNodePreimage l r) := by
  intro h
  have hhead := head?_tagged (Family.length_tag_lt ht) m.fields
  rw [← preimage_tagged ht hm h] at hhead
  exact absurd hhead (by simp [merkleNodePreimage])

/-- The messages of a hash tree are determined by their bytes. -/
theorem eq_of_untagged {m m' : Message} {p : List UInt8} (ht : m.family.tag = none)
    (ht' : m'.family.tag = none) (h : m.preimage = some p) (h' : m'.preimage = some p) :
    m = m' := by
  have hbytes := h.trans h'.symm
  cases m <;> cases ht <;> cases m' <;> cases ht'
  · simpa [preimage, merkleLeafPreimage, Vector.toList_inj] using hbytes
  · simp [preimage, merkleLeafPreimage, merkleNodePreimage] at hbytes
  · simp [preimage, merkleLeafPreimage, merkleNodePreimage] at hbytes
  · obtain ⟨hl, hr⟩ := List.append_inj (List.cons.inj (Option.some.inj hbytes)).2 (by simp)
    rw [Vector.toList_inj.mp hl, Vector.toList_inj.mp hr]

/-- A message with a tag and one without have the same bytes only if they clash. -/
theorem leafClash_of_untagged {m m' : Message} {t : String} {p : List UInt8}
    (ht : m.family.tag = some t) (ht' : m'.family.tag = none) (hm : m.Sized)
    (h : m.preimage = some p) (h' : m'.preimage = some p) : LeafClash m' m := by
  cases m' with
  | merkleLeaf v =>
    obtain rfl := Option.some.inj h'
    exact leafClash_of_tagged ht hm h
  | merkleNode l r =>
    obtain rfl := Option.some.inj h'
    exact absurd h (preimage_ne_node ht hm l r)
  | _ => cases ht'

end Message

/-- Messages that fit their framing and have the same bytes are the same message, except that
a leaf of the hash tree may have those of a signature or of an anchor over a text too short to
be a digest. -/
theorem message_families_disjoint (m m' : Message) (p : List UInt8) (hm : m.Sized)
    (hm' : m'.Sized) (h : m.preimage = some p) (h' : m'.preimage = some p) :
    m = m' ∨ LeafClash m m' ∨ LeafClash m' m := by
  cases ht : m.family.tag with
  | some t =>
    cases ht' : m'.family.tag with
    | some t' => exact Or.inl (Message.eq_of_tagged ht ht' hm hm' h h')
    | none => exact Or.inr (Or.inr (Message.leafClash_of_untagged ht ht' hm h h'))
  | none =>
    cases ht' : m'.family.tag with
    | some t' => exact Or.inr (Or.inl (Message.leafClash_of_untagged ht' ht hm' h' h))
    | none => exact Or.inl (Message.eq_of_untagged ht ht' h h')

/-- The leaf whose bytes are those of a record signature over a text of nine bytes. -/
def clashingLeaf : Vector UInt8 32 :=
  ⟨((0 : UInt8) :: 0 :: 20 :: (bytes recordSigTag ++ bytes "sha256:00")).toArray, by decide⟩

/-- The clashing leaf fits its length field. -/
theorem sized_clashingLeaf : (Message.merkleLeaf clashingLeaf).Sized := by
  simp [Message.Sized, Message.fields, Field.Sized]

theorem sized_shortRecord : (Message.signed .record "sha256:00").Sized := by
  simp [Message.Sized, Message.fields, Field.Sized]

/-- A leaf of the hash tree and a record signature message share their bytes. -/
theorem merkle_leaf_is_record_message :
    (Message.merkleLeaf clashingLeaf).Sized ∧ (Message.signed .record "sha256:00").Sized ∧
      (Message.merkleLeaf clashingLeaf).family ≠ (Message.signed .record "sha256:00").family ∧
      ∃ p, (Message.merkleLeaf clashingLeaf).preimage = some p ∧
        (Message.signed .record "sha256:00").preimage = some p := by
  refine ⟨sized_clashingLeaf, sized_shortRecord, by decide, _, rfl, ?_⟩
  decide

/-- An untagged leaf is the challenge of a record. -/
theorem message_families_disjoint_leaf :
    LeafClash (.merkleLeaf clashingLeaf) (.signed .record "sha256:00") := by
  rcases message_families_disjoint (.merkleLeaf clashingLeaf) (.signed .record "sha256:00") _
    sized_clashingLeaf sized_shortRecord rfl (by decide) with h | h | h
  · cases h
  · exact h
  · obtain ⟨v, hv⟩ := h.leaf
    cases hv

end Averin
