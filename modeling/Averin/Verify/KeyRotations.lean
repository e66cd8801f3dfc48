import Averin.Canon.Object
import Averin.Canon.RoundTrip
import Averin.Core.Saturation
import Averin.Core.Table
import Averin.Verify.Approvals
import Averin.Verify.CanonicalTs

/-!
# Key rotations

A signed statement links a recording key to its successor. A scheduled statement that both keys
signed hands the trust in the old key over to the new one, as long as the old key is in use or
retired and the new key has no other role.
-/

namespace Averin

/-- The tag of a rotation. -/
def keyRotationSigTag : String := "averin.key_rotation.v1"

/-- How the text of a key begins. -/
def pubkeyPrefix : String := "ed25519pub:"

/-- An entry of the bundle's key store. -/
structure KeyEntry where
  vk : Vector UInt8 32
  status : String

/-- A key that the auditor pinned. -/
structure TrustedKey where
  vk : Vector UInt8 32
  status : Option String := none

/-- The keys that the auditor pinned, by their role. -/
structure PinnedKeys where
  trustedKeys : Option (List TrustedKey) := none
  trustedAuthorityKeys : List (Vector UInt8 32) := []
  resourceAuthorityKeys : List (Vector UInt8 32) := []
  taxonomyKeys : List (Vector UInt8 32) := []
  attestationKeys : List (Vector UInt8 32) := []
  trustedTsaKeys : List (Vector UInt8 32) := []
  cosigApproverKeys : List (Vector UInt8 32) := []
  revocationKeys : List (Vector UInt8 32) := []

/-- The lists of keys with another role. -/
def PinnedKeys.roleSets (opts : PinnedKeys) : List (List (Vector UInt8 32)) :=
  [opts.trustedAuthorityKeys, opts.resourceAuthorityKeys, opts.taxonomyKeys, opts.attestationKeys,
    opts.trustedTsaKeys, opts.cosigApproverKeys, opts.revocationKeys]

/-- How bad a status is; an unknown one is worst. -/
def statusRank (s : String) : Nat :=
  if s = "active" then 0
  else if s = "retired" then 1
  else if s = "revoked" then 2
  else if s = "compromised" then 3
  else 4

/-- The worse of two statuses. -/
def worstStatus (a b : String) : String := if statusRank b ≤ statusRank a then a else b

/-- The first two ranks are those of active and of retired keys. -/
theorem statusRank_le_one_iff {s : String} : statusRank s ≤ 1 ↔ s = "active" ∨ s = "retired" := by
  unfold statusRank
  by_cases ha : s = "active"
  · simp [ha]
  by_cases hr : s = "retired"
  · simp [hr]
  rw [if_neg ha, if_neg hr]
  simp only [ha, hr, or_self, iff_false]
  split_ifs <;> omega

/-- A key as a statement names it. -/
structure RotationKeyRef where
  signingKeyId : String
  keyEpoch : Int
  publicKey : String

/-- A reference of exactly three members. -/
def rotationKeyRef (v : CanonValue) : Option RotationKeyRef := do
  let o ← v.asObject
  guard (o.length = 3)
  let signingKeyId ← strOf v "signing_key_id"
  let keyEpoch ← (v.get "key_epoch").bind CanonValue.asInt
  let publicKey ← strOf v "public_key"
  return ⟨signingKeyId, keyEpoch, publicKey⟩

/-- A key handing over to its successor, with the status the bundle gives it. -/
structure Handover where
  old : Vector UInt8 32
  bundleStatus : String
  new : Vector UInt8 32
  deriving DecidableEq

/-- Why a statement does not count. -/
inductive RotationFault where
  | notObject | unknownField (name : String) | kind | reason | rotatedAt | keyRefs | sameKey
  | notListed | undecodable | keyDiffers | sigNew | sigOld
  deriving DecidableEq, Repr

/-- The members of a rotation. -/
def rotationFields : List String :=
  ["kind", "old_key", "new_key", "rotated_at", "reason", "sig_new", "sig_old"]

/-- Refuse the first member that a statement does not have. -/
def rejectUnknown (obj : List (String × CanonValue)) : Except RotationFault Unit :=
  match obj.find? (·.1 ∉ rotationFields) with
  | some m => .error (.unknownField m.1)
  | none => .ok ()

section Statement

variable (N : Normalizer) (sha256 : List UInt8 → Vector UInt8 32) (ed : Ed25519)
  (keys : Table (String × Int) KeyEntry)

/-- Read a key from its text. -/
def decodePubkey (s : String) : Option (Vector UInt8 32) :=
  ((stripPrefix pubkeyPrefix s).bind (B64.decodeFixed 32)).filter ed.validKey

/-- The digest that both keys sign. -/
def rotationDigest (st : CanonValue) : String :=
  rootText (sha256 (writeCanonical N (st.withoutKeys ["sig_new", "sig_old"])).bytes)

/-- The member of a statement is its signature under a key. -/
def rotationSigOk (st : CanonValue) (field : String) (vk : Vector UInt8 32) : Bool :=
  (strOf st field).any fun sig =>
    (verifyText ed keyRotationSigTag (rotationDigest N sha256 st) sig vk).isOk

/-- Check a statement; a scheduled one hands over. -/
def checkRotation (st : CanonValue) : Except RotationFault (Option Handover) := do
  let obj ← orFail st.asObject .notObject
  rejectUnknown obj
  require (strOf st "kind" = some "key_rotation") .kind
  let reason := (strOf st "reason").getD ""
  require (reason = "scheduled" ∨ reason = "compromise") .reason
  require ((strOf st "rotated_at").any isCanonicalTs = true) .rotatedAt
  let old ← orFail ((st.get "old_key").bind rotationKeyRef) .keyRefs
  let new ← orFail ((st.get "new_key").bind rotationKeyRef) .keyRefs
  require (¬ ((old.signingKeyId, old.keyEpoch) = (new.signingKeyId, new.keyEpoch) ∨
    old.publicKey = new.publicKey)) .sameKey
  let oe ← orFail (keys.lookup (old.signingKeyId, old.keyEpoch)) .notListed
  let ne ← orFail (keys.lookup (new.signingKeyId, new.keyEpoch)) .notListed
  let ovk ← orFail (decodePubkey ed old.publicKey) .undecodable
  let nvk ← orFail (decodePubkey ed new.publicKey) .undecodable
  require (ovk = oe.vk ∧ nvk = ne.vk) .keyDiffers
  require (rotationSigOk N sha256 ed st "sig_new" nvk = true) .sigNew
  if reason = "scheduled" then
    require (rotationSigOk N sha256 ed st "sig_old" ovk = true) .sigOld
    return some ⟨ovk, oe.status, nvk⟩
  else return none

end Statement

/-- Why a list of rotations is refused. -/
inductive RotationIssue where
  | notArray
  | statement (i : Nat) (fault : RotationFault)
  | successorIsRoleKey
  deriving DecidableEq, Repr

/-- The trusted keys with their statuses, those added to the pinned ones, and what was found. -/
structure TrustRun where
  trusted : List (Vector UInt8 32 × String)
  chainTrusted : List (Vector UInt8 32)
  issues : List RotationIssue

/-- Offer one handover; the answer says if it extended trust. -/
def TrustRun.offer (roleSets : List (List (Vector UInt8 32))) (s : TrustRun) (h : Handover) :
    TrustRun × Bool :=
  if s.trusted.any (·.1 = h.new) then (s, false)
  else
    match s.trusted.find? (·.1 = h.old) with
    | none => (s, false)
    | some (_, pinnedStatus) =>
      if 1 < statusRank (worstStatus pinnedStatus h.bundleStatus) then (s, false)
      else if roleSets.any (·.contains h.new) then
        ({ s with issues := s.issues ++ [.successorIsRoleKey] }, false)
      else
        ({ s with
            trusted := s.trusted ++ [(h.new, "active")]
            chainTrusted := s.chainTrusted ++ [h.new] }, true)

/-- The outcome of the statements. -/
structure RotationEval where
  total : Nat := 0
  verified : Nat := 0
  chainTrusted : List (Vector UInt8 32) := []
  issues : List RotationIssue := []

/-- The pinned keys with their statuses. -/
def pinnedStatuses (pinned : List TrustedKey) : List (Vector UInt8 32 × String) :=
  pinned.map fun t => (t.vk, t.status.getD "active")

section Evaluate

variable (N : Normalizer) (sha256 : List UInt8 → Vector UInt8 32) (ed : Ed25519)

/-- The handovers of the scheduled statements, in order. -/
def handoversOf (keys : Table (String × Int) KeyEntry) (list : List CanonValue) : List Handover :=
  list.filterMap fun st => (checkRotation N sha256 ed keys st).toOption.join

/-- The statements that do not count. -/
def statementIssues (keys : Table (String × Int) KeyEntry) (list : List CanonValue) :
    List RotationIssue :=
  list.zipIdx.filterMap fun p =>
    match checkRotation N sha256 ed keys p.1 with
    | .error fault => some (.statement p.2 fault)
    | .ok _ => none

/-- Verify the statements and extend trust along them; `none` if the rounds do not suffice. -/
def evaluateKeyRotations (fuel : Nat) (bundle : CanonValue) (keys : Table (String × Int) KeyEntry)
    (opts : PinnedKeys) : Option RotationEval :=
  match bundle.get "key_rotations" with
  | none => some {}
  | some raw =>
    match raw.asArray with
    | none => some { issues := [.notArray] }
    | some list =>
      let issues := statementIssues N sha256 ed keys list
      let out : RotationEval :=
        { total := list.length
          verified := list.countP fun st => (checkRotation N sha256 ed keys st).isOk
          issues }
      match opts.trustedKeys with
      | none => some out
      | some pinned =>
        (saturate (TrustRun.offer opts.roleSets) (handoversOf N sha256 ed keys list) fuel
          ⟨pinnedStatuses pinned, [], issues⟩).map fun t =>
            { out with chainTrusted := t.chainTrusted, issues := t.issues }

end Evaluate

section Statement

variable (N : Normalizer) (sha256 : List UInt8 → Vector UInt8 32) (ed : Ed25519)
  (keys : Table (String × Int) KeyEntry)

/-- A key reference in a statement stands for an entry of the key store. -/
structure ListedAs (ref : RotationKeyRef) (entry : KeyEntry) : Prop where
  listed : keys.lookup (ref.signingKeyId, ref.keyEpoch) = some entry
  key : decodePubkey ed ref.publicKey = some entry.vk

/-- A verified scheduled statement: well formed, about two listed keys, and signed by both. -/
structure ScheduledRotation (st : CanonValue) (old new : KeyEntry) : Prop where
  fields : ∃ obj, st = .obj obj ∧ ∀ m ∈ obj, m.1 ∈ rotationFields
  kind : strOf st "kind" = some "key_rotation"
  reason : strOf st "reason" = some "scheduled"
  rotatedAt : ∃ t, strOf st "rotated_at" = some t ∧ isCanonicalTs t = true
  refs : ∃ o n, (st.get "old_key").bind rotationKeyRef = some o ∧
    (st.get "new_key").bind rotationKeyRef = some n ∧ ListedAs ed keys o old ∧
      ListedAs ed keys n new ∧
        (o.signingKeyId, o.keyEpoch) ≠ (n.signingKeyId, n.keyEpoch) ∧ o.publicKey ≠ n.publicKey
  sigNew : rotationSigOk N sha256 ed st "sig_new" new.vk = true
  sigOld : rotationSigOk N sha256 ed st "sig_old" old.vk = true

variable {N sha256 ed keys}

theorem asObject_eq_some_iff {v : CanonValue} {obj : List (String × CanonValue)} :
    v.asObject = some obj ↔ v = .obj obj := by
  cases v <;> simp [CanonValue.asObject]

/-- A text that is not empty was there. -/
theorem getD_empty_eq_iff {o : Option String} {t : String} (ht : t ≠ "") :
    o.getD "" = t ↔ o = some t := by
  cases o with
  | none => simp [ht.symm]
  | some u => simp

/-- Nothing is refused exactly if every member is known. -/
theorem rejectUnknown_eq_ok_iff {obj : List (String × CanonValue)} {u : Unit} :
    rejectUnknown obj = .ok u ↔ ∀ m ∈ obj, m.1 ∈ rotationFields := by
  unfold rejectUnknown
  cases hfind : obj.find? (·.1 ∉ rotationFields) with
  | some m =>
    have hm := List.find?_some hfind
    simp only [reduceCtorEq, false_iff]
    intro hall
    exact (of_decide_eq_true hm) (hall m (List.mem_of_find?_eq_some hfind))
  | none =>
    have hnone := List.find?_eq_none.mp hfind
    simp only [decide_eq_true_eq, not_not] at hnone
    simpa using hnone

/-- A statement hands over exactly if it is a verified scheduled one. -/
theorem checkRotation_eq_ok_some_iff {st : CanonValue} {h : Handover} :
    checkRotation N sha256 ed keys st = .ok (some h) ↔
      ∃ old new, ScheduledRotation N sha256 ed keys st old new ∧
        h = ⟨old.vk, old.status, new.vk⟩ := by
  unfold checkRotation
  simp only [bind_eq_ok_iff, orFail_eq_ok_iff, require_eq_ok_iff, rejectUnknown_eq_ok_iff]
  constructor
  · rintro ⟨obj, hobj, _, hfields, _, hkind, _, hreason, _, hrotated, o, ho, n, hn, _, hdiffer, oe,
      hoe, ne, hne, ovk, hovk, nvk, hnvk, _, ⟨rfl, rfl⟩, _, hsigNew, hrest⟩
    split_ifs at hrest with hscheduled
    · simp only [bind_eq_ok_iff, require_eq_ok_iff] at hrest
      obtain ⟨_, hsigOld, heq⟩ := hrest
      obtain ⟨hids, htexts⟩ := not_or.mp hdiffer
      refine ⟨oe, ne, ⟨⟨obj, asObject_eq_some_iff.mp hobj, hfields⟩, hkind, ?_, ?_, ?_, hsigNew,
        hsigOld⟩, ?_⟩
      · exact getD_empty_eq_iff (by decide) |>.mp hscheduled
      · exact (Option.any_eq_true _ _).mp hrotated
      · exact ⟨o, n, ho, hn, ⟨hoe, hovk⟩, ⟨hne, hnvk⟩, hids, htexts⟩
      · exact (Option.some.inj (Except.ok.inj heq)).symm
    · cases hrest
  · rintro ⟨old, new, hs, rfl⟩
    obtain ⟨obj, rfl, hfields⟩ := hs.fields
    obtain ⟨o, n, ho, hn, hold, hnew, hids, htexts⟩ := hs.refs
    have hreason : (strOf (.obj obj) "reason").getD "" = "scheduled" := by rw [hs.reason]; rfl
    refine ⟨obj, rfl, (), hfields, (), hs.kind, (), Or.inl hreason, (),
      (Option.any_eq_true _ _).mpr hs.rotatedAt, o, ho, n, hn, (), not_or.mpr ⟨hids, htexts⟩, old,
      hold.listed, new, hnew.listed, old.vk, hold.key, new.vk, hnew.key, (), ⟨rfl, rfl⟩, (),
      hs.sigNew, ?_⟩
    rw [if_pos hreason]
    simp only [bind_eq_ok_iff, require_eq_ok_iff]
    exact ⟨(), hs.sigOld, rfl⟩

end Statement

section Trust

variable {pinned : List TrustedKey} {roleSets : List (List (Vector UInt8 32))}

/-- A key that the auditor pinned as a signing key. -/
def IsPinned (pinned : List TrustedKey) (k : Vector UInt8 32) : Prop := ∃ t ∈ pinned, t.vk = k

/-- The first pinned status of a key; a key that is not pinned is active. -/
def firstStatus (pinned : List TrustedKey) (k : Vector UInt8 32) : String :=
  ((pinned.find? (·.vk = k)).bind (·.status)).getD "active"

/-- The pinned keys come first, and what is added was not pinned and comes once. -/
structure Rooted (pinned : List TrustedKey) (s : TrustRun) : Prop where
  trusted : s.trusted = pinnedStatuses pinned ++ s.chainTrusted.map (·, "active")
  unpinned : ∀ k ∈ s.chainTrusted, ¬ IsPinned pinned k
  nodup : s.chainTrusted.Nodup

/-- The keys trusted so far. -/
def TrustRun.held (s : TrustRun) : List (Vector UInt8 32) := s.trusted.map Prod.fst

/-- A handover that the statuses and the roles allow. -/
def Handover.Good (pinned : List TrustedKey) (roleSets : List (List (Vector UInt8 32)))
    (h : Handover) : Prop :=
  statusRank (worstStatus (firstStatus pinned h.old) h.bundleStatus) ≤ 1 ∧
    ∀ set ∈ roleSets, h.new ∉ set

/-- The pinned keys are those with a status. -/
theorem mem_map_pinnedStatuses {k : Vector UInt8 32} :
    k ∈ (pinnedStatuses pinned).map Prod.fst ↔ IsPinned pinned k := by
  simp [pinnedStatuses, IsPinned]

/-- What is held was pinned or trusted by a chain. -/
theorem Rooted.mem_held_iff {s : TrustRun} (hs : Rooted pinned s) {k : Vector UInt8 32} :
    k ∈ s.held ↔ IsPinned pinned k ∨ k ∈ s.chainTrusted := by
  rw [TrustRun.held, hs.trusted, List.map_append, List.mem_append, mem_map_pinnedStatuses]
  simp

/-- A trusted key has its first pinned status. -/
theorem Rooted.find?_eq {s : TrustRun} (hs : Rooted pinned s) {k : Vector UInt8 32} :
    s.trusted.find? (·.1 = k) = if k ∈ s.held then some (k, firstStatus pinned k) else none := by
  rw [hs.trusted, List.find?_append, pinnedStatuses, List.find?_map, List.find?_map]
  cases hfind : pinned.find? (·.vk = k) with
  | some t =>
    have hk : t.vk = k := by simpa using List.find?_some hfind
    have hmem : k ∈ s.held := hs.mem_held_iff.mpr (Or.inl ⟨t, List.mem_of_find?_eq_some hfind, hk⟩)
    have hstatus : firstStatus pinned k = t.status.getD "active" := by
      rw [firstStatus, hfind, Option.bind_some]
    have hfirst : pinned.find? ((fun x : Vector UInt8 32 × String => decide (x.1 = k)) ∘
        fun t => (t.vk, t.status.getD "active")) = some t := hfind
    rw [hfirst, Option.map_some, Option.some_or, if_pos hmem, hstatus, hk]
  | none =>
    have hunpinned : ¬ IsPinned pinned k := by
      rintro ⟨t, ht, rfl⟩
      simpa using List.find?_eq_none.mp hfind t ht
    have hstatus : firstStatus pinned k = "active" := by rw [firstStatus, hfind]; rfl
    have hfirst : pinned.find? ((fun x : Vector UInt8 32 × String => decide (x.1 = k)) ∘
        fun t => (t.vk, t.status.getD "active")) = none := hfind
    rw [hfirst, Option.map_none, Option.none_or, hstatus]
    by_cases hchain : k ∈ s.chainTrusted
    · rw [if_pos (hs.mem_held_iff.mpr (Or.inr hchain))]
      cases hlast : s.chainTrusted.find? ((fun x : Vector UInt8 32 × String => decide (x.1 = k)) ∘
        fun x => (x, "active")) with
      | some q =>
        have hq : q = k := by simpa using List.find?_some hlast
        rw [Option.map_some, hq]
      | none =>
        have habsent := List.find?_eq_none.mp hlast k hchain
        simp at habsent
    · rw [if_neg fun h => (hs.mem_held_iff.mp h).elim hunpinned hchain, Option.map_eq_none_iff,
        List.find?_eq_none]
      intro q hq heq
      exact hchain (of_decide_eq_true heq ▸ hq)

/-- What an offer does to the keys trusted so far. -/
theorem Rooted.offer_cases {s : TrustRun} (hs : Rooted pinned s)
    (roleSets : List (List (Vector UInt8 32))) (h : Handover) :
    ((s.offer roleSets h).2 = false ∧ (s.offer roleSets h).1.trusted = s.trusted ∧
      (s.offer roleSets h).1.chainTrusted = s.chainTrusted ∧
        (h.new ∈ s.held ∨ h.old ∉ s.held ∨ ¬ h.Good pinned roleSets)) ∨
    ((s.offer roleSets h).2 = true ∧
      (s.offer roleSets h).1.trusted = s.trusted ++ [(h.new, "active")] ∧
        (s.offer roleSets h).1.chainTrusted = s.chainTrusted ++ [h.new] ∧
          h.new ∉ s.held ∧ h.old ∈ s.held ∧ h.Good pinned roleSets) := by
  have hany : s.trusted.any (·.1 = h.new) = true ↔ h.new ∈ s.held := by
    simp [TrustRun.held]
  unfold TrustRun.offer
  rw [hs.find?_eq]
  by_cases hnew : h.new ∈ s.held
  · rw [if_pos (hany.mpr hnew)]
    exact Or.inl ⟨rfl, rfl, rfl, Or.inl hnew⟩
  rw [if_neg fun h => hnew (hany.mp h)]
  by_cases hold : h.old ∈ s.held
  · rw [if_pos hold]
    dsimp only
    by_cases hrank : 1 < statusRank (worstStatus (firstStatus pinned h.old) h.bundleStatus)
    · rw [if_pos hrank]
      exact Or.inl ⟨rfl, rfl, rfl, Or.inr (Or.inr fun hgood => absurd hgood.1 (by omega))⟩
    rw [if_neg hrank]
    by_cases hrole : roleSets.any (·.contains h.new) = true
    · rw [if_pos hrole]
      refine Or.inl ⟨rfl, rfl, rfl, Or.inr (Or.inr fun hgood => ?_)⟩
      obtain ⟨set, hset, hmem⟩ := List.any_eq_true.mp hrole
      exact hgood.2 set hset (List.contains_iff_mem.mp hmem)
    · rw [if_neg hrole]
      refine Or.inr ⟨rfl, rfl, rfl, hnew, hold, by omega, fun set hset hmem => hrole ?_⟩
      exact List.any_eq_true.mpr ⟨set, hset, List.contains_iff_mem.mpr hmem⟩
  · rw [if_neg hold]
    exact Or.inl ⟨rfl, rfl, rfl, Or.inr (Or.inl hold)⟩

/-- Offering handovers follows the good ones. -/
theorem offer_extends : Extends (TrustRun.offer roleSets) (Rooted pinned) TrustRun.held
    Handover.old Handover.new (Handover.Good pinned roleSets) where
  inv s h hs := by
    rcases hs.offer_cases roleSets h with
      ⟨-, htrusted, hchain, -⟩ | ⟨-, htrusted, hchain, hnew, -⟩
    · exact ⟨by rw [htrusted, hchain, hs.trusted], by rw [hchain]; exact hs.unpinned,
        by rw [hchain]; exact hs.nodup⟩
    · have hout := fun hor => hnew (hs.mem_held_iff.mpr hor)
      refine ⟨?_, ?_, ?_⟩
      · rw [htrusted, hchain, hs.trusted, List.map_append, List.append_assoc]
        rfl
      · rw [hchain]
        intro k hk
        rcases List.mem_append.mp hk with hk | hk
        · exact hs.unpinned k hk
        · rw [List.mem_singleton.mp hk]
          exact fun hp => hout (Or.inl hp)
      · rw [hchain]
        refine List.Nodup.append hs.nodup (List.nodup_singleton _) ?_
        simpa using fun hmem => hout (Or.inr hmem)
  taken_iff s h hs := by
    rcases hs.offer_cases roleSets h with
      ⟨hflag, -, -, hwhy⟩ | ⟨hflag, -, -, hnew, hold, hgood⟩
    · rw [hflag]
      simp only [Bool.false_eq_true, false_iff]
      rintro ⟨hnew, hold, hgood⟩
      rcases hwhy with hwhy | hwhy | hwhy
      · exact hnew hwhy
      · exact hwhy hold
      · exact hwhy hgood
    · exact iff_of_true hflag ⟨hnew, hold, hgood⟩
  held_taken s h hs htaken := by
    rcases hs.offer_cases roleSets h with ⟨hflag, -⟩ | ⟨-, htrusted, -⟩
    · rw [hflag] at htaken
      cases htaken
    · rw [TrustRun.held, htrusted, List.map_append]
      rfl
  held_left s h hs hleft := by
    rcases hs.offer_cases roleSets h with ⟨-, htrusted, -⟩ | ⟨hflag, -⟩
    · rw [TrustRun.held, htrusted, TrustRun.held]
    · rw [hflag] at hleft
      cases hleft

end Trust

section Closure

variable (N : Normalizer) (sha256 : List UInt8 → Vector UInt8 32) (ed : Ed25519)

/-- The statements of a bundle. -/
def rotationStatements (bundle : CanonValue) : List CanonValue :=
  ((bundle.get "key_rotations").bind CanonValue.asArray).getD []

/-- The pinned signing keys, none without external pinning. -/
def PinnedKeys.pinned (opts : PinnedKeys) : List TrustedKey := opts.trustedKeys.getD []

/-- A verified scheduled statement of the bundle by which `a` hands over to `b`: the worse
status of `a` is usable, and `b` has no other role. -/
def RotatesTo (usable : String → Prop) (bundle : CanonValue)
    (keys : Table (String × Int) KeyEntry) (opts : PinnedKeys) (a b : Vector UInt8 32) : Prop :=
  ∃ st ∈ rotationStatements bundle, ∃ old new, ScheduledRotation N sha256 ed keys st old new ∧
    old.vk = a ∧ new.vk = b ∧ usable (worstStatus (firstStatus opts.pinned a) old.status) ∧
      ∀ set ∈ opts.roleSets, b ∉ set

/-- A key that is not pinned, and that a pinned key handed over to in some steps. -/
def TrustedByRotation (usable : String → Prop) (bundle : CanonValue)
    (keys : Table (String × Int) KeyEntry) (opts : PinnedKeys) (k : Vector UInt8 32) : Prop :=
  ¬ IsPinned opts.pinned k ∧ ∃ p, IsPinned opts.pinned p ∧
    Relation.ReflTransGen (RotatesTo N sha256 ed usable bundle keys opts) p k

/-- A key with this status may still hand over. -/
def InUse (s : String) : Prop := s = "active" ∨ s = "retired"

variable {N sha256 ed} {bundle : CanonValue} {keys : Table (String × Int) KeyEntry}
  {opts : PinnedKeys}

/-- The handovers are those of the scheduled statements. -/
theorem mem_handoversOf_iff {list : List CanonValue} {h : Handover} :
    h ∈ handoversOf N sha256 ed keys list ↔
      ∃ st ∈ list, ∃ old new, ScheduledRotation N sha256 ed keys st old new ∧
        h = ⟨old.vk, old.status, new.vk⟩ := by
  rw [handoversOf, List.mem_filterMap]
  refine exists_congr fun st => and_congr_right fun _ => ?_
  rw [← checkRotation_eq_ok_some_iff]
  cases checkRotation N sha256 ed keys st with
  | error e => simp [Except.toOption]
  | ok o => simp [Except.toOption]

/-- The good handovers between two keys are the statements by which one rotates to the other. -/
theorem leadsTo_handovers_iff {list : List CanonValue} (hlist : rotationStatements bundle = list)
    {a b : Vector UInt8 32} :
    LeadsTo (handoversOf N sha256 ed keys list) Handover.old Handover.new
        (Handover.Good opts.pinned opts.roleSets) a b ↔
      RotatesTo N sha256 ed InUse bundle keys opts a b := by
  unfold LeadsTo RotatesTo
  constructor
  · rintro ⟨h, hmem, hgood, rfl, rfl⟩
    obtain ⟨st, hst, old, new, hs, rfl⟩ := mem_handoversOf_iff.mp hmem
    exact ⟨st, hlist ▸ hst, old, new, hs, rfl, rfl, statusRank_le_one_iff.mp hgood.1, hgood.2⟩
  · rintro ⟨st, hst, old, new, hs, rfl, rfl, husable, hroles⟩
    exact ⟨_, mem_handoversOf_iff.mpr ⟨st, hlist ▸ hst, old, new, hs, rfl⟩,
      ⟨statusRank_le_one_iff.mpr husable, hroles⟩, rfl, rfl⟩

/-- There is one for a statement at most. -/
theorem length_handoversOf_le (list : List CanonValue) :
    (handoversOf N sha256 ed keys list).length ≤ list.length :=
  List.length_filterMap_le _ _

/-- Nothing is reached without pinned keys or statements. -/
theorem not_trustedByRotation {usable : String → Prop}
    (h : opts.pinned = [] ∨ rotationStatements bundle = []) (k : Vector UInt8 32) :
    ¬ TrustedByRotation N sha256 ed usable bundle keys opts k := by
  rintro ⟨hk, p, hp, hr⟩
  rcases h with h | h
  · obtain ⟨t, ht, -⟩ := hp
    rw [h] at ht
    cases ht
  · cases hr with
    | refl => exact hk hp
    | tail _ hlast =>
      obtain ⟨st, hst, -⟩ := hlast
      rw [h] at hst
      cases hst

/-- The rounds over the handovers end, and add the keys that the good ones lead to. -/
theorem saturate_handovers (list : List CanonValue) (pinned : List TrustedKey)
    (roleSets : List (List (Vector UInt8 32))) (issues : List RotationIssue) :
    ∃ t, (∀ fuel, list.length < fuel → saturate (TrustRun.offer roleSets)
        (handoversOf N sha256 ed keys list) fuel ⟨pinnedStatuses pinned, [], issues⟩ = some t) ∧
      t.chainTrusted.Nodup ∧
        ∀ k, k ∈ t.chainTrusted ↔ ¬ IsPinned pinned k ∧ ∃ p, IsPinned pinned p ∧
          Relation.ReflTransGen (LeadsTo (handoversOf N sha256 ed keys list) Handover.old
            Handover.new (Handover.Good pinned roleSets)) p k := by
  have hroot : Rooted pinned ⟨pinnedStatuses pinned, [], issues⟩ :=
    ⟨by simp, fun k hk => absurd hk List.not_mem_nil, List.nodup_nil⟩
  have hfuel : Extends.missing (TrustRun.held ⟨pinnedStatuses pinned, [], issues⟩) Handover.new
      (handoversOf N sha256 ed keys list) < list.length + 1 :=
    Nat.lt_succ_of_le ((List.countP_le_length).trans (length_handoversOf_le list))
  obtain ⟨t, ht, hrooted, hmem⟩ := offer_extends.saturate_spec _ hroot hfuel
  refine ⟨t, fun fuel hlt => saturate_mono ht hlt, hrooted.nodup, fun k => ?_⟩
  have hstart : ∀ p, p ∈ TrustRun.held ⟨pinnedStatuses pinned, [], issues⟩ ↔ IsPinned pinned p :=
    fun p => mem_map_pinnedStatuses
  constructor
  · intro hk
    obtain ⟨p, hp, hr⟩ := (hmem k).mp (hrooted.mem_held_iff.mpr (Or.inr hk))
    exact ⟨hrooted.unpinned k hk, p, (hstart p).mp hp, hr⟩
  · rintro ⟨hk, p, hp, hr⟩
    have hheld := (hmem k).mpr ⟨p, (hstart p).mpr hp, hr⟩
    exact (hrooted.mem_held_iff.mp hheld).resolve_left hk

/-- With a round more than there are statements the search ends, and adds exactly the keys that
the pinned ones handed over to. -/
theorem evaluateKeyRotations_spec (bundle : CanonValue) (keys : Table (String × Int) KeyEntry)
    (opts : PinnedKeys) :
    ∃ out, (∀ fuel, (rotationStatements bundle).length < fuel →
        evaluateKeyRotations N sha256 ed fuel bundle keys opts = some out) ∧
      out.chainTrusted.Nodup ∧
        ∀ k, k ∈ out.chainTrusted ↔ TrustedByRotation N sha256 ed InUse bundle keys opts k := by
  unfold evaluateKeyRotations rotationStatements
  cases hraw : bundle.get "key_rotations" with
  | none =>
    have hempty : rotationStatements bundle = [] := by rw [rotationStatements, hraw]; rfl
    exact ⟨{}, fun _ _ => rfl, List.nodup_nil,
      fun k => iff_of_false List.not_mem_nil (not_trustedByRotation (Or.inr hempty) k)⟩
  | some raw =>
    dsimp only [Option.bind_some]
    cases harr : raw.asArray with
    | none =>
      have hempty : rotationStatements bundle = [] := by
        rw [rotationStatements, hraw, Option.bind_some, harr]; rfl
      exact ⟨_, fun _ _ => rfl, List.nodup_nil,
        fun k => iff_of_false List.not_mem_nil (not_trustedByRotation (Or.inr hempty) k)⟩
    | some list =>
      have hlist : rotationStatements bundle = list := by
        rw [rotationStatements, hraw, Option.bind_some, harr]; rfl
      dsimp only [Option.getD_some]
      cases hpinned : opts.trustedKeys with
      | none =>
        have hnone : opts.pinned = [] := by rw [PinnedKeys.pinned, hpinned]; rfl
        exact ⟨_, fun _ _ => rfl, List.nodup_nil,
          fun k => iff_of_false List.not_mem_nil (not_trustedByRotation (Or.inl hnone) k)⟩
      | some pinned =>
        have hopts : opts.pinned = pinned := by rw [PinnedKeys.pinned, hpinned]; rfl
        obtain ⟨t, ht, hnodup, hmem⟩ := @saturate_handovers N sha256 ed keys list pinned
          opts.roleSets (statementIssues N sha256 ed keys list)
        refine ⟨⟨list.length, list.countP fun st => (checkRotation N sha256 ed keys st).isOk,
          t.chainTrusted, t.issues⟩, fun fuel hlt => ?_, hnodup, fun k => ?_⟩
        · dsimp only
          rw [ht fuel hlt, Option.map_some]
        · rw [hmem, TrustedByRotation, hopts]
          have hlinks : LeadsTo (handoversOf N sha256 ed keys list) Handover.old Handover.new
              (Handover.Good pinned opts.roleSets) =
              RotatesTo N sha256 ed InUse bundle keys opts := by
            ext a b
            rw [← leadsTo_handovers_iff hlist, hopts]
          rw [hlinks]

/-- With pinned keys and a list of statements the keys added are those of the rounds. -/
theorem evaluateKeyRotations_of_pinned {list : List CanonValue} {pinned : List TrustedKey}
    {fuel : Nat} (hraw : bundle.get "key_rotations" = some (.arr list))
    (hpinned : opts.trustedKeys = some pinned) :
    (evaluateKeyRotations N sha256 ed fuel bundle keys opts).map (·.chainTrusted) =
      (saturate (TrustRun.offer opts.roleSets) (handoversOf N sha256 ed keys list) fuel
        ⟨pinnedStatuses pinned, [], statementIssues N sha256 ed keys list⟩).map
          (·.chainTrusted) := by
  unfold evaluateKeyRotations
  rw [hraw, hpinned]
  dsimp only [CanonValue.asArray]
  rw [Option.map_map]
  rfl

/-- What the statements connect does not depend on their order. -/
theorem trustedByRotation_iff_of_perm {usable : String → Prop} {bundle' : CanonValue}
    (h : (rotationStatements bundle').Perm (rotationStatements bundle)) {k : Vector UInt8 32} :
    TrustedByRotation N sha256 ed usable bundle' keys opts k ↔
      TrustedByRotation N sha256 ed usable bundle keys opts k := by
  unfold TrustedByRotation RotatesTo
  simp only [h.mem_iff]

/-- The search along the key rotations ends for every bundle, key store and pinned keys. The
keys it adds are, each once, those that are not pinned and that a pinned key hands over to in
steps of verified scheduled statements, where the old key is active or retired by the worse of
its first pinned status and its status in the bundle, and the new key has no other role. The
order of the statements does not matter, and nothing is added without external pinning. -/
theorem keyRotations_exact (N : Normalizer) (sha256 : List UInt8 → Vector UInt8 32) (ed : Ed25519)
    (bundle : CanonValue) (keys : Table (String × Int) KeyEntry) (opts : PinnedKeys) :
    ∃ out, (∀ fuel, (rotationStatements bundle).length < fuel →
        evaluateKeyRotations N sha256 ed fuel bundle keys opts = some out) ∧
      (∀ k, k ∈ out.chainTrusted ↔ TrustedByRotation N sha256 ed InUse bundle keys opts k) ∧
      (∀ bundle', (rotationStatements bundle').Perm (rotationStatements bundle) →
        ∀ fuel, (rotationStatements bundle').length < fuel →
          ∃ out', evaluateKeyRotations N sha256 ed fuel bundle' keys opts = some out' ∧
            out'.chainTrusted.Perm out.chainTrusted) ∧
      (∀ k ∈ out.chainTrusted, ∀ t ∈ opts.pinned, t.vk ≠ k) ∧
      out.chainTrusted.Nodup ∧
      (opts.trustedKeys = none → out.chainTrusted = []) := by
  obtain ⟨out, hrun, hnodup, hmem⟩ := @evaluateKeyRotations_spec N sha256 ed bundle keys opts
  refine ⟨out, hrun, hmem, fun bundle' hperm fuel hlt => ?_, fun k hk t ht heq => ?_, hnodup,
    fun hnone => ?_⟩
  · obtain ⟨out', hrun', hnodup', hmem'⟩ := evaluateKeyRotations_spec bundle' keys opts
    refine ⟨out', hrun' fuel hlt, (List.perm_ext_iff_of_nodup hnodup' hnodup).mpr fun k => ?_⟩
    rw [hmem, hmem', trustedByRotation_iff_of_perm hperm]
  · exact ((hmem k).mp hk).1 ⟨t, ht, heq⟩
  · rw [List.eq_nil_iff_forall_not_mem]
    intro k hk
    have hempty : opts.pinned = [] := by rw [PinnedKeys.pinned, hnone]; rfl
    exact not_trustedByRotation (Or.inl hempty) k ((hmem k).mp hk)

/-- The pinned keys and the added ones, which carry no status of their own. -/
def effectiveTrusted (opts : PinnedKeys) (chainTrusted : List (Vector UInt8 32)) :
    Option (List TrustedKey) :=
  opts.trustedKeys.map fun set => set ++ chainTrusted.map fun vk => ⟨vk, none⟩

/-- The pin of a key. -/
def pinnedFor (effective : Option (List TrustedKey)) (vk : Vector UInt8 32) : Option TrustedKey :=
  effective.bind fun set => set.find? (·.vk = vk)

/-- The key has a pin. -/
def isTrusted (effective : Option (List TrustedKey)) (vk : Vector UInt8 32) : Bool :=
  match effective with
  | some _ => (pinnedFor effective vk).isSome
  | none => true

/-- With external pinning, a key is trusted if it is pinned or a pinned key handed over to it. -/
theorem isTrusted_iff (hpinned : opts.trustedKeys.isSome = true) :
    ∃ out, (∀ fuel, (rotationStatements bundle).length < fuel →
        evaluateKeyRotations N sha256 ed fuel bundle keys opts = some out) ∧
      ∀ vk, isTrusted (effectiveTrusted opts out.chainTrusted) vk = true ↔
        IsPinned opts.pinned vk ∨ TrustedByRotation N sha256 ed InUse bundle keys opts vk := by
  obtain ⟨out, hrun, -, hmem⟩ := @evaluateKeyRotations_spec N sha256 ed bundle keys opts
  obtain ⟨set, hset⟩ := Option.isSome_iff_exists.mp hpinned
  refine ⟨out, hrun, fun vk => ?_⟩
  rw [← hmem, effectiveTrusted, PinnedKeys.pinned, hset, Option.map_some, Option.getD_some]
  simp only [isTrusted, pinnedFor, Option.bind_some, List.find?_isSome, decide_eq_true_eq,
    List.mem_append, List.mem_map, IsPinned]
  constructor
  · rintro ⟨t, ht | ⟨k, hk, rfl⟩, rfl⟩
    · exact Or.inl ⟨t, ht, rfl⟩
    · exact Or.inr hk
  · rintro (⟨t, ht, rfl⟩ | hk)
    · exact ⟨t, Or.inl ht, rfl⟩
    · exact ⟨_, Or.inr ⟨vk, hk, rfl⟩, rfl⟩

end Closure

/-- The key after the pinned one. -/
def successorKey : Vector UInt8 32 := Vector.replicate 32 1

/-- How a statement names a key. -/
def keyRefOf (id : String) (vk : Vector UInt8 32) : CanonValue :=
  .obj [("signing_key_id", .str id), ("key_epoch", .int 0),
    ("public_key", .str (pubkeyPrefix ++ B64.encode vk.toList))]

/-- A scheduled statement signed by both keys. -/
def signedRotation : CanonValue :=
  .obj [("kind", .str "key_rotation"), ("old_key", keyRefOf "k-old" blankKey),
    ("new_key", keyRefOf "k-new" successorKey), ("rotated_at", .str "2026-07-01T00:00:00.000Z"),
    ("reason", .str "scheduled"), ("sig_new", .str (sigPrefix ++ blankSigText)),
    ("sig_old", .str (sigPrefix ++ blankSigText))]

/-- A bundle with one rotation. -/
def rotationBundle : CanonValue := .obj [("key_rotations", .arr [signedRotation])]

/-- A key store that gives the old key this status. -/
def rotationKeys (status : String) : Table (String × Int) KeyEntry :=
  (AList.singleton ("k-old", 0) ⟨blankKey, status⟩).insert ("k-new", 0) ⟨successorKey, "active"⟩

/-- One pinned key, of no status. -/
def onePinned : PinnedKeys := { trustedKeys := some [⟨blankKey, none⟩] }

/-- A status that is neither revoked nor compromised. -/
def NotRevoked (s : String) : Prop := s ≠ "revoked" ∧ s ≠ "compromised"

theorem decodePubkey_encode (vk : Vector UInt8 32) :
    decodePubkey anySig (pubkeyPrefix ++ B64.encode vk.toList) = some vk := by
  rw [decodePubkey, stripPrefix_append, Option.bind_some, B64.decodeFixed_encode]
  rfl

theorem rotationKeyRef_keyRefOf (id : String) (vk : Vector UInt8 32) :
    rotationKeyRef (keyRefOf id vk) = some ⟨id, 0, pubkeyPrefix ++ B64.encode vk.toList⟩ := rfl

/-- A scheme that accepts everything accepts any signature of a statement. -/
theorem rotationSigOk_anySig {st : CanonValue} {field : String} {vk : Vector UInt8 32}
    (h : strOf st field = some (sigPrefix ++ blankSigText)) :
    rotationSigOk .identity blankHash anySig st field vk = true := by
  have htag : signPreimage keyRotationSigTag (rotationDigest .identity blankHash st) =
      some (framed 4 (bytes keyRotationSigTag) ++
        bytes (rotationDigest .identity blankHash st)) := by
    rw [signPreimage, lpStrInto_eq_some_iff.mpr ⟨by decide, rfl⟩, Option.map_some]
  have hsig : blankSigText = B64.encode (Vector.replicate 64 0).toList := by
    rw [blankSigText, Vector.toList_replicate]
  have hok : verifyText anySig keyRotationSigTag (rotationDigest .identity blankHash st)
      (sigPrefix ++ blankSigText) vk = .ok () := by
    simp only [verifyText, bind_eq_ok_iff, orFail_eq_ok_iff, require_eq_ok_iff, hsig]
    exact ⟨_, stripPrefix_append _ _, _, B64.decodeFixed_encode _, _, htag, rfl⟩
  rw [rotationSigOk, h, Option.any_some, hok]
  rfl

/-- Whatever the status of the old key, the statement verifies. -/
theorem scheduledRotation_signedRotation (status : String) :
    ScheduledRotation .identity blankHash anySig (rotationKeys status) signedRotation
      ⟨blankKey, status⟩ ⟨successorKey, "active"⟩ where
  fields := ⟨_, rfl, by decide⟩
  kind := rfl
  reason := rfl
  rotatedAt := ⟨_, rfl, by decide +kernel⟩
  refs := by
    refine ⟨_, _, rotationKeyRef_keyRefOf _ _, rotationKeyRef_keyRefOf _ _,
      ⟨rfl, decodePubkey_encode _⟩, ⟨rfl, decodePubkey_encode _⟩, by decide, fun htexts => ?_⟩
    have hkey := congrArg (decodePubkey anySig) htexts
    simp only [decodePubkey_encode] at hkey
    exact absurd (Option.some.inj hkey) (by decide +kernel)
  sigNew := rotationSigOk_anySig rfl
  sigOld := rotationSigOk_anySig rfl

/-- The signed rotation is a handover for any status. -/
theorem checkRotation_signedRotation (status : String) :
    checkRotation .identity blankHash anySig (rotationKeys status) signedRotation =
      .ok (some ⟨blankKey, status, successorKey⟩) :=
  checkRotation_eq_ok_some_iff.mpr ⟨_, _, scheduledRotation_signedRotation status, rfl⟩

/-- The statement adds the successor or not, by the status of the old key. -/
theorem evaluate_rotationBundle (status : String) :
    ∃ out, evaluateKeyRotations .identity blankHash anySig 2 rotationBundle (rotationKeys status)
        onePinned = some out ∧
      out.chainTrusted =
        if 1 < statusRank (worstStatus "active" status) then [] else [successorKey] := by
  have hhandovers : handoversOf .identity blankHash anySig (rotationKeys status) [signedRotation] =
      [⟨blankKey, status, successorKey⟩] := by
    rw [handoversOf, List.filterMap_cons_some, List.filterMap_nil]
    rw [checkRotation_signedRotation, Except.toOption, Option.join_some]
  have hrounds : ∀ issues, (saturate (TrustRun.offer onePinned.roleSets)
      [⟨blankKey, status, successorKey⟩] 2 ⟨[(blankKey, "active")], [], issues⟩).map
        (·.chainTrusted) =
          some (if 1 < statusRank (worstStatus "active" status) then [] else [successorKey]) := by
    intro issues
    have hne : blankKey ≠ successorKey := by decide +kernel
    by_cases hrank : 1 < statusRank (worstStatus "active" status)
    · simp [saturate, offerAll, TrustRun.offer, hne, hrank]
    · simp [saturate, offerAll, TrustRun.offer, PinnedKeys.roleSets, onePinned, hne, hrank]
  have hrun := @evaluateKeyRotations_of_pinned .identity blankHash anySig rotationBundle
    (rotationKeys status) onePinned [signedRotation] [⟨blankKey, none⟩] 2 rfl rfl
  rw [hhandovers] at hrun
  obtain ⟨out, hout, hchain⟩ := Option.map_eq_some_iff.mp (hrun.trans (hrounds _))
  exact ⟨out, hout, hchain⟩

example : ∃ out, evaluateKeyRotations .identity blankHash anySig 2 rotationBundle
    (rotationKeys "retired") onePinned = some out ∧ out.chainTrusted = [successorKey] :=
  evaluate_rotationBundle "retired"

/-- An old key with an unknown status hands nothing over, though it is neither revoked nor
compromised. -/
theorem suspended_hands_nothing_over : ∃ out,
    evaluateKeyRotations .identity blankHash anySig 2 rotationBundle (rotationKeys "suspended")
      onePinned = some out ∧
      ¬ ∀ k, k ∈ out.chainTrusted ↔ TrustedByRotation .identity blankHash anySig NotRevoked
        rotationBundle (rotationKeys "suspended") onePinned k := by
  obtain ⟨out, hrun, hchain⟩ := evaluate_rotationBundle "suspended"
  refine ⟨out, hrun, fun hall => ?_⟩
  have hreached : TrustedByRotation .identity blankHash anySig NotRevoked rotationBundle
      (rotationKeys "suspended") onePinned successorKey := by
    refine ⟨?_, blankKey, ⟨⟨blankKey, none⟩, List.mem_singleton.mpr rfl, rfl⟩, .single ?_⟩
    · rintro ⟨t, ht, hk⟩
      rw [List.mem_singleton.mp ht] at hk
      exact absurd hk (by decide +kernel)
    · refine ⟨signedRotation, List.mem_singleton.mpr rfl, _, _,
        scheduledRotation_signedRotation "suspended", rfl, rfl, ?_, by decide +kernel⟩
      unfold NotRevoked
      decide +kernel
  have hmem := (hall successorKey).mpr hreached
  rw [hchain] at hmem
  exact absurd hmem List.not_mem_nil

end Averin
