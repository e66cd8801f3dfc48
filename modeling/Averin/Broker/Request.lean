import Averin.Core.B64Lenient
import Averin.Core.Layout
import Averin.Core.Time
import Averin.Core.Wrapping
import Averin.Verify.HexText

/-!
# Grant requests

A request of the second version is framed into bytes twice: with its times, as what the agent
signs, and without them, as the identity of the request across retries. The class of a scope is
framed with its default, the limit only for a reusable grant and the lifetime in whole seconds;
for a valid request nothing is lost by that.
-/

namespace Averin

namespace Broker

open Time (nanosPerSecond)

/-- One use. -/
def scopeSingleOperation : String := "single_operation"

/-- As many uses as the limit says. -/
def scopeBoundedReuse : String := "bounded_reuse"

/-- Uses for a session. -/
def scopeSession : String := "session_grant"

/-- Uses for a batch. -/
def scopeBatch : String := "batch_grant"

/-- White space, as the library trims it. -/
def isSpace (c : Char) : Bool :=
  let n := c.toNat
  9 ≤ n && n ≤ 13 || n == 0x20 || n == 0x85 || n == 0xA0 || n == 0x1680 ||
    0x2000 ≤ n && n ≤ 0x200A || n == 0x2028 || n == 0x2029 || n == 0x202F || n == 0x205F ||
    n == 0x3000

/-- A text without the white space around it. -/
def trimSpace (s : String) : String :=
  .ofList ((s.toList.dropWhile isSpace).reverse.dropWhile isSpace).reverse

/-- The parts of a text before and after the first occurrence of a character. -/
def cut (s : String) (sep : Char) : String × Option String :=
  match s.toList.span (· ≠ sep) with
  | (before, []) => (.ofList before, none)
  | (before, _ :: after) => (.ofList before, some (.ofList after))

/-- Namespaces no request may name. -/
def privilegedNamespaces : List String :=
  ["iam", "sts", "admin", "sudo", "root", "kms", "credential", "credentials", "secret", "secrets"]

/-- Actions that would widen rights. -/
def escalationActionPrefixes : List String :=
  ["assume", "delegate", "impersonate", "mintcredential", "createcredential", "issuecredential",
    "createkey", "createaccesskey", "escalate"]

/-- A scope too powerful for one operation. `lower` maps a character to lower case. -/
def isForbiddenSingleOp (lower : Char → Char) (scope : String) : Bool :=
  let s := (trimSpace scope).map lower
  if s.toList.contains '*' then true
  else
    let (ns, rest) := cut s ':'
    if privilegedNamespaces.contains ns then true
    else
      -- without a namespace the whole text is the action
      let action := rest.getD ns
      let norm := action.toList.filter fun c => c ≠ '-' && c ≠ '_' && c ≠ ' '
      escalationActionPrefixes.any fun p => p.toList.isPrefixOf norm

/-- Why a scope is refused. -/
inductive ScopeError where
  | forbidden
  | unknownClass (requested : String)
  deriving DecidableEq, Repr

/-- The class a scope is granted in; without a request, a single operation. -/
def classifyScope (lower : Char → Char) (scope requested : String) : Except ScopeError String :=
  let requested := if requested = "" then scopeSingleOperation else requested
  if requested = scopeSingleOperation ∨ requested = scopeBoundedReuse then
    if isForbiddenSingleOp lower scope then .error .forbidden else .ok requested
  else if requested = scopeSession ∨ requested = scopeBatch then .ok requested
  else .error (.unknownClass requested)

/-- A request for a grant. -/
@[ext] structure Request where
  popVersion : Int64
  projectId : String
  idempotencyKey : String
  sessionId : String
  /-- Signed seconds, second version only. -/
  issuedAt : Int64
  requestExpiresAt : Int64
  agentId : String
  action : String
  resource : String
  scope : String
  scopeClass : String
  useLimit : Int64
  agentPubKey : String
  agentSig : String
  principal : String
  delegationChain : List String
  justification : String
  /-- Nanoseconds. -/
  ttl : Int64
  brokerId : String
  deriving DecidableEq

/-- The tag of the second version's proof of possession. -/
def popTagV2 : String := "averin.broker.pop.v2"

/-- Nanoseconds of an hour. -/
def maxTTL : Int := 3600 * nanosPerSecond

/-- Seconds of fifteen minutes. -/
def maxRequestAge : Int := 900

namespace Request

section Framing

/-- Fields of the same slots, none of them a raw rest, can be split off. -/
theorem encodeFields_append_inj {fs gs : List Field} {rest rest' : List UInt8}
    (hslots : fs.map Field.slot = gs.map Field.slot) (htail : Slot.tail ∉ fs.map Field.slot)
    (hfs : ∀ f ∈ fs, f.Sized) (hgs : ∀ g ∈ gs, g.Sized)
    (h : encodeFields fs ++ rest = encodeFields gs ++ rest') : fs = gs ∧ rest = rest' := by
  induction fs generalizing gs with
  | nil =>
    obtain rfl := List.map_eq_nil_iff.mp hslots.symm
    exact ⟨rfl, h⟩
  | cons f fs ih =>
    cases gs with
    | nil => cases hslots
    | cons g gs =>
      obtain ⟨hslot, hothers⟩ := List.cons.inj hslots
      rw [List.map_cons, List.mem_cons, not_or] at htail
      rw [encodeFields_cons, encodeFields_cons, List.append_assoc, List.append_assoc] at h
      obtain ⟨rfl, hrest⟩ := Field.encode_append_inj hslot (Ne.symm htail.1)
        (hfs f List.mem_cons_self) (hgs g List.mem_cons_self) h
      obtain ⟨rfl, hend⟩ := ih hothers htail.2 (fun x hx => hfs x (List.mem_cons_of_mem _ hx))
        (fun x hx => hgs x (List.mem_cons_of_mem _ hx)) hrest
      exact ⟨rfl, hend⟩

/-- A number can be split off. -/
theorem encodeNumber_append_inj {m n : Int} {rest rest' : List UInt8}
    (hm : (Field.number m).Sized) (hn : (Field.number n).Sized)
    (h : (Field.number m).encode ++ rest = (Field.number n).encode ++ rest') :
    m = n ∧ rest = rest' := by
  obtain ⟨hnumber, hrest⟩ := @Field.encode_append_inj (.number m) (.number n) _ _ rfl
    (by simp [Field.slot]) hm hn h
  exact ⟨Field.number.inj hnumber, hrest⟩

/-- A sequence of framed texts is determined, whatever its length is. -/
theorem encodeTexts_inj {xs ys : List String} (hxs : ∀ f ∈ xs.map Field.text, f.Sized)
    (hys : ∀ f ∈ ys.map Field.text, f.Sized)
    (h : encodeFields (xs.map .text) = encodeFields (ys.map .text)) : xs = ys := by
  have hpos : ∀ (t : String) (rest : List UInt8), [] ≠ (Field.text t).encode ++ rest := by
    intro t rest hnil
    have hlen := congrArg List.length hnil
    have hroom := (Field.text t).room_le_length
    simp only [List.length_nil, List.length_append, Field.slot, Slot.room] at hlen hroom
    omega
  induction xs generalizing ys with
  | nil =>
    cases ys with
    | nil => rfl
    | cons y ys => exact absurd h (hpos y _)
  | cons x xs ih =>
    cases ys with
    | nil => exact absurd h.symm (hpos x _)
    | cons y ys =>
      rw [List.map_cons, List.map_cons, encodeFields_cons, encodeFields_cons] at h
      obtain ⟨hxy, hrest⟩ := @Field.encode_append_inj (.text x) (.text y) _ _ rfl
        (by simp [Field.slot]) (hxs _ List.mem_cons_self) (hys _ List.mem_cons_self) h
      rw [Field.text.inj hxy, ih (fun f hf => hxs f (List.mem_cons_of_mem _ hf))
        (fun f hf => hys f (List.mem_cons_of_mem _ hf)) hrest]

end Framing

variable (r : Request)

/-- The class with its default. -/
def effectiveClass : String := if r.scopeClass = "" then scopeSingleOperation else r.scopeClass

/-- The limit of a reusable grant; other classes have none. -/
def effectiveLimit : Int := if r.effectiveClass = scopeBoundedReuse then r.useLimit.toInt else 0

/-- The lifetime in whole seconds. -/
def ttlSeconds : Int := r.ttl.toInt.tdiv nanosPerSecond

/-- The texts every request has, in the order they are framed. -/
def subjectTexts : List String :=
  [popTagV2, r.projectId, r.idempotencyKey, r.sessionId, r.agentId, r.action, r.resource, r.scope,
    r.effectiveClass, r.agentPubKey, r.principal, r.justification, "capability"]

/-- A text that fits a four-byte length. -/
def fitsLP4Length (s : String) : Bool := (bytes s).length ≤ 2 ^ 32 - 1

/-- Which text does not fit. -/
inductive FramingError where
  | field
  | delegationField
  deriving DecidableEq, Repr

/-- The framed request without its times and its signature. -/
def v2Subject : Except FramingError (List UInt8) := do
  require (r.subjectTexts.all fitsLP4Length = true) .field
  let head := encodeFields (r.subjectTexts.map .text)
  let numbers := encodeFields
    [.number r.effectiveLimit, .number r.ttlSeconds, .number r.delegationChain.length]
  require (r.delegationChain.all fitsLP4Length = true) .delegationField
  return head ++ numbers ++ encodeFields (r.delegationChain.map .text)

/-- The framed request as the agent signs it. -/
def v2ChallengePreimage : Except FramingError (List UInt8) := do
  let b ← r.v2Subject
  return b ++ encodeFields [.number r.issuedAt.toInt, .number r.requestExpiresAt.toInt]

/-- Why a request is refused. -/
inductive RequestError where
  | popVersion | agentId | action | resource | scope | ttl
  | framing (e : FramingError)
  | identity | interval | scopeClass | useLimitMissing | useLimitStray
  | agentPubKey | agentPubKeySpelling | agentSig | popFailed | ttlExceeded
  | semanticVersion
  deriving DecidableEq, Repr

section Hashes

variable (sha256 : List UInt8 → Vector UInt8 32)

/-- The identity of a request across retries. -/
def semanticHash : Except RequestError String := do
  require (r.popVersion = 2) .semanticVersion
  let b ← r.v2Subject.mapError .framing
  return rootText (sha256 b)

/-- What the agent signs. `historical` is the preimage of the first version; a second-version
request too long to frame is signed with nothing. -/
def challenge (historical : Request → List UInt8) : List UInt8 :=
  if r.popVersion = 2 then
    match r.v2ChallengePreimage with
    | .error _ => []
    | .ok b => (sha256 b).toList
  else historical r

/-- The checks of the second version. -/
def validateV2 : Except RequestError Unit := do
  let _ ← r.v2Subject.mapError .framing
  require (r.projectId ≠ "" ∧ r.idempotencyKey ≠ "" ∧ r.sessionId ≠ "") .identity
  -- both times are positive where they are subtracted, so the difference fits
  require (r.ttl.toInt.tmod nanosPerSecond = 0 ∧ 0 < r.issuedAt.toInt ∧
    r.issuedAt.toInt < r.requestExpiresAt.toInt ∧
    r.requestExpiresAt.toInt - r.issuedAt.toInt ≤ maxRequestAge) .interval
  require (r.scopeClass = "" ∨ r.scopeClass = scopeSingleOperation ∨
    r.scopeClass = scopeBoundedReuse ∨ r.scopeClass = scopeSession ∨ r.scopeClass = scopeBatch)
    .scopeClass
  require (r.scopeClass = scopeBoundedReuse → 1 ≤ r.useLimit.toInt) .useLimitMissing
  require (r.scopeClass ≠ scopeBoundedReuse → r.useLimit = 0) .useLimitStray

/-- The required fields, the key of the agent, the proof that it holds the key, and last the cap
of the lifetime. -/
def validate (historical : Request → List UInt8) (ed : Ed25519) : Except RequestError Unit := do
  require (r.popVersion = 0 ∨ r.popVersion = 1 ∨ r.popVersion = 2) .popVersion
  require (trimSpace r.agentId ≠ "") .agentId
  require (trimSpace r.action ≠ "") .action
  require (trimSpace r.resource ≠ "") .resource
  require (trimSpace r.scope ≠ "") .scope
  require (0 < r.ttl.toInt) .ttl
  if r.popVersion = 2 then r.validateV2 else .ok ()
  let pub ← orFail (B64.lenientFixed 32 r.agentPubKey) .agentPubKey
  require (r.popVersion = 2 → B64.encode pub.toList = r.agentPubKey) .agentPubKeySpelling
  let signature ← orFail (B64.lenientFixed 64 r.agentSig) .agentSig
  require (ed.verifyStrict pub (r.challenge sha256 historical) signature = true) .popFailed
  require (r.ttl.toInt ≤ maxTTL) .ttlExceeded

end Hashes

/-- The request up to its signature and its broker, the class with its default. -/
def semantic : Request :=
  { r with scopeClass := r.effectiveClass, agentSig := "", brokerId := "" }

/-- The request up to its times as well. -/
def subject : Request := { r.semantic with issuedAt := 0, requestExpiresAt := 0 }

/-- The class that counts is named. -/
theorem effectiveClass_ne_empty : r.effectiveClass ≠ "" := by
  unfold effectiveClass
  split_ifs with h
  · decide
  · exact h

/-- The framing reads nothing but the semantic request. -/
theorem v2ChallengePreimage_semantic :
    r.semantic.v2ChallengePreimage = r.v2ChallengePreimage := by
  have hclass : r.semantic.effectiveClass = r.effectiveClass := if_neg r.effectiveClass_ne_empty
  simp only [v2ChallengePreimage, v2Subject, subjectTexts, effectiveLimit, hclass]
  rfl

/-- The subject is a function of what it covers. -/
theorem v2Subject_subject : r.subject.v2Subject = r.v2Subject := by
  have hclass : r.subject.effectiveClass = r.effectiveClass := if_neg r.effectiveClass_ne_empty
  simp only [v2Subject, subjectTexts, effectiveLimit, hclass]
  rfl

variable {r} {r' : Request}

/-- The subject is made when all texts fit, and is their framing. -/
theorem v2Subject_eq_ok_iff {b : List UInt8} :
    r.v2Subject = .ok b ↔ (r.subjectTexts.all fitsLP4Length = true ∧
      r.delegationChain.all fitsLP4Length = true) ∧
      encodeFields (r.subjectTexts.map .text) ++ encodeFields [.number r.effectiveLimit,
        .number r.ttlSeconds, .number r.delegationChain.length] ++
          encodeFields (r.delegationChain.map .text) = b := by
  simp only [v2Subject, bind_eq_ok_iff, require_eq_ok_iff, exists_const, and_assoc]
  refine and_congr_right fun _ => and_congr_right fun _ => ?_
  exact ⟨Except.ok.inj, congrArg Except.ok⟩

/-- Texts that fit are sized fields. -/
theorem sized_texts {texts : List String} (h : texts.all fitsLP4Length = true) :
    ∀ f ∈ texts.map Field.text, f.Sized := by
  intro f hf
  obtain ⟨t, ht, rfl⟩ := List.mem_map.mp hf
  have hfits := of_decide_eq_true (List.all_eq_true.mp h t ht)
  show (bytes t).length < 2 ^ 32
  omega

theorem sized_effectiveLimit : (Field.number r.effectiveLimit).Sized := by
  have hlt := r.useLimit.toInt_lt
  have hge := r.useLimit.le_toInt
  unfold effectiveLimit
  split_ifs
  · exact ⟨hge, hlt⟩
  · exact ⟨by omega, by omega⟩

theorem sized_ttlSeconds : (Field.number r.ttlSeconds).Sized := by
  have hlt := r.ttl.toInt_lt
  have hge := r.ttl.le_toInt
  have hdiv : r.ttlSeconds.natAbs = r.ttl.toInt.natAbs / 1000000000 := Int.natAbs_tdiv _ _
  show -2 ^ 63 ≤ r.ttlSeconds ∧ r.ttlSeconds < 2 ^ 63
  omega

/-- The framed subject determines the texts, the limit, the whole seconds and the chain. -/
theorem eq_of_v2Subject {b : List UInt8} (h : r.v2Subject = .ok b) (h' : r'.v2Subject = .ok b) :
    r.subjectTexts = r'.subjectTexts ∧ r.effectiveLimit = r'.effectiveLimit ∧
      r.ttlSeconds = r'.ttlSeconds ∧ r.delegationChain = r'.delegationChain := by
  obtain ⟨⟨htexts, hchain⟩, hb⟩ := v2Subject_eq_ok_iff.mp h
  obtain ⟨⟨htexts', hchain'⟩, hb'⟩ := v2Subject_eq_ok_iff.mp h'
  rw [← hb', List.append_assoc, List.append_assoc] at hb
  have hslots : (r.subjectTexts.map Field.text).map Field.slot =
      (r'.subjectTexts.map Field.text).map Field.slot := rfl
  obtain ⟨hfields, hrest⟩ := encodeFields_append_inj hslots
    (by simp [subjectTexts, Field.slot]) (sized_texts htexts) (sized_texts htexts') hb
  simp only [encodeFields_cons, List.append_assoc] at hrest
  obtain ⟨hlimit, hrest⟩ := encodeNumber_append_inj sized_effectiveLimit sized_effectiveLimit hrest
  obtain ⟨hseconds, hrest⟩ := encodeNumber_append_inj sized_ttlSeconds sized_ttlSeconds hrest
  -- the chain is read to the end, whatever its length says
  obtain ⟨-, hrest⟩ := List.append_inj hrest (by simp [Field.encode])
  refine ⟨?_, hlimit, hseconds, ?_⟩
  · exact List.map_injective_iff.mpr (fun _ _ => Field.text.inj) hfields
  · exact encodeTexts_inj (sized_texts hchain) (sized_texts hchain') hrest

/-- What the checks of the second version say of the data that is framed in part. -/
theorem of_validateV2 {u : Unit} (h : r.validateV2 = .ok u) :
    (∃ b, r.v2Subject = .ok b) ∧ r.ttl.toInt.tmod nanosPerSecond = 0 ∧
      (r.scopeClass ≠ scopeBoundedReuse → r.useLimit = 0) := by
  simp only [validateV2, bind_eq_ok_iff, mapError_eq_ok_iff, require_eq_ok_iff] at h
  obtain ⟨b, hb, -, -, -, ⟨httl, -⟩, -, -, -, -, hstray⟩ := h
  exact ⟨⟨b, hb⟩, httl, hstray⟩

/-- A request of the second version passes that version's checks. -/
theorem validateV2_of_validate {sha256 : List UInt8 → Vector UInt8 32}
    {historical : Request → List UInt8} {ed : Ed25519} {u : Unit} (hv : r.popVersion = 2)
    (h : r.validate sha256 historical ed = .ok u) : r.validateV2 = .ok () := by
  simp only [validate, bind_eq_ok_iff, require_eq_ok_iff, if_pos hv] at h
  obtain ⟨_, -, _, -, _, -, _, -, _, -, _, -, _, hv2, -⟩ := h
  exact hv2

/-- Without a stray limit the limit is the one that counts. -/
theorem useLimit_eq (hstray : r.scopeClass ≠ scopeBoundedReuse → r.useLimit = 0) :
    r.useLimit.toInt = r.effectiveLimit := by
  unfold effectiveLimit effectiveClass
  split_ifs with hempty hbounded hbounded
  · exact absurd hbounded (by decide)
  · rw [hstray (by rw [hempty]; decide)]
    rfl
  · rfl
  · rw [hstray hbounded]
    rfl

/-- A whole number of seconds is that many nanoseconds. -/
theorem ttl_eq (hwhole : r.ttl.toInt.tmod nanosPerSecond = 0) :
    r.ttl.toInt = nanosPerSecond * r.ttlSeconds := by
  have hdiv := Int.mul_tdiv_add_tmod r.ttl.toInt nanosPerSecond
  rw [hwhole, add_zero] at hdiv
  exact hdiv.symm

/-- Valid requests with one framed subject are one request, up to what the subject leaves out. -/
theorem subject_eq_of_v2Subject (hv : r.popVersion = 2) (hv' : r'.popVersion = 2)
    (h : r.validateV2 = .ok ()) (h' : r'.validateV2 = .ok ())
    (heq : r.v2Subject = r'.v2Subject) : r.subject = r'.subject := by
  obtain ⟨⟨b, hb⟩, hwhole, hstray⟩ := of_validateV2 h
  obtain ⟨-, hwhole', hstray'⟩ := of_validateV2 h'
  obtain ⟨htexts, hlimit, hseconds, hchain⟩ := eq_of_v2Subject hb (heq.symm.trans hb)
  have hlimit' : r.useLimit = r'.useLimit := by
    rw [← Int64.toInt_inj, useLimit_eq hstray, useLimit_eq hstray', hlimit]
  have httl : r.ttl = r'.ttl := by
    rw [← Int64.toInt_inj, ttl_eq hwhole, ttl_eq hwhole', hseconds]
  simp only [subjectTexts, List.cons.injEq, true_and, and_true] at htexts
  obtain ⟨hproject, hidem, hsession, hagent, haction, hresource, hscope, hclass, hkey, hprincipal,
    hjustification⟩ := htexts
  apply Request.ext
  case popVersion => exact hv.trans hv'.symm
  case projectId => exact hproject
  case idempotencyKey => exact hidem
  case sessionId => exact hsession
  case agentId => exact hagent
  case action => exact haction
  case resource => exact hresource
  case scope => exact hscope
  case scopeClass => exact hclass
  case useLimit => exact hlimit'
  case agentPubKey => exact hkey
  case principal => exact hprincipal
  case delegationChain => exact hchain
  case justification => exact hjustification
  case ttl => exact httl
  case issuedAt => rfl
  case requestExpiresAt => rfl
  case agentSig => rfl
  case brokerId => rfl

/-- The preimage of the signature determines the subject and the times. -/
theorem eq_of_v2ChallengePreimage {b : List UInt8} (h : r.v2ChallengePreimage = .ok b)
    (h' : r'.v2ChallengePreimage = .ok b) : r.v2Subject = r'.v2Subject ∧
      r.issuedAt = r'.issuedAt ∧ r.requestExpiresAt = r'.requestExpiresAt := by
  simp only [v2ChallengePreimage, bind_eq_ok_iff] at h h'
  obtain ⟨s, hs, hb⟩ := h
  obtain ⟨s', hs', hb'⟩ := h'
  have heq := Except.ok.inj (hb.trans hb'.symm)
  -- both end in the sixteen bytes of the times
  obtain ⟨hsubject, htimes⟩ := List.append_inj' heq (by simp [encodeFields, Field.encode])
  have hsized : ∀ n : Int64, (Field.number n.toInt).Sized := fun n => ⟨n.le_toInt, n.toInt_lt⟩
  obtain ⟨hissued, htimes⟩ := encodeNumber_append_inj (hsized _) (hsized _) htimes
  obtain ⟨hexpires, -⟩ := encodeNumber_append_inj (hsized _) (hsized _) htimes
  rw [hs, hs', hsubject]
  exact ⟨rfl, Int64.toInt_inj.mp hissued, Int64.toInt_inj.mp hexpires⟩

/-- The meaning is the subject and the two times. -/
theorem semantic_eq_iff : r.semantic = r'.semantic ↔
    r.subject = r'.subject ∧ r.issuedAt = r'.issuedAt ∧
      r.requestExpiresAt = r'.requestExpiresAt := by
  simp only [subject, semantic, Request.mk.injEq]
  tauto

/-- For valid requests, one framed subject means one request up to its times, its signature and
its broker. -/
theorem v2Subject_eq_iff (hv : r.popVersion = 2) (hv' : r'.popVersion = 2)
    (h : r.validateV2 = .ok ()) (h' : r'.validateV2 = .ok ()) :
    r.v2Subject = r'.v2Subject ↔ r.subject = r'.subject := by
  constructor
  · exact subject_eq_of_v2Subject hv hv' h h'
  · intro heq
    rw [← v2Subject_subject r, ← v2Subject_subject r', heq]

/-- For valid requests, one signed preimage means one request up to its signature and its
broker. -/
theorem v2ChallengePreimage_eq_iff (hv : r.popVersion = 2) (hv' : r'.popVersion = 2)
    (h : r.validateV2 = .ok ()) (h' : r'.validateV2 = .ok ()) :
    r.v2ChallengePreimage = r'.v2ChallengePreimage ↔ r.semantic = r'.semantic := by
  constructor
  · intro heq
    obtain ⟨⟨b, hb⟩, -⟩ := of_validateV2 h
    obtain ⟨p, hp⟩ : ∃ p, r.v2ChallengePreimage = .ok p := by
      rw [v2ChallengePreimage, hb]
      exact ⟨_, rfl⟩
    obtain ⟨hsubject, hissued, hexpires⟩ := eq_of_v2ChallengePreimage hp (heq.symm.trans hp)
    exact semantic_eq_iff.mpr ⟨(v2Subject_eq_iff hv hv' h h').mp hsubject, hissued, hexpires⟩
  · intro heq
    rw [← v2ChallengePreimage_semantic r, ← v2ChallengePreimage_semantic r', heq]

end Request

end Broker

end Averin
