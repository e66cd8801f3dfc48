import Averin.Record.Seal
import Averin.Store.Project

/-!
# Sealing and storing

The server completes the body of a record with defaults, its place among the records of the
session and the description of its key, lets the core seal it and writes it. What a handler
put into the body is still there afterwards, which is all the handlers rely on.
-/

namespace Averin

/-- A text member, empty where there is none. -/
def textField (v : CanonValue) (k : String) : String := ((v.get k).bind CanonValue.asStr).getD ""

/-- Give a text member that is absent or empty its default. -/
def setDefault (k val : String) (v : CanonValue) : CanonValue :=
  if textField v k = "" then v.withField k (.str val) else v

/-- Give a member that is absent its default. -/
def setAbsent (k : String) (x v : CanonValue) : CanonValue :=
  if (v.get k).isNone then v.withField k x else v

/-- The lineage of evidence that was captured on the agent's side. -/
def markLineage (v : CanonValue) : CanonValue :=
  match v.get "extensions" with
  | some (.obj extensions) =>
    match (CanonValue.obj extensions).get "feir_evidence" with
    | some (.obj evidence) =>
      let at? k := (v.get k).getD .null
      let lineage := CanonValue.obj [("session_id", at? "session_id"), ("span_id", at? "span_id"),
        ("parent_span_id", at? "parent_span_id")]
      v.withField "extensions" ((CanonValue.obj extensions).withField "feir_evidence"
        (((CanonValue.obj evidence).withField "capture_authority" (at? "observed_via")).withField
          "lineage" lineage))
    | _ => v
  | _ => v

/-- The defaults of a body. The three texts are the time, and identifiers drawn for a record
or a span without one. -/
def finalizeSemanticRecord (now freshId freshSpan : String) (body : CanonValue) : CanonValue :=
  let body := body.withField "schema_version" (.str "2")
  let body := body.withField "canon_version" (.str "rcp-1")
  let body := body.withField "domain" (.str recordDomain)
  let body := setDefault "agent_ts" now body
  let body := setDefault "record_id" freshId body
  let body := setDefault "span_id" ("span-" ++ freshSpan) body
  let body := setAbsent "parent_span_id" .null body
  let body := setDefault "agent_id" "unknown" body
  let body := setDefault "agent_version" "unknown" body
  let body := setDefault "event_type" "decision" body
  -- An empty action is set to itself, so that it is there.
  let body := setDefault "action" "" body
  let body := setDefault "observed_via" "sdk" body
  let body := setDefault "status" "ok" body
  markLineage body

/-- Texts in order, each once. -/
def sortedUnique (texts : List String) : List String := texts.dedup.insertionSort (· ≤ ·)

/-- The records no other record names as a parent. -/
def headsOf (recs : List Record) : List String :=
  sortedUnique ((recs.filter fun r => recs.all fun r' => r.contentHash ∉ r'.parents).map
    (·.contentHash))

namespace Project

/-- The records of a session. -/
def sessionRecords (p : Project) (sessionId : String) : List Record :=
  p.records.filter (·.sessionId = sessionId)

/-- Its heads. -/
def heads (p : Project) (sessionId : String) : List String := headsOf (p.sessionRecords sessionId)

end Project

/-- The texts of a list member. -/
def textList (v : CanonValue) (k : String) : List String :=
  (((v.get k).bind CanonValue.asArray).getD []).filterMap CanonValue.asStr

/-- The body that is sealed: the heads of the session are its parents, besides those the handler
asked for. -/
def sealBody (now freshId freshSpan : String) (displaySeq : Int64) (keyBlock : CanonValue)
    (p : Project) (sessionId : String) (body : CanonValue) : CanonValue :=
  let body := finalizeSemanticRecord now freshId freshSpan body
  let parents := sortedUnique
    ((textList body "causal_prev_hashes" ++ p.heads sessionId).filter (· ≠ ""))
  (((body.withField "received_ts" (.str now)).withField "display_seq" (.int displaySeq)).withField
    "causal_prev_hashes" (.arr (parents.map .str))).withField "key" keyBlock

/-- The members of a body that stay as the handler made them. -/
def keptKeys : List String :=
  ["project_id", "session_id", "authority", "input_commit", "credential_commit", "extensions"]

/-- The sealing of a body, which keeps what a handler put into it. -/
structure Sealer where
  sealRecord : Project → String → CanonValue → Option CanonValue
  keeps : ∀ p sessionId body sealed, sealRecord p sessionId body = some sealed →
    (body.get "extensions").bind (·.get "feir_evidence") = none →
      ∀ k ∈ keptKeys, sealed.get k = body.get k
  keepsId : ∀ p sessionId body sealed, sealRecord p sessionId body = some sealed →
    textField body "record_id" ≠ "" → sealed.get "record_id" = body.get "record_id"

/-- Why a body is not stored. -/
inductive SealError where
  | sealing
  | store (e : StoreError)
  | quota
  deriving DecidableEq, Repr

/-- The record a sealed text is stored as. -/
def sealedRecord (sealed : CanonValue) (disclosures : List DisclosureSecret) : Record where
  json := sealed
  contentHash := textField sealed "content_hash"
  sessionId := textField sealed "session_id"
  parents := textList sealed "causal_prev_hashes"
  disclosures := disclosures

/-- Seal a body and write it. The answer is the stored record, and whether it is the new one. -/
def sealAndStore (S : Sealer) (p : Project) (sessionId idem : String) (body : CanonValue)
    (disclosures : List DisclosureSecret) : Except SealError ((CanonValue × Bool) × Project) :=
  match S.sealRecord p sessionId body with
  | none => .error .sealing
  | some sealed =>
    match p.putRecord idem (sealedRecord sealed disclosures) with
    | .error e => .error (.store e)
    | .ok ((stored, created), p') => .ok ((stored.json, created), p')

/-- Seal and store in a project that may hold so many records, without a limit for zero. -/
def sealCounted (quota : Nat) (S : Sealer) (p : Project) (sessionId idem : String)
    (body : CanonValue) (disclosures : List DisclosureSecret) :
    Except SealError ((CanonValue × Bool) × Project) :=
  match sealAndStore S p sessionId idem body disclosures with
  | .error e => .error e
  | .ok ((stored, created), p') =>
    if created = true ∧ 0 < quota ∧ quota < p'.records.length then .error .quota
    else .ok ((stored, created), p')

variable {v : CanonValue} {k k' : String}

theorem get_setDefault_of_ne {val : String} (h : k' ≠ k) :
    (setDefault k val v).get k' = v.get k' := by
  unfold setDefault
  split_ifs
  · exact CanonValue.get_withField_of_ne h
  · rfl

theorem get_setAbsent_of_ne {x : CanonValue} (h : k' ≠ k) :
    (setAbsent k x v).get k' = v.get k' := by
  unfold setAbsent
  split_ifs
  · exact CanonValue.get_withField_of_ne h
  · rfl

theorem setDefault_of_text {val : String} (h : textField v k ≠ "") : setDefault k val v = v := by
  rw [setDefault, if_neg h]

/-- Without evidence there is no lineage to mark. -/
theorem markLineage_eq_self (h : (v.get "extensions").bind (·.get "feir_evidence") = none) :
    markLineage v = v := by
  unfold markLineage
  split
  · next extensions hext =>
    rw [hext, Option.bind_some] at h
    rw [h]
  · rfl

/-- The members that completing a body leaves alone. -/
theorem get_finalizeSemanticRecord {now freshId freshSpan : String} (hk : k ∈ keptKeys)
    (h : (v.get "extensions").bind (·.get "feir_evidence") = none) :
    (finalizeSemanticRecord now freshId freshSpan v).get k = v.get k := by
  unfold finalizeSemanticRecord
  dsimp only
  rw [markLineage_eq_self]
  · simp only [keptKeys, List.mem_cons, List.not_mem_nil, or_false] at hk
    rcases hk with rfl | rfl | rfl | rfl | rfl | rfl <;>
      simp [get_setDefault_of_ne, get_setAbsent_of_ne, CanonValue.get_withField_of_ne]
  · simp [get_setDefault_of_ne, get_setAbsent_of_ne, CanonValue.get_withField_of_ne, h]

/-- The mark is within the extensions. -/
theorem get_markLineage_of_ne (h : k ≠ "extensions") : (markLineage v).get k = v.get k := by
  unfold markLineage
  split
  · split
    · exact CanonValue.get_withField_of_ne h
    · rfl
  · rfl

/-- A text a handler gave stays whatever the default. -/
theorem get_setDefault_of_text {w : CanonValue} {val : String} (hw : w.get k = v.get k)
    (h : textField v k ≠ "") : (setDefault k' val w).get k = v.get k := by
  by_cases hk : k' = k
  · subst hk
    rw [setDefault_of_text, hw]
    rw [textField, hw]
    exact h
  · rw [get_setDefault_of_ne (Ne.symm hk), hw]

/-- The members that completing a body overwrites, or may write into. -/
def completedKeys : List String :=
  ["schema_version", "canon_version", "domain", "parent_span_id", "extensions"]

/-- A body keeps the texts its handler gave it. -/
theorem get_finalizeSemanticRecord_of_text {now freshId freshSpan : String}
    (hk : k ∉ completedKeys) (h : textField v k ≠ "") :
    (finalizeSemanticRecord now freshId freshSpan v).get k = v.get k := by
  simp only [completedKeys, List.mem_cons, List.not_mem_nil, or_false, not_or] at hk
  obtain ⟨hschema, hcanon, hdomain, hparent, hext⟩ := hk
  unfold finalizeSemanticRecord
  dsimp only
  rw [get_markLineage_of_ne hext]
  iterate 6 apply get_setDefault_of_text _ h
  rw [get_setAbsent_of_ne hparent]
  iterate 3 apply get_setDefault_of_text _ h
  rw [CanonValue.get_withField_of_ne hdomain, CanonValue.get_withField_of_ne hcanon,
    CanonValue.get_withField_of_ne hschema]

/-- A body that names its record keeps the name. -/
theorem recordId_finalizeSemanticRecord {now freshId freshSpan : String}
    (hid : textField v "record_id" ≠ "") :
    (finalizeSemanticRecord now freshId freshSpan v).get "record_id" = v.get "record_id" :=
  get_finalizeSemanticRecord_of_text (by decide) hid

/-- What is needed to seal with the core: its tables, its hash and its key, and where the server
takes times, identifiers and places in a session from. -/
structure Recorder (ed : Ed25519) where
  N : Normalizer
  sha256 : List UInt8 → Vector UInt8 32
  sk : SigningKey ed
  keyBlock : CanonValue
  now : Project → String
  freshId : Project → String
  freshSpan : Project → String
  displaySeq : Project → String → Int64

/-- Seal a completed body with the core. -/
def Recorder.sealRecord {ed : Ed25519} (R : Recorder ed) (p : Project) (sessionId : String)
    (body : CanonValue) : Option CanonValue :=
  (Averin.sealRecord R.N R.sha256 (sealBody (R.now p) (R.freshId p) (R.freshSpan p)
    (R.displaySeq p sessionId) R.keyBlock p sessionId body) R.sk).toOption

/-- A sealed record is the body with its seal. -/
theorem Recorder.sealRecord_cases {ed : Ed25519} {R : Recorder ed} {p : Project}
    {sessionId : String} {body sealed : CanonValue}
    (h : R.sealRecord p sessionId body = some sealed) :
    ∃ contentHash sig, sealed = (sealBody (R.now p) (R.freshId p) (R.freshSpan p)
      (R.displaySeq p sessionId) R.keyBlock p sessionId body).putSeal "content_hash" contentHash
        sig := by
  unfold Recorder.sealRecord at h
  cases hsealed : Averin.sealRecord R.N R.sha256 (sealBody (R.now p) (R.freshId p) (R.freshSpan p)
    (R.displaySeq p sessionId) R.keyBlock p sessionId body) R.sk with
  | error e =>
    rw [hsealed] at h
    cases h
  | ok v =>
    rw [hsealed] at h
    obtain rfl := Option.some.inj h
    obtain ⟨contentHash, sig, -, -, hv, -⟩ := sealRecord_eq_ok_iff.mp hsealed
    exact ⟨contentHash, sig, hv⟩

section SealBody

variable {now freshId freshSpan sessionId : String} {displaySeq : Int64} {keyBlock : CanonValue}
  {p : Project}

/-- The members the place and the key of a record go into. -/
def envelopeKeys : List String := ["received_ts", "display_seq", "causal_prev_hashes", "key"]

/-- What is not the envelope's stays. -/
theorem get_sealBody_of_notMem (hk : k ∉ envelopeKeys) :
    (sealBody now freshId freshSpan displaySeq keyBlock p sessionId v).get k =
      (finalizeSemanticRecord now freshId freshSpan v).get k := by
  simp only [envelopeKeys, List.mem_cons, List.not_mem_nil, or_false, not_or] at hk
  obtain ⟨h1, h2, h3, h4⟩ := hk
  unfold sealBody
  dsimp only
  rw [CanonValue.get_withField_of_ne h4, CanonValue.get_withField_of_ne h3,
    CanonValue.get_withField_of_ne h2, CanonValue.get_withField_of_ne h1]

end SealBody

/-- What is kept is not the envelope's. -/
theorem notMem_of_mem_keptKeys (hk : k ∈ keptKeys) :
    k ∉ envelopeKeys ∧ k ≠ "content_hash" ∧ k ≠ "sig" := by
  simp only [keptKeys, List.mem_cons, List.not_mem_nil, or_false] at hk
  rcases hk with rfl | rfl | rfl | rfl | rfl | rfl <;> simp [envelopeKeys]

/-- What is kept is kept when sealed. -/
theorem Recorder.get_sealRecord {ed : Ed25519} {R : Recorder ed} {p : Project} {sessionId : String}
    {body sealed : CanonValue} (h : R.sealRecord p sessionId body = some sealed)
    (hext : (body.get "extensions").bind (·.get "feir_evidence") = none) (hk : k ∈ keptKeys) :
    sealed.get k = body.get k := by
  obtain ⟨contentHash, sig, hsealed⟩ := Recorder.sealRecord_cases h
  obtain ⟨henvelope, hhash, hsig⟩ := notMem_of_mem_keptKeys hk
  rw [hsealed, CanonValue.get_putSeal_of_ne hhash hsig, get_sealBody_of_notMem henvelope]
  exact get_finalizeSemanticRecord hk hext

theorem Recorder.get_sealRecord_of_text {ed : Ed25519} {R : Recorder ed} {p : Project}
    {sessionId : String} {body sealed : CanonValue}
    (h : R.sealRecord p sessionId body = some sealed)
    (hk : k ∉ completedKeys ++ envelopeKeys ++ ["content_hash", "sig"])
    (htext : textField body k ≠ "") : sealed.get k = body.get k := by
  simp only [List.mem_append, not_or, List.mem_cons, List.not_mem_nil, or_false] at hk
  obtain ⟨⟨hcompleted, henvelope⟩, hhash, hsig⟩ := hk
  obtain ⟨contentHash, sig, hsealed⟩ := Recorder.sealRecord_cases h
  rw [hsealed, CanonValue.get_putSeal_of_ne hhash hsig, get_sealBody_of_notMem henvelope]
  exact get_finalizeSemanticRecord_of_text hcompleted htext

/-- The core keeps what the handlers rely on. -/
def Recorder.sealer {ed : Ed25519} (R : Recorder ed) : Sealer where
  sealRecord := R.sealRecord
  keeps p sessionId body sealed h hext k hk := Recorder.get_sealRecord h hext hk
  keepsId := by
    intro p sessionId body sealed h hid
    obtain ⟨contentHash, sig, hsealed⟩ := Recorder.sealRecord_cases h
    rw [hsealed, CanonValue.get_putSeal_of_ne (by decide) (by decide),
      get_sealBody_of_notMem (by decide), recordId_finalizeSemanticRecord hid]

end Averin
