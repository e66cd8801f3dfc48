import Mathlib.Logic.Relation
import Averin.Server.Recovery

/-!
# Recoveries are safe

Whatever transactions run and whichever requests are lost or tried again, a number of the
broker is carried by one record at most, a fence and a result never change, and requests that
disagree do not both succeed.
-/

namespace Averin

/-- A text that is read is there. -/
theorem decodeStr_eq_some {v : Option CanonValue} {s : String} (h : decodeStr v = some s)
    (hne : s ≠ "") : v = some (.str s) := by
  unfold decodeStr at h
  split at h
  · exact absurd (Option.some.inj h).symm hne
  · exact absurd (Option.some.inj h).symm hne
  · rw [Option.some.inj h]
  · cases h

/-- A member that is read is there. -/
theorem decodeObj_eq_some {v : Option CanonValue} {members : List (String × CanonValue)}
    (h : decodeObj v = some members) {key : String} {u : CanonValue}
    (hget : (CanonValue.obj members).get key = some u) : v = some (.obj members) := by
  unfold decodeObj at h
  split at h
  · rw [← Option.some.inj h] at hget
    cases hget
  · rw [← Option.some.inj h] at hget
    cases hget
  · rw [Option.some.inj h]
  · cases h

theorem jsonText_of_get {v : CanonValue} {key s : String} (h : v.get key = some (.str s)) :
    jsonText v [key] = s := by
  simp [jsonText, jsonPath, h, CanonValue.asStr]

/-- A text under a path is one under the rest of it. -/
theorem jsonText_cons {v u : CanonValue} {key : String} (h : v.get key = some u)
    (keys : List String) : jsonText v (key :: keys) = jsonText u keys := by
  simp [jsonText, jsonPath, h]

theorem jsonSeq_cons {v u : CanonValue} {key : String} (h : v.get key = some u)
    (keys : List String) : jsonSeq v (key :: keys) = jsonSeq u keys := by
  simp [jsonSeq, jsonPath, h]

/-- A positive number is read as itself. -/
theorem jsonSeq_of_decodeInt {v : CanonValue} {key : String} {n : Int}
    (h : decodeInt (v.get key) = some n) (hn : 1 ≤ n) : jsonSeq v [key] = n := by
  unfold decodeInt at h
  split at h
  · have := Option.some.inj h
    omega
  · have := Option.some.inj h
    omega
  · next m hget =>
    rw [Option.some.injEq] at h
    simp only [jsonSeq, jsonPath, hget, Option.bind_some, CanonValue.asInt, h]
    rw [if_neg (by omega)]
  · cases h

/-- A number that is there is read alike. -/
theorem unmarshalInt_eq_some {v : Option CanonValue} {n : Int} (h : unmarshalInt v = some n) :
    decodeInt v = some n := by
  cases v with
  | none => cases h
  | some v => exact h

/-- What is decoded of a record, with where it stands. -/
theorem decodeWinner_spec {raw : CanonValue} {r : WinnerFields} (h : decodeWinner raw = some r) :
    ∃ authority extensions broker grantEvidence voidEvidence,
      decodeObj (raw.get "authority") = some authority ∧
      decodeObj (raw.get "extensions") = some extensions ∧
      decodeObj ((CanonValue.obj extensions).get "broker") = some broker ∧
      decodeObj ((CanonValue.obj broker).get "grant_evidence") = some grantEvidence ∧
      decodeObj ((CanonValue.obj broker).get "void_evidence") = some voidEvidence ∧
      decodeStr (raw.get "project_id") = some r.projectId ∧
      decodeStr (raw.get "record_id") = some r.recordId ∧
      decodeStr (raw.get "session_id") = some r.sessionId ∧
      decodeStr (raw.get "event_type") = some r.eventType ∧
      decodeStr ((CanonValue.obj authority).get "source") = some r.source ∧
      decodeStr ((CanonValue.obj authority).get "enforcement_point") = some r.enforcementPoint ∧
      decodeStr ((CanonValue.obj authority).get "grant_id") = some r.authorityGrant ∧
      decodeStr ((CanonValue.obj broker).get "kind") = some r.kind ∧
      decodeInt ((CanonValue.obj grantEvidence).get "broker_seq") = some r.brokerSeq ∧
      r.evidence = .obj voidEvidence := by
  unfold decodeWinner at h
  obtain ⟨authority, ha, h⟩ := Option.bind_eq_some_iff.mp h
  obtain ⟨extensions, he, h⟩ := Option.bind_eq_some_iff.mp h
  obtain ⟨broker, hb, h⟩ := Option.bind_eq_some_iff.mp h
  obtain ⟨grantEvidence, hg, h⟩ := Option.bind_eq_some_iff.mp h
  obtain ⟨projectId, hpid, h⟩ := Option.bind_eq_some_iff.mp h
  obtain ⟨recordId, hrid, h⟩ := Option.bind_eq_some_iff.mp h
  obtain ⟨sessionId, hsid, h⟩ := Option.bind_eq_some_iff.mp h
  obtain ⟨eventType, hev, h⟩ := Option.bind_eq_some_iff.mp h
  obtain ⟨source, hsrc, h⟩ := Option.bind_eq_some_iff.mp h
  obtain ⟨point, hep, h⟩ := Option.bind_eq_some_iff.mp h
  obtain ⟨grant, hag, h⟩ := Option.bind_eq_some_iff.mp h
  obtain ⟨kind, hkind, h⟩ := Option.bind_eq_some_iff.mp h
  obtain ⟨seq, hseq, h⟩ := Option.bind_eq_some_iff.mp h
  obtain ⟨void, hvoid, h⟩ := Option.bind_eq_some_iff.mp h
  obtain rfl := Option.some.inj h
  exact ⟨authority, extensions, broker, grantEvidence, void, ha, he, hb, hg, hvoid, hpid, hrid,
    hsid, hev, hsrc, hep, hag, hkind, hseq, rfl⟩

/-- The record is a tombstone of this grant for this number. -/
def IsTombstone (raw : CanonValue) (projectId grantId : String) (seq : Int) : Prop :=
  ∃ ev session, boundVoidRecord raw projectId grantId = some (seq, ev, session)

/-- The record is a tombstone made by the operation of the fence. -/
def IsTombstoneOf (raw : CanonValue) (f : RecoveryFence) : Prop :=
  ∃ ev, boundVoidRecord raw f.projectId f.grantId = some (f.seq, ev, f.sessionId) ∧
    unmarshalStr (ev.get "actor_id") = some f.actorId ∧
    unmarshalStr (ev.get "operation_id") = some f.operationId ∧
    unmarshalStr (ev.get "reason") = some f.reason

/-- What a winning record has in common in both outcomes. -/
theorem validRecoveryWinner_fields {raw : CanonValue} {f : RecoveryFence} {outcome : String}
    (h : validRecoveryWinner raw f outcome = true) :
    ∃ r, decodeWinner raw = some r ∧ r.projectId = f.projectId ∧ r.recordId = f.grantId ∧
      r.source = "gateway_enforced" ∧ r.enforcementPoint = "credential_broker" ∧
      r.authorityGrant = f.grantId := by
  unfold validRecoveryWinner at h
  split at h
  · cases h
  · next r hr =>
    refine ⟨r, hr, ?_⟩
    split at h
    · cases h
    · next hfields =>
      simp only [not_or, not_not] at hfields
      exact hfields

/-- A winner has the grant for its identifier. -/
theorem recordIDOf_of_winner {raw : CanonValue} {f : RecoveryFence} {outcome : String}
    (h : validRecoveryWinner raw f outcome = true) : recordIDOf raw = f.grantId := by
  obtain ⟨r, hr, -, hrid, -⟩ := validRecoveryWinner_fields h
  obtain ⟨_, _, _, _, _, -, -, -, -, -, -, hrecord, -⟩ := decodeWinner_spec hr
  rw [recordIDOf, hrecord, Option.getD_some, hrid]

/-- A winning tombstone, and where it says so. -/
theorem winner_voided {raw : CanonValue} {f : RecoveryFence}
    (h : validRecoveryWinner raw f "voided" = true) :
    ∃ r, decodeWinner raw = some r ∧ r.eventType = "credential_grant_void" ∧
      r.kind = "grant_void" ∧
      unmarshalStr (r.evidence.get "domain") = some grantVoidDomain ∧
      unmarshalStr (r.evidence.get "project_id") = some f.projectId ∧
      unmarshalStr (r.evidence.get "grant_id") = some f.grantId ∧
      unmarshalInt (r.evidence.get "broker_seq") = some f.seq ∧
      ((r.evidence.get "actor_id").isSome = true → (r.evidence.get "operation_id").isSome = true →
        attributedTo r.sessionId r.evidence f = true) := by
  obtain ⟨r, hr, hfields⟩ := validRecoveryWinner_fields h
  refine ⟨r, hr, ?_⟩
  rw [validRecoveryWinner, hr] at h
  dsimp only at h
  rw [if_neg (by simp only [not_or, not_not]; exact hfields), if_neg (by decide)] at h
  split at h
  · cases h
  · next hvoid =>
    split at h
    · cases h
    · next hev =>
      simp only [not_or, not_not] at hvoid hev
      refine ⟨hvoid.2.1, hvoid.2.2, hev.1, hev.2.1, hev.2.2.1, hev.2.2.2, ?_⟩
      intro hactor hop
      simpa [hactor, hop] using h

/-- A recorded winner is a grant. -/
theorem winner_recorded {raw : CanonValue} {f : RecoveryFence}
    (h : validRecoveryWinner raw f "recorded" = true) :
    ∃ r, decodeWinner raw = some r ∧ r.eventType = "credential_grant" ∧ r.kind = "grant" ∧
      r.brokerSeq = f.seq := by
  obtain ⟨r, hr, hfields⟩ := validRecoveryWinner_fields h
  refine ⟨r, hr, ?_⟩
  rw [validRecoveryWinner, hr] at h
  dsimp only at h
  rw [if_neg (by simp only [not_or, not_not]; exact hfields), if_pos rfl] at h
  simpa [and_assoc] using h

/-- The texts and the number a record of the broker is found by. -/
theorem grantSeqOf_of_winner {raw : CanonValue} {f : RecoveryFence} {outcome : String}
    (ho : outcome = "recorded" ∨ outcome = "voided") (hseq : 1 ≤ f.seq)
    (h : validRecoveryWinner raw f outcome = true) : grantSeqOf raw = some f.seq := by
  obtain ⟨r, hr, -, -, -, hpoint, -⟩ := validRecoveryWinner_fields h
  obtain ⟨authority, extensions, broker, grantEvidence, voidEvidence, ha, he, hb, hg, hv, -, -, -,
    -, -, hep, -, hkind, hbseq, hevidence⟩ := decodeWinner_spec hr
  have hpointGet := decodeStr_eq_some (hpoint ▸ hep) (by decide)
  have hauthority := decodeObj_eq_some ha hpointGet
  have hpointText : jsonText raw ["authority", "enforcement_point"] = "credential_broker" := by
    rw [jsonText_cons hauthority, jsonText_of_get hpointGet]
  have hkindText : ∀ {k : String}, r.kind = k → k ≠ "" →
      jsonText raw ["extensions", "broker", "kind"] = k ∧
        raw.get "extensions" = some (.obj extensions) ∧
        (CanonValue.obj extensions).get "broker" = some (.obj broker) := by
    rintro k rfl hne
    have hkindGet := decodeStr_eq_some hkind hne
    have hbroker := decodeObj_eq_some hb hkindGet
    have hextensions := decodeObj_eq_some he hbroker
    refine ⟨?_, hextensions, hbroker⟩
    rw [jsonText_cons hextensions, jsonText_cons hbroker, jsonText_of_get hkindGet]
  rcases ho with rfl | rfl
  · obtain ⟨r', hr', -, hk, hs⟩ := winner_recorded h
    obtain rfl := Option.some.inj (hr.symm.trans hr')
    obtain ⟨hkt, hextensions, hbroker⟩ := hkindText hk (by decide)
    have hevGet : (CanonValue.obj broker).get "grant_evidence" = some (.obj grantEvidence) := by
      rcases hget : (CanonValue.obj grantEvidence).get "broker_seq" with - | u
      · rw [hget] at hbseq
        have := Option.some.inj hbseq
        omega
      · exact decodeObj_eq_some hg hget
    have hnum : jsonSeq raw ["extensions", "broker", "grant_evidence", "broker_seq"] = f.seq := by
      rw [jsonSeq_cons hextensions, jsonSeq_cons hbroker, jsonSeq_cons hevGet]
      exact jsonSeq_of_decodeInt (hs ▸ hbseq) hseq
    simp only [grantSeqOf, hkt, hpointText, hnum]
    rw [if_neg (by decide), if_neg (by decide), if_neg (by omega)]
  · obtain ⟨r', hr', -, hk, -, -, -, hs, -⟩ := winner_voided h
    obtain rfl := Option.some.inj (hr.symm.trans hr')
    obtain ⟨hkt, hextensions, hbroker⟩ := hkindText hk (by decide)
    rw [hevidence] at hs
    have hevGet : (CanonValue.obj broker).get "void_evidence" = some (.obj voidEvidence) := by
      rcases hget : (CanonValue.obj voidEvidence).get "broker_seq" with - | u
      · rw [hget] at hs
        cases hs
      · exact decodeObj_eq_some hv hget
    have hnum : jsonSeq raw ["extensions", "broker", "void_evidence", "broker_seq"] = f.seq := by
      rw [jsonSeq_cons hextensions, jsonSeq_cons hbroker, jsonSeq_cons hevGet]
      exact jsonSeq_of_decodeInt (unmarshalInt_eq_some hs) hseq
    simp only [grantSeqOf, hkt, hpointText, hnum]
    rw [if_pos (by simp), if_pos hseq]

/-- A winning tombstone is one of the fence's grant and number. -/
theorem boundVoidRecord_of_winner {raw : CanonValue} {f : RecoveryFence} (hseq : 1 ≤ f.seq)
    (h : validRecoveryWinner raw f "voided" = true) :
    ∃ r, decodeWinner raw = some r ∧
      boundVoidRecord raw f.projectId f.grantId = some (f.seq, r.evidence, r.sessionId) := by
  obtain ⟨r, hr, hpid, hrid, hsrc, hpoint, hag⟩ := validRecoveryWinner_fields h
  obtain ⟨r', hr', hevent, hk, hdomain, hproject, hgrant, hs, -⟩ := winner_voided h
  obtain rfl := Option.some.inj (hr.symm.trans hr')
  obtain ⟨authority, extensions, broker, grantEvidence, voidEvidence, ha, he, hb, -, hv, hpid',
    hrid', hsid, hev, hsrc', hep, hag', hkind, -, hevidence⟩ := decodeWinner_spec hr
  refine ⟨r, hr, ?_⟩
  rw [hevidence] at hdomain hproject hgrant hs
  unfold boundVoidRecord
  rw [hrid', hpid', hsid, hev, ha, he]
  simp only [Option.bind_eq_bind, Option.bind_some, hsrc', hep, hag', hb, hkind, hv, hpid, hrid,
    hsrc, hpoint, hag, hevent, hk, hdomain, hproject, hgrant, hs, ne_eq, not_true_eq_false, or_self,
    if_false]
  rw [if_neg (by omega), hevidence]

/-- A tombstone is no grant. -/
theorem not_landed_of_bound {raw : CanonValue} {projectId grantId : String} {seq seq' : Int}
    (h : IsTombstone raw projectId grantId seq) : recordIsLandedGrant raw seq' = false := by
  obtain ⟨ev, session, h⟩ := h
  unfold boundVoidRecord at h
  obtain ⟨_, -, h⟩ := Option.bind_eq_some_iff.mp h
  obtain ⟨_, -, h⟩ := Option.bind_eq_some_iff.mp h
  obtain ⟨_, -, h⟩ := Option.bind_eq_some_iff.mp h
  obtain ⟨eventType, hevent, h⟩ := Option.bind_eq_some_iff.mp h
  have heq : eventType = "credential_grant_void" := by
    by_contra hne
    obtain ⟨_, -, h⟩ := Option.bind_eq_some_iff.mp h
    obtain ⟨_, -, h⟩ := Option.bind_eq_some_iff.mp h
    obtain ⟨_, -, h⟩ := Option.bind_eq_some_iff.mp h
    obtain ⟨_, -, h⟩ := Option.bind_eq_some_iff.mp h
    obtain ⟨_, -, h⟩ := Option.bind_eq_some_iff.mp h
    obtain ⟨_, -, h⟩ := Option.bind_eq_some_iff.mp h
    obtain ⟨_, -, h⟩ := Option.bind_eq_some_iff.mp h
    obtain ⟨_, -, h⟩ := Option.bind_eq_some_iff.mp h
    rw [if_pos (Or.inr (Or.inr (Or.inl hne)))] at h
    cases h
  rw [Bool.eq_false_iff]
  intro hlanded
  unfold recordIsLandedGrant at hlanded
  dsimp only at hlanded
  rw [Option.getD_eq_iff] at hlanded
  rcases hlanded with hlanded | ⟨-, hfalse⟩
  · obtain ⟨eventType', hevent', hlanded⟩ := Option.bind_eq_some_iff.mp hlanded
    rw [hevent, heq] at hevent'
    obtain rfl := Option.some.inj hevent'
    obtain ⟨_, -, hlanded⟩ := Option.bind_eq_some_iff.mp hlanded
    obtain ⟨_, -, hlanded⟩ := Option.bind_eq_some_iff.mp hlanded
    obtain ⟨_, -, hlanded⟩ := Option.bind_eq_some_iff.mp hlanded
    obtain ⟨_, -, hlanded⟩ := Option.bind_eq_some_iff.mp hlanded
    obtain ⟨_, -, hlanded⟩ := Option.bind_eq_some_iff.mp hlanded
    obtain ⟨_, -, hlanded⟩ := Option.bind_eq_some_iff.mp hlanded
    obtain ⟨_, -, hlanded⟩ := Option.bind_eq_some_iff.mp hlanded
    simp at hlanded
  · cases hfalse

theorem landed_of_winner {raw : CanonValue} {f : RecoveryFence}
    (h : validRecoveryWinner raw f "recorded" = true) :
    recordIsLandedGrant raw f.seq = true := by
  obtain ⟨r, hr, -, -, -, hpoint, -⟩ := validRecoveryWinner_fields h
  obtain ⟨r', hr', hevent, hk, hs⟩ := winner_recorded h
  obtain rfl := Option.some.inj (hr.symm.trans hr')
  obtain ⟨authority, extensions, broker, grantEvidence, voidEvidence, ha, he, hb, hg, -, -, -, -,
    hev, -, hep, -, hkind, hbseq, -⟩ := decodeWinner_spec hr
  unfold recordIsLandedGrant
  rw [hev, ha, he]
  simp only [Option.bind_eq_bind, Option.bind_some, hep, hb, hkind, hg, hbseq, Option.pure_def,
    Option.getD_some, hevent, hpoint, hk, hs]
  simp

/-- The key of a tombstone is not empty. -/
theorem voidIdem_ne (seq : Int) : voidIdem seq ≠ "" := by
  intro h
  have hlen := congrArg String.length h
  rw [voidIdem, String.length_append] at hlen
  simp at hlen

/-- What may be written for a fenced grant is a tombstone of the fence's operation. -/
theorem isTombstoneOf_of_insert {raw : CanonValue} {idem : String} {f : RecoveryFence}
    (hseq : 1 ≤ f.seq) (h : recoveryTombstoneInsert raw idem f = true) :
    idem = voidIdem f.seq ∧ IsTombstoneOf raw f := by
  simp only [recoveryTombstoneInsert, Bool.and_eq_true, decide_eq_true_eq] at h
  obtain ⟨⟨⟨hidem, hwin⟩, hactor⟩, hop⟩ := h
  obtain ⟨r, hr, hbound⟩ := boundVoidRecord_of_winner hseq hwin
  obtain ⟨r', hr', -, -, -, -, -, -, hattr⟩ := winner_voided hwin
  obtain rfl := Option.some.inj (hr.symm.trans hr')
  have hevidence : voidEvidence raw = r.evidence := by
    obtain ⟨_, extensions, broker, _, void, -, he, hb, -, hv, -, -, -, -, -, -, -, -, -, hev⟩ :=
      decodeWinner_spec hr
    unfold voidEvidence
    rw [he]
    simp only [Option.bind_eq_bind, Option.bind_some, hb, hv, Option.pure_def, Option.getD_some,
      hev]
  rw [hevidence] at hactor hop
  have hattributed := hattr hactor hop
  simp only [attributedTo, Bool.and_eq_true, decide_eq_true_eq] at hattributed
  obtain ⟨⟨⟨hsession, -, hactorEq⟩, -, hopEq⟩, hreason⟩ := hattributed
  rw [hsession] at hbound
  exact ⟨hidem, r.evidence, hbound, hactorEq, hopEq, hreason⟩

namespace Project

/-- What holds of every project on the way: the numbers are in order, every record has its own
identifier and stands under its keys, a record that fills a number has the grant that holds
it, and every result names a record that its fence allows to win. -/
structure RecordInv (p : Project) : Prop where
  seq : p.SeqInv
  named : ∀ g n, p.brokerSeq.lookup g = some n → g ≠ ""
  ids : ∀ (i j : Nat) (ri rj : Record), p.records[i]? = some ri → p.records[j]? = some rj →
    recordIDOf ri.json ≠ "" → recordIDOf ri.json = recordIDOf rj.json → i = j
  idem : ∀ k i, p.idem.lookup k = some i → i < p.records.length
  carried : ∀ r ∈ p.records, ∀ n, grantSeqOf r.json = some n →
    recordIDOf r.json ≠ "" ∧ p.brokerSeq.lookup (recordIDOf r.json) = some n
  result : ∀ s r, p.results.lookup s = some r →
    (r.outcome = "recorded" ∨ r.outcome = "voided") ∧
    ∃ f, p.fences.lookup s = some f ∧ ∃ rec ∈ p.records,
      rec.contentHash = r.winningRecordHash ∧ validRecoveryWinner rec.json f r.outcome = true

/-- The empty project keeps to it. -/
theorem recordInv_empty : RecordInv {} where
  seq := seqInv_empty
  named g n h := by cases h
  ids i j ri rj h := by cases h
  idem k i h := by cases h
  carried r h := by cases h
  result s r h := by cases h

/-- A change of what recoveries never read. -/
def Outside (p p' : Project) : Prop :=
  ∃ checks pending events order receipts receiptByRecord, p' = { p with
    checks := checks, pending := pending, revEvents := events, authOrder := order,
    receipts := receipts, receiptByRecord := receiptByRecord }

/-- A change the transactions make. An allocation is for a named grant, and a record that fills
a number has the grant that holds it. -/
inductive Evolves (p : Project) : Project → Prop
  | call (op : StoreOp) (p' : Project) (hc : p.Change op p')
      (hname : ∀ g, op = .allocateBrokerSeq g → g ≠ "")
      (hcarry : ∀ idem rec, op = .putRecord idem rec → ∀ n, grantSeqOf rec.json = some n →
        recordIDOf rec.json ≠ "" ∧ p.brokerSeq.lookup (recordIDOf rec.json) = some n) :
      p.Evolves p'
  | elsewhere (p' : Project) (hout : p.Outside p') : p.Evolves p'

/-- What a later project keeps of an earlier one, and what it can have gained for a fenced
grant. -/
structure Later (p p' : Project) : Prop where
  fences : ∀ s f, p.fences.lookup s = some f → p'.fences.lookup s = some f
  results : ∀ s r, p.results.lookup s = some r → p'.results.lookup s = some r
  idem : ∀ k i, p.idem.lookup k = some i → p'.idem.lookup k = some i
  records : p.records <+: p'.records
  tombstones : ∀ (s : Int) (f : RecoveryFence) (i : Nat) (rec : Record),
    p.fences.lookup s = some f → p.records.length ≤ i → p'.records[i]? = some rec →
      recordIDOf rec.json = f.grantId →
        IsTombstoneOf rec.json f ∧ p'.idem.lookup (voidIdem f.seq) = some i

theorem Later.refl (p : Project) : p.Later p where
  fences s f h := h
  results s r h := h
  idem k i h := h
  records := List.prefix_rfl
  tombstones s f i rec hf hi hget := by
    have := (List.getElem?_eq_some_iff.mp hget).1
    omega

variable {p p' p'' : Project}

theorem Later.trans (h : p.Later p') (h' : p'.Later p'') : p.Later p'' where
  fences s f hf := h'.fences s f (h.fences s f hf)
  results s r hr := h'.results s r (h.results s r hr)
  idem k i hi := h'.idem k i (h.idem k i hi)
  records := h.records.trans h'.records
  tombstones s f i rec hf hi hget hgrant := by
    by_cases hnew : p'.records.length ≤ i
    · exact h'.tombstones s f i rec (h.fences s f hf) hnew hget hgrant
    · obtain ⟨new, hnewEq⟩ := h'.records
      rw [← hnewEq, List.getElem?_append_left (by omega)] at hget
      obtain ⟨htomb, hidem⟩ := h.tombstones s f i rec hf hi hget hgrant
      exact ⟨htomb, h'.idem _ _ hidem⟩

namespace RecordInv

/-- A fence is for a positive number that its grant holds. -/
theorem fence_pos (h : p.RecordInv) {s : Int} {f : RecoveryFence}
    (hf : p.fences.lookup s = some f) :
    1 ≤ f.seq ∧ f.seq = s ∧ f.grantId ≠ "" ∧ p.brokerSeq.lookup f.grantId = some s := by
  obtain ⟨hs, hget⟩ := h.seq.fence s f hf
  refine ⟨?_, hs, h.named _ _ hget, hget⟩
  rw [hs]
  exact (h.seq.pos hget).1

/-- Writing a record keeps the invariant. -/
theorem recorded (h : p.RecordInv) {rec : Record} {idemKey : String}
    (hrec : p.Recorded p' rec idemKey)
    (hcarry : ∀ n, grantSeqOf rec.json = some n →
      recordIDOf rec.json ≠ "" ∧ p.brokerSeq.lookup (recordIDOf rec.json) = some n) :
    p'.RecordInv := by
  have hseq := h.seq.change (.recorded p' rec idemKey hrec)
  have hfresh := hrec.fresh
  obtain ⟨seen, disclosure, rfl⟩ := hrec.eq
  have hnew : ∀ i r, (p.records ++ [rec])[i]? = some r →
      (i < p.records.length ∧ p.records[i]? = some r) ∨ (i = p.records.length ∧ r = rec) := by
    intro i r hget
    rcases lt_or_ge i p.records.length with hi | hi
    · rw [List.getElem?_append_left hi] at hget
      exact Or.inl ⟨hi, hget⟩
    · rw [List.getElem?_append_right hi] at hget
      obtain ⟨hlt, heq⟩ := List.getElem?_eq_some_iff.mp hget
      have hzero : i - p.records.length = 0 := by simpa using hlt
      refine Or.inr ⟨by omega, ?_⟩
      simp only [hzero, List.getElem_cons_zero] at heq
      exact heq.symm
  have hclash : ∀ r ∈ p.records, recordIDOf rec.json ≠ "" →
      recordIDOf r.json ≠ recordIDOf rec.json := by
    intro r hr hne heq
    exact hfresh hne ((h.seq.held _).mpr ⟨hne, r, hr, heq⟩)
  refine ⟨hseq, h.named, ?_, ?_, ?_, ?_⟩
  · intro i j ri rj hi hj hne heq
    rcases hnew i ri hi with ⟨-, hi'⟩ | ⟨hi', hri⟩ <;>
      rcases hnew j rj hj with ⟨-, hj'⟩ | ⟨hj', hrj⟩
    · exact h.ids i j ri rj hi' hj' hne heq
    · subst hrj
      exact absurd heq (hclash ri (List.mem_of_getElem? hi') (heq ▸ hne))
    · subst hri
      exact absurd heq.symm (hclash rj (List.mem_of_getElem? hj') hne)
    · rw [hi', hj']
  · intro k i hk
    rw [List.length_append, List.length_singleton]
    change (if idemKey ≠ "" then p.idem.insert idemKey p.records.length else p.idem).lookup k =
      some i at hk
    split_ifs at hk
    · rw [Table.lookup_insert_eq] at hk
      split_ifs at hk
      · have := Option.some.inj hk
        omega
      · have := h.idem k i hk
        omega
    · have := h.idem k i hk
      omega
  · intro r hr n hn
    rcases List.mem_append.mp hr with hr | hr
    · exact h.carried r hr n hn
    · obtain rfl := List.mem_singleton.mp hr
      exact hcarry n hn
  · intro s r hr
    obtain ⟨houtcome, f, hf, rec', hmem, hhash, hwin⟩ := h.result s r hr
    exact ⟨houtcome, f, hf, rec', List.mem_append_left _ hmem, hhash, hwin⟩

/-- Every change keeps the invariant. -/
theorem evolves (h : p.RecordInv) (he : p.Evolves p') : p'.RecordInv := by
  cases he with
  | elsewhere _ hout =>
    obtain ⟨_, _, _, _, _, _, rfl⟩ := hout
    exact ⟨⟨h.seq.range, h.seq.injective, h.seq.voided, h.seq.fence, h.seq.held⟩, h.named, h.ids,
      h.idem, h.carried, h.result⟩
  | call op _ hc hname hcarry =>
    have hseq := h.seq.change hc
    -- A record holds its number, so no change takes it away.
    have hkeep : ∀ r ∈ p.records, ∀ n, grantSeqOf r.json = some n →
        recordIDOf r.json ≠ "" ∧ p'.brokerSeq.lookup (recordIDOf r.json) = some n := by
      intro r hr n hn
      obtain ⟨hne, hget⟩ := h.carried r hr n hn
      refine ⟨hne, ?_⟩
      rcases hc.lookup_eq_or hget with hget | ⟨-, -, hheld, -⟩
      · exact hget
      · exact absurd ((h.seq.held _).mpr ⟨hne, r, hr, rfl⟩) hheld
    cases hc with
    | same op => exact h
    | allocated g hvoid hfence hnone =>
      refine ⟨hseq, ?_, h.ids, h.idem, hkeep, h.result⟩
      intro g' n hn
      change (p.brokerSeq.insert g _).lookup g' = some n at hn
      rw [Table.lookup_insert_eq] at hn
      split_ifs at hn with heq
      · rw [heq]
        exact hname g rfl
      · exact h.named g' n hn
    | released g seq hget hmax hvoid hfence hheld =>
      refine ⟨hseq, ?_, h.ids, h.idem, hkeep, h.result⟩
      intro g' n hn
      change (p.brokerSeq.erase g).lookup g' = some n at hn
      rw [Table.lookup_erase_eq] at hn
      split_ifs at hn
      exact h.named g' n hn
    | voided g seq hget => exact ⟨hseq, h.named, h.ids, h.idem, hkeep, h.result⟩
    | fenced inTx f hnone hget hgrant =>
      refine ⟨hseq, h.named, h.ids, h.idem, hkeep, ?_⟩
      intro s r hr
      obtain ⟨houtcome, f', hf', hwin⟩ := h.result s r hr
      refine ⟨houtcome, f', ?_, hwin⟩
      change (p.fences.insert f.seq f).lookup s = some f'
      rw [Table.lookup_insert_eq, if_neg]
      · exact hf'
      · rintro rfl
        rw [hnone] at hf'
        cases hf'
    | resulted inTx r f hfence hnone houtcome hwin =>
      refine ⟨hseq, h.named, h.ids, h.idem, hkeep, ?_⟩
      intro s r' hr'
      change (p.results.insert r.seq r).lookup s = some r' at hr'
      rw [Table.lookup_insert_eq] at hr'
      split_ifs at hr' with hs
      · obtain rfl := Option.some.inj hr'
        rw [hs]
        exact ⟨houtcome, f, hfence, hwin⟩
      · exact h.result s r' hr'
    | recorded _ rec idemKey hrec => exact h.recorded hrec (hcarry idemKey rec rfl)

/-- Every change leads to a later project. -/
theorem later (h : p.RecordInv) (he : p.Evolves p') : p.Later p' := by
  cases he with
  | elsewhere _ hout =>
    obtain ⟨_, _, _, _, _, _, rfl⟩ := hout
    exact ⟨fun _ _ h => h, fun _ _ h => h, fun _ _ h => h, List.prefix_rfl,
      (Later.refl p).tombstones⟩
  | call op _ hc hname hcarry =>
    cases hc with
    | same op => exact Later.refl p
    | allocated g hvoid hfence hnone => exact ⟨fun _ _ h => h, fun _ _ h => h, fun _ _ h => h,
        List.prefix_rfl, (Later.refl p).tombstones⟩
    | released g seq hget hmax hvoid hfence hheld => exact ⟨fun _ _ h => h, fun _ _ h => h,
        fun _ _ h => h, List.prefix_rfl, (Later.refl p).tombstones⟩
    | voided g seq hget => exact ⟨fun _ _ h => h, fun _ _ h => h, fun _ _ h => h,
        List.prefix_rfl, (Later.refl p).tombstones⟩
    | fenced inTx f hnone hget hgrant =>
      refine ⟨?_, fun _ _ h => h, fun _ _ h => h, List.prefix_rfl, (Later.refl p).tombstones⟩
      intro s f' hf'
      change (p.fences.insert f.seq f).lookup s = some f'
      rw [Table.lookup_insert_eq, if_neg]
      · exact hf'
      · rintro rfl
        rw [hnone] at hf'
        cases hf'
    | resulted inTx r f hfence hnone houtcome hwin =>
      refine ⟨fun _ _ h => h, ?_, fun _ _ h => h, List.prefix_rfl, (Later.refl p).tombstones⟩
      intro s r' hr'
      change (p.results.insert r.seq r).lookup s = some r'
      rw [Table.lookup_insert_eq, if_neg]
      · exact hr'
      · rintro rfl
        rw [hnone] at hr'
        cases hr'
    | recorded _ rec idemKey hrec =>
      have hfree := hrec.free
      have hknown := hrec.notKnown
      obtain ⟨seen, disclosure, rfl⟩ := hrec.eq
      -- A key that is taken finds its record, so the new one does not take it over.
      have hidem : ∀ k i, p.idem.lookup k = some i →
          (if idemKey ≠ "" then p.idem.insert idemKey p.records.length else p.idem).lookup k =
            some i := by
        intro k i hk
        split_ifs with hne
        · rw [Table.lookup_insert_eq, if_neg]
          · exact hk
          · rintro rfl
            rw [known, if_neg hne, recordByIdem, hk, Option.bind_some,
              List.getElem?_eq_getElem (h.idem k i hk)] at hknown
            cases hknown
        · exact hk
      refine ⟨fun _ _ h => h, fun _ _ h => h, hidem, List.prefix_append _ _, ?_⟩
      intro s f i r hf hi hget hgrant
      obtain ⟨hpos, -, hne, -⟩ := h.fence_pos hf
      change (p.records ++ [rec])[i]? = some r at hget
      rw [List.getElem?_append_right hi] at hget
      obtain ⟨hlt, heq⟩ := List.getElem?_eq_some_iff.mp hget
      have hzero : i - p.records.length = 0 := by simpa using hlt
      simp only [hzero, List.getElem_cons_zero] at heq
      subst heq
      obtain ⟨rfl, htomb⟩ := isTombstoneOf_of_insert hpos
        (hfree s f hf (hgrant ▸ hne) hgrant.symm)
      refine ⟨htomb, ?_⟩
      change (if voidIdem f.seq ≠ "" then p.idem.insert (voidIdem f.seq) p.records.length
        else p.idem).lookup (voidIdem f.seq) = some i
      rw [if_pos (voidIdem_ne f.seq), AList.lookup_insert, show i = p.records.length by omega]

end RecordInv

end Project

end Averin
