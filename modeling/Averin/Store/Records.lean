import Averin.Store.BrokerSeq
import Averin.Store.Temporal

/-!
# The rows of a project

Rows are only ever appended. Their hashes differ, and so do their identifiers as far as they
have one; a key stays with its row, and what opens a committed field is kept once under its
record and field, from the first row that carried it. The other calls to the store leave all
of this alone.
-/

namespace Averin

/-- The key the secret of a field is kept under. -/
def DisclosureSecret.key (d : DisclosureSecret) : String := d.recordId ++ "\x00" ++ d.field

namespace Project

variable (p : Project)

/-- The number of rows, as it is answered. -/
def recordCount : Nat := p.byHash.card

/-- Rows after so many, at most so many. -/
def recordsAfter (after limit : Int) : List Record :=
  if limit ≤ 0 then [] else (p.records.drop after.toNat).take limit.toNat

/-- Keep a minted credential, unless there is one under the key. -/
def putPendingGrant (idemKey : String) (row : PendingGrant) : (PendingGrant × Bool) × Project :=
  match p.pending.lookup idemKey with
  | some prior => ((prior, false), p)
  | none => ((row, true), { p with pending := p.pending.insert idemKey row })

/-- Drop what is pending under a key. -/
def deletePendingGrant (idemKey : String) : Project :=
  { p with pending := p.pending.erase idemKey }

/-- Add a checkpoint. -/
def putCheckpoint (cp : Checkpoint) : Project := { p with checks := p.checks ++ [cp] }

end Project

/-- A call that writes to a project. -/
inductive StoreCall where
  | op (o : StoreOp)
  | putRevocationEvent (ev : RevocationEvent)
  | allocateAuthorizationOrder
  | putAuthorizationReceipt (r : AuthorizationReceipt)
  | putPendingGrant (idemKey : String) (row : PendingGrant)
  | deletePendingGrant (idemKey : String)
  | putCheckpoint (cp : Checkpoint)

namespace Project

/-- The project after a call, which is as before when the call fails. -/
def call (p : Project) : StoreCall → Project
  | .op o => p.apply o
  | .putRevocationEvent ev => p.after (p.putRevocationEvent ev)
  | .allocateAuthorizationOrder => p.allocateAuthorizationOrder.2
  | .putAuthorizationReceipt r => p.after ((p.putAuthorizationReceipt r).map (((), ·)))
  | .putPendingGrant idemKey row => (p.putPendingGrant idemKey row).2
  | .deletePendingGrant idemKey => p.deletePendingGrant idemKey
  | .putCheckpoint cp => p.putCheckpoint cp

/-- The project after some calls. -/
def calls (p : Project) (cs : List StoreCall) : Project := cs.foldl call p

variable {p p' : Project}

/-- Secrets are kept once a key, in the order they came. -/
structure SecretInv (p : Project) : Prop where
  nodup : (p.disclosure.map DisclosureSecret.key).Nodup
  seen : ∀ k, k ∈ p.discSeen ↔ ∃ d ∈ p.disclosure, d.key = k

/-- A secret is kept unless its key is there. -/
theorem putDisclosures_cons (p : Project) (d : DisclosureSecret) (ds : List DisclosureSecret) :
    p.putDisclosures (d :: ds) =
      if d.key ∈ p.discSeen then p.putDisclosures ds
      else putDisclosures { p with
        discSeen := insert d.key p.discSeen, disclosure := p.disclosure ++ [d] } ds := rfl

/-- A new key keeps the secrets in order. -/
theorem SecretInv.append {d : DisclosureSecret} (h : p.SecretInv) (hnew : d.key ∉ p.discSeen) :
    SecretInv { p with
      discSeen := insert d.key p.discSeen, disclosure := p.disclosure ++ [d] } where
  nodup := by
    change ((p.disclosure ++ [d]).map DisclosureSecret.key).Nodup
    rw [List.map_append, List.nodup_append']
    refine ⟨h.nodup, List.nodup_singleton _, ?_⟩
    intro k hk hk'
    obtain ⟨d', hd', rfl⟩ := List.mem_map.mp hk
    rw [List.map_singleton, List.mem_singleton] at hk'
    exact hnew (hk' ▸ (h.seen _).mpr ⟨d', hd', rfl⟩)
  seen k := by
    change k ∈ insert d.key p.discSeen ↔ ∃ d' ∈ p.disclosure ++ [d], d'.key = k
    rw [Finset.mem_insert, h.seen k]
    constructor
    · rintro (rfl | ⟨d', hd', rfl⟩)
      · exact ⟨d, by simp, rfl⟩
      · exact ⟨d', by simp [hd'], rfl⟩
    · rintro ⟨d', hd', rfl⟩
      rcases List.mem_append.mp hd' with hin | hin
      · exact Or.inr ⟨d', hin, rfl⟩
      · exact Or.inl (by rw [List.mem_singleton.mp hin])

/-- The secrets a row brings are appended, as far as their keys are new. -/
theorem putDisclosures_spec (h : p.SecretInv) (ds : List DisclosureSecret) :
    (p.putDisclosures ds).SecretInv ∧ (∀ d ∈ ds, d.key ∈ (p.putDisclosures ds).discSeen) ∧
      ∃ new, new.Sublist ds ∧ (p.putDisclosures ds).disclosure = p.disclosure ++ new := by
  induction ds generalizing p with
  | nil => exact ⟨h, by simp, [], List.Sublist.refl _, by simp [putDisclosures]⟩
  | cons d ds ih =>
    have hkeeps : ∀ {q : Project}, q.SecretInv → d.key ∈ q.discSeen →
        d.key ∈ (q.putDisclosures ds).discSeen := by
      intro q hq hd
      obtain ⟨hinv, -, new, -, heq⟩ := ih hq
      obtain ⟨d', hd', hkey⟩ := (hq.seen _).mp hd
      exact (hinv.seen _).mpr ⟨d', by rw [heq]; exact List.mem_append_left _ hd', hkey⟩
    rw [putDisclosures_cons]
    split_ifs with hseen
    · obtain ⟨hinv, hall, new, hsub, heq⟩ := ih h
      exact ⟨hinv, List.forall_mem_cons.mpr ⟨hkeeps h hseen, hall⟩, new, hsub.cons d, heq⟩
    · have happ := h.append hseen
      obtain ⟨hinv, hall, new, hsub, heq⟩ := ih happ
      refine ⟨hinv, List.forall_mem_cons.mpr ⟨hkeeps happ (Finset.mem_insert_self _ _), hall⟩,
        d :: new, hsub.cons_cons d, ?_⟩
      rw [heq]
      exact List.append_assoc p.disclosure [d] new

/-- Lists are cut in one way at the first separator. -/
theorem eq_of_cut {α : Type*} {c : α} {a b a' b' : List α} (h : c ∉ a) (h' : c ∉ a')
    (heq : a ++ c :: b = a' ++ c :: b') : a = a' ∧ b = b' := by
  induction a generalizing a' with
  | nil =>
    cases a' with
    | nil => exact ⟨rfl, (List.cons.inj heq).2⟩
    | cons x a' => exact absurd ((List.cons.inj heq).1 ▸ List.mem_cons_self) h'
  | cons x a ih =>
    cases a' with
    | nil => exact absurd ((List.cons.inj heq).1 ▸ List.mem_cons_self) h
    | cons x' a' =>
      obtain ⟨rfl, htail⟩ := List.cons.inj heq
      obtain ⟨rfl, rfl⟩ := ih (List.not_mem_of_not_mem_cons h) (List.not_mem_of_not_mem_cons h')
        htail
      exact ⟨rfl, rfl⟩

/-- Secrets of records whose identifiers are free of the separator share a key only when they
open the same field of the same record. -/
theorem eq_of_key_eq {d d' : DisclosureSecret} (h : '\x00' ∉ d.recordId.toList)
    (h' : '\x00' ∉ d'.recordId.toList) (hkey : d.key = d'.key) :
    d.recordId = d'.recordId ∧ d.field = d'.field := by
  have hlist := congrArg String.toList hkey
  simp only [DisclosureSecret.key, String.toList_append, List.append_assoc] at hlist
  obtain ⟨hid, hfield⟩ := eq_of_cut (c := '\x00') h h' hlist
  exact ⟨String.toList_inj.mp hid, String.toList_inj.mp hfield⟩

/-- The identifiers of the rows that have one. -/
def recordIds (rows : List Record) : List String :=
  (rows.map fun r => recordIDOf r.json).filter (· ≠ "")

/-- The indexes agree with the rows. -/
structure RowInv (p : Project) : Prop where
  hashes : (p.records.map (·.contentHash)).Nodup
  byHash : p.byHash = (p.records.map (·.contentHash)).toFinset
  ids : (recordIds p.records).Nodup
  byRecordID : p.byRecordID = (recordIds p.records).toFinset
  idem : ∀ k i, p.idem.lookup k = some i → k ≠ "" ∧ i < p.records.length
  secrets : p.SecretInv
  carried : ∀ d ∈ p.disclosure, ∃ r ∈ p.records, d ∈ r.disclosures
  kept : ∀ r ∈ p.records, ∀ d ∈ r.disclosures, d.key ∈ p.discSeen

/-- The empty project has no rows. -/
theorem rowInv_empty : RowInv {} where
  hashes := List.nodup_nil
  byHash := rfl
  ids := List.nodup_nil
  byRecordID := rfl
  idem k i h := by cases h
  secrets := ⟨List.nodup_nil, by simp⟩
  carried d h := by cases h
  kept r h := by cases h

/-- What a later project keeps of the rows. -/
structure RowsLater (p p' : Project) : Prop where
  records : p.records <+: p'.records
  idem : ∀ k i, p.idem.lookup k = some i → p'.idem.lookup k = some i
  disclosure : p.disclosure <+: p'.disclosure

theorem RowsLater.refl (p : Project) : p.RowsLater p :=
  ⟨List.prefix_rfl, fun _ _ h => h, List.prefix_rfl⟩

theorem RowsLater.trans {p'' : Project} (h : p.RowsLater p') (h' : p'.RowsLater p'') :
    p.RowsLater p'' :=
  ⟨h.records.trans h'.records, fun k i hi => h'.idem k i (h.idem k i hi),
    h.disclosure.trans h'.disclosure⟩

/-- The part of a project that holds its rows. -/
def rowTable (p : Project) : List Record × Table String Nat × Finset String × Finset String ×
    List DisclosureSecret × Finset String :=
  (p.records, p.idem, p.byHash, p.byRecordID, p.disclosure, p.discSeen)

/-- The invariant is about the rows only. -/
theorem RowInv.of_rowTable (h : p.RowInv) (heq : p'.rowTable = p.rowTable) :
    p'.RowInv ∧ p.RowsLater p' := by
  simp only [rowTable, Prod.mk.injEq] at heq
  obtain ⟨h1, h2, h3, h4, h5, h6⟩ := heq
  constructor
  · constructor
    · rw [h1]; exact h.hashes
    · rw [h3, h1]; exact h.byHash
    · rw [h1]; exact h.ids
    · rw [h4, h1]; exact h.byRecordID
    · rw [h2, h1]; exact h.idem
    · exact ⟨by rw [h5]; exact h.secrets.nodup, by rw [h6, h5]; exact h.secrets.seen⟩
    · rw [h5, h1]; exact h.carried
    · rw [h1, h6]; exact h.kept
  · exact ⟨h1 ▸ List.prefix_rfl, fun k i hi => h2 ▸ hi, h5 ▸ List.prefix_rfl⟩

/-- A row without a twin has a new hash. -/
theorem RowInv.fresh_hash (h : p.RowInv) {hash : String} (hnone : p.twin hash = none) :
    hash ∉ p.records.map (·.contentHash) := by
  intro hin
  unfold twin at hnone
  rw [h.byHash, if_pos (List.mem_toFinset.mpr hin), List.find?_eq_none] at hnone
  obtain ⟨r, hr, rfl⟩ := List.mem_map.mp hin
  exact hnone r hr (by simp)

/-- A new row is appended and indexed. -/
theorem putRecord_created {idemKey : String} {rec r : Record}
    (h : p.putRecord idemKey rec = .ok ((r, true), p')) :
    r = rec ∧ p' = p.appendRecord idemKey rec := by
  unfold putRecord at h
  split at h
  · simp at h
  · split_ifs at h
    split at h
    · simp at h
    · dsimp only at h
      split_ifs at h
      simpa [eq_comm] using h

/-- A new record adds its own. -/
theorem recordIds_append (rows : List Record) (rec : Record) :
    recordIds (rows ++ [rec]) = recordIds rows ++
      if recordIDOf rec.json ≠ "" then [recordIDOf rec.json] else [] := by
  unfold recordIds
  rw [List.map_append, List.filter_append, List.map_singleton]
  split_ifs with h <;> simp [h]

/-- Writing a row keeps the indexes right and what was there. -/
theorem RowInv.recorded (h : p.RowInv) {idemKey : String} {rec : Record}
    (hrec : p.Recorded p' rec idemKey) (heq : p' = p.appendRecord idemKey rec) :
    p'.RowInv ∧ p.RowsLater p' ∧ p'.records = p.records ++ [rec] ∧
      ∃ new, new.Sublist rec.disclosures ∧ p'.disclosure = p.disclosure ++ new := by
  obtain ⟨seen, disclosure, hframe⟩ := hrec.eq
  have hfreshHash := h.fresh_hash hrec.noTwin
  have hrecords : p'.records = p.records ++ [rec] := by rw [hframe]
  have hbyHash : p'.byHash = insert rec.contentHash p.byHash := by rw [hframe]
  have hbyRecordID : p'.byRecordID = if recordIDOf rec.json ≠ "" then
      insert (recordIDOf rec.json) p.byRecordID else p.byRecordID := by rw [hframe]
  have hidem : p'.idem = if idemKey ≠ "" then p.idem.insert idemKey p.records.length
      else p.idem := by rw [hframe]
  -- The secrets go in after the row, which is no part of what they change.
  have hput : p'.SecretInv ∧ (∀ d ∈ rec.disclosures, d.key ∈ p'.discSeen) ∧
      ∃ new, new.Sublist rec.disclosures ∧ p'.disclosure = p.disclosure ++ new := by
    rw [heq]
    exact putDisclosures_spec (p := { p with
      records := p.records ++ [rec]
      byHash := insert rec.contentHash p.byHash
      byRecordID := if recordIDOf rec.json ≠ "" then insert (recordIDOf rec.json) p.byRecordID
        else p.byRecordID
      idem := if idemKey ≠ "" then p.idem.insert idemKey p.records.length else p.idem })
      ⟨h.secrets.nodup, h.secrets.seen⟩ rec.disclosures
  obtain ⟨hsecrets, hkept, new, hsub, hdisc⟩ := hput
  have hmono : ∀ k ∈ p.discSeen, k ∈ p'.discSeen := by
    intro k hk
    obtain ⟨d, hd, rfl⟩ := (h.secrets.seen k).mp hk
    exact (hsecrets.seen _).mpr ⟨d, by rw [hdisc]; exact List.mem_append_left _ hd, rfl⟩
  refine ⟨⟨?_, ?_, ?_, ?_, ?_, hsecrets, ?_, ?_⟩, ⟨?_, ?_, ?_⟩, hrecords, new, hsub, hdisc⟩
  · rw [hrecords, List.map_append, List.map_singleton, List.nodup_append']
    exact ⟨h.hashes, List.nodup_singleton _, by simpa using hfreshHash⟩
  · rw [hbyHash, hrecords, h.byHash]
    ext k
    simp [eq_comm]
  · rw [hrecords, recordIds_append]
    split_ifs with hid
    · rw [List.nodup_append']
      refine ⟨h.ids, List.nodup_singleton _, ?_⟩
      have hnew := hrec.fresh hid
      rw [h.byRecordID, List.mem_toFinset] at hnew
      simpa using hnew
    · simpa using h.ids
  · rw [hbyRecordID, hrecords, recordIds_append, h.byRecordID]
    split_ifs with hid
    · ext k
      simp
    · simp
  · intro k i hget
    rw [hidem] at hget
    rw [hrecords, List.length_append, List.length_singleton]
    split_ifs at hget with hkey
    · rw [Table.lookup_insert_eq] at hget
      split_ifs at hget with hk
      · exact ⟨hk ▸ hkey, by have := Option.some.inj hget; omega⟩
      · exact ⟨(h.idem k i hget).1, by have := (h.idem k i hget).2; omega⟩
    · exact ⟨(h.idem k i hget).1, by have := (h.idem k i hget).2; omega⟩
  · intro d hd
    rw [hdisc] at hd
    rw [hrecords]
    rcases List.mem_append.mp hd with hin | hin
    · obtain ⟨r, hr, hdr⟩ := h.carried d hin
      exact ⟨r, by simp [hr], hdr⟩
    · exact ⟨rec, by simp, hsub.subset hin⟩
  · intro r hr d hd
    rw [hrecords] at hr
    rcases List.mem_append.mp hr with hin | hin
    · exact hmono _ (h.kept r hin d hd)
    · rw [List.mem_singleton] at hin
      exact hkept d (hin ▸ hd)
  · rw [hrecords]
    exact List.prefix_append _ _
  · intro k i hget
    rw [hidem]
    split_ifs with hkey
    · rw [Table.lookup_insert_eq, if_neg]
      · exact hget
      · rintro rfl
        have hnone := hrec.notKnown
        rw [known, if_neg hkey, recordByIdem, hget, Option.bind_some,
          List.getElem?_eq_getElem (h.idem k i hget).2] at hnone
        cases hnone
    · exact hget
  · rw [hdisc]
    exact List.prefix_append _ _

/-- Every call but the writing of a row leaves the rows alone. -/
theorem rowTable_call (c : StoreCall) (hc : ∀ idemKey rec, c ≠ .op (.putRecord idemKey rec)) :
    (p.call c).rowTable = p.rowTable := by
  cases c with
  | op o =>
    change (p.apply o).rowTable = p.rowTable
    generalize hq : p.apply o = q
    have hchange := apply_change p o
    rw [hq] at hchange
    cases hchange with
    | recorded q rec idemKey h => exact absurd rfl (hc idemKey rec)
    | same | allocated | released | voided | fenced | resulted => rfl
  | putRevocationEvent ev =>
    rw [call]
    rcases h : p.putRevocationEvent ev with e | ⟨⟨stored, created⟩, p'⟩
    · rfl
    · obtain ⟨-, hcase⟩ := putRevocationEvent_cases h
      obtain ⟨-, rfl, -⟩ | ⟨-, -, ⟨-, -, -, rfl⟩ | ⟨-, -, -, rfl⟩⟩ := hcase
      all_goals rfl
  | putAuthorizationReceipt r =>
    rw [call]
    rcases h : p.putAuthorizationReceipt r with e | p'
    · rfl
    · obtain ⟨-, -, -, -, -, -, rfl⟩ := putAuthorizationReceipt_cases h
      rfl
  | putPendingGrant idemKey row =>
    rw [call, putPendingGrant]
    split <;> rfl
  | allocateAuthorizationOrder | deletePendingGrant idemKey | putCheckpoint cp => rfl

/-- A call keeps the indexes right and the rows that are there. -/
theorem RowInv.call (h : p.RowInv) (c : StoreCall) :
    (p.call c).RowInv ∧ p.RowsLater (p.call c) := by
  by_cases hc : ∃ idemKey rec, c = .op (.putRecord idemKey rec)
  · obtain ⟨idemKey, rec, rfl⟩ := hc
    change (p.after (p.putRecord idemKey rec)).RowInv ∧
      p.RowsLater (p.after (p.putRecord idemKey rec))
    rcases hput : p.putRecord idemKey rec with e | ⟨⟨r, created⟩, p'⟩
    · exact ⟨h, RowsLater.refl p⟩
    · obtain ⟨-, rfl, -⟩ | ⟨rfl, -, hrec⟩ := putRecord_cases hput
      · exact ⟨h, RowsLater.refl _⟩
      · obtain ⟨hinv, hlater, -⟩ := h.recorded hrec (putRecord_created hput).2
        exact ⟨hinv, hlater⟩
  · rw [not_exists] at hc
    exact h.of_rowTable (rowTable_call c fun idemKey rec heq => hc idemKey ⟨rec, heq⟩)

/-- The invariant holds after all calls, and no row is lost. -/
theorem RowInv.calls (h : p.RowInv) (cs : List StoreCall) :
    (p.calls cs).RowInv ∧ p.RowsLater (p.calls cs) := by
  induction cs generalizing p with
  | nil => exact ⟨h, RowsLater.refl p⟩
  | cons c cs ih =>
    obtain ⟨hinv, hlater⟩ := h.call c
    obtain ⟨hinv', hlater'⟩ := ih hinv
    exact ⟨hinv', hlater.trans hlater'⟩

/-- The row under a key is read back through the index. -/
theorem RowInv.known_iff (h : p.RowInv) {k : String} {r : Record} :
    p.known k = some r ↔ ∃ i, p.idem.lookup k = some i ∧ p.records[i]? = some r := by
  rw [known]
  split_ifs with hk
  · simp only [false_iff, not_exists, not_and]
    intro i hi
    exact absurd hk (h.idem k i hi).1
  · rw [recordByIdem, Option.bind_eq_some_iff]

/-- A row keeps its place. -/
theorem getElem?_of_prefix {α : Type*} {l l' : List α} (h : l <+: l') {i : Nat} {a : α}
    (ha : l[i]? = some a) : l'[i]? = some a := by
  obtain ⟨t, rfl⟩ := h
  obtain ⟨hi, -⟩ := List.getElem?_eq_some_iff.mp ha
  rw [List.getElem?_append_left hi]
  exact ha

theorem RowInv.known_later (h : p.RowInv) (h' : p'.RowInv) (hlater : p.RowsLater p') {k : String}
    {r : Record} (hk : p.known k = some r) : p'.known k = some r := by
  obtain ⟨i, hi, hr⟩ := h.known_iff.mp hk
  exact h'.known_iff.mpr ⟨i, hlater.idem k i hi, getElem?_of_prefix hlater.records hr⟩

theorem RowInv.known_mem (h : p.RowInv) {k : String} {r : Record} (hk : p.known k = some r) :
    r ∈ p.records := by
  obtain ⟨i, -, hr⟩ := h.known_iff.mp hk
  exact List.mem_of_getElem? hr

/-- The count is the number of records. -/
theorem RowInv.recordCount_eq (h : p.RowInv) : p.recordCount = p.records.length := by
  rw [Project.recordCount, h.byHash, List.toFinset_card_of_nodup h.hashes, List.length_map]

/-- A row under a new key is found under it. -/
theorem RowInv.known_recorded (h : p.RowInv) {k : String} {rec : Record} (hk : k ≠ "")
    (hrec : p.Recorded p' rec k) (heq : p' = p.appendRecord k rec) : p'.known k = some rec := by
  obtain ⟨hinv, -, hrecords, -⟩ := h.recorded hrec heq
  obtain ⟨seen, disclosure, hframe⟩ := hrec.eq
  refine hinv.known_iff.mpr ⟨p.records.length, ?_, ?_⟩
  · have hidem : p'.idem = p.idem.insert k p.records.length := by
      rw [hframe]
      exact if_pos hk
    rw [hidem, AList.lookup_insert]
  · rw [hrecords, List.getElem?_concat_length]

/-- A write that succeeds is the call. -/
theorem call_putRecord {k : String} {rec r : Record} {created : Bool}
    (h : p.putRecord k rec = .ok ((r, created), p')) : p.call (.op (.putRecord k rec)) = p' := by
  change p.after (p.putRecord k rec) = p'
  rw [h]
  rfl

/-- What one write of a row does to a project. -/
def Writes (p : Project) (k : String) (rec : Record) : Prop :=
  match p.putRecord k rec with
  | .error _ => p.call (.op (.putRecord k rec)) = p
  | .ok ((r, false), q) => q = p ∧ r ∈ p.records
  | .ok ((r, true), q) => r = rec ∧ q.records = p.records ++ [rec] ∧
      (k ≠ "" → q.known k = some rec) ∧
        ∃ new, new.Sublist rec.disclosures ∧ q.disclosure = p.disclosure ++ new

/-- What writing a record leaves. -/
theorem RowInv.writes (h : p.RowInv) (k : String) (rec : Record) : p.Writes k rec := by
  unfold Writes
  rcases hput : p.putRecord k rec with e | ⟨⟨r, created⟩, q⟩
  · change p.after (p.putRecord k rec) = p
    rw [hput]
    rfl
  · obtain ⟨rfl, rfl, hfound⟩ | ⟨rfl, rfl, hrec⟩ := putRecord_cases hput
    · refine ⟨rfl, ?_⟩
      rcases hfound with hknown | htwin
      · exact h.known_mem hknown
      · exact (mem_of_twin htwin).1
    · obtain ⟨-, heq⟩ := putRecord_created hput
      obtain ⟨-, -, hrecords, hnew⟩ := h.recorded hrec heq
      exact ⟨rfl, hrecords, fun hk => h.known_recorded hk hrec heq, hnew⟩

/-- A known key answers with its row, whatever is written under it. -/
theorem putRecord_of_known {k : String} {r : Record} (hk : p.known k = some r) (rec : Record) :
    p.putRecord k rec = .ok ((r, false), p) := by
  unfold putRecord
  rw [hk]

/-- The secret of a field is the only one of its record and field. -/
theorem RowInv.existsUnique_secret (h : p.RowInv)
    (hfree : ∀ r ∈ p.records, ∀ d ∈ r.disclosures, '\x00' ∉ d.recordId.toList)
    {r : Record} (hr : r ∈ p.records) {d : DisclosureSecret} (hd : d ∈ r.disclosures) :
    ∃! d', d' ∈ p.disclosure ∧ d'.recordId = d.recordId ∧ d'.field = d.field := by
  obtain ⟨d', hd', hkey⟩ := (h.secrets.seen _).mp (h.kept r hr d hd)
  obtain ⟨r', hr', hin⟩ := h.carried d' hd'
  refine ⟨d', ⟨hd', eq_of_key_eq (hfree r' hr' d' hin) (hfree r hr d hd) hkey⟩, ?_⟩
  rintro d'' ⟨hd'', hid, hfield⟩
  apply List.inj_on_of_nodup_map h.secrets.nodup hd'' hd'
  rw [hkey, DisclosureSecret.key, hid, hfield, DisclosureSecret.key]

/-- What holds of the rows of a project and of what it was at an earlier time. -/
structure RowsSound (p p' : Project) : Prop where
  rows : p.records <+: p'.records
  hashes : (p'.records.map (·.contentHash)).Nodup
  ids : (recordIds p'.records).Nodup
  count : p'.recordCount = p'.records.length
  known : ∀ k r, p.known k = some r →
    p'.known k = some r ∧ ∀ rec, p'.putRecord k rec = .ok ((r, false), p')
  writes : ∀ k rec, p'.Writes k rec
  secretsStay : p.disclosure <+: p'.disclosure
  secretsOnce : (p'.disclosure.map DisclosureSecret.key).Nodup
  secretsCarried : ∀ d ∈ p'.disclosure, ∃ r ∈ p'.records, d ∈ r.disclosures
  secretsKept : ∀ r ∈ p'.records, ∀ d ∈ r.disclosures, ∃ d' ∈ p'.disclosure, d'.key = d.key
  secretOfField : (∀ r ∈ p'.records, ∀ d ∈ r.disclosures, '\x00' ∉ d.recordId.toList) →
    ∀ r ∈ p'.records, ∀ d ∈ r.disclosures,
      ∃! d', d' ∈ p'.disclosure ∧ d'.recordId = d.recordId ∧ d'.field = d.field

/-- Calls leave rows that are sound. -/
theorem RowInv.rowsSound (h : p.RowInv) (later : List StoreCall) :
    RowsSound p (p.calls later) := by
  obtain ⟨h', hlater⟩ := h.calls later
  exact {
    rows := hlater.records
    hashes := h'.hashes
    ids := h'.ids
    count := h'.recordCount_eq
    known := fun k r hk =>
      have hk' := h.known_later h' hlater hk
      ⟨hk', putRecord_of_known hk'⟩
    writes := h'.writes
    secretsStay := hlater.disclosure
    secretsOnce := h'.secrets.nodup
    secretsCarried := h'.carried
    secretsKept := fun r hr d hd => (h'.secrets.seen _).mp (h'.kept r hr d hd)
    secretOfField := fun hfree r hr d hd => h'.existsUnique_secret hfree hr hd }

/-- Whatever calls are made, rows stay as they are and where they are; their hashes differ, and
so do their identifiers; a key keeps its row; secrets are kept once a key, with the row that
carried them; and a write either appends its row or changes nothing. -/
theorem record_store_invariant (before later : List StoreCall) :
    RowsSound (calls {} before) (calls (calls {} before) later) :=
  (rowInv_empty.calls before).1.rowsSound later

/-- A row that carries one secret. -/
def rowWithSecret (contentHash recordId field : String) : Record where
  json := .obj [("record_id", .str contentHash)]
  contentHash := contentHash
  sessionId := "s"
  parents := []
  disclosures := [⟨recordId, field, "digest", "nonce"⟩]

/-- Two identifiers that hold the separator share a key, and the second secret is lost. -/
theorem secret_of_second_row_lost :
    ¬ ∀ calls : List StoreCall, ∀ r ∈ (Project.calls {} calls).records, ∀ d ∈ r.disclosures,
      ∃ d' ∈ (Project.calls {} calls).disclosure,
        d'.recordId = d.recordId ∧ d'.field = d.field := by
  intro hall
  let first := rowWithSecret "1" "a\x00b" "c"
  let second := rowWithSecret "2" "a" "b\x00c"
  have hlost := hall [.op (.putRecord "" first), .op (.putRecord "" second)] second
    (List.mem_cons_of_mem first List.mem_cons_self) _ List.mem_cons_self
  have hkept : (Project.calls {} [.op (.putRecord "" first),
      .op (.putRecord "" second)]).disclosure = first.disclosures := by
    decide
  rw [hkept] at hlost
  obtain ⟨d', hd', hid, -⟩ := hlost
  rw [List.mem_singleton.mp hd'] at hid
  exact absurd hid (by decide)

end Project

end Averin
