import Averin.Store.Project

/-!
# The numbers of the broker

Every grant of a project gets a number, and the numbers that are held are one through the
largest at any time. Only the largest can be given back, and not once a record, a void or a
fence holds it. Whatever calls are made, in whatever order and however many fail.
-/

namespace Averin

/-- A call to the store of a project. -/
inductive StoreOp where
  | allocateBrokerSeq (grantId : String)
  | releaseBrokerSeq (grantId : String)
  | voidBrokerSeq (grantId : String) (seq : Int)
  | putRecoveryFence (inTx : Bool) (f : RecoveryFence)
  | putRecoveryResult (inTx : Bool) (r : RecoveryResult)
  | putRecord (idemKey : String) (rec : Record)

/-- The project after a call, which is as before when the call fails. -/
def Project.after {ε α : Type} (p : Project) : Except ε (α × Project) → Project
  | .ok (_, p') => p'
  | .error _ => p

namespace Project

/-- The project after an operation, by its kind. -/
def apply (p : Project) : StoreOp → Project
  | .allocateBrokerSeq g => p.after (p.allocateBrokerSeq g)
  | .releaseBrokerSeq g => p.releaseBrokerSeq g
  | .voidBrokerSeq g seq => p.after ((p.voidBrokerSeq g seq).map (((), ·)))
  | .putRecoveryFence inTx f => p.after (p.putRecoveryFence inTx f)
  | .putRecoveryResult inTx r => p.after (p.putRecoveryResult inTx r)
  | .putRecord idemKey rec => p.after (p.putRecord idemKey rec)

/-- The project after a sequence of calls. -/
def run (p : Project) (ops : List StoreOp) : Project := ops.foldl apply p

variable {p p' : Project} {g : String}

@[simp] theorem run_nil : p.run [] = p := rfl

/-- A run goes on from the project after its first operation. -/
@[simp] theorem run_cons (op : StoreOp) (ops : List StoreOp) :
    p.run (op :: ops) = (p.apply op).run ops := rfl

/-- A grant is fenced when a fence names it. -/
@[simp] theorem fenced_eq_true : p.fenced g = true ↔ ∃ s f, p.fences.lookup s = some f ∧
    f.grantId = g := by
  simp only [fenced, List.any_eq_true, Table.mem_values_iff, decide_eq_true_eq]
  constructor
  · rintro ⟨f, ⟨s, hs⟩, rfl⟩
    exact ⟨s, f, hs, rfl⟩
  · rintro ⟨s, f, hs, rfl⟩
    exact ⟨f, ⟨s, hs⟩, rfl⟩

/-- Keeping secrets changes nothing but the secrets. -/
theorem putDisclosures_frame (p : Project) (ds : List DisclosureSecret) :
    ∃ seen disclosure, p.putDisclosures ds =
      { p with discSeen := seen, disclosure := disclosure } := by
  induction ds generalizing p with
  | nil => exact ⟨_, _, rfl⟩
  | cons d ds ih =>
    rw [putDisclosures]
    split_ifs
    · exact ih p
    · obtain ⟨seen, disclosure, heq⟩ := ih { p with
        discSeen := insert (d.recordId ++ "\x00" ++ d.field) p.discSeen,
        disclosure := p.disclosure ++ [d] }
      exact ⟨seen, disclosure, heq⟩

/-- What writing a record changes. -/
structure Recorded (p p' : Project) (rec : Record) (idemKey : String) : Prop where
  free : ∀ s f, p.fences.lookup s = some f → recordIDOf rec.json ≠ "" →
    f.grantId = recordIDOf rec.json → recoveryTombstoneInsert rec.json idemKey f = true
  fresh : recordIDOf rec.json ≠ "" → recordIDOf rec.json ∉ p.byRecordID
  notKnown : p.known idemKey = none
  noTwin : p.twin rec.contentHash = none
  eq : ∃ seen disclosure, p' = { p with
    records := p.records ++ [rec]
    byHash := insert rec.contentHash p.byHash
    byRecordID := if recordIDOf rec.json ≠ "" then insert (recordIDOf rec.json) p.byRecordID
      else p.byRecordID
    idem := if idemKey ≠ "" then p.idem.insert idemKey p.records.length else p.idem
    discSeen := seen
    disclosure := disclosure }

/-- A twin is a record of the same hash. -/
theorem mem_of_twin {hash : String} {r : Record} (h : p.twin hash = some r) :
    r ∈ p.records ∧ r.contentHash = hash := by
  unfold twin at h
  split_ifs at h
  exact ⟨List.mem_of_find?_eq_some h, by simpa using List.find?_some h⟩

/-- A record is let in when no fence of its grant keeps it out. -/
theorem fencedOut_eq_false {idemKey : String} {rec : Record} :
    p.fencedOut idemKey rec = false ↔ (recordIDOf rec.json ≠ "" → ∀ s f,
      p.fences.lookup s = some f → f.grantId = recordIDOf rec.json →
        recoveryTombstoneInsert rec.json idemKey f = true) := by
  rw [← Bool.not_eq_true, fencedOut, Bool.and_eq_true, decide_eq_true_eq, List.any_eq_true]
  constructor
  · intro h hrid s f hf hgrant
    by_contra hno
    refine h ⟨hrid, f, Table.mem_values_iff.mpr ⟨s, hf⟩, ?_⟩
    simpa [hgrant] using hno
  · rintro h ⟨hrid, f, hf, hno⟩
    obtain ⟨s, hs⟩ := Table.mem_values_iff.mp hf
    simp only [Bool.and_eq_true, decide_eq_true_eq, Bool.not_eq_true'] at hno
    rw [h hrid s f hs hno.1] at hno
    cases hno.2

/-- Writing finds a record, or adds the new one. -/
theorem putRecord_cases {idemKey : String} {rec r : Record} {created : Bool}
    (h : p.putRecord idemKey rec = .ok ((r, created), p')) :
    (created = false ∧ p' = p ∧ (p.known idemKey = some r ∨ p.twin rec.contentHash = some r)) ∨
      (created = true ∧ r = rec ∧ p.Recorded p' rec idemKey) := by
  unfold putRecord at h
  split at h
  · next r' hknown =>
    obtain ⟨⟨rfl, rfl⟩, rfl⟩ := by simpa using h
    exact Or.inl ⟨rfl, rfl, Or.inl hknown⟩
  · next hknown =>
    split at h
    · cases h
    · next hfree =>
      split at h
      · next r' htwin =>
        obtain ⟨⟨rfl, rfl⟩, rfl⟩ := by simpa using h
        exact Or.inl ⟨rfl, rfl, Or.inr htwin⟩
      · next htwin =>
        dsimp only at h
        split at h
        · cases h
        · next hfresh =>
          obtain ⟨⟨rfl, rfl⟩, rfl⟩ := by simpa using h
          refine Or.inr ⟨rfl, rfl, ?_, ?_, hknown, htwin, putDisclosures_frame _ rec.disclosures⟩
          · exact fun s f hf hrid => fencedOut_eq_false.mp (by simpa using hfree) hrid s f hf
          · exact fun hrid hin => hfresh ⟨hrid, hin⟩

/-- What a call can change in a project. -/
inductive Change (p : Project) : StoreOp → Project → Prop
  | same (op : StoreOp) : p.Change op p
  | allocated (g : String) (hvoid : g ∉ p.voided) (hfence : p.fenced g = false)
      (hnone : p.brokerSeq.lookup g = none) :
      p.Change (.allocateBrokerSeq g)
        { p with brokerSeq := p.brokerSeq.insert g (p.maxBrokerSeq + 1) }
  | released (g : String) (seq : Int) (hget : p.brokerSeq.lookup g = some seq)
      (hmax : ∀ g' s, p.brokerSeq.lookup g' = some s → s ≤ seq)
      (hvoid : g ∉ p.voided) (hfence : p.fenced g = false) (hheld : g ∉ p.byRecordID) :
      p.Change (.releaseBrokerSeq g) { p with brokerSeq := p.brokerSeq.erase g }
  | voided (g : String) (seq : Int) (hget : p.brokerSeq.lookup g = some seq) :
      p.Change (.voidBrokerSeq g seq) { p with voided := insert g p.voided }
  | fenced (inTx : Bool) (f : RecoveryFence) (hnone : p.fences.lookup f.seq = none)
      (hget : p.brokerSeq.lookup f.grantId = some f.seq)
      (hgrant : ∀ s old, p.fences.lookup s = some old → old.grantId ≠ f.grantId ∧
        old.operationId ≠ f.operationId) :
      p.Change (.putRecoveryFence inTx f) { p with fences := p.fences.insert f.seq f }
  | resulted (inTx : Bool) (r : RecoveryResult) (f : RecoveryFence)
      (hfence : p.fences.lookup r.seq = some f) (hnone : p.results.lookup r.seq = none)
      (houtcome : r.outcome = "recorded" ∨ r.outcome = "voided")
      (hwin : ∃ rec ∈ p.records, rec.contentHash = r.winningRecordHash ∧
        validRecoveryWinner rec.json f r.outcome = true) :
      p.Change (.putRecoveryResult inTx r) { p with results := p.results.insert r.seq r }
  | recorded (p' : Project) (rec : Record) (idemKey : String) (h : p.Recorded p' rec idemKey) :
      p.Change (.putRecord idemKey rec) p'

/-- Allocating finds the number, or draws the one after the last. -/
theorem allocateBrokerSeq_cases {seq : Int} {fresh : Bool}
    (h : p.allocateBrokerSeq g = .ok ((seq, fresh), p')) :
    g ∉ p.voided ∧ p.fenced g = false ∧
      ((p.brokerSeq.lookup g = some seq ∧ fresh = false ∧ p' = p) ∨
        (p.brokerSeq.lookup g = none ∧ fresh = true ∧ seq = p.maxBrokerSeq + 1 ∧
          p' = { p with brokerSeq := p.brokerSeq.insert g (p.maxBrokerSeq + 1) })) := by
  unfold allocateBrokerSeq at h
  split at h
  · cases h
  · next hvoid =>
    split at h
    · cases h
    · next hfence =>
      rw [Bool.not_eq_true] at hfence
      refine ⟨hvoid, hfence, ?_⟩
      split at h
      · next hget =>
        obtain ⟨⟨rfl, rfl⟩, rfl⟩ := by simpa using h
        exact Or.inl ⟨hget, rfl, rfl⟩
      · next hget =>
        obtain ⟨⟨rfl, rfl⟩, rfl⟩ := by simpa using h
        exact Or.inr ⟨hget, rfl, rfl, rfl⟩

/-- Releasing gives back the last number only, and only one that nothing holds. -/
theorem releaseBrokerSeq_cases (p : Project) (g : String) :
    p.releaseBrokerSeq g = p ∨
      ∃ seq, p.brokerSeq.lookup g = some seq ∧
        (∀ g' s, p.brokerSeq.lookup g' = some s → s ≤ seq) ∧ g ∉ p.voided ∧
        p.fenced g = false ∧ g ∉ p.byRecordID ∧
        p.releaseBrokerSeq g = { p with brokerSeq := p.brokerSeq.erase g } := by
  unfold releaseBrokerSeq
  split
  · exact Or.inl rfl
  · next seq hget =>
    split_ifs with hvoid hfence hheld hmax
    · exact Or.inl rfl
    · exact Or.inl rfl
    · exact Or.inl rfl
    · exact Or.inl rfl
    · refine Or.inr ⟨seq, hget, ?_, hvoid, eq_false_of_ne_true hfence, hheld, rfl⟩
      intro g' s hs
      have hle : ∀ v ∈ Table.values p.brokerSeq, v ≤ seq := by simpa using hmax
      exact hle s (Table.mem_values_iff.mpr ⟨g', hs⟩)

/-- A fence is found as it was asked for, or is new. -/
theorem putRecoveryFence_cases {inTx created : Bool} {f r : RecoveryFence}
    (h : p.putRecoveryFence inTx f = .ok ((r, created), p')) :
    (created = false ∧ p' = p ∧ r = f ∧ p.fences.lookup f.seq = some f) ∨
      (created = true ∧ r = f ∧ p.fences.lookup f.seq = none ∧
        p.brokerSeq.lookup f.grantId = some f.seq ∧
        (∀ s old, p.fences.lookup s = some old → old.grantId ≠ f.grantId ∧
          old.operationId ≠ f.operationId) ∧
        p' = { p with fences := p.fences.insert f.seq f }) := by
  unfold putRecoveryFence at h
  split at h
  · cases h
  · split at h
    · next old hold =>
      split at h
      · next heq =>
        subst heq
        obtain ⟨⟨rfl, rfl⟩, rfl⟩ := by simpa using h
        exact Or.inl ⟨rfl, rfl, rfl, hold⟩
      · cases h
    · next hnone =>
      split at h
      · cases h
      · next hany =>
        split at h
        · cases h
        · next hres =>
          obtain ⟨⟨rfl, rfl⟩, rfl⟩ := by simpa using h
          rw [not_or, not_or, not_not] at hres
          refine Or.inr ⟨rfl, rfl, hnone, hres.1, ?_, rfl⟩
          intro s old hold
          rw [Bool.not_eq_true, List.any_eq_false] at hany
          have := hany old (Table.mem_values_iff.mpr ⟨s, hold⟩)
          simpa using this

/-- A result is found as it was asked for, or is new and allowed by its fence. -/
theorem putRecoveryResult_cases {inTx created : Bool} {r r' : RecoveryResult}
    (h : p.putRecoveryResult inTx r = .ok ((r', created), p')) :
    ∃ f, p.fences.lookup r.seq = some f ∧ f.generation = r.generation ∧
      (r.outcome = "recorded" ∨ r.outcome = "voided") ∧
      (∃ rec ∈ p.records, rec.contentHash = r.winningRecordHash ∧
        validRecoveryWinner rec.json f r.outcome = true) ∧
      ((created = false ∧ p' = p ∧ p.results.lookup r.seq = some r' ∧ r'.outcome = r.outcome ∧
          r'.winningRecordHash = r.winningRecordHash) ∨
        (created = true ∧ r' = r ∧ p.results.lookup r.seq = none ∧
          p' = { p with results := p.results.insert r.seq r })) := by
  unfold putRecoveryResult at h
  split at h
  · cases h
  · split at h
    · cases h
    · next f hf =>
      split at h
      · cases h
      · next hvalid =>
        split at h
        · cases h
        · next hwin =>
          rw [not_or, not_or, not_not] at hvalid
          refine ⟨f, hf, hvalid.1, by tauto, ?_, ?_⟩
          · simpa using hwin
          · split at h
            · next old hold =>
              split at h
              · cases h
              · next hsame =>
                rw [not_or, not_not, not_not] at hsame
                obtain ⟨⟨rfl, rfl⟩, rfl⟩ := by simpa using h
                exact Or.inl ⟨rfl, rfl, hold, hsame.1, hsame.2⟩
            · next hnone =>
              obtain ⟨⟨rfl, rfl⟩, rfl⟩ := by simpa using h
              exact Or.inr ⟨rfl, rfl, hnone, rfl⟩

/-- A call makes one of the changes. -/
theorem apply_change (p : Project) (op : StoreOp) : p.Change op (p.apply op) := by
  cases op with
  | allocateBrokerSeq g =>
    rw [apply]
    rcases h : p.allocateBrokerSeq g with e | ⟨⟨seq, fresh⟩, p'⟩
    · exact .same _
    · obtain ⟨hvoid, hfence, ⟨-, -, rfl⟩ | ⟨hnone, -, -, rfl⟩⟩ := allocateBrokerSeq_cases h
      · exact .same _
      · exact .allocated g hvoid hfence hnone
  | releaseBrokerSeq g =>
    rw [apply]
    rcases releaseBrokerSeq_cases p g with h | ⟨seq, hget, hmax, hvoid, hfence, hheld, h⟩
    · rw [h]
      exact .same _
    · rw [h]
      exact .released g seq hget hmax hvoid hfence hheld
  | voidBrokerSeq g seq =>
    rw [apply, voidBrokerSeq]
    split_ifs with h
    · exact .same _
    · exact .voided g seq (not_not.mp h)
  | putRecoveryFence inTx f =>
    rw [apply]
    rcases h : p.putRecoveryFence inTx f with e | ⟨⟨r, created⟩, p'⟩
    · exact .same _
    · obtain ⟨-, rfl, -⟩ | ⟨-, -, hnone, hget, hgrant, rfl⟩ := putRecoveryFence_cases h
      · exact .same _
      · exact .fenced inTx f hnone hget hgrant
  | putRecoveryResult inTx r =>
    rw [apply]
    rcases h : p.putRecoveryResult inTx r with e | ⟨⟨r', created⟩, p'⟩
    · exact .same _
    · obtain ⟨f, hf, -, houtcome, hwin, ⟨-, rfl, -⟩ | ⟨-, -, hnone, rfl⟩⟩ :=
        putRecoveryResult_cases h
      · exact .same _
      · exact .resulted inTx r f hf hnone houtcome hwin
  | putRecord idemKey rec =>
    rw [apply]
    rcases h : p.putRecord idemKey rec with e | ⟨⟨r, created⟩, p'⟩
    · exact .same _
    · obtain ⟨-, rfl, -⟩ | ⟨-, -, hrec⟩ := putRecord_cases h
      · exact .same _
      · exact .recorded p' rec idemKey hrec

/-- The numbers held are one through the largest, one grant each, and what is voided or
fenced has its number. -/
structure SeqInv (p : Project) : Prop where
  range : ∀ n, (∃ g, p.brokerSeq.lookup g = some n) ↔ 1 ≤ n ∧ n ≤ p.maxBrokerSeq
  injective : ∀ g g' n, p.brokerSeq.lookup g = some n → p.brokerSeq.lookup g' = some n → g = g'
  voided : ∀ g ∈ p.voided, ∃ n, p.brokerSeq.lookup g = some n
  fence : ∀ s f, p.fences.lookup s = some f → f.seq = s ∧ p.brokerSeq.lookup f.grantId = some s
  held : ∀ g, g ∈ p.byRecordID ↔ g ≠ "" ∧ ∃ r ∈ p.records, recordIDOf r.json = g

/-- The empty project has no numbers. -/
theorem seqInv_empty : SeqInv {} where
  range n := by
    constructor
    · rintro ⟨g, h⟩
      cases h
    · rintro ⟨h1, h2⟩
      exact absurd (h1.trans h2) (by decide)
  injective g g' n h := by cases h
  voided g h := absurd h (Finset.notMem_empty g)
  fence s f h := by cases h
  held g := by simp

namespace SeqInv

variable (h : SeqInv p)
include h

/-- A number that is held lies between one and the last. -/
theorem pos {n : Int} (hget : p.brokerSeq.lookup g = some n) : 1 ≤ n ∧ n ≤ p.maxBrokerSeq :=
  (h.range n).mp ⟨g, hget⟩

/-- The number after the last is the last. -/
theorem maxBrokerSeq_insert :
    Table.maxValue (p.brokerSeq.insert g (p.maxBrokerSeq + 1)) = p.maxBrokerSeq + 1 := by
  have hnonneg : 0 ≤ p.maxBrokerSeq := Table.maxValue_nonneg _
  apply Table.maxValue_eq_of (by omega)
  · intro k v hk
    rw [Table.lookup_insert_eq] at hk
    split_ifs at hk
    · rw [← Option.some.inj hk]
    · have := (h.pos hk).2
      omega
  · exact Or.inr ⟨g, AList.lookup_insert _⟩

/-- The next number extends the range. -/
theorem allocated (hnone : p.brokerSeq.lookup g = none) :
    SeqInv { p with brokerSeq := p.brokerSeq.insert g (p.maxBrokerSeq + 1) } := by
  have hnonneg : 0 ≤ p.maxBrokerSeq := Table.maxValue_nonneg _
  have hkeep : ∀ g' n, p.brokerSeq.lookup g' = some n →
      (p.brokerSeq.insert g (p.maxBrokerSeq + 1)).lookup g' = some n := by
    intro g' n hn
    rw [Table.lookup_insert_eq, if_neg]
    · exact hn
    · rintro rfl
      rw [hnone] at hn
      cases hn
  constructor
  · intro n
    change (∃ g', (p.brokerSeq.insert g (p.maxBrokerSeq + 1)).lookup g' = some n) ↔
      1 ≤ n ∧ n ≤ Table.maxValue (p.brokerSeq.insert g (p.maxBrokerSeq + 1))
    rw [h.maxBrokerSeq_insert (g := g)]
    constructor
    · rintro ⟨g', hg'⟩
      rw [Table.lookup_insert_eq] at hg'
      split_ifs at hg'
      · have := Option.some.inj hg'
        omega
      · have := h.pos hg'
        omega
    · rintro ⟨h1, h2⟩
      by_cases hn : n = p.maxBrokerSeq + 1
      · exact ⟨g, hn ▸ AList.lookup_insert _⟩
      · obtain ⟨g', hg'⟩ := (h.range n).mpr ⟨h1, by omega⟩
        exact ⟨g', hkeep g' n hg'⟩
  · intro g1 g2 n h1 h2
    simp only [Table.lookup_insert_eq] at h1 h2
    split_ifs at h1 h2 with he1 he2 he2
    · rw [he1, he2]
    · have := (h.pos h2).2
      have := Option.some.inj h1
      omega
    · have := (h.pos h1).2
      have := Option.some.inj h2
      omega
    · exact h.injective g1 g2 n h1 h2
  · intro g' hg'
    obtain ⟨n, hn⟩ := h.voided g' hg'
    exact ⟨n, hkeep g' n hn⟩
  · intro s f hf
    exact ⟨(h.fence s f hf).1, hkeep _ _ (h.fence s f hf).2⟩
  · exact h.held

/-- Without the last number the one before is the last. -/
theorem maxBrokerSeq_erase (hmax : p.brokerSeq.lookup g = some p.maxBrokerSeq) :
    Table.maxValue (p.brokerSeq.erase g) = p.maxBrokerSeq - 1 := by
  have hpos := h.pos hmax
  apply Table.maxValue_eq_of (by omega)
  · intro k v hk
    rw [Table.lookup_erase_eq] at hk
    split_ifs at hk with hkg
    have hle := (h.pos hk).2
    by_contra hlt
    obtain rfl : v = p.maxBrokerSeq := by omega
    exact hkg (h.injective k g _ hk hmax)
  · by_cases hone : p.maxBrokerSeq = 1
    · exact Or.inl (by omega)
    · obtain ⟨g', hg'⟩ := (h.range (p.maxBrokerSeq - 1)).mpr ⟨by omega, by omega⟩
      refine Or.inr ⟨g', ?_⟩
      rw [Table.lookup_erase_eq, if_neg]
      · exact hg'
      · rintro rfl
        rw [hmax] at hg'
        have := Option.some.inj hg'
        omega

/-- The largest number is the last. -/
theorem eq_max {n : Int} (hget : p.brokerSeq.lookup g = some n)
    (hmax : ∀ g' s, p.brokerSeq.lookup g' = some s → s ≤ n) : n = p.maxBrokerSeq := by
  have hpos := h.pos hget
  obtain ⟨g', hg'⟩ := (h.range p.maxBrokerSeq).mpr ⟨by omega, le_refl _⟩
  exact le_antisymm hpos.2 (hmax g' _ hg')

/-- Giving the largest number back shortens the range. -/
theorem released (hmax : p.brokerSeq.lookup g = some p.maxBrokerSeq) (hvoid : g ∉ p.voided)
    (hfence : p.fenced g = false) : SeqInv { p with brokerSeq := p.brokerSeq.erase g } := by
  have hkeep : ∀ g' n, g' ≠ g → p.brokerSeq.lookup g' = some n →
      (p.brokerSeq.erase g).lookup g' = some n := by
    intro g' n hne hn
    rw [Table.lookup_erase_eq, if_neg hne, hn]
  constructor
  · intro n
    change (∃ g', (p.brokerSeq.erase g).lookup g' = some n) ↔
      1 ≤ n ∧ n ≤ Table.maxValue (p.brokerSeq.erase g)
    rw [h.maxBrokerSeq_erase hmax]
    constructor
    · rintro ⟨g', hg'⟩
      rw [Table.lookup_erase_eq] at hg'
      split_ifs at hg' with hne
      have hpos := h.pos hg'
      refine ⟨hpos.1, ?_⟩
      by_contra hlt
      obtain rfl : n = p.maxBrokerSeq := by omega
      exact hne (h.injective g' g _ hg' hmax)
    · rintro ⟨h1, h2⟩
      obtain ⟨g', hg'⟩ := (h.range n).mpr ⟨h1, by omega⟩
      refine ⟨g', hkeep g' n ?_ hg'⟩
      rintro rfl
      rw [hmax] at hg'
      have := Option.some.inj hg'
      omega
  · intro g1 g2 n h1 h2
    simp only [Table.lookup_erase_eq] at h1 h2
    split_ifs at h1 h2
    exact h.injective g1 g2 n h1 h2
  · intro g' hg'
    obtain ⟨n, hn⟩ := h.voided g' hg'
    refine ⟨n, hkeep g' n ?_ hn⟩
    rintro rfl
    exact hvoid hg'
  · intro s f hf
    refine ⟨(h.fence s f hf).1, hkeep _ _ ?_ (h.fence s f hf).2⟩
    rintro rfl
    have : p.fenced f.grantId = true := fenced_eq_true.mpr ⟨s, f, hf, rfl⟩
    rw [hfence] at this
    cases this
  · exact h.held

/-- Every call keeps the invariant. -/
theorem change {op : StoreOp} (hc : p.Change op p') : SeqInv p' := by
  cases hc with
  | same op => exact h
  | allocated g hvoid hfence hnone => exact h.allocated hnone
  | released g seq hget hmax hvoid hfence hheld =>
    rw [h.eq_max hget hmax] at hget
    exact h.released hget hvoid hfence
  | voided g seq hget =>
    refine ⟨h.range, h.injective, ?_, h.fence, h.held⟩
    intro g' hg'
    rcases Finset.mem_insert.mp hg' with rfl | hg'
    · exact ⟨seq, hget⟩
    · exact h.voided g' hg'
  | fenced inTx f hnone hget hgrant =>
    refine ⟨h.range, h.injective, h.voided, ?_, h.held⟩
    intro s f' hf'
    rw [Table.lookup_insert_eq] at hf'
    split_ifs at hf' with hs
    · rw [← Option.some.inj hf', hs]
      exact ⟨rfl, hget⟩
    · exact h.fence s f' hf'
  | resulted inTx r f hfence hnone houtcome hwin =>
    exact ⟨h.range, h.injective, h.voided, h.fence, h.held⟩
  | recorded _ rec idemKey hrec =>
    obtain ⟨seen, disclosure, rfl⟩ := hrec.eq
    refine ⟨h.range, h.injective, h.voided, h.fence, ?_⟩
    intro g
    have hheld := h.held g
    by_cases hrid : recordIDOf rec.json = ""
    · simp only [hrid, ne_eq, not_true_eq_false, if_false, List.mem_append, List.mem_singleton]
      rw [hheld]
      constructor
      · rintro ⟨hne, r, hr, hg⟩
        exact ⟨hne, r, Or.inl hr, hg⟩
      · rintro ⟨hne, r, hr | rfl, hg⟩
        · exact ⟨hne, r, hr, hg⟩
        · exact absurd (hg.symm.trans hrid) hne
    · simp only [hrid, ne_eq, not_false_eq_true, if_true, Finset.mem_insert, List.mem_append,
        List.mem_singleton]
      rw [hheld]
      constructor
      · rintro (rfl | ⟨hne, r, hr, hg⟩)
        · exact ⟨hrid, rec, Or.inr rfl, rfl⟩
        · exact ⟨hne, r, Or.inl hr, hg⟩
      · rintro ⟨hne, r, hr | rfl, hg⟩
        · exact Or.inr ⟨hne, r, hr, hg⟩
        · exact Or.inl hg.symm

/-- The invariant holds over every run. -/
theorem run (ops : List StoreOp) : SeqInv (p.run ops) := by
  induction ops generalizing p with
  | nil => exact h
  | cons op ops ih => exact ih (h.change (apply_change p op))

end SeqInv

/-- A stored record carries the grant. A record without an identifier carries none. -/
def HeldByRecord (p : Project) (g : String) : Prop :=
  g ≠ "" ∧ ∃ r ∈ p.records, recordIDOf r.json = g

/-- The grant can never be issued again. -/
def Retired (p : Project) (g : String) : Prop := g ∈ p.voided ∨ p.fenced g = true

/-- Only a release takes a number away, and only when nothing holds it. -/
theorem Change.lookup_eq_or {op : StoreOp} (hc : p.Change op p') {n : Int}
    (hget : p.brokerSeq.lookup g = some n) :
    p'.brokerSeq.lookup g = some n ∨
      (op = .releaseBrokerSeq g ∧ p'.brokerSeq.lookup g = none ∧ g ∉ p.byRecordID ∧
        ¬ p.Retired g) := by
  cases hc with
  | same op => exact Or.inl hget
  | allocated g' hvoid hfence hnone =>
    left
    change (p.brokerSeq.insert g' _).lookup g = some n
    rw [Table.lookup_insert_eq, if_neg]
    · exact hget
    · rintro rfl
      rw [hnone] at hget
      cases hget
  | released g' seq hget' hmax hvoid hfence hheld =>
    by_cases hg : g = g'
    · subst hg
      refine Or.inr ⟨rfl, AList.lookup_erase g _, hheld, ?_⟩
      rintro (h | h)
      · exact hvoid h
      · rw [hfence] at h
        cases h
    · exact Or.inl ((AList.lookup_erase_ne hg).trans hget)
  | voided g' seq hget' => exact Or.inl hget
  | fenced inTx f hnone hget' hgrant => exact Or.inl hget
  | resulted inTx r f hfence hnone houtcome hwin => exact Or.inl hget
  | recorded _ rec idemKey hrec =>
    obtain ⟨seen, disclosure, rfl⟩ := hrec.eq
    exact Or.inl hget

/-- A retired number stays retired. -/
theorem Change.retired {op : StoreOp} (hc : p.Change op p') (h : p.Retired g) : p'.Retired g := by
  cases hc with
  | same op => exact h
  | allocated g' hvoid hfence hnone => exact h
  | released g' seq hget' hmax hvoid hfence hheld => exact h
  | voided g' seq hget' =>
    rcases h with h | h
    · exact Or.inl (Finset.mem_insert_of_mem h)
    · exact Or.inr h
  | fenced inTx f hnone hget' hgrant =>
    rcases h with h | h
    · exact Or.inl h
    · obtain ⟨s, f', hf', hg⟩ := fenced_eq_true.mp h
      refine Or.inr (fenced_eq_true.mpr ⟨s, f', ?_, hg⟩)
      change (p.fences.insert f.seq f).lookup s = some f'
      rw [Table.lookup_insert_eq, if_neg]
      · exact hf'
      · rintro rfl
        rw [hnone] at hf'
        cases hf'
  | resulted inTx r f hfence hnone houtcome hwin => exact h
  | recorded _ rec idemKey hrec =>
    obtain ⟨seen, disclosure, rfl⟩ := hrec.eq
    exact h

/-- No identifier is forgotten. -/
theorem Change.byRecordID_subset {op : StoreOp} (hc : p.Change op p') :
    p.byRecordID ⊆ p'.byRecordID := by
  cases hc with
  | recorded _ rec idemKey hrec =>
    obtain ⟨seen, disclosure, rfl⟩ := hrec.eq
    intro g hg
    change g ∈ if recordIDOf rec.json ≠ "" then insert (recordIDOf rec.json) p.byRecordID
      else p.byRecordID
    split_ifs
    · exact Finset.mem_insert_of_mem hg
    · exact hg
  | _ => exact Finset.Subset.refl _

/-- What a record, a void or a fence holds stays held, with its number. -/
theorem run_kept {n : Int} (hget : p.brokerSeq.lookup g = some n)
    (hkept : g ∈ p.byRecordID ∨ p.Retired g) (ops : List StoreOp) :
    (p.run ops).brokerSeq.lookup g = some n := by
  induction ops generalizing p with
  | nil => exact hget
  | cons op ops ih =>
    have hc := apply_change p op
    refine ih ?_ (hkept.imp (fun h => hc.byRecordID_subset h) hc.retired)
    rcases hc.lookup_eq_or hget with h | ⟨-, -, hheld, hretired⟩
    · exact h
    · rcases hkept with h | h
      · exact absurd h hheld
      · exact absurd h hretired

theorem run_retired (h : p.Retired g) (ops : List StoreOp) : (p.run ops).Retired g := by
  induction ops generalizing p with
  | nil => exact h
  | cons op ops ih => exact ih ((apply_change p op).retired h)

/-- No release in a run takes the grant's number away. -/
def NotReleased (p : Project) (g : String) (ops : List StoreOp) : Prop :=
  ∀ before rest, ops = before ++ .releaseBrokerSeq g :: rest →
    ((p.run before).releaseBrokerSeq g).brokerSeq.lookup g ≠ none

/-- A number that is not released stays with its grant. -/
theorem run_lookup_of_notReleased {n : Int} (hget : p.brokerSeq.lookup g = some n)
    {ops : List StoreOp} (h : p.NotReleased g ops) : (p.run ops).brokerSeq.lookup g = some n := by
  induction ops generalizing p with
  | nil => exact hget
  | cons op ops ih =>
    refine ih ?_ ?_
    · rcases (apply_change p op).lookup_eq_or hget with hkeep | ⟨rfl, hgone, -⟩
      · exact hkeep
      · exact absurd hgone (h [] ops rfl)
    · intro before rest hsplit
      exact h (op :: before) rest (by rw [hsplit, List.cons_append])

/-- What an allocation answers is what the grant holds from then on. -/
theorem holds_of_allocateBrokerSeq {seq : Int} {fresh : Bool}
    (h : p.allocateBrokerSeq g = .ok ((seq, fresh), p')) :
    p'.brokerSeq.lookup g = some seq ∧ (fresh = true ↔ p.brokerSeq.lookup g = none) ∧
      (fresh = true → seq = p.maxBrokerSeq + 1) ∧ (fresh = false → p' = p) ∧
      ∀ g', g' ≠ g → p'.brokerSeq.lookup g' = p.brokerSeq.lookup g' := by
  obtain ⟨-, -, ⟨hget, rfl, rfl⟩ | ⟨hnone, rfl, rfl, rfl⟩⟩ := allocateBrokerSeq_cases h
  · refine ⟨hget, ?_, ?_, fun _ => rfl, fun _ _ => rfl⟩
    · simp [hget]
    · intro hfresh
      cases hfresh
  · refine ⟨AList.lookup_insert _, by simp [hnone], fun _ => rfl, ?_, fun g' hne => ?_⟩
    · intro hfresh
      cases hfresh
    · exact AList.lookup_insert_ne hne

/-- Only a retired grant is refused. -/
theorem allocateBrokerSeq_isOk (h : ¬ p.Retired g) :
    ∃ seq fresh p', p.allocateBrokerSeq g = .ok ((seq, fresh), p') := by
  rw [Retired, not_or] at h
  rw [allocateBrokerSeq, if_neg h.1, if_neg h.2]
  cases p.brokerSeq.lookup g with
  | some seq => exact ⟨_, _, _, rfl⟩
  | none => exact ⟨_, _, _, rfl⟩

/-- A grant that holds a number is answered with it. -/
theorem allocateBrokerSeq_of_lookup {n : Int} (hget : p.brokerSeq.lookup g = some n)
    (h : ¬ p.Retired g) : p.allocateBrokerSeq g = .ok ((n, false), p) := by
  rw [Retired, not_or] at h
  rw [allocateBrokerSeq, if_neg h.1, if_neg h.2, hget]

/-- A retired grant is refused. -/
theorem allocateBrokerSeq_of_retired (h : p.Retired g) :
    p.allocateBrokerSeq g = .error .brokerSeqVoided ∨
      p.allocateBrokerSeq g = .error .recoveryFenced := by
  unfold allocateBrokerSeq
  by_cases hvoid : g ∈ p.voided
  · exact Or.inl (if_pos hvoid)
  · rcases h with h | h
    · exact absurd h hvoid
    · exact Or.inr (by rw [if_neg hvoid, if_pos h])

end Project

/-- The numbers of the broker over any calls. In every project that calls lead to, the numbers
held are one through the largest, each held by one grant. A grant that is not retired is answered
with a number, which it holds from then on: the one it has, or else the next after the largest. It
is given the same number again until a release takes it away, unless it is retired. A number whose
grant is carried by a stored record, voided or fenced is never taken away and never given to another
grant; a voided or fenced grant is never given a number again; and a release changes nothing
unless it frees the largest number. -/
theorem broker_seq_allocation (ops : List StoreOp) :
    let p := Project.run {} ops
    (∀ n, (∃ g, p.brokerSeq.lookup g = some n) ↔ 1 ≤ n ∧ n ≤ p.maxBrokerSeq) ∧
    (∀ g g' n, p.brokerSeq.lookup g = some n → p.brokerSeq.lookup g' = some n → g = g') ∧
    (∀ g, ¬ p.Retired g → ∃ seq fresh p', p.allocateBrokerSeq g = .ok ((seq, fresh), p')) ∧
    (∀ g seq fresh p', p.allocateBrokerSeq g = .ok ((seq, fresh), p') →
      p'.brokerSeq.lookup g = some seq ∧ (fresh = true ↔ p.brokerSeq.lookup g = none) ∧
      (fresh = true → seq = p.maxBrokerSeq + 1) ∧ (fresh = false → p' = p) ∧
      (∀ g', g' ≠ g → p'.brokerSeq.lookup g' = p.brokerSeq.lookup g') ∧
      ∀ later, p'.NotReleased g later → (p'.run later).Retired g ∨
        (p'.run later).allocateBrokerSeq g = .ok ((seq, false), p'.run later)) ∧
    (∀ g n, p.brokerSeq.lookup g = some n → p.HeldByRecord g ∨ p.Retired g →
      ∀ later, (p.run later).brokerSeq.lookup g = some n ∧
        ∀ g' seq fresh p', (p.run later).allocateBrokerSeq g' = .ok ((seq, fresh), p') →
          g' ≠ g → seq ≠ n) ∧
    (∀ g, p.Retired g → ∀ later,
      (p.run later).allocateBrokerSeq g = .error .brokerSeqVoided ∨
        (p.run later).allocateBrokerSeq g = .error .recoveryFenced) ∧
    ∀ g, p.releaseBrokerSeq g = p ∨
      (p.brokerSeq.lookup g = some p.maxBrokerSeq ∧
        p.releaseBrokerSeq g = { p with brokerSeq := p.brokerSeq.erase g } ∧
        (p.releaseBrokerSeq g).maxBrokerSeq = p.maxBrokerSeq - 1) := by
  intro p
  have hinv : p.SeqInv := Project.seqInv_empty.run ops
  refine ⟨hinv.range, hinv.injective, ?_, ?_, ?_, ?_, ?_⟩
  · intro g hretired
    exact Project.allocateBrokerSeq_isOk hretired
  · intro g seq fresh p' halloc
    obtain ⟨hget, hfresh, hnext, hsame, hothers⟩ := Project.holds_of_allocateBrokerSeq halloc
    refine ⟨hget, hfresh, hnext, hsame, hothers, fun later hkeep => ?_⟩
    by_cases hretired : (p'.run later).Retired g
    · exact Or.inl hretired
    · refine Or.inr (Project.allocateBrokerSeq_of_lookup ?_ hretired)
      exact Project.run_lookup_of_notReleased hget hkeep
  · intro g n hget hkept later
    have hkept' : g ∈ p.byRecordID ∨ p.Retired g := hkept.imp_left (hinv.held g).mpr
    have hlater := Project.run_kept hget hkept' later
    refine ⟨hlater, ?_⟩
    rintro g' seq fresh p' halloc hne rfl
    have hinv' := hinv.run later
    obtain ⟨-, -, ⟨hget', -⟩ | ⟨-, -, hseq, -⟩⟩ := Project.allocateBrokerSeq_cases halloc
    · exact hne (hinv'.injective g' g _ hget' hlater)
    · have := (hinv'.pos hlater).2
      omega
  · intro g hretired later
    exact Project.allocateBrokerSeq_of_retired (Project.run_retired hretired later)
  · intro g
    rcases Project.releaseBrokerSeq_cases p g with h | ⟨seq, hget, hmax, -, -, -, h⟩
    · exact Or.inl h
    · rw [hinv.eq_max hget hmax] at hget
      refine Or.inr ⟨hget, h, ?_⟩
      rw [h]
      exact hinv.maxBrokerSeq_erase hget

/-- Two grants are numbered and the first is voided. -/
def twoNumbered : List StoreOp :=
  [.allocateBrokerSeq "a", .allocateBrokerSeq "b", .voidBrokerSeq "a" 1]

/-- The second keeps its number, the first gets none any more, and the next one is three. -/
theorem broker_seq_allocation_twoNumbered :
    let p := Project.run {} twoNumbered
    p.allocateBrokerSeq "b" = .ok ((2, false), p) ∧
      (∀ later, (p.run later).allocateBrokerSeq "a" = .error .brokerSeqVoided ∨
        (p.run later).allocateBrokerSeq "a" = .error .recoveryFenced) ∧
      ∃ p', p.allocateBrokerSeq "c" = .ok ((3, true), p') ∧ p'.brokerSeq.lookup "c" = some 3 := by
  intro p
  have hfree : ∀ g ∈ ["b", "c"], ¬ p.Retired g := by
    simp only [List.forall_mem_cons, Project.Retired]
    decide
  have hb : p.brokerSeq.lookup "b" = some 2 := by decide
  have hc : p.brokerSeq.lookup "c" = none := by decide
  have hmax : p.maxBrokerSeq = 2 := by decide
  have hvoided : p.Retired "a" := Or.inl (by decide)
  obtain ⟨-, -, hanswered, hholds, -, hretired, -⟩ := broker_seq_allocation twoNumbered
  refine ⟨?_, hretired "a" hvoided, ?_⟩
  · obtain ⟨seq, fresh, p', halloc⟩ := hanswered "b" (hfree "b" (by simp))
    obtain ⟨hget, hfresh, -, hsame, -⟩ := hholds "b" seq fresh p' halloc
    have hold : fresh = false := by
      rw [Bool.eq_false_iff, Ne, hfresh]
      exact fun hnone => absurd (hb.symm.trans hnone) (by simp)
    obtain rfl := hsame hold
    obtain rfl := Option.some.inj (hb.symm.trans hget)
    rw [halloc, hold]
  · obtain ⟨seq, fresh, p', halloc⟩ := hanswered "c" (hfree "c" (by simp))
    obtain ⟨hget, hfresh, hnext, -⟩ := hholds "c" seq fresh p' halloc
    have hnew := hfresh.mpr hc
    obtain rfl : seq = 3 := by
      rw [hnext hnew]
      exact congrArg (· + 1) hmax
    exact ⟨p', by rw [halloc, hnew], hget⟩

end Averin
