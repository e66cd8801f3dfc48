import Averin.Core.Attempt
import Averin.Server.Sealing
import Averin.Store.Records

/-!
# Transactions that count their rows

The store of a write transaction: a private copy of the project, with the limit of rows and what
was counted so far. A row is written first and counted afterwards; one too many is reported to
the callback, and the mark of the request is set. Any call to the store may fail for reasons of
its own.
-/

namespace Averin

/-- The store as a callback sees it. `outage` says which of its calls fail. -/
structure CountedStore where
  project : Project
  max : Nat
  outage : Nat → Bool
  calls : Nat := 0
  created : Int := 0
  base : Option Int := none
  hit : Bool := false

/-- Why a callback ends without a commit. One that has decided its answer all the same carries
it. -/
inductive TxError (ρ : Type) where
  | quota
  | store (e : StoreError)
  | unavailable
  | sealing
  | callback
  | decided (reply : ρ)

/-- A callback of a write transaction. -/
abbrev Callback (ρ α : Type) := Attempt CountedStore (TxError ρ) α

namespace CountedStore

variable {ρ α β : Type}

/-- Count a call to the store, which may fail. -/
def reach : Callback ρ Unit := do
  let s ← get
  set { s with calls := s.calls + 1 }
  if s.outage s.calls then throw .unavailable

/-- A call that reads. -/
def read (f : Project → α) : Callback ρ α := do
  reach
  return f (← get).project

/-- A call that writes, which changes nothing where the store refuses it. -/
def write (f : Project → Except StoreError (α × Project)) : Callback ρ α := do
  reach
  let s ← get
  match f s.project with
  | .error e => throw (.store e)
  | .ok (a, p) =>
    set { s with project := p }
    return a

/-- The number of rows before the transaction, read once after its first row. -/
def baseCount : Callback ρ Int := do
  match (← get).base with
  | some base => return base
  | none =>
    let n ← read Project.recordCount
    modify fun s => { s with base := some ((n : Int) - 1) }
    return (n : Int) - 1

/-- Count a new row. The one that goes past the limit is reported. -/
def countRow : Callback ρ Unit := do
  modify fun s => { s with created := s.created + 1 }
  if (← get).max ≠ 0 then
    let base ← baseCount
    let s ← get
    if base + s.created > s.max then
      set { s with hit := true }
      throw .quota

/-- Write a row and count it, if it is a new one. -/
def putRecord (idemKey : String) (rec : Record) : Callback ρ (Record × Bool) := do
  let (stored, created) ← write (·.putRecord idemKey rec)
  if created then countRow
  return (stored, created)

/-- Seal a body and write it. The number to display is read before the heads of the session. -/
def sealAndStore (S : Sealer) (sessionId idem : String) (body : CanonValue)
    (disclosures : List DisclosureSecret) : Callback ρ (CanonValue × Bool) := do
  reach
  match ← read (S.sealRecord · sessionId body) with
  | none => throw .sealing
  | some sealed =>
    let (stored, created) ← putRecord idem (sealedRecord sealed disclosures)
    return (stored.json, created)

variable {n : Nat} {p : Project} {answer : Option Record}

/-- What was written and counted since the transaction began with a project. -/
structure Tally (n : Nat) (p : Project) (s : CountedStore) : Prop where
  limit : s.max = n
  rows : s.project.RowInv
  later : p.RowsLater s.project
  count : (s.project.records.length : Int) = p.records.length + s.created
  base : ∀ b, s.base = some b → b = p.records.length
  unmarked : s.hit = false

/-- No row went past the limit. -/
structure Counting (n : Nat) (p : Project) (s : CountedStore) : Prop extends Tally n p s where
  counted : n ≠ 0 → s.base = none → s.created = 0
  within : n ≠ 0 → p.records.length ≤ n → s.project.records.length ≤ n

/-- No row was written yet. -/
structure Untouched (n : Nat) (p : Project) (s : CountedStore) : Prop extends Counting n p s where
  same : s.project.rowTable = p.rowTable

/-- What holds where a callback fails. The limit is reported only if the project would go past it,
and only where no row answers the request; a conflict of identifiers leaves everything counted. -/
def Failed (n : Nat) (p : Project) (answer : Option Record) (ok : ρ → Prop) :
    TxError ρ → CountedStore → Prop
  | .quota, s => s.hit = true ∧ (n : Int) < p.records.length + s.created ∧ answer = none
  | .store (.recordIDConflict _), s => Counting n p s
  | .decided r, s => s.hit = false ∧ ok r
  | _, s => s.hit = false

section Specs

variable {ok : ρ → Prop} {P : CountedStore → Prop}

theorem Tally.reached {s : CountedStore} (h : Tally n p s) (k : Nat) :
    Tally n p { s with calls := k } :=
  ⟨h.limit, h.rows, h.later, h.count, h.base, h.unmarked⟩

theorem Counting.reached {s : CountedStore} (h : Counting n p s) (k : Nat) :
    Counting n p { s with calls := k } :=
  ⟨h.toTally.reached k, h.counted, h.within⟩

theorem Untouched.reached {s : CountedStore} (h : Untouched n p s) (k : Nat) :
    Untouched n p { s with calls := k } :=
  ⟨h.toCounting.reached k, h.same⟩

/-- What a state does not say about how often the store was called. -/
def Steady (P : CountedStore → Prop) : Prop := ∀ s k, P s → P { s with calls := k }

/-- A call keeps what does not depend on the calls. -/
theorem reach_spec (hsteady : Steady P) (hmark : ∀ s, P s → s.hit = false) :
    Attempt.Triple P reach (fun _ => P) (Failed n p answer ok) := by
  intro s hs
  unfold reach
  rw [Attempt.exec_bind, Attempt.exec_get]
  dsimp only
  rw [Attempt.exec_bind, Attempt.exec_set]
  dsimp only
  split_ifs
  · exact hmark s hs
  · exact hsteady s _ hs

theorem read_spec {f : Project → α} (hsteady : Steady P) (hmark : ∀ s, P s → s.hit = false) :
    Attempt.Triple P (read f) (fun a s => a = f s.project ∧ P s) (Failed n p answer ok) := by
  unfold read
  apply Attempt.Triple.bind (reach_spec hsteady hmark)
  intro _ s hs
  exact ⟨rfl, hs⟩

/-- A refused write leaves everything counted. -/
theorem failed_store {s : CountedStore} (h : Counting n p s) (e : StoreError) :
    Failed n p answer ok (.store e) s := by
  cases e with
  | recordIDConflict => exact h
  | _ => exact h.unmarked

/-- A write leaves what it wrote. -/
theorem write_spec {f : Project → Except StoreError (α × Project)} {Q : α → CountedStore → Prop}
    (hsteady : Steady P) (hcount : ∀ s, P s → Counting n p s)
    (hQ : ∀ s a q, P s → f s.project = .ok (a, q) → Q a { s with project := q }) :
    Attempt.Triple P (write f) Q (Failed n p answer ok) := by
  unfold write
  apply Attempt.Triple.bind (reach_spec hsteady fun s hs => (hcount s hs).unmarked)
  intro _ s hs
  rw [Attempt.exec_bind, Attempt.exec_get]
  dsimp only
  rcases hf : f s.project with e | ⟨a, q⟩
  · exact failed_store (hcount s hs) e
  · exact hQ s a q hs hf

/-- The rows are counted, and the limit is not looked at yet. -/
def Uncapped (n : Nat) (p : Project) (s : CountedStore) : Prop :=
  Tally n p s ∧ (n ≠ 0 → s.base = none → s.created = 1)

/-- The rows before the first one are those the transaction began with. -/
theorem baseCount_spec (hn : n ≠ 0) :
    Attempt.Triple (Uncapped n p) baseCount
      (fun b s => b = p.records.length ∧ s.base = some b ∧ Tally n p s)
      (Failed (ρ := ρ) n p answer ok) := by
  intro s hs
  obtain ⟨htally, hfirst⟩ := hs
  unfold baseCount
  rw [Attempt.exec_bind, Attempt.exec_get]
  dsimp only
  rcases hbase : s.base with _ | b
  · have hread :
        Attempt.Triple (fun t => t = { s with calls := t.calls }) (read Project.recordCount)
        (fun a t => a = t.project.recordCount ∧ t = { s with calls := t.calls })
        (Failed (ρ := ρ) n p answer ok) := by
      apply read_spec
      · rintro t k ht
        rw [ht]
      · intro t ht
        rw [ht]
        exact htally.unmarked
    refine Attempt.Triple.bind hread ?_ s rfl
    rintro m t ⟨rfl, ht⟩
    have hcount : ((t.project.recordCount : Nat) : Int) - 1 = p.records.length := by
      have hrows := htally.rows.recordCount_eq
      have hall := htally.count
      have hone := hfirst hn hbase
      rw [ht]
      dsimp only
      omega
    refine ⟨hcount, rfl, ?_⟩
    rw [ht]
    refine ⟨htally.limit, htally.rows, htally.later, htally.count, ?_, htally.unmarked⟩
    intro b hb
    rw [← hcount, ht]
    exact (Option.some.inj hb).symm
  · exact ⟨htally.base b hbase, hbase, htally⟩

/-- A row that is counted is within the limit. -/
theorem countRow_spec :
    Attempt.Triple (fun s => Uncapped n p { s with created := s.created + 1 }) countRow
      (fun _ => Counting n p) (Failed (ρ := ρ) n p none ok) := by
  intro s hs
  unfold countRow
  rw [Attempt.exec_bind, Attempt.exec_modify]
  dsimp only
  rw [Attempt.exec_bind, Attempt.exec_get]
  dsimp only
  split_ifs with hmax
  · have hn : n ≠ 0 := hs.1.limit ▸ hmax
    refine Attempt.Triple.bind (baseCount_spec hn) ?_ _ hs
    rintro b t ⟨hb, hbase, htally⟩
    rw [Attempt.exec_bind, Attempt.exec_get]
    dsimp only
    split_ifs with hover
    · refine ⟨rfl, ?_, rfl⟩
      rw [hb, htally.limit] at hover
      exact hover
    · refine ⟨htally, ?_, ?_⟩
      · intro _ hnone
        rw [hbase] at hnone
        cases hnone
      · intro _ _
        have hall := htally.count
        rw [hb, htally.limit] at hover
        omega
  · have hn : n = 0 := by
      rw [← hs.1.limit]
      exact not_not.mp hmax
    exact ⟨hs.1, fun h => absurd hn h, fun h => absurd hn h⟩

/-- A row is written and counted, or it is there already. Only a row whose key is free is
refused. -/
theorem putRecord_spec (hsteady : Steady P) (hcount : ∀ s, P s → Counting n p s) {idemKey : String}
    (rec : Record) (hp : p.RowInv) (hfree : p.known idemKey = none → answer = none) :
    Attempt.Triple P (putRecord idemKey rec)
      (fun a s => (a.2 = true ∧ Counting n p s) ∨ (a.2 = false ∧ P s ∧ a.1 ∈ s.project.records))
      (Failed (ρ := ρ) n p answer ok) := by
  have hwrite : Attempt.Triple P (write (·.putRecord idemKey rec))
      (fun a s => (a.2 = true ∧ answer = none ∧
          Uncapped n p { s with created := s.created + 1 }) ∨
        (a.2 = false ∧ P s ∧ a.1 ∈ s.project.records))
      (Failed (ρ := ρ) n p answer ok) := by
    apply write_spec hsteady hcount
    rintro s ⟨r, created⟩ q hs hput
    have hc := hcount s hs
    have hw := hc.rows.writes idemKey rec
    unfold Project.Writes at hw
    rw [hput] at hw
    cases created with
    | false =>
      obtain ⟨rfl, hin⟩ := hw
      exact Or.inr ⟨rfl, hs, hin⟩
    | true =>
      obtain ⟨-, hrecords, -⟩ := hw
      have hcall := hc.rows.call (.op (.putRecord idemKey rec))
      have hq : s.project.call (.op (.putRecord idemKey rec)) = q := Project.call_putRecord hput
      rw [hq] at hcall
      have hnone : p.known idemKey = none := by
        obtain ⟨h, -⟩ | ⟨-, -, hrecorded⟩ := Project.putRecord_cases hput
        · cases h
        · by_contra hsome
          obtain ⟨r', hr'⟩ := Option.ne_none_iff_exists'.mp hsome
          have hknown := hp.known_later hc.rows hc.later hr'
          rw [hrecorded.notKnown] at hknown
          cases hknown
      refine Or.inl ⟨rfl, hfree hnone,
        ⟨hc.limit, hcall.1, hc.later.trans hcall.2, ?_, hc.base, hc.unmarked⟩, ?_⟩
      · have hall := hc.count
        dsimp only
        rw [hrecords, List.length_append, List.length_singleton]
        push_cast
        omega
      · intro hn hnone
        dsimp only
        rw [hc.counted hn hnone]
        rfl
  unfold putRecord
  apply Attempt.Triple.bind hwrite
  rintro ⟨stored, created⟩
  cases created with
  | true =>
    rintro s (⟨-, rfl, hs⟩ | ⟨h, -⟩)
    · refine Attempt.Triple.bind countRow_spec (fun _ => Attempt.Triple.pure ?_) s hs
      exact fun s hs => Or.inl ⟨rfl, hs⟩
    · cases h
  | false =>
    apply Attempt.Triple.pure
    rintro s (⟨h, -⟩ | h)
    · cases h
    · exact Or.inr h

theorem untouched_steady : Steady (Untouched n p) := fun _ k h => h.reached k

theorem counting_steady : Steady (Counting n p) := fun _ k h => h.reached k

/-- An untouched store has the records it began with. -/
theorem Untouched.records {s : CountedStore} (h : Untouched n p s) :
    s.project.records = p.records :=
  congrArg Prod.fst h.same

/-- A sealed body is stored and counted, or a row that was there answers. -/
theorem sealAndStore_spec (S : Sealer) (sessionId : String) {idem : String} (body : CanonValue)
    (disclosures : List DisclosureSecret) (hp : p.RowInv)
    (hfree : p.known idem = none → answer = none) :
    Attempt.Triple (Untouched n p) (sealAndStore S sessionId idem body disclosures)
      (fun a s => (a.2 = true ∧ Counting n p s) ∨
        (a.2 = false ∧ Untouched n p s ∧ ∃ r ∈ p.records, r.json = a.1))
      (Failed (ρ := ρ) n p answer ok) := by
  unfold sealAndStore
  apply Attempt.Triple.bind (reach_spec untouched_steady fun s hs => hs.unmarked)
  intro _
  apply Attempt.Triple.bind (read_spec untouched_steady fun s hs => hs.unmarked)
  rintro (_ | sealed)
  · exact Attempt.Triple.throw fun s hs => hs.2.unmarked
  · refine Attempt.Triple.bind (Attempt.Triple.weaken
      (putRecord_spec untouched_steady (fun s hs => hs.toCounting) _ hp hfree) (fun s hs => hs.2)
      (fun _ _ h => h) (fun _ _ h => h)) ?_
    rintro ⟨stored, created⟩ s (⟨rfl, hs⟩ | ⟨rfl, hs, hin⟩)
    · exact Or.inl ⟨rfl, hs⟩
    · exact Or.inr ⟨rfl, hs, stored, hs.records ▸ hin, rfl⟩

/-- An operation that writes no row. -/
def LeavesRows (f : Project → Except StoreError (α × Project)) : Prop :=
  ∀ q a q', f q = .ok (a, q') → q'.rowTable = q.rowTable

/-- A write that leaves the rows leaves the count. -/
theorem Counting.written {s : CountedStore} {q : Project} (h : Counting n p s)
    (hq : q.rowTable = s.project.rowTable) : Counting n p { s with project := q } := by
  obtain ⟨hrows, hlater⟩ := h.rows.of_rowTable hq
  have hrecords : q.records = s.project.records := congrArg Prod.fst hq
  refine ⟨⟨h.limit, hrows, h.later.trans hlater, ?_, h.base, h.unmarked⟩, h.counted, ?_⟩
  · dsimp only
    rw [hrecords]
    exact h.count
  · dsimp only
    rw [hrecords]
    exact h.within

theorem write_counting {f : Project → Except StoreError (α × Project)} (hf : LeavesRows f) :
    Attempt.Triple (Counting n p) (write f) (fun _ => Counting n p)
      (Failed (ρ := ρ) n p answer ok) :=
  write_spec counting_steady (fun _ h => h) fun s a q hs hq => hs.written (hf s.project a q hq)

theorem write_untouched {f : Project → Except StoreError (α × Project)} (hf : LeavesRows f) :
    Attempt.Triple (Untouched n p) (write f) (fun _ => Untouched n p)
      (Failed (ρ := ρ) n p answer ok) :=
  write_spec untouched_steady (fun _ h => h.toCounting) fun s a q hs hq =>
    ⟨hs.toCounting.written (hf s.project a q hq), (hf s.project a q hq).trans hs.same⟩

end Specs

/-- An operation that is one of the calls leaves the rows alone, unless it is the one that writes
them. -/
theorem leavesRows_of_call {f : Project → Except StoreError (α × Project)} (c : StoreCall)
    (hf : ∀ q : Project, q.after (f q) = q.call c)
    (hc : ∀ idemKey rec, c ≠ .op (.putRecord idemKey rec)) :
    LeavesRows f := by
  intro q a q' hq
  have hafter := hf q
  rw [hq] at hafter
  rw [show q' = q.call c from hafter]
  exact Project.rowTable_call c hc

theorem leavesRows_allocateBrokerSeq (grantId : String) :
    LeavesRows (·.allocateBrokerSeq grantId) :=
  leavesRows_of_call (.op (.allocateBrokerSeq grantId)) (fun _ => rfl) (by simp)

theorem leavesRows_voidBrokerSeq (grantId : String) (seq : Int) :
    LeavesRows fun q => (q.voidBrokerSeq grantId seq).map (((), ·)) :=
  leavesRows_of_call (.op (.voidBrokerSeq grantId seq)) (fun _ => rfl) (by simp)

theorem leavesRows_putRecoveryFence (f : RecoveryFence) :
    LeavesRows (·.putRecoveryFence true f) :=
  leavesRows_of_call (.op (.putRecoveryFence true f)) (fun _ => rfl) (by simp)

theorem leavesRows_putRecoveryResult (r : RecoveryResult) :
    LeavesRows (·.putRecoveryResult true r) :=
  leavesRows_of_call (.op (.putRecoveryResult true r)) (fun _ => rfl) (by simp)

theorem leavesRows_putRevocationEvent (ev : RevocationEvent) :
    LeavesRows (·.putRevocationEvent ev) :=
  leavesRows_of_call (.putRevocationEvent ev) (fun _ => rfl) (by simp)

theorem leavesRows_allocateAuthorizationOrder :
    LeavesRows fun q => .ok q.allocateAuthorizationOrder :=
  leavesRows_of_call .allocateAuthorizationOrder (fun _ => rfl) (by simp)

theorem leavesRows_putAuthorizationReceipt (r : AuthorizationReceipt) :
    LeavesRows fun q => (q.putAuthorizationReceipt r).map (((), ·)) :=
  leavesRows_of_call (.putAuthorizationReceipt r) (fun _ => rfl) (by simp)

theorem leavesRows_putPendingGrant (idemKey : String) (row : PendingGrant) :
    LeavesRows fun q => .ok (q.putPendingGrant idemKey row) :=
  leavesRows_of_call (.putPendingGrant idemKey row) (fun _ => rfl) (by simp)

theorem leavesRows_deletePendingGrant (idemKey : String) :
    LeavesRows fun q => .ok ((), q.deletePendingGrant idemKey) :=
  leavesRows_of_call (.deletePendingGrant idemKey) (fun _ => rfl) (by simp)

theorem leavesRows_putCheckpoint (cp : Checkpoint) :
    LeavesRows fun q => .ok ((), q.putCheckpoint cp) :=
  leavesRows_of_call (.putCheckpoint cp) (fun _ => rfl) (by simp)

end CountedStore

end Averin
