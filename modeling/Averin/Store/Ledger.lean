import Averin.Store.Project

/-!
# Transactions and the ledger of claims

A write transaction works on a private copy of its project, which is published when the
transaction commits. What it claims is taken from a ledger that all projects share: a claim
stands at once for everyone, is dropped when the transaction does not commit, and stays for
good when it does. One transaction a project runs at a time; those of different projects
interleave freely.
-/

namespace Averin

/-- What is claimed: a nonce of a resource in a project, or a credential. -/
inductive LedgerKey where
  | nonce (project resource value : String)
  | jti (value : String)
  deriving DecidableEq, Repr

namespace LedgerKey

/-- The text of a key. -/
def value : LedgerKey → String
  | nonce _ _ v => v
  | jti v => v

end LedgerKey

/-- A claim on a nonce by one request. -/
structure NonceClaim where
  projectId : String
  resourceId : String
  nonce : String
  owner : String
  deriving DecidableEq, Repr

/-- A claim on a credential by one request. -/
structure JTIClaim where
  key : String
  owner : String
  deriving DecidableEq, Repr

/-- A claim of either kind. -/
inductive LedgerClaim where
  | nonce (c : NonceClaim)
  | jti (c : JTIClaim)
  deriving DecidableEq, Repr

namespace LedgerClaim

/-- The key of a claim. -/
def key : LedgerClaim → LedgerKey
  | nonce c => .nonce c.projectId c.resourceId c.nonce
  | jti c => .jti c.key

/-- Who claims it. -/
def owner : LedgerClaim → String
  | nonce c => c.owner
  | jti c => c.owner

/-- A nonce is claimed in the project of the transaction, and with its resource. -/
def inScope (project : String) : LedgerClaim → Bool
  | nonce c => c.projectId = project && c.resourceId ≠ "" && c.nonce ≠ ""
  | jti _ => true

end LedgerClaim

/-- Why a claim is refused. -/
inductive ClaimError where
  | consumed
  | invalid
  deriving DecidableEq, Repr

/-- Who holds a claim. Without a transaction it belongs to one that committed. -/
structure ClaimOwner where
  tx : Option Nat
  owner : String
  deriving DecidableEq, Repr

/-- How far a transaction is: its calls are being made, the calls are over and the copy is
published if it commits, its claims are settled, its lock is given back. -/
inductive Stage where
  | running
  | ended (committed : Bool)
  | settled
  | unlocked
  deriving DecidableEq, Repr

/-- A transaction of a project. -/
structure Tx where
  project : String
  data : Project
  claimed : List LedgerKey
  stage : Stage

/-- The store: the published projects, the ledger and the transactions so far. -/
structure Mem where
  projects : Table String Project := ∅
  claims : Table LedgerKey ClaimOwner := ∅
  txs : Table Nat Tx := ∅

namespace Mem

variable (m : Mem)

/-- A project, empty where there is none. -/
def proj (project : String) : Project := (m.projects.lookup project).getD {}

/-- A transaction holds the lock of the project. -/
def locked (project : String) : Bool :=
  (Table.values m.txs).any fun tx => tx.project = project && tx.stage ≠ .unlocked

/-- A transaction that may make calls. -/
def open? (t : Nat) : Option Tx := (m.txs.lookup t).filter (·.stage = .running)

/-- Begin a transaction on a copy of the project, once the lock is free. -/
def begin (t : Nat) (project : String) : Mem :=
  if (m.txs.lookup t).isSome ∨ m.locked project then m
  else { m with txs := m.txs.insert t ⟨project, m.proj project, [], .running⟩ }

/-- Change the private copy. -/
def write (t : Nat) (data : Project) : Mem :=
  match m.open? t with
  | none => m
  | some tx => { m with txs := m.txs.insert t { tx with data := data } }

/-- Take a claim. Outside an open transaction there is nothing to claim with. -/
def consume (t : Nat) (c : LedgerClaim) : Except ClaimError Mem :=
  match m.open? t with
  | none => .error .invalid
  | some tx =>
    if ¬ c.inScope tx.project ∨ c.key.value = "" ∨ c.owner = "" then .error .invalid
    else if (m.claims.lookup c.key).isSome then .error .consumed
    else
      .ok { m with
        claims := m.claims.insert c.key ⟨some t, c.owner⟩
        txs := m.txs.insert t { tx with claimed := tx.claimed ++ [c.key] } }

/-- The claim stands in the project the transaction may touch. -/
def releasable (project : String) : LedgerClaim → Bool
  | .nonce c => c.projectId = project
  | .jti _ => true

/-- Give a claim back, which only the transaction and the owner that hold it can. -/
def release (t : Nat) (c : LedgerClaim) : Mem :=
  match m.open? t with
  | none => m
  | some tx =>
    if releasable tx.project c ∧ c.owner ≠ "" ∧
        m.claims.lookup c.key = some ⟨some t, c.owner⟩ then
      { m with claims := m.claims.erase c.key }
    else m

/-- The calls are over. A transaction that commits publishes its copy. -/
def finish (t : Nat) (commit : Bool) : Mem :=
  match m.open? t with
  | none => m
  | some tx =>
    { m with
      projects := if commit then m.projects.insert tx.project tx.data else m.projects
      txs := m.txs.insert t { tx with stage := .ended commit } }

/-- One key of a transaction that is over: its claim stays for good or is dropped. -/
def settleKey (t : Nat) (committed : Bool) (claims : Table LedgerKey ClaimOwner) (k : LedgerKey) :
    Table LedgerKey ClaimOwner :=
  match claims.lookup k with
  | none => claims
  | some o =>
    if o.tx = some t then
      if committed then claims.insert k { o with tx := none } else claims.erase k
    else claims

/-- Settle the claims of a transaction that is over. -/
def settle (t : Nat) : Mem :=
  match m.txs.lookup t with
  | some tx =>
    match tx.stage with
    | .ended committed =>
      { m with
        claims := tx.claimed.foldl (settleKey t committed) m.claims
        txs := m.txs.insert t { tx with stage := .settled } }
    | _ => m
  | none => m

/-- Give the lock of the project back. -/
def unlock (t : Nat) : Mem :=
  match m.txs.lookup t with
  | some tx =>
    match tx.stage with
    | .settled => { m with txs := m.txs.insert t { tx with stage := .unlocked } }
    | _ => m
  | none => m

end Mem

/-- One step of one transaction. -/
inductive MemAction where
  | begin (t : Nat) (project : String)
  | write (t : Nat) (data : Project)
  | consume (t : Nat) (c : LedgerClaim)
  | release (t : Nat) (c : LedgerClaim)
  | finish (t : Nat) (commit : Bool)
  | settle (t : Nat)
  | unlock (t : Nat)

namespace Mem

/-- The store after a step. A step that cannot be taken changes nothing. -/
def step (m : Mem) : MemAction → Mem
  | .begin t project => m.begin t project
  | .write t data => m.write t data
  | .consume t c =>
    match m.consume t c with
    | .ok m' => m'
    | .error _ => m
  | .release t c => m.release t c
  | .finish t commit => m.finish t commit
  | .settle t => m.settle t
  | .unlock t => m.unlock t

/-- The memory after some actions. -/
def run (m : Mem) (acts : List MemAction) : Mem := acts.foldl step m

@[simp] theorem run_nil (m : Mem) : m.run [] = m := rfl

/-- A run goes on from the memory after its first action. -/
@[simp] theorem run_cons (m : Mem) (a : MemAction) (acts : List MemAction) :
    m.run (a :: acts) = (m.step a).run acts := rfl

theorem run_append (m : Mem) (before later : List MemAction) :
    m.run (before ++ later) = (m.run before).run later := List.foldl_append

variable {m m' : Mem} {t : Nat} {c : LedgerClaim}

/-- An open transaction is one that is running. -/
theorem open?_eq_some {tx : Tx} :
    m.open? t = some tx ↔ m.txs.lookup t = some tx ∧ tx.stage = .running := by
  rw [open?, Option.filter_eq_some_iff, decide_eq_true_eq]

/-- What a claim needs, and what it leaves. -/
theorem consume_cases (h : m.consume t c = .ok m') :
    ∃ tx, m.open? t = some tx ∧ c.inScope tx.project = true ∧ c.key.value ≠ "" ∧ c.owner ≠ "" ∧
      m.claims.lookup c.key = none ∧
      m' = { m with
        claims := m.claims.insert c.key ⟨some t, c.owner⟩
        txs := m.txs.insert t { tx with claimed := tx.claimed ++ [c.key] } } := by
  unfold consume at h
  split at h
  · cases h
  · next tx htx =>
    split at h
    · cases h
    · next hvalid =>
      split at h
      · cases h
      · next hfree =>
        rw [not_or, not_or, not_not] at hvalid
        rw [Option.not_isSome_iff_eq_none] at hfree
        exact ⟨tx, htx, hvalid.1, hvalid.2.1, hvalid.2.2, hfree, (Except.ok.inj h).symm⟩

/-- What settling makes of the claim on a key. -/
def settledClaim (t : Nat) (committed : Bool) : Option ClaimOwner → Option ClaimOwner
  | none => none
  | some o => if o.tx = some t then
      if committed then some { o with tx := none } else none
    else some o

/-- Settling touches one key. -/
theorem lookup_settleKey (t : Nat) (committed : Bool) (claims : Table LedgerKey ClaimOwner)
    (k k' : LedgerKey) :
    (settleKey t committed claims k).lookup k' =
      if k' = k then settledClaim t committed (claims.lookup k') else claims.lookup k' := by
  unfold settleKey settledClaim
  by_cases hk : k' = k
  · subst hk
    rw [if_pos rfl]
    cases h : claims.lookup k' with
    | none => exact h
    | some o =>
      dsimp only
      split_ifs
      · exact AList.lookup_insert _
      · exact AList.lookup_erase _ _
      · exact h
  · rw [if_neg hk]
    split
    · rfl
    · split_ifs
      · exact AList.lookup_insert_ne hk
      · exact AList.lookup_erase_ne hk
      · rfl

/-- Settling twice is settling once. -/
theorem settledClaim_idem (t : Nat) (committed : Bool) (o : Option ClaimOwner) :
    settledClaim t committed (settledClaim t committed o) = settledClaim t committed o := by
  cases o with
  | none => rfl
  | some o =>
    by_cases h : o.tx = some t
    · cases committed <;> simp [settledClaim, h]
    · simp [settledClaim, h]

/-- Settling many keys touches those. -/
theorem lookup_settle_foldl (t : Nat) (committed : Bool) (keys : List LedgerKey)
    (claims : Table LedgerKey ClaimOwner) (k : LedgerKey) :
    (keys.foldl (settleKey t committed) claims).lookup k =
      if k ∈ keys then settledClaim t committed (claims.lookup k) else claims.lookup k := by
  induction keys generalizing claims with
  | nil => simp
  | cons k' keys ih =>
    rw [List.foldl_cons, ih, lookup_settleKey]
    by_cases hk : k = k'
    · subst hk
      simp [settledClaim_idem]
    · simp [hk]

/-- Settling a transaction keeps or drops a claim of its own. -/
theorem lookup_settle_own {tx : Tx} {committed : Bool} {k : LedgerKey} {o : ClaimOwner}
    (htx : m.txs.lookup t = some tx) (hstage : tx.stage = .ended committed) (hk : k ∈ tx.claimed)
    (hget : m.claims.lookup k = some o) (ho : o.tx = some t) :
    (m.settle t).claims.lookup k = if committed then some { o with tx := none } else none := by
  have hsettle : (m.settle t).claims = tx.claimed.foldl (settleKey t committed) m.claims := by
    rw [settle, htx]
    simp only [hstage]
  rw [hsettle, lookup_settle_foldl, if_pos hk, hget, settledClaim, if_pos ho]

/-- Who claims what, and who takes it back. A claim that is there changes only when its own
transaction releases it under its owner, or when its own transaction is settled. -/
theorem claims_step {k : LedgerKey} {o : ClaimOwner} (a : MemAction)
    (hinv : ∀ t, o.tx = some t → ∃ tx, m.txs.lookup t = some tx ∧ k ∈ tx.claimed)
    (hget : m.claims.lookup k = some o) :
    (m.step a).claims.lookup k = some o ∨
      (∃ t c, a = .release t c ∧ c.key = k ∧ o = ⟨some t, c.owner⟩ ∧
        (∃ tx, m.open? t = some tx) ∧ (m.step a).claims.lookup k = none) ∨
      ∃ t tx committed, a = .settle t ∧ o.tx = some t ∧ m.txs.lookup t = some tx ∧
        tx.stage = .ended committed ∧
        (m.step a).claims.lookup k = if committed then some { o with tx := none } else none := by
  cases a with
  | begin t project =>
    left
    rw [step, begin]
    split_ifs <;> exact hget
  | write t data =>
    left
    rw [step, write]
    split <;> exact hget
  | consume t c =>
    left
    rw [step]
    split
    · next m' h =>
      obtain ⟨tx, -, -, -, -, hfree, rfl⟩ := consume_cases h
      change (m.claims.insert c.key _).lookup k = some o
      rw [Table.lookup_insert_eq, if_neg]
      · exact hget
      · rintro rfl
        rw [hfree] at hget
        cases hget
    · exact hget
  | release t c =>
    rw [step, release]
    split
    · exact Or.inl hget
    · next tx htx =>
      split_ifs with h
      · by_cases hk : k = c.key
        · subst hk
          rw [hget] at h
          exact Or.inr (Or.inl ⟨t, c, rfl, rfl, Option.some.inj h.2.2, ⟨tx, htx⟩,
            AList.lookup_erase _ _⟩)
        · exact Or.inl ((AList.lookup_erase_ne hk).trans hget)
      · exact Or.inl hget
  | finish t commit =>
    left
    rw [step, finish]
    split <;> exact hget
  | settle t =>
    rw [step, settle]
    split
    · next tx htx =>
      split
      · next committed hstage =>
        by_cases ho : o.tx = some t
        · obtain ⟨tx', htx', hk⟩ := hinv t ho
          obtain rfl := Option.some.inj (htx.symm.trans htx')
          have hset := lookup_settle_own htx hstage hk hget ho
          rw [settle, htx] at hset
          simp only [hstage] at hset
          exact Or.inr (Or.inr ⟨t, tx, committed, rfl, ho, htx, hstage, hset⟩)
        · left
          change (tx.claimed.foldl (settleKey t committed) m.claims).lookup k = _
          rw [lookup_settle_foldl, hget, settledClaim, if_neg ho, ite_self]
      · exact Or.inl hget
    · exact Or.inl hget
  | unlock t =>
    left
    rw [step, unlock]
    split
    · split <;> exact hget
    · exact hget

/-- A claim appears only by a consume that succeeds. -/
theorem claims_step_new {k : LedgerKey} {o : ClaimOwner} (a : MemAction)
    (hnone : m.claims.lookup k = none) (hget : (m.step a).claims.lookup k = some o) :
    ∃ t c m', a = .consume t c ∧ c.key = k ∧ o = ⟨some t, c.owner⟩ ∧ m.consume t c = .ok m' := by
  cases a with
  | consume t c =>
    rw [step] at hget
    split at hget
    · next m' h =>
      refine ⟨t, c, m', rfl, ?_⟩
      obtain ⟨tx, -, -, -, -, -, rfl⟩ := consume_cases h
      change (m.claims.insert c.key _).lookup k = some o at hget
      rw [Table.lookup_insert_eq] at hget
      split_ifs at hget with hk
      · exact ⟨hk.symm, (Option.some.inj hget).symm, h⟩
      · rw [hnone] at hget
        cases hget
    · rw [hnone] at hget
      cases hget
  | begin t project =>
    rw [step, begin] at hget
    split_ifs at hget <;> rw [hnone] at hget <;> cases hget
  | write t data =>
    rw [step, write] at hget
    split at hget <;> rw [hnone] at hget <;> cases hget
  | release t c =>
    rw [step, release] at hget
    split at hget
    · rw [hnone] at hget
      cases hget
    · split_ifs at hget
      · change (m.claims.erase c.key).lookup k = some o at hget
        rw [Table.lookup_erase_eq, hnone, ite_self] at hget
        cases hget
      · rw [hnone] at hget
        cases hget
  | finish t commit =>
    rw [step, finish] at hget
    split at hget <;> rw [hnone] at hget <;> cases hget
  | settle t =>
    rw [step, settle] at hget
    split at hget
    · next tx htx =>
      split at hget
      · next committed hstage =>
        change (tx.claimed.foldl (settleKey t committed) m.claims).lookup k = some o at hget
        rw [lookup_settle_foldl, hnone, settledClaim, ite_self] at hget
        cases hget
      · rw [hnone] at hget
        cases hget
    · rw [hnone] at hget
      cases hget
  | unlock t =>
    rw [step, unlock] at hget
    split at hget
    · split at hget <;> rw [hnone] at hget <;> cases hget
    · rw [hnone] at hget
      cases hget

/-- The stage a transaction goes to. -/
inductive StageStep (t : Nat) : MemAction → Stage → Stage → Prop
  | same (a : MemAction) (s : Stage) : StageStep t a s s
  | ended (commit : Bool) : StageStep t (.finish t commit) .running (.ended commit)
  | settled (committed : Bool) : StageStep t (.settle t) (.ended committed) .settled
  | unlocked : StageStep t (.unlock t) .settled .unlocked

/-- A transaction stays in its project, keeps what it claimed and goes through its stages. -/
theorem txs_step {tx : Tx} (a : MemAction) (hget : m.txs.lookup t = some tx) :
    ∃ tx', (m.step a).txs.lookup t = some tx' ∧ tx'.project = tx.project ∧
      tx.claimed ⊆ tx'.claimed ∧ StageStep t a tx.stage tx'.stage := by
  have hother : ∀ {t' : Nat} {tx' : Tx}, t ≠ t' → (m.txs.insert t' tx').lookup t = some tx :=
    fun hne => (AList.lookup_insert_ne hne).trans hget
  have hsame : ∃ tx', m.txs.lookup t = some tx' ∧ tx'.project = tx.project ∧
      tx.claimed ⊆ tx'.claimed ∧ StageStep t a tx.stage tx'.stage :=
    ⟨tx, hget, rfl, List.Subset.refl _, .same a _⟩
  cases a with
  | begin t' project =>
    rw [step, begin]
    split_ifs with h
    · exact hsame
    · rw [not_or] at h
      refine ⟨tx, hother ?_, rfl, List.Subset.refl _, .same _ _⟩
      rintro rfl
      rw [hget] at h
      exact h.1 rfl
  | write t' data =>
    rw [step, write]
    split
    · exact hsame
    · next tx' htx' =>
      by_cases ht : t = t'
      · subst ht
        obtain ⟨hget', hstage⟩ := open?_eq_some.mp htx'
        obtain rfl := Option.some.inj (hget.symm.trans hget')
        exact ⟨_, AList.lookup_insert _, rfl, List.Subset.refl _, .same _ _⟩
      · exact ⟨tx, hother ht, rfl, List.Subset.refl _, .same _ _⟩
  | consume t' c =>
    rw [step]
    split
    · next m' h =>
      obtain ⟨tx', htx', -, -, -, -, rfl⟩ := consume_cases h
      by_cases ht : t = t'
      · subst ht
        obtain ⟨hget', hstage⟩ := open?_eq_some.mp htx'
        obtain rfl := Option.some.inj (hget.symm.trans hget')
        exact ⟨_, AList.lookup_insert _, rfl, List.subset_append_left _ _, .same _ _⟩
      · exact ⟨tx, hother ht, rfl, List.Subset.refl _, .same _ _⟩
    · exact hsame
  | release t' c =>
    rw [step, release]
    split
    · exact hsame
    · split_ifs <;> exact hsame
  | finish t' commit =>
    rw [step, finish]
    split
    · exact hsame
    · next tx' htx' =>
      by_cases ht : t = t'
      · subst ht
        obtain ⟨hget', hstage⟩ := open?_eq_some.mp htx'
        obtain rfl := Option.some.inj (hget.symm.trans hget')
        refine ⟨_, AList.lookup_insert _, rfl, List.Subset.refl _, ?_⟩
        rw [hstage]
        exact .ended commit
      · exact ⟨tx, hother ht, rfl, List.Subset.refl _, .same _ _⟩
  | settle t' =>
    rw [step, settle]
    split
    · next tx' htx' =>
      split
      · next committed hstage =>
        by_cases ht : t = t'
        · subst ht
          obtain rfl := Option.some.inj (hget.symm.trans htx')
          refine ⟨_, AList.lookup_insert _, rfl, List.Subset.refl _, ?_⟩
          rw [hstage]
          exact .settled committed
        · exact ⟨tx, hother ht, rfl, List.Subset.refl _, .same _ _⟩
      · exact hsame
    · exact hsame
  | unlock t' =>
    rw [step, unlock]
    split
    · next tx' htx' =>
      split
      · next hstage =>
        by_cases ht : t = t'
        · subst ht
          obtain rfl := Option.some.inj (hget.symm.trans htx')
          refine ⟨_, AList.lookup_insert _, rfl, List.Subset.refl _, ?_⟩
          rw [hstage]
          exact .unlocked
        · exact ⟨tx, hother ht, rfl, List.Subset.refl _, .same _ _⟩
      · exact hsame
    · exact hsame

/-- A claim names a transaction that made it and is not settled yet. -/
def ClaimsOwned (m : Mem) : Prop :=
  ∀ k o t, m.claims.lookup k = some o → o.tx = some t →
    ∃ tx, m.txs.lookup t = some tx ∧ k ∈ tx.claimed ∧
      (tx.stage = .running ∨ ∃ committed, tx.stage = .ended committed)

theorem claimsOwned_empty : ClaimsOwned {} := by
  intro k o t h
  cases h

theorem ClaimsOwned.step (h : m.ClaimsOwned) (a : MemAction) : (m.step a).ClaimsOwned := by
  intro k o t hget ht
  rcases hold : m.claims.lookup k with - | o'
  · obtain ⟨t', c, m', rfl, rfl, rfl, hok⟩ := claims_step_new a hold hget
    obtain rfl := Option.some.inj ht
    obtain ⟨tx, htx, -, -, -, -, rfl⟩ := consume_cases hok
    rw [Mem.step, hok]
    refine ⟨_, AList.lookup_insert _, List.mem_append_right _ (List.mem_singleton_self _), ?_⟩
    exact Or.inl (open?_eq_some.mp htx).2
  · have hinv : ∀ t, o'.tx = some t → ∃ tx, m.txs.lookup t = some tx ∧ k ∈ tx.claimed := by
      intro t' ht'
      obtain ⟨tx, htx, hk, -⟩ := h k o' t' hold ht'
      exact ⟨tx, htx, hk⟩
    rcases claims_step a hinv hold with hkeep | ⟨t', c, -, -, -, -, hgone⟩ |
      ⟨t', tx, committed, -, -, -, -, hset⟩
    · rw [hkeep] at hget
      obtain rfl := Option.some.inj hget
      obtain ⟨tx, htx, hk, hstage⟩ := h k o' t hold ht
      obtain ⟨tx', htx', -, hsub, hmove⟩ := txs_step a htx
      refine ⟨tx', htx', hsub hk, ?_⟩
      generalize hs : tx.stage = s at hmove hstage
      generalize hs' : tx'.stage = s' at hmove ⊢
      cases hmove with
      | same a s => exact hstage
      | ended commit => exact Or.inr ⟨commit, rfl⟩
      | settled committed =>
        -- Settling changes every claim of the transaction, so this one is not its own.
        have hset := lookup_settle_own htx hs hk hold ht
        rw [Mem.step, hset] at hkeep
        split_ifs at hkeep
        rw [← Option.some.inj hkeep] at ht
        cases ht
      | unlocked => simp at hstage
    · rw [hgone] at hget
      cases hget
    · rw [hset] at hget
      split_ifs at hget
      obtain rfl := Option.some.inj hget
      cases ht

theorem ClaimsOwned.run (h : m.ClaimsOwned) (acts : List MemAction) :
    (m.run acts).ClaimsOwned := by
  induction acts generalizing m with
  | nil => exact h
  | cons a acts ih => exact ih (h.step a)

/-- The claim belongs to a transaction that committed, whether or not it is settled yet. -/
def CommittedClaim (m : Mem) (k : LedgerKey) (owner : String) : Prop :=
  ∃ o, m.claims.lookup k = some o ∧ o.owner = owner ∧
    ∀ t, o.tx = some t → ∃ tx, m.txs.lookup t = some tx ∧ tx.stage = .ended true

/-- A committed claim stays. -/
theorem CommittedClaim.step {k : LedgerKey} {owner : String} (h : m.CommittedClaim k owner)
    (hinv : m.ClaimsOwned) (a : MemAction) : (m.step a).CommittedClaim k owner := by
  obtain ⟨o, hget, howner, hcommitted⟩ := h
  have hclaimed : ∀ t, o.tx = some t → ∃ tx, m.txs.lookup t = some tx ∧ k ∈ tx.claimed := by
    intro t ht
    obtain ⟨tx, htx, hk, -⟩ := hinv k o t hget ht
    exact ⟨tx, htx, hk⟩
  rcases claims_step a hclaimed hget with hkeep | ⟨t, c, rfl, -, rfl, ⟨tx, hopen⟩, -⟩ |
    ⟨t, tx, committed, rfl, ho, htx, hstage, hset⟩
  · refine ⟨o, hkeep, howner, ?_⟩
    intro t ht
    obtain ⟨tx, htx, hstage⟩ := hcommitted t ht
    obtain ⟨tx', htx', -, -, hmove⟩ := txs_step a htx
    refine ⟨tx', htx', ?_⟩
    rw [hstage] at hmove
    generalize hs' : tx'.stage = s' at hmove ⊢
    cases hmove with
    | same a s => rfl
    | settled committed =>
      obtain ⟨tx'', htx'', hk⟩ := hclaimed t ht
      obtain rfl := Option.some.inj (htx.symm.trans htx'')
      have hset := lookup_settle_own htx hstage hk hget ht
      rw [Mem.step, hset] at hkeep
      split_ifs at hkeep
      rw [← Option.some.inj hkeep] at ht
      cases ht
  · -- An open transaction has not committed.
    obtain ⟨htx, hrunning⟩ := open?_eq_some.mp hopen
    obtain ⟨tx', htx', hstage⟩ := hcommitted t rfl
    obtain rfl := Option.some.inj (htx.symm.trans htx')
    rw [hrunning] at hstage
    cases hstage
  · obtain ⟨tx', htx', hstage'⟩ := hcommitted t ho
    obtain rfl := Option.some.inj (htx.symm.trans htx')
    obtain rfl : committed = true := by
      rw [hstage] at hstage'
      exact Stage.ended.inj hstage'
    exact ⟨{ o with tx := none }, hset, howner, fun _ ht => by cases ht⟩

/-- What is claimed for good stays claimed. -/
theorem CommittedClaim.run {k : LedgerKey} {owner : String} (h : m.CommittedClaim k owner)
    (hinv : m.ClaimsOwned) (acts : List MemAction) : (m.run acts).CommittedClaim k owner := by
  induction acts generalizing m with
  | nil => exact h
  | cons a acts ih => exact ih (h.step hinv a) (hinv.step a)

/-- A transaction that is over and not settled yet. -/
def Ended (m : Mem) (t : Nat) (committed : Bool) : Prop :=
  ∃ tx, m.txs.lookup t = some tx ∧ tx.stage = .ended committed

/-- The claims of the transaction are settled. -/
def Settled (m : Mem) (t : Nat) : Prop :=
  ∃ tx, m.txs.lookup t = some tx ∧ (tx.stage = .settled ∨ tx.stage = .unlocked)

/-- A settled transaction stays settled. -/
theorem Settled.run (h : m.Settled t) (acts : List MemAction) : (m.run acts).Settled t := by
  induction acts generalizing m with
  | nil => exact h
  | cons a acts ih =>
    apply ih
    obtain ⟨tx, htx, hstage⟩ := h
    obtain ⟨tx', htx', -, -, hmove⟩ := txs_step a htx
    refine ⟨tx', htx', ?_⟩
    generalize tx.stage = s at hmove hstage
    generalize tx'.stage = s' at hmove ⊢
    cases hmove with
    | same a s => exact hstage
    | ended commit => simp at hstage
    | settled committed => exact Or.inl rfl
    | unlocked => exact Or.inr rfl

/-- Settling ends a transaction. -/
theorem Ended.settled {committed : Bool} (h : m.Ended t committed) :
    (m.step (.settle t)).Settled t := by
  obtain ⟨tx, htx, hstage⟩ := h
  refine ⟨{ tx with stage := .settled }, ?_, Or.inl rfl⟩
  rw [Mem.step, settle, htx]
  simp only [hstage]
  exact AList.lookup_insert _

/-- At the commit of the transaction it held the key. -/
def HeldAtCommit (acts : List MemAction) (t : Nat) (k : LedgerKey) : Prop :=
  ∃ before rest owner tx, acts = before ++ .finish t true :: rest ∧
    (Mem.run {} before).open? t = some tx ∧
    (Mem.run {} before).claims.lookup k = some ⟨some t, owner⟩

/-- A commit makes the claims of the transaction committed ones. -/
theorem committedClaim_finish {k : LedgerKey} {owner : String} {tx : Tx}
    (hopen : m.open? t = some tx) (hget : m.claims.lookup k = some ⟨some t, owner⟩) :
    (m.step (.finish t true)).CommittedClaim k owner := by
  rw [Mem.step, finish, hopen]
  refine ⟨⟨some t, owner⟩, hget, rfl, ?_⟩
  intro t' ht'
  obtain rfl := Option.some.inj ht'
  exact ⟨_, AList.lookup_insert _, rfl⟩

/-- The transaction of a committed claim is not open. -/
theorem not_open_of_committedClaim {k : LedgerKey} {owner owner' : String} {tx : Tx}
    (h : m.CommittedClaim k owner) (hget : m.claims.lookup k = some ⟨some t, owner'⟩) :
    m.open? t ≠ some tx := by
  intro hopen
  obtain ⟨o, ho, -, hcommitted⟩ := h
  obtain rfl := Option.some.inj (hget.symm.trans ho)
  obtain ⟨tx', htx', hstage⟩ := hcommitted t rfl
  obtain ⟨htx, hrunning⟩ := open?_eq_some.mp hopen
  obtain rfl := Option.some.inj (htx.symm.trans htx')
  rw [hrunning] at hstage
  cases hstage

/-- No two transactions commit with one key. -/
theorem HeldAtCommit.unique {acts : List MemAction} {t t' : Nat} {k : LedgerKey}
    (h : HeldAtCommit acts t k) (h' : HeldAtCommit acts t' k) : t = t' := by
  obtain ⟨before, rest, owner, tx, hacts, hopen, hget⟩ := h
  obtain ⟨before', rest', owner', tx', hacts', hopen', hget'⟩ := h'
  have hlater : ∀ {t₁ t₂ : Nat} {b₁ b₂ r : List MemAction} {o₁ o₂ : String} {tx₁ tx₂ : Tx},
      (Mem.run {} b₁).open? t₁ = some tx₁ →
      (Mem.run {} b₁).claims.lookup k = some ⟨some t₁, o₁⟩ →
      b₂ = b₁ ++ .finish t₁ true :: r →
      (Mem.run {} b₂).claims.lookup k = some ⟨some t₂, o₂⟩ →
      (Mem.run {} b₂).open? t₂ ≠ some tx₂ := by
    rintro t₁ t₂ b₁ b₂ r o₁ o₂ tx₁ tx₂ hopen₁ hget₁ rfl hget₂
    have hinv := claimsOwned_empty.run b₁
    have hc := committedClaim_finish hopen₁ hget₁
    rw [run_append, run_cons] at hget₂ ⊢
    exact not_open_of_committedClaim (hc.run (hinv.step _) r) hget₂
  rw [hacts] at hacts'
  rcases List.append_eq_append_iff.mp hacts' with ⟨mid, hmid, hrest⟩ | ⟨mid, hmid, hrest⟩
  · cases mid with
    | nil =>
      have := (List.cons.inj hrest).1
      injection this
    | cons a mid =>
      obtain ⟨rfl, -⟩ := List.cons.inj hrest
      exact absurd hopen' (hlater hopen hget hmid hget')
  · cases mid with
    | nil =>
      have := (List.cons.inj hrest).1
      injection this with ht
      exact ht.symm
    | cons a mid =>
      obtain ⟨rfl, -⟩ := List.cons.inj hrest
      exact absurd hopen (hlater hopen' hget' hmid hget)

end Mem

end Averin
