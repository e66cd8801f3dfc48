import Averin.Core.Cells
import Averin.Store.Ledger
import Averin.Store.Records

/-!
# The store shared by goroutines

What the store in memory does when goroutines use it at once: transactions that write or read a
project and single calls on the store itself. A call runs under the store's mutex, so that a
run is a sequence of steps; between two steps of one goroutine any others may come.

A project is an object whose fields are changed in place. Whether a transaction works on a copy
of its own is up to the snapshot, which clones a field or shares it. How objects are held is a
parameter of the steps: by references to cells, as in the code, or as plain values.
-/

namespace Averin

/-- All that the store keeps for a project. -/
structure StoredProject extends Project where
  seqBySess : Table String Int := ∅
  anchors : Table Int String := ∅
  brokerAt : Table String Int := ∅

/-- The fields of a project. -/
inductive ProjectField where
  | records
  | idem
  | byHash
  | byRecordID
  | checks
  | seqBySess
  | disclosure
  | discSeen
  | anchors
  | brokerSeq
  | brokerAt
  | voided
  | fences
  | results
  | pending
  | revEvents
  | authOrder
  | receipts
  | receiptByRecord
  deriving DecidableEq, Repr

namespace ProjectField

/-- The values of a field. -/
def Val : ProjectField → Type
  | records => List Record
  | idem => Table String Nat
  | byHash | byRecordID | discSeen | voided => Finset String
  | checks => List Checkpoint
  | disclosure => List DisclosureSecret
  | anchors => Table Int String
  | seqBySess | brokerSeq | brokerAt | receiptByRecord => Table String Int
  | fences => Table Int RecoveryFence
  | results => Table Int RecoveryResult
  | pending => Table String PendingGrant
  | revEvents => Table String RevocationEvent
  | authOrder => Int
  | receipts => Table Int AuthorizationReceipt

/-- The fields a snapshot clones: a new slice, a clone of the map, or the number itself. A field
left out here would be shared with the project the snapshot is taken of. -/
def cloned : ProjectField → Bool
  | records => true
  | idem => true
  | byHash => true
  | byRecordID => true
  | checks => true
  | seqBySess => true
  | disclosure => true
  | discSeen => true
  | anchors => true
  | brokerSeq => true
  | brokerAt => true
  | voided => true
  | fences => true
  | results => true
  | pending => true
  | revEvents => true
  | authOrder => true
  | receipts => true
  | receiptByRecord => true

theorem cloned_eq_true (f : ProjectField) : f.cloned = true := by
  cases f <;> rfl

end ProjectField

namespace StoredProject

/-- The value of each field. -/
def fields (p : StoredProject) : (f : ProjectField) → f.Val
  | .records => p.records
  | .idem => p.idem
  | .byHash => p.byHash
  | .byRecordID => p.byRecordID
  | .checks => p.checks
  | .seqBySess => p.seqBySess
  | .disclosure => p.disclosure
  | .discSeen => p.discSeen
  | .anchors => p.anchors
  | .brokerSeq => p.brokerSeq
  | .brokerAt => p.brokerAt
  | .voided => p.voided
  | .fences => p.fences
  | .results => p.results
  | .pending => p.pending
  | .revEvents => p.revEvents
  | .authOrder => p.authOrder
  | .receipts => p.receipts
  | .receiptByRecord => p.receiptByRecord

/-- A project from its fields. -/
def ofFields (v : (f : ProjectField) → f.Val) : StoredProject where
  records := v .records
  idem := v .idem
  byHash := v .byHash
  byRecordID := v .byRecordID
  checks := v .checks
  seqBySess := v .seqBySess
  disclosure := v .disclosure
  discSeen := v .discSeen
  anchors := v .anchors
  brokerSeq := v .brokerSeq
  brokerAt := v .brokerAt
  voided := v .voided
  fences := v .fences
  results := v .results
  pending := v .pending
  revEvents := v .revEvents
  authOrder := v .authOrder
  receipts := v .receipts
  receiptByRecord := v .receiptByRecord

@[simp] theorem ofFields_fields (p : StoredProject) : ofFields p.fields = p := rfl

end StoredProject

/-- A call that writes to a project. -/
inductive MemCall where
  | putRecord (project idemKey : String) (rec : Record)
  | nextDisplaySeq (project session : String)
  | putCheckpoint (project : String) (cp : Checkpoint)
  | allocateBrokerSeq (project grantId : String) (now : Int)
  | releaseBrokerSeq (project grantId : String)
  | voidBrokerSeq (project grantId : String) (seq : Int)
  | putAnchor (project : String) (seq : Int) (token : String)
  | putPendingGrant (project idemKey : String) (row : PendingGrant)
  | deletePendingGrant (project idemKey : String)
  | putRecoveryFence (f : RecoveryFence)
  | putRecoveryResult (r : RecoveryResult)
  | putRevocationEvent (ev : RevocationEvent)
  | allocateAuthorizationOrder (project : String)
  | putAuthorizationReceipt (project : String) (r : AuthorizationReceipt)

/-- What a call answers. -/
inductive CallReply where
  | record (stored : Record) (created : Bool)
  | number (n : Int) (fresh : Bool)
  | pending (row : PendingGrant) (created : Bool)
  | fence (f : RecoveryFence) (created : Bool)
  | result (r : RecoveryResult) (created : Bool)
  | event (ev : RevocationEvent) (created : Bool)
  | done

namespace MemCall

/-- The project a call is about. -/
def project : MemCall → String
  | putRecord project _ _ | nextDisplaySeq project _ | putCheckpoint project _
  | allocateBrokerSeq project _ _ | releaseBrokerSeq project _ | voidBrokerSeq project _ _
  | putAnchor project _ _ | putPendingGrant project _ _ | deletePendingGrant project _
  | allocateAuthorizationOrder project | putAuthorizationReceipt project _ => project
  | putRecoveryFence f => f.projectId
  | putRecoveryResult r => r.projectId
  | putRevocationEvent ev => ev.projectId

/-- What is refused before the handle is looked at. -/
def early (inTx : Bool) : MemCall → Option StoreError
  | putRecoveryFence _ | putRecoveryResult _ => if inTx then none else some .needsTransaction
  | putRevocationEvent ev => if validateRevocationEvent ev then none else some .invalidRevocation
  | _ => none

/-- The answer to a call and the project after it. -/
def apply (inTx : Bool) (p : StoredProject) :
    MemCall → Except StoreError (CallReply × StoredProject)
  | putRecord _ idemKey rec => do
    let ((stored, created), q) ← p.toProject.putRecord idemKey rec
    return (.record stored created, { p with toProject := q })
  | nextDisplaySeq _ session =>
    let n := (p.seqBySess.lookup session).getD 0
    .ok (.number n true, { p with seqBySess := p.seqBySess.insert session (n + 1) })
  | putCheckpoint _ cp => .ok (.done, { p with toProject := p.toProject.putCheckpoint cp })
  | allocateBrokerSeq _ grantId now => do
    let ((seq, fresh), q) ← p.toProject.allocateBrokerSeq grantId
    return (.number seq fresh,
      { p with
        toProject := q
        brokerAt := if fresh then p.brokerAt.insert grantId now else p.brokerAt })
  | releaseBrokerSeq _ grantId =>
    let q := p.toProject.releaseBrokerSeq grantId
    .ok (.done,
      { p with
        toProject := q
        brokerAt := if (p.brokerSeq.lookup grantId).isSome ∧ (q.brokerSeq.lookup grantId).isNone
          then p.brokerAt.erase grantId else p.brokerAt })
  | voidBrokerSeq _ grantId seq => do
    let q ← p.toProject.voidBrokerSeq grantId seq
    return (.done, { p with toProject := q })
  | putAnchor _ seq token =>
    .ok (.done, if (p.anchors.lookup seq).isSome then p
      else { p with anchors := p.anchors.insert seq token })
  | putPendingGrant _ idemKey row =>
    let ((stored, created), q) := p.toProject.putPendingGrant idemKey row
    .ok (.pending stored created, { p with toProject := q })
  | deletePendingGrant _ idemKey =>
    .ok (.done, { p with toProject := p.toProject.deletePendingGrant idemKey })
  | putRecoveryFence f => do
    let ((stored, created), q) ← p.toProject.putRecoveryFence inTx f
    return (.fence stored created, { p with toProject := q })
  | putRecoveryResult r => do
    let ((stored, created), q) ← p.toProject.putRecoveryResult inTx r
    return (.result stored created, { p with toProject := q })
  | putRevocationEvent ev => do
    let ((stored, created), q) ← p.toProject.putRevocationEvent ev
    return (.event stored created, { p with toProject := q })
  | allocateAuthorizationOrder _ =>
    let (n, q) := p.toProject.allocateAuthorizationOrder
    .ok (.number n true, { p with toProject := q })
  | putAuthorizationReceipt _ r => do
    let q ← p.toProject.putAuthorizationReceipt r
    return (.done, { p with toProject := q })

end MemCall

/-- Why a call through a handle fails. -/
inductive CallError where
  | closed
  | foreign
  | readOnly
  | store (e : StoreError)

/-- What a goroutine does: a transaction that writes or reads, or one call on the store. -/
inductive TaskKind where
  | write (project : String)
  | read (project : String)
  | direct (op : MemCall)

namespace TaskKind

/-- The project of a task. -/
def project : TaskKind → String
  | write project | read project => project
  | direct op => op.project

/-- A call on the store that fails before it asks for the token. -/
def early : TaskKind → Option StoreError
  | direct op => op.early false
  | _ => none

/-- It takes the token of its project. -/
def locks : TaskKind → Bool
  | read _ => false
  | _ => true

end TaskKind

/-- How far a goroutine is: before the token of its project, with it and before its snapshot or
call, in its callback, past it, past the last look at its context, after the commit or failure,
after its claims are settled, and at its end. -/
inductive TaskStage where
  | waiting
  | locked
  | running
  | returned
  | committing
  | ended (committed : Bool)
  | settled (committed : Bool)
  | finished (committed : Bool)
  deriving DecidableEq, Repr

namespace TaskStage

/-- The token is taken and not given back. -/
def holding : TaskStage → Bool
  | waiting | finished _ => false
  | _ => true

/-- The copy is made and neither published nor dropped. -/
def live : TaskStage → Bool
  | running | returned | committing => true
  | _ => false

end TaskStage

/-- A goroutine without its copy of the project. -/
structure TaskControl where
  kind : TaskKind
  cancelled : Bool := false
  stage : TaskStage := .waiting
  claimed : List LedgerKey := []

/-- What a goroutine does by itself. Its context may be cancelled at any time. -/
inductive TaskMove where
  | cancel
  | acquire
  | giveUp
  | refuse
  | ret (ok : Bool)
  | commitPoint
  | unlock
  deriving DecidableEq, Repr

namespace TaskControl

variable (c : TaskControl)

/-- The project of a task under way. -/
def project : String := c.kind.project

/-- The goroutine has the token of its project. -/
def holds : Bool := c.kind.locks && c.stage.holding

/-- The goroutine after a move, if it can make it. The token may be free. -/
def move (free : Bool) : TaskMove → Option TaskControl
  | .cancel =>
    match c.kind with
    | .direct _ => none -- a call on the store waits with a context that is never cancelled
    | _ => some { c with cancelled := true }
  | .acquire =>
    if c.kind.locks ∧ c.stage = .waiting ∧ free then some { c with stage := .locked } else none
  | .giveUp =>
    if c.cancelled ∧ c.stage = .waiting then some { c with stage := .finished false } else none
  | .refuse =>
    if c.cancelled ∧ c.stage = .locked then some { c with stage := .settled false } else none
  | .ret ok =>
    if c.stage = .running then
      match c.kind with
      | .read _ => some { c with stage := .finished ok }
      | _ => some { c with stage := if ok then .returned else .ended false }
    else none
  | .commitPoint =>
    if c.stage = .returned then
      some { c with stage := if c.cancelled then .ended false else .committing }
    else none
  | .unlock =>
    match c.stage with
    | .settled committed => some { c with stage := .finished committed }
    | _ => none

/-- The handle is open, and bound to the project. -/
def checkProject (project : String) : Option CallError :=
  if c.stage ≠ .running then some .closed
  else if project ≠ c.project then some .foreign
  else none

/-- A call that writes is refused by the handle. -/
def mutation (project : String) : Option CallError :=
  (c.checkProject project).orElse fun _ =>
    match c.kind with
    | .read _ => some .readOnly
    | _ => none

/-- The handle claims in the ledger: it is open and writes. -/
def ledgerRoot : Bool :=
  match c.kind with
  | .write _ => c.stage = .running
  | _ => false

/-- The goroutine can take its snapshot. -/
def ready : Bool :=
  match c.kind with
  | .write _ => !c.cancelled && c.stage = .locked
  | .read _ => !c.cancelled && c.stage = .waiting
  | .direct _ => false

end TaskControl

/-- A goroutine, with the copy its handle is for once there is one. -/
structure Task (α : Type) extends TaskControl where
  handle : Option α := none

/-- How the objects of projects are held in a memory. -/
structure ObjectModel (σ α : Type) where
  load : σ → α → StoredProject
  save : σ → α → StoredProject → α × σ
  fresh : σ → α × σ
  memSnapshot : σ → α → α × σ

/-- By references to cells, which are overwritten in place and cloned by a snapshot. -/
def heapObjects : ObjectModel (Cells ProjectField.Val) (Refs ProjectField) where
  load c o := .ofFields (c.load o)
  save c o p := (o, c.store o p.fields)
  fresh c := c.alloc ({} : StoredProject).fields
  memSnapshot c o := c.copy o ProjectField.cloned

/-- As plain values. -/
def valueObjects : ObjectModel Unit StoredProject where
  load _ p := p
  save _ _ p := (p, ())
  fresh _ := ({}, ())
  memSnapshot _ p := (p, ())

/-- The store and the goroutines that use it. -/
structure SharedMem (σ α : Type) where
  mem : σ
  projects : Table String α := ∅
  tasks : Table Nat (Task α) := ∅
  claims : Table LedgerKey ClaimOwner := ∅

/-- One step of one goroutine, or a read of the store itself. -/
inductive TaskAction where
  | start (t : Nat) (kind : TaskKind)
  | move (t : Nat) (m : TaskMove)
  | snapshot (t : Nat)
  | call (t : Nat) (op : MemCall)
  | look (t : Nat) (project : String)
  | consume (t : Nat) (c : LedgerClaim)
  | release (t : Nat) (c : LedgerClaim)
  | publish (t : Nat)
  | settle (t : Nat)
  | perform (t : Nat)
  | peek (project : String)

/-- The goroutine that takes the step. -/
def TaskAction.task : TaskAction → Option Nat
  | start t _ | move t _ | snapshot t | call t _ | look t _ | consume t _ | release t _
  | publish t | settle t | perform t => some t
  | peek _ => none

/-- What a step answers. -/
inductive TaskReply where
  | none
  | call (r : Except CallError CallReply)
  | value (r : Except CallError StoredProject)
  | claim (r : Except ClaimError Unit)

namespace SharedMem

variable {σ α : Type} (M : ObjectModel σ α) (s : SharedMem σ α)

/-- What is published of a project. -/
def published (project : String) : StoredProject :=
  match s.projects.lookup project with
  | some o => M.load s.mem o
  | none => {}

/-- The object of a project, which is made when it is asked for. -/
def proj (project : String) : α × SharedMem σ α :=
  match s.projects.lookup project with
  | some o => (o, s)
  | none =>
    let (o, mem) := M.fresh s.mem
    (o, { s with mem := mem, projects := s.projects.insert project o })

/-- A goroutine has the token of the project. -/
def locked (project : String) : Bool :=
  (Table.values s.tasks).any fun task => task.project = project && task.holds

/-- Replace a goroutine. -/
def put (t : Nat) (task : Task α) : SharedMem σ α := { s with tasks := s.tasks.insert t task }

/-- Copy the project for the handle of a goroutine. -/
def takeSnapshot (t : Nat) (task : Task α) : SharedMem σ α :=
  let (o, s₁) := s.proj M task.project
  let (copy, mem) := M.memSnapshot s₁.mem o
  { s₁ with mem := mem }.put t { task with stage := .running, handle := some copy }

/-- Make a call through a handle. -/
def callHandle (t : Nat) (task : Task α) (o : α) (op : MemCall) : SharedMem σ α × TaskReply :=
  match op.early true with
  | some e => (s, .call (.error (.store e)))
  | none =>
    match task.mutation op.project with
    | some e => (s, .call (.error e))
    | none =>
      match op.apply true (M.load s.mem o) with
      | .error e => (s, .call (.error (.store e)))
      | .ok (r, p) =>
        let (o', mem) := M.save s.mem o p
        ({ s with mem := mem }.put t { task with handle := some o' }, .call (.ok r))

/-- Look at the project of a handle. -/
def lookHandle (task : Task α) (o : α) (project : String) : TaskReply :=
  match task.checkProject project with
  | some e => .value (.error e)
  | none => .value (.ok (M.load s.mem o))

/-- Take a claim through a handle. -/
def consumeHandle (t : Nat) (task : Task α) (c : LedgerClaim) : SharedMem σ α × TaskReply :=
  if ¬ task.ledgerRoot ∨ ¬ c.inScope task.project ∨ c.key.value = "" ∨ c.owner = "" then
    (s, .claim (.error .invalid))
  else if (s.claims.lookup c.key).isSome then (s, .claim (.error .consumed))
  else
    ({ s with claims := s.claims.insert c.key ⟨some t, c.owner⟩ }.put t
      { task with claimed := task.claimed ++ [c.key] }, .claim (.ok ()))

/-- Give a claim back through a handle. -/
def releaseHandle (t : Nat) (task : Task α) (c : LedgerClaim) : SharedMem σ α :=
  if task.ledgerRoot ∧ Mem.releasable task.project c ∧ c.owner ≠ "" ∧
      s.claims.lookup c.key = some ⟨some t, c.owner⟩ then
    { s with claims := s.claims.erase c.key }
  else s

/-- Make a call on the store itself, on the project as it is published. -/
def performDirect (t : Nat) (task : Task α) (op : MemCall) : SharedMem σ α × TaskReply :=
  let (o, s₁) := s.proj M op.project
  let done := { task with stage := .settled true }
  match op.apply false (M.load s₁.mem o) with
  | .error e => (s₁.put t done, .call (.error (.store e)))
  | .ok (r, p) =>
    let (o', mem) := M.save s₁.mem o p
    ({ s₁ with mem := mem, projects := s₁.projects.insert op.project o' }.put t done,
      .call (.ok r))

/-- The store after a step and what is answered, if the step can be taken. -/
def step : TaskAction → Option (SharedMem σ α × TaskReply)
  | .start t kind =>
    if (s.tasks.lookup t).isSome then none
    else
      match kind.early with
      | some e =>
        some (s.put t { kind := kind, stage := .finished false }, .call (.error (.store e)))
      | none => some (s.put t { kind := kind }, .none)
  | .move t m =>
    (s.tasks.lookup t).bind fun task =>
      (task.move (!s.locked task.project) m).map fun c =>
        (s.put t { task with toTaskControl := c }, .none)
  | .snapshot t =>
    (s.tasks.lookup t).bind fun task =>
      if task.ready then some (s.takeSnapshot M t task, .none) else none
  | .call t op =>
    (s.tasks.lookup t).bind fun task => task.handle.map fun o => s.callHandle M t task o op
  | .look t project =>
    (s.tasks.lookup t).bind fun task => task.handle.map fun o => (s, s.lookHandle M task o project)
  | .consume t c =>
    (s.tasks.lookup t).bind fun task => task.handle.map fun _ => s.consumeHandle t task c
  | .release t c =>
    (s.tasks.lookup t).bind fun task => task.handle.map fun _ => (s.releaseHandle t task c, .none)
  | .publish t =>
    (s.tasks.lookup t).bind fun task =>
      if task.stage = .committing then
        task.handle.map fun o =>
          ({ s with projects := s.projects.insert task.project o }.put t
            { task with stage := .ended true }, .none)
      else none
  | .settle t =>
    (s.tasks.lookup t).bind fun task =>
      match task.stage with
      | .ended committed =>
        some ({ s with claims := task.claimed.foldl (Mem.settleKey t committed) s.claims }.put t
          { task with stage := .settled committed }, .none)
      | _ => none
  | .perform t =>
    (s.tasks.lookup t).bind fun task =>
      match task.kind with
      | .direct op => if task.stage = .locked then some (s.performDirect M t task op) else none
      | _ => none
  | .peek project => let (o, s₁) := s.proj M project; some (s₁, .value (.ok (M.load s₁.mem o)))

/-- The store after a run, if every step of it can be taken. -/
def run (s : SharedMem σ α) : List TaskAction → Option (SharedMem σ α)
  | [] => some s
  | a :: acts => (s.step M a).bind fun r => r.1.run acts

end SharedMem

end Averin
