import Averin.Core.Table
import Averin.Verify.RevocationTree

/-!
# The order of a receipt and a revocation

A signed revocation list names every revoked grant once, with its mode and, for a prospective
revocation, the number it takes effect at. Together with the number a receipt carries this says
whether the receipt came before. A list that is not well formed supports nothing.
-/

namespace Averin

/-- A number of fixed width. -/
def fixedDigits (b : List UInt8) (start stop : Nat) : Option Int :=
  ((b.drop start).take (stop - start)).foldlM (fun n c =>
    if 0x30 ≤ c ∧ c ≤ 0x39 then some (n * 10 + ((c - 0x30).toNat : Int)) else none) 0

/-- The days of a month. -/
def daysInMonth (year month : Int) : Option Int :=
  if month ∈ [1, 3, 5, 7, 8, 10, 12] then some 31
  else if month ∈ [4, 6, 9, 11] then some 30
  else if month = 2 then
    some (if (year % 4 = 0 ∧ year % 100 ≠ 0) ∨ year % 400 = 0 then 29 else 28)
  else none

/-- The days from the start of 1970. -/
def daysFromCivil (year month day : Int) : Int :=
  let y := if month ≤ 2 then year - 1 else year
  let era := y / 400
  let yoe := y - era * 400
  let mp := (month + 9) % 12
  let doy := (153 * mp + 2) / 5 + day - 1
  let doe := yoe * 365 + yoe / 4 - yoe / 100 + doy
  era * 146097 + doe - 719468

/-- The milliseconds since 1970 of a time in the one spelling that is accepted. -/
def canonicalTsMillis (s : String) : Option Int := do
  let b := bytes s
  if b.length ≠ 24 ∨ b[4]? ≠ some 0x2D ∨ b[7]? ≠ some 0x2D ∨ b[10]? ≠ some 0x54 ∨
      b[13]? ≠ some 0x3A ∨ b[16]? ≠ some 0x3A ∨ b[19]? ≠ some 0x2E ∨ b[23]? ≠ some 0x5A then
    none
  let year ← fixedDigits b 0 4
  let month ← fixedDigits b 5 7
  let day ← fixedDigits b 8 10
  let hour ← fixedDigits b 11 13
  let min ← fixedDigits b 14 16
  let sec ← fixedDigits b 17 19
  let ms ← fixedDigits b 20 23
  let last ← daysInMonth year month
  if day < 1 ∨ day > last ∨ hour > 23 ∨ min > 59 ∨ sec > 59 then none
  return (((daysFromCivil year month day * 24 + hour) * 60 + min) * 60 + sec) * 1000 + ms

namespace RevState

/-- A total revocation wins, otherwise the earlier cutoff. -/
def combine : RevState → RevState → RevState
  | .prospective a, .prospective b => .prospective (if a ≤ b then a else b)
  | _, _ => .total

end RevState

/-- The snapshot a list was read from. -/
structure Snapshot where
  projectId : String
  boundaryTime : String
  boundaryMs : Int
  watermark : Int
  deriving DecidableEq, Repr

/-- Read the snapshot of a list, which has just the two fields. -/
def parseSnapshot (artifact : CanonValue) : Except String Snapshot := do
  let projectId ← orFail ((strOf artifact "project_id").filter (· ≠ "")) "missing project_id"
  let snap ← orFail (artifact.get "snapshot") "missing snapshot"
  let fields ← orFail snap.asObject "snapshot is not an object"
  require (fields.length = 2)
    "snapshot must carry exactly boundary_time and authorization_high_watermark"
  let boundaryTime ← orFail (strOf snap "boundary_time") "snapshot.boundary_time missing"
  let boundaryMs ← orFail (canonicalTsMillis boundaryTime) "snapshot.boundary_time is not canonical"
  let watermark ← orFail ((intOf snap "authorization_high_watermark").filter (0 ≤ ·))
    "snapshot.authorization_high_watermark must be an integer >= 0"
  return ⟨projectId, boundaryTime, boundaryMs, watermark⟩

/-- What a list says of the grants it names. -/
structure V2Entries where
  states : Table String RevState := ∅
  ids : Finset String := ∅
  wellFormed : Bool := true

/-- The state an entry commits to. -/
def parseState (e : CanonValue) (watermark : Option Int) : Option RevState := do
  let fields ← e.asObject
  let mode ← strOf e "mode"
  if mode = "total" ∧ fields.length = 2 then some .total
  else if mode = "prospective" ∧ fields.length = 3 then
    match e.get "cutoff_order" with
    | some (.int c) =>
      if 1 ≤ c.toInt ∧ ∀ w ∈ watermark, c.toInt ≤ w then some (.prospective c) else none
    | _ => none
  else none

/-- Read one entry, after the named one. -/
def parseV2Entry (watermark : Option Int) (acc : V2Entries × Option String) (e : CanonValue) :
    V2Entries × Option String :=
  let (out, previous) := acc
  let gid := strOf e "grant_id"
  let ids := gid.elim out.ids (insert · out.ids)
  match gid, parseState e watermark with
  | some g, some st =>
    if g ≠ "" then
      -- A repeated grant is still combined, but the list is malformed.
      let merged := ((out.states.lookup g).map (·.combine st)).getD st
      (⟨out.states.insert g merged, ids, out.wellFormed && previous.all (· < g)⟩, some g)
    else (⟨out.states, ids, false⟩, previous)
  | some g, none => (⟨out.states.insert g .total, ids, false⟩, previous)
  | none, _ => (⟨out.states, ids, false⟩, previous)

/-- The entries of a list of the second version. -/
def parseV2Entries (list : CanonValue) (watermark : Option Int) : V2Entries :=
  match (list.get "revocations").bind CanonValue.asArray with
  | none => { wellFormed := false }
  | some arr => (arr.foldl (parseV2Entry watermark) ({}, none)).1

/-- The number a receipt carries. -/
inductive OrderEv where
  | absent
  | malformed
  | present (projectId : String) (ordinal : Int)
  deriving DecidableEq, Repr

namespace OrderEv

/-- The place of a use in the order. -/
def ordinal : OrderEv → Option Int
  | present _ n => some n
  | _ => none

end OrderEv

/-- Read the number of a receipt from its evidence. -/
def authorizationOrderOf (rec : CanonValue) (payloadKey : String) : OrderEv :=
  match evValue rec payloadKey "authorization_order" with
  | none => .absent
  | some o =>
    let well := o.asObject.any (·.length = 3) &&
      strOf o "format" = some "averin.authorization_order.v1"
    match well, o.get "project_id", o.get "ordinal" with
    | true, some (.str p), some (.int n) =>
      if p ≠ "" ∧ 1 ≤ n.toInt then .present p n.toInt else .malformed
    | _, _, _ => .malformed

/-- What all signed lists together say of a grant. -/
inductive GrantRevocation where
  | notEvaluated
  | notRevokedUnbound
  | notRevokedAsOfSnapshot
  | prospective (cutoff : Int)
  | total
  | revokedUnverified (cutoff : Option Int)
  | unproven (cutoff : Option Int)
  deriving DecidableEq, Repr

/-- The cutoff that speaks against a receipt. -/
def GrantRevocation.adverseCutoff : GrantRevocation → Option Int
  | prospective c => some c
  | unproven c => c
  | revokedUnverified c => c
  | _ => none

/-- What was gathered about a grant so far. -/
structure GrantRevocationAcc where
  total : Bool := false
  unverified : Bool := false
  unproven : Bool := false
  cutoff : Option Int := none
  v2Sources : Nat := 0
  v2Nonmember : Nat := 0
  anySource : Bool := false
  deriving DecidableEq, Repr

namespace GrantRevocationAcc

variable (acc : GrantRevocationAcc)

/-- Add what a usable list says. -/
def v2 (state : Option RevState) : GrantRevocationAcc :=
  let acc := { acc with anySource := true, v2Sources := acc.v2Sources + 1 }
  match state with
  | none => { acc with v2Nonmember := acc.v2Nonmember + 1 }
  | some .total => { acc with total := true }
  | some (.prospective c) =>
    { acc with cutoff := some (acc.cutoff.elim c.toInt (min · c.toInt)) }

/-- What the sources together say. -/
def finish : GrantRevocation :=
  if acc.total then .total
  else if acc.unproven then .unproven acc.cutoff
  else if acc.unverified then .revokedUnverified acc.cutoff
  else
    match acc.cutoff with
    | some c => .prospective c
    | none =>
      if 0 < acc.v2Sources ∧ acc.v2Nonmember = acc.v2Sources then .notRevokedAsOfSnapshot
      else if acc.anySource then .notRevokedUnbound
      else .notEvaluated

end GrantRevocationAcc

/-- Where a use stands relative to the revocation. -/
inductive HistoricalOrdering where
  | provenBefore
  | atOrAfter
  | indeterminate
  deriving DecidableEq, Repr

/-- The verdict on one receipt. -/
def classify (snapshot : Option Snapshot) (validated : Bool) (order : OrderEv)
    (grant : GrantRevocation) : HistoricalOrdering :=
  match order with
  | .present projectId ordinal =>
    if !validated then .indeterminate
    else if grant.adverseCutoff.any (· ≤ ordinal) then .atOrAfter
    else
      match snapshot with
      | none => .indeterminate
      | some snap =>
        if projectId ≠ snap.projectId ∨ snap.watermark < ordinal then .indeterminate
        else
          match grant with
          | .notRevokedAsOfSnapshot | .prospective _ => .provenBefore
          | _ => .indeterminate
  | _ => .indeterminate

end Averin
