import Averin.Core.Growing
import Averin.Verify.LogIndex

/-!
# The incremental log

A cursor answers one frontier after another. It keeps the closure, the log and the hash
accumulators of the last frontier, and reuses them when the walk from the new frontier has
met every member of the old one; otherwise it starts over. Either way the answer is the
one computed from scratch.
-/

namespace Averin

open Std (TreeMap TreeSet)

/-- What is kept from one frontier to the next. -/
structure LogCursor where
  /-- Membership in the closure of the last frontier. -/
  inPrev : List Bool
  /-- The known members of the last frontier. -/
  prevFront : List Nat
  /-- The last log, by number and position. -/
  log : List (Int × Nat)
  /-- The accumulator after each prefix of the log. -/
  accs : List (Vector UInt8 32)
  /-- The first entry out of sequence. -/
  gapAt : Option Nat
  visit : List Nat
  hit : List Nat
  gen : Nat

namespace LogCursor

/-- Walk without expanding nodes of the last closure; these are stamped as hit. -/
def walkLoop (idx : LogIndex) (inPrev : List Bool) (g : Nat) :
    (fuel : Nat) → (stack visit hit fresh : List Nat) → List Nat × List Nat × List Nat
  | 0, _, visit, hit, fresh => (visit, hit, fresh)
  | _ + 1, [], visit, hit, fresh => (visit, hit, fresh)
  | fuel + 1, x :: stack, visit, hit, fresh =>
    if inPrev.getD x false then walkLoop idx inPrev g fuel stack visit (hit.set x g) fresh
    else if visit.getD x 0 = g then walkLoop idx inPrev g fuel stack visit hit fresh
    else
      walkLoop idx inPrev g fuel ((idx.dag.parentsOf x).reverse ++ stack) (visit.set x g) hit
        (fresh ++ [x])

/-- The newly found nodes, with a new stamp for this walk. -/
def walk (idx : LogIndex) (c : LogCursor) (front : List Nat) : LogCursor × List Nat :=
  let g := c.gen + 1
  let fuel := front.length + openEdges idx.dag.parentsOf (.range idx.dag.parents.length) []
  let (visit, hit, fresh) := walkLoop idx c.inPrev g fuel front.reverse c.visit c.hit []
  ({ c with visit := visit, hit := hit, gen := g }, fresh)

/-- Forget the last frontier. -/
def reset (c : LogCursor) : LogCursor :=
  { c with
    inPrev := c.inPrev.map fun _ => false
    prevFront := []
    log := []
    accs := c.accs.take 1
    gapAt := none }

/-- Every known member of the last frontier was hit by the last walk. -/
def contained (c : LogCursor) : Bool := c.prevFront.all fun m => c.hit.getD m 0 == c.gen

/-- The new nodes join the closure. -/
def mark (c : LogCursor) (front fresh : List Nat) : LogCursor :=
  { c with inPrev := fresh.foldl (·.set · true) c.inPrev, prevFront := front }

section

variable (sha256 : List UInt8 → Vector UInt8 32) (rts : List RecordTrust)

/-- The hash of the trust entry at a position, empty outside the list. -/
def hashAt (pos : Nat) : String := (rts[pos]?.map (·.contentHash)).getD ""

/-- Fold the entries from index `i` on, and look for the first one out of sequence. -/
def foldTail : (tail : List (Int × Nat)) → (i : Nat) → (gapAt : Option Nat) →
    (accs : List (Vector UInt8 32)) → Option Nat × List (Vector UInt8 32)
  | [], _, gapAt, accs => (gapAt, accs)
  | (seq, pos) :: tail, i, gapAt, accs =>
    let gapAt := if gapAt = none ∧ seq ≠ (i : Int) + 1 then some i else gapAt
    let prev := accs.getD i default
    foldTail tail (i + 1) gapAt (accs ++ [grantHeadStep sha256 prev (seq, hashAt rts pos)])

/-- Merge new entries. Everything before the least of them stays in place, with its
accumulators and its gap. -/
def merge (c : LogCursor) (add : List (Int × Nat)) : LogCursor :=
  match add.insertionSort (toLex · ≤ toLex ·) with
  | [] => c
  | first :: rest =>
    let p := partitionPoint toLex first c.log
    let tail := (c.log.drop p ++ first :: rest).insertionSort (toLex · ≤ toLex ·)
    let folded := foldTail sha256 rts tail p (c.gapAt.filter (· < p)) (c.accs.take (p + 1))
    { c with log := c.log.take p ++ tail, gapAt := folded.1, accs := folded.2 }

/-- What the next head is compared with. -/
def state (c : LogCursor) : LogState where
  n := c.log.length
  gapless := c.gapAt.isNone
  root := rootText (c.accs.getD c.log.length default)

/-- A cursor that has seen no frontier. -/
def new (idx : LogIndex) : LogCursor where
  inPrev := .replicate idx.dag.parents.length false
  prevFront := []
  log := []
  accs := [grantHeadSeed sha256]
  gapAt := none
  visit := .replicate idx.dag.parents.length 0
  hit := .replicate idx.dag.parents.length 0
  gen := 0

/-- Answer the next frontier. -/
def advance (idx : LogIndex) (c : LogCursor) (frontier : List String) : LogCursor :=
  let front := frontier.filterMap (idx.dag.nodeOf[·]?)
  let first := c.walk idx front
  let (c, fresh) := if first.1.contained then first else first.1.reset.walk idx front
  (c.mark front fresh).merge sha256 rts (fresh.flatMap idx.entriesOf)

/-- The answers to a sequence of frontiers. -/
def answers (idx : LogIndex) : (c : LogCursor) → List (List String) → List LogState
  | _, [] => []
  | c, frontier :: rest =>
    (c.advance sha256 rts idx frontier).state ::
      answers idx (c.advance sha256 rts idx frontier) rest

end

end LogCursor

end Averin
