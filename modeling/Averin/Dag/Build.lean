import Averin.Core.Kahn
import Averin.Canon.Value

/-!
# Building the causal DAG

Records link to their parents by content hash. Building indexes the records, resolves
every parent, sorts topologically and collects the heads. Ordered maps and sets are the
standard tree maps; their keys are iterated in ascending order, as in the program.
-/

namespace Averin

open Std (TreeMap TreeSet)

/-- A lowercase hex digit. -/
def hexVal (c : UInt8) : Option UInt8 :=
  if '0'.toUInt8 ≤ c ∧ c ≤ '9'.toUInt8 then some (c - '0'.toUInt8)
  else if 'a'.toUInt8 ≤ c ∧ c ≤ 'f'.toUInt8 then some (c - 'a'.toUInt8 + 10)
  else none

/-- Two hex digits a byte. -/
def hexPairs : List UInt8 → Option (List UInt8)
  | [] => some []
  | hi :: lo :: rest =>
    match hexVal hi, hexVal lo, hexPairs rest with
    | some h, some l, some out => some ((h <<< 4 ||| l) :: out)
    | _, _, _ => none
  | [_] => none

/-- The 32 bytes of a `sha256:<64-hex>` text, if it is one. -/
def parseSha256 (s : String) : Option (List UInt8) :=
  match (bytes "sha256:").isPrefixOf? (bytes s) with
  | none => none
  | some hex => if hex.length ≠ 64 then none else hexPairs hex

/-- Why a set of records is no graph. -/
inductive DagError where
  | recordNotObject (i : Nat)
  | missingContentHash (i : Nat)
  | badContentHash (i : Nat)
  | causalNotArray (i : Nat)
  | badParentHash (record parent : String)
  | missingParent (record parent : String)
  | cycle (remaining : Nat)
  deriving DecidableEq, Repr

/-- The graph of the records' causal hashes. -/
structure Dag where
  /-- Content hash to the index of a record that carries it. -/
  byHash : TreeMap String Nat
  /-- The hashes no record lists as a parent, in ascending order. -/
  heads : List String
  /-- Every parent precedes its children. -/
  topoOrder : List String
  collapsedDuplicates : Nat
  /-- The frontier of the base checkpoint, when a segment is built. -/
  externalFrontier : TreeSet String
  /-- Parents older than the base of a segment. -/
  earlierRefs : TreeSet String

/-- The hash a record carries, which has to be one. -/
def contentHashOf (rec : CanonValue) (i : Nat) : Except DagError String :=
  match (rec.get "content_hash").bind CanonValue.asStr with
  | none => .error (.missingContentHash i)
  | some ch => if (parseSha256 ch).isNone then .error (.badContentHash i) else .ok ch

/-- The strings of a list of values, unless one is not a string. -/
def stringItems : List CanonValue → Option (List String)
  | [] => some []
  | v :: rest =>
    match v.asStr, stringItems rest with
    | some s, some out => some (s :: out)
    | _, _ => none

/-- The hashes a record names as its parents. -/
def parentsOf (rec : CanonValue) (i : Nat) : Except DagError (List String) :=
  match rec.get "causal_prev_hashes" with
  | none => .ok []
  | some v =>
    match v.asArray.bind stringItems with
    | none => .error (.causalNotArray i)
    | some out => .ok out

/-- Index by content hash. A repeated hash overwrites the index and counts as collapsed. -/
def indexRecords : List CanonValue → (i : Nat) → TreeMap String Nat → (collapsed : Nat) →
    Except DagError (TreeMap String Nat × Nat)
  | [], _, byHash, collapsed => .ok (byHash, collapsed)
  | rec :: rest, i, byHash, collapsed =>
    if rec.asObject.isNone then .error (.recordNotObject i)
    else
      match contentHashOf rec i with
      | .error e => .error e
      | .ok ch =>
        indexRecords rest (i + 1) (byHash.insert ch i)
          (if byHash.contains ch then collapsed + 1 else collapsed)

/-- What resolving the parents collects. -/
structure Links where
  inDegree : TreeMap String Nat
  children : TreeMap String (List String)
  referenced : TreeMap String Bool
  baseReferenced : TreeSet String
  earlierRefs : TreeSet String

/-- One resolved edge from the record `ch` to its parent `p`. -/
def linkParent (ch p : String) (links : Links) : Links :=
  { links with
    inDegree := links.inDegree.insert ch (links.inDegree.getD ch 0 + 1)
    children := links.children.insert p (links.children.getD p [] ++ [ch])
    referenced := links.referenced.insert p true }

/-- A parent outside the record set: an error, or a reference to the base of a segment. -/
def linkOutside (base : Option (TreeSet String)) (ch p : String) (links : Links) :
    Except DagError Links :=
  match base with
  | none => .error (.missingParent ch p)
  | some base =>
    if base.contains p then .ok { links with baseReferenced := links.baseReferenced.insert p }
    else .ok { links with earlierRefs := links.earlierRefs.insert p }

/-- The parents of one record, each counted once. -/
def linkParents (byHash : TreeMap String Nat) (base : Option (TreeSet String)) (ch : String) :
    List String → (seen : List String) → Links → Except DagError Links
  | [], _, links => .ok links
  | p :: ps, seen, links =>
    if (parseSha256 p).isNone then .error (.badParentHash ch p)
    else if !byHash.contains p then
      match linkOutside base ch p links with
      | .error e => .error e
      | .ok links => linkParents byHash base ch ps seen links
    else if seen.contains p then linkParents byHash base ch ps seen links
    else linkParents byHash base ch ps (p :: seen) (linkParent ch p links)

/-- The parents of every indexed record. -/
def linkRecords (records : List CanonValue) (byHash : TreeMap String Nat)
    (base : Option (TreeSet String)) : List (String × Nat) → Links → Except DagError Links
  | [], links => .ok links
  | (ch, i) :: rest, links =>
    match parentsOf (records.getD i .null) i with
    | .error e => .error e
    | .ok parents =>
      match linkParents byHash base ch parents [] links with
      | .error e => .error e
      | .ok links => linkRecords records byHash base rest links

/-- No edge yet. -/
def noLinks (byHash : TreeMap String Nat) : Links where
  inDegree := byHash.map fun _ _ => 0
  children := ∅
  referenced := byHash.map fun _ _ => false
  baseReferenced := ∅
  earlierRefs := ∅

/-- The members of the base frontier that stay heads of a segment. -/
def baseHeads (byHash : TreeMap String Nat) (links : Links) :
    Option (TreeSet String) → List String
  | none => []
  | some base =>
    base.toList.filter fun m => !links.baseReferenced.contains m && !byHash.contains m

/-- Build over a whole history, or over one segment on top of a base frontier. -/
def buildFrom (records : List CanonValue) (base : Option (TreeSet String)) :
    Except DagError Dag :=
  match indexRecords records 0 ∅ 0 with
  | .error e => .error e
  | .ok (byHash, collapsed) =>
    match linkRecords records byHash base byHash.toList (noLinks byHash) with
    | .error e => .error e
    | .ok links =>
      let queue := (links.inDegree.toList.filter (·.2 == 0)).map (·.1)
      let topo := kahn links.children byHash.size (queue.insertionSort (· ≤ ·)) links.inDegree []
      if topo.length ≠ byHash.size then .error (.cycle (byHash.size - topo.length))
      else
        let heads := (links.referenced.toList.filter (!·.2)).map (·.1) ++
          baseHeads byHash links base
        .ok
          { byHash := byHash
            heads := (heads.insertionSort (· ≤ ·)).dedup
            topoOrder := topo
            collapsedDuplicates := collapsed
            externalFrontier := base.getD ∅
            earlierRefs := links.earlierRefs }

/-- Build and validate the causal DAG over a set of records. -/
def build (records : List CanonValue) : Except DagError Dag := buildFrom records none

end Averin
