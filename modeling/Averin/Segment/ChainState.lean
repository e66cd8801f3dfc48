import Averin.Canon.Write
import Averin.Core.Table
import Averin.Segment.Split
import Averin.Verify.Headline

/-!
# Months chained to one history

The months are fed to the chain oldest first, each with its report. The chain checks what no single
month can, remembers which records and checkpoints it has seen, and keeps the whole history as long
as it fits under the byte cap, to be verified in one piece.
-/

namespace Averin

/-- What the walk notes about one month. -/
inductive ChainIssue where
  | notVerified
  | notSegment
  | baseUnpinned
  | monthOrder (prev : String)
  | projectDiffers (found expected : String)
  | baseCount (found expected : Int)
  | danglingParents (parents : List String)
  | malformedReference
  | unknownReference (kind recordId reference : String)
  | notIntent (recordId reference : String)
  | outcomeUnbound (recordId reference : String)
  | reused (hashes ids : List String)
  deriving DecidableEq, Repr

/-- The text an issue is reported with. -/
def ChainIssue.text : ChainIssue → String
  | notVerified => "segment does not verify"
  | notSegment => "not a month segment"
  | baseUnpinned => "base is not the previous month's head"
  | monthOrder prev => "month does not follow " ++ prev
  | projectDiffers found expected => "project " ++ found ++ " differs from " ++ expected
  | baseCount found expected =>
    "base record count " ++ toString found ++ " != previous head's " ++ toString expected
  | danglingParents parents =>
    toString parents.length ++
      " parent(s) name no record in this or any earlier month, e.g. " ++ parents.headD ""
  | malformedReference => "malformed unresolved_cross_month entry"
  | unknownReference kind recordId reference =>
    kind ++ " " ++ recordId ++ " names " ++ reference ++ ", which no earlier month holds"
  | notIntent recordId reference =>
    "use_outcome " ++ recordId ++ " names " ++ reference ++
      ", which is not a use_intent held by an earlier month"
  | outcomeUnbound recordId reference =>
    "use_outcome " ++ recordId ++ " does not bind the earlier use_intent " ++ reference ++
      " (grant or intent_hash differs)"
  | reused hashes ids =>
    toString (max hashes.length ids.length) ++
      " record(s) already absorbed from an earlier month " ++
        "(no record is carried by two months), e.g. " ++ (hashes ++ ids).headD ""

/-- How long a bundle may be. -/
def maxBundleBytes : Nat := 268435456

/-- A month as it is fed to the chain. -/
structure Month where
  bundle : CanonValue
  report : CanonValue

namespace Month

variable (m : Month)

/-- How the issues name the month. -/
def label : String := ((m.bundle.get "segment").bind (strOf · "month")).getD "?"

/-- The records of a month. -/
def records : List CanonValue := arrayOf m.bundle "records"

/-- The checkpoints of a month. -/
def checkpoints : List CanonValue := arrayOf m.bundle "checkpoints"

/-- The disclosures of a month. -/
def disclosures : List CanonValue := arrayOf m.bundle "disclosures"

/-- The hashes of the records. -/
def hashes : List String := m.records.filterMap (strOf · "content_hash")

/-- The identifiers of the records. -/
def ids : List String := m.records.filterMap (strOf · "record_id")

/-- The parents that the records name. -/
def parents : List String := m.records.flatMap causalPrevHashes

/-- The hashes in the frontier of the base checkpoint the month carries. -/
def baseFrontier : List String :=
  (((m.bundle.get "segment").bind (strOf · "base_checkpoint_hash")).bind fun bh =>
    (m.checkpoints.find? fun c => strOf c "checkpoint_hash" = some bh).map fun c =>
      (arrayOf c "frontier").filterMap CanonValue.asStr).getD []

/-- The records before the month. -/
def baseCount : Int := ((m.bundle.get "segment").bind (intOf · "base_record_count")).getD (-1)

/-- A record that is a use intent, with what an outcome has to bind. -/
def intentOf (r : CanonValue) : Option (String × String × String) := do
  guard (evStr r "use_evidence" "kind" = some "use_intent")
  let kind ← ((r.get "extensions").bind (·.get "broker")).bind (strOf · "kind")
  guard (kind = "use_intent")
  let id ← strOf r "record_id"
  let g ← evStr r "use_evidence" "grant_id"
  let h ← strOf r "content_hash"
  return (id, g, h)

/-- The use intents of a month, in the order of its records. -/
def intents : List (String × String × String) := m.records.filterMap intentOf

/-- The members that are keys and the like. -/
def latestMembers : List (String × CanonValue) :=
  (m.bundle.asObject.getD []).filter fun p => !isHistoryMember p.1

/-- The documents that bind the latest head. -/
def boundMembers : List (String × CanonValue) :=
  headBoundKeys.filterMap fun k => (m.bundle.get k).map (k, ·)

end Month

/-- The bytes of a value and of the comma after it. -/
def serializedLen (N : Normalizer) (v : CanonValue) : Nat := (writeCanonical N v).bytes.length + 1

/-- The bytes of the members beside the history. -/
def Month.extraBytes (N : Normalizer) (m : Month) : Nat :=
  ((m.latestMembers ++ m.boundMembers).map fun p => (bytes p.1).length + serializedLen N p.2).sum

/-- What is known of the months so far. -/
structure ChainState where
  projectId : Option String := none
  headHash : Option String := none
  headRecordCount : Int := 0
  lastMonth : Option String := none
  seen : List String := []
  seenIds : List String := []
  /-- The grant and the content hash of every use intent so far, by its record id. -/
  intents : Table String (String × String) := ∅
  allRecords : List CanonValue := []
  allCheckpoints : List CanonValue := []
  seenCheckpoints : List String := []
  members : List (String × CanonValue) := []
  latestBound : List (String × CanonValue) := []
  allDisclosures : List CanonValue := []
  hasDisclosures : Bool := false
  historyBytes : Nat := 0
  latestExtraBytes : Nat := 0
  capOverride : Option Nat := none
  overCap : Bool := false
  months : Nat := 0
  records : Nat := 0
  issues : List String := []

/-- Keep the checkpoints whose hash was not seen before, and those without a hash. -/
def newCheckpoints : List CanonValue → (seen : List String) → List CanonValue × List String
  | [], seen => ([], seen)
  | c :: rest, seen =>
    match strOf c "checkpoint_hash" with
    | some k =>
      if k ∈ seen then newCheckpoints rest seen
      else (c :: (newCheckpoints rest (k :: seen)).1, (newCheckpoints rest (k :: seen)).2)
    | none => (c :: (newCheckpoints rest seen).1, (newCheckpoints rest seen).2)

/-- A list as an ordered set. -/
def orderedSet (l : List String) : List String := l.dedup.insertionSort (· ≤ ·)

/-- The segment block of a report states the month; without one it is empty. -/
def monthOf (seg : CanonValue) : String := (strOf seg "month").getD ""

namespace ChainState

/-- A chain with its own byte cap, or with the one of the verifier. -/
def fresh (capOverride : Option Nat) : ChainState := { capOverride := capOverride }

variable (c : ChainState) (m : Month) (seg : CanonValue) (N : Normalizer)

/-- The cap that counts. -/
def cap : Nat := c.capOverride.getD maxBundleBytes

/-- The month itself verified. -/
def okIssues : List ChainIssue := if flagOf m.report "ok" then [] else [.notVerified]

/-- Its base was pinned. -/
def linkIssues : List ChainIssue :=
  if strOf seg "link" = some "base_unpinned" then [.baseUnpinned] else []

/-- The months are in order. -/
def monthIssues : List ChainIssue :=
  match c.lastMonth with
  | some prev => if monthOf seg ≤ prev then [.monthOrder prev] else []
  | none => []

/-- They are of one project. -/
def projectIssues : List ChainIssue :=
  match c.projectId, strOf m.bundle "project_id" with
  | some a, some b => if a ≠ b then [.projectDiffers b a] else []
  | _, _ => []

/-- The counts go on. -/
def countIssues : List ChainIssue :=
  if c.headHash.isSome ∧ m.baseCount ≠ c.headRecordCount then
    [.baseCount m.baseCount c.headRecordCount]
  else []

/-- The parents that no record of this month or an earlier one is, and that the base does not
name. -/
def dangling : List String :=
  orderedSet (m.parents.filter fun p =>
    !m.hashes.contains p && !m.baseFrontier.contains p && !c.seen.contains p)

/-- Parents are in the months before. -/
def parentIssues : List ChainIssue :=
  if c.dangling m = [] then [] else [.danglingParents (c.dangling m)]

/-- An outcome binds the earlier intent it names: the same grant, and its content hash. -/
def outcomeIssues (rid reference : String) : List ChainIssue :=
  match c.intents.lookup reference with
  | none => [.notIntent rid reference]
  | some intent =>
    let outcome := m.records.find? fun r => strOf r "record_id" = some rid
    if outcome.bind (evStr · "use_outcome" "grant_id") ≠ some intent.1 ∨
        outcome.bind (evStr · "use_outcome" "intent_hash") ≠ some intent.2 then
      [.outcomeUnbound rid reference]
    else []

/-- A use or outcome whose counterpart is earlier must find it there. -/
def referenceIssues (u : CanonValue) : List ChainIssue :=
  match strOf u "kind", strOf u "record_id", strOf u "ref" with
  | some kind, some rid, some reference =>
    if !c.seenIds.contains reference then [.unknownReference kind rid reference]
    else if kind = "use_outcome" then c.outcomeIssues m rid reference
    else []
  | _, _, _ => [.malformedReference]

/-- What was left to other months is found there. -/
def crossIssues : List ChainIssue :=
  (arrayOf seg "unresolved_cross_month").flatMap (c.referenceIssues m)

/-- No record that an earlier month holds is carried again. -/
def reuseIssues : List ChainIssue :=
  let hashes := orderedSet (m.hashes.filter c.seen.contains)
  let ids := orderedSet (m.ids.filter c.seenIds.contains)
  if hashes = [] ∧ ids = [] then [] else [.reused hashes ids]

/-- All issues of a month with a segment. -/
def segmentIssues : List ChainIssue :=
  linkIssues seg ++ (c.monthIssues seg ++ (c.projectIssues m ++ (c.countIssues m ++
    (c.parentIssues m ++ (c.crossIssues m seg ++ c.reuseIssues m)))))

/-- The bytes a month adds to the history. -/
def addedBytes (new : List CanonValue) : Nat :=
  (new.map (serializedLen N)).sum + ((m.records.map (serializedLen N)).sum +
    (m.disclosures.map (serializedLen N)).sum)

/-- The history grows by a month; once it is over the cap it is no longer held. -/
def grow : ChainState :=
  if c.overCap then c
  else
    let new := newCheckpoints m.checkpoints c.seenCheckpoints
    let historyBytes := c.historyBytes + addedBytes m N new.1
    if c.cap < historyBytes + c.latestExtraBytes then
      { c with
        seenCheckpoints := new.2
        historyBytes := historyBytes
        overCap := true
        allRecords := []
        allCheckpoints := []
        allDisclosures := [] }
    else
      { c with
        seenCheckpoints := new.2
        historyBytes := historyBytes
        allRecords := c.allRecords ++ m.records
        allCheckpoints := c.allCheckpoints ++ new.1
        allDisclosures := c.allDisclosures ++ m.disclosures }

/-- What is remembered of a month before the history grows. -/
def remember : ChainState :=
  { c with
    projectId := c.projectId.or (strOf m.bundle "project_id")
    seen := c.seen ++ m.hashes
    intents := m.intents.foldl (fun t i => t.insert i.1 i.2) c.intents
    seenIds := c.seenIds ++ m.ids
    hasDisclosures := c.hasDisclosures || (m.bundle.get "disclosures").isSome
    latestExtraBytes := m.extraBytes N }

/-- What is kept of the latest month alone. -/
def advance : ChainState :=
  { c with
    members := m.latestMembers
    latestBound := m.boundMembers
    records := c.records + m.records.length
    months := c.months + 1
    lastMonth := some (monthOf seg)
    headHash := strOf seg "head_checkpoint_hash"
    headRecordCount := (intOf seg "head_record_count").getD 0 }

/-- The issues of a month under its label. -/
def report (issues : List ChainIssue) : ChainState :=
  { c with issues := c.issues ++ issues.map fun i => m.label ++ ": " ++ i.text }

/-- Absorb one month after it was verified. -/
def absorb : ChainState :=
  match m.report.get "segment" with
  | none => c.report m (okIssues m ++ [.notSegment])
  | some seg =>
    (((c.report m (okIssues m ++ c.segmentIssues m seg)).remember m N).grow m N).advance m seg

/-- Absorb months, oldest first. -/
def absorbAll (ms : List Month) : ChainState := ms.foldl (fun c m => c.absorb m N) c

/-- Some month was absorbed and nothing was wrong. -/
def isOk : Bool := 0 < c.months && c.issues.isEmpty

/-- The members of the whole history. -/
def wholeMembers : List (String × CanonValue) :=
  c.members ++ ([("records", .arr c.allRecords), ("checkpoints", .arr c.allCheckpoints)] ++
    ((if c.hasDisclosures then [("disclosures", .arr c.allDisclosures)] else []) ++ c.latestBound))

/-- The absorbed months as one history. -/
def wholeBundle : Option CanonValue :=
  if c.months = 0 ∨ c.overCap then none else (CanonValue.object N c.wholeMembers).toOption

end ChainState

/-- The verdict, with the whole bundle where there is one. -/
structure ChainVerdict where
  verdict : ClaimVerdict
  whole : Option CanonValue

/-- The verdict of the chain: that of the whole history where it can be verified in one piece. -/
def ChainState.finishWith (c : ChainState) (N : Normalizer)
    (verify : CanonValue → Option CanonValue) : ChainVerdict :=
  if 0 < c.months ∧ c.overCap then
    { verdict := if c.isOk then .insufficient else .fail, whole := none }
  else
    match c.wholeBundle N with
    | none => { verdict := .fail, whole := none }
    | some whole =>
      let verdict := match verify whole with
        | some r => monthClaimVerdict r false
        | none => .insufficient
      { verdict := if c.isOk then verdict else .fail, whole := verify whole }

end Averin
