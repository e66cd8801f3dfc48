import Averin.Checkpoint.Coverage
import Averin.Core.Framing
import Averin.Core.Worklist

/-!
# The grant log of a frontier

A broker numbers its grants and its void tombstones. A frontier commits the records it
reaches, and with them a log: the numbered entries among them in ascending order. The log
is folded into a hash chain whose last value is the root a checkpoint carries.
-/

namespace Averin

open Std (TreeMap TreeSet)

/-- Whom a record speaks for. -/
inductive BrokerRole where
  | broker | resource | void | none
  deriving DecidableEq, Repr

/-- The role a record plays, from its broker kind and its enforcement point. -/
def classifyRole (rec : CanonValue) : BrokerRole :=
  let kind := (((rec.get "extensions").bind (·.get "broker")).bind (·.get "kind")).bind
    CanonValue.asStr
  let ep := ((rec.get "authority").bind (·.get "enforcement_point")).bind CanonValue.asStr
  match kind, ep with
  | some "grant", some "credential_broker" => .broker
  | some "grant_void", some "credential_broker" => .void
  | some "use", some "tool_gateway" => .resource
  | some "use_intent", some "tool_gateway" => .resource
  | some "use_outcome", some "tool_gateway" => .resource
  | some "introspection_transcript", some "tool_gateway" => .resource
  | _, _ => .none

/-- A field of the evidence payload of a record. -/
def evValue (rec : CanonValue) (payloadKey field : String) : Option CanonValue :=
  (((rec.get "extensions").bind (·.get "broker")).bind (·.get payloadKey)).bind (·.get field)

/-- A text of the evidence of a record. -/
def evStr (rec : CanonValue) (payloadKey field : String) : Option String :=
  (evValue rec payloadKey field).bind CanonValue.asStr

/-- A number of the evidence of a record. -/
def evInt (rec : CanonValue) (payloadKey field : String) : Option Int :=
  (evValue rec payloadKey field).bind CanonValue.asInt

/-- What the log reads of the trust entry of a record. The report keeps the role as its
text, which is another spelling of the same four cases. -/
structure RecordTrust where
  index : Nat
  contentHash : String
  brokerRole : BrokerRole
  deriving DecidableEq, Repr

/-- The trust entry of the record at position `i`. -/
def trustEntry (rec : CanonValue) (i : Nat) : RecordTrust where
  index := i
  contentHash := (recordHash rec).getD ""
  brokerRole := classifyRole rec

/-- One trust entry a listed record. -/
def recordTrustOf (records : List CanonValue) : List RecordTrust :=
  records.mapIdx fun i rec => trustEntry rec i

/-- The record a trust entry is about. -/
def recordAt (records : List CanonValue) (rt : RecordTrust) : CanonValue :=
  records.getD rt.index .null

/-- The trust entries of a list are those of its records at their positions. -/
theorem mem_recordTrustOf {records : List CanonValue} {rt : RecordTrust} :
    rt ∈ recordTrustOf records ↔ ∃ i rec, records[i]? = some rec ∧ rt = trustEntry rec i := by
  simp only [recordTrustOf, List.mem_mapIdx]
  constructor
  · rintro ⟨i, hi, rfl⟩
    exact ⟨i, records[i], List.getElem?_eq_getElem hi, rfl⟩
  · rintro ⟨i, rec, hget, rfl⟩
    obtain ⟨hi, rfl⟩ := List.getElem?_eq_some_iff.mp hget
    exact ⟨i, hi, rfl⟩

/-- The trust entry of a record leads back to the record. -/
theorem recordAt_trustEntry {records : List CanonValue} {rec : CanonValue} {i : Nat}
    (h : records[i]? = some rec) :
    recordAt records (trustEntry rec i) = rec := by
  simp [recordAt, trustEntry, h]

/-- The payload that numbers a log entry; other roles are no log entries. -/
def logPayloadKey : BrokerRole → Option String
  | .broker => some "grant_evidence"
  | .void => some "void_evidence"
  | _ => none

/-- The hashes a frontier commits: everything reached along the parents of kept records.
Each hash is expanded once, so the pushes are bounded by the frontier and the edges. -/
def committedSet (records : List CanonValue) (byHash : TreeMap String Nat)
    (frontier : List String) : List String :=
  let parents := keptParents records byHash
  explore parents (frontier.length + openEdges parents byHash.keys []) frontier.reverse []

/-- The committed set is what the frontier reaches, whether its members are known or not. -/
theorem mem_committedSet_iff {records : List CanonValue} {byHash : TreeMap String Nat}
    {frontier : List String} {h : String} :
    h ∈ committedSet records byHash frontier ↔
      ReachedFrom (keptParents records byHash) frontier h := by
  have hout : ∀ x ∉ byHash.keys, keptParents records byHash x = [] := by
    intro x hx
    have hnone : byHash[x]? = none := by simpa using hx
    simp [keptParents, hnone]
  unfold committedSet
  rw [mem_explore_iff TreeMap.nodup_keys hout (by simp)]
  simp [ReachedFrom]

/-- The log number of an entry: positive, or the entry is not in the log. -/
def brokerSeq (rec : CanonValue) (payloadKey : String) : Option Int :=
  (evInt rec payloadKey "broker_seq").filter (1 ≤ ·)

/-- A record with a number says one from one on. -/
theorem exists_of_brokerSeq_ne_none {rec : CanonValue} {payloadKey : String}
    (h : brokerSeq rec payloadKey ≠ none) :
    ∃ seq, evInt rec payloadKey "broker_seq" = some seq ∧ 1 ≤ seq := by
  unfold brokerSeq at h
  cases hev : evInt rec payloadKey "broker_seq" with
  | none => simp [hev] at h
  | some seq =>
    refine ⟨seq, rfl, ?_⟩
    by_contra hlt
    exact h (by simp [hev, Option.filter, hlt])

/-- The broker of an entry; an empty name counts as none. -/
def brokerId (rec : CanonValue) (payloadKey : String) : Option String :=
  (evStr rec payloadKey "broker_id").filter (· ≠ "")

/-- A partition is one broker, or all of them. -/
def inPartition (bid : Option String) (rec : CanonValue) (payloadKey : String) : Bool :=
  match bid with
  | none => true
  | some bid => brokerId rec payloadKey == some bid

/-- The log a frontier commits in a partition: the numbered entries in the order of the
trust list, sorted by number with ties kept in place. -/
def committedBrokerLog (recordTrust : List RecordTrust) (records : List CanonValue)
    (byHash : TreeMap String Nat) (frontier : List String) (bid : Option String) :
    List (Int × String) :=
  let committed := committedSet records byHash frontier
  let entries := recordTrust.filterMap fun rt => (logPayloadKey rt.brokerRole).map (rt, ·)
  let kept := entries.filter fun (rt, key) =>
    committed.contains rt.contentHash && inPartition bid (recordAt records rt) key
  let log := kept.filterMap fun (rt, key) =>
    (brokerSeq (recordAt records rt) key).map (·, rt.contentHash)
  log.insertionSort (·.1 ≤ ·.1)

/-- The number of a trust entry in a partition, if it has one. -/
def logSeq (records : List CanonValue) (bid : Option String) (rt : RecordTrust) : Option Int :=
  (logPayloadKey rt.brokerRole).bind fun key =>
    if inPartition bid (recordAt records rt) key then brokerSeq (recordAt records rt) key else none

/-- The log entry of a trust entry whose hash is committed. -/
def committedEntry (records : List CanonValue) (bid : Option String) (committed : List String)
    (rt : RecordTrust) : Option (Int × String) :=
  if rt.contentHash ∈ committed then (logSeq records bid rt).map (·, rt.contentHash) else none

/-- The three passes over the trust list are one. -/
theorem committedBrokerLog_eq {recordTrust : List RecordTrust} {records : List CanonValue}
    {byHash : TreeMap String Nat} {frontier : List String} {bid : Option String} :
    committedBrokerLog recordTrust records byHash frontier bid =
      (recordTrust.filterMap
        (committedEntry records bid (committedSet records byHash frontier))).insertionSort
        (·.1 ≤ ·.1) := by
  simp only [committedBrokerLog, List.filterMap_filter, List.filterMap_filterMap]
  congr 2
  funext rt
  simp only [committedEntry, logSeq]
  cases logPayloadKey rt.brokerRole with
  | none => simp
  | some key =>
    by_cases hc : rt.contentHash ∈ committedSet records byHash frontier <;>
      by_cases hp : inPartition bid (recordAt records rt) key = true <;> simp [hc, hp]

section Root

variable (sha256 : List UInt8 → Vector UInt8 32)

/-- A text with its length in four bytes. -/
def lp4 (b : List UInt8) : List UInt8 := framed 4 b

/-- A number in eight bytes. -/
def be8 (n : Nat) : List UInt8 := beBytes 8 n

/-- The tag of the heads. -/
def grantHeadTag : String := "averin.broker.grant_head.v1"

/-- What the first accumulator is the hash of. -/
def grantHeadSeedPreimage : List UInt8 := lp4 (bytes grantHeadTag)

/-- The accumulator goes in raw; the number is cast to 64 unsigned bits. -/
def grantHeadStepPreimage (acc : Vector UInt8 32) (seq : Int) (contentHash : String) :
    List UInt8 :=
  grantHeadSeedPreimage ++ acc.toList ++ be8 (seq % 2 ^ 64).toNat ++ lp4 (bytes contentHash)

/-- The accumulator of the empty log. -/
def grantHeadSeed : Vector UInt8 32 := sha256 grantHeadSeedPreimage

/-- The accumulator after one more entry. -/
def grantHeadStep (acc : Vector UInt8 32) (entry : Int × String) : Vector UInt8 32 :=
  sha256 (grantHeadStepPreimage acc entry.1 entry.2)

/-- The two lowercase hex digits of every byte. -/
def hexLower (b : List UInt8) : String :=
  let hex := "0123456789abcdef".toList
  .ofList (b.flatMap fun x : UInt8 =>
    [hex.getD (x >>> 4).toNat '0', hex.getD (x &&& 0xF).toNat '0'])

/-- A hash as the records write it. -/
def rootText (acc : Vector UInt8 32) : String := "sha256:" ++ hexLower acc.toList

/-- The root of a log: the accumulator after its last entry, as text. -/
def grantHeadRoot (grants : List (Int × String)) : String :=
  rootText (grants.foldl (grantHeadStep sha256) (grantHeadSeed sha256))

end Root

/-- What the checks compare: the length of a log, whether it is gapless, and its root. -/
structure LogState where
  n : Int
  gapless : Bool
  root : String
  deriving DecidableEq, Repr

/-- Numbered from one without a gap. -/
def isGapless (log : List (Int × String)) : Bool :=
  log.zipIdx.all fun (entry, i) => entry.1 == (i : Int) + 1

/-- A log is gapless exactly if its numbers are one, two and so on. -/
theorem isGapless_iff {log : List (Int × String)} :
    isGapless log = true ↔
      log.map (·.1) = (List.range log.length).map fun i : Nat => (i : Int) + 1 := by
  rw [List.ext_getElem_iff]
  simp only [isGapless, List.all_eq_true, beq_iff_eq, Prod.forall, List.mem_zipIdx_iff_getElem?,
    List.length_map, List.length_range, List.getElem_map, List.getElem_range, true_and]
  constructor
  · intro h i hi _
    exact h log[i].1 log[i].2 i (by simp [hi])
  · intro h s c i hi
    obtain ⟨hlt, he⟩ := List.getElem?_eq_some_iff.mp hi
    have := h i hlt hlt
    rw [he] at this
    exact this

/-- What a head is compared with. -/
def logState (sha256 : List UInt8 → Vector UInt8 32) (log : List (Int × String)) : LogState where
  n := log.length
  gapless := isGapless log
  root := grantHeadRoot sha256 log

/-- A grant with nothing but its hash, its parents, its number and its names. -/
def bareGrant (hash : String) (parents : List String) (seq : Int64) (broker grant : String) :
    CanonValue :=
  .obj
    [("content_hash", .str hash), ("causal_prev_hashes", .arr (parents.map .str)),
      ("authority", .obj [("enforcement_point", .str "credential_broker")]),
      ("extensions", .obj
        [("broker", .obj
          [("kind", .str "grant"),
            ("grant_evidence", .obj
              [("broker_seq", .int seq), ("broker_id", .str broker),
                ("grant_id", .str grant)])])])]

/-- Two grants of one broker, the second on top of the first. -/
def twoGrants : List CanonValue :=
  [bareGrant (digest 'a') [] 1 "b" "x", bareGrant (digest 'b') [digest 'a'] 2 "b" "y"]

/-- The records build a DAG that passes a test. -/
def buildsWith (records : List CanonValue) (test : Dag → Bool) : Bool :=
  match build records with
  | .ok dag => test dag
  | .error _ => false

/-- The test holds of the DAG that was built. -/
theorem exists_of_buildsWith (records : List CanonValue) (test : Dag → Bool)
    (h : buildsWith records test = true) : ∃ dag, build records = .ok dag ∧ test dag = true := by
  unfold buildsWith at h
  cases hb : build records with
  | error e => simp [hb] at h
  | ok dag => exact ⟨dag, rfl, by simpa [hb] using h⟩

end Averin
