import Averin.Verify.CursorInvariant
import Mathlib.Data.List.Destutter
import Mathlib.Data.String.Basic

/-!
# Heads over the log

A checkpoint carries a head: the length and the root of the log its frontier commits, and
the root of the head before it. The heads are replayed in checkpoint order against the
logs of their own frontiers, with the incremental cursor where an index exists.
-/

namespace Averin

open Std (TreeMap TreeSet)

/-- The head of a log, as a checkpoint commits it. -/
structure GrantHead where
  maxSeq : Int
  priorHeadHash : String
  cumulativeRoot : String
  deriving DecidableEq, Repr

/-- A head at its checkpoint number and frontier. -/
structure HeadEntry where
  seq : Int
  head : GrantHead
  frontier : List String
  deriving DecidableEq, Repr

/-- What a head can get wrong. -/
inductive HeadFault where
  | notGapless
  | maxSeq (claimed count : Int)
  | cumulativeRoot
  | priorHeadHash
  deriving DecidableEq, Repr

/-- Heads in checkpoint order, ties in place, with neighbouring copies collapsed. -/
def orderHeads (heads : List HeadEntry) : List HeadEntry :=
  (heads.insertionSort (·.seq ≤ ·.seq)).destutter (· ≠ ·)

/-- The numbers that two neighbours of a log with different hashes share. -/
def duplicateSeqs (log : List (Int × String)) : List Int :=
  ((neighbours log).filter fun (a, b) => a.1 == b.1 && a.2 != b.2).map (·.1.1)

/-- Frontiers in order, each once. -/
def distinctFrontiers (frontiers : List (List String)) : List (List String) :=
  (frontiers.insertionSort (· ≤ ·)).destutter (· ≠ ·)

/-- The faults of one head against the state of its log. -/
def headFaults (st : LogState) (prevRoot : String) (head : GrantHead) : List HeadFault :=
  (if st.gapless then [] else [.notGapless]) ++
    (if head.maxSeq = st.n then [] else [.maxSeq head.maxSeq st.n]) ++
    (if st.root = head.cumulativeRoot then [] else [.cumulativeRoot]) ++
    (if head.priorHeadHash = prevRoot then [] else [.priorHeadHash])

section

variable (sha256 : List UInt8 → Vector UInt8 32) (rts : List RecordTrust)
  (records : List CanonValue) (byHash : TreeMap String Nat) (bid : Option String)

/-- The state of the log at a frontier, from the cursor or from scratch. -/
def nextState (cursor : Option (LogIndex × LogCursor)) (frontier : List String) :
    LogState × Option (LogIndex × LogCursor) :=
  match cursor with
  | some (idx, c) =>
    let c := c.advance sha256 rts idx frontier
    (c.state, some (idx, c))
  | none => (logState sha256 (committedBrokerLog rts records byHash frontier bid), none)

/-- Replay the heads one after the other. -/
def checkHeads : (cursor : Option (LogIndex × LogCursor)) → (prevRoot : String) →
    List HeadEntry → List (Int × HeadFault)
  | _, _, [] => []
  | cursor, prevRoot, e :: rest =>
    let (st, cursor) := nextState sha256 rts records byHash bid cursor e.frontier
    (headFaults st prevRoot e.head).map (e.seq, ·) ++
      checkHeads cursor e.head.cumulativeRoot rest

/-- A new cursor over an index, if there is one. -/
def newCursor (logIndex : Option LogIndex) : Option (LogIndex × LogCursor) :=
  logIndex.map fun idx => (idx, LogCursor.new sha256 idx)

/-- Whether a frontier commits a log entry, from the reach table or from scratch. -/
def commitsLog (logIndex : Option LogIndex) (frontier : List String) : Bool :=
  match logIndex with
  | some idx => idx.commitsAny idx.reach frontier
  | none => !(committedBrokerLog rts records byHash frontier bid).isEmpty

end

/-- Collapsing copies keeps every member. -/
theorem mem_destutter_ne {α : Type*} [DecidableEq α] {l : List α} {a : α} :
    a ∈ l.destutter (· ≠ ·) ↔ a ∈ l := by
  refine ⟨fun h => (List.destutter_sublist _ l).mem h, fun h => ?_⟩
  cases l with
  | nil => cases h
  | cons b l =>
    rw [List.destutter_cons']
    induction l generalizing b with
    | nil => exact h
    | cons c l ih =>
      rw [List.destutter'_cons]
      split_ifs with hbc
      · rcases List.mem_cons.mp h with rfl | h
        · exact List.mem_cons_self
        · exact List.mem_cons_of_mem _ (ih c h)
      · obtain rfl : b = c := not_not.mp hbc
        exact ih b (by simpa using h)

theorem mem_orderHeads {heads : List HeadEntry} {e : HeadEntry} :
    e ∈ orderHeads heads ↔ e ∈ heads := by
  rw [orderHeads, mem_destutter_ne, (List.perm_insertionSort _ _).mem_iff]

theorem mem_distinctFrontiers {frontiers : List (List String)} {f : List String} :
    f ∈ distinctFrontiers frontiers ↔ f ∈ frontiers := by
  rw [distinctFrontiers, mem_destutter_ne, (List.perm_insertionSort _ _).mem_iff]

/-- A head that says what its log is. -/
structure HeadMatches (sha256 : List UInt8 → Vector UInt8 32) (log : List (Int × String))
    (head : GrantHead) : Prop where
  gapless : isGapless log = true
  maxSeq : head.maxSeq = log.length
  root : head.cumulativeRoot = grantHeadRoot sha256 log

/-- Nothing is wrong exactly if the head is the one of the log and names the root before it. -/
theorem headFaults_eq_nil_iff {sha256 : List UInt8 → Vector UInt8 32}
    {log : List (Int × String)} {prevRoot : String} {head : GrantHead} :
    headFaults (logState sha256 log) prevRoot head = [] ↔
      HeadMatches sha256 log head ∧ head.priorHeadHash = prevRoot := by
  have hif : ∀ {c : Prop} [Decidable c] {f : HeadFault},
      (if c then [] else [f]) = [] ↔ c := by
    intro c _ f
    split_ifs with hc <;> simp [hc]
  rw [headFaults, List.append_eq_nil_iff, List.append_eq_nil_iff, List.append_eq_nil_iff, hif,
    hif, hif, hif]
  constructor
  · rintro ⟨⟨⟨h1, h2⟩, h3⟩, h4⟩
    exact ⟨⟨h1, h2, h3.symm⟩, h4⟩
  · rintro ⟨⟨h1, h2, h3⟩, h4⟩
    exact ⟨⟨⟨h1, h2⟩, h3.symm⟩, h4⟩

/-- Heads that match their logs and name the root before them. -/
def HeadsVerify (sha256 : List UInt8 → Vector UInt8 32)
    (logOf : List String → List (Int × String)) : (prevRoot : String) → List HeadEntry → Prop
  | _, [] => True
  | prevRoot, e :: rest =>
    HeadMatches sha256 (logOf e.frontier) e.head ∧ e.head.priorHeadHash = prevRoot ∧
      HeadsVerify sha256 logOf e.head.cumulativeRoot rest

variable {sha256 : List UInt8 → Vector UInt8 32} {rts : List RecordTrust}
  {records : List CanonValue} {bid : Option String} {dag : Dag}

/-- Every head that verifies is the one of its log. -/
theorem HeadsVerify.matches {logOf : List String → List (Int × String)} {prevRoot : String}
    {entries : List HeadEntry} (h : HeadsVerify sha256 logOf prevRoot entries) :
    ∀ e ∈ entries, HeadMatches sha256 (logOf e.frontier) e.head := by
  induction entries generalizing prevRoot with
  | nil => simp
  | cons e rest ih => exact List.forall_mem_cons.mpr ⟨h.1, ih h.2.2⟩

/-- Only the logs of the heads' own frontiers matter. -/
theorem headsVerify_congr {logOf logOf' : List String → List (Int × String)} {prevRoot : String}
    {entries : List HeadEntry} (h : ∀ e ∈ entries, logOf e.frontier = logOf' e.frontier) :
    HeadsVerify sha256 logOf prevRoot entries ↔ HeadsVerify sha256 logOf' prevRoot entries := by
  induction entries generalizing prevRoot with
  | nil => exact Iff.rfl
  | cons e rest ih =>
    obtain ⟨he, hrest⟩ := List.forall_mem_cons.mp h
    simp only [HeadsVerify, he, ih hrest]

/-- The cursors that give the same states as the computation from scratch. -/
def CursorRight (sha256 : List UInt8 → Vector UInt8 32) (rts : List RecordTrust)
    (records : List CanonValue) (bid : Option String) (dag : Dag) :
    Option (LogIndex × LogCursor) → Prop
  | none => True
  | some (idx, c) => DagIndexSpec records dag idx.dag ∧ LogIndexSpec rts records bid idx ∧
      CursorInv sha256 rts idx c

/-- The state is that of the log from scratch, and the cursor stays right. -/
theorem nextState_eq (hs : DagSpec records dag) {cursor : Option (LogIndex × LogCursor)}
    (hc : CursorRight sha256 rts records bid dag cursor) (frontier : List String) :
    (nextState sha256 rts records dag.byHash bid cursor frontier).1 =
        logState sha256 (committedBrokerLog rts records dag.byHash frontier bid) ∧
      CursorRight sha256 rts records bid dag
        (nextState sha256 rts records dag.byHash bid cursor frontier).2 := by
  cases cursor with
  | none => exact ⟨rfl, trivial⟩
  | some p =>
    obtain ⟨idx, c⟩ := p
    obtain ⟨hd, hi, hc⟩ := hc
    obtain ⟨hnext, hfront⟩ := hc.advance hd hi frontier
    refine ⟨?_, hd, hi, hnext⟩
    show (c.advance sha256 rts idx frontier).state = _
    rw [hnext.state_eq, hnext.log_eq hs hd hi hfront]

/-- The replay finds nothing exactly when the heads verify against their own logs. -/
theorem checkHeads_eq_nil_iff (hs : DagSpec records dag)
    {cursor : Option (LogIndex × LogCursor)}
    (hc : CursorRight sha256 rts records bid dag cursor) {prevRoot : String}
    {entries : List HeadEntry} :
    checkHeads sha256 rts records dag.byHash bid cursor prevRoot entries = [] ↔
      HeadsVerify sha256 (committedBrokerLog rts records dag.byHash · bid) prevRoot entries := by
  induction entries generalizing cursor prevRoot with
  | nil => exact iff_of_true rfl trivial
  | cons e rest ih =>
    obtain ⟨hst, hnext⟩ := nextState_eq hs hc e.frontier
    rw [checkHeads]
    dsimp only
    rw [List.append_eq_nil_iff, List.map_eq_nil_iff, ih hnext, hst, headFaults_eq_nil_iff,
      and_assoc]
    rfl

/-- An index built over an accepted DAG gives the right cursor. -/
theorem cursorRight_newCursor (hs : DagSpec records dag) :
    CursorRight sha256 rts records bid dag (newCursor sha256
      ((DagIndex.build records dag.byHash dag.topoOrder).bind
        (LogIndex.build · rts records bid))) := by
  cases hd : DagIndex.build records dag.byHash dag.topoOrder with
  | none => trivial
  | some dix =>
    cases hl : LogIndex.build dix rts records bid with
    | none => simp [hl, newCursor, CursorRight]
    | some idx =>
      have hspec := hs.dagIndexSpec hd
      obtain ⟨rfl, hi⟩ := logIndexSpec hspec hl
      simp only [Option.bind_some, hl, newCursor, Option.map_some]
      exact ⟨hspec, hi, cursorInv_new⟩

/-- The log has the numbered committed entries as its members. -/
theorem mem_committedBrokerLog {byHash : TreeMap String Nat} {frontier : List String}
    {entry : Int × String} :
    entry ∈ committedBrokerLog rts records byHash frontier bid ↔
      ∃ rt ∈ rts, rt.contentHash ∈ committedSet records byHash frontier ∧
        logSeq records bid rt = some entry.1 ∧ rt.contentHash = entry.2 := by
  rw [committedBrokerLog_eq, (List.perm_insertionSort _ _).mem_iff, List.mem_filterMap]
  refine exists_congr fun rt => and_congr_right fun _ => ?_
  rw [committedEntry]
  split_ifs with hc
  · simp [hc, Prod.ext_iff, Option.map_eq_some_iff, and_comm]
  · simp [hc]

/-- Asking the reach table is asking whether the log is empty. -/
theorem commitsLog_iff (hs : DagSpec records dag) {frontier : List String} :
    commitsLog rts records dag.byHash bid
        ((DagIndex.build records dag.byHash dag.topoOrder).bind
          (LogIndex.build · rts records bid)) frontier = true ↔
      committedBrokerLog rts records dag.byHash frontier bid ≠ [] := by
  have hscratch : commitsLog rts records dag.byHash bid none frontier = true ↔
      committedBrokerLog rts records dag.byHash frontier bid ≠ [] := by simp [commitsLog]
  cases hd : DagIndex.build records dag.byHash dag.topoOrder with
  | none => exact hscratch
  | some dix =>
    rw [Option.bind_some]
    cases hl : LogIndex.build dix rts records bid with
    | none => exact hscratch
    | some idx =>
      have hspec := hs.dagIndexSpec hd
      obtain ⟨rfl, hi⟩ := logIndexSpec hspec hl
      rw [commitsLog, commitsAny_iff hspec]
      constructor
      · rintro ⟨x, hx, he⟩
        obtain ⟨e, he⟩ := List.exists_mem_of_ne_nil _ he
        obtain ⟨rt, hrt, hseq, hnode⟩ := hi.mem_entriesOf.mp he
        refine List.ne_nil_of_mem (a := (e.1, rt.contentHash)) (mem_committedBrokerLog.mpr ?_)
        exact ⟨rt, List.mem_of_getElem? hrt,
          mem_committedSet_iff.mpr ((hspec.reached_iff hs hnode).mpr hx), hseq, rfl⟩
      · intro hne
        obtain ⟨entry, hentry⟩ := List.exists_mem_of_ne_nil _ hne
        obtain ⟨rt, hrt, hcom, hseq, -⟩ := mem_committedBrokerLog.mp hentry
        obtain ⟨x, hx⟩ := Option.ne_none_iff_exists'.mp (hi.known rt hrt (by simp [hseq]))
        obtain ⟨pos, hpos⟩ := List.mem_iff_getElem?.mp hrt
        refine ⟨x, (hspec.reached_iff hs hx).mp (mem_committedSet_iff.mp hcom), ?_⟩
        exact List.ne_nil_of_mem (a := (entry.1, pos))
          (hi.mem_entriesOf.mpr ⟨rt, hpos, hseq, hx⟩)

end Averin
