import Averin.Server.Signing
import Averin.Store.Temporal
import Averin.Verify.RevocationSources

/-!
# The signed list of revocations

The events of a snapshot are folded to one entry a grant, in the order of the grants, and the
list of them is signed together with the snapshot it was read from. A verifier that reads the
list gets the entries back.
-/

namespace Averin

/-- What the events of a grant come to. -/
structure RevocationListEntry where
  grantId : String
  mode : String
  cutoffOrder : Int
  deriving DecidableEq, Repr

/-- Take in one event: total wins, otherwise the smallest cutoff. -/
def combineEvent (byGrant : Table String RevocationListEntry) (ev : RevocationEvent) :
    Table String RevocationListEntry :=
  match byGrant.lookup ev.grantId with
  | some prior =>
    if ev.mode = revocationTotal ∨ prior.mode = revocationTotal then
      byGrant.insert ev.grantId ⟨ev.grantId, revocationTotal, 0⟩
    else if ev.cutoffOrder < prior.cutoffOrder then
      byGrant.insert ev.grantId ⟨ev.grantId, revocationProspective, ev.cutoffOrder⟩
    else byGrant
  | none =>
    if ev.mode = revocationTotal then
      byGrant.insert ev.grantId ⟨ev.grantId, revocationTotal, 0⟩
    else byGrant.insert ev.grantId ⟨ev.grantId, revocationProspective, ev.cutoffOrder⟩

/-- One entry a grant, in the order of the grants. -/
def combineRevocationEvents (events : List RevocationEvent) : List RevocationListEntry :=
  (Table.values (events.foldl combineEvent ∅)).insertionSort (·.grantId ≤ ·.grantId)

/-- The format of a list. -/
def revocationListV2Format : String := "averin.revocation.list.v2"

/-- The snapshot a list is read from. The zero time has no text. -/
structure RevocationSnapshot where
  projectId : String
  boundaryTime : Option String
  watermark : Int

/-- Why a list is not made. -/
inductive RevocationListError where
  | snapshot
  | order
  | state (grantId : String)
  | number
  | digest
  deriving DecidableEq, Repr

/-- The list as it is signed. -/
def RevocationSnapshot.toJson (s : RevocationSnapshot) : Except RevocationListError CanonValue := do
  require (s.projectId ≠ "" ∧ 0 ≤ s.watermark) .snapshot
  let boundaryTime ← orFail s.boundaryTime .snapshot
  let watermark ← orFail (jsonInt s.watermark) .number
  return .obj [("boundary_time", .str boundaryTime), ("authorization_high_watermark", watermark)]

/-- One entry as the list states it. -/
def RevocationListEntry.toJson (e : RevocationListEntry) (watermark : Int) :
    Except RevocationListError CanonValue :=
  if e.mode = revocationTotal ∧ e.cutoffOrder = 0 then
    .ok (.obj [("grant_id", .str e.grantId), ("mode", .str e.mode)])
  else if e.mode = revocationProspective ∧ 1 ≤ e.cutoffOrder ∧ e.cutoffOrder ≤ watermark then do
    let cutoff ← orFail (jsonInt e.cutoffOrder) .number
    return .obj [("grant_id", .str e.grantId), ("mode", .str e.mode), ("cutoff_order", cutoff)]
  else .error (.state e.grantId)

/-- The entries, which must come in strict order after the one before. -/
def revocationMembers (watermark : Int) : (previous : Option String) →
    List RevocationListEntry → Except RevocationListError (List CanonValue)
  | _, [] => .ok []
  | previous, e :: entries => do
    require (e.grantId ≠ "" ∧ ∀ q ∈ previous, q < e.grantId) .order
    let item ← e.toJson watermark
    let items ← revocationMembers watermark (some e.grantId) entries
    return item :: items

section Build

variable {ed : Ed25519} (N : Normalizer) (sha256 : List UInt8 → Vector UInt8 32)

/-- The body of a list. -/
def revocationListBody (issuerKid issuedAt notAfter projectId : String) (snapshot : CanonValue)
    (revocations : List CanonValue) : List (String × CanonValue) :=
  [("format", .str revocationListV2Format), ("issuer_kid", .str issuerKid),
    ("issued_at", .str issuedAt), ("not_after", .str notAfter), ("project_id", .str projectId),
    ("snapshot", snapshot), ("revocations", .arr revocations)]

/-- Build and sign a list. -/
def buildRevocationListV2 (revKey : SigningKey ed) (issuedAt notAfter : String)
    (snap : RevocationSnapshot) (entries : List RevocationListEntry) :
    Except RevocationListError CanonValue := do
  let snapshot ← snap.toJson
  let revocations ← revocationMembers snap.watermark none entries
  let body := revocationListBody (cnfKid sha256 revKey.verifyingKey) issuedAt notAfter
    snap.projectId snapshot revocations
  let digest ← orFail (rcpEvidenceHash N sha256 (.obj body)) .digest
  let sig ← orFail (signText SigPurpose.revocationListV2.tag digest revKey) .digest
  return .obj (body ++ [("sig", .str sig)])

end Build

/-- What an entry says of the events it was folded from. -/
def StateOf (events : List RevocationEvent) (g : String) : Option RevocationListEntry → Prop
  | none => ∀ ev ∈ events, ev.grantId ≠ g
  | some e => e.grantId = g ∧
    ((e.mode = revocationTotal ∧ e.cutoffOrder = 0 ∧
        ∃ ev ∈ events, ev.grantId = g ∧ ev.mode = revocationTotal) ∨
      (e.mode = revocationProspective ∧ (∀ ev ∈ events, ev.grantId = g →
          ev.mode = revocationProspective ∧ e.cutoffOrder ≤ ev.cutoffOrder) ∧
        ∃ ev ∈ events, ev.grantId = g ∧ ev.cutoffOrder = e.cutoffOrder))

/-- Only the events of the grant count. -/
theorem StateOf.congr {events events' : List RevocationEvent} {g : String}
    {entry : Option RevocationListEntry} (h : StateOf events g entry)
    (hmem : ∀ ev : RevocationEvent, ev.grantId = g → (ev ∈ events ↔ ev ∈ events')) :
    StateOf events' g entry := by
  cases entry with
  | none =>
    intro ev hev hg
    exact h ev ((hmem ev hg).mpr hev) hg
  | some e =>
    refine ⟨h.1, ?_⟩
    rcases h.2 with ⟨hmode, hcut, ev, hev, hg, htotal⟩ | ⟨hmode, hall, ev, hev, hg, hcut⟩
    · exact Or.inl ⟨hmode, hcut, ev, (hmem ev hg).mp hev, hg, htotal⟩
    · refine Or.inr ⟨hmode, ?_, ev, (hmem ev hg).mp hev, hg, hcut⟩
      intro ev' hev' hg'
      exact hall ev' ((hmem ev' hg').mpr hev') hg'

/-- An event takes its grant's state down. -/
theorem stateOf_combineEvent {events : List RevocationEvent} {byGrant : Table String
    RevocationListEntry} {ev : RevocationEvent} (h : ∀ g, StateOf events g (byGrant.lookup g))
    (hmode : ev.mode = revocationTotal ∨ ev.mode = revocationProspective) (g : String) :
    StateOf (events ++ [ev]) g ((combineEvent byGrant ev).lookup g) := by
  have hne : revocationProspective ≠ revocationTotal := by decide
  have hothers : ev.grantId ≠ g → StateOf (events ++ [ev]) g (byGrant.lookup g) := by
    intro hg
    apply (h g).congr
    intro ev' hg'
    have hev : ev' ≠ ev := by
      rintro rfl
      exact hg hg'
    simp [hev]
  by_cases hg : ev.grantId = g
  · subst hg
    have hold := h ev.grantId
    unfold combineEvent
    cases hlook : byGrant.lookup ev.grantId with
    | none =>
      rw [hlook] at hold
      dsimp only [StateOf] at hold ⊢
      rcases hmode with hm | hm
      · rw [if_pos hm, AList.lookup_insert]
        exact ⟨rfl, Or.inl ⟨rfl, rfl, ev, by simp, rfl, hm⟩⟩
      · rw [if_neg (by rw [hm]; exact hne), AList.lookup_insert]
        refine ⟨rfl, Or.inr ⟨rfl, ?_, ev, by simp, rfl, rfl⟩⟩
        intro ev' hev' hgrant
        rcases List.mem_append.mp hev' with hin | hin
        · exact absurd hgrant (hold ev' hin)
        · rw [List.mem_singleton.mp hin]
          exact ⟨hm, le_refl _⟩
    | some prior =>
      rw [hlook] at hold
      dsimp only
      obtain ⟨hgrant, hold⟩ := hold
      by_cases htotal : ev.mode = revocationTotal ∨ prior.mode = revocationTotal
      · rw [if_pos htotal, AList.lookup_insert]
        refine ⟨rfl, Or.inl ⟨rfl, rfl, ?_⟩⟩
        rcases htotal with hm | hm
        · exact ⟨ev, by simp, rfl, hm⟩
        · rcases hold with ⟨-, -, ev', hin, hev'⟩ | ⟨hp, -⟩
          · exact ⟨ev', by simp [hin], hev'⟩
          · exact absurd (hp.symm.trans hm) hne
      · rw [if_neg htotal]
        rw [not_or] at htotal
        have hpros := hmode.resolve_left htotal.1
        obtain ⟨hp, hall, ev', hin, hev', hcut⟩ := hold.resolve_left (fun hl => htotal.2 hl.1)
        by_cases hlt : ev.cutoffOrder < prior.cutoffOrder
        · rw [if_pos hlt, AList.lookup_insert]
          refine ⟨rfl, Or.inr ⟨rfl, ?_, ev, by simp, rfl, rfl⟩⟩
          intro ev'' hev'' hg''
          rcases List.mem_append.mp hev'' with hin'' | hin''
          · exact ⟨(hall ev'' hin'' hg'').1, hlt.le.trans (hall ev'' hin'' hg'').2⟩
          · rw [List.mem_singleton.mp hin'']
            exact ⟨hpros, le_refl _⟩
        · rw [if_neg hlt, hlook]
          refine ⟨hgrant, Or.inr ⟨hp, ?_, ev', by simp [hin], hev', hcut⟩⟩
          intro ev'' hev'' hg''
          rcases List.mem_append.mp hev'' with hin'' | hin''
          · exact hall ev'' hin'' hg''
          · rw [List.mem_singleton.mp hin'']
            exact ⟨hpros, not_lt.mp hlt⟩
  · have hsame : (combineEvent byGrant ev).lookup g = byGrant.lookup g := by
      unfold combineEvent
      split <;> split_ifs <;> first | rfl | rw [AList.lookup_insert_ne (Ne.symm hg)]
    rw [hsame]
    exact hothers hg

/-- The fold gives every grant the state its events come to. -/
theorem stateOf_foldl {events : List RevocationEvent}
    (hmode : ∀ ev ∈ events, ev.mode = revocationTotal ∨ ev.mode = revocationProspective)
    (g : String) : StateOf events g ((events.foldl combineEvent ∅).lookup g) := by
  induction events using List.reverseRecOn generalizing g with
  | nil => simp [StateOf]
  | append_singleton events ev ih =>
    rw [List.foldl_append, List.foldl_cons, List.foldl_nil]
    exact stateOf_combineEvent (fun g => ih (fun ev' h => hmode ev' (by simp [h])) g)
      (hmode ev (by simp)) g

/-- An entry is under the grant it names. -/
theorem mem_combineRevocationEvents {events : List RevocationEvent}
    (hmode : ∀ ev ∈ events, ev.mode = revocationTotal ∨ ev.mode = revocationProspective)
    {e : RevocationListEntry} :
    e ∈ combineRevocationEvents events ↔
      (events.foldl combineEvent ∅).lookup e.grantId = some e := by
  rw [combineRevocationEvents, List.mem_insertionSort, Table.mem_values_iff]
  constructor
  · rintro ⟨g, hg⟩
    have hstate := stateOf_foldl hmode g
    rw [hg] at hstate
    rw [hstate.1]
    exact hg
  · intro h
    exact ⟨_, h⟩

/-- The entries stand in the strict order of their grants. -/
theorem pairwise_combineRevocationEvents {events : List RevocationEvent}
    (hmode : ∀ ev ∈ events, ev.mode = revocationTotal ∨ ev.mode = revocationProspective) :
    (combineRevocationEvents events).Pairwise (·.grantId < ·.grantId) := by
  have hnodup : (combineRevocationEvents events).Nodup := by
    rw [combineRevocationEvents, (List.perm_insertionSort _ _).nodup_iff, Table.values]
    apply List.Nodup.map_on
    · rintro ⟨g, e⟩ he ⟨g', e'⟩ he' (rfl : e = e')
      have hg := stateOf_foldl hmode g
      have hg' := stateOf_foldl hmode g'
      rw [AList.mem_lookup_iff.mpr he] at hg
      rw [AList.mem_lookup_iff.mpr he'] at hg'
      obtain rfl := hg.1.symm.trans hg'.1
      rfl
    · exact (AList.nodupKeys _).nodup
  have hle : (combineRevocationEvents events).Pairwise (·.grantId ≤ ·.grantId) :=
    List.pairwise_insertionSort (fun a b : RevocationListEntry => a.grantId ≤ b.grantId) _
  refine (hle.and hnodup).imp_of_mem ?_
  rintro a b ha hb ⟨hab, hne⟩
  refine lt_of_le_of_ne hab fun heq => hne ?_
  rw [mem_combineRevocationEvents hmode] at ha hb
  rw [heq] at ha
  exact Option.some.inj (ha.symm.trans hb)

/-- The state an entry stands for. -/
def RevocationListEntry.state (e : RevocationListEntry) : RevState :=
  if e.mode = revocationTotal then .total else .prospective (.ofInt e.cutoffOrder)

/-- An entry that may stand in a list of a snapshot. -/
def RevocationListEntry.Valid (e : RevocationListEntry) (watermark : Int) : Prop :=
  e.grantId ≠ "" ∧ ((e.mode = revocationTotal ∧ e.cutoffOrder = 0) ∨
    (e.mode = revocationProspective ∧ 1 ≤ e.cutoffOrder ∧ e.cutoffOrder ≤ watermark))

/-- How a valid entry is written and read. -/
theorem RevocationListEntry.Valid.toJson {e : RevocationListEntry} {watermark : Int}
    (h : e.Valid watermark) (hfit : watermark < 2 ^ 63) :
    ∃ v, e.toJson watermark = .ok v ∧ strOf v "grant_id" = some e.grantId ∧ v.depth = 1 ∧
      ∀ w, w = none ∨ w = some watermark → parseState v w = some e.state := by
  have hne : revocationProspective ≠ revocationTotal := by decide
  rcases h.2 with ⟨hmode, hcut⟩ | ⟨hmode, hlow, hhigh⟩
  · refine ⟨_, by rw [RevocationListEntry.toJson, if_pos ⟨hmode, hcut⟩], rfl, rfl, ?_⟩
    intro w hw
    rw [hmode, RevocationListEntry.state, if_pos hmode]
    rfl
  · have hrange : -2 ^ 63 ≤ e.cutoffOrder ∧ e.cutoffOrder < 2 ^ 63 := by omega
    have hint : (Int64.ofInt e.cutoffOrder).toInt = e.cutoffOrder :=
      Int64.toInt_ofInt_of_le hrange.1 hrange.2
    refine ⟨.obj [("grant_id", .str e.grantId), ("mode", .str e.mode),
      ("cutoff_order", .int (.ofInt e.cutoffOrder))], ?_, rfl, rfl, ?_⟩
    · rw [RevocationListEntry.toJson, if_neg (by rw [hmode]; exact fun h => hne h.1),
        if_pos ⟨hmode, hlow, hhigh⟩, jsonInt, if_pos hrange]
      rfl
    · intro w hw
      have hin : 1 ≤ (Int64.ofInt e.cutoffOrder).toInt ∧
          ∀ x ∈ w, (Int64.ofInt e.cutoffOrder).toInt ≤ x := by
        rw [hint]
        rcases hw with rfl | rfl
        · simp [hlow]
        · simpa [hlow] using hhigh
      rw [hmode, RevocationListEntry.state, if_neg (by rw [hmode]; exact hne)]
      generalize Int64.ofInt e.cutoffOrder = c at hin
      simp [parseState, CanonValue.asObject, strOf, CanonValue.get, CanonValue.member,
        CanonValue.asStr, revocationProspective]
      simpa using hin

/-- What is written as an entry is valid. -/
theorem RevocationListEntry.valid_of_toJson {e : RevocationListEntry} {watermark : Int}
    {v : CanonValue} (hname : e.grantId ≠ "") (h : e.toJson watermark = .ok v) :
    e.Valid watermark := by
  refine ⟨hname, ?_⟩
  unfold RevocationListEntry.toJson at h
  split_ifs at h with htotal hprospective
  · exact Or.inl htotal
  · exact Or.inr hprospective

/-- An item says what its entry does. -/
def Spells (watermark : Int) (e : RevocationListEntry) (v : CanonValue) : Prop :=
  strOf v "grant_id" = some e.grantId ∧ parseState v (some watermark) = some e.state

/-- The items that are written spell the entries, which stand in strict order. -/
theorem spells_of_revocationMembers {watermark : Int} (hfit : watermark < 2 ^ 63)
    {previous : Option String} {entries : List RevocationListEntry} {items : List CanonValue}
    (h : revocationMembers watermark previous entries = .ok items) :
    List.Forall₂ (Spells watermark) entries items ∧
      entries.Pairwise (·.grantId < ·.grantId) ∧ ∀ q ∈ previous, ∀ e ∈ entries, q < e.grantId := by
  induction entries generalizing previous items with
  | nil =>
    obtain rfl := Except.ok.inj h
    exact ⟨.nil, .nil, by simp⟩
  | cons e entries ih =>
    simp only [revocationMembers, bind_eq_ok_iff, require_eq_ok_iff] at h
    obtain ⟨_, ⟨hname, hafter⟩, item, hitem, rest, hrest, h⟩ := h
    obtain rfl := Except.ok.inj h
    obtain ⟨hspells, hsorted, hlater⟩ := ih hrest
    obtain ⟨v, hv, hid, -, hstate⟩ :=
      (RevocationListEntry.valid_of_toJson hname hitem).toJson hfit
    obtain rfl := Except.ok.inj (hitem.symm.trans hv)
    have hnext := hlater e.grantId rfl
    refine ⟨.cons ⟨hid, hstate _ (Or.inr rfl)⟩ hspells, List.pairwise_cons.mpr ⟨hnext, hsorted⟩, ?_⟩
    intro q hq e' he'
    rcases List.mem_cons.mp he' with rfl | he'
    · exact hafter q hq
    · exact (hafter q hq).trans (hnext e' he')

/-- Valid entries in strict order are written. -/
theorem exists_revocationMembers {watermark : Int} (hfit : watermark < 2 ^ 63)
    {previous : Option String} {entries : List RevocationListEntry}
    (hsorted : entries.Pairwise (·.grantId < ·.grantId)) (hvalid : ∀ e ∈ entries, e.Valid watermark)
    (hprevious : ∀ q ∈ previous, ∀ e ∈ entries, q < e.grantId) :
    ∃ items, revocationMembers watermark previous entries = .ok items := by
  induction entries generalizing previous with
  | nil => exact ⟨[], rfl⟩
  | cons e entries ih =>
    obtain ⟨hnext, hsorted⟩ := List.pairwise_cons.mp hsorted
    have he := hvalid e List.mem_cons_self
    obtain ⟨v, hv, -⟩ := he.toJson hfit
    obtain ⟨items, hitems⟩ := @ih (some e.grantId) hsorted
      (fun e' he' => hvalid e' (List.mem_cons_of_mem e he'))
      (fun q hq e' he' => by obtain rfl := Option.mem_some_iff.mp hq; exact hnext e' he')
    refine ⟨v :: items, ?_⟩
    simp only [revocationMembers, bind_eq_ok_iff, require_eq_ok_iff]
    exact ⟨(), ⟨he.1, fun q hq => hprevious q hq e List.mem_cons_self⟩, v, hv, items, hitems, rfl⟩

/-- The other end of a pair of two lists. -/
theorem exists_of_forall₂ {α β : Type} {R : α → β → Prop} {as : List α} {bs : List β}
    (h : List.Forall₂ R as bs) :
    (∀ a ∈ as, ∃ b ∈ bs, R a b) ∧ ∀ b ∈ bs, ∃ a ∈ as, R a b := by
  induction h with
  | nil => simp
  | cons hab _ ih => exact ⟨by simp [hab]; grind, by simp [hab]; grind⟩

/-- A reader of the items gets the state of each entry, and nothing for other grants. -/
theorem lookup_of_spells {watermark : Int} {entries : List RevocationListEntry}
    {items : List CanonValue} {list : CanonValue}
    (hspells : List.Forall₂ (Spells watermark) entries items)
    (hsorted : entries.Pairwise (·.grantId < ·.grantId))
    (hitems : (list.get "revocations").bind CanonValue.asArray = some items) {g : String}
    (hg : g ≠ "") : (parseV2Entries list (some watermark)).states.lookup g =
      (entries.find? (·.grantId = g)).map (·.state) := by
  obtain ⟨hwritten, hread⟩ := exists_of_forall₂ hspells
  obtain ⟨hnone, htotal, hprospective⟩ := parseV2Entries_spec hitems hg
  have hnodup : (entries.map (·.grantId)).Nodup :=
    List.pairwise_map.mpr (hsorted.imp fun hlt => ne_of_lt hlt)
  cases hfind : entries.find? (·.grantId = g) with
  | none =>
    refine hnone.mpr fun v hv hname => ?_
    obtain ⟨e, he, hid, -⟩ := hread v hv
    rw [List.find?_eq_none] at hfind
    exact hfind e he (by simpa using Option.some.inj (hid.symm.trans hname))
  | some e =>
    have he := List.mem_of_find?_eq_some hfind
    have heg : e.grantId = g := by simpa using List.find?_some hfind
    obtain ⟨v, hv, hid, hstate⟩ := hwritten e he
    rw [heg] at hid
    rw [Option.map_some]
    cases hs : e.state with
    | total => exact htotal.mpr ⟨v, hv, hid, Or.inr (hs ▸ hstate)⟩
    | prospective c =>
      refine (hprospective c).mpr ⟨⟨v, hv, hid, hs ▸ hstate⟩, fun v' hv' hid' =>
        ⟨c, ?_, Int64.le_refl c⟩⟩
      obtain ⟨e', he', hname', hstate'⟩ := hread v' hv'
      have hsame := List.inj_on_of_nodup_map hnodup he' he
        (heg ▸ Option.some.inj (hname'.symm.trans hid'))
      rw [hstate', hsame, hs]

section Build

variable {ed : Ed25519} {N : Normalizer} {sha256 : List UInt8 → Vector UInt8 32}
  {revKey : SigningKey ed} {issuedAt notAfter : String} {snap : RevocationSnapshot}
  {entries : List RevocationListEntry} {list : CanonValue} {events : List RevocationEvent}

/-- A verifier reads the state of each grant off the list that was signed. -/
theorem lookup_buildRevocationListV2 (hfit : snap.watermark < 2 ^ 63)
    (h : buildRevocationListV2 N sha256 revKey issuedAt notAfter snap entries = .ok list)
    {g : String} (hg : g ≠ "") :
    (parseV2Entries list (some snap.watermark)).states.lookup g =
      (entries.find? (·.grantId = g)).map (·.state) := by
  simp only [buildRevocationListV2, bind_eq_ok_iff] at h
  obtain ⟨snapshot, -, items, hitems, digest, -, sig, -, h⟩ := h
  obtain rfl := Except.ok.inj h
  obtain ⟨hspells, hsorted, -⟩ := spells_of_revocationMembers hfit hitems
  exact lookup_of_spells hspells hsorted rfl hg

/-- The entry of a grant is what its events come to. -/
theorem find?_combineRevocationEvents
    (hmode : ∀ ev ∈ events, ev.mode = revocationTotal ∨ ev.mode = revocationProspective)
    (g : String) : (combineRevocationEvents events).find? (·.grantId = g) =
      (events.foldl combineEvent ∅).lookup g := by
  have hstate := stateOf_foldl hmode g
  cases hlookup : (events.foldl combineEvent ∅).lookup g with
  | none =>
    rw [List.find?_eq_none]
    intro e he heg
    have hmem := (mem_combineRevocationEvents hmode).mp he
    rw [show e.grantId = g by simpa using heg, hlookup] at hmem
    cases hmem
  | some e =>
    rw [hlookup] at hstate
    have he : e ∈ combineRevocationEvents events :=
      (mem_combineRevocationEvents hmode).mpr (by rw [hstate.1, hlookup])
    cases hfind : (combineRevocationEvents events).find? (·.grantId = g) with
    | none => exact absurd hstate.1 (by simpa using List.find?_eq_none.mp hfind e he)
    | some e' =>
      have hmem := (mem_combineRevocationEvents hmode).mp (List.mem_of_find?_eq_some hfind)
      rw [show e'.grantId = g by simpa using List.find?_some hfind, hlookup] at hmem
      exact hmem.symm

/-- The entries of events up to a snapshot can be listed. -/
theorem valid_combineRevocationEvents
    (hmode : ∀ ev ∈ events, ev.mode = revocationTotal ∨ ev.mode = revocationProspective)
    (hnamed : ∀ ev ∈ events, ev.grantId ≠ "") {watermark : Int}
    (hcutoff : ∀ ev ∈ events, ev.mode = revocationProspective →
      1 ≤ ev.cutoffOrder ∧ ev.cutoffOrder ≤ watermark)
    {e : RevocationListEntry} (he : e ∈ combineRevocationEvents events) : e.Valid watermark := by
  have hstate := stateOf_foldl hmode e.grantId
  rw [(mem_combineRevocationEvents hmode).mp he] at hstate
  obtain ⟨-, ⟨hmode', hcut, ev, hev, hid, -⟩ | ⟨hmode', hall, ev, hev, hid, hcut⟩⟩ := hstate
  · exact ⟨hid ▸ hnamed ev hev, Or.inl ⟨hmode', hcut⟩⟩
  · obtain ⟨hlow, hhigh⟩ := hcutoff ev hev (hall ev hev hid).1
    exact ⟨hid ▸ hnamed ev hev, Or.inr ⟨hmode', hcut ▸ hlow, hcut ▸ hhigh⟩⟩

/-- The list of the events of a project is written, and a verifier reads what they come to. -/
theorem revocationMembers_of_events
    (hmode : ∀ ev ∈ events, ev.mode = revocationTotal ∨ ev.mode = revocationProspective)
    (hnamed : ∀ ev ∈ events, ev.grantId ≠ "") {watermark : Int} (hfit : watermark < 2 ^ 63)
    (hcutoff : ∀ ev ∈ events, ev.mode = revocationProspective →
      1 ≤ ev.cutoffOrder ∧ ev.cutoffOrder ≤ watermark) :
    ∃ items, revocationMembers watermark none (combineRevocationEvents events) = .ok items ∧
      ∀ list : CanonValue, (list.get "revocations").bind CanonValue.asArray = some items →
        ∀ g, g ≠ "" → (parseV2Entries list (some watermark)).states.lookup g =
          ((events.foldl combineEvent ∅).lookup g).map (·.state) := by
  obtain ⟨items, hitems⟩ := @exists_revocationMembers watermark hfit none _
    (pairwise_combineRevocationEvents hmode)
    (fun e he => valid_combineRevocationEvents hmode hnamed hcutoff he) (fun q hq => by cases hq)
  obtain ⟨hspells, hsorted, -⟩ := spells_of_revocationMembers hfit hitems
  refine ⟨items, hitems, fun list hlist g hg => ?_⟩
  rw [lookup_of_spells hspells hsorted hlist hg, find?_combineRevocationEvents hmode]

end Build

end Averin
