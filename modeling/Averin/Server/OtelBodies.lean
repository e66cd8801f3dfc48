import Averin.Server.Otel

/-!
# What is kept of a span

No payload key stays in the attributes of a body. Every other attribute of the span or its
resource does, with the value the span has for it where both have one. What is written of a body
can be sealed as long as its attribute keys differ in their normal forms.
-/

namespace Averin.Otel

/-- The last value under a key. -/
def lastValue (attrs : List Attribute) (key : String) : Option AttributeValue :=
  ((attrs.filter (·.key = key)).getLast?).map (·.value)

/-- A later attribute of a key counts. -/
theorem lastValue_append_singleton (attrs : List Attribute) (a : Attribute) (key : String) :
    lastValue (attrs ++ [a]) key = if a.key = key then some a.value else lastValue attrs key := by
  unfold lastValue
  split_ifs with h
  · rw [List.filter_append, List.filter_cons_of_pos (by simpa using h), List.filter_nil,
      List.getLast?_append_of_ne_nil _ (List.cons_ne_nil _ _)]
    rfl
  · rw [List.filter_append, List.filter_cons_of_neg (by simpa using h), List.filter_nil,
      List.append_nil]

/-- An attribute is flattened last. -/
theorem flattenAttrs_append_singleton (attrs : List Attribute) (a : Attribute) :
    flattenAttrs (attrs ++ [a]) = if a.key = "" then flattenAttrs attrs
      else (flattenAttrs attrs).insert a.key (attrValue a.value) := by
  rw [flattenAttrs, List.foldl_append]
  rfl

/-- The empty key is passed over, and of any other the last value stays. -/
theorem lookup_flattenAttrs (attrs : List Attribute) (key : String) :
    (flattenAttrs attrs).lookup key =
      if key = "" then none else (lastValue attrs key).map attrValue := by
  induction attrs using List.reverseRecOn with
  | nil =>
    split_ifs <;> rfl
  | append_singleton attrs a ih =>
    rw [flattenAttrs_append_singleton, lastValue_append_singleton]
    by_cases hempty : a.key = ""
    · rw [if_pos hempty, ih]
      by_cases hkey : key = ""
      · rw [if_pos hkey, if_pos hkey]
      · rw [if_neg hkey, if_neg hkey, if_neg fun h => hkey (h.symm.trans hempty)]
    · rw [if_neg hempty, Table.lookup_insert_eq]
      by_cases hkey : key = a.key
      · subst hkey
        rw [if_pos rfl, if_neg hempty, if_pos rfl]
        rfl
      · rw [if_neg hkey, ih, if_neg (Ne.symm hkey)]

/-- The span's own attribute counts before the resource's. -/
theorem lookup_mergeAttrs (resAttrs attrs : Attrs) (key : String) :
    (mergeAttrs resAttrs attrs).lookup key = (attrs.lookup key).or (resAttrs.lookup key) := by
  have hcopy : ∀ from' into : Attrs,
      (from'.entries.foldl (fun merged e => merged.insert e.1 e.2) into).lookup key =
        (from'.lookup key).or (into.lookup key) := by
    intro from' into
    have h := Table.lookup_foldl_insert (fun (_ : String) (v : CanonValue) => v) from'.nodupKeys
      into key
    rwa [Option.map_id'] at h
  rw [mergeAttrs, hcopy, hcopy]
  exact congrArg _ Option.or_none

/-- The keys whose values are payloads. -/
def isPayload (key : String) : Bool :=
  (inputKeys ++ (outputKeys ++ rationaleKeys)).contains key ||
    hasAnyPrefix (inputPrefixes ++ outputPrefixes) key

/-- What is looked for is taken out. -/
theorem lookup_takeFirstString (attrs : Attrs) (keys : List String) (key : String) :
    (takeFirstString attrs keys).rest.lookup key =
      if keys.contains key then none else attrs.lookup key := by
  have hloop : ∀ t : Taken, (keys.foldl (fun t key =>
      { text := if t.text = "" then strAttr t.rest key else t.text
        rest := t.rest.erase key : Taken }) t).rest.lookup key =
      if keys.contains key then none else t.rest.lookup key := by
    induction keys with
    | nil => intro t; rfl
    | cons k keys ih =>
      intro t
      rw [List.foldl_cons, ih, List.contains_cons]
      by_cases hk : key = k
      · subst hk
        simp [AList.lookup_erase]
      · simp [hk, AList.lookup_erase_ne hk]
  exact hloop ⟨"", attrs⟩

/-- The loop over the entries leaves what is under no prefix. -/
theorem lookup_foldl_takeKey (prefixes : List String)
    (l : List (Sigma fun _ : String => CanonValue))
    (acc : Attrs × Attrs) (key : String) :
    (l.foldl (takeKey prefixes) acc).2.lookup key =
      if hasAnyPrefix prefixes key ∧ key ∈ l.keys then none else acc.2.lookup key := by
  induction l generalizing acc with
  | nil => simp
  | cons e l ih =>
    rw [List.foldl_cons, ih, takeKey]
    by_cases hkey : key = e.1
    · subst hkey
      by_cases hhit : hasAnyPrefix prefixes e.1 = true
      · simp [hhit, AList.lookup_erase]
      · simp [hhit]
    · by_cases hhit : hasAnyPrefix prefixes e.1 = true
      · simp [hkey, hhit, AList.lookup_erase_ne hkey]
      · simp [hkey, hhit]

/-- What has the prefix is taken out. -/
theorem lookup_takeKeysWithPrefix (attrs : Attrs) (prefixes : List String) (key : String) :
    (takeKeysWithPrefix attrs prefixes).rest.lookup key =
      if hasAnyPrefix prefixes key then none else attrs.lookup key := by
  have hloop := lookup_foldl_takeKey prefixes attrs.entries (∅, attrs) key
  rw [takeKeysWithPrefix]
  dsimp only
  rw [hloop]
  by_cases hkey : key ∈ attrs.entries.keys
  · simp [hkey]
  · have hnone : attrs.lookup key = none := AList.lookup_eq_none.mpr hkey
    simp [hkey, hnone]

/-- Two filters, one after the other. -/
theorem ite_none_ite_none {α : Type} (a b : Bool) (x : Option α) :
    (if a then none else if b then none else x) = if b || a then none else x := by
  cases a <;> cases b <;> rfl

/-- Payloads are taken out, and nothing else. -/
theorem lookup_takePayloads (merged : Attrs) (key : String) :
    (takePayloads merged).rest.lookup key =
      if isPayload key then none else merged.lookup key := by
  rw [takePayloads]
  dsimp only
  rw [lookup_takeKeysWithPrefix, lookup_takeKeysWithPrefix, lookup_takeFirstString,
    lookup_takeFirstString, lookup_takeFirstString]
  have hkeys : (inputKeys ++ (outputKeys ++ rationaleKeys)).contains key =
      (inputKeys.contains key || (outputKeys.contains key || rationaleKeys.contains key)) := by
    simp only [List.contains_eq_any_beq, List.any_append]
  have hprefixes : hasAnyPrefix (inputPrefixes ++ outputPrefixes) key =
      (hasAnyPrefix inputPrefixes key || hasAnyPrefix outputPrefixes key) := List.any_append
  rw [ite_none_ite_none, ite_none_ite_none, ite_none_ite_none, ite_none_ite_none, isPayload, hkeys,
    hprefixes, Bool.or_assoc, Bool.or_assoc]

/-- Every attribute is scrubbed. -/
theorem lookup_scrubAttributes (M : Mapper) (attrs : Attrs) (key : String) :
    (M.scrubAttributes attrs).lookup key = (attrs.lookup key).map (M.scrubbed key) := by
  rw [Mapper.scrubAttributes, Table.lookup_foldl_insert M.scrubbed attrs.nodupKeys]
  change ((attrs.lookup key).map (M.scrubbed key)).or (attrs.lookup key) = _
  cases attrs.lookup key <;> rfl

/-- What a body keeps under an attribute key: the value of the span, or else of its resource. -/
def Mapper.kept (M : Mapper) (res : Resource) (sp : Span) (key : String) : Option CanonValue :=
  if key = "" ∨ isPayload key = true then none
  else ((lastValue sp.attributes key).or (lastValue res.attributes key)).map fun v =>
    M.scrubbed key (attrValue v)

/-- The attributes of a body. -/
def Mapper.keptAttrs (M : Mapper) (res : Resource) (sp : Span) : Attrs :=
  M.scrubAttributes
    (takePayloads (mergeAttrs (flattenAttrs res.attributes) (flattenAttrs sp.attributes))).rest

/-- What is kept of an attribute. -/
theorem Mapper.lookup_keptAttrs (M : Mapper) (res : Resource) (sp : Span) (key : String) :
    (M.keptAttrs res sp).lookup key = M.kept res sp key := by
  rw [Mapper.keptAttrs, lookup_scrubAttributes, lookup_takePayloads, lookup_mergeAttrs,
    lookup_flattenAttrs, lookup_flattenAttrs, Mapper.kept]
  by_cases hempty : key = ""
  · simp [hempty]
  · by_cases hpayload : isPayload key = true
    · simp [hpayload]
    · simp only [hempty, hpayload, Bool.false_eq_true, if_false, or_self]
      cases lastValue sp.attributes key <;> cases lastValue res.attributes key <;> rfl

theorem get_membersOf (attrs : Attrs) (key : String) :
    (CanonValue.obj (membersOf attrs)).get key = attrs.lookup key := by
  change ((attrs.entries.map fun e => (e.1, e.2)).find? (·.1 == key)).map (·.2) =
    attrs.entries.dlookup key
  induction attrs.entries with
  | nil => rfl
  | cons e l ih =>
    rw [List.map_cons]
    by_cases hkey : e.1 = key
    · subst hkey
      rw [List.find?_cons_of_pos (by simp), List.dlookup_cons_eq]
      rfl
    · rw [List.find?_cons_of_neg (by simpa using hkey), ih, List.dlookup_cons_ne _ _ (Ne.symm hkey)]

theorem map_fst_membersOf (attrs : Attrs) : (membersOf attrs).map (·.1) = attrs.keys := by
  rw [membersOf, List.map_map]
  rfl

/-- No attribute has a nested value. -/
theorem depth_attrValue (v : AttributeValue) : (attrValue v).depth = 0 := by
  unfold attrValue
  split
  · rfl
  · unfold intOrText
    split <;> rfl
  all_goals rfl

/-- Scrubbing makes nothing deeper. -/
theorem Mapper.depth_scrubbed (M : Mapper) (key : String) {v : CanonValue} (h : v.depth = 0) :
    (M.scrubbed key v).depth = 0 := by
  unfold Mapper.scrubbed
  split_ifs
  · rfl
  · cases v with
    | null => rfl
    | bool b => rfl
    | int n => rfl
    | str s => rfl
    | arr items => cases h
    | obj members => cases h

/-- What is kept is flat. -/
theorem Mapper.depth_kept {M : Mapper} {res : Resource} {sp : Span} {key : String}
    {v : CanonValue} (h : M.kept res sp key = some v) : v.depth = 0 := by
  unfold Mapper.kept at h
  split_ifs at h
  obtain ⟨u, -, rfl⟩ := Option.map_eq_some_iff.mp h
  exact M.depth_scrubbed key (depth_attrValue u)

/-- A flat value has no keys to clash. -/
theorem distinctNfcKeys_of_depth {N : Normalizer} {v : CanonValue} (h : v.depth = 0) :
    DistinctNfcKeys N v := by
  cases v with
  | null => exact .null
  | bool b => exact .bool b
  | int n => exact .int n
  | str s => exact .str trivial
  | arr items => cases h
  | obj members => cases h

/-- The keys a body may have. -/
def bodyKeys : List String :=
  ["project_id", "session_id", "action", "event_type", "span_id", "parent_span_id", "observed_via",
    "status", "agent_ts", "extensions", "agent_id", "input", "output", "rationale"]

/-- What is optional has its own key. -/
theorem optional_keys (key text shown : String) :
    ((optional key text shown).map (·.1)).Sublist [key] := by
  unfold optional
  split_ifs
  · exact List.nil_sublist _
  · exact List.Sublist.refl _

theorem depth_of_mem_optional {key text shown : String} {m : String × CanonValue}
    (h : m ∈ optional key text shown) : m.2.depth = 0 := by
  unfold optional at h
  split_ifs at h
  · cases h
  · rw [List.mem_singleton.mp h]
    rfl

theorem depth_parentSpanId (p : String) : (parentSpanId p).depth = 0 := by
  unfold parentSpanId
  split_ifs <;> rfl

/-- The members of a body: its keys are some of those above, and only the attributes are nested. -/
theorem Mapper.mapSpan_members (M : Mapper) (res : Resource) (sp : Span) (projectId : String) :
    ∃ members, M.mapSpan sp (flattenAttrs res.attributes) projectId = .obj members ∧
      (members.map (·.1)).Sublist bodyKeys ∧
      (∀ m ∈ members, m.2.depth = 0 ∨
        m.2 = .obj [("otel_attrs", .obj (membersOf (M.keptAttrs res sp)))]) := by
  refine ⟨_, rfl, ?_, ?_⟩
  · rw [List.map_append, List.map_append, List.map_append, List.map_append]
    exact (List.Sublist.refl _).append ((optional_keys _ _ _).append
      ((optional_keys _ _ _).append ((optional_keys _ _ _).append (optional_keys _ _ _))))
  · intro m hm
    rcases List.mem_append.mp hm with hfixed | hmore
    · simp only [List.mem_cons, List.not_mem_nil, or_false] at hfixed
      rcases hfixed with rfl | rfl | rfl | rfl | rfl | rfl | rfl | rfl | rfl | rfl
      case inr.inr.inr.inr.inr.inl => exact Or.inl (depth_parentSpanId sp.parentSpanId)
      case inr.inr.inr.inr.inr.inr.inr.inr.inr => exact Or.inr rfl
      all_goals exact Or.inl rfl
    · simp only [List.mem_append] at hmore
      rcases hmore with h | h | h | h <;> exact Or.inl (depth_of_mem_optional h)

/-- The body has its attributes under the extensions. -/
theorem Mapper.mapSpan_attrs (M : Mapper) (res : Resource) (sp : Span) (projectId : String) :
    ((M.mapSpan sp (flattenAttrs res.attributes) projectId).get "extensions").bind
      (·.get "otel_attrs") = some (.obj (membersOf (M.keptAttrs res sp))) := rfl

theorem lookup_of_mem_membersOf {attrs : Attrs} {m : String × CanonValue}
    (h : m ∈ membersOf attrs) : attrs.lookup m.1 = some m.2 := by
  obtain ⟨e, he, rfl⟩ := List.mem_map.mp h
  exact AList.mem_lookup_iff.mpr he

/-- What is kept is flat. -/
theorem Mapper.depth_of_mem_keptAttrs {M : Mapper} {res : Resource} {sp : Span}
    {m : String × CanonValue} (h : m ∈ membersOf (M.keptAttrs res sp)) : m.2.depth = 0 := by
  have hlookup := lookup_of_mem_membersOf h
  rw [M.lookup_keptAttrs] at hlookup
  exact Mapper.depth_kept hlookup

/-- The attribute of a body under a key. -/
def attributeOf (body : CanonValue) (key : String) : Option CanonValue :=
  ((body.get "extensions").bind (·.get "otel_attrs")).bind (·.get key)

/-- A body has what is kept of each attribute. -/
theorem Mapper.attributeOf_mapSpan (M : Mapper) (res : Resource) (sp : Span) (projectId : String)
    (key : String) :
    attributeOf (M.mapSpan sp (flattenAttrs res.attributes) projectId) key = M.kept res sp key := by
  rw [attributeOf, M.mapSpan_attrs, Option.bind_some, get_membersOf, M.lookup_keptAttrs]

/-- A body without two attribute keys of one normal form has no such keys anywhere. -/
theorem Mapper.distinctNfcKeys_mapSpan (M : Mapper) (N : Normalizer) (res : Resource) (sp : Span)
    (projectId : String) (h : ((M.keptAttrs res sp).keys.map (nfc N)).Nodup) :
    DistinctNfcKeys N (M.mapSpan sp (flattenAttrs res.attributes) projectId) := by
  obtain ⟨members, hbody, hkeys, hvalues⟩ := M.mapSpan_members res sp projectId
  have hascii : (members.map (·.1)).map (nfc N) = members.map (·.1) := by
    have hall : ∀ k ∈ bodyKeys, isAscii k = true := by decide
    exact (List.map_congr_left fun k hk => nfc_of_isAscii N (hall k (hkeys.subset hk))).trans
      (List.map_id _)
  have hnodup : bodyKeys.Nodup := by decide
  rw [hbody]
  refine .obj ?_ fun m hm => ?_
  · rw [hascii]
    exact hnodup.sublist hkeys
  · rcases hvalues m hm with hflat | hnested
    · exact distinctNfcKeys_of_depth hflat
    · rw [hnested]
      have hattrs : DistinctNfcKeys N (.obj (membersOf (M.keptAttrs res sp))) := by
        refine .obj ?_ fun a ha => distinctNfcKeys_of_depth (Mapper.depth_of_mem_keptAttrs ha)
        rw [map_fst_membersOf]
        exact h
      refine .obj (List.nodup_singleton _) ?_
      intro a ha
      rw [List.mem_singleton.mp ha]
      exact hattrs

/-- A body is nested three objects deep. -/
theorem Mapper.depth_mapSpan_le (M : Mapper) (res : Resource) (sp : Span) (projectId : String) :
    (M.mapSpan sp (flattenAttrs res.attributes) projectId).depth ≤ 3 := by
  obtain ⟨members, hbody, -, hvalues⟩ := M.mapSpan_members res sp projectId
  have hattrs : CanonValue.depthMembers (membersOf (M.keptAttrs res sp)) ≤ 0 :=
    CanonValue.depthMembers_le fun m hm => (Mapper.depth_of_mem_keptAttrs hm).le
  have hall : CanonValue.depthMembers members ≤ 2 := by
    apply CanonValue.depthMembers_le
    intro m hm
    rcases hvalues m hm with hflat | hnested
    · omega
    · rw [hnested, CanonValue.depth]
      have hone : CanonValue.depthMembers
          [("otel_attrs", .obj (membersOf (M.keptAttrs res sp)))] ≤ 1 := by
        apply CanonValue.depthMembers_le
        intro a ha
        rw [List.mem_singleton.mp ha, CanonValue.depth]
        omega
      omega
  rw [hbody, CanonValue.depth]
  omega

/-- A loop whose steps append gives everything that is appended. -/
theorem eq_append_of_foldlM {α β ε : Type} {step : List β → α → Except ε (List β)}
    {f : α → List β} (hstep : ∀ out a out', step out a = .ok out' → out' = out ++ f a)
    {l : List α} {out r : List β} (h : l.foldlM step out = .ok r) : r = out ++ l.flatMap f := by
  induction l generalizing out with
  | nil =>
    cases h
    rw [List.flatMap_nil, List.append_nil]
  | cons a l ih =>
    rw [List.foldlM_cons, bind_eq_ok_iff] at h
    obtain ⟨out', ha, hrest⟩ := h
    rw [ih hrest, hstep out a out' ha, List.flatMap_cons, List.append_assoc]

/-- The bodies of an accepted export, one for each span in the order of the document. -/
theorem Mapper.mapSpansToRecords_eq_ok {M : Mapper} {otlpJson : List UInt8} {projectId : String}
    {bodies : List CanonValue} (h : M.mapSpansToRecords otlpJson projectId = .ok bodies) :
    ∃ req, M.decode otlpJson = .ok req ∧ bodies = req.located.map fun src =>
      M.mapSpan src.2 (flattenAttrs src.1.attributes) projectId := by
  unfold Mapper.mapSpansToRecords at h
  rcases hdecode : M.decode otlpJson with cause | req
  · rw [hdecode] at h
    cases h
  · rw [hdecode] at h
    refine ⟨req, rfl, ?_⟩
    have hspan : ∀ resAttrs out sp out', M.addSpan projectId resAttrs out sp = .ok out' →
        out' = out ++ [M.mapSpan sp resAttrs projectId] := by
      intro resAttrs out sp out' hadd
      unfold Mapper.addSpan at hadd
      split_ifs at hadd
      exact (Except.ok.inj hadd).symm
    have hresource : ∀ out rs out', M.addResource projectId out rs = .ok out' →
        out' = out ++ rs.scopeSpans.flatMap fun ss => ss.spans.flatMap fun sp =>
          [M.mapSpan sp (flattenAttrs rs.resource.attributes) projectId] := by
      intro out rs out' hadd
      exact eq_append_of_foldlM
        (fun out ss out' hscope => eq_append_of_foldlM (hspan _) hscope) hadd
    have hall := eq_append_of_foldlM hresource h
    rw [hall, List.nil_append, ExportTraceServiceRequest.located, List.map_flatMap]
    simp only [List.map_flatMap, List.map_map, Function.comp_def, ← List.map_eq_flatMap]

/-- What holds of a body and the span it is made from. -/
structure Mapper.BodyOf (M : Mapper) (N : Normalizer) (projectId : String)
    (src : Resource × Span) (body : CanonValue) : Prop where
  mapped : body = M.mapSpan src.2 (flattenAttrs src.1.attributes) projectId
  sealable : ∃ attrs, (body.get "extensions").bind (·.get "otel_attrs") = some (.obj attrs) ∧
    (∀ key, (CanonValue.obj attrs).get key = M.kept src.1 src.2 key) ∧
    ((attrs.map fun a => nfc N a.1).Nodup → ∃ c, parse N (.ofList (marshal body)) = .ok c)

/-- An accepted export gives one body for each span in the order of the document. Under an
attribute key the body has what the span has for it, or else its resource, redacted; and nothing
for a payload key or the empty one. What is written of the body can be read for sealing when no
two of its attribute keys have one normal form. -/
theorem Mapper.mapSpansToRecords_sealable (N : Normalizer) (M : Mapper) (otlpJson : List UInt8)
    (projectId : String) (bodies : List CanonValue)
    (h : M.mapSpansToRecords otlpJson projectId = .ok bodies) :
    ∃ req, M.decode otlpJson = .ok req ∧
      List.Forall₂ (M.BodyOf N projectId) req.located bodies := by
  obtain ⟨req, hdecode, rfl⟩ := Mapper.mapSpansToRecords_eq_ok h
  refine ⟨req, hdecode, List.forall₂_map_right_iff.mpr (List.forall₂_same.mpr ?_)⟩
  rintro ⟨res, sp⟩ -
  refine ⟨rfl, membersOf (M.keptAttrs res sp), M.mapSpan_attrs res sp projectId, ?_, ?_⟩
  · intro key
    rw [get_membersOf, M.lookup_keptAttrs]
  · intro hnodup
    have hkeys : ((M.keptAttrs res sp).keys.map (nfc N)).Nodup := by
      rwa [← map_fst_membersOf, List.map_map]
    apply parse_marshal (M.distinctNfcKeys_mapSpan N res sp projectId hkeys)
    exact (M.depth_mapSpan_le res sp projectId).trans (by decide)

/-- An attribute with a text. -/
def withText (key text : String) : Attribute := ⟨key, { stringValue := some text }⟩

/-- A span with an empty key, a secret one and two spellings of one letter. -/
def sampleSpan : Span where
  traceId := "t"
  spanId := "s"
  parentSpanId := ""
  name := "n"
  startTimeUnixNano := ""
  attributes := [withText "" "a", withText "password" "b", withText "\u00E9" "c",
    withText "e\u0301" "d"]
  status := none

/-- The export of that span, as a value. -/
def sampleExport : CanonValue :=
  let attributes := sampleSpan.attributes.map fun a => CanonValue.obj
    [("key", .str a.key), ("value", .obj [("stringValue", .str (a.value.stringValue.getD ""))])]
  let span := CanonValue.obj [("traceId", .str sampleSpan.traceId),
    ("spanId", .str sampleSpan.spanId), ("name", .str sampleSpan.name),
    ("attributes", .arr attributes)]
  .obj [("resourceSpans", .arr [.obj [("scopeSpans", .arr [.obj [("spans", .arr [span])]])]])]

/-- Its text. -/
def sampleText : List UInt8 := utf8 (marshal sampleExport)

/-- The libraries on the sample: its decoding, and nothing to redact in its texts. -/
def sampleMapper : Mapper where
  decode otlpJson :=
    if otlpJson = sampleText then .ok ⟨[⟨⟨[]⟩, [⟨[sampleSpan]⟩]⟩]⟩ else .error "another text"
  redact s := s
  lower := Char.toLower

/-- Composing twice is composing once. -/
theorem compose_compose (s : String) :
    (if (if s = "e\u0301" then "\u00E9" else s) = "e\u0301" then "\u00E9"
      else if s = "e\u0301" then "\u00E9" else s) = if s = "e\u0301" then "\u00E9" else s := by
  split_ifs with h h'
  · rfl
  · rfl
  · rfl

/-- Normalization on the sample: the letter with a combining accent is the accented letter. -/
def sampleNormalizer : Normalizer where
  normalize s := if s = "e\u0301" then "\u00E9" else s
  idem := compose_compose

/-- The sample is mapped. -/
theorem mapSpansToRecords_sample : sampleMapper.mapSpansToRecords sampleText "p" =
    .ok [sampleMapper.mapSpan sampleSpan (flattenAttrs []) "p"] := by
  have hdecode : sampleMapper.decode sampleText = .ok ⟨[⟨⟨[]⟩, [⟨[sampleSpan]⟩]⟩]⟩ := by
    simp only [sampleMapper, if_true]
  rw [Mapper.mapSpansToRecords, hdecode]
  rfl

theorem mapSpansToRecords_sealable_sample :
    ∃ req, sampleMapper.decode sampleText = .ok req ∧
      List.Forall₂ (sampleMapper.BodyOf .identity "p") req.located
        [sampleMapper.mapSpan sampleSpan (flattenAttrs []) "p"] :=
  Mapper.mapSpansToRecords_sealable .identity sampleMapper sampleText "p" _
    mapSpansToRecords_sample

/-- The sample is accepted. Its body cannot be read for sealing, has nothing under the empty key and
not the value of the span under the secret one. -/
theorem mapSpansToRecords_not_sealable :
    ∃ body, sampleMapper.mapSpansToRecords sampleText "p" = .ok [body] ∧
      (parse sampleNormalizer (.ofList (marshal body))).isOk = false ∧
      attributeOf body "" = none ∧
      attributeOf body "password" = some (.str "[REDACTED:attribute]") := by
  refine ⟨_, mapSpansToRecords_sample, ?_, ?_, ?_⟩
  · decide +kernel
  · rw [sampleMapper.attributeOf_mapSpan ⟨[]⟩, Mapper.kept, if_pos (Or.inl rfl)]
  · have hpayload : isPayload "password" = false := by decide +kernel
    have hsecret : sampleMapper.isSecretKey "password" = true := by decide +kernel
    rw [sampleMapper.attributeOf_mapSpan ⟨[]⟩, Mapper.kept, if_neg (by simp [hpayload])]
    have hlast : lastValue sampleSpan.attributes "password" = some { stringValue := some "b" } := by
      decide +kernel
    rw [hlast, Option.some_or, Option.map_some, Mapper.scrubbed, if_pos hsecret]
    rfl

end Averin.Otel
