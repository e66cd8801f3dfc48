import Averin.Core.Table
import Averin.Core.Time
import Averin.Canon.Marshal
import Averin.Broker.Request
import Mathlib.Data.List.Infix

/-!
# Spans to records

An OpenTelemetry export is mapped to one record body for each span. What an instrumentation
reports about prompts and results leaves the attributes and becomes the input, the output and the
rationale of the body. All other attributes of the span and of its resource are kept, and secrets
in them are redacted.
-/

namespace Averin.Otel

/-- The value of an attribute. Its nested cases are kept as texts, empty where the field is
absent. -/
structure AttributeValue where
  stringValue : Option String := none
  intValue : Option String := none
  boolValue : Option Bool := none
  doubleValue : Option String := none
  arrayValue : String := ""
  kvlistValue : String := ""
  bytesValue : Option String := none
  deriving DecidableEq, Repr

/-- An attribute. -/
structure Attribute where
  key : String
  value : AttributeValue
  deriving DecidableEq, Repr

/-- The code of a status as it stands in the text. -/
inductive StatusCode where
  | number (literal : String)
  | text (s : String)
  | other
  deriving DecidableEq, Repr

/-- The status of a span. -/
structure Status where
  code : Option StatusCode
  deriving DecidableEq, Repr

/-- A span. -/
structure Span where
  traceId : String
  spanId : String
  /-- Empty for a root span. -/
  parentSpanId : String
  name : String
  /-- The text of the member, empty where it is absent. -/
  startTimeUnixNano : String
  attributes : List Attribute
  status : Option Status
  deriving DecidableEq, Repr

/-- The spans of a scope. -/
structure ScopeSpans where
  spans : List Span
  deriving DecidableEq, Repr

/-- What the spans come from. -/
structure Resource where
  attributes : List Attribute
  deriving DecidableEq, Repr

/-- The spans of a resource. -/
structure ResourceSpans where
  resource : Resource
  scopeSpans : List ScopeSpans
  deriving DecidableEq, Repr

/-- A request with all its spans. -/
structure ExportTraceServiceRequest where
  resourceSpans : List ResourceSpans
  deriving DecidableEq, Repr

/-- The libraries under the mapping: the JSON decoder, `scrub.Redact` and the lower case of a
character. -/
structure Mapper where
  decode : List UInt8 → Except String ExportTraceServiceRequest
  redact : String → String
  lower : Char → Char

/-- `map[string]any`. -/
abbrev Attrs := Table String CanonValue

/-- The integer of 64 bits where the text is one. -/
def intOrText (number : String) : CanonValue :=
  match parseInt64 number with
  | some i => .int i
  | none => .str number

/-- The value that is kept of an attribute: never a float and never a nested value. -/
def attrValue (v : AttributeValue) : CanonValue :=
  match v.stringValue, v.intValue, v.boolValue, v.doubleValue, v.bytesValue with
  | some s, _, _, _, _ => .str s
  | none, some i, _, _, _ => intOrText i
  | none, none, some b, _, _ => .bool b
  | none, none, none, some d, _ => .str d
  | none, none, none, none, some b => .str b
  | none, none, none, none, none => .str (if v.arrayValue ≠ "" then v.arrayValue else v.kvlistValue)

/-- The attributes by their keys; the last one of a key stays. -/
def flattenAttrs (attrs : List Attribute) : Attrs :=
  attrs.foldl (fun out a => if a.key = "" then out else out.insert a.key (attrValue a.value)) ∅

/-- A text attribute, empty where there is none. -/
def strAttr (attrs : Attrs) (key : String) : String :=
  match attrs.lookup key with
  | some (.str s) => s
  | _ => ""

/-- A key in a namespace, or the namespace itself. -/
def hasPrefixAttr (attrs : Attrs) (name : String) : Bool :=
  let dotted := name ++ "."
  attrs.keys.any fun k =>
    k = name || (dotted.toList.isPrefixOf k.toList && dotted.toList.length < k.toList.length)

/-- Where the input of a call stands. -/
def inputKeys : List String :=
  ["gen_ai.input.messages", "gen_ai.prompt", "llm.prompts", "tool.arguments", "input.value"]

/-- Where its output stands. -/
def outputKeys : List String :=
  ["gen_ai.output.messages", "gen_ai.completion", "llm.completions", "tool.result", "output.value"]

/-- Where its rationale stands. -/
def rationaleKeys : List String := ["feir.reasoning_summary"]

/-- How the parts of an input begin. -/
def inputPrefixes : List String := ["gen_ai.prompt.", "llm.input_messages.", "llm.prompts."]

/-- How the parts of an output begin. -/
def outputPrefixes : List String :=
  ["gen_ai.completion.", "llm.output_messages.", "llm.completions."]

/-- What is taken out of the attributes, and what is left of them. -/
structure Taken where
  text : String
  rest : Attrs

/-- The first text under one of the keys. All of them are deleted. -/
def takeFirstString (attrs : Attrs) (keys : List String) : Taken :=
  keys.foldl (fun t key =>
    { text := if t.text = "" then strAttr t.rest key else t.text
      rest := t.rest.erase key }) ⟨"", attrs⟩

/-- A key starts with one of the prefixes. -/
def hasAnyPrefix (prefixes : List String) (key : String) : Bool :=
  prefixes.any fun p => p.toList.isPrefixOf key.toList

/-- One attribute in the loop of `takeKeysWithPrefix`: the attributes taken and the rest. -/
def takeKey (prefixes : List String) (acc : Attrs × Attrs)
    (e : Sigma fun _ : String => CanonValue) :
    Attrs × Attrs :=
  if hasAnyPrefix prefixes e.1 then (acc.1.insert e.1 e.2, acc.2.erase e.1) else acc

/-- A map of attributes as the members of an object. -/
def membersOf (attrs : Attrs) : List (String × CanonValue) :=
  attrs.entries.map fun e => (e.1, e.2)

/-- The attributes under a prefix as the text of one object, and the empty text without one. -/
def takeKeysWithPrefix (attrs : Attrs) (prefixes : List String) : Taken :=
  let acc := attrs.entries.foldl (takeKey prefixes) (∅, attrs)
  { text := if acc.1.entries = [] then "" else .ofList (marshal (.obj (membersOf acc.1)))
    rest := acc.2 }

/-- Words that make a key secret. -/
def secretWords : List String :=
  ["authorization", "api_key", "api-key", "api_token", "api-token", "access_token",
    "refresh_token", "password", "secret", "cookie", "credential"]

/-- A key that contains one of the words in any case. -/
def Mapper.isSecretKey (M : Mapper) (key : String) : Bool :=
  secretWords.any fun word => word.toList <:+: key.toList.map M.lower

/-- What stands for a secret. -/
def redactedAttribute : CanonValue := .str "[REDACTED:attribute]"

mutual
/-- Redact every text of a value, and whatever stands under a secret key. -/
def Mapper.scrubValue (M : Mapper) : CanonValue → CanonValue
  | .null => .null
  | .bool b => .bool b
  | .int n => .int n
  | .str s => .str (M.redact s)
  | .arr items => .arr (M.scrubItems items)
  | .obj members => .obj (M.scrubMembers members)
termination_by structural v => v

/-- Every item of a list. -/
def Mapper.scrubItems (M : Mapper) : List CanonValue → List CanonValue
  | [] => []
  | v :: items => M.scrubValue v :: M.scrubItems items
termination_by structural items => items

/-- Every member of an object. -/
def Mapper.scrubMembers (M : Mapper) : List (String × CanonValue) → List (String × CanonValue)
  | [] => []
  | m :: members => M.scrubMember m :: M.scrubMembers members
termination_by structural members => members

/-- A member, which may be a secret. -/
def Mapper.scrubMember (M : Mapper) : String × CanonValue → String × CanonValue
  | (k, v) => (k, if M.isSecretKey k then redactedAttribute else M.scrubValue v)
termination_by structural m => m
end

/-- The value that is kept under a key. -/
def Mapper.scrubbed (M : Mapper) (key : String) (value : CanonValue) : CanonValue :=
  if M.isSecretKey key then redactedAttribute else M.scrubValue value

/-- Every attribute. -/
def Mapper.scrubAttributes (M : Mapper) (attrs : Attrs) : Attrs :=
  attrs.entries.foldl (fun out e => out.insert e.1 (M.scrubbed e.1 e.2)) attrs

/-- The session attribute, or else the trace. -/
def sessionId (attrs : Attrs) (traceId : String) : String :=
  if strAttr attrs "session.id" ≠ "" then strAttr attrs "session.id"
  else if strAttr attrs "averin.session" ≠ "" then strAttr attrs "averin.session"
  else traceId

/-- The type of an event. -/
def eventType (attrs : Attrs) : String :=
  if strAttr attrs "feir.event_type" ≠ "" then strAttr attrs "feir.event_type"
  else if strAttr attrs "averin.event_type" ≠ "" then strAttr attrs "averin.event_type"
  else if hasPrefixAttr attrs "tool" || hasPrefixAttr attrs "db" then "tool_call"
  else if hasPrefixAttr attrs "llm" || hasPrefixAttr attrs "gen_ai" then "llm_call"
  else "decision"

/-- The parent, where there is one. -/
def parentSpanId (p : String) : CanonValue := if p = "" then .null else .str p

/-- `bytes.Trim` of quotes. -/
def trimQuotes (s : String) : String :=
  .ofList ((s.toList.dropWhile (· = '"')).reverse.dropWhile (· = '"')).reverse

/-- The start of a span as a timestamp, and the empty text unless it is a positive number. -/
def agentTS (raw : String) : String :=
  let s := trimQuotes (Broker.trimSpace raw)
  if s = "" then ""
  else
    match parseInt64 s with
    | none => ""
    | some n => if n.toInt ≤ 0 then "" else Time.format n.toInt

/-- The number a status code is, as a literal or in a string. -/
def StatusCode.asNumber : StatusCode → Option Int64
  | .number literal => parseInt64 literal
  | .text s => if isValidNumber s then parseInt64 s else none
  | .other => none

/-- The status says so. -/
def isError (st : Option Status) : Bool :=
  match st.bind (·.code) with
  | none => false
  | some code =>
    match code.asNumber, code with
    | some i, _ => i = 2
    | none, .text name => name = "STATUS_CODE_ERROR" || name = "ERROR"
    | none, _ => false

/-- A member that is left out when there is no text to show. -/
def optional (key text shown : String) : List (String × CanonValue) :=
  if text = "" then [] else [(key, .str shown)]

/-- The payloads of a span and the attributes without them. -/
structure Payloads where
  input : String
  output : String
  rationale : String
  rest : Attrs

/-- Take out what is committed to. -/
def takePayloads (merged : Attrs) : Payloads :=
  let input := takeFirstString merged inputKeys
  let output := takeFirstString input.rest outputKeys
  let rationale := takeFirstString output.rest rationaleKeys
  let inputIndexed := takeKeysWithPrefix rationale.rest inputPrefixes
  let outputIndexed := takeKeysWithPrefix inputIndexed.rest outputPrefixes
  { input := if input.text = "" then inputIndexed.text else input.text
    output := if output.text = "" then outputIndexed.text else output.text
    rationale := rationale.text
    rest := outputIndexed.rest }

/-- The attributes of the resource, overwritten by those of the span. -/
def mergeAttrs (resAttrs attrs : Attrs) : Attrs :=
  attrs.entries.foldl (fun merged e => merged.insert e.1 e.2)
    (resAttrs.entries.foldl (fun merged e => merged.insert e.1 e.2) ∅)

/-- The body of a span. -/
def Mapper.mapSpan (M : Mapper) (sp : Span) (resAttrs : Attrs) (projectId : String) : CanonValue :=
  let payloads := takePayloads (mergeAttrs resAttrs (flattenAttrs sp.attributes))
  let merged := M.scrubAttributes payloads.rest
  .obj ([("project_id", .str projectId),
    ("session_id", .str (sessionId merged sp.traceId)),
    ("action", .str sp.name),
    ("event_type", .str (eventType merged)),
    ("span_id", .str sp.spanId),
    ("parent_span_id", parentSpanId sp.parentSpanId),
    ("observed_via", .str "otel"),
    ("status", .str (if isError sp.status then "error" else "ok")),
    ("agent_ts", .str (agentTS sp.startTimeUnixNano)),
    ("extensions", .obj [("otel_attrs", .obj (membersOf merged))])] ++
    (optional "agent_id" (strAttr merged "feir.agent_id") (strAttr merged "feir.agent_id") ++
      (optional "input" payloads.input (M.redact payloads.input) ++
        (optional "output" payloads.output (M.redact payloads.output) ++
          optional "rationale" payloads.rationale (M.redact payloads.rationale)))))

/-- How many spans a request may have. -/
def maxSpansPerRequest : Nat := 50000

/-- Why a request is not mapped. -/
inductive MapError where
  | parse (cause : String)
  | tooManySpans (out : List CanonValue)

/-- One span in the loop, unless there is no room for its body. -/
def Mapper.addSpan (M : Mapper) (projectId : String) (resAttrs : Attrs) (out : List CanonValue)
    (sp : Span) : Except MapError (List CanonValue) :=
  if maxSpansPerRequest ≤ out.length then .error (.tooManySpans out)
  else .ok (out ++ [M.mapSpan sp resAttrs projectId])

/-- The bodies of a resource, after those before. -/
def Mapper.addResource (M : Mapper) (projectId : String) (out : List CanonValue)
    (rs : ResourceSpans) : Except MapError (List CanonValue) :=
  let resAttrs := flattenAttrs rs.resource.attributes
  rs.scopeSpans.foldlM (fun out ss => ss.spans.foldlM (M.addSpan projectId resAttrs) out) out

/-- The bodies of a request. -/
def Mapper.mapSpansToRecords (M : Mapper) (otlpJson : List UInt8) (projectId : String) :
    Except MapError (List CanonValue) :=
  match M.decode otlpJson with
  | .error cause => .error (.parse cause)
  | .ok req => req.resourceSpans.foldlM (M.addResource projectId) []

/-- The spans of an export in the order of the document, each with its resource. -/
def ExportTraceServiceRequest.located (req : ExportTraceServiceRequest) : List (Resource × Span) :=
  req.resourceSpans.flatMap fun rs => rs.scopeSpans.flatMap fun ss =>
    ss.spans.map fun sp => (rs.resource, sp)

end Averin.Otel
