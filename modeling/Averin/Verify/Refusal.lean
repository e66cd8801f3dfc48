import Averin.Canon.Object
import Averin.Core.Outcome
import Averin.Core.Table
import Averin.Core.Time

/-!
# Refusal records

A refusal says that the gateway refused an attempt of an agent. What it may look like is closed:
the names, the classes, the counts and the spelling of the times. A record of this kind that looks
otherwise fails the verification; one that does not is counted by its classes.
-/

namespace Averin

/-- The closed set of reasons. -/
def refusalReasonClasses : List String :=
  ["not_granted", "policy_deny", "kill_fence", "rate_limit", "spend_cap", "cross_tenant",
    "token_unusable", "llm_channel_only", "model_unpriced", "modifier_unpriced",
    "provider_disabled", "capability_undeclared", "approval_unavailable", "decision_unavailable"]

/-- Where a call can be refused. -/
def refusalEntryPoints : List String := ["mcp", "execute", "llm", "approval_resume"]

/-- How many attempts a group can count. -/
def maxRefusalAttempts : Int := 1000000000

namespace Refusal

/-- The keys allowed in the member of a refusal. -/
def allowedKeys : List String :=
  ["v", "reason_class", "entry_point", "credential", "attempts", "first_at", "last_at", "summary",
    "by_class"]

/-- What a well-shaped refusal contributes to the report. -/
structure Counted where
  attempts : Nat
  byClass : Table String Nat

/-- A byte of a name. -/
def isNameByte (b : UInt8) : Bool :=
  ('0'.toUInt8 ≤ b && b ≤ '9'.toUInt8) || ('A'.toUInt8 ≤ b && b ≤ 'Z'.toUInt8) ||
    ('a'.toUInt8 ≤ b && b ≤ 'z'.toUInt8) || b = '.'.toUInt8 || b = '_'.toUInt8 ||
    b = ':'.toUInt8 || b = '-'.toUInt8

/-- A short plain identifier. -/
def isName (s : String) : Bool :=
  1 ≤ (bytes s).length && (bytes s).length ≤ 128 && (bytes s).all isNameByte

/-- The canonical text of a time, up to a digit for a digit. -/
def isCanonicalTime (s : String) : Bool :=
  let b := bytes s
  b.length = 24 && b.zipIdx.all fun (c, i) =>
    match i with
    | 4 | 7 => c = '-'.toUInt8
    | 10 => c = 'T'.toUInt8
    | 13 | 16 => c = ':'.toUInt8
    | 19 => c = '.'.toUInt8
    | 23 => c = 'Z'.toUInt8
    | _ => '0'.toUInt8 ≤ c && c ≤ '9'.toUInt8

/-- A count in its bounds. -/
def count (v : CanonValue) : Option Int :=
  v.asInt.filter fun n => 1 ≤ n ∧ n ≤ maxRefusalAttempts

/-- Take in the count of one class. -/
def addClass (acc : Int × Table String Nat) (entry : String × CanonValue) :
    Except String (Int × Table String Nat) := do
  let (sum, byClass) := acc
  require (entry.1 ∈ refusalReasonClasses)
    ("by_class names a class outside the closed set: " ++ String.quote entry.1)
  let n ← orFail (count entry.2) "by_class counts must be integers in 1..=1000000000"
  require (sum + n < 2 ^ 63) "by_class sum overflows"
  return (sum + n, byClass.insert entry.1 n.toNat)

/-- The counts of the classes, which must come to the attempts. -/
def countSummary (g : CanonValue) (attempts : Int) : Except String (Table String Nat) := do
  require (g.get "reason_class" = none) "a summary refusal carries by_class, not reason_class"
  let classes ← orFail ((g.get "by_class").bind CanonValue.asObject)
    "a summary refusal requires by_class"
  let (sum, byClass) ← classes.foldlM addClass (0, ∅)
  require (sum = attempts) "attempts must equal the sum of by_class"
  return byClass

/-- The one class of a refusal that is no summary. -/
def countSingle (g : CanonValue) (attempts : Int) : Except String (Table String Nat) := do
  require (g.get "entry_point" ≠ none) "extensions.gateway_refusal.entry_point is required"
  require (g.get "by_class" = none) "by_class is only valid on a summary refusal"
  let reason ← orFail ((strOf g "reason_class").filter (· ∈ refusalReasonClasses))
    "extensions.gateway_refusal.reason_class is outside the closed set"
  return (∅ : Table String Nat).insert reason attempts.toNat

/-- The texts at the top of a refusal, which are the same in all of them, and its action. -/
def checkTop (rec : CanonValue) : Except String Unit := do
  require (strOf rec "event_type" = some "gateway_refusal")
    "record_kind gateway-refusal requires event_type gateway_refusal"
  require (strOf rec "status" = some "refused") "a gateway refusal has status refused"
  require (strOf rec "observed_via" = some "gateway") "a gateway refusal has observed_via gateway"
  require ((strOf rec "action").any fun a => a = "*" || isName a)
    "a gateway refusal action must be a plain identifier or *"
  require (rec.get "authority" = none) "a gateway refusal carries no authority block"

/-- The member of a refusal, which is all the record says of the broker. -/
def refusalMember (rec : CanonValue) : Except String CanonValue := do
  let ext ← orFail (rec.get "extensions")
    "a gateway refusal requires extensions.gateway_refusal"
  require (ext.get "broker" = none ∧ ext.get "broker_denial" = none)
    "a gateway refusal carries no extensions.broker (no grant or use evidence)"
  orFail (ext.get "gateway_refusal") "a gateway refusal requires extensions.gateway_refusal"

/-- A time of a group is written as the server writes it. -/
def checkTime (g : CanonValue) (k : String) : Except String Unit :=
  require ((strOf g k).any isCanonicalTime)
    ("extensions.gateway_refusal." ++ k ++ " must be a canonical UTC timestamp")

/-- A member that is absent, or of the right form. -/
def checkOptional (g : CanonValue) (k : String) (ok : CanonValue → Bool) (e : String) :
    Except String Unit :=
  require ((g.get k).all ok) e

/-- Whether a refusal merges many. -/
def summaryOf (g : CanonValue) : Except String Bool :=
  match g.get "summary" with
  | none => .ok false
  | some (.bool b) => .ok b
  | some _ => .error "extensions.gateway_refusal.summary must be a boolean"

/-- The attempts of a group, class by class. -/
def countClasses (g : CanonValue) (attempts : Int) (summary : Bool) :
    Except String (Table String Nat) :=
  if summary then countSummary g attempts else countSingle g attempts

/-- Check a refusal and count it. -/
def checkShape (rec : CanonValue) : Except String Counted := do
  checkTop rec
  let g ← refusalMember rec
  let members ← orFail g.asObject "extensions.gateway_refusal must be an object"
  members.forM fun m => require (m.1 ∈ allowedKeys)
    ("extensions.gateway_refusal has an unknown key " ++ String.quote m.1)
  require (intOf g "v" = some 1) "extensions.gateway_refusal.v must be 1"
  let attempts ← orFail ((g.get "attempts").bind count)
    "extensions.gateway_refusal.attempts must be an integer in 1..=1000000000"
  checkTime g "first_at"
  checkTime g "last_at"
  checkOptional g "credential" (fun c => c.asStr.any isName)
    "extensions.gateway_refusal.credential must be a plain identifier"
  let summary ← summaryOf g
  checkOptional g "entry_point" (fun e => e.asStr.any (· ∈ refusalEntryPoints))
    "extensions.gateway_refusal.entry_point is outside the closed set"
  let byClass ← countClasses g attempts summary
  return ⟨attempts.toNat, byClass⟩

/-- An ASCII character is one byte. -/
theorem utf8EncodeChar_of_lt {c : Char} (h : c.toNat < 128) :
    String.utf8EncodeChar c = [.ofNat c.toNat] := by
  have hval : c.val.toNat ≤ 127 := Nat.le_of_lt_succ h
  unfold String.utf8EncodeChar
  dsimp only
  rw [if_pos hval]
  rfl

/-- A character between two of the ASCII ones is one byte between those. -/
theorem utf8EncodeChar_range {c : Char} (low high : Char) (hlow : low.toNat ≤ c.toNat)
    (hhigh : c.toNat ≤ high.toNat) (h : high.toNat < 128) :
    ∃ b : UInt8, String.utf8EncodeChar c = [b] ∧ (low.toUInt8 ≤ b && b ≤ high.toUInt8) = true := by
  refine ⟨.ofNat c.toNat, utf8EncodeChar_of_lt (by omega), ?_⟩
  rw [Bool.and_eq_true, decide_eq_true_eq, decide_eq_true_eq, UInt8.le_iff_toNat_le,
    UInt8.le_iff_toNat_le, UInt8.toNat_ofNat']
  change low.toNat % 2 ^ 8 ≤ c.toNat % 2 ^ 8 ∧ c.toNat % 2 ^ 8 ≤ high.toNat % 2 ^ 8
  omega

/-- A digit is one byte, which is a digit. -/
theorem utf8EncodeChar_digit {c : Char} (h : c.isDigit = true) :
    ∃ b : UInt8, String.utf8EncodeChar c = [b] ∧ ('0'.toUInt8 ≤ b && b ≤ '9'.toUInt8) = true := by
  obtain ⟨hlow, hhigh⟩ := Char.isDigit_iff_toNat.mp h
  exact utf8EncodeChar_range '0' '9' hlow hhigh (by decide)

/-- Where every character is one byte, there are as many of them as characters. -/
theorem length_bytes_of_lt {cs : List Char} (h : ∀ c ∈ cs, c.toNat < 128) :
    (bytes (String.ofList cs)).length = cs.length := by
  rw [bytes_ofList]
  induction cs with
  | nil => rfl
  | cons c cs ih =>
    rw [utf8_cons, List.length_append, utf8EncodeChar_of_lt (h c List.mem_cons_self),
      ih fun d hd => h d (List.mem_cons_of_mem c hd), List.length_singleton, List.length_cons,
      Nat.add_comm]

/-- The canonical form, spelled with its digits. -/
theorem isCanonicalTime_digits {y₁ y₂ y₃ y₄ m₁ m₂ d₁ d₂ h₁ h₂ n₁ n₂ s₁ s₂ f₁ f₂ f₃ : Char}
    (hdigits : ∀ c ∈ [y₁, y₂, y₃, y₄, m₁, m₂, d₁, d₂, h₁, h₂, n₁, n₂, s₁, s₂, f₁, f₂, f₃],
      c.isDigit = true) :
    isCanonicalTime (String.ofList [y₁, y₂, y₃, y₄, '-', m₁, m₂, '-', d₁, d₂, 'T', h₁, h₂, ':',
      n₁, n₂, ':', s₁, s₂, '.', f₁, f₂, f₃, 'Z']) = true := by
  obtain ⟨_, ey₁, hy₁⟩ := utf8EncodeChar_digit (hdigits y₁ (by simp))
  obtain ⟨_, ey₂, hy₂⟩ := utf8EncodeChar_digit (hdigits y₂ (by simp))
  obtain ⟨_, ey₃, hy₃⟩ := utf8EncodeChar_digit (hdigits y₃ (by simp))
  obtain ⟨_, ey₄, hy₄⟩ := utf8EncodeChar_digit (hdigits y₄ (by simp))
  obtain ⟨_, em₁, hm₁⟩ := utf8EncodeChar_digit (hdigits m₁ (by simp))
  obtain ⟨_, em₂, hm₂⟩ := utf8EncodeChar_digit (hdigits m₂ (by simp))
  obtain ⟨_, ed₁, hd₁⟩ := utf8EncodeChar_digit (hdigits d₁ (by simp))
  obtain ⟨_, ed₂, hd₂⟩ := utf8EncodeChar_digit (hdigits d₂ (by simp))
  obtain ⟨_, eh₁, hh₁⟩ := utf8EncodeChar_digit (hdigits h₁ (by simp))
  obtain ⟨_, eh₂, hh₂⟩ := utf8EncodeChar_digit (hdigits h₂ (by simp))
  obtain ⟨_, en₁, hn₁⟩ := utf8EncodeChar_digit (hdigits n₁ (by simp))
  obtain ⟨_, en₂, hn₂⟩ := utf8EncodeChar_digit (hdigits n₂ (by simp))
  obtain ⟨_, es₁, hs₁⟩ := utf8EncodeChar_digit (hdigits s₁ (by simp))
  obtain ⟨_, es₂, hs₂⟩ := utf8EncodeChar_digit (hdigits s₂ (by simp))
  obtain ⟨_, ef₁, hf₁⟩ := utf8EncodeChar_digit (hdigits f₁ (by simp))
  obtain ⟨_, ef₂, hf₂⟩ := utf8EncodeChar_digit (hdigits f₂ (by simp))
  obtain ⟨_, ef₃, hf₃⟩ := utf8EncodeChar_digit (hdigits f₃ (by simp))
  rw [isCanonicalTime, bytes_ofList]
  simp only [utf8_cons, utf8_nil, ey₁, ey₂, ey₃, ey₄, em₁, em₂, ed₁, ed₂, eh₁, eh₂, en₁, en₂,
    es₁, es₂, ef₁, ef₂, ef₃, utf8EncodeChar_of_lt (show '-'.toNat < 128 by decide),
    utf8EncodeChar_of_lt (show 'T'.toNat < 128 by decide),
    utf8EncodeChar_of_lt (show ':'.toNat < 128 by decide),
    utf8EncodeChar_of_lt (show '.'.toNat < 128 by decide),
    utf8EncodeChar_of_lt (show 'Z'.toNat < 128 by decide)]
  simp only [Bool.and_eq_true, decide_eq_true_eq] at hy₁ hy₂ hy₃ hy₄ hm₁ hm₂ hd₁ hd₂
  simp only [Bool.and_eq_true, decide_eq_true_eq] at hh₁ hh₂ hn₁ hn₂ hs₁ hs₂ hf₁ hf₂ hf₃
  simp [List.zipIdx, hy₁, hy₂, hy₃, hy₄, hm₁, hm₂, hd₁, hd₂, hh₁, hh₂, hn₁, hn₂, hs₁, hs₂, hf₁,
    hf₂, hf₃]
  exact ⟨rfl, rfl, rfl, rfl, rfl⟩

/-- A written time is canonical exactly when its year has four digits. -/
theorem isCanonicalTime_format (t : Int) : isCanonicalTime (Time.format t) = true ↔
    0 ≤ (Time.civil t).year ∧ (Time.civil t).year < 10 ^ 4 := by
  obtain ⟨hmonth, hday, hhour, hminute, hsecond, hmilli⟩ := Time.civil_bounds t
  obtain ⟨m₁, m₂, hm, hm₁, hm₂⟩ := Time.exists_appendInt_two hmonth
  obtain ⟨d₁, d₂, hd, hd₁, hd₂⟩ := Time.exists_appendInt_two hday
  obtain ⟨h₁, h₂, hh, hh₁, hh₂⟩ := Time.exists_appendInt_two hhour
  obtain ⟨n₁, n₂, hn, hn₁, hn₂⟩ := Time.exists_appendInt_two hminute
  obtain ⟨s₁, s₂, hs, hs₁, hs₂⟩ := Time.exists_appendInt_two hsecond
  obtain ⟨f₁, f₂, f₃, hf⟩ :=
    List.length_eq_three.mp ((Time.length_appendInt (by decide)).mpr hmilli)
  have hfdigit : ∀ c ∈ Time.appendInt _ 3, c.isDigit = true := fun c hc =>
    Time.isDigit_of_mem_appendInt hmilli.1 hc
  rw [hf] at hfdigit
  have hlength : (Time.appendInt (Time.civil t).year 4).length = 4 ↔
      0 ≤ (Time.civil t).year ∧ (Time.civil t).year < 10 ^ 4 :=
    Time.length_appendInt (by decide)
  have hyear : ∀ c ∈ Time.appendInt (Time.civil t).year 4, c.toNat < 128 := fun c hc =>
    Time.lt_of_mem_appendInt hc
  have hdigit : 0 ≤ (Time.civil t).year → ∀ c ∈ Time.appendInt (Time.civil t).year 4,
      c.isDigit = true := fun h0 c hc => Time.isDigit_of_mem_appendInt h0 hc
  rw [Time.format, hm, hd, hh, hn, hs, hf]
  generalize (Time.civil t).year = y at *
  generalize Time.appendInt y 4 = year at *
  constructor
  · intro hcanonical
    rw [isCanonicalTime, Bool.and_eq_true, decide_eq_true_eq, length_bytes_of_lt] at hcanonical
    · have hlen := hcanonical.1
      simp only [List.length_append, List.length_cons, List.length_nil] at hlen
      exact hlength.mp (by omega)
    · have hlt := fun {c : Char} (h : c.isDigit = true) => Time.lt_of_isDigit h
      simp only [List.forall_mem_append, List.forall_mem_cons]
      exact ⟨hyear, by decide, ⟨hlt hm₁, hlt hm₂, by simp⟩, by decide,
        ⟨hlt hd₁, hlt hd₂, by simp⟩, by decide, ⟨hlt hh₁, hlt hh₂, by simp⟩, by decide,
        ⟨hlt hn₁, hlt hn₂, by simp⟩, by decide, ⟨hlt hs₁, hlt hs₂, by simp⟩, by decide,
        ⟨hlt (hfdigit f₁ (by simp)), hlt (hfdigit f₂ (by simp)), hlt (hfdigit f₃ (by simp)),
          by simp⟩, by decide, by simp⟩
  · intro hbounds
    obtain ⟨y₁, y₂, y₃, y₄, rfl⟩ : ∃ a b c d, year = [a, b, c, d] := by
      have := hlength.mpr hbounds
      match year, this with
      | [a, b, c, d], _ => exact ⟨a, b, c, d, rfl⟩
    have hy := hdigit hbounds.1
    refine isCanonicalTime_digits ?_
    simp only [List.forall_mem_cons] at hy ⊢
    exact ⟨hy.1, hy.2.1, hy.2.2.1, hy.2.2.2.1, hm₁, hm₂, hd₁, hd₂, hh₁, hh₂, hn₁, hn₂, hs₁, hs₂,
      hfdigit f₁ (by simp), hfdigit f₂ (by simp), hfdigit f₃ (by simp), by simp⟩

end Refusal

end Averin
