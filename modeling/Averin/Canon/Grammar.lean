import Averin.Canon.Value

/-!
# The text grammar

A declarative description of the accepted texts and the value each denotes. Nothing
here refers to the parser: whitespace, digits and escapes are tables, strings are
spelled scalar by scalar, and nesting is bounded by the number of containers that may
still be opened.
-/

namespace Averin

/-- Insignificant whitespace: any run of space, tab, line feed and carriage return. -/
def WsText (w : List UInt8) : Prop := ∀ b ∈ w, b ∈ bytes " \t\n\r"

/-- The decimal digits. -/
def digitBytes : List UInt8 := bytes "0123456789"

/-- The number spelled by decimal digits, most significant first. -/
def decimalValue (ds : List UInt8) : Nat :=
  ds.foldl (fun n b => n * 10 + (b.toNat - '0'.toNat)) 0

/-- `0`, or a nonzero digit and any digits after it. -/
inductive DigitsText : List UInt8 → Prop
  | zero : DigitsText ['0'.toUInt8]
  | nonzero {d : UInt8} {ds : List UInt8} : d ∈ digitBytes → d ≠ '0'.toUInt8 →
      (∀ b ∈ ds, b ∈ digitBytes) → DigitsText (d :: ds)

/-- An integer of 64 signed bits, without fraction or exponent and never `-0`. -/
inductive IntText : List UInt8 → Int64 → Prop
  | nonneg {ds : List UInt8} {n : Int64} : DigitsText ds →
      n.toInt = decimalValue ds → IntText ds n
  | neg {ds : List UInt8} {n : Int64} : DigitsText ds → ds ≠ ['0'.toUInt8] →
      n.toInt = -decimalValue ds → IntText ('-'.toUInt8 :: ds) n

/-- The one-character escapes with the code unit each stands for. -/
def shortEscapes : List (UInt8 × UInt16) :=
  [('"'.toUInt8, 0x22), ('\\'.toUInt8, 0x5C), ('/'.toUInt8, 0x2F), ('b'.toUInt8, 0x08),
    ('f'.toUInt8, 0x0C), ('n'.toUInt8, 0x0A), ('r'.toUInt8, 0x0D), ('t'.toUInt8, 0x09)]

/-- The hexadecimal digits in both cases, with their values. -/
def hexDigits : List (UInt8 × Nat) :=
  (bytes "0123456789abcdef").zip (List.range 16) ++ (bytes "ABCDEF").zip (List.range' 10 6)

/-- The text between the quotes, with the UTF-16 code units it collects. -/
inductive StringBody : List UInt8 → List UInt16 → Prop
  | nil : StringBody [] []
  | raw {c : Char} {w : List UInt8} {u : List UInt16} : 0x20 ≤ c.toNat → c ≠ '"' → c ≠ '\\' →
      StringBody w u → StringBody (String.utf8EncodeChar c ++ w) (utf16Char c ++ u)
  | escape {e : UInt8} {x : UInt16} {w : List UInt8} {u : List UInt16} :
      (e, x) ∈ shortEscapes → StringBody w u → StringBody ('\\'.toUInt8 :: e :: w) (x :: u)
  | unicode {c0 c1 c2 c3 : UInt8} {d0 d1 d2 d3 : Nat} {w : List UInt8} {u : List UInt16} :
      (c0, d0) ∈ hexDigits → (c1, d1) ∈ hexDigits → (c2, d2) ∈ hexDigits →
      (c3, d3) ∈ hexDigits → StringBody w u →
      StringBody ('\\'.toUInt8 :: 'u'.toUInt8 :: c0 :: c1 :: c2 :: c3 :: w)
        (.ofNat (d0 * 0x1000 + d1 * 0x100 + d2 * 0x10 + d3) :: u)

/-- A quoted string. Its units spell scalars, so none of them is an unpaired surrogate. -/
inductive StringText : List UInt8 → String → Prop
  | mk {w : List UInt8} {t : String} : StringBody w (utf16 t.toList) →
      StringText ('"'.toUInt8 :: w ++ ['"'.toUInt8]) t

/-- An array item as it stands in the text, with the whitespace around it. -/
structure ItemText where
  before : List UInt8
  text : List UInt8
  after : List UInt8
  value : CanonValue

/-- An item with the white space around it. -/
def ItemText.bytes (p : ItemText) : List UInt8 := p.before ++ (p.text ++ p.after)

/-- An object member as it stands in the text, with the whitespace around its parts. -/
structure MemberText where
  before : List UInt8
  keyText : List UInt8
  afterKey : List UInt8
  beforeValue : List UInt8
  text : List UInt8
  after : List UInt8
  key : String
  value : CanonValue

/-- A member with the white space around its parts. -/
def MemberText.bytes (m : MemberText) : List UInt8 :=
  m.before ++ (m.keyText ++ (m.afterKey ++ ':'.toUInt8 :: (m.beforeValue ++ (m.text ++ m.after))))

/-- Whitespace stands in the four places a member allows it. -/
def MemberText.Spaced (m : MemberText) : Prop :=
  WsText m.before ∧ WsText m.afterKey ∧ WsText m.beforeValue ∧ WsText m.after

/-- The member it denotes: its key normalized. -/
def MemberText.member (N : Normalizer) (m : MemberText) : String × CanonValue :=
  (nfc N m.key, m.value)

/-- `ValueText N room w v`: the text `w` is one value, opening at most `room` nested
arrays and objects, and it denotes `v`. -/
inductive ValueText (N : Normalizer) : Nat → List UInt8 → CanonValue → Prop
  | null {room : Nat} : ValueText N room (bytes "null") .null
  | true {room : Nat} : ValueText N room (bytes "true") (.bool Bool.true)
  | false {room : Nat} : ValueText N room (bytes "false") (.bool Bool.false)
  | int {room : Nat} {w : List UInt8} {n : Int64} : IntText w n → ValueText N room w (.int n)
  | str {room : Nat} {w : List UInt8} {t : String} : StringText w t →
      ValueText N room w (.str (nfc N t))
  | emptyArr {room : Nat} {w : List UInt8} : WsText w →
      ValueText N (room + 1) ('['.toUInt8 :: w ++ [']'.toUInt8]) (.arr [])
  | arr {room : Nat} {items : List ItemText} : items ≠ [] →
      (∀ p ∈ items, WsText p.before ∧ WsText p.after) →
      (∀ p ∈ items, ValueText N room p.text p.value) →
      ValueText N (room + 1)
        ('['.toUInt8 :: [','.toUInt8].intercalate (items.map ItemText.bytes) ++ [']'.toUInt8])
        (.arr (items.map (·.value)))
  | emptyObj {room : Nat} {w : List UInt8} : WsText w →
      ValueText N (room + 1) ('{'.toUInt8 :: w ++ ['}'.toUInt8]) (.obj [])
  | obj {room : Nat} {members : List MemberText} : members ≠ [] →
      (∀ m ∈ members, m.Spaced) →
      (∀ m ∈ members, StringText m.keyText m.key) →
      (∀ m ∈ members, ValueText N room m.text m.value) →
      (members.map fun m => nfc N m.key).Nodup →
      ValueText N (room + 1)
        ('{'.toUInt8 :: [','.toUInt8].intercalate (members.map MemberText.bytes) ++
          ['}'.toUInt8])
        (.obj (members.map (MemberText.member N)))

/-- A document: exactly one value surrounded by whitespace. -/
def DocumentText (N : Normalizer) (room : Nat) (w : List UInt8) (v : CanonValue) : Prop :=
  ∃ before text after, WsText before ∧ WsText after ∧ w = before ++ (text ++ after) ∧
    ValueText N room text v

end Averin
