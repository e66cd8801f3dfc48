import Averin.Canon.Sort

/-!
# The parser

The input is a byte list and the cursor a byte offset, as in the program. Every loop
takes as fuel the number of bytes left, which is also the most rounds it can make: an
exhausted loop stands at the end of the input and returns what the program's next
round returns there. Nesting is counted down: `room` is the number of arrays and
objects that may still be opened, `MAX_DEPTH` minus the program's `depth`.
-/

namespace Averin

/-- A parse failure and its byte offset. -/
inductive ParseError where
  | atOffset (kind : ErrorKind) (pos : Nat)
  | expected (b : UInt8) (pos : Nat)
  | duplicateKey (key : String) (pos : Nat)
  deriving DecidableEq, Repr

/-- Maximum array and object nesting depth. -/
def maxDepth : Nat := 256

/-- White space of the format. -/
def isWs (b : UInt8) : Bool :=
  b == ' '.toUInt8 || b == '\t'.toUInt8 || b == '\n'.toUInt8 || b == '\r'.toUInt8

/-- A decimal digit. -/
def isDigit (b : UInt8) : Bool := '0'.toUInt8 ≤ b && b ≤ '9'.toUInt8

/-- Whether the byte at `i` exists and is an ASCII digit. -/
def digitAt (s : List UInt8) (i : Nat) : Bool :=
  match s[i]? with
  | some b => isDigit b
  | none => false

/-- Whether the byte at `i` exists and is `b`. -/
def byteAt (s : List UInt8) (i : Nat) (b : UInt8) : Bool := s[i]? == some b

/-- The position after white space. -/
def skipWs (s : List UInt8) (i : Nat) : Nat := i + ((s.drop i).takeWhile isWs).length

/-- The position after a byte that must stand here. -/
def expect (s : List UInt8) (i : Nat) (b : UInt8) : Except ParseError Nat :=
  if byteAt s i b then .ok (i + 1) else .error (.expected b i)

/-- Read one of the words of the format. -/
def parseLiteral (s : List UInt8) (i : Nat) (kw : List UInt8) (err : ErrorKind)
    (v : CanonValue) : Except ParseError (CanonValue × Nat) :=
  if kw.isPrefixOf (s.drop i) then .ok (v, i + kw.length) else .error (.atOffset err i)

/-- One digit of `decimal_i64`: the magnitude grows unless it would pass the limit. -/
def decimalStep (limit : Nat) (acc : Nat × Bool) (b : UInt8) : Nat × Bool :=
  let d := b.toNat - '0'.toNat
  if (limit - d) / 10 < acc.1 then (acc.1, false) else (acc.1 * 10 + d, acc.2)

/-- The integer spelled by the digits of `s` from `start` to `stop`, or `none` outside
the signed 64-bit range. -/
def decimalI64 (s : List UInt8) (start stop : Nat) (negative : Bool) : Option Int64 :=
  let limit := if negative then 9223372036854775808 else 9223372036854775807
  let r := ((s.drop start).take (stop - start)).foldl (decimalStep limit) (0, true)
  if !r.2 then none
  else if !negative then some (.ofInt r.1)
  else if r.1 = limit then some Int64.minValue
  else some (.ofInt (-r.1))

/-- The end of the integer part at `i`: `0` alone, or a nonzero digit and all that follow. -/
def integerEnd (s : List UInt8) (i : Nat) : Option Nat :=
  if byteAt s i '0'.toUInt8 then some (i + 1)
  else if digitAt s i then some (i + 1 + ((s.drop (i + 1)).takeWhile isDigit).length)
  else none

/-- Read an integer; fractions, exponents and numbers out of range are refused. -/
def parseNumber (s : List UInt8) (start : Nat) : Except ParseError (Int64 × Nat) :=
  let negative := byteAt s start '-'.toUInt8
  let digits := if negative then start + 1 else start
  match integerEnd s digits with
  | none => .error (.atOffset .missingDigits digits)
  | some i =>
    if byteAt s i '.'.toUInt8 then .error (.atOffset .fraction i)
    else if byteAt s i 'e'.toUInt8 || byteAt s i 'E'.toUInt8 then .error (.atOffset .exponent i)
    else if negative && i - digits == 1 && byteAt s digits '0'.toUInt8 then
      .error (.atOffset .negativeZero start)
    else
      match decimalI64 s digits i negative with
      | some n => .ok (n, i)
      | none => .error (.atOffset .outOfRange start)

/-- The code unit of a one-character escape, or `0xFFFF`. -/
def shortEscape (e : UInt8) : UInt16 :=
  if e = '"'.toUInt8 then 0x22
  else if e = '\\'.toUInt8 then 0x5C
  else if e = '/'.toUInt8 then 0x2F
  else if e = 'b'.toUInt8 then 0x08
  else if e = 'f'.toUInt8 then 0x0C
  else if e = 'n'.toUInt8 then 0x0A
  else if e = 'r'.toUInt8 then 0x0D
  else if e = 't'.toUInt8 then 0x09
  else 0xFFFF

/-- The value of a hex digit, or 16. -/
def hexValue (c : UInt8) : Nat :=
  if '0'.toUInt8 ≤ c ∧ c ≤ '9'.toUInt8 then c.toNat - '0'.toNat
  else if 'a'.toUInt8 ≤ c ∧ c ≤ 'f'.toUInt8 then c.toNat - 'a'.toNat + 10
  else if 'A'.toUInt8 ≤ c ∧ c ≤ 'F'.toUInt8 then c.toNat - 'A'.toNat + 10
  else 16

/-- The four hex digits of a `\u` escape at `i`. -/
def parseHex4 (s : List UInt8) (i : Nat) : Except ParseError (UInt16 × Nat) :=
  match s.drop i with
  | c0 :: c1 :: c2 :: c3 :: _ =>
    if 15 < hexValue c0 then .error (.atOffset .invalidHexDigit i)
    else if 15 < hexValue c1 then .error (.atOffset .invalidHexDigit (i + 1))
    else if 15 < hexValue c2 then .error (.atOffset .invalidHexDigit (i + 2))
    else if 15 < hexValue c3 then .error (.atOffset .invalidHexDigit (i + 3))
    else .ok (.ofNat (hexValue c0 * 0x1000 + hexValue c1 * 0x100 + hexValue c2 * 0x10 +
      hexValue c3), i + 4)
  | _ => .error (.atOffset .truncatedUnicodeEscape i)

/-- A byte inside a character. -/
def isContinuation (b : UInt8) : Bool := 0x80 ≤ b && b ≤ 0xBF

/-- The scalar value of the sequence of `len` bytes at the front of `s`, if it is
well-formed UTF-8. -/
def utf8Scalar (s : List UInt8) (len : Nat) : Option Nat :=
  match s, len with
  | b0 :: _, 1 => some b0.toNat
  | b0 :: b1 :: _, 2 =>
    if 0xC2 ≤ b0.toNat ∧ isContinuation b1 then
      some ((b0.toNat - 0xC0) * 0x40 + (b1.toNat - 0x80))
    else none
  | b0 :: b1 :: b2 :: s, len =>
    -- The second byte's range depends on the lead: no overlongs, surrogates or scalars
    -- above the last plane.
    let lo := if b0.toNat = 0xE0 then 0xA0 else if b0.toNat = 0xF0 then 0x90 else 0x80
    let hi := if b0.toNat = 0xED then 0x9F else if b0.toNat = 0xF4 then 0x8F else 0xBF
    if b1.toNat < lo ∨ hi < b1.toNat ∨ !isContinuation b2 then none
    else if len = 3 then
      some ((b0.toNat - 0xE0) * 0x1000 + (b1.toNat - 0x80) * 0x40 + (b2.toNat - 0x80))
    else
      match s with
      | b3 :: _ =>
        if 0xF4 < b0.toNat ∨ !isContinuation b3 then none
        else some ((b0.toNat - 0xF0) * 0x40000 + (b1.toNat - 0x80) * 0x1000 +
          (b2.toNat - 0x80) * 0x40 + (b3.toNat - 0x80))
      | [] => none
  | _, _ => none

/-- The length the lead byte announces. -/
def utf8Length (lead : UInt8) : Option Nat :=
  if lead < 0x80 then some 1
  else if lead >>> 5 = 0b110 then some 2
  else if lead >>> 4 = 0b1110 then some 3
  else if lead >>> 3 = 0b11110 then some 4
  else none

/-- Read one UTF-8 scalar value at `i`, with its length in bytes. -/
def nextUtf8Char (s : List UInt8) (i : Nat) : Except ParseError (Nat × Nat) :=
  match s.drop i with
  | [] => .error (.atOffset .utf8Truncated i)
  | lead :: rest =>
    match utf8Length lead with
    | none => .error (.atOffset .utf8Lead i)
    | some len =>
      if rest.length + 1 < len then .error (.atOffset .utf8Truncated i)
      else
        match utf8Scalar (lead :: rest) len with
        | some c => .ok (c, len)
        | none => .error (.atOffset .utf8Invalid i)

/-- The string loop: the units collected so far and the offset past the closing quote. -/
def stringLoop (s : List UInt8) :
    (fuel : Nat) → (i : Nat) → (units : List UInt16) → Except ParseError (List UInt16 × Nat)
  | 0, i, _ => .error (.atOffset .unterminatedString i)
  | fuel + 1, i, units =>
    match s[i]? with
    | none => .error (.atOffset .unterminatedString i)
    | some b =>
      if b = '"'.toUInt8 then .ok (units, i + 1)
      else if b = '\\'.toUInt8 then
        match s[i + 1]? with
        | none => .error (.atOffset .unterminatedEscape (i + 1))
        | some e =>
          if e = 'u'.toUInt8 then
            match parseHex4 s (i + 2) with
            | .ok (u, j) => stringLoop s fuel j (units ++ [u])
            | .error f => .error f
          else if shortEscape e < 0x80 then stringLoop s fuel (i + 2) (units ++ [shortEscape e])
          else .error (.atOffset .invalidEscape (i + 2))
      else if b < 0x20 then .error (.atOffset .rawControl i)
      else
        match nextUtf8Char s i with
        | .ok (c, len) => stringLoop s fuel (i + len) (pushUtf16 units c)
        | .error f => .error f

/-- A string: decoded, free of lone surrogates, and normalized. -/
def parseString (N : Normalizer) (s : List UInt8) (i : Nat) : Except ParseError (String × Nat) :=
  match expect s i '"'.toUInt8 with
  | .error e => .error e
  | .ok i =>
    match stringLoop s (s.length - i) i [] with
    | .error f => .error f
    | .ok (units, i) =>
      match decodeUtf16Strict units with
      | .ok t => .ok (nfc N t, i)
      | .error e => .error (.atOffset e i)

/-- A parser of one value at an offset. -/
abbrev ValueParser := Nat → Except ParseError (CanonValue × Nat)

/-- Read items until the array ends. -/
def arrayLoop (s : List UInt8) (parseItem : ValueParser) :
    (fuel : Nat) → (i : Nat) → List CanonValue → Except ParseError (CanonValue × Nat)
  | 0, i, _ => .error (.atOffset .unexpectedEnd (skipWs s i))
  | fuel + 1, i, items =>
    match parseItem (skipWs s i) with
    | .error e => .error e
    | .ok (v, j) =>
      let i := skipWs s j
      if byteAt s i ','.toUInt8 then arrayLoop s parseItem fuel (i + 1) (items ++ [v])
      else if byteAt s i ']'.toUInt8 then .ok (.arr (items ++ [v]), i + 1)
      else .error (.atOffset .arrayDelimiter i)

/-- An array; `inner` parses the values one level deeper and is absent at the limit. -/
def parseArray (s : List UInt8) (inner : Option ValueParser) (i : Nat) :
    Except ParseError (CanonValue × Nat) :=
  match expect s i '['.toUInt8 with
  | .error e => .error e
  | .ok i =>
    match inner with
    | none => .error (.atOffset .depthLimit i)
    | some parseItem =>
      let i := skipWs s i
      if byteAt s i ']'.toUInt8 then .ok (.arr [], i + 1)
      else arrayLoop s parseItem (s.length - i) i []

/-- What the member loop has read when it stops: the members, every key with the offset
of its opening quote (the last one may lack a value), the cursor, and a pending fault. -/
structure ObjectScan where
  members : List (String × CanonValue)
  keys : List (String × Nat)
  i : Nat
  fault : Option ParseError

/-- Read members until the object ends, and note where each key stands. -/
def objectLoop (N : Normalizer) (s : List UInt8) (parseItem : ValueParser) :
    (fuel : Nat) → (i : Nat) → List (String × CanonValue) → List (String × Nat) → ObjectScan
  | 0, i, members, keys =>
    ⟨members, keys, skipWs s i, some (.atOffset .expectedKey (skipWs s i))⟩
  | fuel + 1, i, members, keys =>
    let i := skipWs s i
    if !byteAt s i '"'.toUInt8 then ⟨members, keys, i, some (.atOffset .expectedKey i)⟩
    else
      match parseString N s i with
      | .error e => ⟨members, keys, i, some e⟩
      | .ok (key, j) =>
        let keys := keys ++ [(key, i)]
        match expect s (skipWs s j) ':'.toUInt8 with
        | .error e => ⟨members, keys, skipWs s j, some e⟩
        | .ok j =>
          match parseItem (skipWs s j) with
          | .error e => ⟨members, keys, skipWs s j, some e⟩
          | .ok (v, j) =>
            let members := members ++ [(key, v)]
            let i := skipWs s j
            if byteAt s i ','.toUInt8 then objectLoop N s parseItem fuel (i + 1) members keys
            else if byteAt s i '}'.toUInt8 then ⟨members, keys, i + 1, none⟩
            else ⟨members, keys, i, some (.atOffset .objectDelimiter i)⟩

/-- The end of an object: a repeated key comes before any fault the loop met. -/
def finishObject (scan : ObjectScan) : Except ParseError (CanonValue × Nat) :=
  let dup := firstRepeat (scan.keys.map fun k => widen (bytes k.1))
  match scan.keys[dup]? with
  | some (key, pos) => .error (.duplicateKey key pos)
  | none =>
    match scan.fault with
    | some e => .error e
    | none => .ok (.obj scan.members, scan.i)

/-- Read an object, whose keys must differ in normal form. -/
def parseObject (N : Normalizer) (s : List UInt8) (inner : Option ValueParser) (i : Nat) :
    Except ParseError (CanonValue × Nat) :=
  match expect s i '{'.toUInt8 with
  | .error e => .error e
  | .ok i =>
    match inner with
    | none => .error (.atOffset .depthLimit i)
    | some parseItem =>
      let i := skipWs s i
      if byteAt s i '}'.toUInt8 then .ok (.obj [], i + 1)
      else finishObject (objectLoop N s parseItem (s.length - i) i [] [])

/-- The dispatch of `parse_value` on the first byte. -/
def parseWith (N : Normalizer) (s : List UInt8) (inner : Option ValueParser) (i : Nat) :
    Except ParseError (CanonValue × Nat) :=
  match s[i]? with
  | none => .error (.atOffset .unexpectedEnd i)
  | some b =>
    if b = '{'.toUInt8 then parseObject N s inner i
    else if b = '['.toUInt8 then parseArray s inner i
    else if b = '"'.toUInt8 then
      match parseString N s i with
      | .ok (t, j) => .ok (.str t, j)
      | .error e => .error e
    else if b = 't'.toUInt8 then parseLiteral s i (bytes "true") .literalTrue (.bool true)
    else if b = 'f'.toUInt8 then parseLiteral s i (bytes "false") .literalFalse (.bool false)
    else if b = 'n'.toUInt8 then parseLiteral s i (bytes "null") .literalNull .null
    else if b = '-'.toUInt8 || isDigit b then
      match parseNumber s i with
      | .ok (n, j) => .ok (.int n, j)
      | .error e => .error e
    else .error (.atOffset .unexpectedChar i)

/-- The value starting at `i` and the offset just past it, with `room` levels left. -/
def parseValue (N : Normalizer) (s : List UInt8) : (room : Nat) → ValueParser
  | 0 => parseWith N s none
  | room + 1 => parseWith N s (some (parseValue N s room))

/-- Only whitespace may follow the top-level value. -/
def finishTopLevel (s : List UInt8) (i : Nat) : Except ParseError Unit :=
  if skipWs s i ≠ s.length then .error (.atOffset .trailingData (skipWs s i)) else .ok ()

/-- One value surrounded by whitespace. A number at byte zero goes straight to the number
parser, which `parseValue` would select as well. -/
def parseDocument (N : Normalizer) (s : List UInt8) : Except ParseError CanonValue :=
  if byteAt s 0 '-'.toUInt8 || digitAt s 0 then
    match parseNumber s 0 with
    | .error e => .error e
    | .ok (n, j) =>
      match finishTopLevel s j with
      | .error e => .error e
      | .ok () => .ok (.int n)
  else
    match parseValue N s maxDepth (skipWs s 0) with
    | .error e => .error e
    | .ok (v, j) =>
      match finishTopLevel s j with
      | .error e => .error e
      | .ok () => .ok v

/-- Parse a JSON text under the canonical profile. -/
def parse (N : Normalizer) (input : String) : Except ParseError CanonValue :=
  parseDocument N (bytes input)

end Averin
