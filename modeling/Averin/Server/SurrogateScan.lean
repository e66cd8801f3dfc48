import Averin.Canon.Units

/-!
# Scanning a text for unpaired surrogates

Before a request is decoded, its bytes are scanned for escapes of surrogates without a partner,
which the decoder would replace. The scan keeps only whether it stands inside a string. On every
text of the JSON grammar it refuses exactly those with a string whose code units hold an unpaired
surrogate.
-/

namespace Averin

/-- The error of a low surrogate by itself. -/
def unpairedLow : String := "unpaired low surrogate in JSON string"

/-- The error of a high surrogate by itself. -/
def unpairedHigh : String := "unpaired high surrogate in JSON string"

/-- The number spelled by hex digits. -/
def parseUint16 (b : List UInt8) : Option Nat :=
  b.foldlM (fun n c => if 15 < hexValue c then none else some (n * 16 + hexValue c)) 0

/-- The text goes on with the escape of a low surrogate. -/
def lowEscapeFollows : List UInt8 → Bool
  | b6 :: b7 :: c0 :: c1 :: c2 :: c3 :: _ =>
    b6 = '\\'.toUInt8 && b7 = 'u'.toUInt8 &&
      (parseUint16 [c0, c1, c2, c3]).any fun low => 0xDC00 ≤ low && low ≤ 0xDFFF
  | _ => false

/-- The loop of `rejectUnpairedSurrogates` over the bytes that are left. -/
def scanSurrogates (inString : Bool) (b : List UInt8) : Except String Unit :=
  match b with
  | [] => .ok ()
  | c :: rest =>
    if c = '"'.toUInt8 then scanSurrogates (!inString) rest
    else if c = '\\'.toUInt8 ∧ inString = true then
      match rest with
      | [] => .ok ()
      | e :: after =>
        -- an escaped quote or backslash neither opens nor closes a string
        if e ≠ 'u'.toUInt8 then scanSurrogates inString after
        else if after.length < 4 then scanSurrogates inString (e :: after)
        else
          match parseUint16 (after.take 4) with
          | none => scanSurrogates inString (e :: after)
          | some cp =>
            if 0xDC00 ≤ cp ∧ cp ≤ 0xDFFF then .error unpairedLow
            else if 0xD800 ≤ cp ∧ cp ≤ 0xDBFF then
              if lowEscapeFollows (after.drop 4) then scanSurrogates inString (after.drop 10)
              else .error unpairedHigh
            else scanSurrogates inString (after.drop 4)
    else scanSurrogates inString rest
termination_by b.length
decreasing_by all_goals simp only [List.length_cons, List.length_drop]; omega

/-- Scan a whole text. -/
def rejectUnpairedSurrogates (b : List UInt8) : Except String Unit := scanSurrogates false b

/-- A number: an integer part, and possibly a fraction and an exponent. -/
inductive JsonNumber : List UInt8 → Prop
  | mk {sign int frac exp : List UInt8} : sign ∈ [[], bytes "-"] → DigitsText int →
      (frac = [] ∨ ∃ ds, ds ≠ [] ∧ (∀ b ∈ ds, b ∈ digitBytes) ∧ frac = '.'.toUInt8 :: ds) →
      (exp = [] ∨ ∃ e ∈ bytes "eE", ∃ s ∈ [[], bytes "+", bytes "-"], ∃ ds, ds ≠ [] ∧
        (∀ b ∈ ds, b ∈ digitBytes) ∧ exp = e :: (s ++ ds)) →
      JsonNumber (sign ++ (int ++ (frac ++ exp)))

/-- An item with the space around it and the units of its strings. -/
structure JsonItem where
  before : List UInt8
  text : List UInt8
  after : List UInt8
  strings : List (List UInt16)

/-- An item with the space around it. -/
def JsonItem.bytes (p : JsonItem) : List UInt8 := p.before ++ (p.text ++ p.after)

/-- A member with the space around its parts, the body of its key, and the units of its key and of
the strings in its value. -/
structure JsonMember where
  before : List UInt8
  keyBody : List UInt8
  afterKey : List UInt8
  beforeValue : List UInt8
  text : List UInt8
  after : List UInt8
  key : List UInt16
  strings : List (List UInt16)

/-- A member with the space around its parts. -/
def JsonMember.bytes (m : JsonMember) : List UInt8 :=
  m.before ++ (('"'.toUInt8 :: m.keyBody ++ ['"'.toUInt8]) ++ (m.afterKey ++ (':'.toUInt8 ::
    (m.beforeValue ++ (m.text ++ m.after)))))

/-- Only space stands around the parts. -/
def JsonMember.Spaced (m : JsonMember) : Prop :=
  WsText m.before ∧ WsText m.afterKey ∧ WsText m.beforeValue ∧ WsText m.after

/-- `JsonText w strings`: the text `w` is one value, and `strings` are the code units that its
string literals denote, keys included, in the order they stand in. -/
inductive JsonText : List UInt8 → List (List UInt16) → Prop
  | literal {w : List UInt8} : w ∈ [bytes "null", bytes "true", bytes "false"] → JsonText w []
  | number {w : List UInt8} : JsonNumber w → JsonText w []
  | string {w : List UInt8} {u : List UInt16} : StringBody w u →
      JsonText ('"'.toUInt8 :: w ++ ['"'.toUInt8]) [u]
  | emptyArr {w : List UInt8} : WsText w → JsonText ('['.toUInt8 :: w ++ [']'.toUInt8]) []
  | arr {items : List JsonItem} : items ≠ [] →
      (∀ p ∈ items, WsText p.before ∧ WsText p.after) → (∀ p ∈ items, JsonText p.text p.strings) →
      JsonText
        ('['.toUInt8 :: [','.toUInt8].intercalate (items.map JsonItem.bytes) ++ [']'.toUInt8])
        (items.flatMap (·.strings))
  | emptyObj {w : List UInt8} : WsText w → JsonText ('{'.toUInt8 :: w ++ ['}'.toUInt8]) []
  | obj {members : List JsonMember} : members ≠ [] → (∀ m ∈ members, m.Spaced) →
      (∀ m ∈ members, StringBody m.keyBody m.key) → (∀ m ∈ members, JsonText m.text m.strings) →
      JsonText
        ('{'.toUInt8 :: [','.toUInt8].intercalate (members.map JsonMember.bytes) ++ ['}'.toUInt8])
        (members.flatMap fun m => m.key :: m.strings)

/-- A document: one value with space around it. -/
def JsonDocument (w : List UInt8) (strings : List (List UInt16)) : Prop :=
  ∃ before text after, WsText before ∧ WsText after ∧ w = before ++ (text ++ after) ∧
    JsonText text strings

/-- Bytes the scan does not look at. -/
def Plain (w : List UInt8) : Prop := ∀ b ∈ w, b ≠ '"'.toUInt8 ∧ b ≠ '\\'.toUInt8

/-- Plain text is passed over. -/
theorem scanSurrogates_plain {inString : Bool} {w : List UInt8} (h : Plain w) (rest : List UInt8) :
    scanSurrogates inString (w ++ rest) = scanSurrogates inString rest := by
  induction w with
  | nil => rfl
  | cons b w ih =>
    obtain ⟨⟨hquote, hslash⟩, hw⟩ := List.forall_mem_cons.mp h
    rw [List.cons_append, scanSurrogates.eq_def]
    dsimp only
    rw [if_neg hquote, if_neg (fun h => hslash h.1)]
    exact ih hw

theorem scanSurrogates_quote (inString : Bool) (rest : List UInt8) :
    scanSurrogates inString ('"'.toUInt8 :: rest) = scanSurrogates (!inString) rest := by
  rw [scanSurrogates.eq_def]
  exact if_pos rfl

/-- The bytes of an unescaped character are plain. -/
theorem plain_encodeChar {c : Char} (hquote : c ≠ '"') (hslash : c ≠ '\\') :
    Plain (String.utf8EncodeChar c) := by
  have hq : '"'.toUInt8.toNat = 0x22 := rfl
  have hs : '\\'.toUInt8.toNat = 0x5C := rfl
  have hq' : '"'.toNat = 0x22 := rfl
  have hs' : '\\'.toNat = 0x5C := rfl
  have hshape := utf8Shape_encode c
  simp only [ne_eq, ← Char.toNat_inj, hq', hs'] at hquote hslash
  intro b hb
  simp only [ne_eq, ← UInt8.toNat_inj, hq, hs]
  generalize String.utf8EncodeChar c = w at hshape hb
  cases hshape <;> simp only [List.mem_cons, List.not_mem_nil, or_false] at hb
  case one => subst hb; omega
  case two => rcases hb with rfl | rfl <;> omega
  case three => rcases hb with rfl | rfl | rfl <;> omega
  case four => rcases hb with rfl | rfl | rfl | rfl <;> omega

/-- A character pairs its own surrogates. -/
theorem unpairedSurrogate_char_iff {c : Char} {u : List UInt16} :
    UnpairedSurrogate (utf16Char c ++ u) ↔ UnpairedSurrogate u := by
  have hr := scalar_range c
  unfold utf16Char
  split_ifs with h
  · apply unpairedSurrogate_cons_iff
    · simp [isHighSurrogate]; omega
    · simp [isLowSurrogate]; omega
  · apply unpairedSurrogate_pair_iff
    · simp [isHighSurrogate]; omega
    · simp [isLowSurrogate]; omega

/-- Four hex digits are read as the unit they spell. -/
theorem parseUint16_eq {c0 c1 c2 c3 : UInt8} {d0 d1 d2 d3 : Nat} (h0 : (c0, d0) ∈ hexDigits)
    (h1 : (c1, d1) ∈ hexDigits) (h2 : (c2, d2) ∈ hexDigits) (h3 : (c3, d3) ∈ hexDigits) :
    parseUint16 [c0, c1, c2, c3] =
      some (UInt16.ofNat (d0 * 0x1000 + d1 * 0x100 + d2 * 0x10 + d3)).toNat := by
  obtain ⟨rfl, hd0⟩ := hexValue_iff.mp h0
  obtain ⟨rfl, hd1⟩ := hexValue_iff.mp h1
  obtain ⟨rfl, hd2⟩ := hexValue_iff.mp h2
  obtain ⟨rfl, hd3⟩ := hexValue_iff.mp h3
  simp only [parseUint16, List.foldlM_cons, List.foldlM_nil, if_neg hd0, if_neg hd1, if_neg hd2,
    if_neg hd3, Option.bind_eq_bind, Option.bind_some, Option.pure_def, Option.some.injEq,
    UInt16.toNat_ofNat']
  omega

/-- A short escape is passed over. -/
theorem scanSurrogates_escape {e : UInt8} (he : e ≠ 'u'.toUInt8) (after : List UInt8) :
    scanSurrogates true ('\\'.toUInt8 :: e :: after) = scanSurrogates true after := by
  rw [scanSurrogates.eq_def]
  dsimp only
  rw [if_neg (by decide), if_pos ⟨rfl, rfl⟩, if_pos he]

/-- What the scan does at the escape of a unit. -/
theorem scanSurrogates_unicode {c0 c1 c2 c3 : UInt8} {cp : Nat} (after : List UInt8)
    (h : parseUint16 [c0, c1, c2, c3] = some cp) :
    scanSurrogates true ('\\'.toUInt8 :: 'u'.toUInt8 :: c0 :: c1 :: c2 :: c3 :: after) =
      if 0xDC00 ≤ cp ∧ cp ≤ 0xDFFF then .error unpairedLow
      else if 0xD800 ≤ cp ∧ cp ≤ 0xDBFF then
        if lowEscapeFollows after then scanSurrogates true (after.drop 6)
        else .error unpairedHigh
      else scanSurrogates true after := by
  rw [scanSurrogates.eq_def]
  dsimp only
  rw [if_neg (by decide), if_pos ⟨rfl, rfl⟩, if_neg (not_not.mpr rfl), if_neg (by simp)]
  simp only [List.take_succ_cons, List.take_zero, h, List.drop_succ_cons, List.drop_zero]

theorem lowEscapeFollows_of_ne {b : UInt8} (hb : b ≠ '\\'.toUInt8) (rest : List UInt8) :
    lowEscapeFollows (b :: rest) = false := by
  unfold lowEscapeFollows
  split
  · next heq =>
    obtain ⟨rfl, -⟩ := List.cons.inj heq
    rw [decide_eq_false hb, Bool.false_and, Bool.false_and]
  · rfl

theorem lowEscapeFollows_of_ne_u {b e : UInt8} (he : e ≠ 'u'.toUInt8) (rest : List UInt8) :
    lowEscapeFollows (b :: e :: rest) = false := by
  unfold lowEscapeFollows
  split
  · next heq =>
    obtain ⟨-, htail⟩ := List.cons.inj heq
    obtain ⟨rfl, -⟩ := List.cons.inj htail
    rw [decide_eq_false he, Bool.and_false, Bool.false_and]
  · rfl

/-- An escape is low when its unit is. -/
theorem lowEscapeFollows_unicode {c0 c1 c2 c3 : UInt8} {x : UInt16} (rest : List UInt8)
    (h : parseUint16 [c0, c1, c2, c3] = some x.toNat) :
    lowEscapeFollows ('\\'.toUInt8 :: 'u'.toUInt8 :: c0 :: c1 :: c2 :: c3 :: rest) =
      isLowSurrogate x := by
  simp only [lowEscapeFollows, h, decide_true, Bool.true_and, Option.any_some, isLowSurrogate]

/-- The first unit of a character is no low surrogate. -/
theorem not_isLowSurrogate_char (c : Char) (u : List UInt16) :
    ¬ (utf16Char c ++ u)[0]?.any isLowSurrogate = true := by
  have hr := scalar_range c
  unfold utf16Char
  split_ifs with h
  · have hunit : (UInt16.ofNat c.toNat).toNat = c.toNat := UInt16.toNat_ofNat_of_lt' h
    rw [List.cons_append, List.getElem?_cons_zero, Option.any_some, isLowSurrogate_iff, hunit]
    omega
  · have hunit : (UInt16.ofNat (0xD800 + (c.toNat - 0x10000) / 0x400)).toNat =
        0xD800 + (c.toNat - 0x10000) / 0x400 := by
      rw [UInt16.toNat_ofNat']
      omega
    rw [List.cons_append, List.getElem?_cons_zero, Option.any_some, isLowSurrogate_iff, hunit]
    omega

/-- An ASCII unit is no surrogate. -/
theorem isLowSurrogate_of_lt {x : UInt16} (h : x < 0x80) :
    isHighSurrogate x = false ∧ isLowSurrogate x = false := by
  have hsmall : x.toNat < 0x80 := UInt16.lt_iff_toNat_lt.mp h
  simp only [isHighSurrogate, isLowSurrogate, Bool.and_eq_false_iff, decide_eq_false_iff_not]
  omega

/-- The escape that follows is that of a low surrogate if one stands there, and what follows is a
body that does not start with a low surrogate otherwise. -/
theorem lowEscapeFollows_cases {w : List UInt8} (rest : List UInt8) {u : List UInt16}
    (hw : StringBody w u) :
    (lowEscapeFollows (w ++ '"'.toUInt8 :: rest) = true ∧
      ∃ lo w' u', isLowSurrogate lo = true ∧ u = lo :: u' ∧ StringBody w' u' ∧
        w.length = w'.length + 6 ∧ (w ++ '"'.toUInt8 :: rest).drop 6 = w' ++ '"'.toUInt8 :: rest) ∨
    (lowEscapeFollows (w ++ '"'.toUInt8 :: rest) = false ∧
      ¬ u[0]?.any isLowSurrogate = true) := by
  cases hw with
  | nil => exact Or.inr ⟨lowEscapeFollows_of_ne (by decide) _, by simp⟩
  | @raw c w u hc hquote hslash hw =>
    refine Or.inr ⟨?_, not_isLowSurrogate_char c u⟩
    obtain ⟨lead, tail, hlead, -⟩ := exists_lead c
    have hplain := plain_encodeChar hquote hslash
    rw [hlead] at hplain ⊢
    exact lowEscapeFollows_of_ne (hplain lead List.mem_cons_self).2 _
  | @escape e x w u he hw =>
    obtain ⟨rfl, hlt⟩ := shortEscape_iff.mp he
    have hne : e ≠ 'u'.toUInt8 := by
      rintro rfl
      exact shortEscape_u hlt
    refine Or.inr ⟨lowEscapeFollows_of_ne_u hne _, ?_⟩
    rw [List.getElem?_cons_zero, Option.any_some, (isLowSurrogate_of_lt hlt).2]
    exact Bool.false_ne_true
  | @unicode c0 c1 c2 c3 d0 d1 d2 d3 w u h0 h1 h2 h3 hw =>
    have hparse := parseUint16_eq h0 h1 h2 h3
    generalize UInt16.ofNat (d0 * 0x1000 + d1 * 0x100 + d2 * 0x10 + d3) = x at hparse ⊢
    have hfollows := lowEscapeFollows_unicode (w ++ '"'.toUInt8 :: rest) hparse
    simp only [List.cons_append, hfollows, List.length_cons, List.drop_succ_cons, List.drop_zero,
      List.getElem?_cons_zero, Option.any_some]
    cases hlow : isLowSurrogate x with
    | true => exact Or.inl ⟨rfl, x, w, u, hlow, rfl, hw, rfl, rfl⟩
    | false => exact Or.inr ⟨rfl, Bool.false_ne_true⟩

/-- Over the body of a string the scan gets through exactly if no surrogate is unpaired. -/
theorem scanSurrogates_body (n : Nat) {w rest : List UInt8} {u : List UInt16}
    (hw : StringBody w u) (hn : w.length ≤ n) :
    scanSurrogates true (w ++ '"'.toUInt8 :: rest) = .ok () ↔
      ¬ UnpairedSurrogate u ∧ scanSurrogates false rest = .ok () := by
  induction n using Nat.strong_induction_on generalizing w u with
  | _ n ih =>
    have hnext : ∀ {w' u'}, StringBody w' u' → w'.length < w.length →
        (scanSurrogates true (w' ++ '"'.toUInt8 :: rest) = .ok () ↔
          ¬ UnpairedSurrogate u' ∧ scanSurrogates false rest = .ok ()) :=
      fun hw' hlt => ih _ (hlt.trans_le hn) hw' le_rfl
    cases hw with
    | nil =>
      rw [List.nil_append, scanSurrogates_quote]
      exact ⟨fun h => ⟨not_unpairedSurrogate_nil, h⟩, fun h => h.2⟩
    | @raw c w u hc hquote hslash hw =>
      obtain ⟨lead, tail, hlead, -⟩ := exists_lead c
      rw [List.append_assoc, scanSurrogates_plain (plain_encodeChar hquote hslash),
        unpairedSurrogate_char_iff]
      exact hnext hw (by rw [hlead]; simp)
    | @escape e x w u he hw =>
      obtain ⟨rfl, hlt⟩ := shortEscape_iff.mp he
      have hne : e ≠ 'u'.toUInt8 := by
        rintro rfl
        exact shortEscape_u hlt
      obtain ⟨hhigh, hlow⟩ := isLowSurrogate_of_lt hlt
      rw [List.cons_append, List.cons_append, scanSurrogates_escape hne,
        unpairedSurrogate_cons_iff hhigh hlow]
      exact hnext hw (by simp)
    | @unicode c0 c1 c2 c3 d0 d1 d2 d3 w u h0 h1 h2 h3 hw =>
      have hparse := parseUint16_eq h0 h1 h2 h3
      generalize UInt16.ofNat (d0 * 0x1000 + d1 * 0x100 + d2 * 0x10 + d3) = x at hparse ⊢
      simp only [List.cons_append]
      rw [scanSurrogates_unicode _ hparse]
      split_ifs with hlow hhigh hfollows
      · refine iff_of_false (by simp) fun h =>
          h.1 ⟨0, x, rfl, Or.inr ⟨isLowSurrogate_iff.mpr hlow, ?_⟩⟩
        rintro ⟨j, hi, hj, -⟩
        omega
      · -- a pair: the scan goes on after both escapes
        obtain ⟨-, lo, w', u', hlo, rfl, hw', hlen, hdrop⟩ :=
          (lowEscapeFollows_cases rest hw).resolve_right
            fun h => Bool.false_ne_true (h.1.symm.trans hfollows)
        rw [hdrop, unpairedSurrogate_pair_iff (isHighSurrogate_iff.mpr hhigh) hlo]
        exact hnext hw' (by simp only [List.length_cons]; omega)
      · obtain ⟨-, hno⟩ := (lowEscapeFollows_cases rest hw).resolve_left
          fun h => hfollows h.1
        refine iff_of_false (by simp) fun h =>
          h.1 ⟨0, x, rfl, Or.inl ⟨isHighSurrogate_iff.mpr hhigh, ?_⟩⟩
        simpa using hno
      · rw [unpairedSurrogate_cons_iff]
        · exact hnext hw (by simp only [List.length_cons]; omega)
        · rwa [Bool.eq_false_iff, ne_eq, isHighSurrogate_iff]
        · rwa [Bool.eq_false_iff, ne_eq, isLowSurrogate_iff]

/-- The scan gets over a text, outside of strings, exactly if no surrogate of the strings in it is
unpaired, whatever follows it. -/
def Scans (w : List UInt8) (strings : List (List UInt16)) : Prop :=
  ∀ rest, scanSurrogates false (w ++ rest) = .ok () ↔
    (∀ u ∈ strings, ¬ UnpairedSurrogate u) ∧ scanSurrogates false rest = .ok ()

/-- Two texts are scanned one after the other. -/
theorem Scans.append {w w' : List UInt8} {us us' : List (List UInt16)} (h : Scans w us)
    (h' : Scans w' us') : Scans (w ++ w') (us ++ us') := by
  intro rest
  rw [List.append_assoc, h, h', List.forall_mem_append, and_assoc]

theorem Scans.of_plain {w : List UInt8} (h : Plain w) : Scans w [] := by
  intro rest
  rw [scanSurrogates_plain h]
  simp

/-- A string has its units. -/
theorem Scans.string {w : List UInt8} {u : List UInt16} (h : StringBody w u) :
    Scans ('"'.toUInt8 :: w ++ ['"'.toUInt8]) [u] := by
  intro rest
  rw [List.cons_append, List.cons_append, scanSurrogates_quote, List.append_assoc,
    List.singleton_append, Bool.not_false, scanSurrogates_body w.length h le_rfl,
    List.forall_mem_singleton]

/-- Parts between commas. -/
theorem Scans.intercalate {α : Type} {text : α → List UInt8} {strings : α → List (List UInt16)}
    {parts : List α} (h : ∀ p ∈ parts, Scans (text p) (strings p)) :
    Scans ([','.toUInt8].intercalate (parts.map text)) (parts.flatMap strings) := by
  have hcomma : Scans [','.toUInt8] [] := Scans.of_plain (forall_mem_of_all (by decide))
  induction parts with
  | nil =>
    intro rest
    simp
  | cons p parts ih =>
    obtain ⟨hp, hparts⟩ := List.forall_mem_cons.mp h
    cases parts with
    | nil => simpa using hp
    | cons q parts =>
      have hrest := hp.append (hcomma.append (ih hparts))
      rw [List.map_cons, List.map_cons, List.intercalate_cons_cons, List.append_assoc,
        List.flatMap_cons]
      simpa only [List.nil_append, List.map_cons] using hrest

/-- A text between two brackets. -/
theorem Scans.bracket {l r : UInt8} {w : List UInt8} {us : List (List UInt16)}
    (hl : Plain [l]) (hr : Plain [r]) (h : Scans w us) : Scans (l :: w ++ [r]) us := by
  have hall := ((Scans.of_plain hl).append h).append (Scans.of_plain hr)
  simpa only [List.nil_append, List.append_nil, List.singleton_append] using hall

theorem plain_ws {w : List UInt8} (h : WsText w) : Plain w := by
  have hall : ∀ b ∈ bytes " \t\n\r", b ≠ '"'.toUInt8 ∧ b ≠ '\\'.toUInt8 :=
    forall_mem_of_all (by decide)
  exact fun b hb => hall b (h b hb)

theorem plain_digits {w : List UInt8} (h : ∀ b ∈ w, b ∈ digitBytes) : Plain w := by
  have hall : ∀ b ∈ digitBytes, b ≠ '"'.toUInt8 ∧ b ≠ '\\'.toUInt8 := forall_mem_of_all (by decide)
  exact fun b hb => hall b (h b hb)

theorem Plain.append {w w' : List UInt8} (h : Plain w) (h' : Plain w') : Plain (w ++ w') :=
  List.forall_mem_append.mpr ⟨h, h'⟩

theorem Plain.cons {b : UInt8} {w : List UInt8} (hb : b ≠ '"'.toUInt8 ∧ b ≠ '\\'.toUInt8)
    (h : Plain w) : Plain (b :: w) :=
  List.forall_mem_cons.mpr ⟨hb, h⟩

theorem plain_number {w : List UInt8} (h : JsonNumber w) : Plain w := by
  obtain ⟨hsign, hint, hfrac, hexp⟩ := h
  have hsigns : ∀ s ∈ [[], bytes "+", bytes "-"], Plain s := by
    intro s hs
    rcases List.mem_cons.mp hs with rfl | hs
    · exact fun b hb => absurd hb List.not_mem_nil
    rcases List.mem_cons.mp hs with rfl | hs
    · exact forall_mem_of_all (by decide)
    · obtain rfl := List.mem_singleton.mp hs
      exact forall_mem_of_all (by decide)
  have hexps : ∀ e ∈ bytes "eE", e ≠ '"'.toUInt8 ∧ e ≠ '\\'.toUInt8 :=
    forall_mem_of_all (by decide)
  refine (hsigns _ ?_).append ((plain_digits hint.mem_digits).append (Plain.append ?_ ?_))
  · rcases List.mem_cons.mp hsign with rfl | hsign
    · exact List.mem_cons_self
    · obtain rfl := List.mem_singleton.mp hsign
      simp
  · rcases hfrac with rfl | ⟨ds, -, hds, rfl⟩
    · exact fun b hb => absurd hb List.not_mem_nil
    · exact (plain_digits hds).cons (by decide)
  · rcases hexp with rfl | ⟨e, he, s, hs, ds, -, hds, rfl⟩
    · exact fun b hb => absurd hb List.not_mem_nil
    · exact ((hsigns s hs).append (plain_digits hds)).cons (hexps e he)

/-- The scan over one value of the grammar. -/
theorem JsonText.scans {w : List UInt8} {strings : List (List UInt16)} (h : JsonText w strings) :
    Scans w strings := by
  have hopen : Plain ['['.toUInt8] := forall_mem_of_all (by decide)
  have hclose : Plain [']'.toUInt8] := forall_mem_of_all (by decide)
  have hopen' : Plain ['{'.toUInt8] := forall_mem_of_all (by decide)
  have hclose' : Plain ['}'.toUInt8] := forall_mem_of_all (by decide)
  have hcolon : Plain [':'.toUInt8] := forall_mem_of_all (by decide)
  induction h with
  | literal hw =>
    have hall : ∀ w ∈ [bytes "null", bytes "true", bytes "false"],
        w.all (fun b => decide (b ≠ '"'.toUInt8 ∧ b ≠ '\\'.toUInt8)) = true := by decide
    exact Scans.of_plain (forall_mem_of_all (hall _ hw))
  | number hw => exact Scans.of_plain (plain_number hw)
  | string hw => exact Scans.string hw
  | emptyArr hw => exact (Scans.of_plain (plain_ws hw)).bracket hopen hclose
  | @arr items _ hws _ ih =>
    refine (Scans.intercalate fun p hp => ?_).bracket hopen hclose
    obtain ⟨hbefore, hafter⟩ := hws p hp
    have hpart := (Scans.of_plain (plain_ws hbefore)).append
      ((ih p hp).append (Scans.of_plain (plain_ws hafter)))
    show Scans (p.before ++ (p.text ++ p.after)) p.strings
    simpa only [List.nil_append, List.append_nil] using hpart
  | emptyObj hw => exact (Scans.of_plain (plain_ws hw)).bracket hopen' hclose'
  | @obj members _ hws hkeys _ ih =>
    refine (Scans.intercalate fun m hm => ?_).bracket hopen' hclose'
    obtain ⟨hbefore, hafterKey, hbeforeValue, hafter⟩ := hws m hm
    have hpart := (Scans.of_plain (plain_ws hbefore)).append ((Scans.string (hkeys m hm)).append
      ((Scans.of_plain (plain_ws hafterKey)).append ((Scans.of_plain hcolon).append
        ((Scans.of_plain (plain_ws hbeforeValue)).append
          ((ih m hm).append (Scans.of_plain (plain_ws hafter)))))))
    show Scans (m.before ++ (('"'.toUInt8 :: m.keyBody ++ ['"'.toUInt8]) ++ (m.afterKey ++
      (':'.toUInt8 :: (m.beforeValue ++ (m.text ++ m.after)))))) (m.key :: m.strings)
    simpa only [List.nil_append, List.append_nil, List.singleton_append] using hpart

/-- On every text of the JSON grammar the scan gets through exactly if none of its strings denotes
an unpaired surrogate, which is if the strict decoder of the core accepts all of them. -/
theorem rejectUnpairedSurrogates_iff {w : List UInt8} {strings : List (List UInt16)}
    (h : JsonDocument w strings) :
    (rejectUnpairedSurrogates w = .ok () ↔ ∀ u ∈ strings, ¬ UnpairedSurrogate u) ∧
      (rejectUnpairedSurrogates w = .ok () ↔
        ∀ u ∈ strings, ∃ t, decodeUtf16Strict u = .ok t) := by
  obtain ⟨before, text, after, hbefore, hafter, rfl, htext⟩ := h
  have hdocument := (Scans.of_plain (plain_ws hbefore)).append
    (htext.scans.append (Scans.of_plain (plain_ws hafter)))
  have hscan := hdocument []
  rw [List.append_nil, List.nil_append, List.append_nil] at hscan
  have hnil : scanSurrogates false [] = .ok () := by rw [scanSurrogates.eq_def]
  have hiff : rejectUnpairedSurrogates (before ++ (text ++ after)) = .ok () ↔
      ∀ u ∈ strings, ¬ UnpairedSurrogate u :=
    hscan.trans (and_iff_left hnil)
  exact ⟨hiff, hiff.trans (forall₂_congr fun u _ => decodeUtf16Strict_isOk_iff.symm)⟩

/-- A character spelled by the escapes of a pair gets through. -/
theorem rejectUnpairedSurrogates_pair :
    rejectUnpairedSurrogates (bytes "\"\\ud83d\\ude00\"") = .ok () := by
  have hbody : StringBody (bytes "\\ud83d\\ude00") [0xD83D, 0xDE00] :=
    @StringBody.unicode 'd'.toUInt8 '8'.toUInt8 '3'.toUInt8 'd'.toUInt8 13 8 3 13 _ _ (by decide)
      (by decide) (by decide) (by decide)
      (@StringBody.unicode 'd'.toUInt8 'e'.toUInt8 '0'.toUInt8 '0'.toUInt8 13 14 0 0 _ _ (by decide)
        (by decide) (by decide) (by decide) .nil)
  have hws : WsText [] := fun b hb => absurd hb List.not_mem_nil
  have hdocument : JsonDocument (bytes "\"\\ud83d\\ude00\"") [[0xD83D, 0xDE00]] :=
    ⟨[], _, [], hws, hws, (List.append_nil _).symm, .string hbody⟩
  refine (rejectUnpairedSurrogates_iff hdocument).1.mpr ?_
  rw [List.forall_mem_singleton, unpairedSurrogate_pair_iff (by decide) (by decide)]
  exact not_unpairedSurrogate_nil

end Averin
