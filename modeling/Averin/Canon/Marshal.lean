import Averin.Core.Decimal
import Averin.Canon.RoundTrip
import Mathlib.Data.List.Sort

/-!
# JSON as the server writes it

`json.Marshal` of a value without floats: the members of an object in the order of their keys, and
in strings the characters escaped that a page or a script would read. What it writes is a word of
the grammar unless two keys of an object have one normal form.
-/

namespace Averin

variable {N : Normalizer} {w : List UInt8} {room : Nat} {v : CanonValue}

/-- One character of a string literal. -/
def marshalChar (c : Char) : List Char :=
  if c = '"' then ['\\', '"']
  else if c = '\\' then ['\\', '\\']
  else if c.toNat = 0x08 then ['\\', 'b']
  else if c.toNat = 0x09 then ['\\', 't']
  else if c.toNat = 0x0A then ['\\', 'n']
  else if c.toNat = 0x0C then ['\\', 'f']
  else if c.toNat = 0x0D then ['\\', 'r']
  else if c.toNat < 0x20 ∨ c = '<' ∨ c = '>' ∨ c = '&' then
    ['\\', 'u', '0', '0', Nat.digitChar (c.toNat / 16), Nat.digitChar (c.toNat % 16)]
  -- line and paragraph separators end a line for a script
  else if c.toNat = 0x2028 ∨ c.toNat = 0x2029 then
    ['\\', 'u', '2', '0', '2', Nat.digitChar (c.toNat % 16)]
  else [c]

/-- A string as the library writes it. -/
def marshalString (s : String) : List Char := '"' :: s.toList.flatMap marshalChar ++ ['"']

/-- One member, whose value is written already. -/
def marshalMember (m : String × List Char) : List Char := marshalString m.1 ++ ':' :: m.2

/-- The order of the keys' bytes, which is the order of their characters. -/
abbrev KeyLe {α : Type} (m m' : String × α) : Prop := m.1.toList ≤ m'.1.toList

mutual
/-- `json.Marshal` of a value. The members of an object are those of a map. -/
def marshal : CanonValue → List Char
  | .null => ['n', 'u', 'l', 'l']
  | .bool b => if b then ['t', 'r', 'u', 'e'] else ['f', 'a', 'l', 's', 'e']
  | .int n => (Int.repr n.toInt).toList
  | .str s => marshalString s
  | .arr items => '[' :: [','].intercalate (marshalItems items) ++ [']']
  | .obj members =>
    '{' :: [','].intercalate (((marshalValues members).insertionSort KeyLe).map marshalMember) ++
      ['}']
termination_by structural v => v

/-- The items of an array as they are written. -/
def marshalItems : List CanonValue → List (List Char)
  | [] => []
  | v :: items => marshal v :: marshalItems items
termination_by structural items => items

/-- The members of an object with their values as they are written. -/
def marshalValues : List (String × CanonValue) → List (String × List Char)
  | [] => []
  | m :: members => marshalValue m :: marshalValues members
termination_by structural members => members

/-- A member with its value as it is written. -/
def marshalValue : String × CanonValue → String × List Char
  | (k, v) => (k, marshal v)
termination_by structural m => m
end

/-- Each item is written on its own. -/
theorem marshalItems_eq_map (items : List CanonValue) :
    marshalItems items = items.map marshal := by
  induction items with
  | nil => rfl
  | cons v items ih => rw [marshalItems, ih, List.map_cons]

/-- Each value is written on its own. -/
theorem marshalValues_eq_map (members : List (String × CanonValue)) :
    marshalValues members = members.map fun m => (m.1, marshal m.2) := by
  induction members with
  | nil => rfl
  | cons m members ih => rw [marshalValues, ih, marshalValue, List.map_cons]

/-- The members are sorted before their values are written. -/
theorem sort_marshalValues (members : List (String × CanonValue)) :
    (marshalValues members).insertionSort KeyLe =
      (members.insertionSort KeyLe).map fun m => (m.1, marshal m.2) := by
  rw [marshalValues_eq_map]
  exact (List.map_insertionSort KeyLe KeyLe (fun m : String × CanonValue => (m.1, marshal m.2))
    members fun _ _ _ _ => Iff.rfl).symm

/-- A digit below ten is written as its digit byte. -/
theorem utf8_digitChar (r : Nat) (h : r < 10) :
    utf8 [Nat.digitChar r] = ['0'.toUInt8 + .ofNat r] := by
  revert r
  decide

/-- The digits of a positive number start with another digit than zero. -/
theorem toDigits_text (m : Nat) (h : 0 < m) :
    ∃ d ds, utf8 (Nat.toDigits 10 m) = d :: ds ∧ d ∈ digitBytes ∧ d ≠ '0'.toUInt8 ∧
      (∀ b ∈ ds, b ∈ digitBytes) ∧ decimalValue (d :: ds) = m := by
  induction m using Nat.strong_induction_on with
  | _ m ih =>
    obtain ⟨hmem, hval, hne⟩ := digitByte (m % 10) (Nat.mod_lt _ (by omega))
    by_cases hlt : m < 10
    · rw [Nat.mod_eq_of_lt hlt] at hmem hval hne
      refine ⟨'0'.toUInt8 + .ofNat m, [], ?_, hmem, hne (by omega), by simp, ?_⟩
      · rw [Nat.toDigits_of_lt_base hlt, utf8_digitChar m hlt]
      · rw [← List.nil_append [_], decimalValue_append, hval]
        have hzero : decimalValue [] = 0 := rfl
        omega
    · obtain ⟨d, ds, hds, hd, hd0, hrest, hvalue⟩ := ih (m / 10) (by omega) (by omega)
      refine ⟨d, ds ++ ['0'.toUInt8 + .ofNat (m % 10)], ?_, hd, hd0, ?_, ?_⟩
      · rw [Nat.toDigits_of_base_le (by decide) (by omega), utf8_append, hds,
          utf8_digitChar _ (Nat.mod_lt _ (by omega)), List.cons_append]
      · exact List.forall_mem_append.mpr ⟨hrest, by simpa using hmem⟩
      · rw [← List.cons_append, decimalValue_append, hvalue, hval]
        omega

/-- The decimal text of an integer is a number of the grammar. -/
theorem repr_text (n : Int64) : IntText (utf8 (Int.repr n.toInt).toList) n := by
  rcases hn : n.toInt with m | m
  · rw [show Int.repr (.ofNat m) = Nat.repr m from rfl, repr_toList]
    rcases Nat.eq_zero_or_pos m with rfl | hpos
    · exact .nonneg .zero hn
    · obtain ⟨d, ds, hds, hd, hd0, hrest, hvalue⟩ := toDigits_text m hpos
      rw [hds]
      refine .nonneg (.nonzero hd hd0 hrest) ?_
      rw [hn, hvalue]
      rfl
  · rw [repr_negSucc_toList, utf8_cons]
    obtain ⟨d, ds, hds, hd, hd0, hrest, hvalue⟩ := toDigits_text (m + 1) (by omega)
    rw [hds]
    have hne : d :: ds ≠ ['0'.toUInt8] := fun h => hd0 (List.cons.inj h).1
    apply IntText.neg (.nonzero hd hd0 hrest) hne
    rw [hn, hvalue]
    rfl

/-- The three ways one ASCII character is written. -/
theorem marshalChar_ascii (n : Nat) (h : n < 128) :
    (utf8 (marshalChar (.ofNat n)) = [.ofNat n] ∧ 0x20 ≤ n ∧ n ≠ 0x22 ∧ n ≠ 0x5C) ∨
    (∃ p ∈ shortEscapes, utf8 (marshalChar (.ofNat n)) = ['\\'.toUInt8, p.1] ∧
      p.2 = .ofNat n) ∨
    (∃ p ∈ hexDigits, ∃ q ∈ hexDigits, utf8 (marshalChar (.ofNat n)) =
      ['\\'.toUInt8, 'u'.toUInt8, '0'.toUInt8, '0'.toUInt8, p.1, q.1] ∧
      p.2 * 0x10 + q.2 = n) := by
  have hall : ∀ n < 128,
      ((utf8 (marshalChar (.ofNat n)) = [.ofNat n] ∧ 0x20 ≤ n ∧ n ≠ 0x22 ∧ n ≠ 0x5C) ∨
      (shortEscapes.any fun p => utf8 (marshalChar (.ofNat n)) = ['\\'.toUInt8, p.1] ∧
        p.2 = .ofNat n) = true ∨
      (hexDigits.any fun p => hexDigits.any fun q => utf8 (marshalChar (.ofNat n)) =
        ['\\'.toUInt8, 'u'.toUInt8, '0'.toUInt8, '0'.toUInt8, p.1, q.1] ∧
        p.2 * 0x10 + q.2 = n) = true) := by decide +kernel
  simpa only [List.any_eq_true, decide_eq_true_eq] using hall n h

/-- The two line separators are written by their numbers. -/
theorem utf8_marshalChar_separator {c : Char} (h : c.toNat = 0x2028 ∨ c.toNat = 0x2029) :
    ∃ d, (d = 8 ∨ d = 9) ∧ c.toNat = 0x2020 + d ∧ ∃ b, (b, d) ∈ hexDigits ∧
      utf8 (marshalChar c) =
        ['\\'.toUInt8, 'u'.toUInt8, '2'.toUInt8, '0'.toUInt8, '2'.toUInt8, b] := by
  rcases h with h | h
  · obtain rfl : c = '\u2028' := Char.toNat_inj.mp h
    exact ⟨8, Or.inl rfl, rfl, '8'.toUInt8, by decide, by decide⟩
  · obtain rfl : c = '\u2029' := Char.toNat_inj.mp h
    exact ⟨9, Or.inr rfl, rfl, '9'.toUInt8, by decide, by decide⟩

/-- One written character in front of a string body. -/
theorem stringBody_marshalChar {u : List UInt16} (c : Char) (h : StringBody w u) :
    StringBody (utf8 (marshalChar c) ++ w) (utf16Char c ++ u) := by
  have h0 : ('0'.toUInt8, 0) ∈ hexDigits := by decide
  have h2 : ('2'.toUInt8, 2) ∈ hexDigits := by decide
  by_cases hascii : c.toNat < 0x80
  · have hu : utf16Char c = [.ofNat c.toNat] := by rw [utf16Char, if_pos (by omega)]
    have hc : Char.ofNat c.toNat = c := Char.ofNat_toNat c
    rcases marshalChar_ascii c.toNat hascii with ⟨hb, hlow, hquote, hslash⟩ | ⟨p, hp, hb, hx⟩ |
      ⟨p, hp, q, hq, hb, hx⟩
    · rw [hc] at hb
      have he : String.utf8EncodeChar c = [.ofNat c.toNat] := by
        rcases utf8EncodeChar_ascii_or c with ⟨-, he⟩ | ⟨hc, -⟩
        · exact he
        · omega
      rw [hb, ← he]
      exact .raw hlow (by rintro rfl; exact hquote rfl) (by rintro rfl; exact hslash rfl) h
    · rw [hc] at hb
      rw [hb, hu, ← hx]
      exact .escape hp h
    · rw [hc] at hb
      have hn : c.toNat = 0 * 0x1000 + 0 * 0x100 + p.2 * 0x10 + q.2 := by omega
      rw [hb, hu, hn]
      exact .unicode h0 h0 hp hq h
  · have hne : ∀ d : Char, d.toNat < 0x80 → c ≠ d := by
      rintro d hd rfl
      exact hascii hd
    by_cases hline : c.toNat = 0x2028 ∨ c.toNat = 0x2029
    · obtain ⟨d, -, hd, b, hb, hw⟩ := utf8_marshalChar_separator hline
      have hu : utf16Char c = [.ofNat c.toNat] := by rw [utf16Char, if_pos (by omega)]
      have hn : c.toNat = 2 * 0x1000 + 0 * 0x100 + 2 * 0x10 + d := by omega
      rw [hw, hu, hn]
      exact .unicode h2 h0 h2 hb h
    · have hw : marshalChar c = [c] := by
        unfold marshalChar
        rw [if_neg (hne _ (by decide)), if_neg (hne _ (by decide)), if_neg (by omega),
          if_neg (by omega), if_neg (by omega), if_neg (by omega), if_neg (by omega), if_neg,
          if_neg hline]
        rintro (hlow | hlt | hgt | hamp)
        · omega
        · exact hne _ (by decide) hlt
        · exact hne _ (by decide) hgt
        · exact hne _ (by decide) hamp
      rw [hw, utf8_cons, utf8_nil, List.append_nil]
      exact .raw (by omega) (hne _ (by decide)) (hne _ (by decide)) h

/-- Writing between two ASCII brackets. -/
theorem utf8_bracket (l r : Char) (cs : List Char) :
    utf8 (l :: cs ++ [r]) = utf8 [l] ++ (utf8 cs ++ utf8 [r]) := by
  rw [← List.singleton_append, List.append_assoc, utf8_append, utf8_append]

/-- A written string is a string literal for the same text. -/
theorem marshalString_text (s : String) : StringText (utf8 (marshalString s)) s := by
  have hquote : utf8 ['"'] = ['"'.toUInt8] := by decide
  rw [marshalString, utf8_bracket, hquote]
  refine .mk ?_
  induction s.toList with
  | nil => exact .nil
  | cons c cs ih =>
    rw [List.flatMap_cons, utf8_append, utf16_cons]
    exact stringBody_marshalChar c ih

/-- A list is encoded part by part. -/
theorem utf8_intercalate (ls : List (List Char)) :
    utf8 ([','].intercalate ls) = [','.toUInt8].intercalate (ls.map utf8) := by
  have hcomma : utf8 [','] = [','.toUInt8] := by decide
  induction ls with
  | nil => rfl
  | cons l ls ih =>
    by_cases hne : ls = []
    · subst hne
      simp [List.intercalate_singleton]
    · rw [List.map_cons, intercalate_cons _ _ hne, intercalate_cons _ _ (by simpa using hne),
        utf8_append, utf8_append, hcomma, ih]

/-- What is written of a value is a word of the grammar at the value's own depth. -/
theorem marshal_text (hu : DistinctNfcKeys N v) (hd : v.depth ≤ room) :
    ∃ c, ValueText N room (utf8 (marshal v)) c := by
  induction v generalizing room with
  | null => exact ⟨_, .null⟩
  | bool b =>
    cases b with
    | false => exact ⟨_, .false⟩
    | true => exact ⟨_, .true⟩
  | int n => exact ⟨_, .int (repr_text n)⟩
  | str s => exact ⟨_, .str (marshalString_text s)⟩
  | arr items ih =>
    obtain ⟨room, rfl⟩ := Nat.exists_eq_succ_of_ne_zero (n := room) (by
      rw [CanonValue.depth] at hd; omega)
    have hi : CanonValue.depthItems items ≤ room := Nat.le_of_succ_le_succ hd
    obtain _ | _ | _ | _ | hitems | _ := hu
    have htexts : ∀ v ∈ items, ∃ c, ValueText N room (utf8 (marshal v)) c := fun v hv =>
      ih v hv (hitems v hv) ((CanonValue.depth_le_depthItems hv).trans hi)
    choose! value hvalue using htexts
    have h := valueText_items hvalue
    refine ⟨.arr (items.map value), ?_⟩
    have hopen : utf8 ['['] = ['['.toUInt8] := by decide
    have hclose : utf8 [']'] = [']'.toUInt8] := by decide
    rw [marshal, marshalItems_eq_map, utf8_bracket, utf8_intercalate, hopen, hclose, List.map_map]
    exact h
  | obj members ih =>
    obtain ⟨room, rfl⟩ := Nat.exists_eq_succ_of_ne_zero (n := room) (by
      rw [CanonValue.depth] at hd; omega)
    have hi : CanonValue.depthMembers members ≤ room := Nat.le_of_succ_le_succ hd
    obtain _ | _ | _ | _ | _ | ⟨hn, hmembers⟩ := hu
    have hperm := List.perm_insertionSort KeyLe members
    have htexts : ∀ m ∈ members.insertionSort KeyLe,
        ∃ c, ValueText N room (utf8 (marshal m.2)) c := by
      intro m hm
      have hm' := hperm.mem_iff.mp hm
      exact ih m hm' (hmembers m hm') ((CanonValue.depth_le_depthMembers hm').trans hi)
    have hnull : Nonempty CanonValue := ⟨.null⟩
    choose! value hvalue using htexts
    have h := @valueText_members N room _ (members.insertionSort KeyLe) (·.1)
      (fun m => utf8 (marshalString m.1)) (fun m => utf8 (marshal m.2)) value
      (fun m _ => marshalString_text m.1) hvalue (by
        rw [(hperm.map fun m => nfc N m.1).nodup_iff]
        simpa [Function.comp_def] using hn)
    have hopen : utf8 ['{'] = ['{'.toUInt8] := by decide
    have hclose : utf8 ['}'] = ['}'.toUInt8] := by decide
    have hmember : ∀ m : String × CanonValue, utf8 (marshalMember (m.1, marshal m.2)) =
        utf8 (marshalString m.1) ++ ':'.toUInt8 :: utf8 (marshal m.2) := by
      intro m
      have hcolon : utf8 [':'] = [':'.toUInt8] := by decide
      rw [marshalMember, ← List.singleton_append, utf8_append, utf8_append, hcolon]
      rfl
    refine ⟨.obj ((members.insertionSort KeyLe).map fun m => (nfc N m.1, value m)), ?_⟩
    rw [marshal, sort_marshalValues, utf8_bracket, utf8_intercalate, hopen, hclose, List.map_map,
      List.map_map]
    simp only [Function.comp_def, hmember]
    exact h

/-- What is written of a value without repeated normal forms of keys is read. -/
theorem parse_marshal (hu : DistinctNfcKeys N v) (hd : v.depth ≤ maxDepth) :
    ∃ c, parse N (.ofList (marshal v)) = .ok c := by
  obtain ⟨c, hc⟩ := marshal_text hu hd
  refine ⟨c, (parseDocument_eq_ok_iff_document N _ c).mpr ⟨[], utf8 (marshal v), [], ?_⟩⟩
  rw [bytes_ofList]
  exact ⟨by simp [WsText], by simp [WsText], by simp, hc⟩

end Averin
