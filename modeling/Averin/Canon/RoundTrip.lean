import Averin.Canon.Write
import Averin.Canon.Completeness

/-!
# Writing and reading back

The serializer only produces words of the grammar, and the word of a value denotes its
canonical form. Reading back is then the parser's acceptance theorem; writing again is
the idempotence of the canonical form.
-/

namespace Averin

variable {N : Normalizer} {w : List UInt8} {room : Nat} {v : CanonValue}

/-- Another digit multiplies by ten and adds. -/
theorem decimalValue_append (ds : List UInt8) (d : UInt8) :
    decimalValue (ds ++ [d]) = decimalValue ds * 10 + (d.toNat - '0'.toNat) := by
  simp [decimalValue, List.foldl_append]

/-- A digit below ten is written as its digit byte. -/
theorem digitByte (r : Nat) (h : r < 10) :
    '0'.toUInt8 + .ofNat r ∈ digitBytes ∧
      ('0'.toUInt8 + UInt8.ofNat r).toNat - '0'.toNat = r ∧
      (r ≠ 0 → '0'.toUInt8 + UInt8.ofNat r ≠ '0'.toUInt8) := by
  revert r
  decide

/-- The digit loop prepends the shortest decimal form. -/
theorem writeDigits_eq (room : Nat) {u : Nat} (h : u < 10 ^ room) (hr : room ≠ 0) :
    ∃ ds, DigitsText ds ∧ decimalValue ds = u ∧
      ∀ digits, writeDigits room u digits = ds ++ digits := by
  induction room generalizing u with
  | zero => exact absurd rfl hr
  | succ room ih =>
    obtain ⟨hmem, hval, hne⟩ := digitByte (u % 10) (Nat.mod_lt _ (by omega))
    by_cases hq : u / 10 = 0
    · refine ⟨['0'.toUInt8 + .ofNat (u % 10)], ?_, ?_, ?_⟩
      · by_cases h0 : u % 10 = 0
        · rw [h0]
          exact .zero
        · exact .nonzero hmem (hne h0) (by simp)
      · rw [← List.nil_append [_], decimalValue_append, hval]
        have hzero : decimalValue [] = 0 := rfl
        omega
      · intro digits
        rw [writeDigits, if_pos hq]
        rfl
    · have hroom : room ≠ 0 := by
        rintro rfl
        omega
      obtain ⟨ds, hds, hdv, hw⟩ := ih (u := u / 10) (by rw [pow_succ] at h; omega) hroom
      refine ⟨ds ++ ['0'.toUInt8 + .ofNat (u % 10)], ?_, ?_, ?_⟩
      · cases hds with
        | zero => exact absurd hdv.symm hq
        | nonzero h1 h2 h3 =>
          exact .nonzero h1 h2 (List.forall_mem_append.mpr ⟨h3, by simpa using hmem⟩)
      · rw [decimalValue_append, hdv, hval]
        omega
      · intro digits
        rw [writeDigits, if_neg hq, hw, List.append_assoc]
        rfl

/-- Every integer is written as a word that denotes it. -/
theorem writeInt_text (n : Int64) : IntText (writeInt n) n := by
  have hlt := n.toInt_lt
  have hge := n.le_toInt
  unfold writeInt
  split_ifs with hneg
  · obtain ⟨ds, hds, hdv, hw⟩ := writeDigits_eq 20
      (u := (-(n.toInt + 1)).toNat + 1) (by omega) (by omega)
    rw [hw, List.append_nil]
    refine .neg hds ?_ (by omega)
    rintro rfl
    have hzero : decimalValue ['0'.toUInt8] = 0 := rfl
    omega
  · obtain ⟨ds, hds, hdv, hw⟩ := writeDigits_eq 20
      (u := n.toInt.toNat) (by omega) (by omega)
    rw [hw, List.append_nil]
    exact .nonneg hds (by omega)

/-- The three ways one ASCII byte is written. -/
theorem escapeByte_ascii (n : Nat) (h : n < 128) :
    (escapeByte (.ofNat n) = [.ofNat n] ∧ 0x20 ≤ n ∧ n ≠ 0x22 ∧ n ≠ 0x5C) ∨
    (∃ p ∈ shortEscapes, escapeByte (.ofNat n) = ['\\'.toUInt8, p.1] ∧ p.2 = .ofNat n) ∨
    (∃ p ∈ hexDigits, ∃ q ∈ hexDigits, escapeByte (.ofNat n) =
      ['\\'.toUInt8, 'u'.toUInt8, '0'.toUInt8, '0'.toUInt8, p.1, q.1] ∧
      p.2 * 0x10 + q.2 = n) := by
  have hall : ∀ n < 128,
      ((escapeByte (.ofNat n) = [.ofNat n] ∧ 0x20 ≤ n ∧ n ≠ 0x22 ∧ n ≠ 0x5C) ∨
      (shortEscapes.any fun p => escapeByte (.ofNat n) = ['\\'.toUInt8, p.1] ∧
        p.2 = .ofNat n) = true ∨
      (hexDigits.any fun p => hexDigits.any fun q => escapeByte (.ofNat n) =
        ['\\'.toUInt8, 'u'.toUInt8, '0'.toUInt8, '0'.toUInt8, p.1, q.1] ∧
        p.2 * 0x10 + q.2 = n) = true) := by decide +kernel
  simpa only [List.any_eq_true, decide_eq_true_eq] using hall n h

/-- Bytes above ASCII are copied. -/
theorem escapeByte_of_le {b : UInt8} (h : 0x80 ≤ b.toNat) : escapeByte b = [b] := by
  have hall : ∀ n < 256, 0x80 ≤ n → escapeByte (.ofNat n) = [.ofNat n] := by decide +kernel
  simpa using hall b.toNat b.toNat_lt h

/-- The bytes of a scalar are one ASCII byte, or all above ASCII. -/
theorem utf8EncodeChar_ascii_or (c : Char) :
    c.toNat < 0x80 ∧ String.utf8EncodeChar c = [.ofNat c.toNat] ∨
      0x80 ≤ c.toNat ∧ ∀ b ∈ String.utf8EncodeChar c, 0x80 ≤ b.toNat := by
  have hs := utf8Shape_encode c
  generalize String.utf8EncodeChar c = w at hs
  cases hs with
  | one b0 h1 h2 => exact Or.inl ⟨h1, by rw [← h2, UInt8.ofNat_toNat]⟩
  | two b0 b1 h1 h2 h3 h4 => exact Or.inr ⟨h1, by simp; omega⟩
  | three b0 b1 b2 h1 h2 h3 h4 h5 => exact Or.inr ⟨by omega, by simp; omega⟩
  | four b0 b1 b2 b3 h1 h2 h3 h4 h5 h6 => exact Or.inr ⟨by omega, by simp; omega⟩

/-- One written scalar in front of a string body. -/
theorem stringBody_escape {u : List UInt16} (c : Char) (h : StringBody w u) :
    StringBody ((String.utf8EncodeChar c).flatMap escapeByte ++ w) (utf16Char c ++ u) := by
  rcases utf8EncodeChar_ascii_or c with ⟨hc, he⟩ | ⟨hc, he⟩
  · have hu : utf16Char c = [.ofNat c.toNat] := by rw [utf16Char, if_pos (by omega)]
    have hw : (String.utf8EncodeChar c).flatMap escapeByte = escapeByte (.ofNat c.toNat) := by
      rw [he, List.flatMap_singleton]
    rw [hw, hu]
    rcases escapeByte_ascii c.toNat hc with ⟨hb, h1, h2, h3⟩ | ⟨p, hp, hb, hx⟩ |
      ⟨p, hp, q, hq, hb, hx⟩
    · rw [hb, ← he, ← hu]
      exact .raw h1 (by rintro rfl; exact h2 rfl) (by rintro rfl; exact h3 rfl) h
    · rw [hb, ← hx]
      exact .escape hp h
    · have h0 : ('0'.toUInt8, 0) ∈ hexDigits := by decide
      have hn : c.toNat = 0 * 0x1000 + 0 * 0x100 + p.2 * 0x10 + q.2 := by omega
      rw [hb, hn]
      exact .unicode h0 h0 hp hq h
  · have hw : (String.utf8EncodeChar c).flatMap escapeByte = String.utf8EncodeChar c := by
      rw [List.flatMap_congr (fun b hb => escapeByte_of_le (he b hb))]
      simp
    have hq : '"'.toNat = 0x22 := rfl
    have hs : '\\'.toNat = 0x5C := rfl
    rw [hw]
    exact .raw (by omega) (by rintro rfl; omega) (by rintro rfl; omega) h

/-- A written string is a string literal for the same text. -/
theorem escapeInto_text (t : String) : StringText (escapeInto (bytes t)) t := by
  refine .mk ?_
  rw [bytes_eq_utf8]
  induction t.toList with
  | nil => exact .nil
  | cons c cs ih =>
    rw [utf8_cons, utf16_cons, List.flatMap_append]
    exact stringBody_escape c ih

/-- The flag of a written value says that no object in it repeats a normalized key. -/
theorem writeCanonical_unique (N : Normalizer) (v : CanonValue) :
    (writeCanonical N v).unique = true ↔ DistinctNfcKeys N v := by
  induction v with
  | null => exact ⟨fun _ => .null, fun _ => rfl⟩
  | bool b => exact ⟨fun _ => .bool b, fun _ => rfl⟩
  | int n => exact ⟨fun _ => .int n, fun _ => rfl⟩
  | str s => exact ⟨fun _ => .str trivial, fun _ => rfl⟩
  | arr items ih =>
    simp only [writeCanonical, writeArray, writeItems_eq_map, List.all_eq_true,
      List.forall_mem_map]
    constructor
    · exact fun h => .arr fun v hv => (ih v hv).mp (h v hv)
    · rintro (_ | _ | _ | _ | h | _) v hv
      exact (ih v hv).mpr (h v hv)
  | obj members ih =>
    rw [writeCanonical, writeMembers_unique, writeValues_eq_map]
    simp only [List.map_map, List.forall_mem_map, Function.comp_def]
    constructor
    · rintro ⟨hn, h⟩
      refine .obj ?_ fun m hm => (ih m hm).mp (h m hm)
      simpa [Function.comp_def] using hn
    · rintro (_ | _ | _ | _ | _ | ⟨hn, h⟩)
      refine ⟨?_, fun m hm => (ih m hm).mpr (h m hm)⟩
      simpa [Function.comp_def] using hn

/-- The members of an object under their normalized keys, in writing order. -/
def writingOrder (N : Normalizer) (members : List (String × CanonValue)) :
    List (String × CanonValue) :=
  sortMembers (members.map fun m => (nfc N m.1, m.2))

/-- The canonical form of an object holds its members in their order. -/
theorem canonical_obj (N : Normalizer) (members : List (String × CanonValue)) :
    canonical N (.obj members) =
      .obj ((writingOrder N members).map fun m => (m.1, canonical N m.2)) := by
  rw [canonical, canonicalMembers_eq_map, writingOrder, ← sortMembers_map]
  simp [Function.comp_def]

/-- An object is written member by member in their order. -/
theorem writeCanonical_obj_bytes (N : Normalizer) (members : List (String × CanonValue)) :
    (writeCanonical N (.obj members)).bytes =
      '{'.toUInt8 :: [','.toUInt8].intercalate ((writingOrder N members).map fun m =>
        escapeInto (bytes m.1) ++ ':'.toUInt8 :: (writeCanonical N m.2).bytes) ++
          ['}'.toUInt8] := by
  rw [writeCanonical, writeMembers_bytes, writeValues_eq_map, writingOrder]
  have hs := sortMembers_map (writeCanonical N) (members.map fun m => (nfc N m.1, m.2))
  simp only [List.map_map, Function.comp_def] at hs ⊢
  rw [hs, List.map_map]
  rfl

/-- A member in writing order comes from a member of the object. -/
theorem exists_of_mem_writingOrder {members : List (String × CanonValue)}
    {m : String × CanonValue} (h : m ∈ writingOrder N members) :
    ∃ m' ∈ members, m = (nfc N m'.1, m'.2) := by
  obtain ⟨m', hm', rfl⟩ := List.mem_map.mp ((sortMembers_perm _).mem_iff.mp h)
  exact ⟨m', hm', rfl⟩

/-- The keys that are written are those of the object in normal form. -/
theorem writingOrder_keys_perm (N : Normalizer) (members : List (String × CanonValue)) :
    ((writingOrder N members).map (·.1)).Perm (members.map fun m => nfc N m.1) := by
  have h := (sortMembers_perm (members.map fun m => (nfc N m.1, m.2))).map (·.1)
  rwa [List.map_map] at h

/-- Values one after the other, without whitespace, are an array. -/
theorem valueText_items {α : Type} {l : List α} {text : α → List UInt8} {value : α → CanonValue}
    (h : ∀ a ∈ l, ValueText N room (text a) (value a)) :
    ValueText N (room + 1)
      ('['.toUInt8 :: [','.toUInt8].intercalate (l.map text) ++ [']'.toUInt8])
      (.arr (l.map value)) := by
  by_cases hne : l = []
  · subst hne
    exact .emptyArr (w := []) (by simp [WsText])
  · let texts := l.map fun a => ItemText.mk [] (text a) [] (value a)
    have hb : texts.map ItemText.bytes = l.map text := by
      simp [texts, ItemText.bytes, Function.comp_def]
    have hv : texts.map (·.value) = l.map value := by
      simp [texts, Function.comp_def]
    have harr := @ValueText.arr N room texts (by simpa [texts] using hne)
      (by simp [texts, WsText]) (List.forall_mem_map.mpr h)
    rwa [hb, hv] at harr

/-- Keys and values one after the other, without whitespace, are an object when no two keys have
one normal form. -/
theorem valueText_members {α : Type} {l : List α} {key : α → String}
    {keyText text : α → List UInt8} {value : α → CanonValue}
    (hkey : ∀ a ∈ l, StringText (keyText a) (key a))
    (h : ∀ a ∈ l, ValueText N room (text a) (value a))
    (hnodup : (l.map fun a => nfc N (key a)).Nodup) :
    ValueText N (room + 1)
      ('{'.toUInt8 :: [','.toUInt8].intercalate
        (l.map fun a => keyText a ++ ':'.toUInt8 :: text a) ++ ['}'.toUInt8])
      (.obj (l.map fun a => (nfc N (key a), value a))) := by
  by_cases hne : l = []
  · subst hne
    exact .emptyObj (w := []) (by simp [WsText])
  · let texts := l.map fun a => MemberText.mk [] (keyText a) [] [] (text a) [] (key a) (value a)
    have hb : texts.map MemberText.bytes =
        l.map fun a => keyText a ++ ':'.toUInt8 :: text a := by
      simp [texts, MemberText.bytes, Function.comp_def]
    have hv : texts.map (MemberText.member N) = l.map fun a => (nfc N (key a), value a) := by
      rw [List.map_map]
      rfl
    have hk : texts.map (fun m => nfc N m.key) = l.map fun a => nfc N (key a) := by
      rw [List.map_map]
      rfl
    have hobj := @ValueText.obj N room texts (by simpa [texts] using hne)
      (List.forall_mem_map.mpr fun a _ => by simp [MemberText.Spaced, WsText])
      (List.forall_mem_map.mpr hkey) (List.forall_mem_map.mpr h) (hk ▸ hnodup)
    rwa [hb, hv] at hobj

/-- The word of a value without repeated keys is a word of the grammar at its own depth
and denotes the canonical form. -/
theorem writeCanonical_text (hu : DistinctNfcKeys N v) (hd : v.depth ≤ room) :
    ValueText N room (writeCanonical N v).bytes (canonical N v) := by
  induction v generalizing room with
  | null => exact .null
  | bool b =>
    cases b with
    | false => exact .false
    | true => exact .true
  | int n => exact .int (writeInt_text n)
  | str s =>
    have h := @ValueText.str N room _ _ (escapeInto_text (nfc N s))
    rwa [nfc_nfc] at h
  | arr items ih =>
    obtain ⟨room, rfl⟩ := Nat.exists_eq_succ_of_ne_zero (n := room) (by
      rw [CanonValue.depth] at hd; omega)
    have hi : CanonValue.depthItems items ≤ room := Nat.le_of_succ_le_succ hd
    obtain _ | _ | _ | _ | hitems | _ := hu
    have h := @valueText_items N room _ items (fun v => (writeCanonical N v).bytes) (canonical N)
      fun v hv => ih v hv (hitems v hv) ((CanonValue.depth_le_depthItems hv).trans hi)
    simpa [writeCanonical, writeArray, canonical, writeItems_eq_map, canonicalItems_eq_map,
      Function.comp_def] using h
  | obj members ih =>
    obtain ⟨room, rfl⟩ := Nat.exists_eq_succ_of_ne_zero (n := room) (by
      rw [CanonValue.depth] at hd; omega)
    have hi : CanonValue.depthMembers members ≤ room := Nat.le_of_succ_le_succ hd
    obtain _ | _ | _ | _ | _ | ⟨hn, hmembers⟩ := hu
    have hfix : ∀ m ∈ writingOrder N members, nfc N m.1 = m.1 := by
      intro m hm
      obtain ⟨m', -, rfl⟩ := exists_of_mem_writingOrder hm
      exact nfc_nfc N m'.1
    have hk : (writingOrder N members).map (fun m => nfc N m.1) =
        (writingOrder N members).map (·.1) := List.map_congr_left hfix
    have hv : (writingOrder N members).map (fun m => (nfc N m.1, canonical N m.2)) =
        (writingOrder N members).map fun m => (m.1, canonical N m.2) :=
      List.map_congr_left fun m hm => Prod.ext (hfix m hm) rfl
    have h := @valueText_members N room _ (writingOrder N members) (·.1)
      (fun m => escapeInto (bytes m.1)) (fun m => (writeCanonical N m.2).bytes)
      (fun m => canonical N m.2) (fun m _ => escapeInto_text m.1) (by
        intro m hm
        obtain ⟨m', hm', rfl⟩ := exists_of_mem_writingOrder hm
        exact ih m' hm' (hmembers m' hm') ((CanonValue.depth_le_depthMembers hm').trans hi)) (by
        rw [hk, (writingOrder_keys_perm N members).nodup_iff]
        simpa [Function.comp_def] using hn)
    rw [writeCanonical_obj_bytes, canonical_obj, ← hv]
    exact h

/-- A byte list that is the UTF-8 form of some scalars. -/
def Textual (w : List UInt8) : Prop := ∃ cs, w = utf8 cs

/-- Two texts make a text. -/
theorem Textual.append {w' : List UInt8} (h : Textual w) (h' : Textual w') :
    Textual (w ++ w') := by
  obtain ⟨cs, rfl⟩ := h
  obtain ⟨cs', rfl⟩ := h'
  exact ⟨cs ++ cs', by rw [utf8_append]⟩

/-- A byte of ASCII is a text. -/
theorem Textual.byte {b : UInt8} (h : b.toNat < 0x80) : Textual [b] := by
  obtain ⟨c, hc⟩ := exists_scalar (n := b.toNat) (by omega)
  refine ⟨[c], ?_⟩
  rw [utf8_cons, utf8_nil, List.append_nil]
  exact Utf8Shape.unique (.one b (hc ▸ h) hc.symm) (utf8Shape_encode c)

/-- Bytes of ASCII are a text. -/
theorem Textual.ascii (h : ∀ b ∈ w, b.toNat < 0x80) : Textual w := by
  induction w with
  | nil => exact ⟨[], rfl⟩
  | cons b w ih =>
    rw [List.forall_mem_cons] at h
    exact (Textual.byte h.1).append (ih h.2)

/-- Texts with commas between them make a text. -/
theorem Textual.intercalate {ws : List (List UInt8)} (h : ∀ w ∈ ws, Textual w) :
    Textual ([','.toUInt8].intercalate ws) := by
  have hcomma : Textual [','.toUInt8] := .byte (by decide)
  induction ws with
  | nil => exact ⟨[], rfl⟩
  | cons w ws ih =>
    rw [List.forall_mem_cons] at h
    by_cases hne : ws = []
    · subst hne
      rw [List.intercalate_singleton]
      exact h.1
    · rw [intercalate_cons _ _ hne]
      exact h.1.append (hcomma.append (ih h.2))

/-- The inside of a string is a text. -/
theorem Textual.stringBody {u : List UInt16} (h : StringBody w u) : Textual w := by
  induction h with
  | nil => exact ⟨[], rfl⟩
  | @raw c w u _ _ _ _ ih => exact Textual.append ⟨[c], by simp⟩ ih
  | @escape e x w u he _ ih =>
    have hall : ∀ p ∈ shortEscapes, p.1.toNat < 0x80 := forall_mem_of_all (by decide)
    have hslash : Textual ['\\'.toUInt8] := .byte (by decide)
    exact (hslash.append (.byte (hall _ he))).append ih
  | @unicode c0 c1 c2 c3 d0 d1 d2 d3 w u h0 h1 h2 h3 _ ih =>
    have hall : ∀ p ∈ hexDigits, p.1.toNat < 0x80 := forall_mem_of_all (by decide)
    have hslash : Textual ['\\'.toUInt8] := .byte (by decide)
    have hu : Textual ['u'.toUInt8] := .byte (by decide)
    have hdigits : Textual [c0, c1, c2, c3] :=
      .ascii (by simpa using ⟨hall _ h0, hall _ h1, hall _ h2, hall _ h3⟩)
    exact ((hslash.append hu).append hdigits).append ih

theorem Textual.stringText {t : String} (h : StringText w t) : Textual w := by
  have hquote : Textual ['"'.toUInt8] := .byte (by decide)
  cases h with
  | mk hw => exact hquote.append (Textual.append (.stringBody hw) hquote)

/-- An integer is a text. -/
theorem Textual.intText {n : Int64} (h : IntText w n) : Textual w := by
  have hall : ∀ b ∈ '-'.toUInt8 :: digitBytes, b.toNat < 0x80 :=
    forall_mem_of_all (by decide)
  apply Textual.ascii
  intro b hb
  apply hall
  cases h with
  | nonneg hd _ => exact List.mem_cons_of_mem _ (hd.mem_digits b hb)
  | neg hd _ _ =>
    rcases List.mem_cons.mp hb with rfl | hb
    · exact List.mem_cons_self
    · exact List.mem_cons_of_mem _ (hd.mem_digits b hb)

theorem Textual.bytes (t : String) : Textual (bytes t) := ⟨t.toList, bytes_eq_utf8 t⟩

/-- What is written is a text. -/
theorem Textual.writeCanonical (N : Normalizer) (v : CanonValue) :
    Textual (writeCanonical N v).bytes := by
  induction v with
  | null => exact .bytes "null"
  | bool b =>
    cases b with
    | false => exact .bytes "false"
    | true => exact .bytes "true"
  | int n => exact .intText (writeInt_text n)
  | str s => exact .stringText (escapeInto_text (nfc N s))
  | arr items ih =>
    have h1 : Textual ['['.toUInt8] := .byte (by decide)
    have h2 : Textual [']'.toUInt8] := .byte (by decide)
    rw [Averin.writeCanonical, writeItems_eq_map, writeArray, List.map_map]
    exact h1.append (Textual.append (.intercalate (List.forall_mem_map.mpr ih)) h2)
  | obj members ih =>
    have h1 : Textual ['{'.toUInt8] := .byte (by decide)
    have h2 : Textual ['}'.toUInt8] := .byte (by decide)
    have h3 : Textual [':'.toUInt8] := .byte (by decide)
    rw [writeCanonical_obj_bytes]
    refine h1.append (Textual.append (.intercalate (List.forall_mem_map.mpr ?_)) h2)
    intro m hm
    obtain ⟨m', hm', rfl⟩ := exists_of_mem_writingOrder hm
    exact Textual.append (.stringText (escapeInto_text _)) (h3.append (ih m' hm'))

/-- Serialization never fails: every value has a text with the written bytes. -/
theorem exists_serialize (N : Normalizer) (v : CanonValue) :
    ∃ t, serialize N v = some t ∧ bytes t = (writeCanonical N v).bytes := by
  obtain ⟨cs, hcs⟩ := Textual.writeCanonical N v
  refine ⟨String.ofList cs, ?_, ?_⟩
  · rw [serialize, hcs, fromUTF8?_utf8]
  · rw [bytes_ofList, hcs]

/-- What is written is read as its canonical form. -/
theorem parse_serialize_canonical (hu : DistinctNfcKeys N v) (hd : v.depth ≤ maxDepth) :
    ∃ t, serialize N v = some t ∧ parse N t = .ok (canonical N v) := by
  obtain ⟨t, ht, hb⟩ := exists_serialize N v
  refine ⟨t, ht, (parseDocument_eq_ok_iff_document N _ _).mpr ?_⟩
  refine ⟨[], bytes t, [], by simp [WsText], by simp [WsText], by simp, ?_⟩
  rw [hb]
  exact writeCanonical_text hu hd

/-- What a word denotes is normalized, free of repeated keys and no deeper than allowed. -/
theorem ValueText.wellFormed (h : ValueText N room w v) :
    NfcFixed N v ∧ DistinctKeys v ∧ v.depth ≤ room := by
  induction h with
  | null => exact ⟨.null, .null, Nat.zero_le _⟩
  | true => exact ⟨.bool _, .bool _, Nat.zero_le _⟩
  | false => exact ⟨.bool _, .bool _, Nat.zero_le _⟩
  | int _ => exact ⟨.int _, .int _, Nat.zero_le _⟩
  | str _ => exact ⟨.str (nfc_nfc N _), .str trivial, Nat.zero_le _⟩
  | emptyArr _ => exact ⟨.arr (by simp), .arr (by simp), Nat.succ_le_succ (Nat.zero_le _)⟩
  | arr _ _ _ ih =>
    refine ⟨.arr (List.forall_mem_map.mpr fun p hp => (ih p hp).1),
      .arr (List.forall_mem_map.mpr fun p hp => (ih p hp).2.1), Nat.succ_le_succ ?_⟩
    exact CanonValue.depthItems_le (List.forall_mem_map.mpr fun p hp => (ih p hp).2.2)
  | emptyObj _ =>
    exact ⟨.obj (by simp) (by simp), .obj (by simp) (by simp),
      Nat.succ_le_succ (Nat.zero_le _)⟩
  | obj _ _ _ _ hn ih =>
    refine ⟨.obj (by simp [MemberText.member])
        (List.forall_mem_map.mpr fun m hm => (ih m hm).1),
      .obj ?_ (List.forall_mem_map.mpr fun m hm => (ih m hm).2.1), Nat.succ_le_succ ?_⟩
    · simpa [MemberText.member, Function.comp_def] using hn
    · exact CanonValue.depthMembers_le (List.forall_mem_map.mpr fun m hm => (ih m hm).2.2)

/-- On normalized text, distinct keys stay distinct. -/
theorem DistinctKeys.nfc (h : DistinctKeys v) (hf : NfcFixed N v) : DistinctNfcKeys N v := by
  induction v with
  | null => exact .null
  | bool b => exact .bool b
  | int n => exact .int n
  | str s => exact .str trivial
  | arr items ih =>
    obtain _ | _ | _ | _ | h | _ := h
    obtain _ | _ | _ | _ | hf | _ := hf
    exact .arr fun v hv => ih v hv (h v hv) (hf v hv)
  | obj members ih =>
    obtain _ | _ | _ | _ | _ | ⟨hn, h⟩ := h
    obtain _ | _ | _ | _ | _ | ⟨hk, hf⟩ := hf
    refine .obj ?_ fun m hm => ih m hm (h m hm) (hf m hm)
    rwa [List.map_congr_left hk, List.map_id']

/-- The identity tables. -/
def Normalizer.identity : Normalizer := ⟨id, fun _ => rfl⟩

/-- A normalizer that changes nothing changes no text. -/
@[simp] theorem nfc_identity (s : String) : nfc .identity s = s := by
  simp [nfc, Normalizer.identity]

/-- Put the members of every object in key order and change nothing else. -/
def reorder (v : CanonValue) : CanonValue := canonical .identity v

theorem reorder_str (s : String) : reorder (.str s) = .str s := by
  rw [reorder, canonical, nfc_identity]

/-- The items of an array are reordered inside. -/
theorem reorder_arr (items : List CanonValue) :
    reorder (.arr items) = .arr (items.map reorder) := by
  rw [reorder, canonical, canonicalItems_eq_map]
  rfl

/-- The members of an object are sorted and reordered inside. -/
theorem reorder_obj (members : List (String × CanonValue)) :
    reorder (.obj members) = .obj (sortMembers (members.map fun m => (m.1, reorder m.2))) := by
  simp only [reorder, canonical, canonicalMembers_eq_map, nfc_identity]

/-- On normalized text the canonical form is the reordering alone. -/
theorem canonical_eq_reorder (h : NfcFixed N v) : canonical N v = reorder v := by
  induction v with
  | null => rfl
  | bool b => rfl
  | int n => rfl
  | str s =>
    obtain _ | _ | _ | h | _ | _ := h
    rw [reorder_str, canonical, h]
  | arr items ih =>
    obtain _ | _ | _ | _ | h | _ := h
    rw [reorder_arr, canonical, canonicalItems_eq_map]
    exact congrArg _ (List.map_congr_left fun v hv => ih v hv (h v hv))
  | obj members ih =>
    obtain _ | _ | _ | _ | _ | ⟨hk, h⟩ := h
    rw [reorder_obj, canonical, canonicalMembers_eq_map]
    refine congrArg (CanonValue.obj <| sortMembers ·) (List.map_congr_left fun m hm => ?_)
    rw [hk m.1 (List.mem_map_of_mem hm), ih m hm (h m hm)]

/-- Members in writing order keep it when their values are rewritten. -/
theorem writingOrder_writingOrder (N : Normalizer) (members : List (String × CanonValue))
    (f : CanonValue → CanonValue) :
    writingOrder N ((writingOrder N members).map fun m => (m.1, f m.2)) =
      (writingOrder N members).map fun m => (m.1, f m.2) := by
  have hfix : ((writingOrder N members).map fun m => (m.1, f m.2)).map
      (fun m => (nfc N m.1, m.2)) = (writingOrder N members).map fun m => (m.1, f m.2) := by
    rw [List.map_map]
    refine List.map_congr_left fun m hm => ?_
    obtain ⟨m', -, rfl⟩ := exists_of_mem_writingOrder hm
    rw [Function.comp_apply, nfc_nfc]
  have hidem : sortMembers (writingOrder N members) = writingOrder N members :=
    sortMembers_sortMembers _
  rw [writingOrder, hfix, sortMembers_map, hidem]

/-- A value and its canonical form are written alike. -/
theorem writeCanonical_canonical (N : Normalizer) (v : CanonValue) :
    (writeCanonical N (canonical N v)).bytes = (writeCanonical N v).bytes := by
  induction v with
  | null => rfl
  | bool b => rfl
  | int n => rfl
  | str s => rw [canonical, writeCanonical, writeCanonical, nfc_nfc]
  | arr items ih =>
    simp only [canonical, writeCanonical, writeArray, writeItems_eq_map, canonicalItems_eq_map,
      List.map_map, Function.comp_def]
    rw [List.map_congr_left ih]
  | obj members ih =>
    rw [canonical_obj, writeCanonical_obj_bytes, writeCanonical_obj_bytes,
      writingOrder_writingOrder, List.map_map]
    refine congrArg (fun ws => '{'.toUInt8 :: [','.toUInt8].intercalate ws ++ ['}'.toUInt8])
      (List.map_congr_left fun m hm => ?_)
    obtain ⟨m', hm', rfl⟩ := exists_of_mem_writingOrder hm
    rw [Function.comp_apply, ih m' hm']

/-- Round trip. Reading the text of a normalized value with distinct keys returns the value
with its members reordered; and whatever was read is written so that reading and writing
it again gives the same text. -/
theorem parse_serialize (N : Normalizer) :
    (∀ v, NfcFixed N v → DistinctKeys v → v.depth ≤ maxDepth →
      ∃ t, serialize N v = some t ∧ parse N t = .ok (reorder v)) ∧
    (∀ t v, parse N t = .ok v →
      ∃ t' v', serialize N v = some t' ∧ parse N t' = .ok v' ∧ serialize N v' = some t') := by
  have hback : ∀ v, NfcFixed N v → DistinctKeys v → v.depth ≤ maxDepth →
      ∃ t, serialize N v = some t ∧ parse N t = .ok (canonical N v) :=
    fun v hf hk hd => parse_serialize_canonical (hk.nfc hf) hd
  refine ⟨?_, ?_⟩
  · intro v hf hk hd
    rw [← canonical_eq_reorder hf]
    exact hback v hf hk hd
  · intro t v h
    obtain ⟨before, text, after, -, -, -, htext⟩ := (parseDocument_eq_ok_iff_document N _ _).mp h
    obtain ⟨hf, hk, hd⟩ := htext.wellFormed
    obtain ⟨t', hs, hp⟩ := hback v hf hk hd
    refine ⟨t', canonical N v, hs, hp, ?_⟩
    rw [serialize, writeCanonical_canonical]
    exact hs

/-- Two members out of order come back in order, and a spaced array is rewritten stably. -/
theorem parse_serialize_two_members :
    (∃ t, serialize .identity (.obj [("b", .int 1), ("a", .arr [.str "x\n"])]) = some t ∧
      parse .identity t = .ok (reorder (.obj [("b", .int 1), ("a", .arr [.str "x\n"])]))) ∧
    ∃ t' v', serialize .identity (.arr [.int 7]) = some t' ∧ parse .identity t' = .ok v' ∧
      serialize .identity v' = some t' := by
  refine ⟨(parse_serialize .identity).1 _ ?_ ?_ (by decide),
    (parse_serialize .identity).2 " [7 ]" _ rfl⟩
  · refine .obj (fun k _ => nfc_identity k) ?_
    simp only [List.forall_mem_cons, List.not_mem_nil, false_imp_iff, implies_true, and_true]
    exact ⟨.int 1, .arr (List.forall_mem_singleton.mpr (.str (nfc_identity _)))⟩
  · refine .obj (by decide) ?_
    simp only [List.forall_mem_cons, List.not_mem_nil, false_imp_iff, implies_true, and_true]
    exact ⟨.int 1, .arr (List.forall_mem_singleton.mpr (.str trivial))⟩

end Averin
