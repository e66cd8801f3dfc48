import Averin.Canon.Soundness

/-!
# Grammatical texts are accepted

On a word of the grammar the value parser consumes exactly that word and returns what it
denotes, provided the byte after it cannot continue a number. Together with soundness
this fixes what the parser accepts and what it returns.
-/

namespace Averin

variable {N : Normalizer} {s w : List UInt8} {i j room : Nat} {v : CanonValue}

/-- What may follow a value: whitespace, a comma or a closing bracket. -/
def ValueStop (s : List UInt8) (j : Nat) : Prop :=
  ∀ b, s[j]? = some b → b ∈ bytes " \t\n\r,]\x7d"

/-- A value ends where a number would. -/
theorem ValueStop.numberStop (h : ValueStop s j) : NumberStop s j := by
  have hall : ∀ b ∈ bytes " \t\n\r,]\x7d",
      b ∉ digitBytes ∧ b ≠ '.'.toUInt8 ∧ b ≠ 'e'.toUInt8 ∧ b ≠ 'E'.toUInt8 :=
    forall_mem_of_all (by decide)
  exact fun b hb => hall b (h b hb)

/-- White space ends a value. -/
theorem WsText.valueStop_mem {b : UInt8} (hw : WsText w) (hb : b ∈ w) :
    b ∈ bytes " \t\n\r,]\x7d" := by
  have hall : ∀ b ∈ bytes " \t\n\r", b ∈ bytes " \t\n\r,]\x7d" :=
    forall_mem_of_all (by decide)
  exact hall b (hw b hb)

/-- Whitespace and then a byte that may follow a value. -/
theorem ValueStop.of_reads {c : UInt8} {r : List UInt8} (hw : WsText w)
    (hc : c ∈ bytes " \t\n\r,]\x7d") (h : Reads s i (w ++ c :: r) j) : ValueStop s i := by
  intro b hb
  cases w with
  | nil =>
    obtain rfl := Option.some.inj (h.getElem?.symm.trans hb)
    exact hc
  | cons a w =>
    obtain rfl := Option.some.inj (h.getElem?.symm.trans hb)
    exact hw.valueStop_mem (by simp)

/-- A word that starts with a byte that is not whitespace. -/
def Solid (w : List UInt8) : Prop := ∃ b r, w = b :: r ∧ b ∉ bytes " \t\n\r"

/-- Skipping whitespace stops at a solid word. -/
theorem skipWs_solid {w' : List UInt8} (hw : WsText w) (hw' : Solid w')
    (h : Reads s i (w ++ w') j) : skipWs s i = i + w.length := by
  obtain ⟨b, r, rfl, hb⟩ := hw'
  obtain ⟨h1, h2⟩ := h.split
  apply skipWs_eq h1 hw
  intro c hc
  obtain rfl := Option.some.inj (h2.getElem?.symm.trans hc)
  exact hb

theorem le_skipWs (s : List UInt8) (i : Nat) : i ≤ skipWs s i := Nat.le_add_right _ _

theorem StringText.exists_cons {t : String} (h : StringText w t) :
    ∃ r, w = '"'.toUInt8 :: r := by
  cases h with
  | mk _ => exact ⟨_, rfl⟩

/-- An integer begins with a sign or a digit. -/
theorem IntText.exists_cons {n : Int64} (h : IntText w n) :
    ∃ b r, w = b :: r ∧ b ∈ '-'.toUInt8 :: digitBytes := by
  cases h with
  | nonneg hd _ =>
    obtain ⟨b, r, rfl⟩ := List.exists_cons_of_ne_nil hd.ne_nil
    exact ⟨b, r, rfl, List.mem_cons_of_mem _ (hd.mem_digits b (by simp))⟩
  | neg _ _ _ => exact ⟨_, _, rfl, by simp⟩

theorem StringText.solid {t : String} (h : StringText w t) : Solid w := by
  obtain ⟨r, rfl⟩ := h.exists_cons
  exact ⟨_, r, rfl, by decide⟩

/-- A value is no white space. -/
theorem ValueText.solid (h : ValueText N room w v) : Solid w := by
  cases h with
  | null => exact ⟨'n'.toUInt8, _, rfl, by decide⟩
  | true => exact ⟨'t'.toUInt8, _, rfl, by decide⟩
  | false => exact ⟨'f'.toUInt8, _, rfl, by decide⟩
  | int hw =>
    have hall : ∀ b ∈ '-'.toUInt8 :: digitBytes, b ∉ bytes " \t\n\r" :=
      forall_mem_of_all (by decide)
    obtain ⟨b, r, rfl, hb⟩ := hw.exists_cons
    exact ⟨b, r, rfl, hall b hb⟩
  | str hw => exact hw.solid
  | emptyArr _ => exact ⟨_, _, rfl, by decide⟩
  | arr _ _ _ => exact ⟨_, _, rfl, by decide⟩
  | emptyObj _ => exact ⟨_, _, rfl, by decide⟩
  | obj _ _ _ _ _ => exact ⟨_, _, rfl, by decide⟩

/-- The inner parser reads the word `w` as `v` wherever it stands before a stop. -/
def ParsesAs (s : List UInt8) (p : ValueParser) (w : List UInt8) (v : CanonValue) : Prop :=
  ∀ i j, Reads s i w j → ValueStop s j → p i = .ok (v, j)

/-- One item and the delimiter after it. -/
theorem item_step {p : ValueParser} {q : ItemText} {c : UInt8} {r : List UInt8}
    (hws : WsText q.before ∧ WsText q.after) (hsolid : Solid q.text)
    (hp : ParsesAs s p q.text q.value) (hc : c ∈ bytes ",]")
    (h : Reads s i (q.bytes ++ c :: r) j) :
    ∃ k, p (skipWs s i) = .ok (q.value, k) ∧ s[skipWs s k]? = some c ∧
      Reads s (skipWs s k + 1) r j ∧ skipWs s i < skipWs s k := by
  have hstop : ∀ c ∈ bytes ",]", c ∈ bytes " \t\n\r,]\x7d" ∧ c ∉ bytes " \t\n\r" :=
    forall_mem_of_all (by decide)
  obtain ⟨hc1, hc2⟩ := hstop c hc
  simp only [ItemText.bytes, List.append_assoc] at h
  obtain ⟨b, t, htext, hb⟩ := hsolid
  have hskip : skipWs s i = i + q.before.length :=
    skipWs_solid hws.1 ⟨b, t ++ (q.after ++ c :: r), by rw [htext]; rfl, hb⟩ h
  obtain ⟨-, h1⟩ := h.split
  obtain ⟨h2, h3⟩ := h1.split
  have hafter : skipWs s (i + q.before.length + q.text.length) =
      i + q.before.length + q.text.length + q.after.length :=
    skipWs_solid hws.2 ⟨c, r, rfl, hc2⟩ h3
  obtain ⟨-, h4⟩ := h3.split
  refine ⟨i + q.before.length + q.text.length, ?_, ?_, ?_, ?_⟩
  · rw [hskip]
    exact hp _ _ h2 (ValueStop.of_reads hws.2 hc1 h3)
  · rw [hafter]
    exact h4.getElem?
  · rw [hafter]
    exact h4.tail
  · rw [hskip, hafter, htext, List.length_cons]
    omega

/-- Items that are read one by one are read as an array. -/
theorem arrayLoop_complete {p : ValueParser} {items : List ItemText} (hne : items ≠ [])
    (hws : ∀ q ∈ items, WsText q.before ∧ WsText q.after) (hsolid : ∀ q ∈ items, Solid q.text)
    (hp : ∀ q ∈ items, ParsesAs s p q.text q.value) (fuel : Nat) (acc : List CanonValue)
    (h : Reads s i ([','.toUInt8].intercalate (items.map ItemText.bytes) ++ [']'.toUInt8]) j)
    (hf : s.length ≤ fuel + skipWs s i) :
    arrayLoop s p fuel i acc = .ok (.arr (acc ++ items.map (·.value)), j) := by
  induction items generalizing i fuel acc with
  | nil => exact absurd rfl hne
  | cons q items ih =>
    simp only [List.forall_mem_cons] at hws hsolid hp
    have hcomma : ','.toUInt8 ≠ ']'.toUInt8 := by decide
    by_cases hl : items = []
    · subst hl
      simp only [List.map_cons, List.map_nil, List.intercalate_singleton] at h
      obtain ⟨k, hk, hc, hr, hlt⟩ := item_step hws.1 hsolid.1 hp.1 (by decide) h
      obtain ⟨hlen, -⟩ := List.getElem?_eq_some_iff.mp hc
      obtain ⟨fuel, rfl⟩ := Nat.exists_eq_succ_of_ne_zero (n := fuel) (by omega)
      simp only [arrayLoop, hk, byteAt_eq_false hc hcomma.symm, byteAt_iff.mpr hc, if_true]
      simp [hr.2]
    · rw [List.map_cons, intercalate_cons _ _ (by simpa using hl), List.append_assoc] at h
      obtain ⟨k, hk, hc, hr, hlt⟩ := item_step hws.1 hsolid.1 hp.1 (by decide) h
      obtain ⟨hlen, -⟩ := List.getElem?_eq_some_iff.mp hc
      obtain ⟨fuel, rfl⟩ := Nat.exists_eq_succ_of_ne_zero (n := fuel) (by omega)
      have hmono := le_skipWs s (skipWs s k + 1)
      simp only [arrayLoop, hk, byteAt_iff.mpr hc, if_true]
      rw [ih hl hws.2 hsolid.2 hp.2 _ _ hr (by omega)]
      simp

/-- The opening bracket and whitespace up to a given byte. -/
theorem open_empty {o c : UInt8} (hc : c ∉ bytes " \t\n\r") (hw : WsText w)
    (h : Reads s i (o :: w ++ [c]) j) :
    expect s i o = .ok (i + 1) ∧ byteAt s (skipWs s (i + 1)) c = true ∧
      skipWs s (i + 1) + 1 = j := by
  have h1 : Reads s (i + 1) (w ++ [c]) j := h.tail
  have hskip := skipWs_solid hw ⟨c, [], rfl, hc⟩ h1
  obtain ⟨-, h2⟩ := h1.split
  refine ⟨expect_eq_ok_iff.mpr ⟨h.getElem?, rfl⟩, ?_, ?_⟩
  · rw [hskip]
    exact byteAt_iff.mpr h2.getElem?
  · rw [hskip, h2.2]
    rfl

/-- An array may hold nothing. -/
theorem parseArray_empty (p : ValueParser) (hw : WsText w)
    (h : Reads s i ('['.toUInt8 :: w ++ [']'.toUInt8]) j) :
    parseArray s (some p) i = .ok (.arr [], j) := by
  obtain ⟨h1, h2, h3⟩ := open_empty (by decide) hw h
  simp only [parseArray, h1, h2, if_true, h3]

/-- One member and the delimiter after it. -/
theorem member_step {p : ValueParser} {m : MemberText} {c : UInt8} {r : List UInt8}
    (hws : m.Spaced) (hkey : StringText m.keyText m.key) (hsolid : Solid m.text)
    (hp : ParsesAs s p m.text m.value) (hc : c ∈ bytes ",\x7d")
    (h : Reads s i (m.bytes ++ c :: r) j) :
    ∃ k l, byteAt s (skipWs s i) '"'.toUInt8 = true ∧
      parseString N s (skipWs s i) = .ok (nfc N m.key, k) ∧
      expect s (skipWs s k) ':'.toUInt8 = .ok (skipWs s k + 1) ∧
      p (skipWs s (skipWs s k + 1)) = .ok (m.value, l) ∧ s[skipWs s l]? = some c ∧
      Reads s (skipWs s l + 1) r j ∧ skipWs s i < skipWs s l := by
  have hstop : ∀ c ∈ bytes ",\x7d", c ∈ bytes " \t\n\r,]\x7d" ∧ c ∉ bytes " \t\n\r" :=
    forall_mem_of_all (by decide)
  obtain ⟨hc1, hc2⟩ := hstop c hc
  obtain ⟨hw1, hw2, hw3, hw4⟩ := hws
  simp only [MemberText.bytes, List.append_assoc, List.cons_append] at h
  obtain ⟨q, hq⟩ := hkey.exists_cons
  obtain ⟨b, t, htext, hb⟩ := hsolid
  have hskip1 := skipWs_solid hw1 ⟨'"'.toUInt8, _, by rw [hq]; rfl, by decide⟩ h
  obtain ⟨-, h1⟩ := h.split
  obtain ⟨h2, h3⟩ := h1.split
  have hskip2 := skipWs_solid hw2 ⟨':'.toUInt8, _, rfl, by decide⟩ h3
  obtain ⟨-, h4⟩ := h3.split
  have hskip3 := skipWs_solid hw3 ⟨b, t ++ (m.after ++ c :: r), by rw [htext]; rfl, hb⟩ h4.tail
  obtain ⟨-, h5⟩ := h4.tail.split
  obtain ⟨h6, h7⟩ := h5.split
  have hskip4 := skipWs_solid hw4 ⟨c, r, rfl, hc2⟩ h7
  obtain ⟨-, h8⟩ := h7.split
  have hquote : s[i + m.before.length]? = some '"'.toUInt8 := by
    rw [hq] at h2
    exact h2.getElem?
  refine ⟨i + m.before.length + m.keyText.length,
    i + m.before.length + m.keyText.length + m.afterKey.length + 1 + m.beforeValue.length +
      m.text.length, ?_, ?_, ?_, ?_, ?_, ?_, ?_⟩
  · rw [hskip1]
    exact byteAt_iff.mpr hquote
  · rw [hskip1]
    exact parseString_eq_ok_iff.mpr ⟨_, _, hkey, rfl, h2⟩
  · rw [hskip2]
    exact expect_eq_ok_iff.mpr ⟨h4.getElem?, rfl⟩
  · rw [hskip2, hskip3]
    exact hp _ _ h6 (ValueStop.of_reads hw4 hc1 h7)
  · rw [hskip4]
    exact h8.getElem?
  · rw [hskip4]
    exact h8.tail
  · rw [hskip1, hskip4]
    omega

/-- Members that are read one by one are read as an object. -/
theorem objectLoop_complete {p : ValueParser} {ms : List MemberText} (hne : ms ≠ [])
    (hws : ∀ m ∈ ms, m.Spaced) (hkeys : ∀ m ∈ ms, StringText m.keyText m.key)
    (hsolid : ∀ m ∈ ms, Solid m.text) (hp : ∀ m ∈ ms, ParsesAs s p m.text m.value)
    (fuel : Nat) (members : List (String × CanonValue)) (keys : List (String × Nat))
    (h : Reads s i ([','.toUInt8].intercalate (ms.map MemberText.bytes) ++ ['}'.toUInt8]) j)
    (hf : s.length ≤ fuel + skipWs s i) :
    ∃ keys', keys'.map Prod.fst = ms.map (fun m => nfc N m.key) ∧
      objectLoop N s p fuel i members keys =
        ⟨members ++ ms.map (MemberText.member N), keys ++ keys', j, none⟩ := by
  induction ms generalizing i fuel members keys with
  | nil => exact absurd rfl hne
  | cons m ms ih =>
    simp only [List.forall_mem_cons] at hws hkeys hsolid hp
    have hcomma : ','.toUInt8 ≠ '}'.toUInt8 := by decide
    by_cases hl : ms = []
    · subst hl
      simp only [List.map_cons, List.map_nil, List.intercalate_singleton] at h
      obtain ⟨k, l, hq, hk, hcolon, hv, hc, hr, hlt⟩ :=
        member_step (N := N) hws.1 hkeys.1 hsolid.1 hp.1 (by decide) h
      obtain ⟨hlen, -⟩ := List.getElem?_eq_some_iff.mp hc
      obtain ⟨fuel, rfl⟩ := Nat.exists_eq_succ_of_ne_zero (n := fuel) (by omega)
      refine ⟨[(nfc N m.key, skipWs s i)], rfl, ?_⟩
      simp only [objectLoop, hq, hk, hcolon, hv, byteAt_eq_false hc hcomma.symm,
        byteAt_iff.mpr hc, if_true]
      simp [hr.2, MemberText.member]
    · rw [List.map_cons, intercalate_cons _ _ (by simpa using hl), List.append_assoc] at h
      obtain ⟨k, l, hq, hk, hcolon, hv, hc, hr, hlt⟩ :=
        member_step (N := N) hws.1 hkeys.1 hsolid.1 hp.1 (by decide) h
      obtain ⟨hlen, -⟩ := List.getElem?_eq_some_iff.mp hc
      obtain ⟨fuel, rfl⟩ := Nat.exists_eq_succ_of_ne_zero (n := fuel) (by omega)
      have hmono := le_skipWs s (skipWs s l + 1)
      obtain ⟨keys', hmap, hloop⟩ := ih hl hws.2 hkeys.2 hsolid.2 hp.2 fuel
        (members ++ [(nfc N m.key, m.value)]) (keys ++ [(nfc N m.key, skipWs s i)]) hr (by omega)
      refine ⟨(nfc N m.key, skipWs s i) :: keys', by simp [hmap], ?_⟩
      simp only [objectLoop, hq, hk, hcolon, hv, byteAt_iff.mpr hc, if_true]
      simpa [MemberText.member] using hloop

/-- An object may hold nothing. -/
theorem parseObject_empty (p : ValueParser) (hw : WsText w)
    (h : Reads s i ('{'.toUInt8 :: w ++ ['}'.toUInt8]) j) :
    parseObject N s (some p) i = .ok (.obj [], j) := by
  obtain ⟨h1, h2, h3⟩ := open_empty (by decide) hw h
  simp only [parseObject, h1, h2, if_true, h3]

/-- No value starts with a closing bracket. -/
theorem ValueText.head_ne (h : ValueText N room w v) : w.head? ≠ some ']'.toUInt8 := by
  cases h with
  | null => decide
  | true => decide
  | false => decide
  | int hw =>
    have hall : ∀ b ∈ '-'.toUInt8 :: digitBytes, b ≠ ']'.toUInt8 :=
      forall_mem_of_all (by decide)
    obtain ⟨b, r, rfl, hb⟩ := hw.exists_cons
    simpa using hall b hb
  | str hw =>
    obtain ⟨r, rfl⟩ := hw.exists_cons
    exact fun h => absurd (Option.some.inj h) (by decide)
  | emptyArr _ => exact fun h => absurd (Option.some.inj h) (by decide)
  | arr _ _ _ => exact fun h => absurd (Option.some.inj h) (by decide)
  | emptyObj _ => exact fun h => absurd (Option.some.inj h) (by decide)
  | obj _ _ _ _ _ => exact fun h => absurd (Option.some.inj h) (by decide)

/-- An array of readable items is read. -/
theorem parseArray_complete {p : ValueParser} {items : List ItemText} (hne : items ≠ [])
    (hws : ∀ q ∈ items, WsText q.before ∧ WsText q.after)
    (hitems : ∀ q ∈ items, ValueText N room q.text q.value)
    (hp : ∀ q ∈ items, ParsesAs s p q.text q.value)
    (h : Reads s i
      ('['.toUInt8 :: [','.toUInt8].intercalate (items.map ItemText.bytes) ++ [']'.toUInt8]) j) :
    parseArray s (some p) i = .ok (.arr (items.map (·.value)), j) := by
  have he := expect_eq_ok_iff.mpr ⟨h.getElem?, rfl⟩
  have h1 : Reads s (i + 1)
      ([','.toUInt8].intercalate (items.map ItemText.bytes) ++ [']'.toUInt8]) j := h.tail
  have hclose : byteAt s (skipWs s (i + 1)) ']'.toUInt8 = false := by
    obtain ⟨q, rest, rfl⟩ := List.exists_cons_of_ne_nil hne
    obtain ⟨r, hr⟩ : ∃ r, [','.toUInt8].intercalate ((q :: rest).map ItemText.bytes) ++
        [']'.toUInt8] = q.before ++ (q.text ++ r) := by
      cases rest with
      | nil => exact ⟨q.after ++ [']'.toUInt8], by simp [ItemText.bytes]⟩
      | cons q' rest =>
        rw [List.map_cons, intercalate_cons _ _ (by simp)]
        exact ⟨_, by simp only [ItemText.bytes, List.append_assoc]; rfl⟩
    rw [hr] at h1
    obtain ⟨b, t, htext, hb⟩ := (hitems q (by simp)).solid
    have hhead := (hitems q (by simp)).head_ne
    rw [skipWs_solid (hws q (by simp)).1 ⟨b, t ++ r, by rw [htext]; rfl, hb⟩ h1]
    rw [htext] at h1 hhead
    exact byteAt_eq_false h1.split.2.getElem? (by simpa using hhead)
  have hloop := arrayLoop_complete hne hws (fun q hq => (hitems q hq).solid) hp
    (s.length - skipWs s (i + 1)) [] h1 (by omega)
  simp only [parseArray, he, hclose, arrayLoop_skipWs, hloop]
  rfl

/-- An object of readable members with distinct keys is read. -/
theorem parseObject_complete {p : ValueParser} {ms : List MemberText} (hne : ms ≠ [])
    (hws : ∀ m ∈ ms, m.Spaced) (hkeys : ∀ m ∈ ms, StringText m.keyText m.key)
    (hvals : ∀ m ∈ ms, ValueText N room m.text m.value)
    (hp : ∀ m ∈ ms, ParsesAs s p m.text m.value)
    (hnodup : (ms.map fun m => nfc N m.key).Nodup)
    (h : Reads s i
      ('{'.toUInt8 :: [','.toUInt8].intercalate (ms.map MemberText.bytes) ++ ['}'.toUInt8]) j) :
    parseObject N s (some p) i = .ok (.obj (ms.map (MemberText.member N)), j) := by
  have he := expect_eq_ok_iff.mpr ⟨h.getElem?, rfl⟩
  have h1 : Reads s (i + 1)
      ([','.toUInt8].intercalate (ms.map MemberText.bytes) ++ ['}'.toUInt8]) j := h.tail
  have hclose : byteAt s (skipWs s (i + 1)) '}'.toUInt8 = false := by
    obtain ⟨m, rest, rfl⟩ := List.exists_cons_of_ne_nil hne
    obtain ⟨r, hr⟩ : ∃ r, [','.toUInt8].intercalate ((m :: rest).map MemberText.bytes) ++
        ['}'.toUInt8] = m.before ++ (m.keyText ++ r) := by
      cases rest with
      | nil => exact ⟨_, by simp only [List.map_cons, List.map_nil, List.intercalate_singleton,
          MemberText.bytes, List.append_assoc]; rfl⟩
      | cons m' rest =>
        rw [List.map_cons, intercalate_cons _ _ (by simp)]
        exact ⟨_, by simp only [MemberText.bytes, List.append_assoc]; rfl⟩
    rw [hr] at h1
    obtain ⟨t, htext⟩ := (hkeys m (by simp)).exists_cons
    rw [skipWs_solid (hws m (by simp)).1 ⟨_, t ++ r, by rw [htext]; rfl, by decide⟩ h1]
    rw [htext] at h1
    exact byteAt_eq_false h1.split.2.getElem? (by decide)
  obtain ⟨keys', hmap, hloop⟩ := objectLoop_complete (N := N) hne hws hkeys
    (fun m hm => (hvals m hm).solid) hp (s.length - skipWs s (i + 1)) [] [] h1 (by omega)
  simp only [parseObject, he, hclose, objectLoop_skipWs, hloop, List.nil_append]
  exact finishObject_eq_ok_iff.mpr ⟨by simpa [hmap] using hnodup, rfl, rfl, rfl⟩

/-- One level of `parse_value` over the parser of the level below. -/
theorem parseValue_succ (N : Normalizer) (s : List UInt8) (room : Nat) :
    parseValue N s (room + 1) = parseWith N s (some (parseValue N s room)) := rfl

/-- A value is read by one step over a reader of what is inside it. -/
theorem exists_parseValue_eq (N : Normalizer) (s : List UInt8) (room : Nat) :
    ∃ inner, parseValue N s room = parseWith N s inner := by
  cases room with
  | zero => exact ⟨none, rfl⟩
  | succ room => exact ⟨_, rfl⟩

/-- An integer is read where it ends. -/
theorem parseWith_int {inner : Option ValueParser} {n : Int64} (hw : IntText w n)
    (hr : Reads s i w j) (hj : ValueStop s j) : parseWith N s inner i = .ok (.int n, j) := by
  have hall : ∀ b ∈ '-'.toUInt8 :: digitBytes, b ≠ '{'.toUInt8 ∧ b ≠ '['.toUInt8 ∧
      b ≠ '"'.toUInt8 ∧ b ≠ 't'.toUInt8 ∧ b ≠ 'f'.toUInt8 ∧ b ≠ 'n'.toUInt8 ∧
      (b = '-'.toUInt8 || isDigit b) = true :=
    forall_mem_of_all (by decide)
  have hn := parseNumber_complete hw hr hj.numberStop
  obtain ⟨b, r, rfl, hb⟩ := hw.exists_cons
  obtain ⟨h1, h2, h3, h4, h5, h6, h7⟩ := hall b hb
  simp only [parseWith, hr.getElem?]
  rw [if_neg h1, if_neg h2, if_neg h3, if_neg h4, if_neg h5, if_neg h6, if_pos h7]
  simp only [hn]

/-- The parser consumes exactly a word of the grammar and returns what it denotes. -/
theorem parseValue_complete (h : ValueText N room w v) :
    ParsesAs s (parseValue N s room) w v := by
  induction h with
  | @null room =>
    intro i j hr _
    obtain ⟨inner, hp⟩ := exists_parseValue_eq N s room
    have hb : s[i]? = some 'n'.toUInt8 := Reads.getElem? (w := (bytes "null").tail) hr
    rw [hp, parseWith, hb]
    exact parseLiteral_eq_ok_iff.mpr ⟨rfl, hr⟩
  | @true room =>
    intro i j hr _
    obtain ⟨inner, hp⟩ := exists_parseValue_eq N s room
    have hb : s[i]? = some 't'.toUInt8 := Reads.getElem? (w := (bytes "true").tail) hr
    rw [hp, parseWith, hb]
    exact parseLiteral_eq_ok_iff.mpr ⟨rfl, hr⟩
  | @false room =>
    intro i j hr _
    obtain ⟨inner, hp⟩ := exists_parseValue_eq N s room
    have hb : s[i]? = some 'f'.toUInt8 := Reads.getElem? (w := (bytes "false").tail) hr
    rw [hp, parseWith, hb]
    exact parseLiteral_eq_ok_iff.mpr ⟨rfl, hr⟩
  | @int room w n hw =>
    intro i j hr hj
    obtain ⟨inner, hp⟩ := exists_parseValue_eq N s room
    rw [hp]
    exact parseWith_int hw hr hj
  | @str room w t hw =>
    intro i j hr _
    obtain ⟨inner, hp⟩ := exists_parseValue_eq N s room
    have hs := parseString_eq_ok_iff (N := N) |>.mpr ⟨w, t, hw, rfl, hr⟩
    obtain ⟨r, rfl⟩ := hw.exists_cons
    rw [hp, parseWith, hr.getElem?]
    simp only [hs]
    rfl
  | emptyArr hw =>
    intro i j hr _
    rw [parseValue_succ, parseWith, hr.getElem?]
    exact parseArray_empty _ hw hr
  | arr hne hws hitems ih =>
    intro i j hr _
    rw [parseValue_succ, parseWith, hr.getElem?]
    exact parseArray_complete hne hws hitems ih hr
  | emptyObj hw =>
    intro i j hr _
    rw [parseValue_succ, parseWith, hr.getElem?]
    exact parseObject_empty _ hw hr
  | obj hne hws hkeys hvals hnodup ih =>
    intro i j hr _
    rw [parseValue_succ, parseWith, hr.getElem?]
    exact parseObject_complete hne hws hkeys hvals ih hnodup hr

/-- A text ends after white space only. -/
theorem finishTopLevel_eq_ok_iff : finishTopLevel s j = .ok () ↔ skipWs s j = s.length := by
  unfold finishTopLevel
  split_ifs with h <;> simp_all

/-- Whitespace up to the end of the input. -/
theorem skipWs_eq_length_iff (hj : j ≤ s.length) :
    skipWs s j = s.length ↔ ∃ after, WsText after ∧ s.drop j = after := by
  constructor
  · intro h
    obtain ⟨w, hw, hr⟩ := skipWs_reads s j
    rw [h] at hr
    exact ⟨w, hw, by simpa using hr.1⟩
  · rintro ⟨after, hafter, rfl⟩
    have hr : Reads s j (s.drop j) s.length := ⟨by simp, by simp; omega⟩
    exact skipWs_eq hr hafter (by simp)

/-- The numeric route at byte zero is the one `parse_value` takes. -/
theorem parseDocument_eq (N : Normalizer) (s : List UInt8) :
    parseDocument N s =
      match parseValue N s maxDepth (skipWs s 0) with
      | .error e => .error e
      | .ok (v, j) =>
        match finishTopLevel s j with
        | .error e => .error e
        | .ok () => .ok v := by
  unfold parseDocument
  split_ifs with hnum
  · have hall : ∀ b ∈ '-'.toUInt8 :: digitBytes, b ∉ bytes " \t\n\r" ∧ b ≠ '{'.toUInt8 ∧
        b ≠ '['.toUInt8 ∧ b ≠ '"'.toUInt8 ∧ b ≠ 't'.toUInt8 ∧ b ≠ 'f'.toUInt8 ∧
        b ≠ 'n'.toUInt8 ∧ (b = '-'.toUInt8 || isDigit b) = true :=
      forall_mem_of_all (by decide)
    obtain ⟨b, hb, hs⟩ : ∃ b ∈ '-'.toUInt8 :: digitBytes, s[0]? = some b := by
      rcases (Bool.or_eq_true _ _).mp hnum with h | h
      · exact ⟨_, by simp, byteAt_iff.mp h⟩
      · obtain ⟨b, hb, hs⟩ := digitAt_iff.mp h
        exact ⟨b, by simp [hb], hs⟩
    obtain ⟨hws, h1, h2, h3, h4, h5, h6, h7⟩ := hall b hb
    have hskip : skipWs s 0 = 0 := by
      refine skipWs_eq (Reads.refl s 0) (by simp [WsText]) fun c hc => ?_
      obtain rfl := Option.some.inj (hs.symm.trans hc)
      exact hws
    obtain ⟨inner, hp⟩ := exists_parseValue_eq N s maxDepth
    rw [hskip, hp]
    simp only [parseWith, hs]
    rw [if_neg h1, if_neg h2, if_neg h3, if_neg h4, if_neg h5, if_neg h6, if_pos h7]
    cases parseNumber s 0 <;> rfl
  · rfl

/-- The accepted texts are exactly the documents of the grammar, and the value returned is
the one the text denotes. -/
theorem parseDocument_eq_ok_iff_document (N : Normalizer) (s : List UInt8) (v : CanonValue) :
    parseDocument N s = .ok v ↔ DocumentText N maxDepth s v := by
  rw [parseDocument_eq]
  constructor
  · intro h
    cases hv : parseValue N s maxDepth (skipWs s 0) with
    | error e => simp [hv] at h
    | ok r =>
      obtain ⟨x, j⟩ := r
      simp only [hv] at h
      cases hf : finishTopLevel s j with
      | error e => simp [hf] at h
      | ok u =>
        simp only [hf] at h
        obtain rfl := Except.ok.inj h
        obtain ⟨before, hbefore, hr1⟩ := skipWs_reads s 0
        obtain ⟨text, htext, hr2⟩ := parseValue_sound N s maxDepth _ _ _ hv
        have hlen : j ≤ s.length := by
          obtain ⟨b, r, rfl, -⟩ := htext.solid
          exact hr2.le_length
        obtain ⟨after, hafter, hr3⟩ :=
          (skipWs_eq_length_iff hlen).mp (finishTopLevel_eq_ok_iff.mp hf)
        refine ⟨before, text, after, hbefore, hafter, ?_, htext⟩
        rw [← hr3, ← List.append_assoc]
        exact (hr1.trans hr2).1
  · rintro ⟨before, text, after, hbefore, hafter, rfl, htext⟩
    generalize hs : before ++ (text ++ after) = s
    have hr : Reads s 0 (before ++ (text ++ after)) s.length := by
      subst hs
      exact ⟨by simp, by simp⟩
    obtain ⟨b, t, ht, hb⟩ := htext.solid
    have hskip := skipWs_solid hbefore ⟨b, t ++ after, by rw [ht]; rfl, hb⟩ hr
    obtain ⟨-, hr1⟩ := hr.split
    obtain ⟨hr2, hr3⟩ := hr1.split
    have hstop : ValueStop s (0 + before.length + text.length) := by
      intro c hc
      cases after with
      | nil =>
        have hj := hr3.2
        rw [List.length_nil, Nat.add_zero] at hj
        rw [← hj] at hc
        simp at hc
      | cons a r =>
        obtain rfl := Option.some.inj (hr3.getElem?.symm.trans hc)
        exact hafter.valueStop_mem (by simp)
    have hend : finishTopLevel s (0 + before.length + text.length) = .ok () :=
      finishTopLevel_eq_ok_iff.mpr (skipWs_eq hr3 hafter (by simp))
    simp only [hskip, parseValue_complete htext _ _ hr2 hstop, hend]

/-- Acceptance and denotation for every text: `parse` returns `v` exactly when the text is
one value of the grammar, nested at most `MAX_DEPTH` deep and surrounded by whitespace,
and `v` is what it denotes. -/
theorem parse_eq_ok_iff (N : Normalizer) (input : String) (v : CanonValue) :
    parse N input = .ok v ↔ DocumentText N maxDepth (bytes input) v :=
  parseDocument_eq_ok_iff_document N (bytes input) v

/-- The grammar is unambiguous: a word denotes one value. -/
theorem ValueText.unique {v' : CanonValue} (h : ValueText N room w v)
    (h' : ValueText N room w v') : v = v' := by
  have hr : Reads w 0 w w.length := ⟨by simp, by simp⟩
  have hstop : ValueStop w w.length := by simp [ValueStop]
  have hp := parseValue_complete h 0 _ hr hstop
  rw [parseValue_complete h' 0 _ hr hstop] at hp
  exact (Prod.mk.inj (Except.ok.inj hp)).1.symm

end Averin
