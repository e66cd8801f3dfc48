import Averin.Canon.Strings

/-!
# Accepted texts are grammatical

Whatever the value parser returns is a word of the grammar read from the cursor, with
the value that word denotes. The two container loops are handled for an arbitrary inner
parser, so the nesting induction only ties the knot.
-/

namespace Averin

variable {N : Normalizer} {s w : List UInt8} {i j room : Nat} {v : CanonValue}

/-- The values `p` returns are words of the grammar at depth `room`. -/
def SoundParser (N : Normalizer) (s : List UInt8) (room : Nat) (p : ValueParser) : Prop :=
  ∀ i v j, p i = .ok (v, j) → ∃ w, ValueText N room w v ∧ Reads s i w j

/-- Joining one more word in front of a nonempty list of words. -/
theorem intercalate_cons {α : Type*} (sep a : List α) {l : List (List α)} (h : l ≠ []) :
    sep.intercalate (a :: l) = a ++ (sep ++ sep.intercalate l) := by
  obtain ⟨b, l, rfl⟩ := List.exists_cons_of_ne_nil h
  rw [List.intercalate_cons_cons, List.append_assoc]

/-- What the loop reads is a list of items. -/
theorem arrayLoop_sound {p : ValueParser} (hp : SoundParser N s room p) {fuel : Nat}
    {acc : List CanonValue} (h : arrayLoop s p fuel i acc = .ok (v, j)) :
    ∃ items : List ItemText, items ≠ [] ∧ (∀ p ∈ items, WsText p.before ∧ WsText p.after) ∧
      (∀ p ∈ items, ValueText N room p.text p.value) ∧
      v = .arr (acc ++ items.map (·.value)) ∧
      Reads s i ([','.toUInt8].intercalate (items.map ItemText.bytes) ++ [']'.toUInt8]) j := by
  induction fuel generalizing i acc with
  | zero => cases h
  | succ fuel ih =>
    rw [arrayLoop] at h
    cases hi : p (skipWs s i) with
    | error e => simp [hi] at h
    | ok r =>
      obtain ⟨x, k⟩ := r
      simp only [hi] at h
      obtain ⟨before, hbefore, hr1⟩ := skipWs_reads s i
      obtain ⟨text, htext, hr2⟩ := hp _ _ _ hi
      obtain ⟨after, hafter, hr3⟩ := skipWs_reads s k
      have hread := hr1.trans (hr2.trans hr3)
      split_ifs at h with hcomma hclose
      · obtain ⟨items, hne, hws, hitems, rfl, hrest⟩ := ih h
        refine ⟨⟨before, text, after, x⟩ :: items, by simp, ?_, ?_, by simp, ?_⟩
        · simpa using ⟨⟨hbefore, hafter⟩, hws⟩
        · simpa using ⟨htext, hitems⟩
        · have hcr := hread.trans (Reads.cons (byteAt_iff.mp hcomma) hrest)
          rw [List.map_cons, intercalate_cons _ _ (by simpa using hne)]
          simpa [ItemText.bytes] using hcr
      · obtain ⟨rfl, rfl⟩ := Prod.mk.inj (Except.ok.inj h)
        refine ⟨[⟨before, text, after, x⟩], by simp, ?_, ?_, by simp, ?_⟩
        · simpa using ⟨hbefore, hafter⟩
        · simpa using htext
        · simpa [ItemText.bytes] using hread.trans (Reads.of_getElem? (byteAt_iff.mp hclose))

/-- The loop skips whitespace itself, so skipping it beforehand changes nothing. -/
theorem arrayLoop_skipWs (s : List UInt8) (p : ValueParser) (fuel i : Nat)
    (acc : List CanonValue) :
    arrayLoop s p fuel (skipWs s i) acc = arrayLoop s p fuel i acc := by
  cases fuel <;> simp only [arrayLoop, skipWs_skipWs]

/-- What is read as an array is one. -/
theorem parseArray_sound {p : ValueParser} (hp : SoundParser N s room p)
    (h : parseArray s (some p) i = .ok (v, j)) :
    ∃ w, ValueText N (room + 1) w v ∧ Reads s i w j := by
  unfold parseArray at h
  cases he : expect s i '['.toUInt8 with
  | error e => simp [he] at h
  | ok k =>
    simp only [he, arrayLoop_skipWs] at h
    obtain ⟨hopen, rfl⟩ := expect_eq_ok_iff.mp he
    split_ifs at h with hclose
    · obtain ⟨rfl, rfl⟩ := Prod.mk.inj (Except.ok.inj h)
      obtain ⟨ws, hws, hr⟩ := skipWs_reads s (i + 1)
      exact ⟨_, .emptyArr hws,
        Reads.cons hopen (hr.trans (Reads.of_getElem? (byteAt_iff.mp hclose)))⟩
    · obtain ⟨items, hne, hws, hitems, rfl, hrest⟩ := arrayLoop_sound hp h
      exact ⟨_, .arr hne hws hitems, Reads.cons hopen hrest⟩

/-- The loop may begin before white space. -/
theorem objectLoop_skipWs (N : Normalizer) (s : List UInt8) (p : ValueParser) (fuel i : Nat)
    (members : List (String × CanonValue)) (keys : List (String × Nat)) :
    objectLoop N s p fuel (skipWs s i) members keys = objectLoop N s p fuel i members keys := by
  cases fuel <;> simp only [objectLoop, skipWs_skipWs]

/-- A scan that ends without a fault has read whole members up to the closing brace. -/
theorem objectLoop_sound {p : ValueParser} (hp : SoundParser N s room p) {fuel : Nat}
    {members : List (String × CanonValue)} {keys : List (String × Nat)} {scan : ObjectScan}
    (h : objectLoop N s p fuel i members keys = scan) (hf : scan.fault = none) :
    ∃ ms : List MemberText, ms ≠ [] ∧ (∀ m ∈ ms, m.Spaced) ∧
      (∀ m ∈ ms, StringText m.keyText m.key) ∧ (∀ m ∈ ms, ValueText N room m.text m.value) ∧
      scan.members = members ++ ms.map (MemberText.member N) ∧
      scan.keys.map Prod.fst = keys.map Prod.fst ++ ms.map (fun m => nfc N m.key) ∧
      Reads s i ([','.toUInt8].intercalate (ms.map MemberText.bytes) ++ ['}'.toUInt8]) scan.i := by
  induction fuel generalizing i members keys with
  | zero =>
    subst h
    cases hf
  | succ fuel ih =>
    rw [objectLoop] at h
    split_ifs at h with hquote
    · subst h
      cases hf
    cases hk : parseString N s (skipWs s i) with
    | error e =>
      simp only [hk] at h
      subst h
      cases hf
    | ok r =>
      obtain ⟨key, k⟩ := r
      simp only [hk] at h
      cases he : expect s (skipWs s k) ':'.toUInt8 with
      | error e =>
        simp only [he] at h
        subst h
        cases hf
      | ok l =>
        simp only [he] at h
        cases hi : p (skipWs s l) with
        | error e =>
          simp only [hi] at h
          subst h
          cases hf
        | ok r =>
          obtain ⟨x, e⟩ := r
          simp only [hi] at h
          obtain ⟨before, hbefore, hr1⟩ := skipWs_reads s i
          obtain ⟨keyText, rawKey, hkey, rfl, hr2⟩ := parseString_eq_ok_iff.mp hk
          obtain ⟨afterKey, hafterKey, hr3⟩ := skipWs_reads s k
          obtain ⟨hcolon, rfl⟩ := expect_eq_ok_iff.mp he
          obtain ⟨beforeValue, hbeforeValue, hr4⟩ := skipWs_reads s (skipWs s k + 1)
          obtain ⟨text, htext, hr5⟩ := hp _ _ _ hi
          obtain ⟨after, hafter, hr6⟩ := skipWs_reads s e
          let m : MemberText :=
            ⟨before, keyText, afterKey, beforeValue, text, after, rawKey, x⟩
          have hsp : m.Spaced := ⟨hbefore, hafterKey, hbeforeValue, hafter⟩
          have hread : Reads s i m.bytes (skipWs s e) :=
            hr1.trans (hr2.trans (hr3.trans (Reads.cons hcolon (hr4.trans (hr5.trans hr6)))))
          split_ifs at h with hcomma hclose
          · obtain ⟨ms, hne, hws, hkeys, hvals, hmem, hkl, hrest⟩ := ih h
            refine ⟨m :: ms, by simp, ?_, ?_, ?_, ?_, ?_, ?_⟩
            · simpa using ⟨hsp, hws⟩
            · simpa using ⟨hkey, hkeys⟩
            · simpa using ⟨htext, hvals⟩
            · simpa [MemberText.member, m] using hmem
            · simpa [m] using hkl
            · rw [List.map_cons, intercalate_cons _ _ (by simpa using hne)]
              simpa using hread.trans (Reads.cons (byteAt_iff.mp hcomma) hrest)
          · subst h
            refine ⟨[m], by simp, ?_, ?_, ?_, by simp [MemberText.member, m], by simp [m], ?_⟩
            · simpa using hsp
            · simpa using hkey
            · simpa using htext
            · simpa using hread.trans (Reads.of_getElem? (byteAt_iff.mp hclose))
          · subst h
            cases hf

/-- The duplicate test passes exactly on pairwise distinct keys. -/
theorem getElem?_firstRepeat_eq_none_iff (keys : List (String × Nat)) :
    keys[firstRepeat (keys.map fun k => widen (bytes k.1))]? = none ↔
      (keys.map Prod.fst).Nodup := by
  have hinj : Function.Injective fun t => widen (bytes t) :=
    widen_injective.comp bytes_injective
  have hmap : (keys.map fun k => widen (bytes k.1)) =
      (keys.map Prod.fst).map fun t => widen (bytes t) := by simp
  have hlt := firstRepeat_lt_iff (keys.map fun k => widen (bytes k.1))
  rw [List.getElem?_eq_none_iff, ← not_lt, ← List.length_map (fun k => widen (bytes k.1)), hlt,
    not_not, hmap, List.nodup_map_iff hinj]

/-- An object is taken if its keys are distinct and nothing failed. -/
theorem finishObject_eq_ok_iff {scan : ObjectScan} :
    finishObject scan = .ok (v, j) ↔
      (scan.keys.map Prod.fst).Nodup ∧ scan.fault = none ∧ v = .obj scan.members ∧
        j = scan.i := by
  rw [← getElem?_firstRepeat_eq_none_iff]
  unfold finishObject
  cases hd : scan.keys[firstRepeat (scan.keys.map fun k => widen (bytes k.1))]? with
  | some k => simp [hd]
  | none =>
    cases hf : scan.fault with
    | some e => simp [hd]
    | none => simp [hd, eq_comm]

/-- What is read as an object is one. -/
theorem parseObject_sound {p : ValueParser} (hp : SoundParser N s room p)
    (h : parseObject N s (some p) i = .ok (v, j)) :
    ∃ w, ValueText N (room + 1) w v ∧ Reads s i w j := by
  unfold parseObject at h
  cases he : expect s i '{'.toUInt8 with
  | error e => simp [he] at h
  | ok k =>
    simp only [he, objectLoop_skipWs] at h
    obtain ⟨hopen, rfl⟩ := expect_eq_ok_iff.mp he
    split_ifs at h with hclose
    · obtain ⟨rfl, rfl⟩ := Prod.mk.inj (Except.ok.inj h)
      obtain ⟨ws, hws, hr⟩ := skipWs_reads s (i + 1)
      exact ⟨_, .emptyObj hws,
        Reads.cons hopen (hr.trans (Reads.of_getElem? (byteAt_iff.mp hclose)))⟩
    · obtain ⟨hnodup, hfault, rfl, rfl⟩ := finishObject_eq_ok_iff.mp h
      obtain ⟨ms, hne, hws, hkeys, hvals, hmem, hkl, hrest⟩ := objectLoop_sound hp rfl hfault
      rw [hkl] at hnodup
      rw [hmem]
      exact ⟨_, .obj hne hws hkeys hvals hnodup, Reads.cons hopen hrest⟩

/-- The dispatch, for any inner parser one level down. -/
theorem parseWith_sound {inner : Option ValueParser}
    (hi : ∀ p ∈ inner, ∃ r, room = r + 1 ∧ SoundParser N s r p) :
    SoundParser N s room (parseWith N s inner) := by
  intro i v j h
  unfold parseWith at h
  cases hb : s[i]? with
  | none => simp [hb] at h
  | some b =>
    simp only [hb] at h
    split_ifs at h with hobj harr hstr htrue hfalse hnull hnum
    · cases inner with
      | none => simp [parseObject, expect, byteAt, hb, hobj] at h
      | some p =>
        obtain ⟨r, rfl, hp⟩ := hi p rfl
        exact parseObject_sound hp h
    · cases inner with
      | none => simp [parseArray, expect, byteAt, hb, harr] at h
      | some p =>
        obtain ⟨r, rfl, hp⟩ := hi p rfl
        exact parseArray_sound hp h
    · cases hs : parseString N s i with
      | error e => simp [hs] at h
      | ok r =>
        obtain ⟨t, k⟩ := r
        simp only [hs] at h
        obtain ⟨rfl, rfl⟩ := Prod.mk.inj (Except.ok.inj h)
        obtain ⟨w, r, hw, rfl, hr⟩ := parseString_eq_ok_iff.mp hs
        exact ⟨w, .str hw, hr⟩
    · obtain ⟨rfl, hr⟩ := parseLiteral_eq_ok_iff.mp h
      exact ⟨_, .true, hr⟩
    · obtain ⟨rfl, hr⟩ := parseLiteral_eq_ok_iff.mp h
      exact ⟨_, .false, hr⟩
    · obtain ⟨rfl, hr⟩ := parseLiteral_eq_ok_iff.mp h
      exact ⟨_, .null, hr⟩
    · cases hn : parseNumber s i with
      | error e => simp [hn] at h
      | ok r =>
        obtain ⟨n, k⟩ := r
        simp only [hn] at h
        obtain ⟨rfl, rfl⟩ := Prod.mk.inj (Except.ok.inj h)
        obtain ⟨w, hw, hr⟩ := parseNumber_sound hn
        exact ⟨w, .int hw, hr⟩

/-- What is read as a value is one. -/
theorem parseValue_sound (N : Normalizer) (s : List UInt8) (room : Nat) :
    SoundParser N s room (parseValue N s room) := by
  induction room with
  | zero => exact parseWith_sound (by simp)
  | succ room ih => exact parseWith_sound (by simpa using ih)

end Averin
