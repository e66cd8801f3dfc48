import Averin.Core.B64
import Averin.Core.Outcome

/-!
# Lenient base64url

The other side reads base64url with a decoder that skips line breaks and does not look at the
unused bits of a last group. What the strict decoder accepts it reads to the same bytes; of
all the texts it reads to some bytes, the strict decoder accepts the encoding and no other.
-/

namespace Averin

namespace B64

/-- One byte fewer than there are letters in the group; unused bits are dropped. -/
def lenientChunk (chunk : List UInt8) : Option (List UInt8) :=
  let value i := (chunk.getD i 0).toUInt32
  let n := value 0 <<< 18 ||| value 1 <<< 12 ||| value 2 <<< 6 ||| value 3
  if chunk.length = 1 then none
  else some ([(n >>> 16).toUInt8, (n >>> 8).toUInt8, n.toUInt8].take (chunk.length - 1))

/-- `base64.RawURLEncoding.DecodeString`. -/
def lenientDecode (s : String) : Option (List UInt8) := do
  let vals ← ((bytes s).filter fun c => c ≠ 10 && c ≠ 13).mapM val
  let groups ← (chunksFour vals).mapM lenientChunk
  return groups.flatten

theorem size_toArray_of_length {v : List UInt8} {n : Nat} (h : v.length = n) :
    v.toArray.size = n := by
  rw [List.size_toArray, h]

/-- The bytes of a text that the lenient decoder reads to exactly `n` of them. -/
def lenientFixed (n : Nat) (s : String) : Option (Vector UInt8 n) :=
  match lenientDecode s with
  | none => none
  | some v => if h : v.length = n then some ⟨v.toArray, size_toArray_of_length h⟩ else none

/-- A text is spelled as the encoder spells the `n` bytes it is read to. -/
def isSpelled (n : Nat) (s : String) : Bool :=
  (lenientFixed n s).any fun v => s = encode v.toList

theorem lt_of_val {b v : UInt8} (h : val b = some v) : v.toNat < 64 := by
  unfold val at h
  split_ifs at h <;> (simp only [UInt8.le_iff_toNat_le, UInt8.reduceToNat,
    Option.some.injEq, ← UInt8.toNat_inj, UInt8.toNat_add, UInt8.toNat_sub] at *; omega)

/-- A letter is the only byte with its value. -/
theorem utf8_letter_of_val {b v : UInt8} (h : val b = some v) : utf8 [letter v.toNat] = [b] := by
  have hall : ∀ n < 256, (val (.ofNat n)).all fun w =>
      utf8 [letter w.toNat] = [UInt8.ofNat n] := by decide +kernel
  have := hall b.toNat b.toNat_lt
  rw [UInt8.ofNat_toNat, h] at this
  exact of_decide_eq_true this

/-- The bytes of a number of 24 bits. -/
theorem toNat_bytes {n : UInt32} (h : n.toNat < 2 ^ 24) :
    (n >>> 16).toUInt8.toNat * 65536 + (n >>> 8).toUInt8.toNat * 256 + n.toUInt8.toNat =
      n.toNat := by
  simp only [UInt32.toNat_toUInt8, UInt32.toNat_shiftRight, UInt32.reduceToNat,
    Nat.shiftRight_eq_div_pow, Nat.reduceMod]
  omega

/-- Bits that a mask does not see are zero. -/
theorem mod_eq_zero_of_and {n m : UInt32} {k : Nat} (hm : m.toNat = 2 ^ k - 1)
    (h : n &&& m = 0) : n.toNat % 2 ^ k = 0 := by
  rw [← UInt32.toNat_inj, UInt32.toNat_and, hm, Nat.and_two_pow_sub_one_eq_mod] at h
  exact h

/-- The number a group of letters spells. -/
def chunkNat (chunk : List UInt8) : Nat :=
  (chunk.getD 0 0).toNat * 262144 + (chunk.getD 1 0).toNat * 4096 +
    (chunk.getD 2 0).toNat * 64 + (chunk.getD 3 0).toNat

/-- A missing letter counts as zero. -/
theorem getD_lt_of_forall {chunk : List UInt8} (h : ∀ v ∈ chunk, v.toNat < 64) (i : Nat) :
    (chunk.getD i 0).toNat < 64 := by
  rw [List.getD_eq_getElem?_getD]
  cases hi : chunk[i]? with
  | none => decide
  | some v => exact h v (List.mem_of_getElem? hi)

/-- A group that decodes has more than one letter, leaves its unused bits zero and gives the
bytes of its number. -/
theorem decodeChunk_cases {chunk g : List UInt8} (hsmall : ∀ v ∈ chunk, v.toNat < 64)
    (h : decodeChunk chunk = .ok g) :
    chunk.length ≠ 1 ∧ (chunk.length = 2 → chunkNat chunk % 65536 = 0) ∧
      (chunk.length = 3 → chunkNat chunk % 256 = 0) ∧
        ∃ x y z : UInt8, g = [x, y, z].take (chunk.length - 1) ∧
          x.toNat * 65536 + y.toNat * 256 + z.toNat = chunkNat chunk := by
  have hlt := getD_lt_of_forall hsmall
  have hn := toNat_four (hlt 0) (hlt 1) (hlt 2) (hlt 3)
  simp only [UInt8.ofNat_toNat] at hn
  have hchunk := hn
  rw [← chunkNat] at hchunk
  have h0 := hlt 0
  have h1 := hlt 1
  have h2 := hlt 2
  have h3 := hlt 3
  unfold decodeChunk at h
  dsimp only at h
  split_ifs at h with hone hzero
  refine ⟨hone, ?_, ?_, _, _, _, (Except.ok.inj h).symm, ?_⟩
  · intro hlen
    rw [← hchunk]
    exact mod_eq_zero_of_and (k := 16) rfl
      (Decidable.byContradiction fun hne => hzero (.inl ⟨hlen, hne⟩))
  · intro hlen
    rw [← hchunk]
    exact mod_eq_zero_of_and (k := 8) rfl
      (Decidable.byContradiction fun hne => hzero (.inr ⟨hlen, hne⟩))
  · rw [toNat_bytes (by omega), hchunk]

/-- The bytes of a group of letters give the letters back. -/
theorem sixBits_of_decodeChunk {chunk g : List UInt8} (hlen : chunk.length ≤ 4) (hne : chunk ≠ [])
    (hsmall : ∀ v ∈ chunk, v.toNat < 64) (h : decodeChunk chunk = .ok g) :
    g.length + 1 = chunk.length ∧ sixBits g = chunk.map UInt8.toNat := by
  obtain ⟨hone, htwo, hthree, x, y, z, rfl, hnat⟩ := decodeChunk_cases hsmall h
  have hy := y.toNat_lt
  have hz := z.toNat_lt
  clear h
  rcases chunk with _ | ⟨p, _ | ⟨q, _ | ⟨r, _ | ⟨s, _ | ⟨t, rest⟩⟩⟩⟩⟩
  · exact absurd rfl hne
  · exact absurd rfl hone
  · -- two letters, one byte
    have hp := hsmall p (by simp)
    have hq := hsmall q (by simp)
    have hmod := htwo rfl
    simp only [chunkNat, List.getD_cons_zero, List.getD_cons_succ, List.getD_nil,
      UInt8.toNat_zero] at hmod hnat
    refine ⟨rfl, ?_⟩
    simp only [sixBits, List.length_cons, List.length_nil, List.take_succ_cons, List.take_zero,
      List.getD_cons_zero, List.getD_cons_succ, List.getD_nil, UInt8.toNat_zero, List.map_cons,
      List.map_nil, Nat.add_sub_cancel, Nat.zero_add, List.cons.injEq, and_true]
    omega
  · -- three letters, two bytes
    have hp := hsmall p (by simp)
    have hq := hsmall q (by simp)
    have hr := hsmall r (by simp)
    have hmod := hthree rfl
    simp only [chunkNat, List.getD_cons_zero, List.getD_cons_succ, List.getD_nil,
      UInt8.toNat_zero] at hmod hnat
    refine ⟨rfl, ?_⟩
    simp only [sixBits, List.length_cons, List.length_nil, List.take_succ_cons, List.take_zero,
      List.getD_cons_zero, List.getD_cons_succ, List.getD_nil, UInt8.toNat_zero, List.map_cons,
      List.map_nil, Nat.add_sub_cancel, Nat.zero_add, List.cons.injEq, and_true]
    omega
  · -- a full group
    have hp := hsmall p (by simp)
    have hq := hsmall q (by simp)
    have hr := hsmall r (by simp)
    have hs := hsmall s (by simp)
    simp only [chunkNat, List.getD_cons_zero, List.getD_cons_succ] at hnat
    refine ⟨rfl, ?_⟩
    simp only [sixBits, List.length_cons, List.length_nil, List.take_succ_cons, List.take_zero,
      List.getD_cons_zero, List.getD_cons_succ, List.map_cons, List.map_nil, Nat.add_sub_cancel,
      Nat.zero_add, List.cons.injEq, and_true]
    omega
  · simp only [List.length_cons] at hlen
    omega

/-- The groups of the letters are those of the bytes. -/
theorem flatMap_sixBits {vals : List UInt8} {groups : List (List UInt8)}
    (hsmall : ∀ v ∈ vals, v.toNat < 64) (h : (chunksFour vals).mapM decodeChunk = .ok groups) :
    (chunksThree groups.flatten).flatMap sixBits = vals.map UInt8.toNat := by
  induction vals using chunksFour.induct generalizing groups with
  | case1 =>
    obtain rfl := Except.ok.inj h
    rfl
  | case2 p q r s rest ih =>
    rw [chunksFour, List.mapM_cons, bind_eq_ok_iff] at h
    obtain ⟨g, hg, h⟩ := h
    rw [bind_eq_ok_iff] at h
    obtain ⟨gs, hgs, h⟩ := h
    obtain rfl := Except.ok.inj h
    have hfour : ∀ v ∈ [p, q, r, s], v.toNat < 64 := by
      intro v hv
      exact hsmall v (List.mem_append_left rest hv)
    obtain ⟨hlen, hsix⟩ := sixBits_of_decodeChunk le_rfl (List.cons_ne_nil _ _) hfour hg
    obtain ⟨a, b, c, rfl⟩ : ∃ a b c, g = [a, b, c] :=
      List.length_eq_three.mp (Nat.succ.inj hlen)
    have hrest := ih (fun v hv => hsmall v (by simp [hv])) hgs
    rw [List.flatten_cons]
    show (chunksThree (a :: b :: c :: gs.flatten)).flatMap sixBits = _
    rw [chunksThree, List.flatMap_cons, hsix, hrest]
    rfl
  | case3 rest hne hlong =>
    have hshort : rest.length ≤ 3 ∧ chunksFour rest = [rest] := by
      rcases rest with _ | ⟨a, _ | ⟨b, _ | ⟨c, _ | ⟨d, rest⟩⟩⟩⟩
      · exact absurd rfl hne
      · exact ⟨by simp, rfl⟩
      · exact ⟨by simp, rfl⟩
      · exact ⟨by simp, rfl⟩
      · exact absurd rfl (hlong a b c d rest)
    obtain ⟨hlen, hgroups⟩ := hshort
    rw [hgroups, List.mapM_cons, bind_eq_ok_iff] at h
    obtain ⟨g, hg, h⟩ := h
    have hgs : groups = [g] := (Except.ok.inj h).symm
    obtain ⟨hlen', hsix⟩ := sixBits_of_decodeChunk (by omega) hne hsmall hg
    have hone := (decodeChunk_cases hsmall hg).1
    have hchunk : chunksThree g = [g] := by
      clear hg hsix h hgs
      rcases g with _ | ⟨a, _ | ⟨b, _ | ⟨c, g⟩⟩⟩
      · exact absurd hlen'.symm hone
      · rfl
      · rfl
      · simp only [List.length_cons] at hlen'
        omega
    rw [hgs, List.flatten_cons, List.flatten_nil, List.append_nil, hchunk,
      List.flatMap_singleton, hsix]

/-- The letters of a text and the values they stand for. -/
theorem bytes_of_mapM_val {bs vals : List UInt8}
    (h : bs.mapM (fun c => ((val c).map Except.ok).getD (.error (DecodeError.invalidChar c))) =
      .ok vals) :
    (∀ v ∈ vals, v.toNat < 64) ∧ utf8 ((vals.map UInt8.toNat).map letter) = bs ∧
      bs.mapM val = some vals := by
  induction bs generalizing vals with
  | nil =>
    obtain rfl := Except.ok.inj h
    exact ⟨by simp, rfl, rfl⟩
  | cons b bs ih =>
    rw [List.mapM_cons, bind_eq_ok_iff] at h
    obtain ⟨v, hv, h⟩ := h
    rw [bind_eq_ok_iff] at h
    obtain ⟨vs, hvs, h⟩ := h
    obtain rfl := Except.ok.inj h
    have hval : val b = some v := by
      cases hb : val b with
      | none => rw [hb] at hv; cases hv
      | some w => rw [hb] at hv; exact congrArg some (Except.ok.inj hv)
    obtain ⟨hsmall, hbytes, hmap⟩ := ih hvs
    refine ⟨List.forall_mem_cons.mpr ⟨lt_of_val hval, hsmall⟩, ?_, ?_⟩
    · have hletter := utf8_letter_of_val hval
      rw [utf8_cons, utf8_nil, List.append_nil] at hletter
      rw [List.map_cons, List.map_cons, utf8_cons, hletter, hbytes]
      rfl
    · rw [List.mapM_cons, hval, hmap]
      rfl

/-- A text decodes to some bytes exactly if it is their encoding. -/
theorem decode_eq_ok_iff {s : String} {v : List UInt8} : decode s = .ok v ↔ s = encode v := by
  constructor
  · intro h
    rw [decode, bind_eq_ok_iff] at h
    obtain ⟨vals, hvals, h⟩ := h
    rw [bind_eq_ok_iff] at h
    obtain ⟨groups, hgroups, h⟩ := h
    obtain rfl := Except.ok.inj h
    obtain ⟨hsmall, hbytes, -⟩ := bytes_of_mapM_val hvals
    rw [encode_eq, flatMap_sixBits hsmall hgroups]
    apply bytes_injective
    rw [bytes_ofList, hbytes]
  · rintro rfl
    exact decode_encode v

/-- Where all letters are read, each has a value. -/
theorem mapM_eq_some_mem {bs vals : List UInt8} {b : UInt8} (h : bs.mapM val = some vals)
    (hb : b ∈ bs) : ∃ v, val b = some v := by
  induction bs generalizing vals with
  | nil => cases hb
  | cons a bs ih =>
    rw [List.mapM_cons, Option.bind_eq_bind, Option.bind_eq_some_iff] at h
    obtain ⟨v, hv, h⟩ := h
    rw [Option.bind_eq_bind, Option.bind_eq_some_iff] at h
    obtain ⟨vs, hvs, -⟩ := h
    rcases List.mem_cons.mp hb with rfl | hb
    · exact ⟨v, hv⟩
    · exact ih hvs hb

/-- What the strict reader takes the lenient one takes too. -/
theorem lenientChunk_of_decodeChunk {chunk g : List UInt8} (h : decodeChunk chunk = .ok g) :
    lenientChunk chunk = some g := by
  unfold decodeChunk at h
  dsimp only at h
  split_ifs at h with hone hzero
  unfold lenientChunk
  dsimp only
  rw [if_neg hone, Except.ok.inj h]

/-- What the strict decoder accepts the lenient one reads to the same bytes. -/
theorem lenientDecode_of_decode {s : String} {v : List UInt8} (h : decode s = .ok v) :
    lenientDecode s = some v := by
  rw [decode, bind_eq_ok_iff] at h
  obtain ⟨vals, hvals, h⟩ := h
  rw [bind_eq_ok_iff] at h
  obtain ⟨groups, hgroups, h⟩ := h
  obtain rfl := Except.ok.inj h
  obtain ⟨-, -, hmap⟩ := bytes_of_mapM_val hvals
  have hkeep : (bytes s).filter (fun c => c ≠ 10 && c ≠ 13) = bytes s := by
    apply List.filter_eq_self.mpr
    intro b hb
    obtain ⟨w, hw⟩ := mapM_eq_some_mem hmap hb
    rw [Bool.and_eq_true, decide_eq_true_eq, decide_eq_true_eq]
    constructor
    · rintro rfl
      exact absurd (hw.symm.trans (show val 10 = none by decide)) (Option.some_ne_none w)
    · rintro rfl
      exact absurd (hw.symm.trans (show val 13 = none by decide)) (Option.some_ne_none w)
  have hgroups' : ∀ (cs : List (List UInt8)) (gs : List (List UInt8)),
      cs.mapM decodeChunk = .ok gs → cs.mapM lenientChunk = some gs := by
    intro cs
    induction cs with
    | nil => exact fun gs h => congrArg some (Except.ok.inj h)
    | cons c cs ih =>
      intro gs h
      rw [List.mapM_cons, bind_eq_ok_iff] at h
      obtain ⟨g, hg, h⟩ := h
      rw [bind_eq_ok_iff] at h
      obtain ⟨gs', hgs, h⟩ := h
      obtain rfl := Except.ok.inj h
      rw [List.mapM_cons, lenientChunk_of_decodeChunk hg, ih _ hgs]
      rfl
  rw [lenientDecode, hkeep, hmap]
  show (do
    let groups ← (chunksFour vals).mapM lenientChunk
    return groups.flatten) = some groups.flatten
  rw [hgroups' _ _ hgroups]
  rfl

/-- The lenient reader gives the bytes of the length that is asked for. -/
theorem lenientFixed_eq_some_iff {n : Nat} {s : String} {v : Vector UInt8 n} :
    lenientFixed n s = some v ↔ lenientDecode s = some v.toList := by
  unfold lenientFixed
  cases h : lenientDecode s with
  | none => simp
  | some w =>
    dsimp only
    split_ifs with hlen
    · rw [Option.some.injEq, Option.some.injEq]
      constructor
      · rintro rfl
        simp [Vector.toList]
      · rintro rfl
        simp [Vector.toList]
    · simp only [Option.some.injEq, false_iff]
      rintro rfl
      exact hlen (by simp)

/-- The strict reader takes just the text that is written. -/
theorem decodeFixed_eq_some_iff {n : Nat} {s : String} {v : Vector UInt8 n} :
    decodeFixed n s = some v ↔ s = encode v.toList := by
  constructor
  · intro h
    unfold decodeFixed at h
    cases hs : decode s with
    | error e => rw [hs] at h; cases h
    | ok w =>
      rw [hs] at h
      dsimp only at h
      split_ifs at h with hlen
      obtain rfl := Option.some.inj h
      rw [decode_eq_ok_iff.mp hs]
      simp [Vector.toList]
  · rintro rfl
    exact decodeFixed_encode v

/-- A text without its line breaks. -/
def withoutBreaks (s : String) : String := .ofList (s.toList.filter fun c => c ≠ '\n' && c ≠ '\r')

/-- `base64.RawURLEncoding.Strict().DecodeString` to exactly `n` bytes: unused bits are checked, and
line breaks are skipped all the same. -/
def strictFixed (n : Nat) (s : String) : Option (Vector UInt8 n) := decodeFixed n (withoutBreaks s)

/-- A text holds letters of the alphabet only. -/
theorem mem_encode {input : List UInt8} {c : Char} (h : c ∈ (encode input).toList) :
    ∃ n < 64, c = letter n := by
  rw [encode_eq, String.toList_ofList] at h
  obtain ⟨n, hn, rfl⟩ := List.mem_map.mp h
  obtain ⟨chunk, -, hmem⟩ := List.mem_flatMap.mp hn
  exact ⟨n, mem_sixBits hmem, rfl⟩

theorem letter_ne_break {n : Nat} (h : n < 64) : letter n ≠ '\n' ∧ letter n ≠ '\r' := by
  have hall : ∀ m < 64, letter m ≠ '\n' ∧ letter m ≠ '\r' := by decide +kernel
  exact hall n h

/-- The encoder writes no line break. -/
theorem withoutBreaks_encode (input : List UInt8) :
    withoutBreaks (encode input) = encode input := by
  have hkeep : (encode input).toList.filter (fun c => c ≠ '\n' && c ≠ '\r') =
      (encode input).toList := by
    apply List.filter_eq_self.mpr
    intro c hc
    obtain ⟨n, hn, rfl⟩ := mem_encode hc
    simpa using letter_ne_break hn
  rw [withoutBreaks, hkeep, String.ofList_toList]

/-- What is written passes the strict reader. -/
theorem strictFixed_encode {n : Nat} (v : Vector UInt8 n) :
    strictFixed n (encode v.toList) = some v := by
  rw [strictFixed, withoutBreaks_encode, decodeFixed_encode]

/-- Of what is read up to line breaks, the strict decoder reads what has none, to the same bytes. -/
theorem decodeFixed_of_strictFixed {n : Nat} {s : String} {v w : Vector UInt8 n}
    (h : strictFixed n s = some v) : decodeFixed n s = some w ↔ withoutBreaks s = s ∧ w = v := by
  constructor
  · intro hw
    have henc := decodeFixed_eq_some_iff.mp hw
    have hbreaks : withoutBreaks s = s := by
      rw [henc]
      exact withoutBreaks_encode w.toList
    rw [strictFixed, hbreaks, hw] at h
    exact ⟨hbreaks, Option.some.inj h⟩
  · rintro ⟨hbreaks, rfl⟩
    rw [strictFixed, hbreaks] at h
    exact h

/-- Line breaks are dropped part by part. -/
theorem withoutBreaks_append (s t : String) :
    withoutBreaks (s ++ t) = withoutBreaks s ++ withoutBreaks t := by
  rw [withoutBreaks, String.toList_append, List.filter_append, String.ofList_append]
  rfl

/-- A text behind a prefix without line breaks has none if the whole has none. -/
theorem withoutBreaks_append_eq_self_iff {pre s : String} (hpre : withoutBreaks pre = pre) :
    withoutBreaks (pre ++ s) = pre ++ s ↔ withoutBreaks s = s := by
  rw [withoutBreaks_append, hpre]
  constructor
  · intro h
    have hlist := congrArg String.toList h
    rw [String.toList_append, String.toList_append] at hlist
    exact String.toList_inj.mp (List.append_cancel_left hlist)
  · intro h
    rw [h]

end B64

end Averin
