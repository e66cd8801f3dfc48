import Averin.Canon.Sort

/-!
# The canonical serializer

Bytes are only ever appended, so a value is written as the bytes it contributes and
one flag: whether every object inside it has distinct keys after normalization. The
members of an object are written one by one and then put in UTF-16 key order.
-/

namespace Averin

/-- What writing a value appends, and whether no object in it repeats a key. -/
structure Written where
  bytes : List UInt8
  unique : Bool
  deriving Inhabited, DecidableEq, Repr

/-- The digit of a number below sixteen. -/
def hexDigit (n : UInt8) : UInt8 :=
  if n < 10 then '0'.toUInt8 + n else 'a'.toUInt8 + (n - 10)

/-- The escape of one byte of a string; bytes above the controls are copied. -/
def escapeByte (b : UInt8) : List UInt8 :=
  if b = '"'.toUInt8 then bytes "\\\""
  else if b = '\\'.toUInt8 then bytes "\\\\"
  else if b = 0x08 then bytes "\\b"
  else if b = 0x09 then bytes "\\t"
  else if b = 0x0A then bytes "\\n"
  else if b = 0x0C then bytes "\\f"
  else if b = 0x0D then bytes "\\r"
  else if b ≤ 0x1F then bytes "\\u00" ++ [hexDigit (b >>> 4), hexDigit (b &&& 0xF)]
  else [b]

/-- A string literal with minimal escaping. -/
def escapeInto (s : List UInt8) : List UInt8 :=
  '"'.toUInt8 :: s.flatMap escapeByte ++ ['"'.toUInt8]

/-- The digit loop of `write_int`, filling a buffer of `room` bytes from the right. -/
def writeDigits : (room : Nat) → (u : Nat) → List UInt8 → List UInt8
  | 0, _, digits => digits
  | room + 1, u, digits =>
    if u / 10 = 0 then ('0'.toUInt8 + .ofNat (u % 10)) :: digits
    else writeDigits room (u / 10) (('0'.toUInt8 + .ofNat (u % 10)) :: digits)

/-- The shortest decimal form, with `-` for negatives. The magnitude is taken as
`-(n + 1) + 1`, which cannot overflow at the least integer. -/
def writeInt (n : Int64) : List UInt8 :=
  if n.toInt < 0 then '-'.toUInt8 :: writeDigits 20 ((-(n.toInt + 1)).toNat + 1) []
  else writeDigits 20 n.toInt.toNat []

/-- An array of written items. -/
def writeArray (items : List Written) : Written where
  bytes := '['.toUInt8 :: [','.toUInt8].intercalate (items.map (·.bytes)) ++ [']'.toUInt8]
  unique := items.all (·.unique)

/-- One member: its escaped key, a colon, and the value. -/
def writeMember (m : String × Written) : List UInt8 :=
  escapeInto (bytes m.1) ++ ':'.toUInt8 :: m.2.bytes

/-- An object of the given members, whose values are already written: keys are
normalized, sorted by their code units, and compared with their neighbours. -/
def writeMembers (N : Normalizer) (members : List (String × Written)) : Written :=
  let kept := members.map fun m => (nfc N m.1, m.2)
  let units := kept.map fun m => utf16Units (bytes m.1)
  let order := sortByUnits units (positions units.length)
  let entries := order.map fun p => kept.getD p default
  { bytes := '{'.toUInt8 :: [','.toUInt8].intercalate (entries.map writeMember) ++ ['}'.toUInt8]
    unique := (neighbours order).all (fun p => unitsAt units p.1 != unitsAt units p.2) &&
      entries.all (·.2.unique) }

mutual
/-- Write a value in canonical form. -/
def writeCanonical (N : Normalizer) : CanonValue → Written
  | .null => ⟨bytes "null", true⟩
  | .bool b => ⟨if b then bytes "true" else bytes "false", true⟩
  | .int n => ⟨writeInt n, true⟩
  | .str s => ⟨escapeInto (bytes (nfc N s)), true⟩
  | .arr items => writeArray (writeItems N items)
  | .obj members => writeMembers N (writeValues N members)
termination_by structural v => v

/-- The items of an array as they are written. -/
def writeItems (N : Normalizer) : List CanonValue → List Written
  | [] => []
  | v :: items => writeCanonical N v :: writeItems N items
termination_by structural items => items

/-- The members of an object with their values as they are written. -/
def writeValues (N : Normalizer) : List (String × CanonValue) → List (String × Written)
  | [] => []
  | m :: members => writeValue N m :: writeValues N members
termination_by structural members => members

/-- A member with its value as it is written. -/
def writeValue (N : Normalizer) : String × CanonValue → String × Written
  | (k, v) => (k, writeCanonical N v)
termination_by structural m => m
end

/-- An object without the members whose raw key is in `strip`. -/
def writeObject (N : Normalizer) (members : List (String × CanonValue)) (strip : List String) :
    Written :=
  writeMembers N (writeValues N (members.filter fun m => !strip.contains m.1))

/-- The canonical text. The bytes come from strings and ASCII punctuation, so they are
always UTF-8; `none` is the panic that never happens. -/
def serialize (N : Normalizer) (v : CanonValue) : Option String :=
  String.fromUTF8? ⟨(writeCanonical N v).bytes.toArray⟩

/-- Each item is written on its own. -/
theorem writeItems_eq_map (N : Normalizer) (items : List CanonValue) :
    writeItems N items = items.map (writeCanonical N) := by
  induction items with
  | nil => rfl
  | cons v items ih => rw [writeItems, ih, List.map_cons]

/-- Each value is written on its own. -/
theorem writeValues_eq_map (N : Normalizer) (members : List (String × CanonValue)) :
    writeValues N members = members.map fun m => (m.1, writeCanonical N m.2) := by
  induction members with
  | nil => rfl
  | cons m members ih => rw [writeValues, ih, writeValue, List.map_cons]

/-- Members in UTF-16 code-unit key order, keeping equal keys in place. -/
def sortMembers {α : Type} (members : List (String × α)) : List (String × α) :=
  members.mergeSort fun m m' => !unitsLt (utf16Units (bytes m'.1)) (utf16Units (bytes m.1))

mutual
/-- Normalize every string and key and put the members of every object in key order. -/
def canonical (N : Normalizer) : CanonValue → CanonValue
  | .null => .null
  | .bool b => .bool b
  | .int n => .int n
  | .str s => .str (nfc N s)
  | .arr items => .arr (canonicalItems N items)
  | .obj members => .obj (sortMembers (canonicalMembers N members))
termination_by structural v => v

/-- The canonical items of an array. -/
def canonicalItems (N : Normalizer) : List CanonValue → List CanonValue
  | [] => []
  | v :: items => canonical N v :: canonicalItems N items
termination_by structural items => items

/-- The canonical members of an object, before they are sorted. -/
def canonicalMembers (N : Normalizer) :
    List (String × CanonValue) → List (String × CanonValue)
  | [] => []
  | m :: members => canonicalMember N m :: canonicalMembers N members
termination_by structural members => members

/-- A member with its key in normal form. -/
def canonicalMember (N : Normalizer) : String × CanonValue → String × CanonValue
  | (k, v) => (nfc N k, canonical N v)
termination_by structural m => m
end

/-- Each item is canonical on its own. -/
theorem canonicalItems_eq_map (N : Normalizer) (items : List CanonValue) :
    canonicalItems N items = items.map (canonical N) := by
  induction items with
  | nil => rfl
  | cons v items ih => rw [canonicalItems, ih, List.map_cons]

/-- Each member is canonical on its own. -/
theorem canonicalMembers_eq_map (N : Normalizer) (members : List (String × CanonValue)) :
    canonicalMembers N members = members.map fun m => (nfc N m.1, canonical N m.2) := by
  induction members with
  | nil => rfl
  | cons m members ih => rw [canonicalMembers, ih, canonicalMember, List.map_cons]

/-- The sort key of a member. -/
def memberKey {α : Type} (m : String × α) : List Nat := unitsKey (utf16Units (bytes m.1))

theorem sortMembers_perm {α : Type} (members : List (String × α)) :
    (sortMembers members).Perm members := List.mergeSort_perm _ _

/-- The comparison of the merge sort is the order of the sort keys. -/
theorem not_unitsLt_iff {α : Type} (m m' : String × α) :
    (!unitsLt (utf16Units (bytes m'.1)) (utf16Units (bytes m.1))) = true ↔
      memberKey m ≤ memberKey m' := by
  rw [Bool.not_eq_true', ← Bool.not_eq_true, unitsLt_iff, not_lt]
  rfl

/-- The members are in the order of their keys. -/
theorem sortMembers_sorted {α : Type} (members : List (String × α)) :
    (sortMembers members).Pairwise (memberKey · ≤ memberKey ·) := by
  refine (List.pairwise_mergeSort ?_ ?_ members).imp fun {m m'} h => (not_unitsLt_iff m m').mp h
  · intro a b c hab hbc
    rw [not_unitsLt_iff] at *
    exact hab.trans hbc
  · intro a b
    rw [Bool.or_eq_true, not_unitsLt_iff, not_unitsLt_iff]
    exact le_total _ _

/-- Sorting sorted members changes nothing. -/
theorem sortMembers_sortMembers {α : Type} (members : List (String × α)) :
    sortMembers (sortMembers members) = sortMembers members := by
  refine List.mergeSort_of_pairwise ((sortMembers_sorted members).imp fun {m m'} h => ?_)
  exact (not_unitsLt_iff m m').mpr h

/-- Two arrangements of the same members with distinct keys sort to one list. -/
theorem sortMembers_eq_of_perm {α : Type} {ms ns : List (String × α)} (h : ms.Perm ns)
    (hn : (ms.map (·.1)).Nodup) : sortMembers ms = sortMembers ns := by
  refine eq_of_perm_of_sorted memberKey
    ((sortMembers_perm ms).trans (h.trans (sortMembers_perm ns).symm)) ?_
    (sortMembers_sorted ms) (sortMembers_sorted ns)
  have hk : (ms.map memberKey).Nodup := by
    have hmap := hn.map (f := fun s => unitsKey (utf16Units (bytes s)))
      (unitsKey_injective.comp utf16Units_bytes_injective)
    rwa [List.map_map] at hmap
  exact ((sortMembers_perm ms).map memberKey).nodup_iff.mpr hk

/-- Sorting members commutes with rewriting their values. -/
theorem sortMembers_map {α β : Type} (f : α → β) (members : List (String × α)) :
    sortMembers (members.map fun m => (m.1, f m.2)) =
      (sortMembers members).map fun m => (m.1, f m.2) :=
  (List.map_mergeSort (by intros; rfl)).symm

/-- The keys `write_members` sorts by. -/
def memberUnits (members : List (String × Written)) : List (List UInt16) :=
  members.map fun m => utf16Units (bytes m.1)

/-- The units of a member are those of its key. -/
theorem unitsAt_memberUnits {members : List (String × Written)} {p : Nat}
    (hp : p < members.length) :
    unitsAt (memberUnits members) p = utf16Units (bytes (members.getD p default).1) := by
  simp [unitsAt, memberUnits, List.getD_eq_getElem?_getD, hp]

/-- Reading the members off the sorted positions is sorting the members. -/
theorem map_sortByUnits_memberUnits (members : List (String × Written)) :
    (sortByUnits (memberUnits members) (positions (memberUnits members).length)).map
      (fun p => members.getD p default) = sortMembers members := by
  have hlen : (memberUnits members).length = members.length := by simp [memberUnits]
  rw [sortByUnits_eq_mergeSort, sortMembers, hlen]
  have hget : (positions members.length).map (fun p => members.getD p default) = members := by
    apply List.ext_getElem
    · simp [positions]
    · intro i h1 h2
      simp [positions, List.getD_eq_getElem?_getD, h2]
  conv_rhs => rw [← hget]
  apply List.map_mergeSort
  intro p hp q hq
  rw [unitsLe, unitsAt_memberUnits (List.mem_range.mp hp),
    unitsAt_memberUnits (List.mem_range.mp hq)]

/-- The member loop writes exactly the sorted, normalized members. -/
theorem writeMembers_bytes (N : Normalizer) (members : List (String × Written)) :
    (writeMembers N members).bytes =
      '{'.toUInt8 :: [','.toUInt8].intercalate
        ((sortMembers (members.map fun m => (nfc N m.1, m.2))).map writeMember) ++
          ['}'.toUInt8] := by
  have h := map_sortByUnits_memberUnits (members.map fun m => (nfc N m.1, m.2))
  simp only [memberUnits] at h
  simp only [writeMembers, h]

/-- The flag of an object: distinct normalized keys, and every value's own flag. -/
theorem writeMembers_unique (N : Normalizer) (members : List (String × Written)) :
    (writeMembers N members).unique = true ↔
      (members.map fun m => nfc N m.1).Nodup ∧ ∀ m ∈ members, m.2.unique = true := by
  have hm := map_sortByUnits_memberUnits (members.map fun m => (nfc N m.1, m.2))
  have hn := nodup_iff_neighbours_sortByUnits
    (memberUnits (members.map fun m => (nfc N m.1, m.2)))
  simp only [memberUnits] at hm hn
  have hk : (members.map fun m => nfc N m.1).Nodup ↔
      ((members.map fun m => (nfc N m.1, m.2)).map fun m => utf16Units (bytes m.1)).Nodup := by
    rw [← List.nodup_map_iff utf16Units_bytes_injective]
    simp only [List.map_map, Function.comp_def]
  rw [hk, hn]
  simp only [writeMembers, hm, Bool.and_eq_true, List.all_eq_true, bne_iff_ne]
  refine and_congr_right fun _ => ?_
  constructor
  · intro h m hmem
    exact h (nfc N m.1, m.2) ((sortMembers_perm _).mem_iff.mpr (List.mem_map_of_mem hmem))
  · intro h m hmem
    obtain ⟨m', hm', rfl⟩ := List.mem_map.mp ((sortMembers_perm _).mem_iff.mp hmem)
    exact h m' hm'

end Averin
