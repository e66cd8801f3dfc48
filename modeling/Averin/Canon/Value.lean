import Averin.Core.Unicode

/-!
# The canonical value model

Values of the Record Canonical Profile: no floats, integers of exactly 64 signed
bits, strings of Unicode scalars, and objects that keep their members in insertion
order. Normalization is the one operation taken from outside the program; it enters
as a structure whose only promise is idempotence, since the program itself passes
ASCII text through untouched.
-/

namespace Averin

/-- A value restricted to the canonical model. -/
inductive CanonValue where
  | null
  | bool (b : Bool)
  | int (n : Int64)
  | str (s : String)
  | arr (items : List CanonValue)
  | obj (members : List (String × CanonValue))
  deriving Repr

namespace CanonValue

/-- Induction with the element hypotheses phrased by membership. -/
@[elab_as_elim, induction_eliminator]
theorem induct {P : CanonValue → Prop} (null : P .null) (bool : ∀ b, P (.bool b))
    (int : ∀ n, P (.int n)) (str : ∀ s, P (.str s))
    (arr : ∀ items, (∀ v ∈ items, P v) → P (.arr items))
    (obj : ∀ members, (∀ m ∈ members, P m.2) → P (.obj members)) (v : CanonValue) : P v :=
  @CanonValue.rec P (fun items => ∀ v ∈ items, P v) (fun members => ∀ m ∈ members, P m.2)
    (fun m => P m.2)
    null bool int str arr obj (by simp) (fun _ _ hv hs => by simpa using ⟨hv, hs⟩) (by simp)
    (fun m _ hm hs => by
      intro m' hm'
      rcases List.mem_cons.mp hm' with rfl | h
      · exact hm
      · exact hs m' h) (fun _ _ hv => hv) v

/-- The first member whose key equals `key`, with no normalization. -/
def member (v : CanonValue) (key : String) : Option CanonValue :=
  match v with
  | .obj members => (members.find? (·.1 == key)).map (·.2)
  | _ => none

/-- `CanonValue::get` is the same lookup. -/
def get (v : CanonValue) (key : String) : Option CanonValue := member v key

/-- The members of an object. -/
def asObject : CanonValue → Option (List (String × CanonValue))
  | .obj members => some members
  | _ => none

/-- The text of a string. -/
def asStr : CanonValue → Option String
  | .str s => some s
  | _ => none

/-- The items of an array. -/
def asArray : CanonValue → Option (List CanonValue)
  | .arr items => some items
  | _ => none

/-- The stored integer, read as the number it denotes. -/
def asInt : CanonValue → Option Int
  | .int n => some n.toInt
  | _ => none

/-- Whether nothing stands there. -/
def isNull : CanonValue → Bool
  | .null => true
  | _ => false

/-- Drop the top-level members whose raw key is listed. -/
def withoutKeys (v : CanonValue) (keys : List String) : CanonValue :=
  match v with
  | .obj members => .obj (members.filter fun m => !keys.contains m.1)
  | other => other

mutual
/-- The number of arrays and objects on the deepest path. -/
def depth : CanonValue → Nat
  | .null | .bool _ | .int _ | .str _ => 0
  | .arr items => depthItems items + 1
  | .obj members => depthMembers members + 1
termination_by structural v => v

/-- The depth of the deepest item. -/
def depthItems : List CanonValue → Nat
  | [] => 0
  | v :: items => max (depth v) (depthItems items)
termination_by structural items => items

/-- The depth of the deepest member. -/
def depthMembers : List (String × CanonValue) → Nat
  | [] => 0
  | m :: members => max (depthMember m) (depthMembers members)
termination_by structural members => members

/-- The depth of the value of a member. -/
def depthMember : String × CanonValue → Nat
  | (_, v) => depth v
termination_by structural m => m
end

/-- No item is deeper than the deepest. -/
theorem depth_le_depthItems {v : CanonValue} {items : List CanonValue} (h : v ∈ items) :
    v.depth ≤ depthItems items := by
  induction items with
  | nil => cases h
  | cons w items ih =>
    rw [depthItems]
    rcases List.mem_cons.mp h with rfl | h
    · exact le_max_left _ _
    · exact (ih h).trans (le_max_right _ _)

/-- No member is deeper than the deepest. -/
theorem depth_le_depthMembers {m : String × CanonValue} {members : List (String × CanonValue)}
    (h : m ∈ members) : m.2.depth ≤ depthMembers members := by
  induction members with
  | nil => cases h
  | cons w members ih =>
    rw [depthMembers, depthMember]
    rcases List.mem_cons.mp h with rfl | h
    · exact le_max_left _ _
    · exact (ih h).trans (le_max_right _ _)

/-- Every string of the value satisfies `onStr`, and the key list of every object in it
satisfies `onKeys`. -/
inductive Everywhere (onStr : String → Prop) (onKeys : List String → Prop) : CanonValue → Prop
  | null : Everywhere onStr onKeys .null
  | bool (b : Bool) : Everywhere onStr onKeys (.bool b)
  | int (n : Int64) : Everywhere onStr onKeys (.int n)
  | str {s : String} : onStr s → Everywhere onStr onKeys (.str s)
  | arr {items : List CanonValue} : (∀ v ∈ items, Everywhere onStr onKeys v) →
      Everywhere onStr onKeys (.arr items)
  | obj {members : List (String × CanonValue)} : onKeys (members.map (·.1)) →
      (∀ m ∈ members, Everywhere onStr onKeys m.2) → Everywhere onStr onKeys (.obj members)

/-- Items are as deep as a bound on all of them. -/
theorem depthItems_le {items : List CanonValue} {n : Nat} (h : ∀ v ∈ items, v.depth ≤ n) :
    depthItems items ≤ n := by
  induction items with
  | nil => exact Nat.zero_le n
  | cons v items ih =>
    rw [List.forall_mem_cons] at h
    exact max_le h.1 (ih h.2)

/-- Members are as deep as a bound on all of them. -/
theorem depthMembers_le {members : List (String × CanonValue)} {n : Nat}
    (h : ∀ m ∈ members, m.2.depth ≤ n) : depthMembers members ≤ n := by
  induction members with
  | nil => exact Nat.zero_le n
  | cons m members ih =>
    rw [List.forall_mem_cons] at h
    rw [depthMembers, depthMember]
    exact max_le h.1 (ih h.2)

end CanonValue

/-- The normalization tables, taken from outside the program. -/
structure Normalizer where
  normalize : String → String
  /-- Normalized text is a fixed point. -/
  idem : ∀ s, normalize (normalize s) = normalize s

/-- `str::is_ascii`. -/
def isAscii (s : String) : Bool := (bytes s).all (· < 0x80)

/-- NFC of a string; ASCII text skips the tables. -/
def nfc (N : Normalizer) (s : String) : String := if isAscii s then s else N.normalize s

theorem nfc_of_isAscii (N : Normalizer) {s : String} (h : isAscii s = true) : nfc N s = s := by
  rw [nfc, if_pos h]

/-- Every string and key of the value is its own normal form. -/
def NfcFixed (N : Normalizer) (v : CanonValue) : Prop :=
  v.Everywhere (fun s => nfc N s = s) (fun keys => ∀ k ∈ keys, nfc N k = k)

/-- No object in the value repeats a key. -/
def DistinctKeys (v : CanonValue) : Prop := v.Everywhere (fun _ => True) List.Nodup

/-- No object in the value repeats a key after normalization. -/
def DistinctNfcKeys (N : Normalizer) (v : CanonValue) : Prop :=
  v.Everywhere (fun _ => True) (fun keys => (keys.map (nfc N)).Nodup)

/-- The guarded normalization is idempotent as well. -/
@[simp] theorem nfc_nfc (N : Normalizer) (s : String) : nfc N (nfc N s) = nfc N s := by
  by_cases h : isAscii s = true
  · rw [nfc_of_isAscii N h, nfc_of_isAscii N h]
  · have hs : nfc N s = N.normalize s := by rw [nfc, if_neg h]
    rw [hs, nfc]
    split_ifs
    · rfl
    · exact N.idem s

end Averin
