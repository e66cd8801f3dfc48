import Averin.Canon.Object
import Averin.Core.Float64

/-!
# JSON trees of the server

The server holds values as trees of its own before the core parses their texts. A number can be
any integer there, or one that is written with a fraction or an exponent; the core accepts the
former within 64 bits and never the latter. A number that was decoded without a type is a double.
-/

namespace Averin

/-- A number of a body, which the core reads as a signed 64-bit one. -/
def jsonInt (n : Int) : Option CanonValue :=
  if -2 ^ 63 ≤ n ∧ n < 2 ^ 63 then some (.int (Int64.ofInt n)) else none

/-- A number that fits is read back. -/
theorem asInt_jsonInt {n : Int} {v : CanonValue} (h : jsonInt n = some v) : v.asInt = some n := by
  unfold jsonInt at h
  split_ifs at h with hn
  obtain rfl := Option.some.inj h
  rw [CanonValue.asInt, Int64.toInt_ofInt_of_le hn.1 hn.2]

/-- A tree as it is written out; `real` is any number that is not written as an integer. -/
inductive Json where
  | null
  | bool (b : Bool)
  | int (n : Int)
  | real
  | str (s : String)
  | arr (items : List Json)
  | obj (members : List (String × Json))

namespace Json

/-- Induction with the element hypotheses phrased by membership. -/
@[elab_as_elim]
theorem induct {P : Json → Prop} (null : P .null) (bool : ∀ b, P (.bool b)) (int : ∀ n, P (.int n))
    (real : P .real) (str : ∀ s, P (.str s)) (arr : ∀ items, (∀ v ∈ items, P v) → P (.arr items))
    (obj : ∀ members, (∀ m ∈ members, P m.2) → P (.obj members)) (v : Json) : P v :=
  @Json.rec P (fun items => ∀ v ∈ items, P v) (fun members => ∀ m ∈ members, P m.2)
    (fun m => P m.2)
    null bool int real str arr obj (by simp) (fun _ _ hv hs => by simpa using ⟨hv, hs⟩) (by simp)
    (fun m _ hm hs => by
      intro m' hm'
      rcases List.mem_cons.mp hm' with rfl | h
      · exact hm
      · exact hs m' h) (fun _ _ hv => hv) v

/-- The member under a key. -/
def get (v : Json) (key : String) : Option Json :=
  match v with
  | .obj members => (members.find? (·.1 == key)).map (·.2)
  | _ => none

/-- The members of an object. -/
def asObject : Json → Option (List (String × Json))
  | .obj members => some members
  | _ => none

/-- The text of a string. -/
def asStr : Json → Option String
  | .str s => some s
  | _ => none

/-- The text under a key. -/
def strOf (v : Json) (key : String) : Option String := (v.get key).bind asStr

section Parse

variable (N : Normalizer)

mutual
/-- The value that the core reads: all texts normalized, and no key twice in an object. -/
def toCanon : Json → Option CanonValue
  | .null => some .null
  | .bool b => some (.bool b)
  | .int n => jsonInt n
  | .real => none
  | .str s => some (.str (nfc N s))
  | .arr items => (itemsToCanon items).map .arr
  | .obj members =>
    (membersToCanon members).bind fun pairs =>
      if (pairs.map (·.1)).Nodup then some (.obj pairs) else none
termination_by structural v => v

/-- The items of an array in the bundle. -/
def itemsToCanon : List Json → Option (List CanonValue)
  | [] => some []
  | v :: items => do
    let c ← toCanon v
    let rest ← itemsToCanon items
    return c :: rest
termination_by structural items => items

/-- The members of an object in the bundle. -/
def membersToCanon : List (String × Json) → Option (List (String × CanonValue))
  | [] => some []
  | m :: members => do
    let c ← memberToCanon m
    let rest ← membersToCanon members
    return c :: rest
termination_by structural members => members

/-- A member in the bundle, its key in normal form. -/
def memberToCanon : String × Json → Option (String × CanonValue)
  | (k, v) => (toCanon v).map fun c => (nfc N k, c)
termination_by structural m => m
end

/-- A member is read with its key normalized. -/
def ReadAs (m : String × Json) (p : String × CanonValue) : Prop :=
  p.1 = nfc N m.1 ∧ toCanon N m.2 = some p.2

end Parse

variable {N : Normalizer}

/-- Every member is read. -/
theorem ReadAs.exists_right {members : List (String × Json)} {pairs : List (String × CanonValue)}
    (h : List.Forall₂ (ReadAs N) members pairs) {m : String × Json} (hm : m ∈ members) :
    ∃ p ∈ pairs, ReadAs N m p := by
  induction h with
  | nil => cases hm
  | cons hhead _ ih =>
    rcases List.mem_cons.mp hm with rfl | hrest
    · exact ⟨_, List.mem_cons_self, hhead⟩
    · obtain ⟨p, hp, hread⟩ := ih hrest
      exact ⟨p, List.mem_cons_of_mem _ hp, hread⟩

/-- Every pair was read from a member. -/
theorem ReadAs.exists_left {members : List (String × Json)} {pairs : List (String × CanonValue)}
    (h : List.Forall₂ (ReadAs N) members pairs) {p : String × CanonValue} (hp : p ∈ pairs) :
    ∃ m ∈ members, ReadAs N m p := by
  induction h with
  | nil => cases hp
  | cons hhead _ ih =>
    rcases List.mem_cons.mp hp with rfl | hrest
    · exact ⟨_, List.mem_cons_self, hhead⟩
    · obtain ⟨m, hm, hread⟩ := ih hrest
      exact ⟨m, List.mem_cons_of_mem _ hm, hread⟩

/-- A member is read as a pair. -/
theorem memberToCanon_eq_some_iff {m : String × Json} {p : String × CanonValue} :
    memberToCanon N m = some p ↔ ReadAs N m p := by
  obtain ⟨k, v⟩ := m
  obtain ⟨l, c⟩ := p
  rw [memberToCanon, ReadAs, Option.map_eq_some_iff]
  constructor
  · rintro ⟨d, hd, heq⟩
    obtain ⟨rfl, rfl⟩ := Prod.mk.inj heq
    exact ⟨rfl, hd⟩
  · rintro ⟨rfl, hc⟩
    exact ⟨c, hc, rfl⟩

/-- Members are read one by one. -/
theorem membersToCanon_eq_some_iff {members : List (String × Json)}
    {pairs : List (String × CanonValue)} :
    membersToCanon N members = some pairs ↔ List.Forall₂ (ReadAs N) members pairs := by
  induction members generalizing pairs with
  | nil =>
    rw [membersToCanon, List.forall₂_nil_left_iff, Option.some.injEq, eq_comm]
  | cons m members ih =>
    rw [membersToCanon, List.forall₂_cons_left_iff]
    constructor
    · intro h
      obtain ⟨c, hc, h⟩ := Option.bind_eq_some_iff.mp h
      obtain ⟨rest, hrest, heq⟩ := Option.bind_eq_some_iff.mp h
      exact ⟨c, rest, memberToCanon_eq_some_iff.mp hc, ih.mp hrest, (Option.some.inj heq).symm⟩
    · rintro ⟨c, rest, hc, hrest, rfl⟩
      rw [memberToCanon_eq_some_iff.mpr hc, ih.mpr hrest]
      rfl

/-- An object is read member by member if no key repeats. -/
theorem toCanon_obj_eq_some_iff {members : List (String × Json)} {c : CanonValue} :
    toCanon N (.obj members) = some c ↔
      ∃ pairs, List.Forall₂ (ReadAs N) members pairs ∧ (pairs.map (·.1)).Nodup ∧
        c = .obj pairs := by
  rw [toCanon, Option.bind_eq_some_iff]
  constructor
  · rintro ⟨pairs, hpairs, h⟩
    split_ifs at h with hnodup
    exact ⟨pairs, membersToCanon_eq_some_iff.mp hpairs, hnodup, (Option.some.inj h).symm⟩
  · rintro ⟨pairs, hpairs, hnodup, rfl⟩
    exact ⟨pairs, membersToCanon_eq_some_iff.mpr hpairs, if_pos hnodup⟩

/-- What is found is a member. -/
theorem mem_of_get {members : List (String × Json)} {key : String} {v : Json}
    (h : (Json.obj members).get key = some v) : (key, v) ∈ members := by
  obtain ⟨m, hm, rfl⟩ := Option.map_eq_some_iff.mp h
  have hkey : m.1 = key := by simpa using List.find?_some hm
  rw [← hkey]
  exact List.mem_of_find?_eq_some hm

/-- Where no key repeats, every member is found under its key. -/
theorem get_of_mem {members : List (String × Json)} {key : String} {v : Json}
    (hkeys : (members.map (·.1)).Nodup) (h : (key, v) ∈ members) :
    (Json.obj members).get key = some v := by
  obtain ⟨m, hm⟩ : ∃ m, members.find? (·.1 == key) = some m :=
    Option.isSome_iff_exists.mp (List.find?_isSome.mpr ⟨_, h, by simp⟩)
  have hkey : m.1 = key := by simpa using List.find?_some hm
  have heq := List.inj_on_of_nodup_map hkeys (List.mem_of_find?_eq_some hm) h hkey
  rw [get, hm, heq]
  rfl

/-- Dropping other keys changes no lookup. -/
theorem get_filter {members : List (String × Json)} {key : String} {drop : List String}
    (h : key ∉ drop) :
    (Json.obj (members.filter fun m => !(drop.contains m.1))).get key =
      (Json.obj members).get key := by
  simp only [get, List.find?_filter]
  congr 2
  ext m
  by_cases hm : m.1 = key <;> simp [hm, h]

/-- A value with a member is an object. -/
theorem eq_obj_of_get {v w : Json} {key : String} (h : v.get key = some w) :
    ∃ members, v = .obj members := by
  cases v with
  | obj members => exact ⟨members, rfl⟩
  | _ => cases h

/-- A member under a key that is its own normal form is read and found there. -/
theorem get_toCanon {v w : Json} {c : CanonValue} {key : String} (hc : v.toCanon N = some c)
    (hget : v.get key = some w) (hkey : nfc N key = key) :
    ∃ x, w.toCanon N = some x ∧ c.get key = some x := by
  obtain ⟨members, rfl⟩ := eq_obj_of_get hget
  obtain ⟨pairs, hpairs, hnodup, rfl⟩ := toCanon_obj_eq_some_iff.mp hc
  obtain ⟨p, hp, hread⟩ := ReadAs.exists_right hpairs (mem_of_get hget)
  refine ⟨p.2, hread.2, Averin.get_of_mem hnodup ?_⟩
  rw [← hkey, ← hread.1]
  exact hp

/-- A text is read normalized. -/
theorem strOf_toCanon {v : Json} {c : CanonValue} {key t : String} (hc : v.toCanon N = some c)
    (hstr : v.strOf key = some t) (hkey : nfc N key = key) :
    Averin.strOf c key = some (nfc N t) := by
  obtain ⟨w, hget, hw⟩ := Option.bind_eq_some_iff.mp hstr
  obtain ⟨x, hx, hfound⟩ := get_toCanon hc hget hkey
  cases w with
  | str s =>
    obtain rfl := Option.some.inj hw
    obtain rfl := Option.some.inj hx
    rw [Averin.strOf, hfound]
    rfl
  | _ => cases hw

/-- In what is read no key was twice. -/
theorem keys_nodup_of_toCanon {members : List (String × Json)} {c : CanonValue}
    (hc : (Json.obj members).toCanon N = some c) : (members.map (·.1)).Nodup := by
  obtain ⟨pairs, hpairs, hnodup, -⟩ := toCanon_obj_eq_some_iff.mp hc
  have hkeys : pairs.map (·.1) = (members.map (·.1)).map (nfc N) := by
    clear hnodup hc
    induction hpairs with
    | nil => rfl
    | cons hhead _ ih => rw [List.map_cons, List.map_cons, List.map_cons, ih, hhead.1]
  rw [hkeys] at hnodup
  exact List.Nodup.of_map (nfc N) hnodup

/-- Items are read one by one. -/
theorem itemsToCanon_eq_some_iff {items : List Json} {values : List CanonValue} :
    itemsToCanon N items = some values ↔
      List.Forall₂ (fun v c => toCanon N v = some c) items values := by
  induction items generalizing values with
  | nil =>
    rw [itemsToCanon, List.forall₂_nil_left_iff, Option.some.injEq, eq_comm]
  | cons v items ih =>
    rw [itemsToCanon, List.forall₂_cons_left_iff]
    constructor
    · intro h
      obtain ⟨c, hc, h⟩ := Option.bind_eq_some_iff.mp h
      obtain ⟨rest, hrest, heq⟩ := Option.bind_eq_some_iff.mp h
      exact ⟨c, rest, hc, ih.mp hrest, (Option.some.inj heq).symm⟩
    · rintro ⟨c, rest, hc, hrest, rfl⟩
      rw [hc, ih.mpr hrest]
      rfl

/-- What is read repeats no key. -/
theorem distinctNfcKeys_of_toCanon {v : Json} :
    ∀ {c : CanonValue}, v.toCanon N = some c → DistinctNfcKeys N c := by
  induction v using Json.induct with
  | null =>
    rintro c h
    obtain rfl := Option.some.inj h
    exact .null
  | bool b =>
    rintro c h
    obtain rfl := Option.some.inj h
    exact .bool b
  | int n =>
    rintro c h
    rw [toCanon, jsonInt] at h
    split_ifs at h
    obtain rfl := Option.some.inj h
    exact .int _
  | real =>
    rintro c h
    cases h
  | str s =>
    rintro c h
    obtain rfl := Option.some.inj h
    exact .str trivial
  | arr items ih =>
    rintro c h
    obtain ⟨values, hvalues, rfl⟩ := Option.map_eq_some_iff.mp h
    have hread := itemsToCanon_eq_some_iff.mp hvalues
    refine .arr ?_
    clear hvalues h
    induction hread with
    | nil => exact fun v hv => absurd hv List.not_mem_nil
    | @cons v c items values hhead _ ihread =>
      intro w hw
      rcases List.mem_cons.mp hw with rfl | hw
      · exact ih v List.mem_cons_self hhead
      · exact ihread (fun u hu => ih u (List.mem_cons_of_mem v hu)) w hw
  | obj members ih =>
    rintro c h
    obtain ⟨pairs, hpairs, hnodup, rfl⟩ := toCanon_obj_eq_some_iff.mp h
    refine .obj ?_ ?_
    · have hfixed : (pairs.map (·.1)).map (nfc N) = pairs.map (·.1) := by
        rw [List.map_map]
        apply List.map_congr_left
        intro p hp
        obtain ⟨m, -, hread⟩ := ReadAs.exists_left hpairs hp
        rw [Function.comp_apply, hread.1, nfc_nfc]
      rw [hfixed]
      exact hnodup
    · intro p hp
      obtain ⟨m, hm, hread⟩ := ReadAs.exists_left hpairs hp
      exact ih m hm hread.2

/-- An object with plain keys is read if its members are. -/
theorem exists_toCanon_obj {members : List (String × Json)} {d : Nat}
    (h : ∀ m ∈ members, isAscii m.1 = true ∧ ∃ c, m.2.toCanon N = some c ∧ c.depth ≤ d)
    (hnodup : (members.map (·.1)).Nodup) :
    ∃ c, (Json.obj members).toCanon N = some c ∧ c.depth ≤ d + 1 := by
  obtain ⟨pairs, hpairs, hkeys, hdepth⟩ : ∃ pairs, List.Forall₂ (ReadAs N) members pairs ∧
      pairs.map (·.1) = members.map (·.1) ∧ ∀ p ∈ pairs, p.2.depth ≤ d := by
    clear hnodup
    induction members with
    | nil => exact ⟨[], .nil, rfl, fun p hp => absurd hp List.not_mem_nil⟩
    | cons m members ih =>
      obtain ⟨hascii, c, hc, hd⟩ := h m List.mem_cons_self
      obtain ⟨pairs, hpairs, hkeys, hdepth⟩ := ih fun m' hm' => h m' (List.mem_cons_of_mem m hm')
      refine ⟨(m.1, c) :: pairs, .cons ⟨(nfc_of_isAscii N hascii).symm, hc⟩ hpairs, ?_, ?_⟩
      · rw [List.map_cons, List.map_cons, hkeys]
      · intro p hp
        rcases List.mem_cons.mp hp with rfl | hp
        · exact hd
        · exact hdepth p hp
  refine ⟨.obj pairs, toCanon_obj_eq_some_iff.mpr ⟨pairs, hpairs, hkeys ▸ hnodup, rfl⟩, ?_⟩
  rw [CanonValue.depth]
  exact Nat.succ_le_succ (CanonValue.depthMembers_le hdepth)

/-- What remains without some plain keys is read as what was read without them. -/
theorem toCanon_filter {members : List (String × Json)} {c : CanonValue} {drop : List String}
    (hc : (Json.obj members).toCanon N = some c) (hkeys : ∀ m ∈ members, nfc N m.1 = m.1) :
    (Json.obj (members.filter fun m => !(drop.contains m.1))).toCanon N =
      some (c.withoutKeys drop) := by
  obtain ⟨pairs, hpairs, hnodup, rfl⟩ := toCanon_obj_eq_some_iff.mp hc
  refine toCanon_obj_eq_some_iff.mpr ⟨pairs.filter fun p => !(drop.contains p.1), ?_, ?_, rfl⟩
  · clear hc hnodup
    induction hpairs with
    | nil => exact List.Forall₂.nil
    | @cons m p members pairs hhead _ ih =>
      have hrest := ih fun m' hm' => hkeys m' (List.mem_cons_of_mem m hm')
      have hsame : p.1 = m.1 := by
        rw [hhead.1]
        exact hkeys m List.mem_cons_self
      rw [List.filter_cons, List.filter_cons, hsame]
      split_ifs
      · exact List.Forall₂.cons hhead hrest
      · exact hrest
  · exact hnodup.sublist (List.filter_sublist.map _)

mutual
/-- What is written out after all numbers were decoded as doubles. -/
def viaDouble : Json → Json
  | .null => .null
  | .bool b => .bool b
  | .int n => if Float64.round n.natAbs < 10 ^ 21 then .int (Float64.rewritten n) else .real
  | .real => .real
  | .str s => .str s
  | .arr items => .arr (itemsViaDouble items)
  | .obj members => .obj (membersViaDouble members)
termination_by structural v => v

/-- The items of an array after their doubles. -/
def itemsViaDouble : List Json → List Json
  | [] => []
  | v :: items => viaDouble v :: itemsViaDouble items
termination_by structural items => items

/-- The members of an object after their doubles. -/
def membersViaDouble : List (String × Json) → List (String × Json)
  | [] => []
  | m :: members => memberViaDouble m :: membersViaDouble members
termination_by structural members => members

/-- A member after its doubles. -/
def memberViaDouble : String × Json → String × Json
  | (k, v) => (k, viaDouble v)
termination_by structural m => m
end

/-- Each member comes through its doubles on its own. -/
theorem membersViaDouble_eq_map (members : List (String × Json)) :
    membersViaDouble members = members.map fun m => (m.1, m.2.viaDouble) := by
  induction members with
  | nil => rfl
  | cons m members ih => rw [membersViaDouble, ih, List.map_cons, memberViaDouble]

/-- A member is found decoded under its key. -/
theorem get_viaDouble (v : Json) (key : String) :
    v.viaDouble.get key = (v.get key).map viaDouble := by
  cases v with
  | obj members =>
    rw [viaDouble, membersViaDouble_eq_map]
    simp only [get, List.find?_map, Option.map_map]
    rfl
  | int n =>
    rw [viaDouble]
    split_ifs <;> rfl
  | _ => rfl

end Json

end Averin
