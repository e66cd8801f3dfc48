import Averin.Canon.Value

/-!
# Reading and building objects

Lookups that take a default when a member is absent or of another type, and the checked
constructor, which normalizes its keys and refuses a repeated one. Values are compared part
by part.
-/

namespace Averin

/-- The text under a key. -/
def strOf (v : CanonValue) (k : String) : Option String := (v.get k).bind CanonValue.asStr

/-- The number under a key. -/
def intOf (v : CanonValue) (k : String) : Option Int := (v.get k).bind CanonValue.asInt

/-- The items under a key; whatever is no array has none. -/
def arrayOf (v : CanonValue) (k : String) : List CanonValue :=
  ((v.get k).bind CanonValue.asArray).getD []

/-- The members with normalized keys, unless a key repeats, which is then reported. -/
def objectMembers (N : Normalizer) :
    List (String × CanonValue) → (seen : List String) → Except String (List (String × CanonValue))
  | [], _ => .ok []
  | (k, v) :: pairs, seen =>
    if nfc N k ∈ seen then .error (nfc N k)
    else
      match objectMembers N pairs (nfc N k :: seen) with
      | .error e => .error e
      | .ok members => .ok ((nfc N k, v) :: members)

/-- The checked object constructor. -/
def CanonValue.object (N : Normalizer) (pairs : List (String × CanonValue)) :
    Except String CanonValue :=
  (objectMembers N pairs []).map .obj

/-- A member with its key normalized. -/
def nfcMember (N : Normalizer) (m : String × CanonValue) : String × CanonValue := (nfc N m.1, m.2)

variable {N : Normalizer}

/-- What is found is a member. -/
theorem mem_of_get {members : List (String × CanonValue)} {key : String} {v : CanonValue}
    (h : (CanonValue.obj members).get key = some v) : (key, v) ∈ members := by
  simp only [CanonValue.get, CanonValue.member, Option.map_eq_some_iff] at h
  obtain ⟨m, hm, rfl⟩ := h
  have hkey : m.1 = key := by simpa using List.find?_some hm
  rw [← hkey]
  exact List.mem_of_find?_eq_some hm

/-- Where no key repeats, every member is found under its key. -/
theorem get_of_mem {members : List (String × CanonValue)} {key : String} {v : CanonValue}
    (hkeys : (members.map (·.1)).Nodup) (h : (key, v) ∈ members) :
    (CanonValue.obj members).get key = some v := by
  obtain ⟨m, hm⟩ : ∃ m, members.find? (·.1 == key) = some m :=
    Option.isSome_iff_exists.mp (List.find?_isSome.mpr ⟨_, h, by simp⟩)
  have hkey : m.1 = key := by simpa using List.find?_some hm
  have heq := List.inj_on_of_nodup_map hkeys (List.mem_of_find?_eq_some hm) h hkey
  rw [CanonValue.get, CanonValue.member, hm, heq]
  rfl

/-- Members are taken if their keys are new and distinct in normal form. -/
theorem objectMembers_eq_ok_iff {pairs members : List (String × CanonValue)} {seen : List String} :
    objectMembers N pairs seen = .ok members ↔
      (pairs.map (nfc N ·.1)).Nodup ∧ (∀ m ∈ pairs, nfc N m.1 ∉ seen) ∧
        members = pairs.map (nfcMember N) := by
  induction pairs generalizing seen members with
  | nil => simp [objectMembers, eq_comm]
  | cons p pairs ih =>
    obtain ⟨k, v⟩ := p
    rw [objectMembers, List.map_cons, List.nodup_cons, List.forall_mem_cons, List.map_cons]
    split_ifs with hk
    · simp [hk]
    · cases hrest : objectMembers N pairs (nfc N k :: seen) with
      | error e =>
        have hno : ¬ objectMembers N pairs (nfc N k :: seen) = .ok (pairs.map (nfcMember N)) := by
          simp [hrest]
        rw [ih] at hno
        simp only [reduceCtorEq, false_iff]
        rintro ⟨⟨hn, hnodup⟩, ⟨-, hseen⟩, -⟩
        refine hno ⟨hnodup, fun m hm hmem => ?_, rfl⟩
        rcases List.mem_cons.mp hmem with heq | hmem
        · exact hn (heq ▸ List.mem_map_of_mem hm)
        · exact hseen m hm hmem
      | ok rest =>
        obtain ⟨hnodup, hseen, rfl⟩ := ih.mp hrest
        simp only [Except.ok.injEq]
        constructor
        · rintro rfl
          refine ⟨⟨fun hmem => ?_, hnodup⟩, ⟨hk, fun m hm hs => ?_⟩, rfl⟩
          · obtain ⟨m, hm, heq⟩ := List.mem_map.mp hmem
            exact hseen m hm (by simp [heq])
          · exact hseen m hm (List.mem_cons_of_mem _ hs)
        · exact fun h => h.2.2.symm

/-- An object is built exactly from members whose keys differ after normalization. -/
theorem object_eq_ok_iff {pairs : List (String × CanonValue)} {v : CanonValue} :
    CanonValue.object N pairs = .ok v ↔
      (pairs.map (nfc N ·.1)).Nodup ∧ v = .obj (pairs.map (nfcMember N)) := by
  unfold CanonValue.object
  cases h : objectMembers N pairs [] with
  | error e =>
    have hno := objectMembers_eq_ok_iff.not.mp
      (show ¬ objectMembers N pairs [] = .ok (pairs.map (nfcMember N)) by simp [h])
    simp only [Except.map, reduceCtorEq, false_iff]
    rintro ⟨hn, -⟩
    exact hno ⟨hn, by simp, rfl⟩
  | ok members =>
    obtain ⟨hn, -, rfl⟩ := objectMembers_eq_ok_iff.mp h
    simp only [Except.map, Except.ok.injEq]
    exact ⟨fun hv => ⟨hn, hv.symm⟩, fun hv => hv.2.symm⟩

/-- What was put under a plain key is found there. -/
theorem get_of_object {pairs : List (String × CanonValue)} {v : CanonValue}
    (h : CanonValue.object N pairs = .ok v) {k : String} {x : CanonValue} (hk : isAscii k = true)
    (hx : (k, x) ∈ pairs) : v.get k = some x := by
  obtain ⟨hn, rfl⟩ := object_eq_ok_iff.mp h
  refine get_of_mem (by simpa [Function.comp_def, nfcMember] using hn) ?_
  exact List.mem_map.mpr ⟨(k, x), hx, by rw [nfcMember, nfc_of_isAscii N hk]⟩

mutual

/-- Equality of values, part by part. -/
def CanonValue.same : CanonValue → CanonValue → Bool
  | .null, .null => true
  | .bool b, .bool b' => b == b'
  | .int n, .int n' => n == n'
  | .str s, .str s' => s == s'
  | .arr items, .arr items' => sameItems items items'
  | .obj members, .obj members' => sameMembers members members'
  | _, _ => false

/-- The same items, compared one by one. -/
def sameItems : List CanonValue → List CanonValue → Bool
  | [], [] => true
  | v :: items, v' :: items' => v.same v' && sameItems items items'
  | _, _ => false

/-- The same members, compared one by one. -/
def sameMembers : List (String × CanonValue) → List (String × CanonValue) → Bool
  | [], [] => true
  | (k, v) :: members, (k', v') :: members' => k == k' && v.same v' && sameMembers members members'
  | _, _ => false

end

/-- Items that compare the same are equal. -/
theorem sameItems_iff {items : List CanonValue}
    (h : ∀ v ∈ items, ∀ w, v.same w = true ↔ v = w) (items' : List CanonValue) :
    sameItems items items' = true ↔ items = items' := by
  induction items generalizing items' with
  | nil => cases items' <;> simp [sameItems]
  | cons v items ih =>
    rw [List.forall_mem_cons] at h
    cases items' with
    | nil => simp [sameItems]
    | cons w items' => simp [sameItems, h.1 w, ih h.2]

/-- Members that compare the same are equal. -/
theorem sameMembers_iff {members : List (String × CanonValue)}
    (h : ∀ m ∈ members, ∀ w, m.2.same w = true ↔ m.2 = w)
    (members' : List (String × CanonValue)) :
    sameMembers members members' = true ↔ members = members' := by
  induction members generalizing members' with
  | nil => cases members' <;> simp [sameMembers]
  | cons m members ih =>
    rw [List.forall_mem_cons] at h
    cases members' with
    | nil => simp [sameMembers]
    | cons m' members' => simp [sameMembers, h.1 m'.2, ih h.2, Prod.ext_iff]

/-- Values that compare the same are equal. -/
theorem CanonValue.same_iff (v w : CanonValue) : v.same w = true ↔ v = w := by
  induction v generalizing w with
  | null => cases w <;> simp [CanonValue.same]
  | bool b => cases w <;> simp [CanonValue.same]
  | int n => cases w <;> simp [CanonValue.same]
  | str s => cases w <;> simp [CanonValue.same]
  | arr items ih =>
    cases w with
    | arr items' => simp [CanonValue.same, sameItems_iff ih]
    | _ => simp [CanonValue.same]
  | obj members ih =>
    cases w with
    | obj members' => simp [CanonValue.same, sameMembers_iff ih]
    | _ => simp [CanonValue.same]

instance : DecidableEq CanonValue := fun v w => decidable_of_iff _ (CanonValue.same_iff v w)


end Averin
