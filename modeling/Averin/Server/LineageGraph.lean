import Averin.Core.Cycles
import Averin.Core.Decimal
import Averin.Server.LineageVerified
import Mathlib.Data.String.Basic
import Mathlib.Logic.Relation

/-!
# Whether a lineage holds together

The statements of an accepted lineage name known keys only, and all its keys differ. They lead from
every retired key to the key in use unless some retired keys only hand over among each other.
-/

namespace Averin

/-- A number has no slash. -/
theorem slash_not_mem_repr (n : Int) : '/' ∉ (Int.repr n).toList := by
  have hdigits : ∀ m : Nat, '/' ∉ Nat.toDigits 10 m := by
    intro m hmem
    have hdigit := isDigit_of_mem hmem
    revert hdigit
    decide
  cases n with
  | ofNat m =>
    rw [show Int.repr (.ofNat m) = Nat.repr m from rfl, repr_toList]
    exact hdigits m
  | negSucc m =>
    rw [repr_negSucc_toList, List.mem_cons]
    rintro (hsign | hrest)
    · revert hsign
      decide
    · exact hdigits _ hrest

/-- A separator that the second part does not contain splits a text in one way. -/
theorem append_cons_inj {α : Type*} {a b x y : List α} {c : α} (hx : c ∉ x) (hy : c ∉ y)
    (h : a ++ c :: x = b ++ c :: y) : a = b ∧ x = y := by
  rcases List.append_eq_append_iff.mp h with ⟨t, rfl, htail⟩ | ⟨t, rfl, htail⟩
  · cases t with
    | nil =>
      rw [List.nil_append] at htail
      exact ⟨(List.append_nil a).symm, (List.cons.inj htail).2⟩
    | cons d t =>
      rw [List.cons_append] at htail
      refine absurd ?_ hx
      rw [(List.cons.inj htail).2]
      exact List.mem_append_right t List.mem_cons_self
  · cases t with
    | nil =>
      rw [List.nil_append] at htail
      exact ⟨List.append_nil b, (List.cons.inj htail).2.symm⟩
    | cons d t =>
      rw [List.cons_append] at htail
      refine absurd ?_ hy
      rw [(List.cons.inj htail).2]
      exact List.mem_append_right t List.mem_cons_self

/-- A name tells the identifier and the epoch. -/
theorem LineageKey.name_eq_iff {k k' : LineageKey} :
    k.name = k'.name ↔ k.id = k'.id ∧ k.epoch = k'.epoch := by
  constructor
  · intro h
    have hlist := congrArg String.toList h
    rw [name, name, String.toList_append, String.toList_append, String.toList_append,
      String.toList_append, List.append_assoc, List.append_assoc] at hlist
    obtain ⟨hid, hepoch⟩ := append_cons_inj (slash_not_mem_repr k.epoch)
      (slash_not_mem_repr k'.epoch) hlist
    exact ⟨String.toList_inj.mp hid, int_repr_inj hepoch⟩
  · rintro ⟨hid, hepoch⟩
    rw [name, name, hid, hepoch]

section Accepted

/-- Retired keys that were taken in differ from each other and from those before. -/
theorem buildRetired_distinct {i : Nat} {seen seenPub : List String} {files : List RetiredFile}
    {keys : List RetiredKey} (h : buildRetired i seen seenPub files = .ok keys) :
    (keys.map fun r => r.toLineageKey.name).Nodup ∧ (keys.map fun r => r.publicKey).Nodup ∧
      ∀ r ∈ keys, r.toLineageKey.name ∉ seen ∧ r.publicKey ∉ seenPub := by
  induction files generalizing i seen seenPub keys with
  | nil =>
    obtain rfl := Except.ok.inj h
    exact ⟨List.nodup_nil, List.nodup_nil, fun r hr => absurd hr List.not_mem_nil⟩
  | cons f files ih =>
    rw [buildRetired] at h
    simp only [bind_eq_ok_iff, require_eq_ok_iff] at h
    obtain ⟨_, _, _, _, _, _, _, _, _, hfresh, rest, hrest, heq⟩ := h
    obtain ⟨hname, hpub⟩ := not_or.mp hfresh
    obtain rfl := Except.ok.inj heq
    obtain ⟨hnames, hpubs, hout⟩ := ih hrest
    refine ⟨?_, ?_, ?_⟩
    · rw [List.map_cons, List.nodup_cons]
      refine ⟨?_, hnames⟩
      intro hmem
      obtain ⟨r, hr, hsame⟩ := List.mem_map.mp hmem
      exact (hout r hr).1 (hsame ▸ List.mem_cons_self)
    · rw [List.map_cons, List.nodup_cons]
      refine ⟨?_, hpubs⟩
      intro hmem
      obtain ⟨r, hr, hsame⟩ := List.mem_map.mp hmem
      exact (hout r hr).2 (hsame ▸ List.mem_cons_self)
    · intro r hr
      rcases List.mem_cons.mp hr with rfl | hr
      · exact ⟨hname, hpub⟩
      · obtain ⟨hn, hp⟩ := hout r hr
        exact ⟨fun hmem => hn (List.mem_cons_of_mem _ hmem),
          fun hmem => hp (List.mem_cons_of_mem _ hmem)⟩

/-- Every public key that is known under a name is that of the current or a retired key. -/
theorem lookup_knownKeys {current : LineageKey} {retired : List RetiredKey} {name pub : String}
    (h : (knownKeys current retired).lookup name = some pub) :
    ∃ k ∈ current :: retired.map RetiredKey.toLineageKey, k.name = name ∧ k.publicKey = pub := by
  unfold knownKeys at h
  induction retired using List.reverseRecOn with
  | nil =>
    rw [List.foldl_nil, Table.lookup_insert_eq] at h
    split_ifs at h with hname
    · obtain rfl := Option.some.inj h
      exact ⟨current, List.mem_cons_self, hname.symm, rfl⟩
    · cases h
  | append_singleton retired r ih =>
    rw [List.foldl_append, List.foldl_cons, List.foldl_nil, Table.lookup_insert_eq] at h
    split_ifs at h with hname
    · obtain rfl := Option.some.inj h
      refine ⟨r.toLineageKey, ?_, hname.symm, rfl⟩
      rw [List.map_append]
      exact List.mem_cons_of_mem _ (List.mem_append_right _ List.mem_cons_self)
    · obtain ⟨k, hk, hrest⟩ := ih h
      refine ⟨k, ?_, hrest⟩
      rw [List.map_append, ← List.cons_append]
      exact List.mem_append_left _ hk

/-- The statements that were verified, all of them and no others, name known keys. -/
theorem buildRotations_known {verify : Json → Except LineageError Verified}
    {known : Table String String} {i : Nat} {statements : List Json} {verified : List Verified}
    (h : buildRotations verify known i statements = .ok verified) :
    (∀ st ∈ statements, ∃ v ∈ verified, verify st = .ok v) ∧
      ∀ v ∈ verified, (∃ st ∈ statements, verify st = .ok v) ∧
        known.lookup v.old.name = some v.old.publicKey ∧
        known.lookup v.new.name = some v.new.publicKey := by
  induction statements generalizing i verified with
  | nil =>
    obtain rfl := Except.ok.inj h
    exact ⟨fun st hst => absurd hst List.not_mem_nil, fun v hv => absurd hv List.not_mem_nil⟩
  | cons st statements ih =>
    rw [buildRotations] at h
    simp only [bind_eq_ok_iff, require_eq_ok_iff, mapError_eq_ok_iff] at h
    obtain ⟨v, hv, _, hold, _, hnew, rest, hrest, heq⟩ := h
    obtain rfl := Except.ok.inj heq
    obtain ⟨hall, hknown⟩ := ih hrest
    refine ⟨?_, ?_⟩
    · intro st' hst'
      rcases List.mem_cons.mp hst' with rfl | hst'
      · exact ⟨v, List.mem_cons_self, hv⟩
      · obtain ⟨w, hw, hok⟩ := hall st' hst'
        exact ⟨w, List.mem_cons_of_mem v hw, hok⟩
    · intro w hw
      rcases List.mem_cons.mp hw with rfl | hw
      · exact ⟨⟨st, List.mem_cons_self, hv⟩, hold, hnew⟩
      · obtain ⟨⟨st', hst', hok⟩, hkeys⟩ := hknown w hw
        exact ⟨⟨st', List.mem_cons_of_mem st hst', hok⟩, hkeys⟩

end Accepted

variable {N : Normalizer} {sha256 : List UInt8 → Vector UInt8 32} {ed : Ed25519}

/-- A statement of the lineage, checked as at the start of the server. -/
def States (N : Normalizer) (sha256 : List UInt8 → Vector UInt8 32) (ed : Ed25519)
    (statements : List Json) (old new : LineageKey) : Prop :=
  ∃ st ∈ statements, ∃ v, verifyRotation N sha256 ed st = .ok v ∧ v.old = old ∧ v.new = new

/-- The keys that a lineage publishes, the current one first. -/
def Lineage.keys (l : Lineage) : List LineageKey :=
  l.current :: l.retired.map RetiredKey.toLineageKey

/-- What is accepted is the configuration itself, checked: every retired key is the old key of a
statement that was verified. -/
theorem Lineage.build_eq_ok {current : LineageKey} {retired : List RetiredFile}
    {statements : List Json} {l : Lineage}
    (h : Lineage.build N sha256 ed current retired statements = .ok l) :
    l.current = current ∧ l.rotations = statements ∧
      buildRetired 0 [current.name] [current.publicKey] retired = .ok l.retired ∧
      ∃ verified, buildRotations (verifyRotation N sha256 ed) (knownKeys current l.retired) 0
          statements = .ok verified ∧
        ∀ r ∈ l.retired, ∃ v ∈ verified, v.old.name = r.toLineageKey.name := by
  unfold Lineage.build at h
  simp only [bind_eq_ok_iff, require_eq_ok_iff] at h
  obtain ⟨_, _, keys, hkeys, verified, hverified, h⟩ := h
  split at h
  · cases h
  · next hlinked =>
    simp only [bind_eq_ok_iff, require_eq_ok_iff] at h
    obtain ⟨_, _, heq⟩ := h
    obtain rfl := Except.ok.inj heq
    refine ⟨rfl, rfl, hkeys, verified, hverified, fun r hr => ?_⟩
    have hin := List.find?_eq_none.mp hlinked r hr
    simpa using hin

/-- The keys of an accepted lineage differ in their names and in their public keys. -/
theorem Lineage.build_distinct {current : LineageKey} {retired : List RetiredFile}
    {statements : List Json} {l : Lineage}
    (h : Lineage.build N sha256 ed current retired statements = .ok l) :
    (l.keys.map fun k => (k.id, k.epoch)).Nodup ∧ (l.keys.map (·.publicKey)).Nodup := by
  obtain ⟨rfl, -, hretired, -⟩ := Lineage.build_eq_ok h
  obtain ⟨hnames, hpubs, hfresh⟩ := buildRetired_distinct hretired
  unfold Lineage.keys
  constructor
  · rw [List.map_cons, List.map_map, List.nodup_cons]
    constructor
    · intro hmem
      obtain ⟨r, hr, hsame⟩ := List.mem_map.mp hmem
      obtain ⟨hid, hepoch⟩ := Prod.mk.inj hsame
      exact (hfresh r hr).1 (List.mem_singleton.mpr (LineageKey.name_eq_iff.mpr ⟨hid, hepoch⟩))
    · apply List.Nodup.of_map (fun p : String × Int => p.1 ++ "/" ++ toString p.2)
      rw [List.map_map]
      exact hnames
  · rw [List.map_cons, List.map_map, List.nodup_cons]
    constructor
    · intro hmem
      obtain ⟨r, hr, hsame⟩ := List.mem_map.mp hmem
      exact (hfresh r hr).2 (List.mem_singleton.mpr hsame)
    · exact hpubs

/-- A statement of an accepted lineage is about its keys, with the public keys as listed. -/
theorem Lineage.build_names {current : LineageKey} {retired : List RetiredFile}
    {statements : List Json} {l : Lineage}
    (h : Lineage.build N sha256 ed current retired statements = .ok l) {st : Json}
    (hst : st ∈ statements) :
    ∃ v, verifyRotation N sha256 ed st = .ok v ∧ v.old ∈ l.keys ∧ v.new ∈ l.keys := by
  obtain ⟨rfl, -, -, verified, hverified, -⟩ := Lineage.build_eq_ok h
  obtain ⟨hall, hknown⟩ := buildRotations_known hverified
  obtain ⟨v, hv, hok⟩ := hall st hst
  have hmember : ∀ k : LineageKey, (knownKeys l.current l.retired).lookup k.name =
      some k.publicKey → k ∈ l.keys := by
    intro k hk
    obtain ⟨k', hk', hname, hpub⟩ := lookup_knownKeys hk
    obtain ⟨hid, hepoch⟩ := LineageKey.name_eq_iff.mp hname
    obtain ⟨id, epoch, publicKey⟩ := k
    obtain ⟨id', epoch', publicKey'⟩ := k'
    obtain ⟨rfl, rfl, rfl⟩ : id' = id ∧ epoch' = epoch ∧ publicKey' = publicKey :=
      ⟨hid, hepoch, hpub⟩
    exact hk'
  obtain ⟨-, hold, hnew⟩ := hknown v hv
  exact ⟨v, hok, hmember v.old hold, hmember v.new hnew⟩

/-- A statement of an accepted lineage leads on from every retired key. -/
theorem Lineage.build_linked {current : LineageKey} {retired : List RetiredFile}
    {statements : List Json} {l : Lineage}
    (h : Lineage.build N sha256 ed current retired statements = .ok l) {r : RetiredKey}
    (hr : r ∈ l.retired) : ∃ k, States N sha256 ed statements r.toLineageKey k := by
  obtain ⟨rfl, -, -, verified, hverified, hlinked⟩ := Lineage.build_eq_ok h
  obtain ⟨v, hv, hname⟩ := hlinked r hr
  obtain ⟨⟨st, hst, hok⟩, -⟩ := (buildRotations_known hverified).2 v hv
  obtain ⟨w, hw, hold, -⟩ := Lineage.build_names h hst
  obtain rfl := Except.ok.inj (hok.symm.trans hw)
  have hmem : r.toLineageKey ∈ l.keys := List.mem_cons_of_mem _ (List.mem_map_of_mem hr)
  -- Both are published keys, and these differ in their names.
  have hsame : v.old = r.toLineageKey := by
    obtain ⟨hid, hepoch⟩ := LineageKey.name_eq_iff.mp hname
    exact List.inj_on_of_nodup_map (Lineage.build_distinct h).1 hold hmem (by rw [hid, hepoch])
  exact ⟨v.new, st, hst, v, hok, hsame, rfl⟩

/-- The statements of an accepted lineage lead from every retired key to the current one exactly
if no cycle of retired keys is one that no statement leaves. They name the published keys only, and
these all differ. -/
theorem Lineage.build_holdsTogether {current : LineageKey} {retired : List RetiredFile}
    {statements : List Json} {l : Lineage}
    (h : Lineage.build N sha256 ed current retired statements = .ok l) :
    ((∀ r ∈ l.retired, Relation.ReflTransGen (States N sha256 ed statements) r.toLineageKey
        current) ↔
      ∀ cycle, cycle ⊆ l.retired.map RetiredKey.toLineageKey →
        ¬ ClosedCycle (States N sha256 ed statements) cycle) ∧
    (∀ st ∈ statements, ∃ v, verifyRotation N sha256 ed st = .ok v ∧ v.old ∈ l.keys ∧
      v.new ∈ l.keys) ∧
    (l.keys.map fun k => (k.id, k.epoch)).Nodup ∧ (l.keys.map (·.publicKey)).Nodup := by
  obtain ⟨hids, hpubs⟩ := Lineage.build_distinct h
  have hnames : ∀ st ∈ statements, _ := fun _ hst => Lineage.build_names h hst
  obtain ⟨rfl, -⟩ := Lineage.build_eq_ok h
  have hcurrent : l.current ∉ l.retired.map RetiredKey.toLineageKey := by
    intro hmem
    rw [Lineage.keys, List.map_cons, List.nodup_cons] at hpubs
    exact hpubs.1 (List.mem_map_of_mem hmem)
  have hlinked : ∀ k ∈ l.retired.map RetiredKey.toLineageKey,
      ∃ k', States N sha256 ed statements k k' :=
    List.forall_mem_map.mpr fun r hr => Lineage.build_linked h hr
  have hkeys : ∀ k ∈ l.retired.map RetiredKey.toLineageKey, ∀ k',
      States N sha256 ed statements k k' →
        k' = l.current ∨ k' ∈ l.retired.map RetiredKey.toLineageKey := by
    rintro k hk k' ⟨st, hst, v, hv, rfl, rfl⟩
    obtain ⟨w, hw, -, hnew⟩ := hnames st hst
    obtain rfl := Except.ok.inj (hv.symm.trans hw)
    exact List.mem_cons.mp hnew
  refine ⟨?_, hnames, hids, hpubs⟩
  exact List.forall_mem_map.symm.trans (forall_reaches_iff hcurrent hlinked hkeys)

/-- A rotation between two keys with epoch one is accepted. -/
theorem exists_verified {id id' : String} {a b : UInt8} (hid : id ≠ "" ∧ id' ≠ "" ∧ id ≠ id')
    (hab : a ≠ b) : ∃ st, verifyRotation .identity blankHash anySig st =
      .ok ⟨anyLineageKey id 1 a, anyLineageKey id' 1 b, someTime, "scheduled"⟩ := by
  have hpair := @distinctKeyPair_any id id' 1 1 a b hid (by omega) (by omega) hab
  obtain ⟨st, hst⟩ := @exists_signRotation .identity blankHash anySig _ _ someTime "scheduled" _ _
    hpair.oldSound hpair.newSound (by decide) rfl
  have hexact := @epochExact_of_lt 1 (by decide)
  exact ⟨st, (verifyRotation_of_signed hpair hst hexact hexact).1⟩

/-- An entry of the file of retired keys. -/
def retiredFile (id : String) (b : UInt8) : RetiredFile :=
  ⟨id, 1, pubString (anyKey b).verifyingKey, "retired", someTime⟩

/-- A retired key of the sample. -/
def retiredKey (id : String) (b : UInt8) : RetiredKey := ⟨anyLineageKey id 1 b, "retired", someTime⟩

/-- A retired key whose name and text are new is taken in. -/
theorem buildRetired_any {i : Nat} {seen seenPub : List String} {id : String} {b : UInt8}
    {files : List RetiredFile} {rest : List RetiredKey} (hid : id ≠ "")
    (hname : ∀ s ∈ seen, s ≠ (anyLineageKey id 1 b).name)
    (hpub : ∀ s ∈ seenPub, s ≠ pubString (anyKey b).verifyingKey)
    (hrest : buildRetired (i + 1) ((anyLineageKey id 1 b).name :: seen)
      (pubString (anyKey b).verifyingKey :: seenPub) files = .ok rest) :
    buildRetired i seen seenPub (retiredFile id b :: files) = .ok (retiredKey id b :: rest) := by
  rw [buildRetired]
  simp only [bind_eq_ok_iff, require_eq_ok_iff]
  have htime : isCanonicalTS someTime = true := by decide
  refine ⟨(), ⟨hid, (by decide : (0 : Int) ≤ 1)⟩, (), Or.inl rfl, (), htime, (), ?_, (), ?_,
    rest, hrest, rfl⟩
  · rw [show (retiredFile id b).publicKey = pubString (anyKey b).verifyingKey from rfl,
      decodePub_pubString]
    rfl
  · rintro (hmem | hmem)
    · exact hname _ hmem rfl
    · exact hpub _ hmem rfl

/-- A statement that verifies is taken in. -/
theorem buildRotations_cons {verify : Json → Except LineageError Verified}
    {known : Table String String} {i : Nat} {st : Json} {v : Verified} {statements : List Json}
    {rest : List Verified} (hv : verify st = .ok v)
    (hold : known.lookup v.old.name = some v.old.publicKey)
    (hnew : known.lookup v.new.name = some v.new.publicKey)
    (hrest : buildRotations verify known (i + 1) statements = .ok rest) :
    buildRotations verify known i (st :: statements) = .ok (v :: rest) := by
  rw [buildRotations]
  simp only [bind_eq_ok_iff, require_eq_ok_iff, mapError_eq_ok_iff]
  exact ⟨v, hv, (), hold, (), hnew, rest, hrest, rfl⟩

/-- The handover of one such key to another. -/
def anyVerified (id id' : String) (a b : UInt8) : Verified :=
  ⟨anyLineageKey id 1 a, anyLineageKey id' 1 b, someTime, "scheduled"⟩

/-- The retired keys of the trap. -/
def trapRetired : List RetiredKey := [retiredKey "a" 1, retiredKey "b" 2, retiredKey "c" 3]

/-- The three keys of the sample are taken in. -/
theorem buildRetired_trap :
    buildRetired 0 [(anyLineageKey "d" 1 4).name] [(anyLineageKey "d" 1 4).publicKey]
      [retiredFile "a" 1, retiredFile "b" 2, retiredFile "c" 3] = .ok trapRetired := by
  have hpub : ∀ a b : UInt8, a ≠ b → pubString (anyKey a).verifyingKey ≠
      pubString (anyKey b).verifyingKey := fun a b => anyKey_ne
  have hname : ∀ id id' a b, id ≠ id' →
      (anyLineageKey id 1 a).name ≠ (anyLineageKey id' 1 b).name := by
    intro id id' a b hne hsame
    exact hne (LineageKey.name_eq_iff.mp hsame).1
  refine buildRetired_any (by decide) ?_ ?_ (buildRetired_any (by decide) ?_ ?_
    (buildRetired_any (by decide) ?_ ?_ rfl))
  · simp only [List.forall_mem_cons, List.not_mem_nil, false_implies, implies_true, and_true]
    exact hname _ _ _ _ (by decide)
  · simp only [List.forall_mem_cons, List.not_mem_nil, false_implies, implies_true, and_true]
    exact hpub _ _ (by decide)
  · simp only [List.forall_mem_cons, List.not_mem_nil, false_implies, implies_true, and_true]
    exact ⟨hname _ _ _ _ (by decide), hname _ _ _ _ (by decide)⟩
  · simp only [List.forall_mem_cons, List.not_mem_nil, false_implies, implies_true, and_true]
    exact ⟨hpub _ _ (by decide), hpub _ _ (by decide)⟩
  · simp only [List.forall_mem_cons, List.not_mem_nil, false_implies, implies_true, and_true]
    exact ⟨hname _ _ _ _ (by decide), hname _ _ _ _ (by decide), hname _ _ _ _ (by decide)⟩
  · simp only [List.forall_mem_cons, List.not_mem_nil, false_implies, implies_true, and_true]
    exact ⟨hpub _ _ (by decide), hpub _ _ (by decide), hpub _ _ (by decide)⟩

/-- Every key of the trap is known under its name. -/
theorem lookup_trap {id : String} {b : UInt8}
    (h : (id, b) ∈ [("a", (1 : UInt8)), ("b", 2), ("c", 3), ("d", 4)]) :
    (knownKeys (anyLineageKey "d" 1 4) trapRetired).lookup (anyLineageKey id 1 b).name =
      some (anyLineageKey id 1 b).publicKey := by
  simp only [List.mem_cons, Prod.mk.injEq, List.not_mem_nil, or_false] at h
  unfold knownKeys trapRetired
  simp only [List.foldl_cons, List.foldl_nil, Table.lookup_insert_eq, retiredKey,
    LineageKey.name_eq_iff]
  rcases h with ⟨rfl, rfl⟩ | ⟨rfl, rfl⟩ | ⟨rfl, rfl⟩ | ⟨rfl, rfl⟩ <;> simp [anyLineageKey]

/-- Keys `a` and `b` hand over to each other and `c` to the key in use. -/
theorem exists_trap :
    ∃ statements : List Json,
      Lineage.build .identity blankHash anySig (anyLineageKey "d" 1 4)
          [retiredFile "a" 1, retiredFile "b" 2, retiredFile "c" 3] statements =
        .ok ⟨anyLineageKey "d" 1 4, trapRetired, statements⟩ ∧
      ¬ Relation.ReflTransGen (States .identity blankHash anySig statements) (anyLineageKey "a" 1 1)
        (anyLineageKey "d" 1 4) := by
  obtain ⟨st, hst⟩ := @exists_verified "a" "b" 1 2 (by decide) (by decide)
  obtain ⟨st', hst'⟩ := @exists_verified "b" "a" 2 1 (by decide) (by decide)
  obtain ⟨st'', hst''⟩ := @exists_verified "c" "d" 3 4 (by decide) (by decide)
  refine ⟨[st, st', st''], ?_, ?_⟩
  · have hrotations : buildRotations (verifyRotation .identity blankHash anySig)
        (knownKeys (anyLineageKey "d" 1 4) trapRetired) 0 [st, st', st''] =
          .ok [anyVerified "a" "b" 1 2, anyVerified "b" "a" 2 1, anyVerified "c" "d" 3 4] :=
      buildRotations_cons hst (lookup_trap (by simp)) (lookup_trap (by simp))
        (buildRotations_cons hst' (lookup_trap (by simp)) (lookup_trap (by simp))
          (buildRotations_cons hst'' (lookup_trap (by simp)) (lookup_trap (by simp)) rfl))
    unfold Lineage.build
    simp only [bind_eq_ok_iff, require_eq_ok_iff]
    refine ⟨(), ⟨(by decide : "d" ≠ ""), (by decide : (0 : Int) ≤ 1)⟩, trapRetired,
      buildRetired_trap, _, hrotations, ?_⟩
    have hlinked : (trapRetired.find? fun r => r.toLineageKey.name ∉
        [anyVerified "a" "b" 1 2, anyVerified "b" "a" 2 1, anyVerified "c" "d" 3 4].map
          fun v => v.old.name) = none := by
      simp [trapRetired, retiredKey, anyVerified]
    rw [hlinked]
    simp only [bind_eq_ok_iff, require_eq_ok_iff]
    exact ⟨(), Or.inr ⟨anyVerified "c" "d" 3 4, by simp, rfl, rfl⟩, rfl⟩
  · intro hreach
    have hstays : ∀ k, Relation.ReflTransGen (States .identity blankHash anySig [st, st', st''])
        (anyLineageKey "a" 1 1) k → k.id = "a" ∨ k.id = "b" := by
      intro k hk
      induction hk with
      | refl => exact Or.inl rfl
      | tail _ hstep ih =>
        obtain ⟨s, hs, v, hv, rfl, rfl⟩ := hstep
        simp only [List.mem_cons, List.not_mem_nil, or_false] at hs
        rcases hs with rfl | rfl | rfl
        · obtain rfl := Except.ok.inj (hst.symm.trans hv)
          exact Or.inr rfl
        · obtain rfl := Except.ok.inj (hst'.symm.trans hv)
          exact Or.inl rfl
        · obtain rfl := Except.ok.inj (hst''.symm.trans hv)
          exact absurd ih (by decide)
    exact absurd (hstays _ hreach) (by decide)

/-- The server accepts it, and nothing leads from `a` to the key in use. -/
theorem Lineage.build_trapped :
    ∃ (statements : List Json) (l : Lineage),
      Lineage.build .identity blankHash anySig (anyLineageKey "d" 1 4)
        [retiredFile "a" 1, retiredFile "b" 2, retiredFile "c" 3] statements = .ok l ∧
      ∃ r ∈ l.retired, ¬ Relation.ReflTransGen (States .identity blankHash anySig statements)
        r.toLineageKey (anyLineageKey "d" 1 4) := by
  obtain ⟨statements, hbuild, hstuck⟩ := exists_trap
  exact ⟨statements, _, hbuild, retiredKey "a" 1, List.mem_cons_self, hstuck⟩

/-- The cycle is found, and the keys differ all the same. -/
theorem Lineage.build_holdsTogether_trap :
    ∃ statements cycle, cycle ⊆ trapRetired.map RetiredKey.toLineageKey ∧
      ClosedCycle (States .identity blankHash anySig statements) cycle ∧
      ((anyLineageKey "d" 1 4 :: trapRetired.map RetiredKey.toLineageKey).map
        (·.publicKey)).Nodup := by
  obtain ⟨statements, hbuild, hstuck⟩ := exists_trap
  obtain ⟨hreach, -, -, hpubs⟩ := Lineage.build_holdsTogether hbuild
  have hsome := hreach.not.mp fun hall => hstuck (hall (retiredKey "a" 1) List.mem_cons_self)
  push Not at hsome
  obtain ⟨cycle, hsub, hcycle⟩ := hsome
  exact ⟨statements, cycle, hsub, hcycle, hpubs⟩

end Averin
