import Averin.Canon.Object
import Averin.Canon.RoundTrip
import Mathlib.Data.List.Perm.Basic

/-!
# Values that say the same thing

Two values are the same up to the order of object members and the normal form of their
texts. For values without repeated keys this is exactly having one canonical form, and
exactly being written with the same bytes.
-/

namespace Averin

/-- Equal up to reordering the members of every object and normalizing every string and
key. -/
inductive Same (N : Normalizer) : CanonValue → CanonValue → Prop
  | null : Same N .null .null
  | bool (b : Bool) : Same N (.bool b) (.bool b)
  | int (n : Int64) : Same N (.int n) (.int n)
  | str {s t : String} : nfc N s = nfc N t → Same N (.str s) (.str t)
  | arr {xs ys : List CanonValue} : xs.length = ys.length →
      (∀ p ∈ xs.zip ys, Same N p.1 p.2) → Same N (.arr xs) (.arr ys)
  | obj {ms ms' ns : List (String × CanonValue)} : ms.Perm ms' → ms'.length = ns.length →
      (∀ p ∈ ms'.zip ns, nfc N p.1.1 = nfc N p.2.1) →
      (∀ p ∈ ms'.zip ns, Same N p.1.2 p.2.2) → Same N (.obj ms) (.obj ns)

/-- Two lists with the same image, position by position. -/
theorem map_eq_map_iff_zip {α β γ : Type*} {f : α → γ} {g : β → γ} {xs : List α} {ys : List β} :
    xs.map f = ys.map g ↔ xs.length = ys.length ∧ ∀ p ∈ xs.zip ys, f p.1 = g p.2 := by
  induction xs generalizing ys with
  | nil => cases ys <;> simp
  | cons x xs ih =>
    cases ys with
    | nil => simp
    | cons y ys => simp only [List.map_cons, List.cons.injEq, ih, List.length_cons,
        List.zip_cons_cons, List.forall_mem_cons, Nat.add_right_cancel_iff]; tauto

/-- Images that agree as multisets agree position by position after a rearrangement. -/
theorem exists_perm_map_eq {α β γ : Type*} {f : α → γ} {g : β → γ} {xs : List α} {ys : List β}
    (h : (xs.map f).Perm (ys.map g)) : ∃ xs', xs.Perm xs' ∧ xs'.map f = ys.map g := by
  have hc := congrFun (congrFun (List.eq_map_comp_perm f) (ys.map g)) xs
  obtain ⟨xs', heq, hperm⟩ := hc.mpr h.symm
  exact ⟨xs', hperm.symm, heq.symm⟩

variable {N : Normalizer} {a b : CanonValue}

/-- One canonical form from the relation. -/
theorem Same.canonical_eq (h : Same N a b) (ha : DistinctNfcKeys N a) :
    canonical N a = canonical N b := by
  induction h with
  | null => rfl
  | bool b => rfl
  | int n => rfl
  | str hs => rw [canonical, canonical, hs]
  | arr hlen _ ih =>
    obtain _ | _ | _ | _ | ha | _ := ha
    rw [canonical, canonical, canonicalItems_eq_map, canonicalItems_eq_map]
    refine congrArg CanonValue.arr (map_eq_map_iff_zip.mpr ⟨hlen, fun p hp => ?_⟩)
    exact ih p hp (ha p.1 (List.of_mem_zip hp).1)
  | @obj ms ms' ns hperm hlen hkey _ ih =>
    obtain _ | _ | _ | _ | _ | ⟨hn, ha⟩ := ha
    rw [canonical, canonical, canonicalMembers_eq_map, canonicalMembers_eq_map]
    have heq : ms'.map (fun m => (nfc N m.1, canonical N m.2)) =
        ns.map fun m => (nfc N m.1, canonical N m.2) := by
      refine map_eq_map_iff_zip.mpr ⟨hlen, fun p hp => Prod.ext (hkey p hp) ?_⟩
      exact ih p hp (ha p.1 (hperm.mem_iff.mpr (List.of_mem_zip hp).1))
    rw [← heq]
    refine congrArg CanonValue.obj (sortMembers_eq_of_perm (hperm.map _) ?_)
    simpa [Function.comp_def] using hn

/-- The relation from one canonical form. -/
theorem same_of_canonical_eq (h : canonical N a = canonical N b) : Same N a b := by
  induction a generalizing b with
  | null =>
    cases b with
    | null => exact .null
    | _ => simp [canonical] at h
  | bool x =>
    cases b with
    | bool y =>
      simp only [canonical, CanonValue.bool.injEq] at h
      exact h ▸ .bool x
    | _ => simp [canonical] at h
  | int m =>
    cases b with
    | int n =>
      simp only [canonical, CanonValue.int.injEq] at h
      exact h ▸ .int m
    | _ => simp [canonical] at h
  | str s =>
    cases b with
    | str t =>
      simp only [canonical, CanonValue.str.injEq] at h
      exact .str h
    | _ => simp [canonical] at h
  | arr xs ih =>
    cases b with
    | arr ys =>
      simp only [canonical, CanonValue.arr.injEq, canonicalItems_eq_map] at h
      obtain ⟨hlen, hzip⟩ := map_eq_map_iff_zip.mp h
      exact .arr hlen fun p hp => ih p.1 (List.of_mem_zip hp).1 (hzip p hp)
    | _ => simp [canonical] at h
  | obj ms ih =>
    cases b with
    | obj ns =>
      simp only [canonical, CanonValue.obj.injEq, canonicalMembers_eq_map] at h
      have hperm := (sortMembers_perm (ms.map fun m => (nfc N m.1, canonical N m.2))).symm
      rw [h] at hperm
      replace hperm := hperm.trans (sortMembers_perm _)
      obtain ⟨ms', hms, heq⟩ := exists_perm_map_eq hperm
      obtain ⟨hlen, hzip⟩ := map_eq_map_iff_zip.mp heq
      refine .obj hms hlen (fun p hp => (Prod.mk.inj (hzip p hp)).1) fun p hp => ?_
      exact ih p.1 (hms.mem_iff.mpr (List.of_mem_zip hp).1) (Prod.mk.inj (hzip p hp)).2
    | _ => simp [canonical] at h

/-- Fewer members repeat no key either. -/
theorem DistinctNfcKeys.sublist {ms ls : List (String × CanonValue)}
    (h : DistinctNfcKeys N (.obj ms)) (hl : ls.Sublist ms) : DistinctNfcKeys N (.obj ls) := by
  obtain _ | _ | _ | _ | _ | ⟨hkeys, hvals⟩ := h
  exact .obj (((hl.map _).map _).nodup hkeys) fun m hm => hvals m (hl.subset hm)

/-- Distinct keys are inherited by the members. -/
theorem DistinctNfcKeys.of_mem {ms : List (String × CanonValue)} {key : String} {v : CanonValue}
    (h : DistinctNfcKeys N (.obj ms)) (hm : (key, v) ∈ ms) : DistinctNfcKeys N v := by
  obtain _ | _ | _ | _ | _ | ⟨-, hvals⟩ := h
  exact hvals (key, v) hm

/-- The keys of an object are distinct in normal form. -/
theorem DistinctNfcKeys.nodup {ms : List (String × CanonValue)} (h : DistinctNfcKeys N (.obj ms)) :
    (ms.map fun m => nfc N m.1).Nodup := by
  obtain _ | _ | _ | _ | _ | ⟨hkeys, -⟩ := h
  simpa [Function.comp_def] using hkeys

/-- Objects with the same members up to order and normal form have one canonical form. -/
theorem canonical_obj_eq_iff {ms ns : List (String × CanonValue)}
    (hm : (ms.map fun m => nfc N m.1).Nodup) :
    canonical N (.obj ms) = canonical N (.obj ns) ↔
      (ms.map fun m => (nfc N m.1, canonical N m.2)).Perm
        (ns.map fun m => (nfc N m.1, canonical N m.2)) := by
  rw [canonical, canonical, canonicalMembers_eq_map, canonicalMembers_eq_map,
    CanonValue.obj.injEq]
  constructor
  · intro h
    exact (sortMembers_perm _).symm.trans (h ▸ sortMembers_perm _)
  · intro h
    refine sortMembers_eq_of_perm h ?_
    simpa [Function.comp_def] using hm

/-- A canonical form is its own. -/
theorem canonical_canonical (N : Normalizer) (v : CanonValue) :
    canonical N (canonical N v) = canonical N v := by
  induction v with
  | null => rfl
  | bool b => rfl
  | int n => rfl
  | str s => rw [canonical, canonical, nfc_nfc]
  | arr items ih =>
    simp only [canonical, canonicalItems_eq_map, List.map_map, CanonValue.arr.injEq]
    exact List.map_congr_left ih
  | obj members ih =>
    rw [canonical_obj, canonical_obj, writingOrder_writingOrder, List.map_map]
    refine congrArg CanonValue.obj (List.map_congr_left fun m hm => ?_)
    obtain ⟨m', hm', rfl⟩ := exists_of_mem_writingOrder hm
    rw [Function.comp_apply, ih m' hm']

/-- Values without repeated keys are written alike exactly when they say the same thing. -/
theorem writeCanonical_bytes_eq_iff (ha : DistinctNfcKeys N a) (hb : DistinctNfcKeys N b) :
    (writeCanonical N a).bytes = (writeCanonical N b).bytes ↔ Same N a b := by
  constructor
  · intro h
    have hta := writeCanonical_text ha (le_max_left a.depth b.depth)
    have htb := writeCanonical_text hb (le_max_right a.depth b.depth)
    rw [h] at hta
    exact same_of_canonical_eq (hta.unique htb)
  · intro h
    rw [← writeCanonical_canonical N a, h.canonical_eq ha, writeCanonical_canonical]

/-- More room does not hurt. -/
theorem ValueText.mono {room room' : Nat} {w : List UInt8} {v : CanonValue}
    (h : ValueText N room w v) (hroom : room ≤ room') : ValueText N room' w v := by
  induction h generalizing room' with
  | null => exact .null
  | true => exact .true
  | false => exact .false
  | int hw => exact .int hw
  | str hw => exact .str hw
  | emptyArr hw =>
    obtain ⟨room', rfl⟩ := Nat.exists_eq_add_of_lt (show 0 < room' by omega)
    rw [Nat.zero_add]
    exact .emptyArr hw
  | arr hne hws _ ih =>
    obtain ⟨room', rfl⟩ := Nat.exists_eq_add_of_lt (show 0 < room' by omega)
    rw [Nat.zero_add] at hroom ⊢
    exact .arr hne hws fun p hp => ih p hp (by omega)
  | emptyObj hw =>
    obtain ⟨room', rfl⟩ := Nat.exists_eq_add_of_lt (show 0 < room' by omega)
    rw [Nat.zero_add]
    exact .emptyObj hw
  | obj hne hws hkeys _ hn ih =>
    obtain ⟨room', rfl⟩ := Nat.exists_eq_add_of_lt (show 0 < room' by omega)
    rw [Nat.zero_add] at hroom ⊢
    exact .obj hne hws hkeys (fun m hm => ih m hm (by omega)) hn

/-- The canonical form is as deep. -/
theorem le_depth_canonical (N : Normalizer) (v : CanonValue) :
    v.depth ≤ (canonical N v).depth := by
  induction v with
  | null | bool b | int n | str s => exact Nat.zero_le _
  | arr items ih =>
    rw [canonical, canonicalItems_eq_map, CanonValue.depth, CanonValue.depth]
    refine Nat.succ_le_succ (CanonValue.depthItems_le fun v hv => (ih v hv).trans ?_)
    exact CanonValue.depth_le_depthItems (List.mem_map_of_mem hv)
  | obj members ih =>
    rw [canonical, canonicalMembers_eq_map, CanonValue.depth, CanonValue.depth]
    refine Nat.succ_le_succ (CanonValue.depthMembers_le fun m hm => (ih m hm).trans ?_)
    exact @CanonValue.depth_le_depthMembers (nfc N m.1, canonical N m.2) _
      ((sortMembers_perm _).mem_iff.mpr (List.mem_map.mpr ⟨m, hm, rfl⟩))

/-- The text of a value is read back only within the depth of the parser. -/
theorem depth_le_of_parse {v v' : CanonValue} {t : String} (hv : DistinctNfcKeys N v)
    (ht : serialize N v = some t) (hp : parse N t = .ok v') : v.depth ≤ maxDepth := by
  obtain ⟨t', ht', hbytes⟩ := exists_serialize N v
  obtain rfl : t' = t := Option.some.inj (ht'.symm.trans ht)
  obtain ⟨before, text, after, hbefore, hafter, hdoc, htext⟩ :=
    (parseDocument_eq_ok_iff_document N _ _).mp hp
  have hown := writeCanonical_text hv (le_max_right maxDepth v.depth)
  have hread := htext.mono (le_max_left maxDepth v.depth)
  rw [← hbytes] at hown
  obtain rfl : before = [] := by
    obtain ⟨b, r, hb, hsolid⟩ := hown.solid
    cases before with
    | nil => rfl
    | cons c before =>
      obtain ⟨rfl, -⟩ := List.cons.inj (hdoc.symm.trans hb)
      exact absurd (hbefore c List.mem_cons_self) hsolid
  -- one parser reads both from the start, so they are one value
  have hreads : Reads (bytes t') 0 (bytes t') (bytes t').length := ⟨by simp, by simp⟩
  have hreads' : Reads (bytes t') 0 text text.length := by
    rw [hdoc]
    exact ⟨by simp, by simp⟩
  have hstop : ValueStop (bytes t') text.length := by
    intro b hb
    rw [hdoc, List.nil_append, List.getElem?_append_right le_rfl, Nat.sub_self] at hb
    exact hafter.valueStop_mem (List.mem_of_getElem? hb)
  have hp1 := parseValue_complete hown _ _ hreads (by simp [ValueStop])
  have hp2 := parseValue_complete hread _ _ hreads' hstop
  obtain ⟨rfl, -⟩ := Prod.mk.inj (Except.ok.inj (hp1.symm.trans hp2))
  exact (le_depth_canonical N v).trans htext.wellFormed.2.2

end Averin
