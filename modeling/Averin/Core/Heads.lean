import Mathlib.Data.List.Infix
import Mathlib.Data.List.Nodup
import Mathlib.Logic.Relation

/-!
# Heads of a log

A log whose entries name entries before them only, each under a key of its own. Its heads are the
keys no entry names. They move with the log, and from the heads of a beginning of the log exactly
that beginning is reached, however long the log has grown since.
-/

namespace Averin

variable {α κ : Type*} (key : α → κ) (parents : α → List κ)

/-- Every entry names entries before it only. -/
def NamesEarlier (log : List α) : Prop :=
  ∀ before a, before ++ [a] <+: log → ∀ k ∈ parents a, k ∈ before.map key

/-- A key of the log that no entry names. -/
def IsHead (log : List α) (k : κ) : Prop := k ∈ log.map key ∧ ∀ a ∈ log, k ∉ parents a

/-- An entry of the log has the first key and names the second. -/
def NamedBy (log : List α) (k k' : κ) : Prop := ∃ a ∈ log, key a = k ∧ k' ∈ parents a

variable {key parents} {log log' old new : List α} {k : κ}

theorem namesEarlier_nil : NamesEarlier key parents [] := by
  intro before a h
  simp at h

/-- What holds of a log holds of its beginnings. -/
theorem NamesEarlier.of_prefix (h : NamesEarlier key parents log') (hpre : log <+: log') :
    NamesEarlier key parents log :=
  fun before a hp => h before a (hp.trans hpre)

/-- An entry may follow if it names what is there. -/
theorem NamesEarlier.append_singleton (h : NamesEarlier key parents log) {a : α}
    (ha : ∀ k ∈ parents a, k ∈ log.map key) : NamesEarlier key parents (log ++ [a]) := by
  intro before b hp
  rcases List.prefix_concat_iff.mp hp with heq | hp
  · obtain ⟨rfl, hlast⟩ := List.append_inj' heq rfl
    obtain rfl := List.singleton_inj.mp hlast
    exact ha
  · exact h before b hp

/-- A parent stands in the log. -/
theorem NamesEarlier.mem_of_mem_parents (h : NamesEarlier key parents log) {a : α} (ha : a ∈ log)
    (hk : k ∈ parents a) : k ∈ log.map key := by
  obtain ⟨before, after, rfl⟩ := List.append_of_mem ha
  have hk := h before a ⟨after, by simp⟩ k hk
  rw [List.map_append]
  exact List.mem_append_left _ hk

/-- The heads of a longer log: what the new entries leave of the old heads, and what they add. -/
theorem isHead_append (h : NamesEarlier key parents (old ++ new))
    (hkeys : ((old ++ new).map key).Nodup) :
    IsHead key parents (old ++ new) k ↔
      (IsHead key parents old k ∨ k ∈ new.map key) ∧ ∀ a ∈ new, k ∉ parents a := by
  constructor
  · rintro ⟨hmem, hnone⟩
    rw [List.map_append, List.mem_append] at hmem
    refine ⟨hmem.imp_left fun hold => ⟨hold, ?_⟩, ?_⟩
    · intro a ha
      exact hnone a (List.mem_append_left _ ha)
    · intro a ha
      exact hnone a (List.mem_append_right _ ha)
  · rintro ⟨hcases, hnew⟩
    have hold : k ∈ (old ++ new).map key ∧ ∀ a ∈ old, k ∉ parents a := by
      rw [List.map_append, List.mem_append]
      rcases hcases with hhead | hin
      · exact ⟨Or.inl hhead.1, hhead.2⟩
      · refine ⟨Or.inr hin, fun a ha hk => ?_⟩
        -- An old entry names old keys, and the keys of the new entries are others.
        rw [List.map_append] at hkeys
        have hearlier := (h.of_prefix (List.prefix_append old new)).mem_of_mem_parents ha hk
        exact List.disjoint_of_nodup_append hkeys hearlier hin
    refine ⟨hold.1, fun a ha => ?_⟩
    rcases List.mem_append.mp ha with ha | ha
    · exact hold.2 a ha
    · exact hnew a ha

/-- A longer log names what a shorter one does. -/
theorem NamedBy.mono (hsub : log ⊆ log') {k' : κ} (h : NamedBy key parents log k k') :
    NamedBy key parents log' k k' := by
  obtain ⟨a, ha, hname⟩ := h
  exact ⟨a, hsub ha, hname⟩

/-- A longer log reaches what a shorter one does. -/
theorem reached_mono (hsub : log ⊆ log') {top : κ}
    (h : Relation.ReflTransGen (NamedBy key parents log) top k) :
    Relation.ReflTransGen (NamedBy key parents log') top k :=
  Relation.ReflTransGen.mono (fun _ _ hstep => NamedBy.mono hsub hstep) _ _ h

/-- Every key is reached from a head. -/
theorem NamesEarlier.reached (h : NamesEarlier key parents log) (hkeys : (log.map key).Nodup)
    (hk : k ∈ log.map key) :
    ∃ top, IsHead key parents log top ∧
      Relation.ReflTransGen (NamedBy key parents log) top k := by
  induction log using List.reverseRecOn generalizing k with
  | nil => cases hk
  | append_singleton log a ih =>
    have hlog := h.of_prefix (List.prefix_append log [a])
    have hhead : ∀ top, IsHead key parents (log ++ [a]) top ↔
        (IsHead key parents log top ∨ top = key a) ∧ top ∉ parents a := by
      intro top
      rw [isHead_append h hkeys]
      simp
    have hlast : IsHead key parents (log ++ [a]) (key a) := by
      refine (hhead _).mpr ⟨Or.inr rfl, fun hself => ?_⟩
      have hin := h log a List.prefix_rfl _ hself
      rw [List.map_append] at hkeys
      exact List.disjoint_of_nodup_append hkeys hin (by simp)
    rw [List.map_append, List.mem_append] at hk
    rcases hk with hk | hk
    · rw [List.map_append] at hkeys
      obtain ⟨top, htop, hreach⟩ := ih hlog hkeys.of_append_left hk
      have hreach : Relation.ReflTransGen (NamedBy key parents (log ++ [a])) top k :=
        reached_mono (List.subset_append_left log [a]) hreach
      by_cases hnamed : top ∈ parents a
      · exact ⟨key a, hlast, Relation.ReflTransGen.head ⟨a, by simp, rfl, hnamed⟩ hreach⟩
      · exact ⟨top, (hhead top).mpr ⟨Or.inl htop, hnamed⟩, hreach⟩
    · obtain rfl : k = key a := by simpa using hk
      exact ⟨key a, hlast, Relation.ReflTransGen.refl⟩

/-- What is reached from a beginning of the log lies in it. -/
theorem NamesEarlier.reached_mem (h : NamesEarlier key parents log) (hkeys : (log.map key).Nodup)
    (hpre : old <+: log) {top : κ} (htop : top ∈ old.map key)
    (hreach : Relation.ReflTransGen (NamedBy key parents log) top k) : k ∈ old.map key := by
  induction hreach with
  | refl => exact htop
  | tail _ hstep ih =>
    obtain ⟨a, ha, rfl, hk⟩ := hstep
    obtain ⟨b, hb, hab⟩ := List.mem_map.mp ih
    obtain rfl := List.inj_on_of_nodup_map hkeys (hpre.subset hb) ha hab
    exact (h.of_prefix hpre).mem_of_mem_parents hb hk

/-- From the heads of a beginning exactly the beginning is reached. -/
theorem NamesEarlier.reached_iff (h : NamesEarlier key parents log)
    (hkeys : (log.map key).Nodup) (hpre : old <+: log) :
    (∃ top, IsHead key parents old top ∧
      Relation.ReflTransGen (NamedBy key parents log) top k) ↔ k ∈ old.map key := by
  constructor
  · rintro ⟨top, htop, hreach⟩
    exact h.reached_mem hkeys hpre htop.1 hreach
  · intro hk
    have hnodup := hkeys.sublist (hpre.sublist.map key)
    obtain ⟨top, htop, hreach⟩ := (h.of_prefix hpre).reached hnodup hk
    exact ⟨top, htop, reached_mono hpre.subset hreach⟩

/-- No key is named by way of itself. -/
theorem NamesEarlier.acyclic (h : NamesEarlier key parents log) (hkeys : (log.map key).Nodup)
    (k : κ) : ¬ Relation.TransGen (NamedBy key parents log) k k := by
  intro hcycle
  obtain ⟨top, ⟨a, ha, rfl, htop⟩, hreach⟩ := Relation.TransGen.head'_iff.mp hcycle
  obtain ⟨before, after, rfl⟩ := List.append_of_mem ha
  have hearlier := h before a ⟨after, by simp⟩ top htop
  have hin := h.reached_mem hkeys (List.prefix_append before (a :: after)) hearlier hreach
  rw [List.map_append, List.map_cons] at hkeys
  exact List.disjoint_of_nodup_append hkeys hin List.mem_cons_self

end Averin
