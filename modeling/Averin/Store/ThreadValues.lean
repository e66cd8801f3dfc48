import Averin.Store.Threads

/-!
# Copies of their own

Projects and handles that are in use have no cell in common, whatever the goroutines do. The
store with references therefore behaves as the one with plain values: it can take the same
steps, gives the same answers, and what it holds are the same values.
-/

namespace Averin

/-- What holds an object that is in use. -/
inductive Holder where
  | published (project : String)
  | handle (t : Nat)
  deriving DecidableEq, Repr

/-- The store as the code holds it. -/
abbrev HeapMem := SharedMem (Cells ProjectField.Val) (Refs ProjectField)

/-- The store with plain values. -/
abbrev ValueMem := SharedMem Unit StoredProject

/-- No move brings a copy back into use. -/
theorem TaskControl.live_of_move {c c' : TaskControl} {free : Bool} {m : TaskMove}
    (h : c.move free m = some c') (hlive : c'.stage.live = true) : c.stage.live = true := by
  obtain ⟨kind, cancelled, stage, claimed⟩ := c
  cases m with
  | cancel =>
    cases kind <;> cases h <;> exact hlive
  | acquire | giveUp | refuse =>
    simp only [TaskControl.move] at h
    split_ifs at h
    cases h
    cases hlive
  | ret ok =>
    by_cases hs : stage = .running
    · rw [hs]
      rfl
    · rw [TaskControl.move, if_neg hs] at h
      cases h
  | commitPoint =>
    by_cases hs : stage = .returned
    · rw [hs]
      rfl
    · rw [TaskControl.move, if_neg hs] at h
      cases h
  | unlock =>
    cases stage <;> cases h
    cases hlive

/-- A handle serves its own project while the callback runs. -/
theorem TaskControl.checkProject_eq_none {c : TaskControl} {project : String} :
    c.checkProject project = none ↔ c.stage = .running ∧ project = c.project := by
  unfold TaskControl.checkProject
  split_ifs with h₁ h₂
  · simp [h₁]
  · simp [h₂]
  · simp [not_not.mp h₁, not_not.mp h₂]

/-- A task that may write is running. -/
theorem TaskControl.running_of_mutation {c : TaskControl} {project : String}
    (h : c.mutation project = none) : c.stage = .running := by
  unfold TaskControl.mutation at h
  cases hc : c.checkProject project with
  | none => exact (TaskControl.checkProject_eq_none.mp hc).1
  | some e => rw [hc] at h; cases h

namespace SharedMem

variable {σ α : Type}

/-- The object a goroutine works on. -/
def liveHandle (task : Task α) : Option α := if task.stage.live then task.handle else none

/-- The object a holder has in use. -/
def owns (s : SharedMem σ α) : Holder → Option α
  | .published project => s.projects.lookup project
  | .handle t => (s.tasks.lookup t).bind liveHandle

/-- A task that is put owns what its handle owns. -/
theorem owns_put (s : SharedMem σ α) (t : Nat) (task : Task α) (h : Holder) :
    (s.put t task).owns h = if h = .handle t then liveHandle task else s.owns h := by
  cases h with
  | published project => rfl
  | handle t' =>
    simp only [owns, put, Table.lookup_insert_eq, Holder.handle.injEq]
    split_ifs <;> rfl

/-- Owning does not depend on the memory. -/
theorem owns_withMem (s : SharedMem σ α) (m : σ) (h : Holder) :
    ({ s with mem := m } : SharedMem σ α).owns h = s.owns h := by
  cases h <;> rfl

/-- A project is locked when a task holds it. -/
theorem locked_eq_true {s : SharedMem σ α} {project : String} :
    s.locked project = true ↔
      ∃ t task, s.tasks.lookup t = some task ∧ task.project = project ∧ task.holds = true := by
  simp only [locked, List.any_eq_true, Table.mem_values_iff, Bool.and_eq_true, decide_eq_true_eq]
  constructor
  · rintro ⟨task, ⟨t, ht⟩, h⟩
    exact ⟨t, task, ht, h⟩
  · rintro ⟨t, task, ht, h⟩
    exact ⟨task, ⟨t, ht⟩, h⟩

/-- The store with references holds what the one with values does, without any sharing. -/
structure Sim (s : HeapMem) (v : ValueMem) : Prop where
  claims : s.claims = v.claims
  controls : ∀ t, (s.tasks.lookup t).map (·.toTaskControl) =
    (v.tasks.lookup t).map (·.toTaskControl)
  handles : ∀ t, (s.tasks.lookup t).map (·.handle.isSome) =
    (v.tasks.lookup t).map (·.handle.isSome)
  values : ∀ h, (s.owns h).map (heapObjects.load s.mem) = v.owns h
  below : ∀ h o, s.owns h = some o → o.Below s.mem.next
  apart : ∀ h h' o o', s.owns h = some o → s.owns h' = some o' → h ≠ h' → o.Apart o'

/-- The stores side by side after a step in which one holder gets another object. -/
theorem Sim.change {s s' : HeapMem} {v v' : ValueMem} (h : Sim s v) (x : Holder)
    (hclaims : s'.claims = v'.claims)
    (hcontrols : ∀ t, (s'.tasks.lookup t).map (·.toTaskControl) =
      (v'.tasks.lookup t).map (·.toTaskControl))
    (hhandles : ∀ t, (s'.tasks.lookup t).map (·.handle.isSome) =
      (v'.tasks.lookup t).map (·.handle.isSome))
    (hother : ∀ y, y ≠ x → s'.owns y = s.owns y ∧ v'.owns y = v.owns y)
    (hload : ∀ y o, y ≠ x → s.owns y = some o → s'.mem.load o = s.mem.load o)
    (hnext : s.mem.next ≤ s'.mem.next)
    (hvalue : (s'.owns x).map (heapObjects.load s'.mem) = v'.owns x)
    (hbelow : ∀ o, s'.owns x = some o → o.Below s'.mem.next)
    (hapart : ∀ o, s'.owns x = some o → ∀ y o', y ≠ x → s.owns y = some o' → o.Apart o') :
    Sim s' v' where
  claims := hclaims
  controls := hcontrols
  handles := hhandles
  values y := by
    by_cases hy : y = x
    · rw [hy, hvalue]
    · rw [(hother y hy).1, (hother y hy).2, ← h.values y]
      cases ho : s.owns y with
      | none => rfl
      | some o => simp only [Option.map_some, heapObjects, hload y o hy ho]
  below y o ho := by
    by_cases hy : y = x
    · subst hy
      exact hbelow o ho
    · rw [(hother y hy).1] at ho
      exact (h.below y o ho).mono hnext
  apart y y' o o' ho ho' hne := by
    by_cases hy : y = x
    · subst hy
      rw [(hother y' hne.symm).1] at ho'
      exact hapart o ho y' o' hne.symm ho'
    · rw [(hother y hy).1] at ho
      by_cases hy' : y' = x
      · subst hy'
        exact (hapart o' ho' y o hy ho).symm
      · rw [(hother y' hy').1] at ho'
        exact h.apart y y' o o' ho ho' hne

/-- Goroutines that agree replace goroutines that agree. -/
theorem Sim.put {s : HeapMem} {v : ValueMem} (h : Sim s v) (t : Nat) {a : Task (Refs ProjectField)}
    {b : Task StoredProject} (hcontrol : a.toTaskControl = b.toTaskControl)
    (hhandle : a.handle.isSome = b.handle.isSome)
    (hvalue : (liveHandle a).map (heapObjects.load s.mem) = liveHandle b)
    (hbelow : ∀ o, liveHandle a = some o → o.Below s.mem.next)
    (hapart : ∀ o, liveHandle a = some o → ∀ y o', y ≠ .handle t → s.owns y = some o' →
      o.Apart o') : Sim (s.put t a) (v.put t b) := by
  refine h.change (.handle t) h.claims ?_ ?_ ?_ (fun _ _ _ _ => rfl) le_rfl ?_ ?_ ?_
  · intro t'
    simp only [SharedMem.put, Table.lookup_insert_eq]
    split_ifs
    · simp only [Option.map_some, hcontrol]
    · exact h.controls t'
  · intro t'
    simp only [SharedMem.put, Table.lookup_insert_eq]
    split_ifs
    · simp only [Option.map_some, hhandle]
    · exact h.handles t'
  · intro y hy
    rw [owns_put, owns_put, if_neg hy, if_neg hy]
    exact ⟨rfl, rfl⟩
  · rw [owns_put, owns_put, if_pos rfl, if_pos rfl]
    exact hvalue
  · intro o ho
    rw [owns_put, if_pos rfl] at ho
    exact hbelow o ho
  · intro o ho y o' hy ho'
    rw [owns_put, if_pos rfl] at ho
    exact hapart o ho y o' hy ho'

/-- What the stores know of one goroutine. -/
theorem Sim.task_cases {s : HeapMem} {v : ValueMem} (h : Sim s v) (t : Nat) :
    (s.tasks.lookup t = none ∧ v.tasks.lookup t = none) ∨
      ∃ a b, s.tasks.lookup t = some a ∧ v.tasks.lookup t = some b ∧
        a.toTaskControl = b.toTaskControl ∧ a.handle.isSome = b.handle.isSome := by
  have hc := h.controls t
  have hh := h.handles t
  cases ha : s.tasks.lookup t with
  | none =>
    rw [ha] at hc
    cases hb : v.tasks.lookup t with
    | none => exact Or.inl ⟨rfl, rfl⟩
    | some b => rw [hb] at hc; cases hc
  | some a =>
    rw [ha] at hc hh
    cases hb : v.tasks.lookup t with
    | none => rw [hb] at hc; cases hc
    | some b =>
      rw [hb] at hc hh
      exact Or.inr ⟨a, b, rfl, rfl, Option.some.inj hc, Option.some.inj hh⟩

/-- Both memories lock the same projects. -/
theorem Sim.locked_eq {s : HeapMem} {v : ValueMem} (h : Sim s v) (project : String) :
    s.locked project = v.locked project := by
  rw [Bool.eq_iff_iff, locked_eq_true, locked_eq_true]
  constructor
  · rintro ⟨t, a, ha, hp, hh⟩
    rcases h.task_cases t with ⟨hn, -⟩ | ⟨a', b, ha', hb, hc, -⟩
    · rw [ha] at hn; cases hn
    · cases ha.symm.trans ha'
      exact ⟨t, b, hb, hc ▸ hp, hc ▸ hh⟩
  · rintro ⟨t, b, hb, hp, hh⟩
    rcases h.task_cases t with ⟨-, hn⟩ | ⟨a, b', ha, hb', hc, -⟩
    · rw [hb] at hn; cases hn
    · cases hb.symm.trans hb'
      exact ⟨t, a, ha, hc ▸ hp, hc ▸ hh⟩

/-- A goroutine that is no further with its copy keeps it. -/
theorem Sim.put_control {s : HeapMem} {v : ValueMem} (h : Sim s v) {t : Nat}
    {a : Task (Refs ProjectField)} {b : Task StoredProject} (ha : s.tasks.lookup t = some a)
    (hb : v.tasks.lookup t = some b) (hhandle : a.handle.isSome = b.handle.isSome)
    (c : TaskControl) (hlive : c.stage.live = true → a.stage.live = true ∧ b.stage.live = true) :
    Sim (s.put t { a with toTaskControl := c }) (v.put t { b with toTaskControl := c }) := by
  have hown : ∀ o, liveHandle { a with toTaskControl := c } = some o →
      s.owns (.handle t) = some o := by
    intro o ho
    unfold liveHandle at ho
    split_ifs at ho with hc
    · simp only [owns, ha, Option.bind_some, liveHandle, (hlive hc).1, if_true]
      exact ho
  refine h.put t rfl hhandle ?_ ?_ ?_
  · unfold liveHandle
    split_ifs with hc
    · have hv := h.values (.handle t)
      simp only [owns, ha, hb, Option.bind_some, liveHandle, (hlive hc).1, (hlive hc).2,
        if_true] at hv
      exact hv
    · rfl
  · intro o ho
    exact h.below _ o (hown o ho)
  · intro o ho y o' hy ho'
    exact h.apart _ y o o' (hown o ho) ho' hy.symm

/-- Claims are the same value in both. -/
theorem Sim.withClaims {s : HeapMem} {v : ValueMem} (h : Sim s v)
    (claims : Table LedgerKey ClaimOwner) :
    Sim { s with claims := claims } { v with claims := claims } where
  claims := rfl
  controls := h.controls
  handles := h.handles
  values := h.values
  below := h.below
  apart := h.apart

/-- What the handle of a goroutine in its callback is for. -/
theorem Sim.handle_value {s : HeapMem} {v : ValueMem} (h : Sim s v) {t : Nat}
    {a : Task (Refs ProjectField)} {b : Task StoredProject} (ha : s.tasks.lookup t = some a)
    (hb : v.tasks.lookup t = some b) (hc : a.toTaskControl = b.toTaskControl)
    (hlive : a.stage.live = true) {o : Refs ProjectField} {p : StoredProject}
    (ho : a.handle = some o) (hp : b.handle = some p) :
    s.owns (.handle t) = some o ∧ heapObjects.load s.mem o = p := by
  have hown : s.owns (.handle t) = some o := by
    simp only [owns, ha, Option.bind_some, liveHandle, hlive, if_true, ho]
  refine ⟨hown, ?_⟩
  have hv := h.values (.handle t)
  rw [hown] at hv
  simp only [owns, hb, Option.bind_some, liveHandle, ← hc, hlive, if_true, hp] at hv
  exact Option.some.inj hv

/-- Asking for a project does the same on both sides. -/
theorem Sim.proj {s : HeapMem} {v : ValueMem} (h : Sim s v) (project : String) :
    Sim (s.proj heapObjects project).2 (v.proj valueObjects project).2 ∧
      (s.proj heapObjects project).2.owns (.published project) =
        some (s.proj heapObjects project).1 ∧
      heapObjects.load (s.proj heapObjects project).2.mem (s.proj heapObjects project).1 =
        (v.proj valueObjects project).1 ∧
      (s.proj heapObjects project).2.tasks = s.tasks ∧
      (v.proj valueObjects project).2.tasks = v.tasks := by
  have hv := h.values (.published project)
  simp only [owns] at hv
  cases hs : s.projects.lookup project with
  | some o =>
    rw [hs, Option.map_some] at hv
    simp only [SharedMem.proj, hs, ← hv]
    exact ⟨h, hs, trivial, trivial, trivial⟩
  | none =>
    rw [hs, Option.map_none] at hv
    simp only [SharedMem.proj, hs, ← hv, heapObjects, valueObjects, owns]
    refine ⟨?_, AList.lookup_insert _, ?_, trivial, trivial⟩
    · have hother : ∀ {σ α : Type} (u : SharedMem σ α) (m : σ) (o : α) (y : Holder),
          y ≠ .published project →
          ({ u with mem := m, projects := u.projects.insert project o } : SharedMem σ α).owns y =
            u.owns y := by
        intro σ α u m o y hy
        cases y with
        | published project' =>
          exact AList.lookup_insert_ne fun he => hy (congrArg Holder.published he)
        | handle t => rfl
      refine h.change (.published project) h.claims h.controls h.handles
        (fun y hy => ⟨hother s _ _ y hy, hother v _ _ y hy⟩)
        (fun y o _ ho => Cells.load_alloc_of_below (h.below y o ho) _)
        (Nat.le_succ _) ?_ ?_ ?_
      · simp only [owns, AList.lookup_insert, Option.map_some, heapObjects,
          Cells.load_alloc_self, StoredProject.ofFields_fields]
      · intro o ho
        simp only [owns, AList.lookup_insert, Option.some.injEq] at ho
        subst ho
        exact Cells.alloc_below _
      · intro o ho y o' _ ho'
        simp only [owns, AList.lookup_insert, Option.some.injEq] at ho
        subst ho
        exact Cells.alloc_apart (h.below y o' ho') _
    · simp only [Cells.load_alloc_self, StoredProject.ofFields_fields]

/-- A snapshot shares nothing, as every field is cloned. -/
theorem Sim.takeSnapshot {s : HeapMem} {v : ValueMem} (h : Sim s v) {t : Nat}
    {a : Task (Refs ProjectField)} {b : Task StoredProject}
    (hc : a.toTaskControl = b.toTaskControl) :
    Sim (s.takeSnapshot heapObjects t a) (v.takeSnapshot valueObjects t b) := by
  obtain ⟨h₁, hown, hload, -, -⟩ := h.proj a.project
  have hb : b.project = a.project := by rw [TaskControl.project, TaskControl.project, hc]
  simp only [SharedMem.takeSnapshot, hb]
  generalize s.proj heapObjects a.project = r at h₁ hown hload
  generalize v.proj valueObjects a.project = w at h₁ hload
  obtain ⟨o, s₁⟩ := r
  obtain ⟨p, v₁⟩ := w
  dsimp only at h₁ hown hload ⊢
  have hmem : Sim { s₁ with mem := (s₁.mem.copy o ProjectField.cloned).2 } v₁ := by
    refine h₁.change (.published a.project) h₁.claims h₁.controls h₁.handles
      (fun _ _ => ⟨rfl, rfl⟩) (fun y o' _ ho' => Cells.load_copy_of_below (h₁.below y o' ho') _)
      (Nat.le_succ _) ?_ ?_ ?_
    · rw [← h₁.values]
      change (s₁.owns (.published a.project)).map _ = _
      rw [hown, Option.map_some, Option.map_some]
      simp only [heapObjects, Cells.load_copy_of_below (h₁.below _ o hown)]
    · intro o' ho'
      rw [owns_withMem] at ho'
      exact (h₁.below _ o' ho').mono (Nat.le_succ _)
    · intro o' ho' y o'' hy ho''
      rw [owns_withMem] at ho'
      exact h₁.apart _ y o' o'' ho' ho'' hy.symm
  refine hmem.put t (by simp only [hc]) rfl ?_ ?_ ?_
  · simp only [liveHandle, TaskStage.live, if_true, Option.map_some, valueObjects, heapObjects,
      Cells.load_copy_self ProjectField.cloned_eq_true, Option.some.injEq]
    exact hload
  · intro o' ho'
    simp only [liveHandle, TaskStage.live, if_true, Option.some.injEq, heapObjects] at ho'
    subst ho'
    exact Cells.copy_below ProjectField.cloned_eq_true
  · intro o' ho' y o'' _ ho''
    simp only [liveHandle, TaskStage.live, if_true, Option.some.injEq, heapObjects] at ho'
    subst ho'
    exact Cells.copy_apart (h₁.below y o'' ho'') ProjectField.cloned_eq_true

/-- A write through a handle is seen through that handle only. -/
theorem Sim.save_handle {s : HeapMem} {v : ValueMem} (h : Sim s v) {t : Nat}
    {a : Task (Refs ProjectField)} {b : Task StoredProject}
    (hc : a.toTaskControl = b.toTaskControl) {o : Refs ProjectField}
    (hown : s.owns (.handle t) = some o) (p : StoredProject) :
    Sim ({ s with mem := s.mem.store o p.fields }.put t { a with handle := some o })
      (v.put t { b with handle := some p }) := by
  refine h.change (.handle t) h.claims ?_ ?_ ?_ ?_ le_rfl ?_ ?_ ?_
  · intro t'
    simp only [SharedMem.put, Table.lookup_insert_eq]
    split_ifs
    · simp only [Option.map_some, hc]
    · exact h.controls t'
  · intro t'
    simp only [SharedMem.put, Table.lookup_insert_eq]
    split_ifs
    · rfl
    · exact h.handles t'
  · intro y hy
    rw [owns_put, owns_put, if_neg hy, if_neg hy]
    exact ⟨by cases y <;> rfl, rfl⟩
  · intro y o' hy ho'
    exact Cells.load_store_of_apart (h.apart y _ o' o ho' hown hy) _
  · rw [owns_put, owns_put, if_pos rfl, if_pos rfl]
    simp only [liveHandle, hc]
    split_ifs
    · simp only [Option.map_some, SharedMem.put, heapObjects, Cells.load_store_self,
        StoredProject.ofFields_fields]
    · rfl
  · intro o' ho'
    rw [owns_put, if_pos rfl] at ho'
    unfold liveHandle at ho'
    split_ifs at ho'
    cases ho'
    exact h.below _ o hown
  · intro o' ho' y o'' hy ho''
    rw [owns_put, if_pos rfl] at ho'
    unfold liveHandle at ho'
    split_ifs at ho'
    cases ho'
    exact h.apart _ y o o'' hown ho'' hy.symm

/-- A write to the published project is seen there only. -/
theorem Sim.save_published {s : HeapMem} {v : ValueMem} (h : Sim s v) {project : String}
    {o : Refs ProjectField} (hown : s.owns (.published project) = some o) (p : StoredProject) :
    Sim { s with mem := s.mem.store o p.fields, projects := s.projects.insert project o }
      { v with projects := v.projects.insert project p } := by
  refine h.change (.published project) h.claims h.controls h.handles ?_ ?_ le_rfl ?_ ?_ ?_
  · intro y hy
    cases y with
    | published project' =>
      have hne : project' ≠ project := fun he => hy (congrArg Holder.published he)
      exact ⟨AList.lookup_insert_ne hne, AList.lookup_insert_ne hne⟩
    | handle t => exact ⟨rfl, rfl⟩
  · intro y o' hy ho'
    exact Cells.load_store_of_apart (h.apart y _ o' o ho' hown hy) _
  · simp only [owns, AList.lookup_insert, Option.map_some, heapObjects, Cells.load_store_self,
      StoredProject.ofFields_fields]
  · intro o' ho'
    simp only [owns, AList.lookup_insert, Option.some.injEq] at ho'
    subst ho'
    exact h.below _ o hown
  · intro o' ho' y o'' hy ho''
    simp only [owns, AList.lookup_insert, Option.some.injEq] at ho'
    subst ho'
    exact h.apart _ y o o'' hown ho'' hy.symm

/-- A copy that is published is not worked on any more. -/
theorem Sim.publish {s : HeapMem} {v : ValueMem} (h : Sim s v) {t : Nat}
    {a : Task (Refs ProjectField)} {b : Task StoredProject} (hc : a.toTaskControl = b.toTaskControl)
    {o : Refs ProjectField} {p : StoredProject} (hown : s.owns (.handle t) = some o)
    (hload : heapObjects.load s.mem o = p) (ho : a.handle = some o) (hp : b.handle = some p)
    (project : String) :
    Sim ({ s with projects := s.projects.insert project o }.put t { a with stage := .ended true })
      ({ v with projects := v.projects.insert project p }.put t
        { b with stage := .ended true }) where
  claims := h.claims
  controls t' := by
    simp only [SharedMem.put, Table.lookup_insert_eq]
    split_ifs
    · simp only [Option.map_some, hc]
    · exact h.controls t'
  handles t' := by
    simp only [SharedMem.put, Table.lookup_insert_eq]
    split_ifs
    · simp only [Option.map_some, ho, hp, Option.isSome_some]
    · exact h.handles t'
  values y := by
    rw [owns_put, owns_put]
    split_ifs with hy
    · rfl
    · cases y with
      | published project' =>
        simp only [owns, Table.lookup_insert_eq]
        split_ifs
        · exact congrArg some hload
        · exact h.values (.published project')
      | handle t' => exact h.values (.handle t')
  below y o' ho' := by
    rw [owns_put] at ho'
    split_ifs at ho' with hy
    · cases ho'
    · cases y with
      | published project' =>
        simp only [owns, Table.lookup_insert_eq] at ho'
        split_ifs at ho'
        · cases ho'
          exact h.below _ o hown
        · exact h.below (.published project') o' ho'
      | handle t' => exact h.below (.handle t') o' ho'
  apart y y' o₁ o₂ ho₁ ho₂ hne := by
    -- the object of the handle is now the published one: nothing else changes hands
    have hfrom : ∀ z w, ({ s with projects := s.projects.insert project o }.put t
        { a with stage := .ended true }).owns z = some w →
        ∃ z', s.owns z' = some w ∧ (z' = if z = .published project then .handle t else z) ∧
          z ≠ .handle t := by
      intro z w hz
      rw [owns_put] at hz
      split_ifs at hz with hzt
      · cases hz
      · cases z with
        | published project' =>
          simp only [owns, Table.lookup_insert_eq] at hz
          split_ifs at hz with hp'
          · cases hz
            exact ⟨.handle t, hown, by rw [hp', if_pos rfl], hzt⟩
          · exact ⟨.published project', hz, by simp [hp'], hzt⟩
        | handle t' => exact ⟨.handle t', hz, by simp, hzt⟩
    obtain ⟨z₁, hz₁, he₁, hn₁⟩ := hfrom y o₁ ho₁
    obtain ⟨z₂, hz₂, he₂, hn₂⟩ := hfrom y' o₂ ho₂
    refine h.apart z₁ z₂ o₁ o₂ hz₁ hz₂ ?_
    rw [he₁, he₂]
    split_ifs with h₁ h₂ h₂
    · exact absurd (h₁.trans h₂.symm) hne
    · exact fun he => hn₂ he.symm
    · exact hn₁
    · exact hne

/-- A call through a handle does the same on both sides. -/
theorem Sim.callHandle {s : HeapMem} {v : ValueMem} (h : Sim s v) {t : Nat}
    {a : Task (Refs ProjectField)} {b : Task StoredProject} (ha : s.tasks.lookup t = some a)
    (hb : v.tasks.lookup t = some b) (hc : a.toTaskControl = b.toTaskControl)
    {o : Refs ProjectField} {p : StoredProject} (ho : a.handle = some o) (hp : b.handle = some p)
    (op : MemCall) :
    Sim (s.callHandle heapObjects t a o op).1 (v.callHandle valueObjects t b p op).1 ∧
      (s.callHandle heapObjects t a o op).2 = (v.callHandle valueObjects t b p op).2 := by
  unfold SharedMem.callHandle
  cases op.early true with
  | some e => exact ⟨h, rfl⟩
  | none =>
    dsimp only
    rw [← hc]
    cases hm : a.mutation op.project with
    | some e => exact ⟨h, rfl⟩
    | none =>
      have hlive : a.stage.live = true := by
        rw [TaskControl.running_of_mutation hm]
        rfl
      obtain ⟨hown, hload⟩ := h.handle_value ha hb hc hlive ho hp
      dsimp only
      rw [hload]
      simp only [valueObjects]
      cases op.apply true p with
      | error e => exact ⟨h, rfl⟩
      | ok r =>
        obtain ⟨reply, q⟩ := r
        have h' := h.save_handle hc hown q
        rw [← hc] at h'
        exact ⟨h', rfl⟩

/-- A call on the store itself does the same on both sides. -/
theorem Sim.performDirect {s : HeapMem} {v : ValueMem} (h : Sim s v) {t : Nat}
    {a : Task (Refs ProjectField)} {b : Task StoredProject} (ha : s.tasks.lookup t = some a)
    (hb : v.tasks.lookup t = some b) (hc : a.toTaskControl = b.toTaskControl)
    (hhandle : a.handle.isSome = b.handle.isSome) (op : MemCall) :
    Sim (s.performDirect heapObjects t a op).1 (v.performDirect valueObjects t b op).1 ∧
      (s.performDirect heapObjects t a op).2 = (v.performDirect valueObjects t b op).2 := by
  obtain ⟨h₁, hown, hload, hts, htv⟩ := h.proj op.project
  unfold SharedMem.performDirect
  generalize s.proj heapObjects op.project = r at h₁ hown hload hts
  generalize v.proj valueObjects op.project = w at h₁ hload htv
  obtain ⟨o, s₁⟩ := r
  obtain ⟨p, v₁⟩ := w
  dsimp only at h₁ hown hload hts htv ⊢
  rw [hload]
  have hdone : ∀ {s' : HeapMem} {v' : ValueMem}, Sim s' v' → s'.tasks = s.tasks →
      v'.tasks = v.tasks →
      Sim (s'.put t { a with stage := .settled true })
        (v'.put t { b with stage := .settled true }) :=
    fun h' hs hv => by
      have hb' : ({ b with stage := .settled true } : Task StoredProject) =
          { b with toTaskControl := { a.toTaskControl with stage := .settled true } } := by
        rw [hc]
      rw [hb']
      exact h'.put_control (hs ▸ ha) (hv ▸ hb) hhandle
        { a.toTaskControl with stage := .settled true } fun hl => by cases hl
  simp only [valueObjects]
  cases op.apply false p with
  | error e => exact ⟨hdone h₁ hts htv, rfl⟩
  | ok r =>
    obtain ⟨reply, q⟩ := r
    exact ⟨hdone (h₁.save_published hown q) hts htv, rfl⟩

/-- Two steps fail together or lead to stores side by side, with one answer. -/
def SimStep : Option (HeapMem × TaskReply) → Option (ValueMem × TaskReply) → Prop :=
  Option.Rel fun x y => Sim x.1 y.1 ∧ x.2 = y.2

section Steps

variable {s : HeapMem} {v : ValueMem} {t : Nat}

/-- A step of a goroutine is taken in both stores or in neither. -/
theorem Sim.ofTask {f : Task (Refs ProjectField) → Option (HeapMem × TaskReply)}
    {g : Task StoredProject → Option (ValueMem × TaskReply)} (h : Sim s v)
    (hfg : ∀ a b, s.tasks.lookup t = some a → v.tasks.lookup t = some b →
      a.toTaskControl = b.toTaskControl → a.handle.isSome = b.handle.isSome →
      SimStep (f a) (g b)) :
    SimStep ((s.tasks.lookup t).bind f) ((v.tasks.lookup t).bind g) := by
  rcases h.task_cases t with ⟨hs, hv⟩ | ⟨a, b, ha, hb, hc, hhandle⟩
  · rw [hs, hv]
    exact .none
  · have hstep := hfg a b ha hb hc hhandle
    rw [ha, hb]
    exact hstep

/-- So is a step through a handle. -/
theorem SimStep.ofHandle {a : Task (Refs ProjectField)} {b : Task StoredProject}
    {f : Refs ProjectField → HeapMem × TaskReply} {g : StoredProject → ValueMem × TaskReply}
    (hhandle : a.handle.isSome = b.handle.isSome)
    (hfg : ∀ o p, a.handle = some o → b.handle = some p →
      Sim (f o).1 (g p).1 ∧ (f o).2 = (g p).2) :
    SimStep (a.handle.map f) (b.handle.map g) := by
  cases ho : a.handle with
  | none =>
    rw [ho] at hhandle
    rw [Option.isSome_eq_false_iff.mp hhandle.symm |> Option.isNone_iff_eq_none.mp]
    exact .none
  | some o =>
    rw [ho] at hhandle
    obtain ⟨p, hp⟩ := Option.isSome_iff_exists.mp hhandle.symm
    rw [hp]
    exact .some (hfg o p ho hp)

theorem Sim.start (h : Sim s v) (kind : TaskKind) :
    SimStep (s.step heapObjects (.start t kind)) (v.step valueObjects (.start t kind)) := by
  simp only [SharedMem.step]
  rcases h.task_cases t with ⟨hs, hv⟩ | ⟨a, b, ha, hb, -, -⟩
  · rw [hs, hv]
    cases kind.early with
    | none =>
      exact .some ⟨h.put t rfl rfl rfl (fun _ ho => by cases ho) (fun _ ho => by cases ho), rfl⟩
    | some e =>
      exact .some ⟨h.put t rfl rfl rfl (fun _ ho => by cases ho) (fun _ ho => by cases ho), rfl⟩
  · rw [ha, hb]
    exact .none

theorem Sim.move (h : Sim s v) (m : TaskMove) :
    SimStep (s.step heapObjects (.move t m)) (v.step valueObjects (.move t m)) := by
  refine h.ofTask fun a b ha hb hc hhandle => ?_
  have hfree : a.project = b.project := by rw [TaskControl.project, TaskControl.project, hc]
  rw [← hfree, ← hc, h.locked_eq]
  cases hmove : a.move (!v.locked a.project) m with
  | none => exact .none
  | some c =>
    refine .some ⟨h.put_control ha hb hhandle c fun hl => ?_, rfl⟩
    have hlive := TaskControl.live_of_move hmove hl
    exact ⟨hlive, hc ▸ hlive⟩

theorem Sim.snapshot (h : Sim s v) :
    SimStep (s.step heapObjects (.snapshot t)) (v.step valueObjects (.snapshot t)) := by
  refine h.ofTask fun a b ha hb hc hhandle => ?_
  rw [← hc]
  by_cases hready : a.ready = true
  · rw [if_pos hready, if_pos hready]
    exact .some ⟨h.takeSnapshot hc, rfl⟩
  · rw [if_neg hready, if_neg hready]
    exact .none

/-- A look through a handle shows one project. -/
theorem Sim.look (h : Sim s v) (project : String) :
    SimStep (s.step heapObjects (.look t project)) (v.step valueObjects (.look t project)) := by
  refine h.ofTask fun a b ha hb hc hhandle => .ofHandle hhandle fun o p ho hp => ⟨h, ?_⟩
  unfold SharedMem.lookHandle
  rw [← hc]
  cases hm : a.checkProject project with
  | some e => rfl
  | none =>
    have hlive : a.stage.live = true := by
      rw [(TaskControl.checkProject_eq_none.mp hm).1]
      rfl
    dsimp only
    rw [(h.handle_value ha hb hc hlive ho hp).2]
    rfl

theorem Sim.consume (h : Sim s v) (c : LedgerClaim) :
    SimStep (s.step heapObjects (.consume t c)) (v.step valueObjects (.consume t c)) := by
  refine h.ofTask fun a b ha hb hc hhandle => .ofHandle hhandle fun o p ho hp => ?_
  unfold SharedMem.consumeHandle
  rw [← hc, h.claims]
  split_ifs
  · exact ⟨h, rfl⟩
  · exact ⟨h, rfl⟩
  · refine ⟨?_, rfl⟩
    have h' := (h.withClaims (v.claims.insert c.key ⟨some t, c.owner⟩)).put_control ha hb hhandle
      { a.toTaskControl with claimed := a.claimed ++ [c.key] } fun hl => ⟨hl, hc ▸ hl⟩
    rw [hc] at h' ⊢
    exact h'

theorem Sim.release (h : Sim s v) (c : LedgerClaim) :
    SimStep (s.step heapObjects (.release t c)) (v.step valueObjects (.release t c)) := by
  refine h.ofTask fun a b ha hb hc hhandle => .ofHandle hhandle fun o p ho hp => ⟨?_, rfl⟩
  unfold SharedMem.releaseHandle
  rw [← hc, h.claims]
  split_ifs
  · exact h.withClaims _
  · exact h

theorem Sim.publishStep (h : Sim s v) :
    SimStep (s.step heapObjects (.publish t)) (v.step valueObjects (.publish t)) := by
  refine h.ofTask fun a b ha hb hc hhandle => ?_
  rw [← hc]
  by_cases hstage : a.stage = .committing
  · rw [if_pos hstage, if_pos hstage]
    refine .ofHandle hhandle fun o p ho hp => ⟨?_, rfl⟩
    have hlive : a.stage.live = true := by rw [hstage]; rfl
    obtain ⟨hown, hload⟩ := h.handle_value ha hb hc hlive ho hp
    have h' := h.publish hc hown hload ho hp a.project
    rw [← hc] at h'
    exact h'
  · rw [if_neg hstage, if_neg hstage]
    exact .none

theorem Sim.settle (h : Sim s v) :
    SimStep (s.step heapObjects (.settle t)) (v.step valueObjects (.settle t)) := by
  refine h.ofTask fun a b ha hb hc hhandle => ?_
  rw [← hc]
  cases hstage : a.stage with
  | ended committed =>
    refine .some ⟨?_, rfl⟩
    have h' := (h.withClaims (a.claimed.foldl (Mem.settleKey t committed) v.claims)).put_control
      ha hb hhandle { a.toTaskControl with stage := .settled committed } fun hl => by cases hl
    rw [h.claims]
    rw [hc] at h' ⊢
    exact h'
  | waiting | locked | running | returned | committing | settled _ | finished _ => exact .none

theorem Sim.perform (h : Sim s v) :
    SimStep (s.step heapObjects (.perform t)) (v.step valueObjects (.perform t)) := by
  refine h.ofTask fun a b ha hb hc hhandle => ?_
  rw [← hc]
  cases hkind : a.kind with
  | write project | read project => exact .none
  | direct op =>
    dsimp only
    split_ifs
    · exact .some (h.performDirect ha hb hc hhandle op)
    · exact .none

/-- The stores take the same steps, and give the same answers. -/
theorem Sim.step (h : Sim s v) (act : TaskAction) :
    SimStep (s.step heapObjects act) (v.step valueObjects act) := by
  cases act with
  | start t kind => exact h.start kind
  | move t m => exact h.move m
  | snapshot t => exact h.snapshot
  | call t op =>
    exact h.ofTask fun a b ha hb hc hhandle =>
      .ofHandle hhandle fun o p ho hp => h.callHandle ha hb hc ho hp op
  | look t project => exact h.look project
  | consume t c => exact h.consume c
  | release t c => exact h.release c
  | publish t => exact h.publishStep
  | settle t => exact h.settle
  | perform t => exact h.perform
  | peek project =>
    obtain ⟨h₁, -, hload, -⟩ := h.proj project
    exact .some ⟨h₁, congrArg (fun p => TaskReply.value (.ok p)) hload⟩

end Steps

/-- The stores make the same runs. -/
theorem Sim.run {s : HeapMem} {v : ValueMem} (h : Sim s v) (acts : List TaskAction) :
    Option.Rel Sim (s.run heapObjects acts) (v.run valueObjects acts) := by
  induction acts generalizing s v with
  | nil => exact .some h
  | cons act acts ih =>
    have hstep := h.step act
    simp only [SharedMem.run]
    generalize s.step heapObjects act = x at hstep ⊢
    generalize v.step valueObjects act = y at hstep ⊢
    cases hstep with
    | none => exact .none
    | some hxy => exact ih hxy.1

/-- Before anything happens. -/
def newMem : HeapMem := { mem := ⟨fun f _ => ({} : StoredProject).fields f, 0⟩ }

/-- Both begin alike. -/
theorem sim_new : Sim newMem { mem := () } where
  claims := rfl
  controls _ := rfl
  handles _ := rfl
  values h := by cases h <;> rfl
  below h o ho := by cases h <;> cases ho
  apart h _ o _ ho := by cases h <;> cases ho

end SharedMem

end Averin
