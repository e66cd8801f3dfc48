import Averin.Store.CountedStore

/-!
# The project behind a callback

The rules by which the project of a store is followed through the calls of a callback: what is read
is read of it, what is written makes the next one, and what is sealed and stored is so as its quota
allows. Nothing is said of a callback that fails.
-/

namespace Averin

namespace CountedStore

/-- A way to follow the project of a store through the calls of a callback. -/
structure Tracks (K : Project → CountedStore → Prop) : Prop where
  project : ∀ {p s}, K p s → s.project = p
  called : ∀ {p s} (k : Nat), K p s → K p { s with calls := k }
  written : ∀ {p s} (q : Project), K p s → K q { s with project := q }

/-- The store has a project, whatever it counted. -/
def HoldsProject (p : Project) (s : CountedStore) : Prop := s.project = p

/-- The store has a project and counted nothing yet. -/
structure Opened (n : Nat) (p : Project) (s : CountedStore) : Prop where
  project : s.project = p
  limit : s.max = n
  uncounted : s.created = 0
  unread : s.base = none

theorem holds_tracks : Tracks HoldsProject := ⟨fun h => h, fun _ h => h, fun _ _ => rfl⟩

theorem opened_tracks (n : Nat) : Tracks (Opened n) where
  project h := h.project
  called _ h := ⟨h.project, h.limit, h.uncounted, h.unread⟩
  written _ h := ⟨rfl, h.limit, h.uncounted, h.unread⟩

/-- One row was counted. -/
structure CountsOne (n : Nat) (p : Project) (s : CountedStore) : Prop where
  project : s.project = p
  limit : s.max = n
  created : s.created = 1

theorem countsOne_tracks (n : Nat) : Tracks (CountsOne n) where
  project h := h.project
  called _ h := ⟨h.project, h.limit, h.created⟩
  written _ h := ⟨rfl, h.limit, h.created⟩

/-- A store that counted nothing has its project. -/
theorem Opened.holds {n : Nat} {p : Project} {s : CountedStore} (h : Opened n p s) :
    HoldsProject p s :=
  h.project

section Rules

variable {ρ α β : Type} {K : Project → CountedStore → Prop} {p : Project}
  {post : α → CountedStore → Prop} {fail : TxError ρ → CountedStore → Prop}

/-- A call that is only counted changes nothing that is followed. -/
theorem Tracks.reach_spec (hK : Tracks K) (hdown : ∀ s, fail .unavailable s) :
    Attempt.Triple (K p) reach (fun _ => K p) fail := by
  intro s hs
  unfold reach
  rw [Attempt.exec_bind, Attempt.exec_get]
  dsimp only
  rw [Attempt.exec_bind, Attempt.exec_set]
  dsimp only
  split_ifs
  · exact hdown _
  · exact hK.called _ hs

/-- What is read is read of the project that is followed. -/
theorem Tracks.read_bind (hK : Tracks K) (hdown : ∀ s, fail .unavailable s) {f : Project → β}
    {g : β → Callback ρ α} (h : Attempt.Triple (K p) (g (f p)) post fail) :
    Attempt.Triple (K p) (read f >>= g) post fail := by
  have hread : Attempt.Triple (K p) (read f) (fun b s => b = f p ∧ K p s) fail := by
    unfold read
    apply Attempt.Triple.bind (hK.reach_spec hdown)
    intro _ s hs
    exact ⟨congrArg f (hK.project hs), hs⟩
  apply Attempt.Triple.bind hread
  rintro b s ⟨rfl, hs⟩
  exact h s hs

/-- A write leaves the next project, or is refused. -/
theorem Tracks.write_spec (hK : Tracks K) (hdown : ∀ s, fail .unavailable s)
    {f : Project → Except StoreError (β × Project)}
    (hrefused : ∀ e s, f p = .error e → K p s → fail (.store e) s) :
    Attempt.Triple (K p) (write f) (fun b s => ∃ q, f p = .ok (b, q) ∧ K q s) fail := by
  unfold write
  apply Attempt.Triple.bind (hK.reach_spec hdown)
  intro _ s hs
  rw [Attempt.exec_bind, Attempt.exec_get]
  dsimp only
  rw [hK.project hs]
  rcases hf : f p with e | ⟨b, q⟩
  · exact hrefused e s hf hs
  · exact ⟨q, rfl, hK.written q hs⟩

/-- What is written is written to the project that is followed. -/
theorem Tracks.write_bind (hK : Tracks K) {f : Project → Except StoreError (β × Project)}
    {g : β → Callback ρ α}
    (h : ∀ b q, f p = .ok (b, q) → Attempt.Triple (K q) (g b) post fun _ _ => True) :
    Attempt.Triple (K p) (write f >>= g) post fun _ _ => True := by
  apply Attempt.Triple.bind (hK.write_spec (fun _ => trivial) fun _ _ _ _ => trivial)
  rintro b s ⟨q, hq, hs⟩
  exact h b q hq s hs

/-- The number of rows before the first one that is counted. -/
theorem baseCount_first {n : Nat} (hp : p.RowInv) (hdown : ∀ s, fail .unavailable s) :
    Attempt.Triple (fun s => CountsOne n p s ∧ s.base = none) baseCount
      (fun b s => CountsOne n p s ∧ b = (p.records.length : Int) - 1) fail := by
  rintro s ⟨hs, hbase⟩
  unfold baseCount
  rw [Attempt.exec_bind, Attempt.exec_get]
  dsimp only
  rw [hbase]
  refine (countsOne_tracks n).read_bind hdown ?_ s hs
  intro t ht
  exact ⟨⟨ht.project, ht.limit, ht.created⟩, by rw [hp.recordCount_eq]⟩

/-- The first row is counted only within the limit. -/
theorem countRow_first {n : Nat} (hp : p.RowInv) (hdown : ∀ s, fail .unavailable s)
    (hquota : ∀ s, fail .quota s) :
    Attempt.Triple (Opened n p) countRow
      (fun _ s => HoldsProject p s ∧ (n ≠ 0 → p.records.length ≤ n)) fail := by
  intro s hs
  unfold countRow
  rw [Attempt.exec_bind, Attempt.exec_modify]
  dsimp only
  rw [Attempt.exec_bind, Attempt.exec_get]
  dsimp only
  split_ifs with hmax
  · refine Attempt.Triple.bind (baseCount_first (n := n) hp hdown) ?_ _
      ⟨⟨hs.project, hs.limit, by rw [hs.uncounted]; rfl⟩, hs.unread⟩
    rintro b t ⟨ht, rfl⟩
    rw [Attempt.exec_bind, Attempt.exec_get]
    dsimp only
    split_ifs with hover
    · exact hquota _
    · refine ⟨ht.project, fun _ => ?_⟩
      rw [ht.limit, ht.created] at hover
      omega
  · refine ⟨hs.project, fun hn => absurd ?_ hn⟩
    rw [← hs.limit]
    exact not_not.mp hmax

/-- A row is written, and within the limit if it is a new one. -/
theorem putRecord_followed {n : Nat} (hp : p.RowInv) (idem : String) (rec : Record)
    (hdown : ∀ s, fail .unavailable s) (hquota : ∀ s, fail .quota s)
    (hrefused : ∀ e s, p.putRecord idem rec = .error e → Opened n p s → fail (.store e) s) :
    Attempt.Triple (Opened n p) (putRecord idem rec)
      (fun a s => p.putRecord idem rec = .ok (a, s.project) ∧
        (a.2 = true → n ≠ 0 → s.project.records.length ≤ n)) fail := by
  unfold putRecord
  apply Attempt.Triple.bind ((opened_tracks n).write_spec hdown hrefused)
  rintro ⟨stored, created⟩ s ⟨q, hq, hs⟩
  cases created with
  | false =>
    refine ⟨?_, fun h => (by cases h)⟩
    rw [show s.project = q from hs.project]
    exact hq
  | true =>
    have hrows : q.RowInv := by
      have hcall := hp.call (.op (.putRecord idem rec))
      rw [Project.call_putRecord hq] at hcall
      exact hcall.1
    refine Attempt.Triple.bind (countRow_first hrows hdown hquota)
      (fun _ => Attempt.Triple.pure ?_) s hs
    rintro t ⟨ht, hwithin⟩
    rw [show t.project = q from ht]
    exact ⟨hq, fun _ => hwithin⟩

/-- What is sealed and stored is so as the quota of the project allows. A refused identifier leaves
the project alone. -/
theorem sealAndStore_followed {n : Nat} (hp : p.RowInv) (S : Sealer) (sessionId idem : String)
    (body : CanonValue) (disclosures : List DisclosureSecret) :
    Attempt.Triple (Opened n p) (sealAndStore (ρ := ρ) S sessionId idem body disclosures)
      (fun a s => sealCounted n S p sessionId idem body disclosures = .ok (a, s.project))
      fun e s => ∀ id, e = .store (.recordIDConflict id) → HoldsProject p s ∧
        sealCounted n S p sessionId idem body disclosures =
          .error (.store (.recordIDConflict id)) := by
  unfold sealAndStore
  apply Attempt.Triple.bind ((opened_tracks n).reach_spec fun _ id h => by cases h)
  intro _
  apply (opened_tracks n).read_bind fun _ id h => by cases h
  cases hsealed : S.sealRecord p sessionId body with
  | none => exact Attempt.Triple.throw fun _ _ id h => by cases h
  | some sealed =>
    refine Attempt.Triple.bind (putRecord_followed hp idem (sealedRecord sealed disclosures)
      (fun _ id h => by cases h) (fun _ id h => by cases h) ?_) ?_
    · rintro e s he hs id heq
      obtain rfl := TxError.store.inj heq
      refine ⟨hs.holds, ?_⟩
      rw [sealCounted, Averin.sealAndStore, hsealed]
      dsimp only
      rw [he]
    · rintro ⟨stored, created⟩
      apply Attempt.Triple.pure
      rintro s ⟨hput, hwithin⟩
      rw [sealCounted, Averin.sealAndStore, hsealed]
      dsimp only
      rw [hput]
      dsimp only
      rw [if_neg]
      rintro ⟨hcreated, hn, hover⟩
      exact absurd (hwithin hcreated (by omega)) (by omega)

end Rules

end CountedStore

end Averin
