import Averin.Core.Table

/-!
# One lock a key

Operations under one key take turns, and operations under different keys do not wait for each
other. The entry of a key is made by the first call that wants it and counts the calls that hold
or want it; the last one takes it out of the map. Each critical section is one step, and so is
taking and giving back the lock of an entry, so that a run is any order in which the calls get
their turns.
-/

namespace Averin

/-- An entry of the map, with who holds it and how many use it. -/
structure KeyedMutexEntry where
  /-- The call that holds the lock of the entry. -/
  holder : Option Nat
  refs : Int
  deriving DecidableEq, Repr

/-- Where a call is: before the lock of its entry, holding it, past it, and out. -/
inductive LockStage where
  | waiting (e : Nat)
  | holding (e : Nat)
  | unlocked (e : Nat)
  | gone
  deriving DecidableEq, Repr

/-- The entry that a call refers to. -/
def LockStage.entry? : LockStage → Option Nat
  | .waiting e | .holding e | .unlocked e => some e
  | .gone => none

/-- A call for a key. -/
structure LockCall where
  key : String
  stage : LockStage
  deriving DecidableEq, Repr

/-- The map of locks, all entries and calls so far, and the name of the next entry. -/
structure KeyedMutex where
  locks : Table String Nat := ∅
  entries : Table Nat KeyedMutexEntry := ∅
  calls : Table Nat LockCall := ∅
  next : Nat := 0

/-- What a call can do. -/
inductive LockEvent where
  | enter (c : Nat) (key : String)
  | acquire (c : Nat)
  | unlock (c : Nat)
  | leave (c : Nat)

namespace KeyedMutex

variable (s : KeyedMutex)

/-- The first critical section: refer to the entry of the key, which is made if there is none. -/
def enter (c : Nat) (key : String) : Option KeyedMutex :=
  match s.calls.lookup c with
  | some _ => none
  | none =>
    match s.locks.lookup key with
    | some e =>
      (s.entries.lookup e).map fun entry =>
        { s with
          entries := s.entries.insert e { entry with refs := entry.refs + 1 }
          calls := s.calls.insert c ⟨key, .waiting e⟩ }
    | none =>
      some { s with
        locks := s.locks.insert key s.next
        entries := s.entries.insert s.next ⟨none, 0 + 1⟩
        calls := s.calls.insert c ⟨key, .waiting s.next⟩
        next := s.next + 1 }

/-- The lock of the entry is free and taken. -/
def acquire (c : Nat) : Option KeyedMutex :=
  match s.calls.lookup c with
  | some ⟨key, .waiting e⟩ =>
    match s.entries.lookup e with
    | some ⟨none, refs⟩ =>
      some { s with
        entries := s.entries.insert e ⟨some c, refs⟩
        calls := s.calls.insert c ⟨key, .holding e⟩ }
    | _ => none
  | _ => none

/-- The first thing the returned function does. -/
def unlock (c : Nat) : Option KeyedMutex :=
  match s.calls.lookup c with
  | some ⟨key, .holding e⟩ =>
    (s.entries.lookup e).map fun entry =>
      { s with
        entries := s.entries.insert e { entry with holder := none }
        calls := s.calls.insert c ⟨key, .unlocked e⟩ }
  | _ => none

/-- The last critical section: the entry is dropped when nothing refers to it. -/
def leave (c : Nat) : Option KeyedMutex :=
  match s.calls.lookup c with
  | some ⟨key, .unlocked e⟩ =>
    (s.entries.lookup e).map fun (entry : KeyedMutexEntry) =>
      { s with
        locks := if entry.refs - 1 = 0 then s.locks.erase key else s.locks
        entries := s.entries.insert e { entry with refs := entry.refs - 1 }
        calls := s.calls.insert c ⟨key, .gone⟩ }
  | _ => none

/-- A step, if it can be taken. -/
def step? : LockEvent → Option KeyedMutex
  | .enter c key => s.enter c key
  | .acquire c => s.acquire c
  | .unlock c => s.unlock c
  | .leave c => s.leave c

/-- The state after a step, which is as before when the step cannot be taken. -/
def after (e : LockEvent) : KeyedMutex := (s.step? e).getD s

/-- The locks after some events. -/
def run (events : List LockEvent) : KeyedMutex := events.foldl after s

/-- The call holds the lock of its key. -/
def Holds (c : Nat) (key : String) : Prop := ∃ e, s.calls.lookup c = some ⟨key, .holding e⟩

/-- The call has asked for the lock of its key. -/
def Waits (c : Nat) (key : String) : Prop := ∃ e, s.calls.lookup c = some ⟨key, .waiting e⟩

/-- The calls that refer to an entry. -/
def users (e : Nat) : Finset Nat :=
  s.calls.keys.toFinset.filter fun c => (s.calls.lookup c).bind (·.stage.entry?) = some e

variable {s} {s' : KeyedMutex}

/-- The steps that can be taken, one case for each way through the code. -/
inductive Steps (s : KeyedMutex) : LockEvent → KeyedMutex → Prop
  | join {c e : Nat} {key : String} {entry : KeyedMutexEntry} (hnew : s.calls.lookup c = none)
      (hfiled : s.locks.lookup key = some e) (hentry : s.entries.lookup e = some entry) :
      Steps s (.enter c key) { s with
        entries := s.entries.insert e { entry with refs := entry.refs + 1 }
        calls := s.calls.insert c ⟨key, .waiting e⟩ }
  | make {c : Nat} {key : String} (hnew : s.calls.lookup c = none)
      (hfiled : s.locks.lookup key = none) :
      Steps s (.enter c key) { s with
        locks := s.locks.insert key s.next
        entries := s.entries.insert s.next ⟨none, 0 + 1⟩
        calls := s.calls.insert c ⟨key, .waiting s.next⟩
        next := s.next + 1 }
  | acquire {c e : Nat} {key : String} {refs : Int}
      (hcall : s.calls.lookup c = some ⟨key, .waiting e⟩)
      (hentry : s.entries.lookup e = some ⟨none, refs⟩) :
      Steps s (.acquire c) { s with
        entries := s.entries.insert e ⟨some c, refs⟩
        calls := s.calls.insert c ⟨key, .holding e⟩ }
  | unlock {c e : Nat} {key : String} {entry : KeyedMutexEntry}
      (hcall : s.calls.lookup c = some ⟨key, .holding e⟩)
      (hentry : s.entries.lookup e = some entry) :
      Steps s (.unlock c) { s with
        entries := s.entries.insert e { entry with holder := none }
        calls := s.calls.insert c ⟨key, .unlocked e⟩ }
  | leave {c e : Nat} {key : String} {entry : KeyedMutexEntry}
      (hcall : s.calls.lookup c = some ⟨key, .unlocked e⟩)
      (hentry : s.entries.lookup e = some entry) :
      Steps s (.leave c) { s with
        locks := if entry.refs - 1 = 0 then s.locks.erase key else s.locks
        entries := s.entries.insert e { entry with refs := entry.refs - 1 }
        calls := s.calls.insert c ⟨key, .gone⟩ }

/-- An event that is taken is a step. -/
theorem steps_of_step? {e : LockEvent} (h : s.step? e = some s') : Steps s e s' := by
  cases e with
  | enter c key =>
    simp only [step?, KeyedMutex.enter] at h
    split at h
    · cases h
    · next hnew =>
      split at h
      · next hfiled =>
        obtain ⟨entry, hentry, rfl⟩ := Option.map_eq_some_iff.mp h
        exact .join hnew hfiled hentry
      · next hfiled => exact Option.some.inj h ▸ .make hnew hfiled
  | acquire c =>
    simp only [step?, KeyedMutex.acquire] at h
    split at h
    · next hcall =>
      split at h
      · next hentry => exact Option.some.inj h ▸ .acquire hcall hentry
      · cases h
    · cases h
  | unlock c =>
    simp only [step?, KeyedMutex.unlock] at h
    split at h
    · next hcall =>
      obtain ⟨entry, hentry, rfl⟩ := Option.map_eq_some_iff.mp h
      exact .unlock hcall hentry
    · cases h
  | leave c =>
    simp only [step?, KeyedMutex.leave] at h
    split at h
    · next hcall =>
      obtain ⟨entry, hentry, rfl⟩ := Option.map_eq_some_iff.mp h
      exact .leave hcall hentry
    · cases h

/-- Who uses an entry. -/
theorem mem_users {c e : Nat} :
    c ∈ s.users e ↔ ∃ call, s.calls.lookup c = some call ∧ call.stage.entry? = some e := by
  rw [users, Finset.mem_filter, List.mem_toFinset, ← AList.mem_keys, ← AList.lookup_isSome,
    Option.bind_eq_some_iff]
  constructor
  · rintro ⟨-, h⟩
    exact h
  · rintro ⟨call, hcall, he⟩
    exact ⟨by rw [hcall]; rfl, call, hcall, he⟩

/-- A call that is elsewhere does not use the entry. -/
theorem users_erase {c e : Nat} {call : LockCall} (hcall : s.calls.lookup c = some call)
    (he : call.stage.entry? ≠ some e) : (s.users e).erase c = s.users e := by
  refine Finset.erase_eq_of_notMem fun hmem => he ?_
  obtain ⟨call', hcall', hin⟩ := mem_users.mp hmem
  rwa [Option.some.inj (hcall'.symm.trans hcall)] at hin

/-- A call that is put uses what its stage says. -/
theorem users_insert {c : Nat} {call : LockCall} (h : s'.calls = s.calls.insert c call)
    (e : Nat) : s'.users e =
      if call.stage.entry? = some e then insert c (s.users e) else (s.users e).erase c := by
  ext c'
  have hmem : c' ∈ s'.users e ↔ if c' = c then call.stage.entry? = some e
      else c' ∈ s.users e := by
    rw [mem_users, h, Table.lookup_insert_eq]
    split_ifs
    · simp
    · exact mem_users.symm
  rw [hmem]
  by_cases hc : c' = c <;> split_ifs <;> simp_all

/-- A new call is a user of its entry only. -/
theorem users_new (s' : KeyedMutex) {c e : Nat} {key : String} (hnew : s.calls.lookup c = none)
    (h : s'.calls = s.calls.insert c ⟨key, .waiting e⟩) (e' : Nat) :
    c ∉ s.users e' ∧ s'.users e' = if e' = e then insert c (s.users e') else s.users e' := by
  have hnot : c ∉ s.users e' := by
    rw [mem_users]
    rintro ⟨call, hcall, -⟩
    rw [hnew] at hcall
    cases hcall
  refine ⟨hnot, ?_⟩
  rw [users_insert h, Finset.erase_eq_of_notMem hnot]
  exact if_congr ⟨fun he => (Option.some.inj he).symm, fun he => congrArg some he.symm⟩ rfl rfl

/-- A call that does not hold its lock changes nothing about who holds a lock. -/
theorem holding_insert {c e : Nat} {call : LockCall}
    (hold : ∀ call, s.calls.lookup c = some call → call.stage ≠ .holding e)
    (hnew : call.stage ≠ .holding e) (c' : Nat) :
    (∃ call', (s.calls.insert c call).lookup c' = some call' ∧ call'.stage = .holding e) ↔
      ∃ call', s.calls.lookup c' = some call' ∧ call'.stage = .holding e := by
  rw [Table.lookup_insert_eq]
  split_ifs with hc
  · subst hc
    constructor
    · rintro ⟨call', hget, hst⟩
      exact absurd (Option.some.inj hget ▸ hst) hnew
    · rintro ⟨call', hget, hst⟩
      exact absurd hst (hold call' hget)
  · rfl

/-- A call refers to the entry that the map has under its key, an entry in the map is referred to
and counts how often, and its lock is held by the call that is past it. -/
structure LockInv (s : KeyedMutex) : Prop where
  filed : ∀ c call e, s.calls.lookup c = some call → call.stage.entry? = some e →
    s.locks.lookup call.key = some e
  used : ∀ key e, s.locks.lookup key = some e → (s.users e).Nonempty
  refs : ∀ key e, s.locks.lookup key = some e → ∃ entry, s.entries.lookup e = some entry ∧
    entry.refs = (s.users e).card ∧ ∀ c, entry.holder = some c ↔
      ∃ call, s.calls.lookup c = some call ∧ call.stage = .holding e
  injective : ∀ key key' e, s.locks.lookup key = some e → s.locks.lookup key' = some e →
    key = key'
  bound : ∀ key e, s.locks.lookup key = some e → e < s.next

/-- Nothing is locked at first. -/
theorem lockInv_empty : LockInv {} where
  filed c call e h := by cases h
  used key e h := by cases h
  refs key e h := by cases h
  injective key key' e h := by cases h
  bound key e h := by cases h

namespace LockInv

variable (h : LockInv s)
include h

/-- A call takes or gives back the lock of its entry. -/
theorem of_hold {c e : Nat} {key : String} {stage stage' : LockStage}
    {entry entry' : KeyedMutexEntry} (hcall : s.calls.lookup c = some ⟨key, stage⟩)
    (hentry : s.entries.lookup e = some entry) (hstage : stage.entry? = some e)
    (hstage' : stage'.entry? = some e) (hrefs : entry'.refs = entry.refs)
    (hholder : ∀ c', entry'.holder = some c' ↔
      if c' = c then stage' = .holding e else entry.holder = some c') :
    LockInv { s with
      entries := s.entries.insert e entry', calls := s.calls.insert c ⟨key, stage'⟩ } := by
  have husers : ∀ e', users { s with
      entries := s.entries.insert e entry', calls := s.calls.insert c ⟨key, stage'⟩ } e' =
      s.users e' := by
    intro e'
    rw [users_insert rfl, hstage', ← hstage]
    split_ifs with he
    · exact Finset.insert_eq_of_mem (mem_users.mpr ⟨_, hcall, he⟩)
    · exact users_erase hcall he
  constructor
  · intro c' call e' hget hin
    rw [Table.lookup_insert_eq] at hget
    split_ifs at hget with hc
    · obtain rfl := Option.some.inj hget
      exact h.filed c ⟨key, stage⟩ e' hcall ((hstage.trans hstage'.symm).trans hin)
    · exact h.filed c' call e' hget hin
  · intro key' e' hlook
    rw [husers]
    exact h.used key' e' hlook
  · intro key' e' hlook
    obtain ⟨entry₀, hentry₀, hcard, hholds⟩ := h.refs key' e' hlook
    rw [husers, Table.lookup_insert_eq]
    split_ifs with he
    · subst he
      obtain rfl := Option.some.inj (hentry₀.symm.trans hentry)
      refine ⟨entry', rfl, hrefs.trans hcard, fun c' => ?_⟩
      rw [hholder, Table.lookup_insert_eq]
      split_ifs with hc
      · simp
      · exact hholds c'
    · -- The call is at another entry before and after.
      refine ⟨entry₀, hentry₀, hcard, fun c' => (hholds c').trans (holding_insert ?_ ?_ c').symm⟩
      · intro call hcall' hst
        obtain rfl := Option.some.inj (hcall'.symm.trans hcall)
        rw [show stage = .holding e' from hst] at hstage
        exact he (Option.some.inj hstage)
      · intro hst
        rw [show stage' = .holding e' from hst] at hstage'
        exact he (Option.some.inj hstage')
  · exact h.injective
  · exact h.bound

/-- A call refers to an entry that is in the map. -/
theorem of_join {c e : Nat} {key : String} {entry : KeyedMutexEntry}
    (hnew : s.calls.lookup c = none) (hfiled : s.locks.lookup key = some e)
    (hentry : s.entries.lookup e = some entry) :
    LockInv { s with
      entries := s.entries.insert e { entry with refs := entry.refs + 1 }
      calls := s.calls.insert c ⟨key, .waiting e⟩ } := by
  have husers := users_new { s with
    entries := s.entries.insert e { entry with refs := entry.refs + 1 }
    calls := s.calls.insert c ⟨key, .waiting e⟩ } hnew rfl
  have hholding : ∀ e' c', (∃ call', (s.calls.insert c ⟨key, .waiting e⟩).lookup c' =
      some call' ∧ call'.stage = .holding e') ↔
      ∃ call', s.calls.lookup c' = some call' ∧ call'.stage = .holding e' :=
    fun e' => holding_insert (by simp [hnew]) (by simp)
  constructor
  · intro c' call e' hget hin
    rw [Table.lookup_insert_eq] at hget
    split_ifs at hget with hc
    · obtain rfl := Option.some.inj hget
      obtain rfl := Option.some.inj hin
      exact hfiled
    · exact h.filed c' call e' hget hin
  · intro key' e' hlook
    rw [(husers e').2]
    split_ifs
    · exact Finset.insert_nonempty c _
    · exact h.used key' e' hlook
  · intro key' e' hlook
    obtain ⟨entry₀, hentry₀, hcard, hholds⟩ := h.refs key' e' hlook
    rw [(husers e').2, Table.lookup_insert_eq]
    split_ifs with he
    · subst he
      obtain rfl := Option.some.inj (hentry₀.symm.trans hentry)
      rw [Finset.card_insert_of_notMem (husers e').1]
      exact ⟨_, rfl, by simp [hcard], fun c' => (hholds c').trans (hholding e' c').symm⟩
    · exact ⟨entry₀, hentry₀, hcard, fun c' => (hholds c').trans (hholding e' c').symm⟩
  · exact h.injective
  · exact h.bound

/-- A call makes the entry of its key. -/
theorem of_make {c : Nat} {key : String} (hnew : s.calls.lookup c = none)
    (hfiled : s.locks.lookup key = none) :
    LockInv { s with
      locks := s.locks.insert key s.next
      entries := s.entries.insert s.next ⟨none, 0 + 1⟩
      calls := s.calls.insert c ⟨key, .waiting s.next⟩
      next := s.next + 1 } := by
  have husers := users_new { s with
    locks := s.locks.insert key s.next
    entries := s.entries.insert s.next ⟨none, 0 + 1⟩
    calls := s.calls.insert c ⟨key, .waiting s.next⟩
    next := s.next + 1 } hnew rfl
  have hholding : ∀ e' c', (∃ call', (s.calls.insert c ⟨key, .waiting s.next⟩).lookup c' =
      some call' ∧ call'.stage = .holding e') ↔
      ∃ call', s.calls.lookup c' = some call' ∧ call'.stage = .holding e' :=
    fun e' => holding_insert (by simp [hnew]) (by simp)
  have hempty : s.users s.next = ∅ := by
    rw [Finset.eq_empty_iff_forall_notMem]
    intro c' hmem
    obtain ⟨call, hcall, hin⟩ := mem_users.mp hmem
    exact absurd (h.bound _ _ (h.filed c' call _ hcall hin)) (lt_irrefl _)
  -- What is in the map then: the new entry, and the old ones under other keys.
  have hlookup : ∀ key' e', (s.locks.insert key s.next).lookup key' = some e' →
      (key' = key ∧ e' = s.next) ∨ (s.locks.lookup key' = some e' ∧ e' ≠ s.next) := by
    intro key' e' hlook
    rw [Table.lookup_insert_eq] at hlook
    split_ifs at hlook with hk
    · exact Or.inl ⟨hk, (Option.some.inj hlook).symm⟩
    · exact Or.inr ⟨hlook, (h.bound key' e' hlook).ne⟩
  constructor
  · intro c' call e' hget hin
    rw [Table.lookup_insert_eq] at hget
    split_ifs at hget with hc
    · obtain rfl := Option.some.inj hget
      obtain rfl := Option.some.inj hin
      rw [Table.lookup_insert_eq, if_pos rfl]
    · have hlook := h.filed c' call e' hget hin
      rw [Table.lookup_insert_eq, if_neg]
      · exact hlook
      · intro hk
        rw [hk, hfiled] at hlook
        cases hlook
  · intro key' e' hlook
    rw [(husers e').2]
    split_ifs with he
    · exact Finset.insert_nonempty c _
    · rcases hlookup key' e' hlook with ⟨-, hnext⟩ | ⟨hold, -⟩
      · exact absurd hnext he
      · exact h.used key' e' hold
  · intro key' e' hlook
    rcases hlookup key' e' hlook with ⟨-, rfl⟩ | ⟨hold, hne⟩
    · rw [(husers s.next).2, if_pos rfl, hempty, Table.lookup_insert_eq, if_pos rfl]
      refine ⟨_, rfl, rfl, fun c' => iff_of_false (by simp) fun hex => ?_⟩
      obtain ⟨call, hcall, hst⟩ := (hholding s.next c').mp hex
      have hmem : c' ∈ s.users s.next := mem_users.mpr ⟨call, hcall, by rw [hst]; rfl⟩
      rw [hempty] at hmem
      exact Finset.notMem_empty c' hmem
    · obtain ⟨entry₀, hentry₀, hcard, hholds⟩ := h.refs key' e' hold
      rw [(husers e').2, if_neg hne, Table.lookup_insert_eq, if_neg hne]
      exact ⟨entry₀, hentry₀, hcard, fun c' => (hholds c').trans (hholding e' c').symm⟩
  · intro k k' e' hk hk'
    rcases hlookup k e' hk with ⟨rfl, he⟩ | ⟨hold, hne⟩
    · rcases hlookup k' e' hk' with ⟨rfl, -⟩ | ⟨-, hne'⟩
      · rfl
      · exact absurd he hne'
    · rcases hlookup k' e' hk' with ⟨-, he'⟩ | ⟨hold', -⟩
      · exact absurd he' hne
      · exact h.injective k k' e' hold hold'
  · intro key' e' hlook
    rcases hlookup key' e' hlook with ⟨-, rfl⟩ | ⟨hold, -⟩
    · exact Nat.lt_succ_self s.next
    · exact Nat.lt_succ_of_lt (h.bound key' e' hold)

/-- A call that is about to leave is counted at its entry. -/
theorem refs_of_unlocked {c e : Nat} {key : String} {entry : KeyedMutexEntry}
    (hcall : s.calls.lookup c = some ⟨key, .unlocked e⟩)
    (hentry : s.entries.lookup e = some entry) : entry.refs = (s.users e).card := by
  obtain ⟨entry₀, hentry₀, hcard, -⟩ := h.refs key e (h.filed c ⟨key, .unlocked e⟩ e hcall rfl)
  rwa [← Option.some.inj (hentry₀.symm.trans hentry)]

/-- What is still in the map: the entries that another call refers to. -/
theorem lookup_of_leave {c e : Nat} {key : String} {entry : KeyedMutexEntry}
    (hcall : s.calls.lookup c = some ⟨key, .unlocked e⟩)
    (hentry : s.entries.lookup e = some entry) (key' : String) (e' : Nat) :
    (if entry.refs - 1 = 0 then s.locks.erase key else s.locks).lookup key' = some e' ↔
      s.locks.lookup key' = some e' ∧ ((s.users e').erase c).Nonempty := by
  have hfiled : s.locks.lookup key = some e := h.filed c ⟨key, .unlocked e⟩ e hcall rfl
  have hmem : c ∈ s.users e := mem_users.mpr ⟨_, hcall, rfl⟩
  have hlast : entry.refs - 1 = 0 ↔ s.users e = {c} := by
    rw [h.refs_of_unlocked hcall hentry, sub_eq_zero, Nat.cast_eq_one, Finset.card_eq_one]
    constructor
    · rintro ⟨c', hc'⟩
      rw [hc', Finset.mem_singleton] at hmem
      rw [hc', hmem]
    · exact fun hc => ⟨c, hc⟩
  by_cases he : e' = e
  · subst he
    by_cases hsingle : s.users e' = {c}
    · rw [if_pos (hlast.mpr hsingle), Table.lookup_erase_eq, hsingle, Finset.erase_singleton]
      refine iff_of_false ?_ (by simp)
      split_ifs with hk
      · simp
      · exact fun hlook => hk (h.injective _ _ _ hlook hfiled)
    · rw [if_neg (hlast.not.mpr hsingle)]
      refine (and_iff_left ?_).symm
      rw [Finset.nonempty_iff_ne_empty, ne_eq, Finset.erase_eq_empty_iff]
      rintro (hno | hone)
      · rw [hno] at hmem
        exact Finset.notMem_empty c hmem
      · exact hsingle hone
  · have hkeep : (if entry.refs - 1 = 0 then s.locks.erase key else s.locks).lookup key' =
        some e' ↔ s.locks.lookup key' = some e' := by
      split_ifs
      · rw [Table.lookup_erase_eq]
        split_ifs with hk
        · rw [hk, hfiled]
          simp [Ne.symm he]
        · rfl
      · rfl
    rw [hkeep, users_erase hcall (by simpa [LockStage.entry?] using Ne.symm he)]
    exact (and_iff_left_of_imp (h.used key' e')).symm

/-- A call is out, and takes the entry out of the map if it was the last. -/
theorem of_leave {c e : Nat} {key : String} {entry : KeyedMutexEntry}
    (hcall : s.calls.lookup c = some ⟨key, .unlocked e⟩)
    (hentry : s.entries.lookup e = some entry) :
    LockInv { s with
      locks := if entry.refs - 1 = 0 then s.locks.erase key else s.locks
      entries := s.entries.insert e { entry with refs := entry.refs - 1 }
      calls := s.calls.insert c ⟨key, .gone⟩ } := by
  have hmem : c ∈ s.users e := mem_users.mpr ⟨_, hcall, rfl⟩
  have husers : ∀ e', users { s with
      locks := if entry.refs - 1 = 0 then s.locks.erase key else s.locks
      entries := s.entries.insert e { entry with refs := entry.refs - 1 }
      calls := s.calls.insert c ⟨key, .gone⟩ } e' = (s.users e').erase c := by
    intro e'
    rw [users_insert rfl]
    exact if_neg (by simp [LockStage.entry?])
  have hholding : ∀ e' c', (∃ call', (s.calls.insert c ⟨key, .gone⟩).lookup c' =
      some call' ∧ call'.stage = .holding e') ↔
      ∃ call', s.calls.lookup c' = some call' ∧ call'.stage = .holding e' :=
    fun e' => holding_insert (by simp [hcall]) (by simp)
  have hlookup := h.lookup_of_leave hcall hentry
  constructor
  · intro c' call e' hget hin
    rw [Table.lookup_insert_eq] at hget
    split_ifs at hget with hc
    · obtain rfl := Option.some.inj hget
      cases hin
    · exact (hlookup _ _).mpr ⟨h.filed c' call e' hget hin,
        c', Finset.mem_erase.mpr ⟨hc, mem_users.mpr ⟨call, hget, hin⟩⟩⟩
  · intro key' e' hlook
    rw [husers]
    exact ((hlookup key' e').mp hlook).2
  · intro key' e' hlook
    obtain ⟨entry₀, hentry₀, hcard, hholds⟩ := h.refs key' e' ((hlookup key' e').mp hlook).1
    rw [husers, Table.lookup_insert_eq]
    by_cases he : e' = e
    · subst he
      obtain rfl := Option.some.inj (hentry₀.symm.trans hentry)
      rw [if_pos rfl, Finset.card_erase_of_mem hmem, Nat.cast_pred (Finset.card_pos.mpr ⟨c, hmem⟩)]
      exact ⟨_, rfl, congrArg (· - 1) hcard, fun c' => (hholds c').trans (hholding e' c').symm⟩
    · rw [if_neg he, users_erase hcall (by simpa [LockStage.entry?] using Ne.symm he)]
      exact ⟨entry₀, hentry₀, hcard, fun c' => (hholds c').trans (hholding e' c').symm⟩
  · intro k k' e' hk hk'
    exact h.injective k k' e' ((hlookup k e').mp hk).1 ((hlookup k' e').mp hk').1
  · exact fun key' e' hlook => h.bound key' e' ((hlookup key' e').mp hlook).1

theorem step {e : LockEvent} (hs : Steps s e s') : LockInv s' := by
  cases hs with
  | join hnew hfiled hentry => exact h.of_join hnew hfiled hentry
  | make hnew hfiled => exact h.of_make hnew hfiled
  | acquire hcall hentry =>
    refine h.of_hold hcall hentry rfl rfl rfl fun c' => ?_
    split_ifs with hc
    · simp [hc]
    · simp [Ne.symm hc]
  | @unlock c e key entry hcall hentry =>
    refine h.of_hold hcall hentry rfl rfl rfl fun c' => ?_
    -- Nobody else was past the lock of this entry.
    obtain ⟨entry₀, hentry₀, -, hholds⟩ := h.refs key e (h.filed c _ e hcall rfl)
    obtain rfl := Option.some.inj (hentry₀.symm.trans hentry)
    have hholder := (hholds c).mpr ⟨_, hcall, rfl⟩
    split_ifs with hc
    · simp
    · rw [hholder]
      simp [Ne.symm hc]
  | leave hcall hentry => exact h.of_leave hcall hentry

theorem after (e : LockEvent) : LockInv (s.after e) := by
  rw [KeyedMutex.after]
  cases hs : s.step? e with
  | none => exact h
  | some s' => exact h.step (steps_of_step? hs)

theorem run (events : List LockEvent) : LockInv (s.run events) := by
  induction events generalizing s with
  | nil => exact h
  | cons e events ih => exact ih (h.after e)

omit h in
/-- A free entry is taken by one that waits. -/
theorem acquire_of_free {c e : Nat} {key : String} {refs : Int}
    (hcall : s.calls.lookup c = some ⟨key, .waiting e⟩)
    (hentry : s.entries.lookup e = some ⟨none, refs⟩) :
    s.step? (.acquire c) = some { s with
      entries := s.entries.insert e ⟨some c, refs⟩
      calls := s.calls.insert c ⟨key, .holding e⟩ } := by
  rw [step?, acquire, hcall]
  dsimp only
  rw [hentry]

/-- Calls under one key hold its lock one at a time. -/
theorem exclusive {c c' : Nat} {key : String} (hc : s.Holds c key) (hc' : s.Holds c' key) :
    c = c' := by
  obtain ⟨e, hcall⟩ := hc
  obtain ⟨e', hcall'⟩ := hc'
  have hfiled := h.filed c _ e hcall rfl
  have hfiled' := h.filed c' _ e' hcall' rfl
  obtain rfl := Option.some.inj (hfiled.symm.trans hfiled')
  obtain ⟨entry, -, -, hholds⟩ := h.refs key e hfiled
  have hholder := (hholds c).mpr ⟨_, hcall, rfl⟩
  exact Option.some.inj (hholder.symm.trans ((hholds c').mpr ⟨_, hcall', rfl⟩))

/-- A call that waits for a lock that nobody holds can take it. -/
theorem acquires {c : Nat} {key : String} (hc : s.Waits c key) (hfree : ∀ c', ¬ s.Holds c' key) :
    ∃ s', s.step? (.acquire c) = some s' ∧ s'.Holds c key := by
  obtain ⟨e, hcall⟩ := hc
  have hfiled := h.filed c _ e hcall rfl
  obtain ⟨⟨holder, refs⟩, hentry, -, hholds⟩ := h.refs key e hfiled
  cases holder with
  | none =>
    exact ⟨_, acquire_of_free hcall hentry, e, AList.lookup_insert _⟩
  | some c' =>
    obtain ⟨call, hcall', hst⟩ := (hholds c').mp rfl
    obtain ⟨key', stage⟩ := call
    obtain rfl : stage = .holding e := hst
    have hkey := h.injective key' key e (h.filed c' _ e hcall' rfl) hfiled
    exact absurd ⟨e, hkey ▸ hcall'⟩ (hfree c')

/-- The map has an entry for a key exactly as long as some call refers to it. -/
theorem filed_iff (key : String) : (s.locks.lookup key).isSome ↔
    ∃ c call, s.calls.lookup c = some call ∧ call.key = key ∧ call.stage ≠ .gone := by
  constructor
  · intro hsome
    obtain ⟨e, he⟩ := Option.isSome_iff_exists.mp hsome
    obtain ⟨c, hc⟩ := h.used key e he
    obtain ⟨call, hcall, hin⟩ := mem_users.mp hc
    refine ⟨c, call, hcall, h.injective _ _ e (h.filed c call e hcall hin) he, ?_⟩
    intro hgone
    rw [hgone] at hin
    cases hin
  · rintro ⟨c, ⟨key', stage⟩, hcall, rfl, hne⟩
    have hfiled := h.filed c ⟨key', stage⟩
    cases stage with
    | waiting e => exact Option.isSome_of_eq_some (hfiled e hcall rfl)
    | holding e => exact Option.isSome_of_eq_some (hfiled e hcall rfl)
    | unlocked e => exact Option.isSome_of_eq_some (hfiled e hcall rfl)
    | gone => exact absurd rfl hne

end LockInv

/-- In every order of the critical sections of any calls: one call at a time holds the lock of a
key, a call that waits for a free lock can take it whatever happens under other keys, and the map
holds exactly the keys that some call still refers to. -/
theorem keyed_exclusion (events : List LockEvent) :
    (∀ key c c', (run {} events).Holds c key → (run {} events).Holds c' key → c = c') ∧
      (∀ key c, (run {} events).Waits c key → (∀ c', ¬ (run {} events).Holds c' key) →
        ∃ s', (run {} events).step? (.acquire c) = some s' ∧ s'.Holds c key) ∧
      ∀ key, ((run {} events).locks.lookup key).isSome ↔
        ∃ c call, (run {} events).calls.lookup c = some call ∧ call.key = key ∧
          call.stage ≠ .gone := by
  have h := lockInv_empty.run events
  exact ⟨fun _ _ _ => h.exclusive, fun _ _ => h.acquires, h.filed_iff⟩

end KeyedMutex

end Averin
