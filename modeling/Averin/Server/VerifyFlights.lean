import Averin.Core.Table

/-!
# Shared verifications

Verifying a project is slow, so calls for the same one share a run. The first call under a key
opens a flight and starts the work; the ones that find a flight under their key wait with it. A
call counts itself in and out of its flight under one mutex, and a flight is taken out of the
map by whoever finds it over and nobody waiting. Every critical section is one step here, and
so is every way out of a wait, so that a run is any order in which the calls and the work get
their turns.
-/

namespace Averin

/-- Why a verification does not answer. -/
inductive VerifyError where
  | overloaded
  | panicked
  | context (canceled : Bool)
  | work (text : String)
  deriving DecidableEq, Repr

/-- What a call returns, which is also what a flight keeps. -/
structure VerifyResult where
  report : String
  err : Option VerifyError
  deriving DecidableEq, Repr

/-- The work gives a report and perhaps an error, or it panics. -/
def runVerifyWork : Option (String × Option String) → VerifyResult
  | some (report, err) => ⟨report, err.map .work⟩
  | none => ⟨"", some .panicked⟩

/-- How far the work of a flight is, and the time it returned at. -/
inductive FlightWork where
  | idle
  | spawned
  | running
  | returned (r : VerifyResult) (time : Nat)
  deriving DecidableEq, Repr

/-- A flight. It is completed, and its channel closed, once it keeps a result. -/
structure VerifyFlight where
  key : String
  waiters : Nat
  work : FlightWork
  done : Option VerifyResult
  deriving DecidableEq, Repr

/-- A flight that stays in the map: its work is not over, or somebody waits for it. -/
def VerifyFlight.Kept (flight : VerifyFlight) : Prop := flight.done = none ∨ 0 < flight.waiters

/-- Where a call is: before the mutex, about to spawn the work it leads, in its wait, past it
with what it will return, and back. -/
inductive CallStage where
  | entered
  | leading (f : Nat)
  | waiting (f : Nat)
  | leaving (f : Nat) (r : VerifyResult)
  | returned (r : VerifyResult)
  deriving DecidableEq, Repr

/-- The flight a call is counted in. -/
def CallStage.flight? : CallStage → Option Nat
  | .leading f | .waiting f | .leaving f _ => some f
  | _ => none

/-- A call for a verification. -/
structure VerifyCall where
  key : String
  time : Nat
  stage : CallStage
  deriving DecidableEq, Repr

/-- The map of flights, all flights and calls so far, and a clock that ticks at every step. -/
structure VerifyFlightGroup where
  flights : Table String Nat := ∅
  made : Table Nat VerifyFlight := ∅
  calls : Table Nat VerifyCall := ∅
  clock : Nat := 0

/-- What can happen to a flight. -/
inductive FlightEvent where
  | enter (c : Nat) (key : String)
  | join (c : Nat)
  | spawn (c : Nat)
  | start (f : Nat)
  | workReturns (f : Nat) (outcome : Option (String × Option String))
  | complete (f : Nat)
  | receive (c : Nat)
  | cancel (c : Nat) (canceled : Bool)
  | leave (c : Nat)

/-- The number of verifications at a time where none is set. -/
def maxConcurrentBundleReads : Int := 4

/-- How many flights there may be. -/
def flightLimit (maxFlights : Int) : Nat :=
  if maxFlights ≤ 0 then maxConcurrentBundleReads.toNat else maxFlights.toNat

namespace VerifyFlightGroup

variable (s : VerifyFlightGroup)

/-- The group at the next tick, with a call at another stage. -/
def move (c : Nat) (call : VerifyCall) (stage : CallStage) : VerifyFlightGroup :=
  { s with calls := s.calls.insert c { call with stage := stage }, clock := s.clock + 1 }

/-- A call arrives. -/
def enter (c : Nat) (key : String) : Option VerifyFlightGroup :=
  match s.calls.lookup c with
  | some _ => none
  | none => some { s with calls := s.calls.insert c ⟨key, s.clock, .entered⟩, clock := s.clock + 1 }

/-- The first critical section: join the flight under the key or open one. -/
def join (limit c : Nat) : Option VerifyFlightGroup :=
  match s.calls.lookup c with
  | some call =>
    if call.stage ≠ .entered then none
    else
      match s.flights.lookup call.key with
      | some f =>
        (s.made.lookup f).map fun flight =>
          { s.move c call (.waiting f) with
            made := s.made.insert f { flight with waiters := flight.waiters + 1 } }
      | none =>
        if limit ≤ s.flights.keys.length then
          some (s.move c call (.returned ⟨"", some .overloaded⟩))
        else
          some { s.move c call (.leading s.clock) with
            flights := s.flights.insert call.key s.clock
            made := s.made.insert s.clock ⟨call.key, 1, .idle, none⟩ }
  | none => none

/-- The leader spawns the work and goes on to wait like the others. -/
def spawn (c : Nat) : Option VerifyFlightGroup :=
  match s.calls.lookup c with
  | some call =>
    match call.stage with
    | .leading f =>
      (s.made.lookup f).map fun flight =>
        { s.move c call (.waiting f) with
          made := s.made.insert f { flight with work := .spawned } }
    | _ => none
  | none => none

/-- The work of a flight starts. -/
def start (f : Nat) : Option VerifyFlightGroup :=
  match s.made.lookup f with
  | some flight =>
    if flight.work ≠ .spawned then none
    else
      some { s with
        made := s.made.insert f { flight with work := .running }, clock := s.clock + 1 }
  | none => none

/-- The work of a flight returns. -/
def workReturns (f : Nat) (outcome : Option (String × Option String)) :
    Option VerifyFlightGroup :=
  match s.made.lookup f with
  | some flight =>
    if flight.work ≠ .running then none
    else
      some { s with
        made := s.made.insert f { flight with work := .returned (runVerifyWork outcome) s.clock }
        clock := s.clock + 1 }
  | none => none

/-- The map without a key, if the flight is over and nobody waits for it. -/
def drop (flight : VerifyFlight) : Table String Nat :=
  if flight.done.isSome ∧ flight.waiters = 0 then s.flights.erase flight.key else s.flights

/-- The critical section of the work: keep the result and wake the waiters. -/
def complete (f : Nat) : Option VerifyFlightGroup :=
  match s.made.lookup f with
  | some flight =>
    match flight.work with
    | .returned r _ =>
      if flight.done.isSome then none
      else
        let kept := { flight with done := some r }
        some { s with
          made := s.made.insert f kept, flights := s.drop kept, clock := s.clock + 1 }
    | _ => none
  | none => none

/-- A waiting call takes the result of a completed flight. -/
def receive (c : Nat) : Option VerifyFlightGroup :=
  match s.calls.lookup c with
  | some call =>
    match call.stage with
    | .waiting f =>
      ((s.made.lookup f).bind (·.done)).map fun r => s.move c call (.leaving f r)
    | _ => none
  | none => none

/-- A waiting call is told by its context to stop. -/
def cancel (c : Nat) (canceled : Bool) : Option VerifyFlightGroup :=
  match s.calls.lookup c with
  | some call =>
    match call.stage with
    | .waiting f => some (s.move c call (.leaving f ⟨"", some (.context canceled)⟩))
    | _ => none
  | none => none

/-- The last critical section: count the call out. -/
def leave (c : Nat) : Option VerifyFlightGroup :=
  match s.calls.lookup c with
  | some call =>
    match call.stage with
    | .leaving f r =>
      (s.made.lookup f).map fun flight =>
        let left := { flight with waiters := flight.waiters - 1 }
        { s.move c call (.returned r) with
          made := s.made.insert f left, flights := s.drop left }
    | _ => none
  | none => none

/-- A step, if it can be taken. -/
def step? (limit : Nat) : FlightEvent → Option VerifyFlightGroup
  | .enter c key => s.enter c key
  | .join c => s.join limit c
  | .spawn c => s.spawn c
  | .start f => s.start f
  | .workReturns f outcome => s.workReturns f outcome
  | .complete f => s.complete f
  | .receive c => s.receive c
  | .cancel c canceled => s.cancel c canceled
  | .leave c => s.leave c

/-- The group after a step, which is as before when the step cannot be taken. -/
def next (limit : Nat) (s : VerifyFlightGroup) (e : FlightEvent) : VerifyFlightGroup :=
  (s.step? limit e).getD s

/-- The group after some events. -/
def run (limit : Nat) (s : VerifyFlightGroup) (events : List FlightEvent) : VerifyFlightGroup :=
  events.foldl (next limit) s

variable {s} {s' : VerifyFlightGroup} {limit : Nat}

/-- The steps that can be taken, one case for each way through the code. -/
inductive Steps (limit : Nat) (s : VerifyFlightGroup) : FlightEvent → VerifyFlightGroup → Prop
  | enter {c : Nat} {key : String} (hnew : s.calls.lookup c = none) :
      Steps limit s (.enter c key)
        { s with calls := s.calls.insert c ⟨key, s.clock, .entered⟩, clock := s.clock + 1 }
  | join {c f : Nat} {call : VerifyCall} {flight : VerifyFlight}
      (hcall : s.calls.lookup c = some call) (hstage : call.stage = .entered)
      (hfiled : s.flights.lookup call.key = some f) (hmade : s.made.lookup f = some flight) :
      Steps limit s (.join c) { s.move c call (.waiting f) with
        made := s.made.insert f { flight with waiters := flight.waiters + 1 } }
  | refuse {c : Nat} {call : VerifyCall} (hcall : s.calls.lookup c = some call)
      (hstage : call.stage = .entered) :
      Steps limit s (.join c) (s.move c call (.returned ⟨"", some .overloaded⟩))
  | lead {c : Nat} {call : VerifyCall} (hcall : s.calls.lookup c = some call)
      (hstage : call.stage = .entered) (hfiled : s.flights.lookup call.key = none)
      (hroom : s.flights.keys.length < limit) :
      Steps limit s (.join c) { s.move c call (.leading s.clock) with
        flights := s.flights.insert call.key s.clock
        made := s.made.insert s.clock ⟨call.key, 1, .idle, none⟩ }
  | spawn {c f : Nat} {call : VerifyCall} {flight : VerifyFlight}
      (hcall : s.calls.lookup c = some call)
      (hstage : call.stage = .leading f) (hmade : s.made.lookup f = some flight) :
      Steps limit s (.spawn c) { s.move c call (.waiting f) with
        made := s.made.insert f { flight with work := .spawned } }
  | start {f : Nat} {flight : VerifyFlight} (hmade : s.made.lookup f = some flight)
      (hwork : flight.work = .spawned) :
      Steps limit s (.start f) { s with
        made := s.made.insert f { flight with work := .running }, clock := s.clock + 1 }
  | workReturns {f : Nat} {flight : VerifyFlight} {outcome : Option (String × Option String)}
      (hmade : s.made.lookup f = some flight) (hwork : flight.work = .running) :
      Steps limit s (.workReturns f outcome) { s with
        made := s.made.insert f { flight with work := .returned (runVerifyWork outcome) s.clock }
        clock := s.clock + 1 }
  | complete {f t : Nat} {flight : VerifyFlight} {r : VerifyResult}
      (hmade : s.made.lookup f = some flight) (hwork : flight.work = .returned r t)
      (hopen : flight.done = none) :
      Steps limit s (.complete f) { s with
        made := s.made.insert f { flight with done := some r }
        flights := s.drop { flight with done := some r }, clock := s.clock + 1 }
  | receive {c f : Nat} {call : VerifyCall} {flight : VerifyFlight} {r : VerifyResult}
      (hcall : s.calls.lookup c = some call) (hstage : call.stage = .waiting f)
      (hmade : s.made.lookup f = some flight)
      (hdone : flight.done = some r) :
      Steps limit s (.receive c) (s.move c call (.leaving f r))
  | cancel {c f : Nat} {call : VerifyCall} {canceled : Bool}
      (hcall : s.calls.lookup c = some call)
      (hstage : call.stage = .waiting f) :
      Steps limit s (.cancel c canceled)
        (s.move c call (.leaving f ⟨"", some (.context canceled)⟩))
  | leave {c f : Nat} {call : VerifyCall} {flight : VerifyFlight} {r : VerifyResult}
      (hcall : s.calls.lookup c = some call) (hstage : call.stage = .leaving f r)
      (hmade : s.made.lookup f = some flight) :
      Steps limit s (.leave c) { s.move c call (.returned r) with
        made := s.made.insert f { flight with waiters := flight.waiters - 1 }
        flights := s.drop { flight with waiters := flight.waiters - 1 } }

/-- An event that is taken is a step. -/
theorem steps_of_step? {e : FlightEvent} (h : s.step? limit e = some s') : Steps limit s e s' := by
  cases e with
  | enter c key =>
    simp only [step?, VerifyFlightGroup.enter] at h
    split at h
    · cases h
    · next hnew => exact Option.some.inj h ▸ .enter hnew
  | join c =>
    simp only [step?, VerifyFlightGroup.join] at h
    split at h
    · next call hcall =>
      by_cases hstage : call.stage = .entered
      · rw [if_neg (not_not.mpr hstage)] at h
        split at h
        · next f hfiled =>
          obtain ⟨flight, hmade, rfl⟩ := Option.map_eq_some_iff.mp h
          exact .join hcall hstage hfiled hmade
        · next hfiled =>
          split_ifs at h with hfull
          · exact Option.some.inj h ▸ .refuse hcall hstage
          · exact Option.some.inj h ▸ .lead hcall hstage hfiled (by omega)
      · rw [if_pos hstage] at h
        cases h
    · cases h
  | spawn c =>
    simp only [step?, VerifyFlightGroup.spawn] at h
    split at h
    · next call hcall =>
      split at h
      · next f hstage =>
        obtain ⟨flight, hmade, rfl⟩ := Option.map_eq_some_iff.mp h
        exact .spawn hcall hstage hmade
      · cases h
    · cases h
  | start f =>
    simp only [step?, VerifyFlightGroup.start] at h
    split at h
    · next flight hmade =>
      split_ifs at h with hwork
      exact Option.some.inj h ▸ .start hmade (not_not.mp hwork)
    · cases h
  | workReturns f outcome =>
    simp only [step?, VerifyFlightGroup.workReturns] at h
    split at h
    · next flight hmade =>
      split_ifs at h with hwork
      exact Option.some.inj h ▸ .workReturns hmade (not_not.mp hwork)
    · cases h
  | complete f =>
    simp only [step?, VerifyFlightGroup.complete] at h
    split at h
    · next flight hmade =>
      split at h
      · next r t hwork =>
        split_ifs at h with hdone
        exact Option.some.inj h ▸
          .complete hmade hwork (Option.not_isSome_iff_eq_none.mp hdone)
      · cases h
    · cases h
  | receive c =>
    simp only [step?, VerifyFlightGroup.receive] at h
    split at h
    · next call hcall =>
      split at h
      · next f hstage =>
        obtain ⟨r, hr, rfl⟩ := Option.map_eq_some_iff.mp h
        obtain ⟨flight, hmade, hdone⟩ := Option.bind_eq_some_iff.mp hr
        exact .receive hcall hstage hmade hdone
      · cases h
    · cases h
  | cancel c canceled =>
    simp only [step?, VerifyFlightGroup.cancel] at h
    split at h
    · next call hcall =>
      split at h
      · next f hstage => exact Option.some.inj h ▸ .cancel hcall hstage
      · cases h
    · cases h
  | leave c =>
    simp only [step?, VerifyFlightGroup.leave] at h
    split at h
    · next call hcall =>
      split at h
      · next f r hstage =>
        obtain ⟨flight, hmade, rfl⟩ := Option.map_eq_some_iff.mp h
        exact .leave hcall hstage hmade
      · cases h
    · cases h

/-- The calls counted in a flight. -/
def holders (s : VerifyFlightGroup) (f : Nat) : Finset Nat :=
  s.calls.keys.toFinset.filter fun c => (s.calls.lookup c).bind (·.stage.flight?) = some f

/-- Who waits for a flight. -/
theorem mem_holders {c f : Nat} :
    c ∈ s.holders f ↔ ∃ call, s.calls.lookup c = some call ∧ call.stage.flight? = some f := by
  rw [holders, Finset.mem_filter, List.mem_toFinset, ← AList.mem_keys, ← AList.lookup_isSome,
    Option.bind_eq_some_iff]
  constructor
  · rintro ⟨-, h⟩
    exact h
  · rintro ⟨call, hcall, hf⟩
    exact ⟨by rw [hcall]; rfl, call, hcall, hf⟩

/-- A call that moves is counted in the flight of its new stage. -/
theorem holders_insert {c : Nat} {call : VerifyCall} (h : s'.calls = s.calls.insert c call)
    (f : Nat) : s'.holders f =
      if call.stage.flight? = some f then insert c (s.holders f) else (s.holders f).erase c := by
  ext c'
  have hmem : c' ∈ s'.holders f ↔ if c' = c then call.stage.flight? = some f
      else c' ∈ s.holders f := by
    rw [mem_holders, h, Table.lookup_insert_eq]
    split_ifs
    · simp
    · exact mem_holders.symm
  rw [hmem]
  by_cases hc : c' = c <;> split_ifs <;> simp_all

/-- A call that has just entered is counted in no flight. -/
theorem notMem_holders_of_entered {c : Nat} {call : VerifyCall}
    (hcall : s.calls.lookup c = some call) (hstage : call.stage = .entered) (f : Nat) :
    c ∉ s.holders f := by
  rw [mem_holders]
  rintro ⟨call₀, hget, hf⟩
  obtain rfl := Option.some.inj (hget.symm.trans hcall)
  rw [hstage] at hf
  cases hf

/-- The map holds the flights to be kept, each under its key; the count of a flight is that of
the calls in it, of which one at most still has to spawn the work. -/
structure FlightInv (limit : Nat) (s : VerifyFlightGroup) : Prop where
  made_lt : ∀ f flight, s.made.lookup f = some flight → f < s.clock
  filed : ∀ key f, s.flights.lookup key = some f ↔
    ∃ flight, s.made.lookup f = some flight ∧ flight.key = key ∧ flight.Kept
  waiters : ∀ f flight, s.made.lookup f = some flight → flight.waiters = (s.holders f).card
  attached : ∀ c call f, s.calls.lookup c = some call → call.stage.flight? = some f →
    ∃ flight, s.made.lookup f = some flight ∧ flight.key = call.key
  leads : ∀ c call f flight, s.calls.lookup c = some call → call.stage = .leading f →
    s.made.lookup f = some flight → flight.work = .idle
  leader : ∀ c c' call call' f, s.calls.lookup c = some call → s.calls.lookup c' = some call' →
    call.stage = .leading f → call'.stage = .leading f → c = c'
  done : ∀ f flight r, s.made.lookup f = some flight → flight.done = some r →
    ∃ t, flight.work = .returned r t
  room : s.flights.keys.length ≤ limit

/-- Nothing flies at first. -/
theorem flightInv_empty (limit : Nat) : FlightInv limit {} where
  made_lt f flight h := by cases h
  filed key f := by
    constructor
    · intro h
      cases h
    · rintro ⟨flight, h, -⟩
      cases h
  waiters f flight h := by cases h
  attached c call f h := by cases h
  leads c call f flight h := by cases h
  leader c c' call call' f h := by cases h
  done f flight r h := by cases h
  room := Nat.zero_le limit

namespace FlightInv

variable (h : FlightInv limit s)
include h

/-- A flight that is counted by a call is in the map. -/
theorem kept_of_holder {c f : Nat} {flight : VerifyFlight} (hmade : s.made.lookup f = some flight)
    (hc : c ∈ s.holders f) : flight.Kept :=
  Or.inr (by rw [h.waiters f flight hmade]; exact Finset.card_pos.mpr ⟨c, hc⟩)

/-- A call goes on without a change to its flight. -/
theorem of_calls {c : Nat} {call : VerifyCall}
    (hflight : call.stage.flight? = (s.calls.lookup c).bind (·.stage.flight?))
    (hkey : ∀ old, s.calls.lookup c = some old → old.key = call.key)
    (hlead : ∀ f, call.stage ≠ .leading f) :
    FlightInv limit { s with calls := s.calls.insert c call, clock := s.clock + 1 } := by
  have hholders : ∀ f, holders { s with
      calls := s.calls.insert c call, clock := s.clock + 1 } f = s.holders f := by
    intro f
    rw [holders_insert rfl f]
    split_ifs with hf
    · rw [Finset.insert_eq_of_mem]
      rw [hf] at hflight
      obtain ⟨old, hold, hin⟩ := Option.bind_eq_some_iff.mp hflight.symm
      exact mem_holders.mpr ⟨old, hold, hin⟩
    · rw [Finset.erase_eq_of_notMem]
      rw [mem_holders]
      rintro ⟨old, hold, hin⟩
      rw [hold, Option.bind_some, hin] at hflight
      exact hf hflight
  refine ⟨fun f flight hf => Nat.lt_succ_of_lt (h.made_lt f flight hf), h.filed, ?_, ?_, ?_, ?_,
    h.done, h.room⟩
  · intro f flight hf
    rw [hholders]
    exact h.waiters f flight hf
  · intro c' call' f hget hin
    rw [Table.lookup_insert_eq] at hget
    split_ifs at hget with hc
    · obtain rfl := Option.some.inj hget
      rw [hflight] at hin
      obtain ⟨old, hold, hin⟩ := Option.bind_eq_some_iff.mp hin
      rw [← hkey old hold]
      exact h.attached c old f hold hin
    · exact h.attached c' call' f hget hin
  · intro c' call' f flight hget hstage hmade
    rw [Table.lookup_insert_eq] at hget
    split_ifs at hget with hc
    · exact absurd (Option.some.inj hget ▸ hstage) (hlead f)
    · exact h.leads c' call' f flight hget hstage hmade
  · intro c₁ c₂ call₁ call₂ f h₁ h₂ hs₁ hs₂
    rw [Table.lookup_insert_eq] at h₁ h₂
    split_ifs at h₁ with hc₁
    · exact absurd (Option.some.inj h₁ ▸ hs₁) (hlead f)
    · split_ifs at h₂ with hc₂
      · exact absurd (Option.some.inj h₂ ▸ hs₂) (hlead f)
      · exact h.leader c₁ c₂ call₁ call₂ f h₁ h₂ hs₁ hs₂

/-- Which flights the map holds when one of them has changed and may be dropped. -/
theorem lookup_drop {f : Nat} {flight flight' : VerifyFlight}
    (hmade : s.made.lookup f = some flight) (hkept : flight.Kept) (hkey : flight'.key = flight.key)
    (key : String) (g : Nat) : (s.drop flight').lookup key = some g ↔
      if g = f then flight'.key = key ∧ flight'.Kept else s.flights.lookup key = some g := by
  have hfiled : s.flights.lookup flight.key = some f :=
    (h.filed _ _).mpr ⟨flight, hmade, rfl, hkept⟩
  have hunder : ∀ k, s.flights.lookup k = some f → k = flight.key := by
    intro k hk
    obtain ⟨_, hget, rfl, -⟩ := (h.filed _ _).mp hk
    rw [Option.some.inj (hget.symm.trans hmade)]
  unfold drop
  split_ifs with hover hg hg
  · subst hg
    rw [hkey, Table.lookup_erase_eq]
    constructor
    · intro hlook
      split_ifs at hlook with hk
      exact absurd (hunder key hlook) hk
    · rintro ⟨-, hnone | hpos⟩
      · rw [hnone] at hover
        cases hover.1
      · omega
  · rw [hkey, Table.lookup_erase_eq]
    constructor
    · intro hlook
      split_ifs at hlook
      exact hlook
    · intro hlook
      rw [if_neg]
      · exact hlook
      · rintro rfl
        exact hg (Option.some.inj (hlook.symm.trans hfiled))
  · subst hg
    have hkept' : flight'.Kept := by
      by_cases hdone : flight'.done = none
      · exact Or.inl hdone
      · exact Or.inr (Nat.pos_of_ne_zero fun hz =>
          hover ⟨Option.isSome_iff_ne_none.mpr hdone, hz⟩)
    rw [hkey]
    exact ⟨fun hlook => ⟨(hunder key hlook).symm, hkept'⟩, fun hk => hk.1 ▸ hfiled⟩
  · rfl

/-- Which flights the map holds when one of them has changed and stays as it was there. -/
theorem lookup_same {f : Nat} {flight flight' : VerifyFlight}
    (hmade : s.made.lookup f = some flight) (hkey : flight'.key = flight.key)
    (hkept : flight'.Kept ↔ flight.Kept) (key : String) (g : Nat) :
    s.flights.lookup key = some g ↔
      if g = f then flight'.key = key ∧ flight'.Kept else s.flights.lookup key = some g := by
  split_ifs with hg
  · rw [hg, h.filed, hkey, hkept]
    constructor
    · rintro ⟨fl, hfl, hk, hin⟩
      rw [Option.some.inj (hmade.symm.trans hfl)]
      exact ⟨hk, hin⟩
    · rintro ⟨hk, hin⟩
      exact ⟨flight, hmade, hk, hin⟩
  · rfl

/-- The work of a flight goes on. -/
theorem of_made {f : Nat} {flight flight' : VerifyFlight} {flights : Table String Nat}
    (hmade : s.made.lookup f = some flight) (hkey : flight'.key = flight.key)
    (hwaiters : flight'.waiters = flight.waiters) (hwork : flight.work ≠ .idle)
    (hdone : ∀ r, flight'.done = some r → ∃ t, flight'.work = .returned r t)
    (hfiled : ∀ key g, flights.lookup key = some g ↔
      if g = f then flight'.key = key ∧ flight'.Kept else s.flights.lookup key = some g)
    (hroom : flights.keys.length ≤ limit) :
    FlightInv limit { s with
      made := s.made.insert f flight', flights := flights, clock := s.clock + 1 } := by
  refine ⟨?_, ?_, ?_, ?_, ?_, h.leader, ?_, hroom⟩
  · intro g fl hget
    rw [Table.lookup_insert_eq] at hget
    split_ifs at hget with hg
    · exact Nat.lt_succ_of_lt (hg ▸ h.made_lt f flight hmade)
    · exact Nat.lt_succ_of_lt (h.made_lt g fl hget)
  · intro key g
    rw [hfiled, Table.lookup_insert_eq]
    split_ifs with hg
    · simp
    · exact h.filed key g
  · intro g fl hget
    rw [Table.lookup_insert_eq] at hget
    split_ifs at hget with hg
    · obtain rfl := Option.some.inj hget
      rw [hwaiters, hg]
      exact h.waiters f flight hmade
    · exact h.waiters g fl hget
  · intro c call g hget hin
    obtain ⟨fl, hfl, hfk⟩ := h.attached c call g hget hin
    rw [Table.lookup_insert_eq]
    split_ifs with hg
    · rw [hg, hmade] at hfl
      exact ⟨flight', rfl, by rw [hkey, Option.some.inj hfl, hfk]⟩
    · exact ⟨fl, hfl, hfk⟩
  · intro c call g fl hget hstage hfl
    rw [Table.lookup_insert_eq] at hfl
    split_ifs at hfl with hg
    · exact absurd (h.leads c call f flight hget (hg ▸ hstage) hmade) hwork
    · exact h.leads c call g fl hget hstage hfl
  · intro g fl r hget hr
    rw [Table.lookup_insert_eq] at hget
    split_ifs at hget with hg
    · obtain rfl := Option.some.inj hget
      exact hdone r hr
    · exact h.done g fl r hget hr

/-- A call enters its flight, goes on in it or leaves it. -/
theorem of_both {c f : Nat} {call : VerifyCall} (call' : VerifyCall)
    {flight flight' : VerifyFlight} {flights : Table String Nat}
    (hcall : s.calls.lookup c = some call) (hmade : s.made.lookup f = some flight)
    (hkey : flight'.key = flight.key)
    (hflight : call.stage.flight? = none ∨ call.stage.flight? = some f)
    (hflight' : call'.stage.flight? = none ∨ call'.stage.flight? = some f)
    (hunder : call'.stage.flight? = some f → flight.key = call'.key)
    (hwaiters : flight'.waiters = (if call'.stage.flight? = some f then insert c (s.holders f)
      else (s.holders f).erase c).card)
    (hlead : ∀ g, call'.stage ≠ .leading g)
    (hwork : flight'.work = flight.work ∨ call.stage = .leading f)
    (hdone : ∀ r, flight'.done = some r → ∃ t, flight'.work = .returned r t)
    (hfiled : ∀ key g, flights.lookup key = some g ↔
      if g = f then flight'.key = key ∧ flight'.Kept else s.flights.lookup key = some g)
    (hroom : flights.keys.length ≤ limit) :
    FlightInv limit { s with
      calls := s.calls.insert c call', made := s.made.insert f flight', flights := flights
      clock := s.clock + 1 } := by
  refine ⟨?_, ?_, ?_, ?_, ?_, ?_, ?_, hroom⟩
  · intro g fl hget
    rw [Table.lookup_insert_eq] at hget
    split_ifs at hget with hg
    · exact Nat.lt_succ_of_lt (hg ▸ h.made_lt f flight hmade)
    · exact Nat.lt_succ_of_lt (h.made_lt g fl hget)
  · intro key g
    rw [hfiled, Table.lookup_insert_eq]
    split_ifs with hg
    · simp
    · exact h.filed key g
  · intro g fl hget
    rw [holders_insert rfl g]
    rw [Table.lookup_insert_eq] at hget
    split_ifs at hget with hg
    · obtain rfl := Option.some.inj hget
      rw [hg]
      exact hwaiters
    · -- No other flight gains or loses the call.
      have hin : call'.stage.flight? ≠ some g := by
        rcases hflight' with hf | hf <;> rw [hf] <;> simp [Ne.symm hg]
      have hout : c ∉ s.holders g := by
        rw [mem_holders]
        rintro ⟨call₀, hget₀, hin₀⟩
        obtain rfl := Option.some.inj (hget₀.symm.trans hcall)
        rcases hflight with hf | hf <;> rw [hf] at hin₀
        · cases hin₀
        · exact hg (Option.some.inj hin₀).symm
      rw [if_neg hin, Finset.erase_eq_of_notMem hout]
      exact h.waiters g fl hget
  · intro c' call₀ g hget hin
    rw [Table.lookup_insert_eq] at hget
    rw [Table.lookup_insert_eq]
    split_ifs at hget with hc
    · obtain rfl := Option.some.inj hget
      have hg : g = f := by
        rcases hflight' with hf | hf <;> rw [hf] at hin
        · cases hin
        · exact (Option.some.inj hin).symm
      rw [if_pos hg]
      exact ⟨flight', rfl, by rw [hkey]; exact hunder (hg ▸ hin)⟩
    · obtain ⟨fl, hfl, hfk⟩ := h.attached c' call₀ g hget hin
      split_ifs with hg
      · rw [hg, hmade] at hfl
        exact ⟨flight', rfl, by rw [hkey, Option.some.inj hfl, hfk]⟩
      · exact ⟨fl, hfl, hfk⟩
  · intro c' call₀ g fl hget hstage hfl
    rw [Table.lookup_insert_eq] at hget hfl
    split_ifs at hget with hc
    · exact absurd (Option.some.inj hget ▸ hstage) (hlead g)
    · split_ifs at hfl with hg
      · obtain rfl := Option.some.inj hfl
        subst hg
        rcases hwork with hsame | hleads
        · rw [hsame]
          exact h.leads c' call₀ g flight hget hstage hmade
        · exact absurd (h.leader c' c call₀ call g hget hcall hstage hleads) hc
      · exact h.leads c' call₀ g fl hget hstage hfl
  · intro c₁ c₂ call₁ call₂ g h₁ h₂ hs₁ hs₂
    rw [Table.lookup_insert_eq] at h₁ h₂
    split_ifs at h₁ with hc₁
    · exact absurd (Option.some.inj h₁ ▸ hs₁) (hlead g)
    · split_ifs at h₂ with hc₂
      · exact absurd (Option.some.inj h₂ ▸ hs₂) (hlead g)
      · exact h.leader c₁ c₂ call₁ call₂ g h₁ h₂ hs₁ hs₂
  · intro g fl r hget hr
    rw [Table.lookup_insert_eq] at hget
    split_ifs at hget with hg
    · obtain rfl := Option.some.inj hget
      exact hdone r hr
    · exact h.done g fl r hget hr

/-- The number of a new flight is not in use. -/
theorem number_fresh {f : Nat} {flight : VerifyFlight} (hmade : s.made.lookup f = some flight) :
    f ≠ s.clock :=
  (h.made_lt f flight hmade).ne

/-- Nobody waits for a flight before it is made. -/
theorem holders_clock : s.holders s.clock = ∅ := by
  rw [Finset.eq_empty_iff_forall_notMem]
  intro c hc
  obtain ⟨call, hget, hf⟩ := mem_holders.mp hc
  obtain ⟨fl, hfl, -⟩ := h.attached c call _ hget hf
  exact h.number_fresh hfl rfl

/-- The map with a new flight under a key that was free. -/
theorem lead_filed {call : VerifyCall} (hfiled : s.flights.lookup call.key = none) (key : String)
    (g : Nat) : (s.flights.insert call.key s.clock).lookup key = some g ↔
      ∃ flight, (s.made.insert s.clock ⟨call.key, 1, .idle, none⟩).lookup g = some flight ∧
        flight.key = key ∧ flight.Kept := by
  rw [Table.lookup_insert_eq, Table.lookup_insert_eq]
  by_cases hk : key = call.key
  · rw [if_pos hk, Option.some.injEq]
    constructor
    · rintro rfl
      rw [if_pos rfl]
      exact ⟨_, rfl, hk.symm, Or.inl rfl⟩
    · rintro ⟨fl, hget, hfk, hkept⟩
      split_ifs at hget with hg
      · exact hg.symm
      · have hold := (h.filed key g).mpr ⟨fl, hget, hfk, hkept⟩
        rw [hk, hfiled] at hold
        cases hold
  · rw [if_neg hk, h.filed]
    split_ifs with hg
    · constructor
      · rintro ⟨fl, hget, -⟩
        exact absurd hg (h.number_fresh hget)
      · rintro ⟨fl, hget, hfk, -⟩
        rw [← Option.some.inj hget] at hfk
        exact absurd hfk.symm hk
    · rfl

/-- The new flight counts the call that opens it. -/
theorem lead_waiters {c : Nat} {call : VerifyCall} (hout : ∀ g, c ∉ s.holders g)
    (hcalls : s'.calls = s.calls.insert c { call with stage := .leading s.clock }) (g : Nat)
    (fl : VerifyFlight)
    (hget : (s.made.insert s.clock ⟨call.key, 1, .idle, none⟩).lookup g = some fl) :
    fl.waiters = (s'.holders g).card := by
  rw [holders_insert hcalls g]
  rw [Table.lookup_insert_eq] at hget
  split_ifs at hget with hg
  · obtain rfl := Option.some.inj hget
    have hin : (CallStage.leading s.clock).flight? = some s.clock := rfl
    rw [hg, if_pos hin, Finset.card_insert_of_notMem (hout _), h.holders_clock]
    rfl
  · have hin : (CallStage.leading s.clock).flight? ≠ some g :=
      fun hin => hg (Option.some.inj hin).symm
    rw [if_neg hin, Finset.erase_eq_of_notMem (hout g)]
    exact h.waiters g fl hget

/-- Every call is in a flight for its key. -/
theorem lead_attached {c : Nat} {call : VerifyCall} (c' : Nat) (call' : VerifyCall) (g : Nat)
    (hget : (s.calls.insert c { call with stage := .leading s.clock }).lookup c' = some call')
    (hin : call'.stage.flight? = some g) :
    ∃ flight, (s.made.insert s.clock ⟨call.key, 1, .idle, none⟩).lookup g = some flight ∧
      flight.key = call'.key := by
  rw [Table.lookup_insert_eq] at hget
  rw [Table.lookup_insert_eq]
  split_ifs at hget with hc
  · obtain rfl := Option.some.inj hget
    rw [if_pos (Option.some.inj hin).symm]
    exact ⟨_, rfl, rfl⟩
  · obtain ⟨fl, hfl, hfk⟩ := h.attached c' call' g hget hin
    rw [if_neg (h.number_fresh hfl)]
    exact ⟨fl, hfl, hfk⟩

/-- The work of a flight that is led has not begun. -/
theorem lead_leads {c : Nat} {call : VerifyCall} (c' : Nat) (call' : VerifyCall) (g : Nat)
    (fl : VerifyFlight)
    (hget : (s.calls.insert c { call with stage := .leading s.clock }).lookup c' = some call')
    (hlead : call'.stage = .leading g)
    (hfl : (s.made.insert s.clock ⟨call.key, 1, .idle, none⟩).lookup g = some fl) :
    fl.work = .idle := by
  rw [Table.lookup_insert_eq] at hget hfl
  split_ifs at hfl with hg
  · rw [← Option.some.inj hfl]
  · split_ifs at hget with hc
    · obtain rfl := Option.some.inj hget
      exact absurd (CallStage.leading.inj hlead).symm hg
    · exact h.leads c' call' g fl hget hlead hfl

/-- Every flight has one leader at most. -/
theorem lead_leader {c : Nat} {call : VerifyCall} (c₁ c₂ : Nat) (call₁ call₂ : VerifyCall) (g : Nat)
    (h₁ : (s.calls.insert c { call with stage := .leading s.clock }).lookup c₁ = some call₁)
    (h₂ : (s.calls.insert c { call with stage := .leading s.clock }).lookup c₂ = some call₂)
    (hs₁ : call₁.stage = .leading g) (hs₂ : call₂.stage = .leading g) : c₁ = c₂ := by
  have hleads : ∀ c' call', s.calls.lookup c' = some call' → call'.stage = .leading g →
      g ≠ s.clock := by
    intro c' call' hget hlead
    obtain ⟨fl, hfl, -⟩ := h.attached c' call' g hget (by rw [hlead]; rfl)
    exact h.number_fresh hfl
  rw [Table.lookup_insert_eq] at h₁ h₂
  split_ifs at h₁ with hc₁
  · split_ifs at h₂ with hc₂
    · rw [hc₁, hc₂]
    · rw [← Option.some.inj h₁] at hs₁
      exact absurd (CallStage.leading.inj hs₁).symm (hleads c₂ call₂ h₂ hs₂)
  · split_ifs at h₂ with hc₂
    · rw [← Option.some.inj h₂] at hs₂
      exact absurd (CallStage.leading.inj hs₂).symm (hleads c₁ call₁ h₁ hs₁)
    · exact h.leader c₁ c₂ call₁ call₂ g h₁ h₂ hs₁ hs₂

/-- A new flight, led by the call that opens it. -/
theorem of_lead {c : Nat} {call : VerifyCall} (hcall : s.calls.lookup c = some call)
    (hstage : call.stage = .entered) (hfiled : s.flights.lookup call.key = none)
    (hroom : s.flights.keys.length < limit) :
    FlightInv limit { s with
      calls := s.calls.insert c { call with stage := .leading s.clock }
      flights := s.flights.insert call.key s.clock
      made := s.made.insert s.clock ⟨call.key, 1, .idle, none⟩
      clock := s.clock + 1 } where
  made_lt g fl hget := by
    rw [Table.lookup_insert_eq] at hget
    split_ifs at hget with hg
    · exact hg ▸ Nat.lt_succ_self _
    · exact Nat.lt_succ_of_lt (h.made_lt g fl hget)
  filed := h.lead_filed hfiled
  waiters := h.lead_waiters (fun g => notMem_holders_of_entered hcall hstage g) rfl
  attached := h.lead_attached
  leads := h.lead_leads
  leader := h.lead_leader
  done g fl r hget hr := by
    rw [Table.lookup_insert_eq] at hget
    split_ifs at hget with hg
    · rw [← Option.some.inj hget] at hr
      cases hr
    · exact h.done g fl r hget hr
  room := by
    change (s.flights.insert call.key s.clock).keys.length ≤ limit
    rw [AList.keys_insert, List.length_cons]
    exact (Nat.succ_le_succ List.length_erase_le).trans hroom

/-- A flight that is dropped makes room. -/
theorem length_drop (flight : VerifyFlight) : (s.drop flight).keys.length ≤ limit := by
  unfold drop
  split_ifs
  · rw [AList.keys_erase]
    exact List.length_erase_le.trans h.room
  · exact h.room

/-- A flight whose work has not returned keeps no result. -/
theorem open_of_work {f : Nat} {flight : VerifyFlight} (hmade : s.made.lookup f = some flight)
    (hwork : ∀ r t, flight.work ≠ .returned r t) : flight.done = none := by
  by_contra hne
  obtain ⟨r, hr⟩ := Option.ne_none_iff_exists'.mp hne
  obtain ⟨t, ht⟩ := h.done f flight r hmade hr
  exact hwork r t ht

/-- A call arrives. -/
theorem of_enter {c : Nat} {key : String} (hnew : s.calls.lookup c = none) :
    FlightInv limit { s with
      calls := s.calls.insert c ⟨key, s.clock, .entered⟩, clock := s.clock + 1 } := by
  apply h.of_calls
  · rw [hnew]
    rfl
  · intro old hold
    rw [hnew] at hold
    cases hold
  · intro f hf
    cases hf

/-- A call goes on in its flight, or without one. -/
theorem of_stage {c : Nat} {call : VerifyCall} {stage : CallStage}
    (hcall : s.calls.lookup c = some call) (hflight : stage.flight? = call.stage.flight?)
    (hlead : ∀ f, stage ≠ .leading f) : FlightInv limit (s.move c call stage) := by
  refine h.of_calls ?_ ?_ hlead
  · rw [hcall, Option.bind_some]
    exact hflight
  · intro old hold
    rw [Option.some.inj (hold.symm.trans hcall)]

/-- A call joins a flight. -/
theorem of_join {c f : Nat} {call : VerifyCall} {flight : VerifyFlight}
    (hcall : s.calls.lookup c = some call) (hstage : call.stage = .entered)
    (hfiled : s.flights.lookup call.key = some f) (hmade : s.made.lookup f = some flight) :
    FlightInv limit { s.move c call (.waiting f) with
      made := s.made.insert f { flight with waiters := flight.waiters + 1 } } := by
  obtain ⟨fl, hfl, hfk, hkept⟩ := (h.filed _ _).mp hfiled
  obtain rfl := Option.some.inj (hmade.symm.trans hfl)
  refine h.of_both { call with stage := .waiting f } hcall hmade rfl
    (Or.inl (by rw [hstage]; rfl)) (Or.inr rfl) (fun _ => hfk) ?_ (by simp) (Or.inl rfl)
    (fun r hr => h.done f flight r hmade hr)
    (h.lookup_same hmade rfl (iff_of_true (Or.inr (Nat.succ_pos _)) hkept)) h.room
  have hwaits : (CallStage.waiting f).flight? = some f := rfl
  rw [if_pos hwaits, Finset.card_insert_of_notMem (notMem_holders_of_entered hcall hstage f),
    h.waiters f flight hmade]

/-- The leader spawns the work. -/
theorem of_spawn {c f : Nat} {call : VerifyCall} {flight : VerifyFlight}
    (hcall : s.calls.lookup c = some call) (hstage : call.stage = .leading f)
    (hmade : s.made.lookup f = some flight) :
    FlightInv limit { s.move c call (.waiting f) with
      made := s.made.insert f { flight with work := .spawned } } := by
  have hidle := h.leads c call f flight hcall hstage hmade
  have hfl : call.stage.flight? = some f := by rw [hstage]; rfl
  obtain ⟨fl, hfl', hfk⟩ := h.attached c call f hcall hfl
  obtain rfl := Option.some.inj (hmade.symm.trans hfl')
  have hnone := h.open_of_work hmade (by simp [hidle])
  refine h.of_both { call with stage := .waiting f } hcall hmade rfl (Or.inr hfl)
    (Or.inr rfl) (fun _ => hfk) ?_ (by simp) (Or.inr hstage) ?_
    (h.lookup_same hmade rfl Iff.rfl) h.room
  · have hwaits : (CallStage.waiting f).flight? = some f := rfl
    rw [if_pos hwaits, Finset.insert_eq_of_mem (mem_holders.mpr ⟨call, hcall, hfl⟩),
      h.waiters f flight hmade]
  · intro r hr
    rw [hnone] at hr
    cases hr

/-- The work of a flight goes on and has not completed. -/
theorem of_work {f : Nat} {flight : VerifyFlight} (hmade : s.made.lookup f = some flight)
    (hidle : flight.work ≠ .idle) (hopen : ∀ r t, flight.work ≠ .returned r t)
    (work : FlightWork) :
    FlightInv limit { s with
      made := s.made.insert f { flight with work := work }, clock := s.clock + 1 } := by
  have hnone := h.open_of_work hmade hopen
  refine h.of_made hmade rfl rfl hidle ?_ (h.lookup_same hmade rfl Iff.rfl) h.room
  intro r hr
  rw [hnone] at hr
  cases hr

/-- The work completes. -/
theorem of_complete {f t : Nat} {flight : VerifyFlight} {r : VerifyResult}
    (hmade : s.made.lookup f = some flight) (hwork : flight.work = .returned r t)
    (hopen : flight.done = none) :
    FlightInv limit { s with
      made := s.made.insert f { flight with done := some r }
      flights := s.drop { flight with done := some r }, clock := s.clock + 1 } := by
  refine h.of_made hmade rfl rfl (by simp [hwork]) ?_
    (h.lookup_drop hmade (Or.inl hopen) rfl) (h.length_drop _)
  intro r' hr
  exact ⟨t, by rw [← Option.some.inj hr]; exact hwork⟩

/-- A call leaves its flight. -/
theorem of_leave {c f : Nat} {call : VerifyCall} {flight : VerifyFlight} {r : VerifyResult}
    (hcall : s.calls.lookup c = some call) (hstage : call.stage = .leaving f r)
    (hmade : s.made.lookup f = some flight) :
    FlightInv limit { s.move c call (.returned r) with
      made := s.made.insert f { flight with waiters := flight.waiters - 1 }
      flights := s.drop { flight with waiters := flight.waiters - 1 } } := by
  have hfl : call.stage.flight? = some f := by rw [hstage]; rfl
  have hin : c ∈ s.holders f := mem_holders.mpr ⟨call, hcall, hfl⟩
  have hkept := h.kept_of_holder hmade hin
  refine h.of_both { call with stage := .returned r } hcall hmade rfl (Or.inr hfl)
    (Or.inl rfl) (by simp [CallStage.flight?]) ?_ (by simp) (Or.inl rfl)
    (fun r' hr => h.done f flight r' hmade hr) (h.lookup_drop hmade hkept rfl)
    (h.length_drop _)
  rw [if_neg (by simp [CallStage.flight?]), Finset.card_erase_of_mem hin,
    h.waiters f flight hmade]

/-- A step keeps the invariant. -/
theorem step {e : FlightEvent} (hs : Steps limit s e s') : FlightInv limit s' := by
  cases hs with
  | enter hnew => exact h.of_enter hnew
  | join hcall hstage hfiled hmade => exact h.of_join hcall hstage hfiled hmade
  | refuse hcall hstage => exact h.of_stage hcall (by rw [hstage]; rfl) (by simp)
  | lead hcall hstage hfiled hroom => exact h.of_lead hcall hstage hfiled hroom
  | spawn hcall hstage hmade => exact h.of_spawn hcall hstage hmade
  | start hmade hwork => exact h.of_work hmade (by simp [hwork]) (by simp [hwork]) _
  | workReturns hmade hwork => exact h.of_work hmade (by simp [hwork]) (by simp [hwork]) _
  | complete hmade hwork hopen => exact h.of_complete hmade hwork hopen
  | receive hcall hstage hmade hdone => exact h.of_stage hcall (by rw [hstage]; rfl) (by simp)
  | cancel hcall hstage => exact h.of_stage hcall (by rw [hstage]; rfl) (by simp)
  | leave hcall hstage hmade => exact h.of_leave hcall hstage hmade

end FlightInv

/-- The flights after a step are those before, and what their work gave stays. -/
theorem FlightInv.made_kept (h : FlightInv limit s) {e : FlightEvent} (hs : Steps limit s e s')
    {f : Nat} {flight : VerifyFlight} (hmade : s.made.lookup f = some flight) :
    ∃ flight', s'.made.lookup f = some flight' ∧ flight'.key = flight.key ∧
      (∀ r t, flight.work = .returned r t → flight'.work = .returned r t) ∧
      ∀ r, flight.done = some r → flight'.done = some r := by
  have hchanged : ∀ {g : Nat} {fl fl' : VerifyFlight} {made : Table Nat VerifyFlight},
      s.made.lookup g = some fl → made = s.made.insert g fl' → fl'.key = fl.key →
      (∀ r t, fl.work = .returned r t → fl'.work = .returned r t) →
      (∀ r, fl.done = some r → fl'.done = some r) →
      ∃ flight', made.lookup f = some flight' ∧ flight'.key = flight.key ∧
        (∀ r t, flight.work = .returned r t → flight'.work = .returned r t) ∧
        ∀ r, flight.done = some r → flight'.done = some r := by
    rintro g fl fl' made hg rfl hkey hwork hdone
    rw [Table.lookup_insert_eq]
    split_ifs with hf
    · rw [hf, hg] at hmade
      obtain rfl := Option.some.inj hmade
      exact ⟨fl', rfl, hkey, hwork, hdone⟩
    · exact ⟨flight, hmade, rfl, fun _ _ h => h, fun _ h => h⟩
  cases hs with
  | enter | refuse | receive | cancel =>
    exact ⟨flight, hmade, rfl, fun _ _ h => h, fun _ h => h⟩
  | join _ _ _ hg => exact hchanged hg rfl rfl (fun _ _ h => h) fun _ h => h
  | lead =>
    refine ⟨flight, ?_, rfl, fun _ _ h => h, fun _ h => h⟩
    rw [Table.lookup_insert_eq, if_neg (h.made_lt f flight hmade).ne]
    exact hmade
  | spawn hcall hstage hg =>
    refine hchanged hg rfl rfl ?_ fun _ h => h
    intro r t hwork
    rw [h.leads _ _ _ _ hcall hstage hg] at hwork
    cases hwork
  | start hg hwork =>
    refine hchanged hg rfl rfl ?_ fun _ h => h
    intro r t hret
    rw [hwork] at hret
    cases hret
  | workReturns hg hwork =>
    refine hchanged hg rfl rfl ?_ fun _ h => h
    intro r t hret
    rw [hwork] at hret
    cases hret
  | complete hg hwork hopen =>
    refine hchanged hg rfl rfl (fun _ _ h => h) ?_
    intro r hr
    rw [hopen] at hr
    cases hr
  | leave _ _ hg => exact hchanged hg rfl rfl (fun _ _ h => h) fun _ h => h

/-- Work that has returned after a step had returned before, or returned just then. -/
theorem returned_before {e : FlightEvent} (hs : Steps limit s e s') {f t : Nat}
    {flight' : VerifyFlight} {r : VerifyResult} (hmade : s'.made.lookup f = some flight')
    (hwork : flight'.work = .returned r t) :
    t = s.clock ∨ ∃ flight, s.made.lookup f = some flight ∧ flight.work = .returned r t := by
  have hchanged : ∀ {g : Nat} {fl fl' : VerifyFlight}, s.made.lookup g = some fl →
      (s.made.insert g fl').lookup f = some flight' →
      (fl'.work = .returned r t → t = s.clock ∨ fl.work = .returned r t) →
      t = s.clock ∨ ∃ flight, s.made.lookup f = some flight ∧ flight.work = .returned r t := by
    intro g fl fl' hg hget hold
    rw [Table.lookup_insert_eq] at hget
    split_ifs at hget with hf
    · obtain rfl := Option.some.inj hget
      rcases hold hwork with ht | ht
      · exact Or.inl ht
      · exact Or.inr ⟨fl, hf ▸ hg, ht⟩
    · exact Or.inr ⟨flight', hget, hwork⟩
  cases hs with
  | enter | refuse | receive | cancel => exact Or.inr ⟨flight', hmade, hwork⟩
  | join _ _ _ hg => exact hchanged hg hmade Or.inr
  | lead =>
    rw [Table.lookup_insert_eq] at hmade
    split_ifs at hmade
    · rw [← Option.some.inj hmade] at hwork
      cases hwork
    · exact Or.inr ⟨flight', hmade, hwork⟩
  | spawn _ _ hg =>
    refine hchanged hg hmade ?_
    intro hret
    cases hret
  | start hg =>
    refine hchanged hg hmade ?_
    intro hret
    cases hret
  | workReturns hg =>
    refine hchanged hg hmade ?_
    intro hret
    exact Or.inl (FlightWork.returned.inj hret).2.symm
  | complete hg => exact hchanged hg hmade Or.inr
  | leave _ _ hg => exact hchanged hg hmade Or.inr

/-- The result of a call comes from work on its key that had not returned when the call came;
or the call was refused or gave up. -/
def Answers (s : VerifyFlightGroup) (call : VerifyCall) (r : VerifyResult) : Prop :=
  r = ⟨"", some .overloaded⟩ ∨ (∃ canceled, r = ⟨"", some (.context canceled)⟩) ∨
    ∃ f flight t, s.made.lookup f = some flight ∧ flight.key = call.key ∧
      flight.work = .returned r t ∧ call.time < t

/-- The calls in a flight came before its work returned, and so did those that are back. -/
structure Fresh (s : VerifyFlightGroup) : Prop where
  time_lt : ∀ c call, s.calls.lookup c = some call → call.time < s.clock
  inside : ∀ c call f flight r t, s.calls.lookup c = some call → call.stage.flight? = some f →
    s.made.lookup f = some flight → flight.work = .returned r t → call.time < t
  leaving : ∀ c call f r, s.calls.lookup c = some call → call.stage = .leaving f r →
    s.Answers call r
  back : ∀ c call r, s.calls.lookup c = some call → call.stage = .returned r → s.Answers call r

/-- No answer is old at first. -/
theorem fresh_empty : Fresh {} where
  time_lt c call h := by cases h
  inside c call f flight r t h := by cases h
  leaving c call f r h := by cases h
  back c call r h := by cases h

/-- The call at the mutex does not find a flight whose work had returned when the call came. -/
def current (s : VerifyFlightGroup) : FlightEvent → Bool
  | .join c =>
    match s.calls.lookup c with
    | none => true
    | some call =>
      match (s.flights.lookup call.key).bind s.made.lookup with
      | some ⟨_, _, .returned _ t, _⟩ => call.time < t
      | _ => true
  | _ => true

/-- Who joins in time came before the answer. -/
theorem lt_of_current {c f t : Nat} {call : VerifyCall} {flight : VerifyFlight} {r : VerifyResult}
    (hnow : s.current (.join c) = true) (hcall : s.calls.lookup c = some call)
    (hfiled : s.flights.lookup call.key = some f) (hmade : s.made.lookup f = some flight)
    (hwork : flight.work = .returned r t) : call.time < t := by
  obtain ⟨key, waiters, work, done⟩ := flight
  obtain rfl : work = .returned r t := hwork
  simpa [current, hcall, hfiled, hmade] using hnow

/-- An answer stays one. -/
theorem Answers.step (h : FlightInv limit s) {e : FlightEvent} (hs : Steps limit s e s')
    {call call' : VerifyCall} {r : VerifyResult} (ha : s.Answers call r)
    (hkey : call'.key = call.key) (htime : call'.time = call.time) : s'.Answers call' r := by
  rcases ha with hr | hr | ⟨f, flight, t, hmade, hfk, hwork, hlt⟩
  · exact Or.inl hr
  · exact Or.inr (Or.inl hr)
  · obtain ⟨flight', hmade', hfk', hwork', -⟩ := h.made_kept hs hmade
    exact Or.inr (Or.inr ⟨f, flight', t, hmade', by rw [hfk', hfk, hkey], hwork' r t hwork,
      by rw [htime]; exact hlt⟩)

/-- Freshness is kept by a step if it is by the call that moves. -/
theorem Fresh.moved (hf : Fresh s) (h : FlightInv limit s) {e : FlightEvent}
    (hs : Steps limit s e s') (hclock : s'.clock = s.clock + 1)
    (hcalls : ∀ c call', s'.calls.lookup c = some call' → s.calls.lookup c = some call' ∨
      (call'.time ≤ s.clock ∧ (call'.stage.flight? ≠ none → call'.time < s.clock) ∧
        (∀ f flight r t, call'.stage.flight? = some f → s.made.lookup f = some flight →
          flight.work = .returned r t → call'.time < t) ∧
        (∀ f r, call'.stage = .leaving f r → s'.Answers call' r) ∧
        ∀ r, call'.stage = .returned r → s'.Answers call' r)) : Fresh s' := by
  have htime : ∀ c call', s'.calls.lookup c = some call' → call'.time ≤ s.clock := by
    intro c call' hget
    rcases hcalls c call' hget with hold | ⟨ht, -⟩
    · exact (hf.time_lt c call' hold).le
    · exact ht
  refine ⟨?_, ?_, ?_, ?_⟩
  · intro c call' hget
    rw [hclock]
    exact Nat.lt_succ_of_le (htime c call' hget)
  · intro c call' f flight' r t hget hin hmade hwork
    rcases returned_before hs hmade hwork with rfl | ⟨flight, hbefore, hret⟩
    · rcases hcalls c call' hget with hold | ⟨-, hearlier, -⟩
      · exact hf.time_lt c call' hold
      · exact hearlier (by rw [hin]; exact Option.some_ne_none f)
    · rcases hcalls c call' hget with hold | ⟨-, -, hinside, -⟩
      · exact hf.inside c call' f flight r t hold hin hbefore hret
      · exact hinside f flight r t hin hbefore hret
  · intro c call' f r hget hstage
    rcases hcalls c call' hget with hold | ⟨-, -, -, hleaving, -⟩
    · exact (hf.leaving c call' f r hold hstage).step h hs rfl rfl
    · exact hleaving f r hstage
  · intro c call' r hget hstage
    rcases hcalls c call' hget with hold | ⟨-, -, -, -, hback⟩
    · exact (hf.back c call' r hold hstage).step h hs rfl rfl
    · exact hback r hstage

/-- A step in time keeps answers fresh. -/
theorem Fresh.step (hf : Fresh s) (h : FlightInv limit s) {e : FlightEvent}
    (hs : Steps limit s e s') (hnow : s.current e = true) : Fresh s' := by
  have hmoves : ∀ {c : Nat} {call : VerifyCall} {P : VerifyCall → Prop}, P call →
      ∀ c' call', (s.calls.insert c call).lookup c' = some call' →
        s.calls.lookup c' = some call' ∨ P call' := by
    intro c call P hP c' call' hget
    rw [Table.lookup_insert_eq] at hget
    split_ifs at hget
    · exact Or.inr (Option.some.inj hget ▸ hP)
    · exact Or.inl hget
  cases hs with
  | @enter c key hnew =>
    apply hf.moved h (.enter hnew) rfl
    refine hmoves ⟨le_rfl, ?_, ?_, ?_, ?_⟩ <;> simp [CallStage.flight?]
  | @join c f call flight hcall hstage hfiled hmade =>
    have hlt := hf.time_lt c call hcall
    apply hf.moved h (.join hcall hstage hfiled hmade) rfl
    refine hmoves ⟨hlt.le, fun _ => hlt, ?_, by simp, by simp⟩
    intro g fl r t hg hfl hwork
    obtain rfl := Option.some.inj hg
    have hcame : call.time < t := lt_of_current hnow hcall hfiled hfl hwork
    exact hcame
  | @refuse c call hcall hstage =>
    have hlt := hf.time_lt c call hcall
    apply hf.moved h (.refuse hcall hstage) rfl
    refine hmoves ⟨hlt.le, fun _ => hlt, by simp [CallStage.flight?],
      by simp, ?_⟩
    intro r hr
    exact Or.inl (CallStage.returned.inj hr).symm
  | @lead c call hcall hstage hfiled hroom =>
    have hlt := hf.time_lt c call hcall
    apply hf.moved h (.lead hcall hstage hfiled hroom) rfl
    refine hmoves ⟨hlt.le, fun _ => hlt, ?_, by simp, by simp⟩
    intro g fl r t hg hfl hwork
    obtain rfl := Option.some.inj hg
    exact absurd rfl (h.made_lt _ _ hfl).ne
  | @spawn c f call flight hcall hstage hmade =>
    have hlt := hf.time_lt c call hcall
    apply hf.moved h (.spawn hcall hstage hmade) rfl
    refine hmoves ⟨hlt.le, fun _ => hlt, ?_, by simp, by simp⟩
    intro g fl r t hg hfl hwork
    obtain rfl := Option.some.inj hg
    rw [h.leads c call f fl hcall hstage hfl] at hwork
    cases hwork
  | @start f flight hmade hwork =>
    exact hf.moved h (.start hmade hwork) rfl fun c call' hget => Or.inl hget
  | @workReturns f flight outcome hmade hwork =>
    exact hf.moved h (.workReturns hmade hwork) rfl fun c call' hget => Or.inl hget
  | @complete f t flight r hmade hwork hopen =>
    exact hf.moved h (.complete hmade hwork hopen) rfl fun c call' hget => Or.inl hget
  | @receive c f call flight r hcall hstage hmade hdone =>
    have hlt := hf.time_lt c call hcall
    have hin : call.stage.flight? = some f := by rw [hstage]; rfl
    apply hf.moved h (.receive hcall hstage hmade hdone) rfl
    refine hmoves ⟨hlt.le, fun _ => hlt, ?_, ?_, by simp⟩
    · intro g fl r' t hg hfl hwork
      exact hf.inside c call g fl r' t hcall (Option.some.inj hg ▸ hin) hfl hwork
    · intro g r' hg
      obtain ⟨t, hwork⟩ := h.done f flight r hmade hdone
      obtain ⟨fl, hfl, hfk⟩ := h.attached c call f hcall hin
      obtain rfl := Option.some.inj (hmade.symm.trans hfl)
      rw [← (CallStage.leaving.inj hg).2]
      exact Or.inr (Or.inr ⟨f, flight, t, hmade, hfk, hwork,
        hf.inside c call f flight r t hcall hin hmade hwork⟩)
  | @cancel c f call canceled hcall hstage =>
    have hlt := hf.time_lt c call hcall
    have hin : call.stage.flight? = some f := by rw [hstage]; rfl
    apply hf.moved h (.cancel hcall hstage) rfl
    refine hmoves ⟨hlt.le, fun _ => hlt, ?_, ?_, by simp⟩
    · intro g fl r' t hg hfl hwork
      exact hf.inside c call g fl r' t hcall (Option.some.inj hg ▸ hin) hfl hwork
    · intro g r' hg
      exact Or.inr (Or.inl ⟨canceled, (CallStage.leaving.inj hg).2.symm⟩)
  | @leave c f call flight r hcall hstage hmade =>
    have hlt := hf.time_lt c call hcall
    have hs : Steps limit s (.leave c) _ := .leave hcall hstage hmade
    apply hf.moved h hs rfl
    refine hmoves ⟨hlt.le, fun _ => hlt, by simp [CallStage.flight?],
      by simp, ?_⟩
    intro r' hr
    rw [← CallStage.returned.inj hr]
    exact (hf.leaving c call f r hcall hstage).step h hs rfl rfl

/-- At no step of a run does a call find a flight whose work had returned when the call came. -/
def timely (limit : Nat) : VerifyFlightGroup → List FlightEvent → Bool
  | _, [] => true
  | s, e :: events => s.current e && timely limit (s.next limit e) events

theorem FlightInv.next (h : FlightInv limit s) (e : FlightEvent) :
    FlightInv limit (s.next limit e) := by
  rw [VerifyFlightGroup.next]
  cases hstep : s.step? limit e with
  | none => exact h
  | some s' => exact h.step (steps_of_step? hstep)

theorem Fresh.next (hf : Fresh s) (h : FlightInv limit s) {e : FlightEvent}
    (hnow : s.current e = true) : Fresh (s.next limit e) := by
  rw [VerifyFlightGroup.next]
  cases hstep : s.step? limit e with
  | none => exact hf
  | some s' => exact hf.step h (steps_of_step? hstep) hnow

theorem FlightInv.run (h : FlightInv limit s) (events : List FlightEvent) :
    FlightInv limit (s.run limit events) := by
  induction events generalizing s with
  | nil => exact h
  | cons e events ih => exact ih (h.next e)

theorem Fresh.run (hf : Fresh s) (h : FlightInv limit s) {events : List FlightEvent}
    (htimely : timely limit s events = true) : Fresh (s.run limit events) := by
  induction events generalizing s with
  | nil => exact hf
  | cons e events ih =>
    rw [timely, Bool.and_eq_true] at htimely
    exact ih (hf.next h htimely.1) (h.next e) htimely.2

/-- Two executions of one key never run at once, the map never holds more flights than it may,
and what it holds is not over or is waited for. -/
structure Orderly (limit : Nat) (s : VerifyFlightGroup) : Prop where
  alone : ∀ f g flight flight', s.made.lookup f = some flight → s.made.lookup g = some flight' →
    flight.key = flight'.key → flight.work = .running → flight'.work = .running → f = g
  room : s.flights.keys.length ≤ limit
  waited : ∀ key f flight r, s.flights.lookup key = some f → s.made.lookup f = some flight →
    flight.done = some r → ∃ c call, s.calls.lookup c = some call ∧ call.stage.flight? = some f

/-- What the invariant says of the flights. -/
theorem FlightInv.orderly (h : FlightInv limit s) : Orderly limit s where
  alone f g flight flight' hf hg hkey hwork hwork' := by
    have hfiled : ∀ {k : Nat} {fl : VerifyFlight}, s.made.lookup k = some fl →
        fl.work = .running → s.flights.lookup fl.key = some k := by
      intro k fl hk hrun
      refine (h.filed _ _).mpr ⟨fl, hk, rfl, Or.inl ?_⟩
      by_contra hne
      obtain ⟨r, hr⟩ := Option.ne_none_iff_exists'.mp hne
      obtain ⟨t, ht⟩ := h.done k fl r hk hr
      rw [hrun] at ht
      cases ht
    have hfirst := hfiled hf hwork
    rw [hkey, hfiled hg hwork'] at hfirst
    exact (Option.some.inj hfirst).symm
  room := h.room
  waited key f flight r hfiled hmade hdone := by
    obtain ⟨fl, hfl, -, hkept⟩ := (h.filed _ _).mp hfiled
    obtain rfl := Option.some.inj (hmade.symm.trans hfl)
    rcases hkept with hnone | hpos
    · rw [hdone] at hnone
      cases hnone
    · rw [h.waiters f flight hmade, Finset.card_pos] at hpos
      obtain ⟨c, hc⟩ := hpos
      obtain ⟨call, hcall, hin⟩ := mem_holders.mp hc
      exact ⟨c, call, hcall, hin⟩

/-- Every call that is back has an answer that is not stale. -/
def NeverStale (s : VerifyFlightGroup) : Prop :=
  ∀ c call r, s.calls.lookup c = some call → call.stage = .returned r → s.Answers call r

/-- The flights are orderly in every run, and no answer is stale in a run in which no call finds
a flight that was over when it came. -/
theorem shared_verification_not_stale (maxFlights : Int) (events : List FlightEvent) :
    let s := run (flightLimit maxFlights) {} events
    Orderly (flightLimit maxFlights) s ∧
      (timely (flightLimit maxFlights) {} events = true → NeverStale s) := by
  have h := flightInv_empty (flightLimit maxFlights)
  exact ⟨(h.run events).orderly, fun htimely => (fresh_empty.run h htimely).back⟩

/-- Two calls that share the work they both came before. -/
def sharedEvents : List FlightEvent :=
  [.enter 1 "k", .join 1, .spawn 1, .enter 2 "k", .join 2, .start 1,
    .workReturns 1 (some ("ok", none)), .complete 1, .receive 2, .leave 2]

/-- Two calls share one verification. -/
theorem shared_verification_not_stale_two_calls :
    Orderly (flightLimit 0) (run (flightLimit 0) {} sharedEvents) ∧
      NeverStale (run (flightLimit 0) {} sharedEvents) := by
  obtain ⟨horderly, hfresh⟩ := shared_verification_not_stale 0 sharedEvents
  exact ⟨horderly, hfresh (by decide)⟩

/-- The second call comes when the work has returned and the first call has not left. -/
def lateEvents : List FlightEvent :=
  [.enter 1 "k", .join 1, .spawn 1, .start 1, .workReturns 1 (some ("ok", none)), .complete 1,
    .enter 2 "k", .join 2, .receive 2, .leave 2]

/-- A call that finds a flight that is over returns its report, which is older than the call. -/
theorem late_call_gets_stale_report :
    ¬ ∀ (maxFlights : Int) (events : List FlightEvent),
      NeverStale (run (flightLimit maxFlights) {} events) := by
  intro hall
  have hcall : (run (flightLimit 0) {} lateEvents).calls.lookup 2 =
      some ⟨"k", 6, .returned ⟨"ok", none⟩⟩ := by
    decide
  have hmade : (run (flightLimit 0) {} lateEvents).made.entries =
      [⟨1, ⟨"k", 1, .returned ⟨"ok", none⟩ 4, some ⟨"ok", none⟩⟩⟩] := by
    decide
  obtain h | ⟨canceled, h⟩ | ⟨f, flight, t, hget, -, hwork, hlt⟩ :=
    hall 0 lateEvents 2 _ _ hcall rfl
  · exact absurd (VerifyResult.mk.inj h).1 (by decide)
  · exact absurd (VerifyResult.mk.inj h).1 (by decide)
  · have hin : (⟨f, flight⟩ : Sigma fun _ : Nat => VerifyFlight) ∈
        (run (flightLimit 0) {} lateEvents).made.entries := AList.mem_lookup_iff.mp hget
    rw [hmade, List.mem_singleton] at hin
    cases hin
    obtain ⟨-, rfl⟩ := FlightWork.returned.inj hwork
    exact absurd hlt (by decide)

end VerifyFlightGroup

end Averin
