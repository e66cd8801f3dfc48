import Averin.Verify.TsMillis

/-!
# The arithmetic of times

Times and the ages of snapshots are computed in 64 bits. Here every sum, difference and product
is carried out with its range checked, and none of them leaves it.
-/

namespace Averin

/-- Why a computation ends early: it refuses its input, or an operation stops it. -/
inductive TsError where
  | refused
  | overflow
  deriving DecidableEq, Repr

/-- A result that has to fit in 64 bits. -/
def inI64 (n : Int) : Except TsError Int :=
  if -2 ^ 63 ≤ n ∧ n < 2 ^ 63 then .ok n else .error .overflow

theorem inI64_eq {n : Int} (h : -2 ^ 63 ≤ n ∧ n < 2 ^ 63) : inI64 n = .ok n := if_pos h

/-- Digits, one after the other. -/
def runDigits : List UInt8 → Int → Except TsError Int
  | [], n => .ok n
  | c :: b, n =>
    if 0x30 ≤ c ∧ c ≤ 0x39 then
      inI64 (n * 10) >>= fun tens =>
        inI64 (tens + ((c - 0x30).toNat : Int)) >>= fun next => runDigits b next
    else .error .refused

/-- The digits of a field, with the machine's arithmetic. -/
def runFixedDigits (b : List UInt8) (start stop : Nat) : Except TsError Int :=
  runDigits ((b.drop start).take (stop - start)) 0

/-- The year, counted from March. -/
def runMarchYear (year month : Int) : Except TsError Int :=
  if month ≤ 2 then inI64 (year - 1) else .ok year

/-- The day of a date, with the machine's arithmetic. -/
def runDaysFromCivil (year month day : Int) : Except TsError Int := do
  let y ← runMarchYear year month
  let era := y / 400
  let eraYears ← inI64 (era * 400)
  let yoe ← inI64 (y - eraYears)
  let fromMarch ← inI64 (month + 9)
  let mp := fromMarch % 12
  let scaled ← inI64 (153 * mp)
  let rounded ← inI64 (scaled + 2)
  let withDay ← inI64 (rounded / 5 + day)
  let doy ← inI64 (withDay - 1)
  let years ← inI64 (yoe * 365)
  let leaps ← inI64 (years + yoe / 4)
  let centuries ← inI64 (leaps - yoe / 100)
  let doe ← inI64 (centuries + doy)
  let eraDays ← inI64 (era * 146097)
  let days ← inI64 (eraDays + doe)
  inI64 (days - 719468)

/-- The milliseconds of a date and a time of day. -/
def runClock (days hour min sec ms : Int) : Except TsError Int := do
  let hours ← inI64 (days * 24)
  let hours ← inI64 (hours + hour)
  let mins ← inI64 (hours * 60)
  let mins ← inI64 (mins + min)
  let secs ← inI64 (mins * 60)
  let secs ← inI64 (secs + sec)
  let millis ← inI64 (secs * 1000)
  inI64 (millis + ms)

/-- The reading of a time with the arithmetic carried out. -/
def runTsMillis (s : String) : Except TsError Int := do
  let b := bytes s
  require (Separated b) .refused
  let year ← runFixedDigits b 0 4
  let month ← runFixedDigits b 5 7
  let day ← runFixedDigits b 8 10
  let hour ← runFixedDigits b 11 13
  let min ← runFixedDigits b 14 16
  let sec ← runFixedDigits b 17 19
  let ms ← runFixedDigits b 20 23
  let last ← orFail (daysInMonth year month) .refused
  require (1 ≤ day ∧ day ≤ last ∧ hour ≤ 23 ∧ min ≤ 59 ∧ sec ≤ 59) .refused
  let days ← runDaysFromCivil year month day
  runClock days hour min sec ms

/-- A few digits stay small. -/
theorem runDigits_eq {l : List UInt8} {n : Int} {k : Nat} (hk : l.length + k ≤ 18) (h0 : 0 ≤ n)
    (hn : n < 10 ^ k) :
    runDigits l n = orFail (l.foldlM (fun n c =>
      if 0x30 ≤ c ∧ c ≤ 0x39 then some (n * 10 + ((c - 0x30).toNat : Int)) else none) n)
        .refused := by
  induction l generalizing n k with
  | nil => rfl
  | cons c l ih =>
    rw [runDigits, List.foldlM_cons]
    by_cases hc : 0x30 ≤ c ∧ c ≤ 0x39
    · obtain ⟨d, hd, rfl⟩ := digit_iff.mp hc
      rw [List.length_cons] at hk
      have hpow : (10 : Int) ^ (k + 1) ≤ 10 ^ 18 := pow_le_pow_right₀ (by decide) (by omega)
      rw [if_pos hc, if_pos hc, toNat_digit hd]
      have hlt : n * 10 + (d : Int) < 10 ^ (k + 1) := by
        rw [pow_succ]
        omega
      have htens : inI64 (n * 10) = .ok (n * 10) := inI64_eq (by omega)
      have hnext : inI64 (n * 10 + (d : Int)) = .ok (n * 10 + (d : Int)) := inI64_eq (by omega)
      rw [htens]
      dsimp only [bind, Except.bind]
      rw [hnext]
      exact ih (by omega) (by omega) hlt
    · rw [if_neg hc, if_neg hc]
      rfl

/-- Four digits do not overflow. -/
theorem runFixedDigits_eq {b : List UInt8} {start stop : Nat} (h : stop - start ≤ 4) :
    runFixedDigits b start stop = orFail (fixedDigits b start stop) .refused := by
  rw [runFixedDigits, fixedDigits]
  refine runDigits_eq (k := 0) ?_ le_rfl (by decide)
  rw [List.length_take]
  omega

theorem runDaysFromCivil_eq {year month day : Int} (hy : 0 ≤ year ∧ year < 10000)
    (hm : 1 ≤ month ∧ month ≤ 12) (hd : 1 ≤ day ∧ day ≤ 31) :
    runDaysFromCivil year month day = .ok (daysFromCivil year month day) ∧
      -1000000 ≤ daysFromCivil year month day ∧ daysFromCivil year month day < 4000000 := by
  have hbefore : runMarchYear year month = .ok (if month ≤ 2 then year - 1 else year) := by
    unfold runMarchYear
    split_ifs
    · exact inI64_eq (by omega)
    · rfl
  have hyear : -1 ≤ (if month ≤ 2 then year - 1 else year) ∧
      (if month ≤ 2 then year - 1 else year) < 10000 := by
    split_ifs <;> omega
  rw [runDaysFromCivil, hbefore, daysFromCivil]
  generalize (if month ≤ 2 then year - 1 else year) = y at hyear
  have hera : -1 ≤ y / 400 ∧ y / 400 ≤ 24 := by omega
  have hyoe : 0 ≤ y - y / 400 * 400 ∧ y - y / 400 * 400 < 400 := by omega
  have hmp : 0 ≤ (month + 9) % 12 ∧ (month + 9) % 12 < 12 := by omega
  have hshift : inI64 (month + 9) = .ok (month + 9) := inI64_eq (by omega)
  simp only [bind, Except.bind]
  rw [inI64_eq (n := y / 400 * 400) (by omega)]
  dsimp only
  rw [inI64_eq (n := y - y / 400 * 400) (by omega), hshift]
  dsimp only
  generalize y / 400 = era at hera hyoe
  generalize y - era * 400 = yoe at hyoe
  generalize (month + 9) % 12 = mp at hmp
  have hfour : 0 ≤ yoe / 4 ∧ yoe / 4 < 100 := by omega
  have hcentury : 0 ≤ yoe / 100 ∧ yoe / 100 < 4 := by omega
  have hdoy : 0 ≤ (153 * mp + 2) / 5 ∧ (153 * mp + 2) / 5 ≤ 337 := by omega
  generalize yoe / 4 = four at hfour
  generalize yoe / 100 = century at hcentury
  rw [inI64_eq (n := 153 * mp) (by omega)]
  dsimp only
  rw [inI64_eq (n := 153 * mp + 2) (by omega)]
  dsimp only
  generalize (153 * mp + 2) / 5 = toMonth at hdoy
  rw [inI64_eq (n := toMonth + day) (by omega)]
  dsimp only
  rw [inI64_eq (n := toMonth + day - 1) (by omega), inI64_eq (n := yoe * 365) (by omega)]
  dsimp only
  rw [inI64_eq (n := yoe * 365 + four) (by omega)]
  dsimp only
  rw [inI64_eq (n := yoe * 365 + four - century) (by omega)]
  dsimp only
  rw [inI64_eq (n := yoe * 365 + four - century + (toMonth + day - 1)) (by omega),
    inI64_eq (n := era * 146097) (by omega)]
  dsimp only
  rw [inI64_eq (n := era * 146097 + (yoe * 365 + four - century + (toMonth + day - 1)))
    (by omega)]
  dsimp only
  exact ⟨inI64_eq (by omega), by omega, by omega⟩

theorem runClock_eq {days hour min sec ms : Int} (hdays : -1000000 ≤ days ∧ days < 4000000)
    (hhour : 0 ≤ hour ∧ hour ≤ 23) (hmin : 0 ≤ min ∧ min ≤ 59) (hsec : 0 ≤ sec ∧ sec ≤ 59)
    (hms : 0 ≤ ms ∧ ms < 1000) :
    runClock days hour min sec ms =
        .ok ((((days * 24 + hour) * 60 + min) * 60 + sec) * 1000 + ms) ∧
      -10 ^ 15 ≤ (((days * 24 + hour) * 60 + min) * 60 + sec) * 1000 + ms ∧
      (((days * 24 + hour) * 60 + min) * 60 + sec) * 1000 + ms < 10 ^ 15 := by
  refine ⟨?_, by omega, by omega⟩
  rw [runClock]
  simp only [bind, Except.bind]
  rw [inI64_eq (n := days * 24) (by omega)]
  dsimp only
  rw [inI64_eq (n := days * 24 + hour) (by omega)]
  dsimp only
  rw [inI64_eq (n := (days * 24 + hour) * 60) (by omega)]
  dsimp only
  rw [inI64_eq (n := (days * 24 + hour) * 60 + min) (by omega)]
  dsimp only
  rw [inI64_eq (n := ((days * 24 + hour) * 60 + min) * 60) (by omega)]
  dsimp only
  rw [inI64_eq (n := ((days * 24 + hour) * 60 + min) * 60 + sec) (by omega)]
  dsimp only
  rw [inI64_eq (n := (((days * 24 + hour) * 60 + min) * 60 + sec) * 1000) (by omega)]
  dsimp only
  exact inI64_eq (by omega)

/-- Two continuations that agree on what a step returns. -/
theorem bind_congr_ok {α β : Type} {ε : Type} {x : Except ε α} {f g : α → Except ε β}
    (h : ∀ a, x = .ok a → f a = g a) : (x >>= f) = (x >>= g) := by
  cases x with
  | error e => rfl
  | ok a => exact h a rfl

/-- Failing after two steps is failing in either. -/
theorem orFail_bind {α β : Type} {ε : Type} (x : Option α) (f : α → Option β) (e : ε) :
    orFail (x.bind f) e = orFail x e >>= fun a => orFail (f a) e := by
  cases x <;> rfl

/-- Reading a time never overflows: carried out in 64 bits it gives the same answer. -/
theorem runTsMillis_eq (s : String) :
    runTsMillis s = orFail (canonicalTsMillis s) .refused := by
  by_cases hb : Separated (bytes s)
  · have hmillis : canonicalTsMillis s = fieldsMillis (bytes s) := by
      refine Option.ext fun n => ?_
      rw [canonicalTsMillis_eq_some]
      exact and_iff_right hb
    have hlen := hb.1
    rw [hmillis, runTsMillis, fieldsMillis]
    simp (disch := decide) only [orFail_bind, runFixedDigits_eq]
    rw [require, if_pos hb]
    dsimp only [bind, Except.bind]
    refine bind_congr_ok fun year hyear => bind_congr_ok fun month hmonth =>
      bind_congr_ok fun day hday => bind_congr_ok fun hour hhour => bind_congr_ok fun min hmin =>
      bind_congr_ok fun sec hsec => bind_congr_ok fun ms hms => bind_congr_ok fun last hlast => ?_
    rw [orFail_eq_ok_iff] at hyear hmonth hday hhour hmin hsec hms hlast
    obtain ⟨year, rfl, hy, -⟩ := (fixedDigits_iff (by omega)).mp hyear
    obtain ⟨month, rfl, -, -⟩ := (fixedDigits_iff (by omega)).mp hmonth
    obtain ⟨day, rfl, -, -⟩ := (fixedDigits_iff (by omega)).mp hday
    obtain ⟨hour, rfl, -, -⟩ := (fixedDigits_iff (by omega)).mp hhour
    obtain ⟨min, rfl, -, -⟩ := (fixedDigits_iff (by omega)).mp hmin
    obtain ⟨sec, rfl, -, -⟩ := (fixedDigits_iff (by omega)).mp hsec
    obtain ⟨ms, rfl, hms, -⟩ := (fixedDigits_iff (by omega)).mp hms
    obtain ⟨hmonth, rfl⟩ := daysInMonth_eq_some_iff.mp hlast
    have hlast := monthLength_le year month
    by_cases hrange : (1 : Int) ≤ day ∧ (day : Int) ≤ monthLength year month ∧
        (hour : Int) ≤ 23 ∧ (min : Int) ≤ 59 ∧ (sec : Int) ≤ 59
    · obtain ⟨hdays, hbounds⟩ := @runDaysFromCivil_eq year month day
        (by omega) (by omega) (by omega)
      rw [require, if_pos hrange, if_neg (by omega)]
      simp only [hdays, orFail]
      exact (runClock_eq hbounds (by omega) (by omega) (by omega) (by omega)).1
    · rw [require, if_neg hrange, if_pos (by omega)]
      rfl
  · have hnone : canonicalTsMillis s = none := by
      refine Option.eq_none_iff_forall_ne_some.mpr fun n hn => ?_
      exact hb (canonicalTsMillis_eq_some.mp hn).1
    rw [hnone, runTsMillis, require, if_neg hb]
    rfl

/-- The caller's clock and its demands on a snapshot. -/
structure DbSerializedPolicy where
  evaluationTime : String
  evaluationMs : Int
  maxSnapshotAgeSeconds : Int
  minAuthorizationWatermark : Int
  evaluation_eq : canonicalTsMillis evaluationTime = some evaluationMs
  age_range : 1 ≤ maxSnapshotAgeSeconds ∧ maxSnapshotAgeSeconds ≤ 366 * 24 * 3600
  watermark_nonneg : 0 ≤ minAuthorizationWatermark

/-- Check the caller's values. -/
def DbSerializedPolicy.new (evaluationTime : String) (maxSnapshotAgeSeconds : Int)
    (minAuthorizationWatermark : Int) : Except String DbSerializedPolicy :=
  match h : canonicalTsMillis evaluationTime with
  | none => .error ("revocation_temporal.evaluation_time must be a canonical " ++
      "YYYY-MM-DDTHH:MM:SS.mmmZ time")
  | some evaluationMs =>
    if hage : 1 ≤ maxSnapshotAgeSeconds ∧ maxSnapshotAgeSeconds ≤ 366 * 24 * 3600 then
      if hmin : 0 ≤ minAuthorizationWatermark then
        .ok ⟨evaluationTime, evaluationMs, maxSnapshotAgeSeconds, minAuthorizationWatermark, h,
          hage, hmin⟩
      else .error "revocation_temporal.min_authorization_watermark must be >= 0"
    else .error
      "revocation_temporal.max_snapshot_age_seconds must be between 1 and 31622400"

/-- How the times of uses are judged. -/
inductive TemporalPolicy where
  | strict
  | dbSerializedV1 (p : DbSerializedPolicy)

/-- A signed list or tree root with its snapshot, which is dated by its own text. -/
structure V2Artifact where
  states : Table String RevState
  snapshot : Option Snapshot
  usable : Bool
  reason : Option String
  dated : ∀ s ∈ snapshot, canonicalTsMillis s.boundaryTime = some s.boundaryMs

/-- A snapshot that is read is dated by its own text. -/
theorem parseSnapshot_dated {artifact : CanonValue} {s : Snapshot}
    (h : parseSnapshot artifact = .ok s) :
    canonicalTsMillis s.boundaryTime = some s.boundaryMs := by
  simp only [parseSnapshot, bind_eq_ok_iff, orFail_eq_ok_iff] at h
  obtain ⟨projectId, -, snap, -, fields, -, _, -, time, -, ms, hms, watermark, -, heq⟩ := h
  obtain rfl := Except.ok.inj heq
  exact hms

/-- Why a signed artifact does not count for the past. `honored` says whether its issuer's key does
at a time. -/
def v2Reason (honored : String → Bool) (snapshot : Except String Snapshot) (wellFormed : Bool) :
    Option String :=
  match snapshot with
  | .error e => some ("snapshot: " ++ e)
  | .ok s =>
    if !wellFormed then some "malformed revocation entries"
    else if !honored s.boundaryTime then
      some ("issuer key is rotated/compromised and the snapshot is not provably before " ++
        "that status change")
    else none

/-- What is kept of a signed list or root. -/
def v2Artifact (honored : String → Bool) (artifact : CanonValue) (states : Table String RevState)
    (wellFormed : Bool) : V2Artifact where
  states := states
  snapshot := (parseSnapshot artifact).toOption
  usable := (v2Reason honored (parseSnapshot artifact) wellFormed).isNone
  reason := v2Reason honored (parseSnapshot artifact) wellFormed
  dated s hs := by
    rcases hparse : parseSnapshot artifact with e | s'
    · rw [hparse] at hs
      cases hs
    · rw [hparse] at hs
      obtain rfl := Option.some.inj hs
      exact parseSnapshot_dated hparse

/-- What is said of a snapshot. -/
inductive SnapshotStatus where
  | absent | unverified | notEvaluated | stale | verified
  deriving DecidableEq, Repr

/-- The snapshot all artifacts agree on, and whether it meets the policy. -/
structure SnapshotEval where
  status : SnapshotStatus
  reason : Option String
  identity : Option Snapshot
  verified : Option Snapshot
  deriving DecidableEq, Repr

/-- The snapshot of a list and a tree root under the caller's policy. -/
def evaluateSnapshot (policy : TemporalPolicy) (revocation merkle : Option V2Artifact)
    (projectId : Option String) : Except TsError SnapshotEval :=
  let artifacts := revocation.toList ++ merkle.toList
  let identity := artifacts.findSome? (·.snapshot)
  let result (status : SnapshotStatus) (reason : Option String) : Except TsError SnapshotEval :=
    .ok ⟨status, reason, identity, none⟩
  if artifacts.isEmpty then result .absent none
  else
    match artifacts.find? (!·.usable) with
    | some a => result .unverified a.reason
    | none =>
      match identity with
      | none => result .unverified (some "no signed snapshot")
      | some snap =>
        if artifacts.any (·.snapshot ≠ some snap) then
          result .unverified (some "the v2 list and v2 Merkle root sign different snapshots")
        else
          match policy with
          | .strict => result .notEvaluated none
          | .dbSerializedV1 p =>
            if projectId ≠ some snap.projectId then
              result .unverified (some "snapshot project does not match the bundle")
            else if p.evaluationMs < snap.boundaryMs then
              result .unverified
                (some "snapshot boundary_time is after the caller's evaluation_time")
            else
              inI64 (p.evaluationMs - snap.boundaryMs) >>= fun age =>
                inI64 (p.maxSnapshotAgeSeconds * 1000) >>= fun limit =>
                  if limit < age then
                    result .stale
                      (some "snapshot is older than the caller's max_snapshot_age_seconds")
                  else if snap.watermark < p.minAuthorizationWatermark then
                    result .unverified
                      (some "snapshot watermark is below the caller's min_authorization_watermark")
                  else .ok ⟨.verified, none, some snap, some snap⟩

/-- A time that is read is not far from 1970. -/
theorem canonicalTsMillis_bounds {s : String} {n : Int} (h : canonicalTsMillis s = some n) :
    -10 ^ 15 ≤ n ∧ n < 10 ^ 15 := by
  obtain ⟨t, -, rfl⟩ := canonicalTsMillis_eq_some_iff.mp h
  have h1970 := daysBeforeYear_eq 1970
  have hyear := daysBeforeYear_eq t.year
  have hlt := t.year_lt
  have hday := t.dayNumber_lt.2
  have hlength : yearLength t.year ≤ 366 := by
    unfold yearLength
    split_ifs <;> omega
  have hh := t.hour_lt
  have hm := t.minute_lt
  have hs := t.second_lt
  have hms := t.milli_lt
  have hnumber : t.dayNumber < 4000000 := by omega
  rw [UtcTime.millis]
  omega

/-- The window is computed without overflow under every policy. -/
theorem evaluateSnapshot_ok (policy : TemporalPolicy) (revocation merkle : Option V2Artifact)
    (projectId : Option String) :
    ∃ e, evaluateSnapshot policy revocation merkle projectId = .ok e := by
  unfold evaluateSnapshot
  dsimp only
  by_cases hempty : (revocation.toList ++ merkle.toList).isEmpty = true
  · exact ⟨_, if_pos hempty⟩
  rw [if_neg hempty]
  cases (revocation.toList ++ merkle.toList).find? (!·.usable) with
  | some a => exact ⟨_, rfl⟩
  | none =>
    cases hsnap : (revocation.toList ++ merkle.toList).findSome? (·.snapshot) with
    | none => exact ⟨_, rfl⟩
    | some snap =>
      obtain ⟨a, -, ha⟩ := List.exists_of_findSome?_eq_some hsnap
      have hboundary := canonicalTsMillis_bounds (a.dated snap ha)
      cases policy with
      | strict =>
        dsimp only
        split_ifs <;> exact ⟨_, rfl⟩
      | dbSerializedV1 p =>
        have hclock := canonicalTsMillis_bounds p.evaluation_eq
        have hage := p.age_range
        dsimp only
        rw [inI64_eq (n := p.evaluationMs - snap.boundaryMs) (by omega),
          inI64_eq (n := p.maxSnapshotAgeSeconds * 1000) (by omega)]
        dsimp only [bind, Except.bind]
        split_ifs <;> exact ⟨_, rfl⟩

/-- A verified snapshot is that of every artifact, all of them usable, and meets the policy. -/
theorem evaluateSnapshot_verified {policy : TemporalPolicy} {revocation merkle : Option V2Artifact}
    {projectId : Option String} {e : SnapshotEval} {snap : Snapshot}
    (h : evaluateSnapshot policy revocation merkle projectId = .ok e)
    (hv : e.verified = some snap) :
    (∀ a ∈ revocation.toList ++ merkle.toList, a.usable = true ∧ a.snapshot = some snap) ∧
      projectId = some snap.projectId ∧
      ∃ p, policy = .dbSerializedV1 p ∧ snap.boundaryMs ≤ p.evaluationMs ∧
        p.evaluationMs - snap.boundaryMs ≤ p.maxSnapshotAgeSeconds * 1000 ∧
        p.minAuthorizationWatermark ≤ snap.watermark := by
  have hno : ∀ {status reason identity},
      (.ok ⟨status, reason, identity, none⟩ : Except TsError SnapshotEval) = .ok e → False := by
    intro status reason identity h
    obtain rfl := Except.ok.inj h
    cases hv
  unfold evaluateSnapshot at h
  dsimp only at h
  by_cases hempty : (revocation.toList ++ merkle.toList).isEmpty = true
  · rw [if_pos hempty] at h
    exact (hno h).elim
  rw [if_neg hempty] at h
  cases hfind : (revocation.toList ++ merkle.toList).find? (!·.usable) with
  | some a =>
    rw [hfind] at h
    exact (hno h).elim
  | none =>
    rw [hfind] at h
    cases hsnap : (revocation.toList ++ merkle.toList).findSome? (·.snapshot) with
    | none =>
      rw [hsnap] at h
      exact (hno h).elim
    | some s =>
      rw [hsnap] at h
      dsimp only at h
      by_cases hany : ((revocation.toList ++ merkle.toList).any (·.snapshot ≠ some s)) = true
      · rw [if_pos hany] at h
        exact (hno h).elim
      rw [if_neg hany] at h
      obtain ⟨a, -, ha⟩ := List.exists_of_findSome?_eq_some hsnap
      have hboundary := canonicalTsMillis_bounds (a.dated s ha)
      cases policy with
      | strict => exact (hno h).elim
      | dbSerializedV1 p =>
        have hclock := canonicalTsMillis_bounds p.evaluation_eq
        have hage := p.age_range
        dsimp only at h
        rw [inI64_eq (n := p.evaluationMs - s.boundaryMs) (by omega),
          inI64_eq (n := p.maxSnapshotAgeSeconds * 1000) (by omega)] at h
        dsimp only [bind, Except.bind] at h
        split_ifs at h with hproject hafter hstale hlow
        · exact (hno h).elim
        · exact (hno h).elim
        · exact (hno h).elim
        · exact (hno h).elim
        obtain rfl := Except.ok.inj h
        obtain rfl := Option.some.inj hv
        refine ⟨fun b hb => ⟨?_, ?_⟩, not_not.mp hproject, p, rfl, not_lt.mp hafter,
          not_lt.mp hstale, not_lt.mp hlow⟩
        · simpa using List.find?_eq_none.mp hfind b hb
        · by_contra hne
          exact hany (List.any_eq_true.mpr ⟨b, hb, by simpa using hne⟩)

/-- Canonical times are exact: a text is read exactly if it is that of a date and a time of day,
and then to their milliseconds by the calendar; the order of the texts is that of the instants;
carried out in 64 bits the reading gives the same answer; what is read passes the other check; and
the window of a snapshot is computed without overflow under every policy. -/
theorem canonicalTs_exact :
    (∀ s n, canonicalTsMillis s = some n ↔ ∃ t : UtcTime, t.text = s ∧ t.millis = n) ∧
      (∀ s s' n n', canonicalTsMillis s = some n → canonicalTsMillis s' = some n' →
        (s < s' ↔ n < n')) ∧
      (∀ s, runTsMillis s = orFail (canonicalTsMillis s) .refused) ∧
      (∀ s n, canonicalTsMillis s = some n → isCanonicalTs s = true) ∧
      ∀ policy revocation merkle projectId,
        ∃ e, evaluateSnapshot policy revocation merkle projectId = .ok e := by
  refine ⟨fun s n => canonicalTsMillis_eq_some_iff, fun s s' n n' => lt_iff_millis_lt,
    runTsMillis_eq, fun s n h => ?_, evaluateSnapshot_ok⟩
  obtain ⟨t, rfl, -⟩ := canonicalTsMillis_eq_some_iff.mp h
  exact isCanonicalTs_text t

/-- The last moment of a leap day comes before the first of the next month. -/
theorem canonicalTs_exact_leap_day :
    canonicalTsMillis "2024-02-29T23:59:59.999Z" = some 1709251199999 ∧
      "2024-02-29T23:59:59.999Z" < "2024-03-01T00:00:00.000Z" := by
  have hlast : canonicalTsMillis "2024-02-29T23:59:59.999Z" = some 1709251199999 := by
    decide +kernel
  have hnext : canonicalTsMillis "2024-03-01T00:00:00.000Z" = some 1709251200000 := by
    decide +kernel
  exact ⟨hlast, (canonicalTs_exact.2.1 _ _ _ _ hlast hnext).mpr (by decide)⟩

end Averin
