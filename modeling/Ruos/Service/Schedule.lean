import Mathlib

/-! The schedules of timer units: `service/schedule.rs`. Calendar times are seconds since 1970, far below the range of
their type; ticks wrap around. -/
namespace Ruos.Service

inductive Schedule
  | everyTicks (n : Nat)
  | bootPlus (n : Nat)
  | hourly (minute : Nat)
  | daily (hour minute : Nat)
  | weekly (dow hour minute : Nat)
deriving DecidableEq

def isWhitespace (c : Char) : Bool :=
  c.toNat ∈ [0x20, 0x85, 0xA0, 0x1680, 0x2028, 0x2029, 0x202F, 0x205F, 0x3000] ∨
    (9 ≤ c.toNat ∧ c.toNat ≤ 13) ∨ (0x2000 ≤ c.toNat ∧ c.toNat ≤ 0x200A)

def trim (s : List Char) : List Char := (s.dropWhile isWhitespace).rdropWhile isWhitespace

def afterHead (head s : List Char) : Option (List Char) :=
  if head.isPrefixOf s then some (s.drop head.length) else none

/-- The texts around the first `c`. -/
def splitOnce (c : Char) (s : List Char) : Option (List Char × List Char) :=
  if c ∈ s then some (s.takeWhile (· ≠ c), (s.dropWhile (· ≠ c)).drop 1) else none

/-- `str::parse` for an unsigned type with the given number of values. -/
def parseUnsigned (bound : Nat) (s : List Char) : Except String Nat :=
  let digits := if s.head? = some '+' then s.drop 1 else s
  let v := digits.foldl (fun v c => 10 * v + (c.toNat - '0'.toNat)) 0
  if digits ≠ [] ∧ digits.all Char.isDigit ∧ v < bound then .ok v else .error "bad number"

def secs (s : List Char) : Except String Nat :=
  match (trim s).getLast? with
  | some 's' => parseUnsigned (2 ^ 64) (trim s).dropLast
  | _ => .error "want Ns"

def num (s : List Char) (max : Nat) : Except String Nat := do
  let v ← parseUnsigned (2 ^ 32) (trim s)
  if max < v then .error (toString v ++ " out of range") else .ok v

def hhmm (s : List Char) : Except String (Nat × Nat) :=
  match splitOnce ':' (trim s) with
  | none => .error "want HH:MM"
  | some (h, m) => do
    let hour ← num h 23
    let minute ← num m 59
    .ok (hour, minute)

def dayNames : List (List Char) := ["sun", "mon", "tue", "wed", "thu", "fri", "sat"].map String.toList

def scheduleParse (text : List Char) : Except String Schedule :=
  let s := trim text
  if let some rest := afterHead "every ".toList s then do
    let n ← secs rest
    .ok (.everyTicks (n * 100 % 2 ^ 64))
  else if let some rest := afterHead "boot+".toList s then do
    let n ← secs rest
    .ok (.bootPlus (n * 100 % 2 ^ 64))
  else if let some rest := afterHead "hourly ".toList s then
    match afterHead [':'] (trim rest) with
    | none => .error "hourly: want :MM"
    | some m => do
      let minute ← num m 59
      .ok (.hourly minute)
  else if let some rest := afterHead "daily ".toList s then do
    let (hour, minute) ← hhmm rest
    .ok (.daily hour minute)
  else if let some rest := afterHead "weekly ".toList s then
    match splitOnce ' ' (trim rest) with
    | none => .error "weekly: want 'Dow HH:MM'"
    | some (day, hm) =>
      if day.map Char.toLower ∈ dayNames then do
        let (hour, minute) ← hhmm hm
        .ok (.weekly (dayNames.idxOf (day.map Char.toLower)) hour minute)
      else .error "weekly: bad day"
  else .error ("unknown schedule '" ++ String.ofList s ++ "'")

/-- The fields that `schedule_parse` lets through. -/
def Schedule.InRange : Schedule → Prop
  | .everyTicks n | .bootPlus n => n < 2 ^ 64
  | .hourly minute => minute ≤ 59
  | .daily hour minute => hour ≤ 23 ∧ minute ≤ 59
  | .weekly dow hour minute => dow ≤ 6 ∧ hour ≤ 23 ∧ minute ≤ 59

theorem bind_eq_ok {α β : Type} {x : Except String α} {f : α → Except String β} {b : β} (h : x >>= f = .ok b) :
    ∃ a, x = .ok a ∧ f a = .ok b := by
  cases x with
  | error e => cases h
  | ok a => exact ⟨a, rfl, h⟩

theorem num_le {s : List Char} {max v : Nat} (h : num s max = .ok v) : v ≤ max := by
  obtain ⟨w, -, h⟩ := bind_eq_ok h
  split at h <;> cases h
  omega

theorem hhmm_le {s : List Char} {hour minute : Nat} (h : hhmm s = .ok (hour, minute)) : hour ≤ 23 ∧ minute ≤ 59 := by
  unfold hhmm at h
  split at h
  · cases h
  · obtain ⟨a, ha, h⟩ := bind_eq_ok h
    obtain ⟨b, hb, h⟩ := bind_eq_ok h
    obtain ⟨rfl, rfl⟩ := Prod.mk.inj (Except.ok.inj h)
    exact ⟨num_le ha, num_le hb⟩

variable {s : Schedule}

theorem scheduleParse_inRange {text : List Char} (h : scheduleParse text = .ok s) : s.InRange := by
  simp only [scheduleParse] at h
  split at h
  · obtain ⟨n, -, h⟩ := bind_eq_ok h
    cases h
    exact Nat.mod_lt _ (by decide)
  split at h
  · obtain ⟨n, -, h⟩ := bind_eq_ok h
    cases h
    exact Nat.mod_lt _ (by decide)
  split at h
  · split at h
    · cases h
    · obtain ⟨minute, hm, h⟩ := bind_eq_ok h
      cases h
      exact num_le hm
  split at h
  · obtain ⟨⟨hour, minute⟩, hm, h⟩ := bind_eq_ok h
    cases h
    exact hhmm_le hm
  split at h
  · split at h
    · cases h
    · split at h
      · rename_i hday
        obtain ⟨⟨hour, minute⟩, hm, h⟩ := bind_eq_ok h
        cases h
        have hlt := List.idxOf_lt_length_iff.mpr hday
        exact ⟨Nat.le_of_lt_succ hlt, hhmm_le hm⟩
      · cases h
  · cases h

/-- The sums are those of `u64`. -/
def computeNext (s : Schedule) (epochNow nowTicks : Nat) : Nat :=
  match s with
  | .everyTicks n => (nowTicks + n) % 2 ^ 64
  | .bootPlus n => n
  | .hourly minute =>
    let cand := (epochNow - epochNow % 3600 + minute * 60) % 2 ^ 64
    if epochNow < cand then cand else (cand + 3600) % 2 ^ 64
  | .daily hour minute =>
    let cand := (epochNow - epochNow % 86400 + hour * 3600 + minute * 60) % 2 ^ 64
    if epochNow < cand then cand else (cand + 86400) % 2 ^ 64
  | .weekly dow hour minute =>
    let days := epochNow / 86400
    let delta := (dow + 7 - (days + 4) % 7) % 7
    let cand := ((days + delta) * 86400 + hour * 3600 + minute * 60) % 2 ^ 64
    if epochNow < cand then cand else (cand + 7 * 86400) % 2 ^ 64

def Schedule.isCalendar : Schedule → Bool
  | .everyTicks _ | .bootPlus _ => false
  | .hourly _ | .daily .. | .weekly .. => true

/-- The beginning of a minute that the schedule names. 1970 began on a Thursday. -/
def Schedule.Matches (s : Schedule) (t : Nat) : Prop :=
  t % 60 = 0 ∧
    match s with
    | .everyTicks _ | .bootPlus _ => False
    | .hourly minute => t / 60 % 60 = minute
    | .daily hour minute => t / 60 % 60 = minute ∧ t / 3600 % 24 = hour
    | .weekly dow hour minute => t / 60 % 60 = minute ∧ t / 3600 % 24 = hour ∧ (t / 86400 + 4) % 7 = dow

/-- The first of the candidates `c`, `c + period` that is later than `now`. -/
def laterOf (now c period : Nat) : Nat := if now < c then c else c + period

def Schedule.instantAfter (s : Schedule) (epochNow nowTicks : Nat) : Nat :=
  match s with
  | .everyTicks n => nowTicks + n
  | .bootPlus n => n
  | .hourly minute => laterOf epochNow (epochNow - epochNow % 3600 + minute * 60) 3600
  | .daily hour minute => laterOf epochNow (epochNow - epochNow % 86400 + hour * 3600 + minute * 60) 86400
  | .weekly dow hour minute =>
    laterOf epochNow ((epochNow / 86400 + (dow + 7 - (epochNow / 86400 + 4) % 7) % 7) * 86400 + hour * 3600 + minute * 60)
      (7 * 86400)

variable {s : Schedule}

theorem instantAfter_isLeast (hs : s.InRange) (hcal : s.isCalendar) (epochNow nowTicks : Nat) :
    IsLeast { t | epochNow < t ∧ s.Matches t } (s.instantAfter epochNow nowTicks) := by
  cases s with
  | everyTicks | bootPlus => cases hcal
  | hourly | daily | weekly =>
    simp only [Schedule.InRange] at hs
    simp only [Schedule.instantAfter, laterOf, Schedule.Matches]
    constructor
    · simp only [Set.mem_ofPred_eq]
      split <;> omega
    · rintro t ⟨hlt, hmatch⟩
      split <;> omega

theorem lt_instantAfter (hcal : s.isCalendar) (epochNow nowTicks : Nat) :
    epochNow < s.instantAfter epochNow nowTicks := by
  cases s with
  | everyTicks | bootPlus => cases hcal
  | hourly | daily | weekly =>
    simp only [Schedule.instantAfter, laterOf]
    split <;> omega

theorem laterOf_wrapped {now c period : Nat} (h : laterOf now c period < 2 ^ 64) :
    (if now < c % 2 ^ 64 then c % 2 ^ 64 else (c % 2 ^ 64 + period) % 2 ^ 64) = laterOf now c period := by
  rw [laterOf] at h ⊢
  split_ifs at h with hnow
  · rw [Nat.mod_eq_of_lt h, if_pos hnow, if_pos hnow]
  · have hc : c % 2 ^ 64 = c := Nat.mod_eq_of_lt (by omega)
    rw [hc, if_neg hnow, if_neg hnow, Nat.mod_eq_of_lt h]

theorem computeNext_eq {epochNow nowTicks : Nat} (h : s.instantAfter epochNow nowTicks < 2 ^ 64) :
    computeNext s epochNow nowTicks = s.instantAfter epochNow nowTicks := by
  cases s with
  | everyTicks n => exact Nat.mod_eq_of_lt h
  | bootPlus n => rfl
  | hourly | daily | weekly => exact laterOf_wrapped h

theorem computeNext_isLeast_iff (hs : s.InRange) (hcal : s.isCalendar) (epochNow nowTicks : Nat) :
    IsLeast { t | epochNow < t ∧ s.Matches t } (computeNext s epochNow nowTicks) ↔
      s.instantAfter epochNow nowTicks < 2 ^ 64 := by
  have hleast := instantAfter_isLeast hs hcal epochNow nowTicks
  constructor
  · intro h
    rw [hleast.unique h]
    cases s with
    | everyTicks | bootPlus => cases hcal
    | hourly | daily | weekly =>
      simp only [computeNext]
      split <;> exact Nat.mod_lt _ (by decide)
  · intro h
    rw [computeNext_eq h]
    exact hleast

end Ruos.Service
