import FutureWas.Collections.Text
import Mathlib.Data.List.DropRight
import Mathlib.Data.Nat.Find
import Mathlib.Tactic.Ring

/-!
# Instants and their RFC 3339 text

An instant is a number of nanoseconds since the first of January of the year 1, and its text
shows it in a zone, given by an offset in seconds. The text names the day of the proleptic
Gregorian calendar and the offset without its seconds, so it is read back as the same instant
exactly when these say everything.
-/

set_option autoImplicit false

namespace Collections.Calendar

/-! ## Days -/

def daysBeforeYear (y : ℕ) : ℕ := 365 * y + (y + 3) / 4 + (y + 399) / 400 - (y + 99) / 100

def isLeap (y : ℕ) : Bool := y % 4 = 0 ∧ (y % 100 ≠ 0 ∨ y % 400 = 0)

def daysIn (y month : ℕ) : ℕ :=
  if month = 2 then (if isLeap y then 29 else 28) else 30 + (month + month / 8) % 2

def daysBeforeMonth (y : ℕ) : ℕ → ℕ
  | 0 => 0
  | m + 1 => daysBeforeMonth y m + daysIn y (m + 1)

theorem daysIn_le (y month : ℕ) : daysIn y month ≤ 31 := by
  unfold daysIn
  split_ifs <;> omega

/-- The last of the periods up to `bound` that has begun on a day. -/
def period (start : ℕ → ℕ) (bound day : ℕ) : ℕ := Nat.findGreatest (fun k => start k ≤ day) bound

def yearOf (day : ℕ) : ℕ := period daysBeforeYear (day / 365) day

def dayOfYear (day : ℕ) : ℕ := day - daysBeforeYear (yearOf day)

/-- Months count from 0. -/
def monthOf (day : ℕ) : ℕ := period (daysBeforeMonth (yearOf day)) 11 (dayOfYear day)

def dayOfMonth (day : ℕ) : ℕ := dayOfYear day - daysBeforeMonth (yearOf day) (monthOf day)

theorem daysBeforeMonth_twelve (y : ℕ) :
    daysBeforeMonth y 12 = if isLeap y then 366 else 365 := by
  cases h : isLeap y
  · simp [daysBeforeMonth, daysIn, h]
  · simp [daysBeforeMonth, daysIn, h]

theorem leap_count (y : ℕ) :
    (if isLeap y then 366 else 365) + (if y % 100 = 0 then 1 else 0) =
      365 + (if y % 4 = 0 then 1 else 0) + if y % 400 = 0 then 1 else 0 := by
  have hfour : y % 100 = 0 → y % 4 = 0 := by omega
  have hhundred : y % 400 = 0 → y % 100 = 0 := by omega
  simp only [isLeap, decide_eq_true_eq]
  by_cases h4 : y % 4 = 0
  · by_cases h100 : y % 100 = 0
    · by_cases h400 : y % 400 = 0
      · simp [h4, h100, h400]
      · simp [h4, h100, h400]
    · have h400 : y % 400 ≠ 0 := fun h => h100 (hhundred h)
      simp [h4, h100, h400]
  · have h100 : y % 100 ≠ 0 := fun h => h4 (hfour h)
    have h400 : y % 400 ≠ 0 := fun h => h100 (hhundred h)
    simp [h4, h100, h400]

theorem daysBeforeYear_succ (y : ℕ) :
    daysBeforeYear (y + 1) = daysBeforeYear y + daysBeforeMonth y 12 := by
  have hfour : (y + 1 + 3) / 4 = (y + 3) / 4 + if y % 4 = 0 then 1 else 0 := by split_ifs <;> omega
  have hhundred : (y + 1 + 99) / 100 = (y + 99) / 100 + if y % 100 = 0 then 1 else 0 := by
    split_ifs <;> omega
  have hcycle : (y + 1 + 399) / 400 = (y + 399) / 400 + if y % 400 = 0 then 1 else 0 := by
    split_ifs <;> omega
  have hle : (y + 99) / 100 ≤ 365 * y := by omega
  have hleap := leap_count y
  rw [daysBeforeMonth_twelve, daysBeforeYear, daysBeforeYear, hfour, hhundred, hcycle]
  generalize (if isLeap y then 366 else 365) = days at *
  generalize (if y % 4 = 0 then 1 else 0) = i, (if y % 100 = 0 then 1 else 0) = j,
    (if y % 400 = 0 then 1 else 0) = k at *
  omega

theorem le_daysBeforeYear (y : ℕ) : 365 * y ≤ daysBeforeYear y := by
  unfold daysBeforeYear
  omega

theorem period_spec {start : ℕ → ℕ} {bound day : ℕ} (hzero : start 0 ≤ day)
    (hbound : day < start (bound + 1)) :
    start (period start bound day) ≤ day ∧ day < start (period start bound day + 1) ∧
      period start bound day ≤ bound := by
  have hle : period start bound day ≤ bound := Nat.findGreatest_le bound
  refine ⟨Nat.findGreatest_spec (P := fun k => start k ≤ day) (Nat.zero_le bound) hzero, ?_, hle⟩
  rcases Nat.lt_or_eq_of_le hle with hlt | heq
  · exact Nat.lt_of_not_le (Nat.findGreatest_is_greatest (P := fun k => start k ≤ day)
      (Nat.lt_succ_self _) (Nat.succ_le_of_lt hlt))
  · rw [heq]
    exact hbound

theorem yearOf_spec (day : ℕ) :
    daysBeforeYear (yearOf day) ≤ day ∧ day < daysBeforeYear (yearOf day + 1) := by
  have hbound : day < daysBeforeYear (day / 365 + 1) := by
    have := le_daysBeforeYear (day / 365 + 1)
    omega
  obtain ⟨hle, hlt, -⟩ := period_spec (Nat.zero_le day) hbound
  exact ⟨hle, hlt⟩

theorem daysBeforeYear_mono : Monotone daysBeforeYear :=
  monotone_nat_of_le_succ fun y => by
    rw [daysBeforeYear_succ]
    exact Nat.le_add_right _ _

theorem yearOf_lt {day y : ℕ} (h : day < daysBeforeYear y) : yearOf day < y := by
  by_contra hle
  have hmono := daysBeforeYear_mono (Nat.le_of_not_lt hle)
  have hspec := (yearOf_spec day).1
  omega

theorem monthOf_spec (day : ℕ) :
    daysBeforeMonth (yearOf day) (monthOf day) ≤ dayOfYear day ∧
      dayOfYear day < daysBeforeMonth (yearOf day) (monthOf day + 1) ∧ monthOf day ≤ 11 := by
  refine period_spec (Nat.zero_le _) ?_
  have hspec := yearOf_spec day
  rw [daysBeforeYear_succ] at hspec
  show day - daysBeforeYear (yearOf day) < daysBeforeMonth (yearOf day) 12
  omega

theorem dayOfMonth_lt (day : ℕ) : dayOfMonth day < daysIn (yearOf day) (monthOf day + 1) := by
  obtain ⟨hle, hlt, -⟩ := monthOf_spec day
  rw [daysBeforeMonth] at hlt
  unfold dayOfMonth
  omega

theorem date_spec (day : ℕ) :
    daysBeforeYear (yearOf day) + daysBeforeMonth (yearOf day) (monthOf day) + dayOfMonth day =
      day := by
  have hyear := (yearOf_spec day).1
  have hmonth := (monthOf_spec day).1
  unfold dayOfMonth
  unfold dayOfYear at *
  omega

/-! ## Writing -/

def epoch : ℕ := 366 * 86400

/-- What the clock of the zone shows, in seconds since the year 0. -/
def localSecond (offset t : ℤ) : ℤ := t / 10 ^ 9 + offset + epoch

def dateText (s : ℕ) : List Char :=
  pad 4 (yearOf (s / 86400)) ++ '-' :: pad 2 (monthOf (s / 86400) + 1) ++
    '-' :: pad 2 (dayOfMonth (s / 86400) + 1)

def clockText (s : ℕ) : List Char :=
  pad 2 (s % 86400 / 3600) ++ ':' :: pad 2 (s % 3600 / 60) ++ ':' :: pad 2 (s % 60)

def fractionText (ns : ℕ) : List Char :=
  if ns = 0 then [] else '.' :: (pad 9 ns).rdropWhile fun c => c = '0'

/-- The sign is that of the whole minutes. -/
def zoneText (offset : ℤ) : List Char :=
  if offset = 0 then ['Z']
  else (if offset ≤ -60 then '-' else '+') ::
    pad 2 (offset.natAbs / 3600) ++ ':' :: pad 2 (offset.natAbs / 60 % 60)

/-- `Time.MarshalJSON`; `none` is a year or an hour of the offset out of range. -/
def formatRFC3339 (offset t : ℤ) : Option (List Char) :=
  let s := localSecond offset t
  if 0 ≤ s ∧ yearOf (s.toNat / 86400) ≤ 9999 ∧ offset.natAbs / 3600 < 24 then
    some (dateText s.toNat ++ 'T' :: clockText s.toNat ++ fractionText (t % 10 ^ 9).toNat ++
      zoneText offset)
  else none

/-! ## Reading -/

def takeNumber (width low high : ℕ) (s : List Char) : Option (ℕ × List Char) :=
  let ds := s.take width
  if ds.length = width ∧ ds.all Char.isDigit = true ∧ low ≤ decimal ds ∧ decimal ds ≤ high then
    some (decimal ds, s.drop width)
  else none

def takeChar (c : Char) : List Char → Option (List Char)
  | [] => none
  | d :: s => if d = c then some s else none

/-- Digits after the ninth are skipped. -/
def nanoseconds (ds : List Char) : ℕ := decimal (ds.take 9) * 10 ^ (9 - ds.length)

/-- A point without a digit after it is left. -/
def takeFraction (s : List Char) : ℕ × List Char :=
  match s with
  | '.' :: rest =>
    if rest.takeWhile Char.isDigit = [] then (0, s)
    else (nanoseconds (rest.takeWhile Char.isDigit), rest.dropWhile Char.isDigit)
  | _ => (0, s)

def parseDate (s : List Char) : Option (ℕ × List Char) := do
  let (year, s) ← takeNumber 4 0 9999 s
  let s ← takeChar '-' s
  let (month, s) ← takeNumber 2 1 12 s
  let s ← takeChar '-' s
  let (day, s) ← takeNumber 2 1 (daysIn year month) s
  pure (daysBeforeYear year + daysBeforeMonth year (month - 1) + (day - 1), s)

def parseClock (s : List Char) : Option (ℕ × List Char) := do
  let (hour, s) ← takeNumber 2 0 23 s
  let s ← takeChar ':' s
  let (minute, s) ← takeNumber 2 0 59 s
  let s ← takeChar ':' s
  let (second, s) ← takeNumber 2 0 59 s
  pure (hour * 3600 + minute * 60 + second, s)

def parseZone (s : List Char) : Option ℤ :=
  match s with
  | ['Z'] => some 0
  | sign :: s => do
    let (hour, s) ← takeNumber 2 0 23 s
    let s ← takeChar ':' s
    let (minute, s) ← takeNumber 2 0 59 s
    if s = [] ∧ sign = '+' then some (hour * 3600 + minute * 60)
    else if s = [] ∧ sign = '-' then some (-(hour * 3600 + minute * 60))
    else none
  | [] => none

def parseRFC3339 (s : List Char) : Option ℤ := do
  let (day, s) ← parseDate s
  let s ← takeChar 'T' s
  let (second, s) ← parseClock s
  let (ns, s) := takeFraction s
  let offset ← parseZone s
  pure ((day * 86400 + second - epoch - offset) * 10 ^ 9 + ns)

theorem takeNumber_pad {width low high n : ℕ} (hwidth : 0 < width) (hlt : n < 10 ^ width)
    (hlow : low ≤ n) (hhigh : n ≤ high) (s : List Char) :
    takeNumber width low high (pad width n ++ s) = some (n, s) := by
  have hlen : (pad width n).length = width := length_pad hwidth hlt
  have htake : (pad width n ++ s).take width = pad width n := List.take_left' hlen
  have hdrop : (pad width n ++ s).drop width = s := List.drop_left' hlen
  unfold takeNumber
  simp only [htake, hdrop, decimal_pad]
  exact if_pos ⟨hlen, List.all_eq_true.mpr isDigit_pad, hlow, hhigh⟩

theorem takeChar_cons (c : Char) (s : List Char) : takeChar c (c :: s) = some s := if_pos rfl

theorem parseDate_dateText {s : ℕ} (hyear : yearOf (s / 86400) ≤ 9999) (rest : List Char) :
    parseDate (dateText s ++ rest) = some (s / 86400, rest) := by
  have hmonth := (monthOf_spec (s / 86400)).2.2
  have hday := dayOfMonth_lt (s / 86400)
  have hdays := daysIn_le (yearOf (s / 86400)) (monthOf (s / 86400) + 1)
  unfold parseDate dateText
  simp only [List.append_assoc, List.cons_append]
  rw [takeNumber_pad (by decide) (by omega) (Nat.zero_le _) hyear]
  simp only [Option.bind_eq_bind, Option.bind_some, takeChar_cons]
  rw [takeNumber_pad (by decide) (by omega) (by omega) (by omega)]
  simp only [Option.bind_some, takeChar_cons]
  rw [takeNumber_pad (by decide) (by omega) (by omega) (by omega)]
  simp only [Option.bind_some, Nat.add_sub_cancel, date_spec]
  rfl

theorem parseClock_clockText (s : ℕ) (rest : List Char) :
    parseClock (clockText s ++ rest) = some (s % 86400, rest) := by
  have hhour : s % 86400 / 3600 ≤ 23 := by omega
  have hminute : s % 3600 / 60 ≤ 59 := by omega
  have hsecond : s % 60 ≤ 59 := by omega
  have hsum : s % 86400 / 3600 * 3600 + s % 3600 / 60 * 60 + s % 60 = s % 86400 := by omega
  unfold parseClock clockText
  simp only [List.append_assoc, List.cons_append]
  rw [takeNumber_pad (by decide) (by omega) (Nat.zero_le _) hhour]
  simp only [Option.bind_eq_bind, Option.bind_some, takeChar_cons]
  rw [takeNumber_pad (by decide) (by omega) (Nat.zero_le _) hminute]
  simp only [Option.bind_some, takeChar_cons]
  rw [takeNumber_pad (by decide) (by omega) (Nat.zero_le _) hsecond]
  simp only [Option.bind_some, hsum]
  rfl

theorem nanoseconds_rdropWhile {ds : List Char} (h : ds.length ≤ 9) :
    nanoseconds (ds.rdropWhile fun c => c = '0') = nanoseconds ds := by
  induction ds using List.reverseRecOn with
  | nil => rfl
  | append_singleton ds d ih =>
    rw [List.length_append, List.length_singleton] at h
    by_cases hzero : d = '0'
    · rw [hzero, List.rdropWhile_concat_pos _ _ _ rfl, ih (by omega)]
      have hshift : 9 - ds.length = 9 - (ds.length + 1) + 1 := by omega
      unfold nanoseconds
      rw [List.take_of_length_le (by omega), List.take_of_length_le (by simpa using h),
        decimal_append, List.length_append, List.length_singleton, hshift, pow_succ]
      show decimal ds * (10 ^ (9 - (ds.length + 1)) * 10) =
        (10 ^ 1 * decimal ds + 0) * 10 ^ (9 - (ds.length + 1))
      ring
    · rw [List.rdropWhile_concat_neg _ _ _ (by simpa using hzero)]

theorem nanoseconds_pad {ns : ℕ} (h : ns < 10 ^ 9) : nanoseconds (pad 9 ns) = ns := by
  have hlen : (pad 9 ns).length = 9 := length_pad (by decide) h
  unfold nanoseconds
  rw [List.take_of_length_le (by omega), hlen, decimal_pad, Nat.sub_self, pow_zero, Nat.mul_one]

theorem zoneText_eq_cons (offset : ℤ) :
    ∃ c rest, zoneText offset = c :: rest ∧ c.isDigit = false ∧ c ≠ '.' := by
  unfold zoneText
  split_ifs
  · exact ⟨_, _, rfl, rfl, by decide⟩
  · exact ⟨_, _, rfl, rfl, by decide⟩
  · exact ⟨_, _, rfl, rfl, by decide⟩

theorem takeFraction_cons {s : List Char} (h : s.takeWhile Char.isDigit ≠ []) :
    takeFraction ('.' :: s) =
      (nanoseconds (s.takeWhile Char.isDigit), s.dropWhile Char.isDigit) :=
  if_neg h

theorem takeFraction_of_ne {c : Char} (h : c ≠ '.') (s : List Char) :
    takeFraction (c :: s) = (0, c :: s) := by
  unfold takeFraction
  split
  · rename_i heq
    exact absurd (List.cons.inj heq).1 h
  · rfl

theorem takeFraction_fractionText {ns : ℕ} (h : ns < 10 ^ 9) (offset : ℤ) :
    takeFraction (fractionText ns ++ zoneText offset) = (ns, zoneText offset) := by
  obtain ⟨c, rest, hzone, hdigit, hpoint⟩ := zoneText_eq_cons offset
  rw [hzone]
  unfold fractionText
  split_ifs with hzero
  · rw [hzero, List.nil_append, takeFraction_of_ne hpoint]
  · set ds := (pad 9 ns).rdropWhile fun c => c = '0' with hds
    have hdigits : ∀ d ∈ ds, d.isDigit = true :=
      fun d hd => isDigit_pad d ((List.rdropWhile_prefix _ _).subset hd)
    have hvalue : nanoseconds ds = ns := by
      rw [hds, nanoseconds_rdropWhile (length_pad (by decide) h).le, nanoseconds_pad h]
    have hne : ds ≠ [] := by
      intro hnil
      rw [hnil] at hvalue
      exact hzero hvalue.symm
    have htake : (ds ++ c :: rest).takeWhile Char.isDigit = ds := by
      rw [List.takeWhile_append_of_pos hdigits, List.takeWhile_cons_of_neg (by simp [hdigit]),
        List.append_nil]
    have hdrop : (ds ++ c :: rest).dropWhile Char.isDigit = c :: rest := by
      rw [List.dropWhile_append_of_pos hdigits, List.dropWhile_cons_of_neg (by simp [hdigit])]
    rw [List.cons_append, takeFraction_cons (by rwa [htake]), htake, hdrop, hvalue]

theorem parseZone_signed {sign : Char} (hsign : sign ≠ 'Z') {hour minute : ℕ} (hhour : hour ≤ 23)
    (hminute : minute ≤ 59) :
    parseZone (sign :: pad 2 hour ++ ':' :: pad 2 minute) =
      if sign = '+' then some (hour * 3600 + minute * 60 : ℤ)
      else if sign = '-' then some (-(hour * 3600 + minute * 60 : ℤ))
      else none := by
  rw [List.cons_append, ← List.append_nil (pad 2 minute)]
  unfold parseZone
  split
  · rename_i heq
    exact absurd (List.cons.inj heq).1 hsign
  · rename_i heq
    obtain ⟨rfl, rfl⟩ := List.cons.inj heq
    rw [takeNumber_pad (by decide) (by omega) (Nat.zero_le _) hhour]
    simp only [Option.bind_eq_bind, Option.bind_some, takeChar_cons]
    rw [takeNumber_pad (by decide) (by omega) (Nat.zero_le _) hminute]
    simp only [Option.bind_some, true_and]
  · rename_i heq
    cases heq

theorem parseZone_zoneText {offset : ℤ} (hhour : offset.natAbs < 86400)
    (hminutes : offset % 60 = 0) : parseZone (zoneText offset) = some offset := by
  have hhours : offset.natAbs / 3600 ≤ 23 := by omega
  have hminute : offset.natAbs / 60 % 60 ≤ 59 := by omega
  unfold zoneText
  split_ifs with hzero hneg
  · rw [hzero]
    rfl
  · rw [parseZone_signed (by decide) hhours hminute, if_neg (by decide), if_pos rfl]
    congr 1
    omega
  · rw [parseZone_signed (by decide) hhours hminute, if_pos rfl]
    congr 1
    omega

structure InRange (offset t : ℤ) : Prop where
  year_nonneg : 0 ≤ localSecond offset t
  year_le : localSecond offset t < daysBeforeYear 10000 * 86400
  wholeMinutes : offset % 60 = 0
  hour_lt : offset.natAbs < 86400

theorem parseRFC3339_formatRFC3339 {offset t : ℤ} (h : InRange offset t) :
    ∃ text, formatRFC3339 offset t = some text ∧ parseRFC3339 text = some t := by
  obtain ⟨hnonneg, hlt, hminutes, hhour⟩ := h
  obtain ⟨s, hs⟩ := Int.eq_ofNat_of_zero_le hnonneg
  have hyear : yearOf (s / 86400) ≤ 9999 := by
    have hday : s / 86400 < daysBeforeYear 10000 := by omega
    have := yearOf_lt hday
    omega
  have hns : (t % 10 ^ 9).toNat < 10 ^ 9 := by omega
  unfold formatRFC3339
  rw [hs]
  dsimp only
  rw [if_pos ⟨Int.natCast_nonneg s, hyear, by omega⟩]
  refine ⟨_, rfl, ?_⟩
  unfold parseRFC3339
  simp only [List.append_assoc, List.cons_append]
  rw [Int.toNat_natCast, parseDate_dateText hyear]
  simp only [Option.bind_eq_bind, Option.bind_some, takeChar_cons]
  rw [parseClock_clockText]
  simp only [Option.bind_some, takeFraction_fractionText hns]
  rw [parseZone_zoneText hhour hminutes]
  simp only [Option.bind_some]
  show some _ = some t
  unfold localSecond at hs
  congr 1
  omega

end Collections.Calendar
