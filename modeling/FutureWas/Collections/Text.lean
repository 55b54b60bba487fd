import Mathlib.Computability.RegularExpressions
import Mathlib.Data.Prod.Lex
import Mathlib.Data.String.Basic
import Mathlib.Tactic.IntervalCases

/-!
# Patterns, numerals and sections

What the usual building blocks of a pattern match (a class of characters, repetitions of it,
a fixed text); decimal numerals: their value, and that numerals of one length are ordered as
texts the way their values are; and lines cut into sections at the lines that carry a mark.
-/

set_option autoImplicit false

namespace Collections

namespace Pattern

variable {α : Type}

def oneOf : List α → RegularExpression α
  | [] => 0
  | c :: cs => .char c + oneOf cs

def text : List α → RegularExpression α
  | [] => 1
  | c :: cs => .char c * text cs

def plus (P : RegularExpression α) : RegularExpression α := P * P.star

theorem mem_char {c : α} {x : List α} : x ∈ (RegularExpression.char c).matches' ↔ x = [c] :=
  Iff.rfl

theorem mem_oneOf {cs x : List α} : x ∈ (oneOf cs).matches' ↔ ∃ c ∈ cs, x = [c] := by
  induction cs with
  | nil => simp [oneOf]
  | cons c cs ih =>
    rw [oneOf, RegularExpression.matches'_add, Language.mem_add, mem_char, ih]
    simp

theorem mem_text {cs x : List α} : x ∈ (text cs).matches' ↔ x = cs := by
  induction cs generalizing x with
  | nil => simp [text]
  | cons c cs ih =>
    rw [text, RegularExpression.matches'_mul, Language.mem_mul]
    constructor
    · rintro ⟨a, ha, b, hb, rfl⟩
      rw [mem_char.mp ha, ih.mp hb]
      rfl
    · rintro rfl
      exact ⟨[c], mem_char.mpr rfl, cs, ih.mpr rfl, rfl⟩

theorem mem_pow {cs x : List α} (n : ℕ) :
    x ∈ (oneOf cs ^ n).matches' ↔ x.length = n ∧ ∀ c ∈ x, c ∈ cs := by
  rw [RegularExpression.matches'_pow]
  induction n generalizing x with
  | zero =>
    rw [pow_zero, Language.mem_one, List.length_eq_zero_iff]
    constructor
    · rintro rfl
      simp
    · exact fun h => h.1
  | succ n ih =>
    rw [pow_succ', Language.mem_mul]
    constructor
    · rintro ⟨a, ha, b, hb, rfl⟩
      obtain ⟨c, hc, rfl⟩ := mem_oneOf.mp ha
      obtain ⟨hlen, hall⟩ := ih.mp hb
      refine ⟨by simp [hlen], ?_⟩
      exact List.forall_mem_cons.mpr ⟨hc, hall⟩
    · rintro ⟨hlen, hall⟩
      cases x with
      | nil => simp at hlen
      | cons c x =>
        obtain ⟨hc, hall⟩ := List.forall_mem_cons.mp hall
        refine ⟨[c], mem_oneOf.mpr ⟨c, hc, rfl⟩, x, ih.mpr ⟨?_, hall⟩, rfl⟩
        simpa using hlen

theorem mem_star {cs x : List α} : x ∈ (oneOf cs).star.matches' ↔ ∀ c ∈ x, c ∈ cs := by
  rw [RegularExpression.matches'_star, Language.mem_kstar]
  constructor
  · rintro ⟨parts, rfl, hparts⟩ c hc
    obtain ⟨part, hpart, hc⟩ := List.mem_flatten.mp hc
    obtain ⟨d, hd, rfl⟩ := mem_oneOf.mp (hparts part hpart)
    rwa [List.mem_singleton.mp hc]
  · intro hall
    refine ⟨x.map fun c => [c], by rw [← List.flatMap_def, List.flatMap_singleton'], ?_⟩
    intro part hpart
    obtain ⟨c, hc, rfl⟩ := List.mem_map.mp hpart
    exact mem_oneOf.mpr ⟨c, hall c hc, rfl⟩

theorem mem_plus {cs x : List α} :
    x ∈ (plus (oneOf cs)).matches' ↔ x ≠ [] ∧ ∀ c ∈ x, c ∈ cs := by
  rw [plus, RegularExpression.matches'_mul, Language.mem_mul]
  constructor
  · rintro ⟨a, ha, b, hb, rfl⟩
    obtain ⟨c, hc, rfl⟩ := mem_oneOf.mp ha
    exact ⟨by simp, List.forall_mem_cons.mpr ⟨hc, mem_star.mp hb⟩⟩
  · rintro ⟨hne, hall⟩
    cases x with
    | nil => exact absurd rfl hne
    | cons c x =>
      obtain ⟨hc, hall⟩ := List.forall_mem_cons.mp hall
      exact ⟨[c], mem_oneOf.mpr ⟨c, hc, rfl⟩, x, mem_star.mpr hall, rfl⟩

theorem mem_mul {P Q : RegularExpression α} {x : List α} :
    x ∈ (P * Q).matches' ↔ ∃ a b, a ∈ P.matches' ∧ b ∈ Q.matches' ∧ x = a ++ b := by
  rw [RegularExpression.matches'_mul, Language.mem_mul]
  constructor
  · rintro ⟨a, ha, b, hb, rfl⟩
    exact ⟨a, b, ha, hb, rfl⟩
  · rintro ⟨a, b, ha, hb, rfl⟩
    exact ⟨a, ha, b, hb, rfl⟩

end Pattern

/-! ## Numerals -/

def digits : List Char := "0123456789".toList

theorem digit_value {d : Char} (h : d.isDigit = true) : 48 ≤ d.toNat ∧ d.toNat ≤ 57 := by
  simpa [Char.isDigit, UInt32.le_iff_toNat_le] using h

theorem mem_digits {c : Char} : c ∈ digits ↔ c.isDigit = true := by
  constructor
  · exact List.all_eq_true.mp (by decide : (digits.all Char.isDigit) = true) c
  · intro h
    obtain ⟨hlow, hhigh⟩ := digit_value h
    rw [← Char.ofNat_toNat c]
    interval_cases c.toNat <;> decide

def decimal (ds : List Char) : ℕ := Nat.ofDigitChars 10 ds 0

theorem decimal_cons (d : Char) (ds : List Char) :
    decimal (d :: ds) = 10 ^ ds.length * (d.toNat - '0'.toNat) + decimal ds := by
  rw [decimal, Nat.ofDigitChars_cons, Nat.ofDigitChars_eq_ofDigitChars_zero, Nat.mul_zero,
    Nat.zero_add]
  rfl

theorem decimal_append (a b : List Char) :
    decimal (a ++ b) = 10 ^ b.length * decimal a + decimal b := by
  rw [decimal, Nat.ofDigitChars_append, Nat.ofDigitChars_eq_ofDigitChars_zero]
  rfl

theorem decimal_lt {ds : List Char} (h : ∀ d ∈ ds, d.isDigit = true) :
    decimal ds < 10 ^ ds.length := by
  induction ds with
  | nil => decide
  | cons d ds ih =>
    obtain ⟨hd, hds⟩ := List.forall_mem_cons.mp h
    have hrest := ih hds
    have hvalue : d.toNat - 48 ≤ 9 := by
      have := digit_value hd
      omega
    rw [decimal_cons, List.length_cons, pow_succ]
    calc 10 ^ ds.length * (d.toNat - 48) + decimal ds
        ≤ 10 ^ ds.length * 9 + decimal ds := by gcongr
      _ < 10 ^ ds.length * 10 := by omega

theorem lt_iff_decimal_lt {a b : List Char} (ha : ∀ d ∈ a, d.isDigit = true)
    (hb : ∀ d ∈ b, d.isDigit = true) (hlen : a.length = b.length) :
    a < b ↔ decimal a < decimal b := by
  induction a generalizing b with
  | nil =>
    rw [List.length_nil, eq_comm, List.length_eq_zero_iff] at hlen
    rw [hlen]
    simp
  | cons d a ih =>
    cases b with
    | nil => simp at hlen
    | cons e b =>
      obtain ⟨hd, ha⟩ := List.forall_mem_cons.mp ha
      obtain ⟨he, hb⟩ := List.forall_mem_cons.mp hb
      rw [List.length_cons, List.length_cons, Nat.add_right_cancel_iff] at hlen
      have hboundd := digit_value hd
      have hbounde := digit_value he
      have hlta := decimal_lt ha
      have hltb := decimal_lt hb
      rw [List.cons_lt_cons_iff, ih ha hb hlen, decimal_cons, decimal_cons, hlen]
      rw [hlen] at hlta
      have hchar : d < e ↔ d.toNat < e.toNat := Iff.rfl
      have hval : '0'.toNat = 48 := rfl
      rw [hval]
      rcases lt_trichotomy d.toNat e.toNat with hlt | heq | hgt
      · have hsucc : d.toNat - 48 + 1 ≤ e.toNat - 48 := by omega
        have hstep : 10 ^ b.length * (d.toNat - 48) + 10 ^ b.length ≤
            10 ^ b.length * (e.toNat - 48) := by
          rw [← Nat.mul_succ]
          exact Nat.mul_le_mul_left _ hsucc
        exact ⟨fun _ => by omega, fun _ => Or.inl (hchar.mpr hlt)⟩
      · have hsame : d = e := Char.toNat_inj.mp heq
        simp [hsame]
      · have hsucc : e.toNat - 48 + 1 ≤ d.toNat - 48 := by omega
        have hstep : 10 ^ b.length * (e.toNat - 48) + 10 ^ b.length ≤
            10 ^ b.length * (d.toNat - 48) := by
          rw [← Nat.mul_succ]
          exact Nat.mul_le_mul_left _ hsucc
        constructor
        · rintro (hlt | ⟨rfl, -⟩)
          · exact absurd (hchar.mp hlt) (by omega)
          · omega
        · intro h
          omega

theorem eq_iff_decimal_eq {a b : List Char} (ha : ∀ d ∈ a, d.isDigit = true)
    (hb : ∀ d ∈ b, d.isDigit = true) (hlen : a.length = b.length) :
    a = b ↔ decimal a = decimal b := by
  constructor
  · exact congrArg decimal
  · intro heq
    rcases lt_trichotomy a b with hlt | rfl | hgt
    · exact absurd ((lt_iff_decimal_lt ha hb hlen).mp hlt) (by omega)
    · rfl
    · exact absurd ((lt_iff_decimal_lt hb ha hlen.symm).mp hgt) (by omega)

theorem append_lt_append_iff {a b s t : List Char} (hlen : a.length = b.length) :
    a ++ s < b ++ t ↔ a < b ∨ a = b ∧ s < t := by
  induction a generalizing b with
  | nil =>
    rw [List.length_nil, eq_comm, List.length_eq_zero_iff] at hlen
    simp [hlen]
  | cons d a ih =>
    cases b with
    | nil => simp at hlen
    | cons e b =>
      rw [List.length_cons, List.length_cons, Nat.add_right_cancel_iff] at hlen
      rw [List.cons_append, List.cons_append, List.cons_lt_cons_iff, List.cons_lt_cons_iff,
        ih hlen, List.cons.injEq]
      tauto

def pad (width n : ℕ) : List Char :=
  List.replicate (width - (Nat.toDigits 10 n).length) '0' ++ Nat.toDigits 10 n

section

variable {width n : ℕ}

theorem isDigit_pad : ∀ c ∈ pad width n, c.isDigit = true := by
  intro c hc
  rcases List.mem_append.mp hc with hc | hc
  · rw [List.eq_of_mem_replicate hc]
    rfl
  · exact Nat.isDigit_of_mem_toDigits (by decide) (by decide) hc

theorem length_pad (hwidth : 0 < width) (h : n < 10 ^ width) : (pad width n).length = width := by
  have hle : (Nat.toDigits 10 n).length ≤ width :=
    (Nat.length_toDigits_le_iff (by decide) hwidth).mpr h
  rw [pad, List.length_append, List.length_replicate]
  omega

theorem decimal_pad : decimal (pad width n) = n := by
  rw [decimal, pad, Nat.ofDigitChars_append, Nat.ofDigitChars_replicate_zero, Nat.mul_zero,
    Nat.ofDigitChars_ten_toDigits]

end

/-! ## ASCII letters -/

theorem toNat_toLower (c : Char) :
    c.toLower.toNat = if 65 ≤ c.toNat ∧ c.toNat ≤ 90 then c.toNat + 32 else c.toNat := by
  have hrange : (c.val ≥ 'A'.val ∧ c.val ≤ 'Z'.val) ↔ 65 ≤ c.toNat ∧ c.toNat ≤ 90 := Iff.rfl
  unfold Char.toLower
  split_ifs with h hnat hnat
  · show (c.val + 32).toNat = c.val.toNat + 32
    rw [UInt32.toNat_add]
    have : c.val.toNat ≤ 90 := hnat.2
    exact Nat.mod_eq_of_lt (by show c.val.toNat + 32 < 2 ^ 32; omega)
  · exact absurd (hrange.mp h) hnat
  · exact absurd (hrange.mpr hnat) h
  · rfl

theorem toNat_toUpper (c : Char) :
    c.toUpper.toNat = if 97 ≤ c.toNat ∧ c.toNat ≤ 122 then c.toNat - 32 else c.toNat := by
  have hrange : ('a'.val ≤ c.val ∧ c.val ≤ 'z'.val) ↔ 97 ≤ c.toNat ∧ c.toNat ≤ 122 := Iff.rfl
  unfold Char.toUpper
  split_ifs with h hnat hnat
  · show (c.val + ('A'.val - 'a'.val)).toNat = c.val.toNat - 32
    rw [UInt32.toNat_add]
    have : c.val.toNat ≤ 122 := hnat.2
    have : 97 ≤ c.val.toNat := hnat.1
    show (c.val.toNat + 4294967264) % 2 ^ 32 = c.val.toNat - 32
    omega
  · exact absurd (hrange.mp h) hnat
  · exact absurd (hrange.mpr hnat) h
  · rfl

theorem isAlpha_iff (c : Char) : c.isAlpha = true ↔
    65 ≤ c.toNat ∧ c.toNat ≤ 90 ∨ 97 ≤ c.toNat ∧ c.toNat ≤ 122 := by
  show (c.isUpper || c.isLower) = true ↔ _
  rw [Bool.or_eq_true]
  refine or_congr ?_ ?_
  · show decide (c.val ≥ 'A'.val ∧ c.val ≤ 'Z'.val) = true ↔ _
    rw [decide_eq_true_eq]
    exact Iff.rfl
  · show (decide (c.val ≥ 'a'.val) && decide (c.val ≤ 'z'.val)) = true ↔ _
    rw [Bool.and_eq_true, decide_eq_true_eq, decide_eq_true_eq]
    exact Iff.rfl

theorem isDigit_iff (c : Char) : c.isDigit = true ↔ 48 ≤ c.toNat ∧ c.toNat ≤ 57 := by
  simp [Char.isDigit, UInt32.le_iff_toNat_le]

theorem toUpper_eq_self {c : Char} (h : c.isAlpha = false) : c.toUpper = c := by
  rw [← Bool.not_eq_true, isAlpha_iff] at h
  rw [← Char.toNat_inj, toNat_toUpper]
  split_ifs <;> omega

theorem toLower_eq_self {c : Char} (h : c.isAlpha = false) : c.toLower = c := by
  rw [← Bool.not_eq_true, isAlpha_iff] at h
  rw [← Char.toNat_inj, toNat_toLower]
  split_ifs <;> omega

theorem isAlpha_toUpper (c : Char) : c.toUpper.isAlpha = c.isAlpha := by
  rw [Bool.eq_iff_iff, isAlpha_iff, isAlpha_iff, toNat_toUpper]
  split_ifs <;> omega

theorem isAlpha_congr {a b : Char} (h : a.toLower = b.toLower) : a.isAlpha = b.isAlpha := by
  have hnat := congrArg Char.toNat h
  rw [toNat_toLower, toNat_toLower] at hnat
  rw [Bool.eq_iff_iff, isAlpha_iff, isAlpha_iff]
  split_ifs at hnat <;> omega

theorem toUpper_inj_iff {a b : Char} : a.toUpper = b.toUpper ↔ a.toLower = b.toLower := by
  rw [← Char.toNat_inj, ← Char.toNat_inj, toNat_toUpper, toNat_toUpper, toNat_toLower,
    toNat_toLower]
  split_ifs <;> omega

theorem toUpper_eq_toLower_iff {a b : Char} :
    a.toUpper = b.toLower ↔ a.toLower = b.toLower ∧ a.isAlpha = false := by
  rw [← Bool.not_eq_true, isAlpha_iff, ← Char.toNat_inj, ← Char.toNat_inj, toNat_toUpper,
    toNat_toLower, toNat_toLower]
  split_ifs <;> omega

/-! ## Sections -/

section

variable {α δ : Type}

/-- The lines before the first marked line, and the marks with the lines up to the next. -/
def cut (mark : α → Option δ) : List α → List α × List (δ × List α)
  | [] => ([], [])
  | l :: ls =>
    match mark l with
    | some d => ([], (d, (cut mark ls).1) :: (cut mark ls).2)
    | none => (l :: (cut mark ls).1, (cut mark ls).2)

variable {mark : α → Option δ}

theorem cut_cons_some {l : α} {d : δ} (h : mark l = some d) (ls : List α) :
    cut mark (l :: ls) = ([], (d, (cut mark ls).1) :: (cut mark ls).2) := by
  rw [cut, h]

theorem cut_append {xs : List α} (h : ∀ x ∈ xs, mark x = none) (ls : List α) :
    cut mark (xs ++ ls) = (xs ++ (cut mark ls).1, (cut mark ls).2) := by
  induction xs with
  | nil => rfl
  | cons x xs ih =>
    obtain ⟨hx, hxs⟩ := List.forall_mem_cons.mp h
    rw [List.cons_append, cut, hx, ih hxs]
    rfl

theorem cut_unmarked {xs : List α} (h : ∀ x ∈ xs, mark x = none) : cut mark xs = (xs, []) := by
  have happend := cut_append h []
  rwa [List.append_nil, cut, List.append_nil] at happend

theorem length_cut (ls : List α) :
    (cut mark ls).2.length = ls.countP fun l => (mark l).isSome := by
  induction ls with
  | nil => rfl
  | cons l ls ih =>
    cases hl : mark l with
    | some d => rw [cut_cons_some hl, List.length_cons, ih, List.countP_cons_of_pos (by simp [hl])]
    | none =>
      rw [cut, hl, List.countP_cons_of_neg (by simp [hl])]
      exact ih

end

end Collections
