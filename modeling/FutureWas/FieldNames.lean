import FutureWas.Collections.Calendar
import FutureWas.Collections.Text
import FutureWas.GeneratedStructs

/-!
# Names of generated fields

`excel2struct` drops the separators of a column's name and capitalises its words. The result is
an exported name of Go if it keeps to letters and digits and starts with something that has a
capital. Two columns get one field name when their words run together into one text; for names
of ASCII letters and digits, when they are alike.
-/

set_option autoImplicit false

namespace FutureWas

open Collections Excel2struct

/-- What the tools and Go agree on about characters. -/
structure Conventions (py : Python) (uni : Unicode) : Prop where
  capitalize_cons : ∀ c cs, ∃ d ds,
    py.capitalize (c :: cs) = d :: ds ∧ py.isDigit d = py.isDigit c
  capitalize_ascii : ∀ c cs, (∀ d ∈ c :: cs, d.isAlphanum = true) →
    py.capitalize (c :: cs) = c.toUpper :: cs.map Char.toLower
  capitalize_keeps : ∀ w, ∀ c ∈ w, c.toNat < 128 → c.isAlphanum = false → c ∈ py.capitalize w
  letter_ascii : ∀ c, c.toNat < 128 → uni.isLetter c = c.isAlpha
  digit_ascii : ∀ c, c.toNat < 128 → uni.isDigit c = c.isDigit
  upper_ascii : ∀ c, c.toNat < 128 → uni.isUpper c = c.isUpper
  letter_of_upper : ∀ c, uni.isUpper c = true → uni.isLetter c = true
  not_space : ∀ c, isSpace c = true → uni.isLetter c = false ∧ uni.isDigit c = false
  fold_space : ∀ s c, isSpace c = true → (c ∈ uni.foldName s ↔ c ∈ s)

/-! ## Words -/

/-- The parts that `re.split` leaves. -/
def words (name : Text) : List Text := (name.splitOnP isSeparator).filter fun p => p ≠ []

/-- The words, with a word of its own for the letter put in front of a digit. -/
def spelled (py : Python) (name : Text) : List Text :=
  match words name with
  | (c :: cs) :: ws => if py.isDigit c then ['F'] :: (c :: cs) :: ws else (c :: cs) :: ws
  | ws => ws

theorem ne_nil_of_mem_words {name w : Text} (h : w ∈ words name) : w ≠ [] := by
  simpa using List.of_mem_filter h

theorem flatten_splitOnP {α : Type} (p : α → Bool) (xs : List α) :
    (xs.splitOnP p).flatten = xs.filter fun x => !p x := by
  induction xs with
  | nil => rfl
  | cons x xs ih =>
    rw [List.splitOnP_cons_eq_if_modifyHead]
    split_ifs with hx
    · rw [List.flatten_cons, List.nil_append, ih, List.filter_cons_of_neg (by simp [hx])]
    · rw [List.filter_cons_of_pos (by simp [hx]), ← ih]
      cases hsplit : xs.splitOnP p with
      | nil => exact absurd hsplit (List.splitOnP_ne_nil p xs)
      | cons part parts => rfl

theorem flatten_words (name : Text) :
    (words name).flatten = name.filter fun c => !isSeparator c := by
  have hdrop : (words name).flatten = (name.splitOnP isSeparator).flatten := by
    unfold words
    exact List.flatten_filter_ne_nil
  rw [hdrop, flatten_splitOnP]

theorem mem_words {name : Text} {c : Char} :
    (∃ w ∈ words name, c ∈ w) ↔ c ∈ name ∧ isSeparator c = false := by
  rw [← List.mem_flatten, flatten_words, List.mem_filter]
  simp

/-! ## Exported names -/

def inName (uni : Unicode) (c : Char) : Bool := c = '_' || uni.isLetter c || uni.isDigit c

/-- A column name that keeps to what Go and `encoding/json` read. -/
structure WellNamed (py : Python) (uni : Unicode) (name : Text) : Prop where
  start : ∃ c cs ws, words name = (c :: cs) :: ws ∧
    (py.isDigit c = true ∨ ∃ d ds, py.capitalize (c :: cs) = d :: ds ∧ uni.isUpper d = true)
  chars : ∀ w ∈ words name, ∀ c ∈ py.capitalize w, inName uni c = true
  spaces : ∀ c ∈ name, isSpace c = true → c = ' '

section

variable (py : Python) (uni : Unicode)

def startsName : List Text → Bool
  | (c :: cs) :: _ => py.isDigit c || (py.capitalize (c :: cs)).head?.any uni.isUpper
  | _ => false

def isWellNamed (name : Text) : Bool :=
  startsName py uni (words name) &&
    ((words name).all fun w => (py.capitalize w).all (inName uni)) &&
    name.all fun c => !isSpace c || c = ' '

theorem startsName_iff (ws : List Text) : startsName py uni ws = true ↔ ∃ c cs ws',
    ws = (c :: cs) :: ws' ∧
      (py.isDigit c = true ∨ ∃ d ds, py.capitalize (c :: cs) = d :: ds ∧ uni.isUpper d = true) := by
  constructor
  · intro h
    unfold startsName at h
    split at h
    · next c cs ws' =>
      refine ⟨c, cs, ws', rfl, (Bool.or_eq_true_iff.mp h).imp_right fun hupper => ?_⟩
      obtain ⟨d, hd, hupper⟩ := (Option.any_eq_true _ _).mp hupper
      obtain ⟨ds, hds⟩ := List.head?_eq_some_iff.mp hd
      exact ⟨d, ds, hds, hupper⟩
    · cases h
  · rintro ⟨c, cs, ws', rfl, hdigit | ⟨d, ds, hcap, hupper⟩⟩
    · simp [startsName, hdigit]
    · simp [startsName, hcap, hupper]

theorem isWellNamed_iff (name : Text) : isWellNamed py uni name = true ↔ WellNamed py uni name := by
  have hspaces : (name.all fun c => !isSpace c || c = ' ') = true ↔
      ∀ c ∈ name, isSpace c = true → c = ' ' := by
    simp only [List.all_eq_true, Bool.or_eq_true, Bool.not_eq_true', decide_eq_true_eq]
    exact forall₂_congr fun c _ => by rw [← Bool.not_eq_true, imp_iff_not_or]
  unfold isWellNamed
  rw [Bool.and_eq_true, Bool.and_eq_true, startsName_iff, hspaces]
  simp only [List.all_eq_true]
  exact ⟨fun h => ⟨h.1.1, h.1.2, h.2⟩, fun h => ⟨⟨h.start, h.chars⟩, h.spaces⟩⟩

instance (name : Text) : Decidable (WellNamed py uni name) :=
  decidable_of_iff _ (isWellNamed_iff py uni name)

end

section

variable {py : Python} {uni : Unicode} (conv : Conventions py uni)
include conv

theorem capitalize_F : py.capitalize ['F'] = ['F'] :=
  conv.capitalize_ascii 'F' [] (List.forall_mem_singleton.mpr rfl)

theorem toGoFieldName_eq (name : Text) :
    toGoFieldName py name = (spelled py name).flatMap py.capitalize := by
  have hpascal : toPascalCase py name = (words name).flatMap py.capitalize := rfl
  unfold toGoFieldName spelled
  rw [hpascal]
  cases hwords : words name with
  | nil => rfl
  | cons w ws =>
    cases w with
    | nil =>
      have hne := ne_nil_of_mem_words (hwords ▸ List.mem_cons_self)
      exact absurd rfl hne
    | cons c cs =>
      obtain ⟨d, ds, hcap, hdigit⟩ := conv.capitalize_cons c cs
      rw [List.flatMap_cons, hcap, List.cons_append]
      dsimp only
      rw [hdigit]
      split_ifs with hc
      · rw [List.flatMap_cons, List.flatMap_cons, capitalize_F conv, hcap]
        rfl
      · rw [List.flatMap_cons, hcap]
        rfl

theorem inName_of_isUpper {c : Char} (h : uni.isUpper c = true) : inName uni c = true := by
  unfold inName
  rw [conv.letter_of_upper c h, Bool.or_true, Bool.true_or]

theorem isExported_iff (name : Text) :
    isExported uni (toGoFieldName py name) = true ↔
      (∃ c cs ws, words name = (c :: cs) :: ws ∧ (py.isDigit c = true ∨
        ∃ d ds, py.capitalize (c :: cs) = d :: ds ∧ uni.isUpper d = true)) ∧
      ∀ w ∈ words name, ∀ c ∈ py.capitalize w, inName uni c = true := by
  have hall : ∀ ws : List Text, (ws.flatMap py.capitalize).all (inName uni) = true ↔
      ∀ w ∈ ws, ∀ c ∈ py.capitalize w, inName uni c = true := by
    intro ws
    simp only [List.all_eq_true, List.mem_flatMap]
    exact ⟨fun h w hw c hc => h c ⟨w, hw, hc⟩, fun h c ⟨w, hw, hc⟩ => h w hw c hc⟩
  rw [toGoFieldName_eq conv]
  unfold spelled
  cases hwords : words name with
  | nil => simp [isExported]
  | cons w ws =>
    cases w with
    | nil => exact absurd rfl (ne_nil_of_mem_words (hwords ▸ List.mem_cons_self))
    | cons c cs =>
      obtain ⟨d, ds, hcap, -⟩ := conv.capitalize_cons c cs
      have hstart : (∃ c' cs' ws', (c :: cs) :: ws = (c' :: cs') :: ws' ∧
          (py.isDigit c' = true ∨
            ∃ d ds, py.capitalize (c' :: cs') = d :: ds ∧ uni.isUpper d = true)) ↔
          py.isDigit c = true ∨ uni.isUpper d = true := by
        constructor
        · rintro ⟨c', cs', ws', heq, hc | ⟨d', ds', hcap', hd⟩⟩
          · cases heq
            exact Or.inl hc
          · cases heq
            rw [hcap] at hcap'
            cases hcap'
            exact Or.inr hd
        · rintro (hc | hd)
          · exact ⟨c, cs, ws, rfl, Or.inl hc⟩
          · exact ⟨c, cs, ws, rfl, Or.inr ⟨d, ds, hcap, hd⟩⟩
      rw [hstart, ← hall]
      dsimp only
      split_ifs with hc
      · have hupper : uni.isUpper 'F' = true := conv.upper_ascii 'F' (by decide)
        rw [List.flatMap_cons, capitalize_F conv, List.singleton_append]
        show (uni.isUpper 'F' && _) = true ↔ _
        rw [hupper, Bool.true_and, hc]
        exact (and_iff_right (Or.inl rfl)).symm
      · rw [List.flatMap_cons, hcap, List.cons_append]
        show (uni.isUpper d && _) = true ↔ _
        rw [Bool.and_eq_true, or_iff_right hc]
        refine and_congr_right fun hd => ?_
        rw [List.all_cons, inName_of_isUpper conv hd, Bool.true_and]
        rfl

end

/-! ## Clashing names -/

section

variable (py : Python)

def mark : Text → List (Char × Bool)
  | [] => []
  | c :: cs => (c, true) :: cs.map fun c => (c, false)

def marked (name : Text) : List (Char × Bool) := (spelled py name).flatMap mark

/-- One character up to case; a letter starts a word in both names or in neither. -/
def Alike (x y : Char × Bool) : Prop :=
  x.1.toLower = y.1.toLower ∧ (x.2 = y.2 ∨ x.1.isAlpha = false)

instance (x y : Char × Bool) : Decidable (Alike x y) := inferInstanceAs (Decidable (_ ∧ _))

def isPlain (name : Text) : Bool := name.all fun c => isSeparator c || c.isAlphanum

/-- Plain names clash if they are alike; others if their capitalised words run together into
one text. -/
def Clash (a b : Text) : Prop :=
  if isPlain a && isPlain b then List.Forall₂ Alike (marked py a) (marked py b)
  else (spelled py a).flatMap py.capitalize = (spelled py b).flatMap py.capitalize

instance (a b : Text) : Decidable (Clash py a b) :=
  inferInstanceAs (Decidable (if isPlain a && isPlain b then
    List.Forall₂ Alike (marked py a) (marked py b)
    else (spelled py a).flatMap py.capitalize = (spelled py b).flatMap py.capitalize))

end

section

variable {py : Python} {uni : Unicode} (conv : Conventions py uni)

def cased (x : Char × Bool) : Char := if x.2 then x.1.toUpper else x.1.toLower

theorem cased_eq_iff {x y : Char × Bool} : cased x = cased y ↔ Alike x y := by
  obtain ⟨c, m⟩ := x
  obtain ⟨d, n⟩ := y
  unfold Alike cased
  cases m with
  | false =>
    cases n with
    | false => simp
    | true =>
      show c.toLower = d.toUpper ↔ c.toLower = d.toLower ∧ (false = true ∨ c.isAlpha = false)
      rw [eq_comm, toUpper_eq_toLower_iff, eq_comm, or_iff_right Bool.false_ne_true]
      exact and_congr_right fun h => by rw [isAlpha_congr h]
  | true =>
    cases n with
    | false =>
      show c.toUpper = d.toLower ↔ c.toLower = d.toLower ∧ (true = false ∨ c.isAlpha = false)
      rw [toUpper_eq_toLower_iff]
      simp
    | true =>
      show c.toUpper = d.toUpper ↔ c.toLower = d.toLower ∧ (true = true ∨ c.isAlpha = false)
      rw [toUpper_inj_iff]
      simp

theorem isAlphanum_of_mem_spelled {name w : Text} (hplain : isPlain name = true)
    (hw : w ∈ spelled py name) : w ≠ [] ∧ ∀ c ∈ w, c.isAlphanum = true := by
  have hwords : ∀ w ∈ words name, w ≠ [] ∧ ∀ c ∈ w, c.isAlphanum = true := by
    intro w hw
    refine ⟨ne_nil_of_mem_words hw, ?_⟩
    intro c hc
    obtain ⟨hname, hsep⟩ := mem_words.mp ⟨w, hw, hc⟩
    have hchar := List.all_eq_true.mp hplain c hname
    rwa [hsep, Bool.false_or] at hchar
  unfold spelled at hw
  split at hw
  · rename_i c cs ws heq
    rw [← heq] at hw
    split_ifs at hw
    · rcases List.mem_cons.mp hw with rfl | hw
      · exact ⟨List.cons_ne_nil _ _, List.forall_mem_singleton.mpr rfl⟩
      · exact hwords w hw
    · exact hwords w hw
  · exact hwords w hw

include conv

theorem capitalize_eq_map {w : Text} (hne : w ≠ []) (hw : ∀ c ∈ w, c.isAlphanum = true) :
    py.capitalize w = (mark w).map cased := by
  cases w with
  | nil => exact absurd rfl hne
  | cons c cs =>
    rw [conv.capitalize_ascii c cs hw, mark, List.map_cons, List.map_map]
    rfl

theorem flatMap_capitalize_of_plain {name : Text} (h : isPlain name = true) :
    (spelled py name).flatMap py.capitalize = (marked py name).map cased := by
  unfold marked
  rw [List.map_flatMap]
  apply List.flatMap_congr
  intro w hw
  obtain ⟨hne, hall⟩ := isAlphanum_of_mem_spelled h hw
  exact capitalize_eq_map conv hne hall

/-- Two columns get one field name exactly when their names clash. -/
theorem toGoFieldName_eq_iff (a b : Text) :
    toGoFieldName py a = toGoFieldName py b ↔ Clash py a b := by
  rw [toGoFieldName_eq conv, toGoFieldName_eq conv]
  unfold Clash
  split_ifs with hplain
  · rw [Bool.and_eq_true] at hplain
    rw [flatMap_capitalize_of_plain conv hplain.1, flatMap_capitalize_of_plain conv hplain.2,
      ← List.forall₂_eq_eq_eq, List.forall₂_map_left_iff, List.forall₂_map_right_iff]
    have hsame : (fun x y => cased x = cased y) = Alike := by
      funext x y
      exact propext cased_eq_iff
    rw [hsame]
  · exact Iff.rfl

end

/-! ## Names in ASCII -/

theorem not_alphanum_of_isSpace {c : Char} (h : isSpace c = true) :
    c.isAlpha = false ∧ c.isDigit = false := by
  unfold isSpace at h
  simp only [Bool.or_eq_true, Bool.and_eq_true, decide_eq_true_eq, List.contains_iff_mem,
    List.mem_cons, List.not_mem_nil, or_false] at h
  rw [← Bool.not_eq_true, ← Bool.not_eq_true, isAlpha_iff, isDigit_iff]
  omega

def secondsUTC (t : Datetime) : ℤ :=
  let days : ℕ := Calendar.daysBeforeYear t.year +
    Calendar.daysBeforeMonth t.year (t.month - 1) + t.day
  (days - 719529) * 86400 + (t.hour * 3600 + t.minute * 60 + t.second)

def asciiPython : Python :=
  { plainPython with
    capitalize := fun
      | [] => []
      | c :: cs => c.toUpper :: cs.map Char.toLower
    timestamp := fun t =>
      if -2 ^ 63 ≤ secondsUTC t ∧ secondsUTC t ≤ 2 ^ 63 - 1 then some (secondsUTC t) else none
    timestamp_range := by
      intro t s h
      split_ifs at h with hrange
      cases h
      exact hrange }

theorem conventions_ascii : Conventions asciiPython asciiUnicode where
  capitalize_cons c cs := by
    refine ⟨c.toUpper, cs.map Char.toLower, rfl, ?_⟩
    show c.toUpper.isDigit = c.isDigit
    rw [Bool.eq_iff_iff, isDigit_iff, isDigit_iff, toNat_toUpper]
    split_ifs <;> omega
  capitalize_ascii _ _ _ := rfl
  capitalize_keeps w c hc _ hplain := by
    have hother : c.isAlpha = false := by
      unfold Char.isAlphanum at hplain
      exact (Bool.or_eq_false_iff.mp hplain).1
    cases w with
    | nil => cases hc
    | cons d ds =>
      rcases List.mem_cons.mp hc with rfl | hc
      · exact List.mem_cons.mpr (Or.inl (toUpper_eq_self hother).symm)
      · exact List.mem_cons_of_mem _ (List.mem_map.mpr ⟨c, hc, toLower_eq_self hother⟩)
  letter_ascii _ _ := rfl
  digit_ascii _ _ := rfl
  upper_ascii _ _ := rfl
  letter_of_upper c h := by
    show (c.isUpper || c.isLower) = true
    rw [show c.isUpper = true from h, Bool.true_or]
  not_space := fun c h => not_alphanum_of_isSpace h
  fold_space s c h := by
    have hother := (not_alphanum_of_isSpace h).1
    constructor
    · intro hc
      obtain ⟨d, hd, hdc⟩ := List.mem_map.mp hc
      have hsame : d.isAlpha = c.isAlpha := by
        rw [← hdc]
        exact (isAlpha_toUpper d).symm
      rw [hother] at hsame
      rw [← hdc, toUpper_eq_self hsame]
      exact hd
    · exact fun hc => List.mem_map.mpr ⟨c, hc, toUpper_eq_self hother⟩

end FutureWas
