import FutureWas.ActiveVersions
import FutureWas.Model.Syncer
import Mathlib.Data.String.Basic

/-!
# Which server versions are retained

`loadActive` keeps the first `maxActiveVersions` distinct server versions of rows that the
database has sorted as strings. They are the newest ones exactly when no version is newer than
a retained one and yet a smaller string.
-/

set_option autoImplicit false

namespace FutureWas.RetainedVersions

open ActiveVersions

/-! ## Numeric versions -/

def component (digits : List Char) : Option ℕ :=
  if digits = [] ∨ ¬ digits.all Char.isDigit then none
  else some (digits.foldl (fun n c => n * 10 + (c.toNat - '0'.toNat)) 0)

def stripV : List Char → List Char
  | 'v' :: cs => cs
  | cs => cs

/-- The components of a dot-separated numeric version, which may start with `v`. -/
def numericVersion (sv : String) : Option (List ℕ) :=
  ((stripV sv.toList).splitOn '.').mapM component

def Older (a b : String) : Prop :=
  match numericVersion a, numericVersion b with
  | some x, some y => x < y
  | _, _ => False

instance (a b : String) : Decidable (Older a b) := by
  unfold Older
  split <;> infer_instance

example : Older "2.9.0" "v2.10.0" := by decide

theorem not_older_self (a : String) : ¬ Older a a := by
  unfold Older
  cases numericVersion a with
  | none => exact id
  | some x => exact lt_irrefl x

/-! ## The retained versions -/

def retained (rows : List Version) : List String := (Grouping.ofRows rows).retained

/-- A version whose failure to load makes `LoadActive` fail. -/
def Fatal (rows : List Version) (sv : String) : Prop :=
  sv ∈ retained rows ∧ ∀ (load : String → Except Failure Catalog) (s : DesignStore)
    (err : GoError), load sv = .error (.error err) → ∃ e, loadActive load (.ok rows) s = .error e

structure RetainsNewest (rows : List Version) : Prop where
  count : (retained rows).Nodup ∧
    (retained rows).length = min maxActiveVersions (serverVersions rows).length
  newest : ∀ a ∈ retained rows, ∀ b ∈ serverVersions rows, b ∉ retained rows → ¬ Older a b
  fatal : ∀ a, Fatal rows a → ∀ b ∈ serverVersions rows, ¬ Older a b

def above (rows : List Version) (b : String) : List String :=
  (serverVersions rows).filter fun c => b < c

/-- A version that is smaller as a string than an older one has `maxActiveVersions` versions
between that one and the top. -/
def InversionsBelow (rows : List Version) : Prop :=
  ∀ a ∈ serverVersions rows, ∀ b ∈ serverVersions rows, a < b → Older b a →
    maxActiveVersions ≤ (above rows b).length

/-- The answer of `ORDER BY server_version DESC`. -/
def Descending (rows : List Version) : Prop :=
  rows.Pairwise fun v w => w.serverVersion ≤ v.serverVersion

theorem descending_findActive (table : List Version) :
    Descending (findActiveOrderedByServerVersion table) := by
  have htotal : Std.Total fun v w : Version => w.serverVersion ≤ v.serverVersion :=
    ⟨fun v w => le_total w.serverVersion v.serverVersion⟩
  have htrans : IsTrans Version fun v w => w.serverVersion ≤ v.serverVersion :=
    ⟨fun _ _ _ hvw hwx => le_trans hwx hvw⟩
  exact List.pairwise_insertionSort _ _

theorem retained_eq_take (rows : List Version) :
    retained rows = (serverVersions rows).take maxActiveVersions := by
  unfold retained Grouping.retained
  rw [orderedSV_ofRows]

theorem serverVersions_descending {rows : List Version} (h : Descending rows) :
    (serverVersions rows).Pairwise fun a b => b < a := by
  induction rows using List.reverseRecOn with
  | nil => exact .nil
  | append_singleton rows v ih =>
    obtain ⟨hrows, -, hlast⟩ := List.pairwise_append.mp h
    rw [serverVersions_concat]
    split_ifs with hmem
    · exact ih hrows
    · refine List.pairwise_append.mpr ⟨ih hrows, List.pairwise_singleton _ _, ?_⟩
      intro sv hsv sv' hsv'
      rw [List.mem_singleton.mp hsv']
      have hseen : sv ∈ rows.map Version.serverVersion := List.mem_eraseDups.mp hsv
      obtain ⟨w, hw, rfl⟩ := List.mem_map.mp hseen
      have hne : v.serverVersion ≠ w.serverVersion := fun heq => hmem (heq ▸ hseen)
      exact lt_of_le_of_ne (hlast w hw v List.mem_cons_self) hne

theorem mem_take_iff_above {l : List String} (h : l.Pairwise fun a b => b < a) {b : String}
    (hb : b ∈ l) (n : ℕ) : b ∈ l.take n ↔ (l.filter fun c => b < c).length < n := by
  obtain ⟨before, after, rfl⟩ := List.append_of_mem hb
  obtain ⟨-, hafter, hbefore⟩ := List.pairwise_append.mp h
  obtain ⟨hrest, -⟩ := List.pairwise_cons.mp hafter
  have hnot : b ∉ before := by
    intro hmem
    exact lt_irrefl b (hbefore b hmem b List.mem_cons_self)
  have hfilter : (before ++ b :: after).filter (fun c => b < c) = before := by
    rw [List.filter_append, List.filter_eq_self.mpr, List.filter_eq_nil_iff.mpr,
      List.append_nil]
    · intro c hc habove
      have hlt : b < c := of_decide_eq_true habove
      rcases List.mem_cons.mp hc with rfl | hc
      · exact lt_irrefl c hlt
      · exact lt_asymm hlt (hrest c hc)
    · intro c hc
      exact decide_eq_true (hbefore c hc b List.mem_cons_self)
  rw [hfilter]
  constructor
  · intro hmem
    by_contra hle
    have htake : (before ++ b :: after).take n = before.take n :=
      List.take_append_of_le_length (by omega)
    rw [htake] at hmem
    exact hnot (List.mem_of_mem_take hmem)
  · intro hlt
    rw [List.take_append]
    refine List.mem_append_right _ ?_
    obtain ⟨m, hm⟩ : ∃ m, n - before.length = m + 1 := ⟨n - before.length - 1, by omega⟩
    rw [hm, List.take_succ_cons]
    exact List.mem_cons_self

/-! ## The fatal version -/

def loadFailure : GoError := .external "http 404"

theorem loadVersions_succ {load : String → Except Failure Catalog} {g : Grouping}
    {svs : List String} (hload : ∀ sv ∈ svs, load sv ≠ .error .panic) (i : ℕ) (m : ClientMap) :
    ∃ m', loadVersions load g (i + 1) svs m = .ok m' := by
  induction svs generalizing i m with
  | nil => exact ⟨m, rfl⟩
  | cons sv svs ih =>
    have hrest : ∀ sv' ∈ svs, load sv' ≠ .error .panic :=
      fun sv' hsv' => hload sv' (List.mem_cons_of_mem _ hsv')
    simp only [loadVersions]
    cases hsv : load sv with
    | ok catalog => exact ih hrest _ _
    | error failure =>
      cases failure with
      | panic => exact absurd hsv (hload sv List.mem_cons_self)
      | error err =>
        dsimp only
        rw [if_neg (Nat.succ_ne_zero i)]
        exact ih hrest _ _

theorem loadActive_of_retained {load : String → Except Failure Catalog} {rows : List Version}
    {sv : String} {svs : List String} (h : retained rows = sv :: svs) (s : DesignStore) :
    loadActive load (.ok rows) s =
      (loadVersions load (Grouping.ofRows rows) 0 (sv :: svs) ∅).map fun m => ⟨m⟩ := by
  have hne : (Grouping.ofRows rows).orderedSV ≠ [] := by
    intro hempty
    have hnil : retained rows = [] := by simp [retained, Grouping.retained, hempty]
    rw [h] at hnil
    cases hnil
  unfold loadActive
  simp only [returns, wrapError]
  change (if (Grouping.ofRows rows).orderedSV = [] then _ else _) = _
  rw [if_neg hne]
  change loadVersions load _ 0 (retained rows) ∅ >>= _ = _
  rw [h]
  cases loadVersions load (Grouping.ofRows rows) 0 (sv :: svs) ∅ <;> rfl

theorem fatal_iff_head (rows : List Version) (sv : String) :
    Fatal rows sv ↔ (retained rows).head? = some sv := by
  have hnodup : (retained rows).Nodup := by
    rw [retained_eq_take]
    exact (serverVersions_nodup rows).sublist (List.take_sublist _ _)
  cases hret : retained rows with
  | nil => simp [Fatal, hret]
  | cons first svs =>
    rw [hret] at hnodup
    constructor
    · intro hfatal
      obtain ⟨hmem, hfails⟩ := hfatal
      rw [hret] at hmem
      by_contra hne
      have hfirst : first ≠ sv := fun heq => hne (congrArg some heq)
      -- Only `sv` fails to load, and it is not the first.
      let load : String → Except Failure Catalog := fun v =>
        if v = sv then .error (.error loadFailure) else .ok (newCatalog v)
      obtain ⟨m, hm⟩ :
          ∃ m, loadVersions load (Grouping.ofRows rows) 0 (first :: svs) ∅ = .ok m := by
        have hok : load first = .ok (newCatalog first) := if_neg hfirst
        simp only [loadVersions, hok]
        refine loadVersions_succ (fun v _ => ?_) 0 _
        by_cases hv : v = sv <;> simp [load, hv]
      obtain ⟨e, he⟩ := hfails load ⟨∅⟩ loadFailure (if_pos rfl)
      rw [loadActive_of_retained hret, hm] at he
      cases he
    · intro hhead
      cases hhead
      refine ⟨hret ▸ List.mem_cons_self, ?_⟩
      intro load s err herr
      rw [loadActive_of_retained hret]
      simp only [loadVersions, herr]
      exact ⟨_, rfl⟩

/-! ## The newest versions -/

theorem mem_retained_iff {rows : List Version} (hdesc : Descending rows) {b : String}
    (hb : b ∈ serverVersions rows) :
    b ∈ retained rows ↔ (above rows b).length < maxActiveVersions := by
  rw [retained_eq_take]
  exact mem_take_iff_above (serverVersions_descending hdesc) hb _

theorem above_mono (rows : List Version) {a b : String} (h : a ≤ b) :
    (above rows b).length ≤ (above rows a).length := by
  have hsub : (above rows b).Sublist (above rows a) := by
    refine List.monotone_filter_right _ ?_
    intro c hc
    exact decide_eq_true (lt_of_le_of_lt h (of_decide_eq_true hc))
  exact hsub.length_le

theorem lt_of_head {rows : List Version} (hdesc : Descending rows) {a b : String}
    (ha : (retained rows).head? = some a) (hb : b ∈ serverVersions rows) (hne : b ≠ a) :
    b < a := by
  rw [retained_eq_take, List.head?_take] at ha
  have hsorted := serverVersions_descending hdesc
  cases hsv : serverVersions rows with
  | nil => rw [hsv] at hb; cases hb
  | cons first rest =>
    rw [hsv] at ha hb hsorted
    have hfirst : first = a := by simpa [maxActiveVersions] using ha
    subst hfirst
    rcases List.mem_cons.mp hb with heq | hrest
    · exact absurd heq hne
    · exact (List.pairwise_cons.mp hsorted).1 b hrest

theorem head_of_lt {rows : List Version} (hdesc : Descending rows) {a b : String}
    (ha : a ∈ retained rows) (hb : b ∈ retained rows) (hab : a < b) :
    (retained rows).head? = some b := by
  have hlength : (retained rows).length ≤ 2 := by
    rw [retained_eq_take]
    exact List.length_take_le _ _
  cases hret : retained rows with
  | nil => rw [hret] at hb; cases hb
  | cons first rest =>
    rw [hret] at ha hb hlength
    by_contra hne
    have hbfirst : b ≠ first := fun heq => hne (congrArg some heq.symm)
    have hmem : ∀ c ∈ retained rows, c ∈ serverVersions rows := by
      rw [retained_eq_take]
      exact fun c hc => List.mem_of_mem_take hc
    have hbsv : b ∈ serverVersions rows := hmem b (hret ▸ hb)
    have hblt : b < first := lt_of_head hdesc (by rw [hret]; rfl) hbsv hbfirst
    have hrest : ∀ c ∈ first :: rest, c ≠ first → c ∈ rest :=
      fun c hc hcne => (List.mem_cons.mp hc).resolve_left hcne
    have harest : a ∈ rest := hrest a ha (ne_of_lt (lt_trans hab hblt))
    have hbrest : b ∈ rest := hrest b hb hbfirst
    have hone : rest.length ≤ 1 := by
      rw [List.length_cons] at hlength
      omega
    obtain ⟨c, rfl⟩ := List.length_eq_one_iff.mp
      (le_antisymm hone (List.length_pos_of_mem hbrest))
    rw [List.mem_singleton.mp harest, List.mem_singleton.mp hbrest] at hab
    exact lt_irrefl c hab

/-- The retained versions are the newest ones if and only if every version that is a smaller
string than an older one leaves that one below the `maxActiveVersions` greatest strings. -/
theorem retainsNewest_iff {rows : List Version} (hdesc : Descending rows) :
    RetainsNewest rows ↔ InversionsBelow rows := by
  have hmem : ∀ c ∈ retained rows, c ∈ serverVersions rows := by
    rw [retained_eq_take]
    exact fun c hc => List.mem_of_mem_take hc
  constructor
  · intro h a ha b hb hab holder
    by_contra hlt
    have hbret : b ∈ retained rows := (mem_retained_iff hdesc hb).mpr (by omega)
    by_cases haret : a ∈ retained rows
    · have hfatal : Fatal rows b := (fatal_iff_head rows b).mpr (head_of_lt hdesc haret hbret hab)
      exact h.fatal b hfatal a ha holder
    · exact h.newest b hbret a ha haret holder
  · intro h
    -- A retained version has fewer than `maxActiveVersions` strings above it.
    have hretained : ∀ a ∈ retained rows, ∀ b ∈ serverVersions rows, b < a → ¬ Older a b := by
      intro a ha b hb hba holder
      have hmany := h b hb a (hmem a ha) hba holder
      have hfew := (mem_retained_iff hdesc (hmem a ha)).mp ha
      omega
    refine ⟨⟨?_, ?_⟩, ?_, ?_⟩
    · rw [retained_eq_take]
      exact (serverVersions_nodup rows).sublist (List.take_sublist _ _)
    · rw [retained_eq_take, List.length_take]
    · intro a ha b hb hbret
      refine hretained a ha b hb ?_
      by_contra hnot
      have hle : a ≤ b := not_lt.mp hnot
      have hmono := above_mono rows hle
      have hfew := (mem_retained_iff hdesc (hmem a ha)).mp ha
      exact hbret ((mem_retained_iff hdesc hb).mpr (by omega))
    · intro a hfatal b hb
      have hhead := (fatal_iff_head rows a).mp hfatal
      by_cases heq : b = a
      · rw [heq]
        exact not_older_self a
      · exact hretained a hfatal.1 b hb (lt_of_head hdesc hhead hb heq)

def release (idx : UInt64) (serverVersion : String) : Version :=
  ⟨idx, "2.01.01", serverVersion, "app", 1⟩

def padded : List Version := [release 3 "2.10.00", release 2 "2.09.00", release 1 "2.08.00"]

theorem retainsNewest_iff_padded : RetainsNewest padded ↔ InversionsBelow padded :=
  retainsNewest_iff (by unfold Descending; decide)

def unpadded : List Version := [release 2 "2.9.0", release 1 "2.8.0", release 3 "2.10.0"]

/-- The newest version sorts last and is dropped. -/
theorem not_forall_retainsNewest :
    ¬ ∀ rows : List Version, Descending rows →
      (∀ v ∈ rows, v.isActive = 1 ∧ (numericVersion v.serverVersion).isSome = true) →
      RetainsNewest rows := by
  intro h
  have hretains := h unpadded (by unfold Descending; decide) (by decide)
  have hnewest := hretains.newest "2.8.0" (by decide) "2.10.0" (by decide) (by decide)
  exact hnewest (by decide)

end FutureWas.RetainedVersions
