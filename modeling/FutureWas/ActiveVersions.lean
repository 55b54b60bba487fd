import FutureWas.Effect.Reordering
import FutureWas.Model.Design
import Mathlib.Data.List.Basic

/-!
# Which catalog a client version is served

`loadActive` retains the first `maxActiveVersions` distinct server versions of its rows and
walks them from the newest to the oldest, so a client version attached to two of them is
written twice. The lookup after a reload is therefore that of the last retained version that
loads; it is the newest one exactly when there is no second.
-/

set_option autoImplicit false

namespace FutureWas.ActiveVersions

open Effect

/-! ## The grouping loop -/

theorem clientVersions_addRow (g : Grouping) (v : Version) (sv : String) :
    (g.addRow v).clientVersions sv =
      if sv = v.serverVersion then g.clientVersions sv ++ [v.clientVersion]
      else g.clientVersions sv := by
  by_cases hsv : sv = v.serverVersion
  · subst hsv
    by_cases hseen : v.serverVersion ∈ g.seen <;>
      simp [Grouping.addRow, Grouping.clientVersions, hseen]
  · by_cases hseen : v.serverVersion ∈ g.seen <;>
      simp [Grouping.addRow, Grouping.clientVersions, hseen, hsv, AList.lookup_insert_ne hsv]

theorem orderedSV_addRow (g : Grouping) (v : Version) :
    (g.addRow v).orderedSV =
      if v.serverVersion ∈ g.seen then g.orderedSV else g.orderedSV ++ [v.serverVersion] := by
  by_cases hseen : v.serverVersion ∈ g.seen <;> simp [Grouping.addRow, hseen]

theorem mem_seen_addRow (g : Grouping) (v : Version) (sv : String) :
    sv ∈ (g.addRow v).seen ↔ sv = v.serverVersion ∨ sv ∈ g.seen := by
  by_cases hseen : v.serverVersion ∈ g.seen
  · simp only [Grouping.addRow, hseen, if_true]
    constructor
    · exact Or.inr
    · rintro (rfl | h)
      · exact hseen
      · exact h
  · simp [Grouping.addRow, hseen]

theorem ofRows_concat (rows : List Version) (v : Version) :
    Grouping.ofRows (rows ++ [v]) = (Grouping.ofRows rows).addRow v := by
  simp [Grouping.ofRows]

theorem mem_seen_ofRows (rows : List Version) (sv : String) :
    sv ∈ (Grouping.ofRows rows).seen ↔ sv ∈ rows.map Version.serverVersion := by
  induction rows using List.reverseRecOn with
  | nil => simp [Grouping.ofRows, Grouping.empty]
  | append_singleton rows v ih =>
    rw [ofRows_concat, mem_seen_addRow, ih]
    simp only [List.map_append, List.map_cons, List.map_nil, List.mem_append, List.mem_singleton]
    tauto

def serverVersions (rows : List Version) : List String :=
  (rows.map Version.serverVersion).eraseDups

theorem serverVersions_concat (rows : List Version) (v : Version) :
    serverVersions (rows ++ [v]) =
      if v.serverVersion ∈ rows.map Version.serverVersion then serverVersions rows
      else serverVersions rows ++ [v.serverVersion] := by
  unfold serverVersions
  rw [List.map_append, List.map_singleton]
  exact eraseDups_concat _ _

theorem serverVersions_nodup (rows : List Version) : (serverVersions rows).Nodup :=
  nodup_eraseDups _

theorem orderedSV_ofRows (rows : List Version) :
    (Grouping.ofRows rows).orderedSV = serverVersions rows := by
  induction rows using List.reverseRecOn with
  | nil => rfl
  | append_singleton rows v ih =>
    rw [ofRows_concat, orderedSV_addRow, ih, serverVersions_concat]
    simp only [mem_seen_ofRows]

theorem clientVersions_ofRows (rows : List Version) (sv : String) :
    (Grouping.ofRows rows).clientVersions sv =
      (rows.filter fun v => v.serverVersion = sv).map Version.clientVersion := by
  induction rows using List.reverseRecOn with
  | nil => rfl
  | append_singleton rows v ih =>
    rw [ofRows_concat, clientVersions_addRow, ih]
    by_cases hsv : sv = v.serverVersion
    · simp [hsv]
    · simp [hsv, Ne.symm hsv]

/-! ## The loading loop -/

theorem assign_lookup (catalog : Catalog) (cvs : List String) (m : ClientMap) (cv : String) :
    (assign catalog cvs m).lookup cv = if cv ∈ cvs then some catalog else m.lookup cv := by
  induction cvs generalizing m with
  | nil => simp [assign]
  | cons x cvs ih =>
    have hstep : assign catalog (x :: cvs) m = assign catalog cvs (m.insert x catalog) := rfl
    rw [hstep, ih]
    by_cases hx : cv = x
    · subst hx; simp
    · simp [hx, AList.lookup_insert_ne hx]

def loaded (load : String → Except Failure Catalog) (sv : String) : Bool := (load sv).toBool

def serving (load : String → Except Failure Catalog) (g : Grouping) (svs : List String)
    (cv : String) : List String :=
  svs.filter fun sv => loaded load sv && decide (cv ∈ g.clientVersions sv)

theorem loadVersions_lookup {load : String → Except Failure Catalog} {g : Grouping} {i : ℕ}
    {svs : List String} {m m' : ClientMap} (h : loadVersions load g i svs m = .ok m')
    (cv : String) :
    m'.lookup cv = match (serving load g svs cv).getLast? with
      | some sv => (load sv).toOption
      | none => m.lookup cv := by
  induction svs generalizing i m with
  | nil =>
    cases h
    rfl
  | cons sv svs ih =>
    simp only [loadVersions] at h
    split at h
    · cases h
    · rename_i err hload
      split at h
      · cases h
      · have hskip : serving load g (sv :: svs) cv = serving load g svs cv := by
          simp [serving, loaded, hload, Except.toBool]
        rw [hskip, ih h]
    · rename_i catalog hload
      rw [ih h, assign_lookup]
      by_cases hcv : cv ∈ g.clientVersions sv
      · have htake : serving load g (sv :: svs) cv = sv :: serving load g svs cv := by
          simp [serving, loaded, hload, Except.toBool, hcv]
        rw [htake, List.getLast?_cons]
        cases (serving load g svs cv).getLast? with
        | none => simp [hcv, hload, Except.toOption]
        | some last => rfl
      · have hskip : serving load g (sv :: svs) cv = serving load g svs cv := by
          simp [serving, hcv]
        rw [hskip]
        simp [hcv]

theorem bind_ok {α β : Type} {x : Except Failure α} {f : α → Except Failure β} {b : β}
    (h : x >>= f = .ok b) : ∃ a, x = .ok a ∧ f a = .ok b := by
  cases x with
  | error e => cases h
  | ok a => exact ⟨a, rfl, h⟩

theorem wrapError_ok {α : Type} {context : String} {x : Except Failure α} {a : α}
    (h : wrapError context x = .ok a) : x = .ok a := by
  cases x with
  | error e => cases e <;> cases h
  | ok b => exact h

theorem loadActive_ok {load : String → Except Failure Catalog} {rows : List Version}
    {s s' : DesignStore} (h : loadActive load (.ok rows) s = .ok s') :
    loadVersions load (Grouping.ofRows rows) 0 (Grouping.ofRows rows).retained ∅ =
      .ok s'.catalogs := by
  obtain ⟨rows', hrows, h⟩ := bind_ok h
  cases wrapError_ok hrows
  by_cases hempty : (Grouping.ofRows rows).orderedSV = []
  · simp only [hempty, if_true] at h
    cases h
  · simp only [hempty, if_false] at h
    obtain ⟨m, hm, h⟩ := bind_ok h
    cases h
    exact hm

/-! ## Catalogs know their version -/

theorem fill_version {V : Type} {set : Catalog → V → Catalog}
    (hset : ∀ c v, (set c v).version = c.version) {c c' : Catalog} {vs : List (Option V)}
    (h : fill set c vs = .ok c') : c'.version = c.version := by
  induction vs generalizing c with
  | nil => cases h; rfl
  | cons v vs ih =>
    cases v with
    | none => cases h
    | some v => rw [ih h, hset]

theorem unmarshalInto_version {cdn : Cdn} {c c' : Catalog} {name : String} {data : Bytes}
    (h : unmarshalInto cdn c name data = .ok c') : c'.version = c.version := by
  unfold unmarshalInto at h
  split at h
  · obtain ⟨vs, -, hfill⟩ := bind_ok h
    refine fill_version (fun c v => ?_) hfill
    unfold setBatData
    split <;> rfl
  · obtain ⟨vs, -, hfill⟩ := bind_ok h
    exact @fill_version _ setCurrency (fun c v => rfl) _ _ _ hfill
  · obtain ⟨vs, -, hfill⟩ := bind_ok h
    exact @fill_version _ setItem (fun c v => rfl) _ _ _ hfill
  · obtain ⟨vs, -, hfill⟩ := bind_ok h
    exact @fill_version _ setShop (fun c v => rfl) _ _ _ hfill
  · cases h; rfl

theorem loadFiles_version {cdn : Cdn} {version : String} {fs : List ManifestFile}
    {c c' : Catalog} (h : loadFiles cdn version fs c = .ok c') : c'.version = c.version := by
  induction fs generalizing c with
  | nil => cases h; rfl
  | cons f fs ih =>
    obtain ⟨data, -, h⟩ := bind_ok h
    obtain ⟨c₁, hc₁, h⟩ := bind_ok h
    rw [ih h, unmarshalInto_version (wrapError_ok hc₁)]

theorem load_version {cdn : Cdn} {version : String} {c : Catalog}
    (h : load cdn version = .ok c) : c.version = version := by
  obtain ⟨manifest, -, h⟩ := bind_ok h
  exact loadFiles_version h

/-! ## The newest catalog -/

/-- The retained server versions of `rows` that load and to which `cv` is attached, newest
first. -/
def retainedFor (cdn : Cdn) (rows : List Version) (cv : String) : List String :=
  ((serverVersions rows).take maxActiveVersions).filter fun sv =>
    loaded (load cdn) sv && rows.any fun v => v.serverVersion = sv && v.clientVersion = cv

/-- Every client version with a loaded retained server version is mapped to the catalog of
the newest of these. -/
def ServesNewest (cdn : Cdn) (rows : List Version) (s : DesignStore) : Prop :=
  ∀ cv sv, (retainedFor cdn rows cv).head? = some sv →
    s.getByClientVersion cv = (load cdn sv).toOption

theorem retainedFor_eq_serving (cdn : Cdn) (rows : List Version) (cv : String) :
    retainedFor cdn rows cv =
      serving (load cdn) (Grouping.ofRows rows) (Grouping.ofRows rows).retained cv := by
  unfold retainedFor serving Grouping.retained
  rw [orderedSV_ofRows]
  refine List.filter_congr fun sv _ => ?_
  congr 1
  rw [clientVersions_ofRows, Bool.eq_iff_iff]
  simp only [List.any_eq_true, Bool.and_eq_true, decide_eq_true_eq, List.mem_map,
    List.mem_filter]
  constructor
  · rintro ⟨v, hv, hsv, hcv⟩
    exact ⟨v, ⟨hv, hsv⟩, hcv⟩
  · rintro ⟨v, ⟨hv, hsv⟩, hcv⟩
    exact ⟨v, hv, hsv, hcv⟩

theorem lookup_last {cdn : Cdn} {rows : List Version} {s s' : DesignStore}
    (h : loadActive (load cdn) (.ok rows) s = .ok s') {cv sv : String}
    (hsv : (retainedFor cdn rows cv).getLast? = some sv) :
    s'.getByClientVersion cv = (load cdn sv).toOption := by
  have hl := loadVersions_lookup (loadActive_ok h) cv
  rw [← retainedFor_eq_serving, hsv] at hl
  exact hl

theorem load_of_mem_retainedFor {cdn : Cdn} {rows : List Version} {cv sv : String}
    (h : sv ∈ retainedFor cdn rows cv) :
    ∃ c, load cdn sv = .ok c ∧ c.version = sv := by
  have hl : loaded (load cdn) sv = true := by
    simp only [retainedFor, List.mem_filter, Bool.and_eq_true] at h
    exact h.2.1
  cases hc : load cdn sv with
  | error e => simp [loaded, hc, Except.toBool] at hl
  | ok c => exact ⟨c, rfl, load_version hc⟩

theorem retainedFor_nodup (cdn : Cdn) (rows : List Version) (cv : String) :
    (retainedFor cdn rows cv).Nodup := by
  refine List.Nodup.filter _ (List.Nodup.sublist (List.take_sublist _ _) ?_)
  exact serverVersions_nodup rows

/-- After a reload the store serves every client version its newest catalog exactly when no
client version is attached to two retained server versions that load. -/
theorem servesNewest_iff (cdn : Cdn) (rows : List Version) (s s' : DesignStore)
    (h : loadActive (load cdn) (.ok rows) s = .ok s') :
    ServesNewest cdn rows s' ↔
      ∀ cv sv sv', sv ∈ retainedFor cdn rows cv → sv' ∈ retainedFor cdn rows cv → sv = sv' := by
  constructor
  · intro hnew cv
    -- A second attached version would be the last one, and catalogs carry their version.
    have hsame : ∀ x l y, retainedFor cdn rows cv = x :: l → (x :: l).getLast? = some y →
        x = y := by
      intro x l y hl hy
      have hx : s'.getByClientVersion cv = (load cdn x).toOption := hnew cv x (by simp [hl])
      have hlast : s'.getByClientVersion cv = (load cdn y).toOption :=
        lookup_last h (by rw [hl]; exact hy)
      have hxmem : x ∈ retainedFor cdn rows cv := by simp [hl]
      have hymem : y ∈ retainedFor cdn rows cv := hl ▸ List.mem_of_getLast? hy
      obtain ⟨cx, hcx, hvx⟩ := load_of_mem_retainedFor hxmem
      obtain ⟨cy, hcy, hvy⟩ := load_of_mem_retainedFor hymem
      rw [hx, hcx, hcy] at hlast
      have hc : cx = cy := by simpa [Except.toOption] using hlast
      rw [← hvx, ← hvy, hc]
    have hnodup := retainedFor_nodup cdn rows cv
    match hl : retainedFor cdn rows cv with
    | [] => simp
    | [x] => simp
    | x :: y :: l =>
      rw [hl] at hnodup
      have hx := hsame x (y :: l) ((y :: l).getLast (by simp)) hl
        (by rw [List.getLast?_cons_cons, List.getLast?_eq_some_getLast])
      exact absurd (hx ▸ List.getLast_mem (by simp)) (List.nodup_cons.mp hnodup).1
  · intro hone cv sv hsv
    have hmem : sv ∈ retainedFor cdn rows cv := List.mem_of_mem_head? hsv
    cases hlast : (retainedFor cdn rows cv).getLast? with
    | none => simp [List.getLast?_eq_none_iff.mp hlast] at hsv
    | some y =>
      rw [hone cv sv y hmem (List.mem_of_getLast? hlast)]
      exact lookup_last h hlast

/-! A CDN whose versions all load, with a manifest that lists no file. -/

def emptyCdn : Cdn where
  baseURL := "https://cdn"
  httpGet _ := .ok []
  decodeManifest _ := .ok ⟨"", []⟩
  decodeBatData _ := .ok []
  decodeCurrency _ := .ok []
  decodeItem _ := .ok []
  decodeShop _ := .ok []
  sha256Hex _ := ""

def oneVersion : List Version := [⟨1, "2.01.01", "2.01.01.00", "app", 1⟩]

def releaseCdn : Cdn where
  baseURL := "https://cdn"
  httpGet url := .ok [if "https://cdn/2.01.03.00/".toList.isPrefixOf url.toList then 3 else 2]
  decodeManifest _ := .ok ⟨"", [⟨"BAT_DATA.json", "sha256:ba7"⟩, ⟨"ITEM_LIST.json", ""⟩,
    ⟨"CARD_LIST.json", ""⟩]⟩
  decodeBatData _ := .ok [some ⟨1, 100, true⟩, some ⟨2, 101, false⟩]
  decodeCurrency _ := .ok []
  decodeItem data := .ok ([some ⟨1, 7, "ticket", 1⟩, some ⟨2, 8, "coin", 2⟩] ++
    if data = [3] then [some ⟨3, 9, "badge", 1⟩] else [])
  decodeShop _ := .ok []
  sha256Hex _ := "ba7"

def threeVersions : List Version :=
  [⟨4, "2.01.03", "2.01.03.00", "app", 1⟩, ⟨3, "2.01.02", "2.01.02.00", "app.google", 1⟩,
    ⟨2, "2.01.02", "2.01.02.00", "app.apple", 1⟩, ⟨1, "2.01.01", "2.01.01.00", "app", 1⟩]

theorem exists_of_isOk {α : Type} {r : Except Failure α} (h : r.isOk = true) : ∃ a, r = .ok a := by
  cases r with
  | error failure => cases h
  | ok a => exact ⟨a, rfl⟩

theorem servesNewest_iff_threeVersions :
    ∃ s, loadActive (load releaseCdn) (.ok threeVersions) ⟨∅⟩ = .ok s ∧
      ServesNewest releaseCdn threeVersions s := by
  have hone : ∀ v ∈ threeVersions, ∀ v' ∈ threeVersions, v.clientVersion = v'.clientVersion →
      v.serverVersion = v'.serverVersion := by decide
  have hok : (loadActive (load releaseCdn) (.ok threeVersions) ⟨∅⟩).isOk = true := by
    decide +kernel
  obtain ⟨s, hs⟩ := exists_of_isOk hok
  refine ⟨s, hs, (servesNewest_iff releaseCdn threeVersions ⟨∅⟩ s hs).mpr ?_⟩
  intro cv sv sv' hsv hsv'
  simp only [retainedFor, List.mem_filter, Bool.and_eq_true, List.any_eq_true,
    decide_eq_true_eq] at hsv hsv'
  obtain ⟨-, -, v, hv, rfl, hcv⟩ := hsv
  obtain ⟨-, -, v', hv', rfl, hcv'⟩ := hsv'
  exact hone v hv v' hv' (hcv.trans hcv'.symm)

def twoApps : List Version :=
  [⟨2, "2.01.02", "2.01.02.00", "app.google", 1⟩, ⟨1, "2.01.02", "2.01.01.00", "app.apple", 1⟩]

theorem not_forall_servesNewest :
    ¬ ∀ (cdn : Cdn) (rows : List Version) (s s' : DesignStore),
      (rows.Pairwise fun a b => b.serverVersion ≤ a.serverVersion) →
      loadActive (load cdn) (.ok rows) s = .ok s' → ServesNewest cdn rows s' := by
  intro h
  have hserve := h emptyCdn twoApps ⟨∅⟩
    ⟨AList.singleton "2.01.02" (newCatalog "2.01.01.00")⟩ (by decide) (by rfl)
  have hlookup := hserve "2.01.02" "2.01.02.00" (by rfl)
  have hversion := congrArg (Option.map Catalog.version) hlookup
  exact absurd hversion (by decide)

end FutureWas.ActiveVersions
