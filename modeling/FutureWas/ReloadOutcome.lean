import FutureWas.CatalogLoading
import FutureWas.RetainedVersions

/-!
# What a reload publishes

`LoadActive` returns an error and leaves the store alone, or it replaces the store by catalogs
that are complete: `reload_atomic`. A client version is served afterwards if one of its retained
server versions has been loaded by this reload: `served_iff`. What was in memory before does not
count.
-/

set_option autoImplicit false

namespace FutureWas.ReloadOutcome

open ActiveVersions CatalogLoading RetainedVersions

variable {cdn : Cdn} {rows : List Version} {s s' : DesignStore}

def Attached (rows : List Version) (sv cv : String) : Prop :=
  ∃ v ∈ rows, v.serverVersion = sv ∧ v.clientVersion = cv

theorem mem_retainedFor {cv sv : String} : sv ∈ retainedFor cdn rows cv ↔
    sv ∈ retained rows ∧ ActiveVersions.loaded (load cdn) sv = true ∧ Attached rows sv cv := by
  rw [retained_eq_take]
  simp [retainedFor, Attached]

theorem loaded_iff {sv : String} :
    ActiveVersions.loaded (load cdn) sv = true ↔ ∃ c, load cdn sv = .ok c := by
  unfold ActiveVersions.loaded
  cases load cdn sv <;> simp [Except.toBool]

theorem lookup_none (h : loadActive (load cdn) (.ok rows) s = .ok s') {cv : String}
    (hnone : retainedFor cdn rows cv = []) : s'.getByClientVersion cv = none := by
  have hl := loadVersions_lookup (loadActive_ok h) cv
  rw [← retainedFor_eq_serving, hnone] at hl
  exact hl

theorem served_by (h : loadActive (load cdn) (.ok rows) s = .ok s') {cv : String} {c : Catalog}
    (hc : s'.getByClientVersion cv = some c) :
    ∃ sv ∈ retained rows, Attached rows sv cv ∧ load cdn sv = .ok c := by
  cases hlast : (retainedFor cdn rows cv).getLast? with
  | none =>
    rw [lookup_none h (List.getLast?_eq_none_iff.mp hlast)] at hc
    cases hc
  | some sv =>
    obtain ⟨hret, -, hattached⟩ := mem_retainedFor.mp (List.mem_of_getLast? hlast)
    rw [lookup_last h hlast] at hc
    refine ⟨sv, hret, hattached, ?_⟩
    cases hload : load cdn sv with
    | error failure =>
      rw [hload] at hc
      cases hc
    | ok c' =>
      rw [hload] at hc
      cases hc
      rfl

theorem served_iff (h : loadActive (load cdn) (.ok rows) s = .ok s') (cv : String) :
    (∃ c, s'.getByClientVersion cv = some c) ↔
      ∃ sv ∈ retained rows, Attached rows sv cv ∧ ∃ c, load cdn sv = .ok c := by
  constructor
  · rintro ⟨c, hc⟩
    obtain ⟨sv, hret, hattached, hload⟩ := served_by h hc
    exact ⟨sv, hret, hattached, c, hload⟩
  · rintro ⟨sv, hret, hattached, hload⟩
    have hmem := mem_retainedFor.mpr ⟨hret, loaded_iff.mpr hload, hattached⟩
    cases hlast : (retainedFor cdn rows cv).getLast? with
    | none =>
      rw [List.getLast?_eq_none_iff.mp hlast] at hmem
      cases hmem
    | some last =>
      obtain ⟨c, hc, -⟩ := load_of_mem_retainedFor (List.mem_of_getLast? hlast)
      refine ⟨c, ?_⟩
      rw [lookup_last h hlast, hc]
      rfl

/-! ## Complete catalogs -/

/-- A catalog for which every file of the manifest has been fetched, verified if the manifest
gives a checksum, and decoded if it belongs to a domain. -/
def Complete (cdn : Cdn) (c : Catalog) : Prop :=
  ∃ m, fetchManifest cdn c.version = .ok m ∧ ∀ f ∈ m.files, ∃ data,
    cdn.httpGet (cdn.baseURL ++ "/" ++ c.version ++ "/" ++ f.name) = .ok data ∧
      (f.checksum ≠ "" → verifyChecksum cdn data f.checksum = .ok ()) ∧ Decodes cdn f.name data

theorem fetchFile_ok {version name checksum : String} {data : Bytes}
    (h : fetchFile cdn version name checksum = .ok data) :
    cdn.httpGet (cdn.baseURL ++ "/" ++ version ++ "/" ++ name) = .ok data ∧
      (checksum ≠ "" → verifyChecksum cdn data checksum = .ok ()) := by
  unfold fetchFile at h
  cases hget : cdn.httpGet (cdn.baseURL ++ "/" ++ version ++ "/" ++ name) with
  | error err =>
    rw [hget] at h
    cases h
  | ok bytes =>
    rw [hget] at h
    by_cases hsum : checksum = ""
    · simp only [hsum, ne_eq, not_true_eq_false, if_false] at h
      cases h
      exact ⟨rfl, fun hne => absurd hsum hne⟩
    · cases hverify : verifyChecksum cdn bytes checksum with
      | error err =>
        simp only [ne_eq, hsum, not_false_eq_true, if_true] at h
        change (verifyChecksum cdn bytes checksum >>= fun _ => Except.ok bytes) = _ at h
        rw [hverify] at h
        cases h
      | ok u =>
        simp only [ne_eq, hsum, not_false_eq_true, if_true] at h
        change (verifyChecksum cdn bytes checksum >>= fun _ => Except.ok bytes) = _ at h
        rw [hverify] at h
        cases h
        exact ⟨rfl, fun _ => hverify⟩

theorem complete_of_load {sv : String} {c : Catalog} (h : load cdn sv = .ok c) :
    Complete cdn c := by
  obtain ⟨m, hm, hload⟩ := load_ok h
  have hversion : c.version = sv := load_version h
  unfold Complete
  rw [hversion]
  refine ⟨m, hm, fun f hf => ?_⟩
  obtain ⟨data, hfetch, hdecodes⟩ := loadFiles_ok hload f hf
  obtain ⟨hget, hverify⟩ := fetchFile_ok hfetch
  exact ⟨data, hget, hverify, hdecodes⟩

/-! ## Atomicity -/

/-- The query fails, no version is active, or the newest version fails to load. -/
def Fails (cdn : Cdn) (query : Except GoError (List Version)) : Prop :=
  match query with
  | .error _ => True
  | .ok rows => rows = [] ∨
    ∃ sv, (retained rows).head? = some sv ∧ ∃ failure, load cdn sv = .error failure

def storeAfter (s : DesignStore) : Except Failure DesignStore → DesignStore
  | .ok s' => s'
  | .error _ => s

/-- A store filled by one reload, and only with complete catalogs. -/
structure Published (cdn : Cdn) (rows : List Version) (s : DesignStore) : Prop where
  keys : ∀ cv, (∃ c, s.getByClientVersion cv = some c) ↔
    ∃ sv ∈ retained rows, Attached rows sv cv ∧ ∃ c, load cdn sv = .ok c
  shared : ∀ sv ∈ retained rows, ∀ c, load cdn sv = .ok c → ∀ cv, Attached rows sv cv →
    (∀ sv' ∈ retained rows, Attached rows sv' cv → sv' = sv) → s.getByClientVersion cv = some c
  complete : ∀ cv c, s.getByClientVersion cv = some c → Complete cdn c

theorem published (h : loadActive (load cdn) (.ok rows) s = .ok s') : Published cdn rows s' := by
  refine ⟨served_iff h, ?_, ?_⟩
  · intro sv hsv c hload cv hattached honly
    obtain ⟨c', hc'⟩ := (served_iff h cv).mpr ⟨sv, hsv, hattached, c, hload⟩
    obtain ⟨sv', hsv', hattached', hload'⟩ := served_by h hc'
    rw [honly sv' hsv' hattached', hload] at hload'
    cases hload'
    exact hc'
  · intro cv c hc
    obtain ⟨sv, -, -, hload⟩ := served_by h hc
    exact complete_of_load hload

theorem retained_ne_nil (h : rows ≠ []) : ∃ sv svs, retained rows = sv :: svs := by
  obtain ⟨v, rest, rfl⟩ := List.exists_cons_of_ne_nil h
  have hmem : v.serverVersion ∈ serverVersions (v :: rest) :=
    List.mem_eraseDups.mpr (List.mem_cons_self)
  cases hsv : serverVersions (v :: rest) with
  | nil =>
    rw [hsv] at hmem
    cases hmem
  | cons sv svs =>
    rw [retained_eq_take, hsv]
    exact ⟨sv, svs.take 1, rfl⟩

theorem loadActive_of_fails {query : Except GoError (List Version)}
    (hnull : ∀ rows, query = .ok rows → ∀ sv ∈ retained rows, ¬ NullReached cdn sv)
    (h : Fails cdn query) (s : DesignStore) :
    ∃ err, loadActive (load cdn) query s = .error (.error err) := by
  cases query with
  | error err => exact ⟨_, rfl⟩
  | ok rows =>
    rcases h with hempty | ⟨sv, hhead, failure, hload⟩
    · rw [hempty]
      exact ⟨_, rfl⟩
    · obtain ⟨svs, hret⟩ : ∃ svs, retained rows = sv :: svs := by
        cases hret : retained rows with
        | nil =>
          rw [hret] at hhead
          cases hhead
        | cons first svs =>
          rw [hret] at hhead
          cases hhead
          exact ⟨svs, rfl⟩
      rw [loadActive_of_retained hret]
      cases failure with
      | panic =>
        have hmem : sv ∈ retained rows := by
          rw [hret]
          exact List.mem_cons_self
        exact absurd (load_panic_iff.mp hload) (hnull rows rfl sv hmem)
      | error err =>
        simp only [loadVersions, hload]
        exact ⟨_, rfl⟩

theorem loadActive_of_not_fails
    (hnull : ∀ sv ∈ retained rows, ¬ NullReached cdn sv) (h : ¬ Fails cdn (.ok rows))
    (s : DesignStore) : ∃ s', loadActive (load cdn) (.ok rows) s = .ok s' := by
  have hne : rows ≠ [] := fun hempty => h (.inl hempty)
  obtain ⟨sv, svs, hret⟩ := retained_ne_nil hne
  rw [hret] at hnull
  cases hload : load cdn sv with
  | error failure => exact absurd (.inr ⟨sv, by rw [hret]; rfl, failure, hload⟩) h
  | ok c =>
    have hreturns : ∀ sv' ∈ svs, load cdn sv' ≠ .error .panic :=
      fun sv' hsv' hpanic => hnull sv' (List.mem_cons_of_mem _ hsv') (load_panic_iff.mp hpanic)
    obtain ⟨m, hm⟩ := loadVersions_succ (g := Grouping.ofRows rows) hreturns 0
      (assign c ((Grouping.ofRows rows).clientVersions sv) ∅)
    refine ⟨⟨m⟩, ?_⟩
    rw [loadActive_of_retained hret]
    simp only [loadVersions, hload]
    rw [hm]
    rfl

/-- A reload that meets no null element fails as a whole, with the store unchanged, or publishes
what it has loaded. -/
theorem reload_atomic {query : Except GoError (List Version)} (s : DesignStore)
    (hnull : ∀ rows, query = .ok rows → ∀ sv ∈ retained rows, ¬ NullReached cdn sv) :
    (Fails cdn query → (∃ err, loadActive (load cdn) query s = .error (.error err)) ∧
      storeAfter s (loadActive (load cdn) query s) = s) ∧
    (¬ Fails cdn query → ∃ rows s', query = .ok rows ∧
      loadActive (load cdn) query s = .ok s' ∧ Published cdn rows s') := by
  constructor
  · intro h
    obtain ⟨err, herr⟩ := loadActive_of_fails hnull h s
    refine ⟨⟨err, herr⟩, ?_⟩
    rw [herr]
    rfl
  · intro h
    cases query with
    | error err => exact absurd trivial h
    | ok rows =>
      obtain ⟨s', hs'⟩ := loadActive_of_not_fails (hnull rows rfl) h s
      exact ⟨rows, s', rfl, hs', published hs'⟩

def downCdn : Cdn :=
  { releaseCdn with
    httpGet := fun url =>
      if "https://cdn/2.01.03.00/".toList.isPrefixOf url.toList then .error (.external "http 503")
      else .ok [2] }

def firstStore (cdn : Cdn) (rows : List Version) : DesignStore :=
  storeAfter ⟨∅⟩ (loadActive (load cdn) (.ok rows) ⟨∅⟩)

def panics {α : Type} : Except Failure α → Bool
  | .error .panic => true
  | _ => false

theorem not_nullReached {cdn : Cdn} {rows : List Version}
    (h : ∀ sv ∈ retained rows, load cdn sv ≠ .error .panic) :
    ∀ rows', (.ok rows : Except GoError _) = .ok rows' →
      ∀ sv ∈ retained rows', ¬ NullReached cdn sv := by
  intro rows' hrows sv hsv hnull
  cases hrows
  exact h sv hsv (load_panic_iff.mpr hnull)

theorem retained_threeVersions : retained threeVersions = ["2.01.03.00", "2.01.02.00"] := by decide

theorem isOk_load_releaseCdn :
    ∀ sv ∈ ["2.01.03.00", "2.01.02.00", "2.01.01.00"], (load releaseCdn sv).isOk = true := by
  decide +kernel

theorem reload_atomic_threeVersions :
    (∃ s', loadActive (load releaseCdn) (.ok threeVersions) ⟨∅⟩ = .ok s' ∧
      Published releaseCdn threeVersions s') ∧
    storeAfter (firstStore releaseCdn threeVersions)
        (loadActive (load downCdn) (.ok threeVersions) (firstStore releaseCdn threeVersions)) =
      firstStore releaseCdn threeVersions := by
  constructor
  · have hloads : ∀ sv ∈ retained threeVersions, (load releaseCdn sv).isOk = true := by
      rw [retained_threeVersions]
      exact fun sv hsv => isOk_load_releaseCdn sv (List.mem_append_left ["2.01.01.00"] hsv)
    have hnull := @not_nullReached releaseCdn threeVersions fun sv hsv hpanic => by
      have hload := hloads sv hsv
      rw [hpanic] at hload
      cases hload
    have hfails : ¬ Fails releaseCdn (.ok threeVersions) := by
      rintro (h | ⟨sv, hsv, failure, hfailure⟩)
      · cases h
      · have hload := hloads sv (List.mem_of_mem_head? hsv)
        rw [hfailure] at hload
        cases hload
    obtain ⟨rows, s', hrows, hs', hpub⟩ := (reload_atomic ⟨∅⟩ hnull).2 hfails
    cases hrows
    exact ⟨s', hs', hpub⟩
  · have hnull := @not_nullReached downCdn threeVersions (by
      rw [retained_threeVersions]
      have hpanics : ∀ sv ∈ ["2.01.03.00", "2.01.02.00"], panics (load downCdn sv) = false := by
        decide +kernel
      intro sv hsv hpanic
      have hload := hpanics sv hsv
      rw [hpanic] at hload
      cases hload)
    have hfails : Fails downCdn (.ok threeVersions) :=
      Or.inr ⟨"2.01.03.00", by rw [retained_threeVersions]; rfl, _, rfl⟩
    exact ((reload_atomic (firstStore releaseCdn threeVersions) hnull).1 hfails).2

/-! ## Files of no domain -/

def domainFiles : List String :=
  ["BAT_DATA.json", "CURRENCY_LIST.json", "ITEM_LIST.json", "SHOP_LIST.json"]

def EveryFileDecoded (cdn : Cdn) (c : Catalog) : Prop :=
  ∃ m, fetchManifest cdn c.version = .ok m ∧ ∀ f ∈ m.files, f.name ∈ domainFiles ∧ ∃ data,
    cdn.httpGet (cdn.baseURL ++ "/" ++ c.version ++ "/" ++ f.name) = .ok data ∧
      Decodes cdn f.name data

def foreignCdn : Cdn :=
  { emptyCdn with decodeManifest := fun _ => .ok ⟨"", [⟨"CARD_LIST.json", ""⟩]⟩ }

/-- A file of no domain is not decoded, and a null element ends the call with a panic. -/
theorem not_every_reload :
    (∃ s' c, loadActive (load foreignCdn) (.ok oneVersion) ⟨∅⟩ = .ok s' ∧
      s'.getByClientVersion "2.01.01" = some c ∧ ¬ EveryFileDecoded foreignCdn c) ∧
    loadActive (load (itemsCdn [none])) (.ok oneVersion) ⟨∅⟩ = .error .panic := by
  refine ⟨⟨_, _, rfl, rfl, ?_⟩, rfl⟩
  rintro ⟨m, hm, hfiles⟩
  cases hm
  have hdomain := (hfiles ⟨"CARD_LIST.json", ""⟩ (by simp)).1
  revert hdomain
  decide

/-! ## Versions that are served no more -/

/-- After a reload a client version is served if and only if this reload has loaded one of the
retained server versions it is attached to, whatever was in the store. -/
theorem stays_served_iff {cdn : Cdn} {rows : List Version} {s s' : DesignStore}
    (h : loadActive (load cdn) (.ok rows) s = .ok s') (cv : String) :
    (∃ c, s'.getByClientVersion cv = some c) ↔
      ∃ sv ∈ retained rows, Attached rows sv cv ∧ ∃ c, load cdn sv = .ok c :=
  served_iff h cv

theorem stays_served_iff_threeVersions : ∃ s s',
    loadActive (load releaseCdn) (.ok threeVersions.tail) ⟨∅⟩ = .ok s ∧
      loadActive (load releaseCdn) (.ok threeVersions) s = .ok s' ∧
      (∃ c, s.getByClientVersion "2.01.01" = some c) ∧
      (∃ c, s'.getByClientVersion "2.01.02" = some c) ∧
      ¬ ∃ c, s'.getByClientVersion "2.01.01" = some c := by
  have hfirst : (loadActive (load releaseCdn) (.ok threeVersions.tail) ⟨∅⟩).isOk = true := by
    decide +kernel
  obtain ⟨s, hs⟩ := exists_of_isOk hfirst
  have hsecond : (loadActive (load releaseCdn) (.ok threeVersions) s).isOk = true := by
    change (loadActive (load releaseCdn) (.ok threeVersions) ⟨∅⟩).isOk = true
    decide +kernel
  obtain ⟨s', hs'⟩ := exists_of_isOk hsecond
  refine ⟨s, s', hs, hs', (stays_served_iff hs "2.01.01").mpr ?_,
    (stays_served_iff hs' "2.01.02").mpr ?_, ?_⟩
  · refine ⟨"2.01.01.00", by decide, ?_, exists_of_isOk (isOk_load_releaseCdn _ (by decide))⟩
    exact ⟨⟨1, "2.01.01", "2.01.01.00", "app", 1⟩, by decide, rfl, rfl⟩
  · refine ⟨"2.01.02.00", by decide, ?_, exists_of_isOk (isOk_load_releaseCdn _ (by decide))⟩
    exact ⟨⟨3, "2.01.02", "2.01.02.00", "app.google", 1⟩, by decide, rfl, rfl⟩
  · rw [stays_served_iff hs']
    rintro ⟨sv, hsv, ⟨v, hv, rfl, hcv⟩, -⟩
    have hdropped : ∀ v ∈ threeVersions, v.serverVersion ∈ retained threeVersions →
        v.clientVersion ≠ "2.01.01" := by decide
    exact hdropped v hv hsv hcv

def twoVersions : List Version :=
  [⟨2, "2.01.02", "2.01.02.00", "app", 1⟩, ⟨1, "2.01.01", "2.01.01.00", "app", 1⟩]

def flakyCdn : Cdn :=
  { emptyCdn with
    httpGet := fun url =>
      if url = "https://cdn/2.01.01.00/manifest.json" then .error (.external "http 503")
      else .ok [] }

/-- The client version of the older one is served, and the next reload takes it away. -/
theorem live_version_lost :
    ∃ s s', loadActive (load emptyCdn) (.ok twoVersions) ⟨∅⟩ = .ok s ∧
      loadActive (load flakyCdn) (.ok twoVersions) s = .ok s' ∧
      (∃ c, s.getByClientVersion "2.01.01" = some c ∧ c.version = "2.01.01.00") ∧
      "2.01.01.00" ∈ retained twoVersions ∧ Attached twoVersions "2.01.01.00" "2.01.01" ∧
      s'.getByClientVersion "2.01.01" = none := by
  refine ⟨_, _, rfl, rfl, ⟨_, rfl, rfl⟩, by decide, ?_, rfl⟩
  exact ⟨⟨1, "2.01.01", "2.01.01.00", "app", 1⟩, by decide, rfl, rfl⟩

end FutureWas.ReloadOutcome
