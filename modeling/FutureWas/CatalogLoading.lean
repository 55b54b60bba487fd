import FutureWas.ActiveVersions
import FutureWas.Collections.Dictionary

/-!
# What a load leaves in a catalog

A load goes through the files of its manifest and stops at the first one that is not fetched,
not verified or not decoded. It panics at the first null element: `returns_iff`.

The records of `BAT_DATA.json` go to one table, and those with the flag to another:
`flagged_iff` says when the second holds the flagged entries of the first.
-/

set_option autoImplicit false

namespace FutureWas.CatalogLoading

open ActiveVersions Collections

variable {cdn : Cdn} {version : String}

/-! ## Files -/

/-- The array of a file has a null element, which `unmarshalInto` dereferences. -/
def NullIn (cdn : Cdn) (name : String) (data : Bytes) : Prop :=
  match name with
  | "BAT_DATA.json" => ∃ l, cdn.decodeBatData data = .ok l ∧ none ∈ l
  | "CURRENCY_LIST.json" => ∃ l, cdn.decodeCurrency data = .ok l ∧ none ∈ l
  | "ITEM_LIST.json" => ∃ l, cdn.decodeItem data = .ok l ∧ none ∈ l
  | "SHOP_LIST.json" => ∃ l, cdn.decodeShop data = .ok l ∧ none ∈ l
  | _ => False

/-- A file of a domain is an array of records. Other files are not decoded. -/
def Decodes (cdn : Cdn) (name : String) (data : Bytes) : Prop :=
  match name with
  | "BAT_DATA.json" => ∃ l, cdn.decodeBatData data = .ok l ∧ none ∉ l
  | "CURRENCY_LIST.json" => ∃ l, cdn.decodeCurrency data = .ok l ∧ none ∉ l
  | "ITEM_LIST.json" => ∃ l, cdn.decodeItem data = .ok l ∧ none ∉ l
  | "SHOP_LIST.json" => ∃ l, cdn.decodeShop data = .ok l ∧ none ∉ l
  | _ => True

def FileLoads (cdn : Cdn) (version : String) (f : ManifestFile) : Prop :=
  ∃ data, fetchFile cdn version f.name f.checksum = .ok data ∧ Decodes cdn f.name data

section

variable {V : Type} {set : Catalog → V → Catalog} {decoded : Except GoError (List (Option V))}

theorem fill_eq_ok (c : Catalog) {l : List (Option V)} (h : none ∉ l) :
    fill set c l = .ok ((l.filterMap id).foldl set c) := by
  induction l generalizing c with
  | nil => rfl
  | cons v l ih =>
    cases v with
    | none => exact absurd List.mem_cons_self h
    | some v =>
      have hrest : none ∉ l := fun hmem => h (List.mem_cons_of_mem _ hmem)
      exact ih (set c v) hrest

theorem fill_eq_panic (c : Catalog) {l : List (Option V)} (h : none ∈ l) :
    fill set c l = .error .panic := by
  induction l generalizing c with
  | nil => cases h
  | cons v l ih =>
    cases v with
    | none => rfl
    | some v =>
      have hrest : none ∈ l := by simpa using h
      exact ih (set c v) hrest

theorem decode_panic_iff (c : Catalog) : returns decoded >>= fill set c = .error .panic ↔
    ∃ l, decoded = .ok l ∧ none ∈ l := by
  cases decoded with
  | error err =>
    constructor
    · intro h
      cases h
    · rintro ⟨l, h, -⟩
      cases h
  | ok l =>
    change fill set c l = _ ↔ _
    by_cases hnull : none ∈ l
    · exact iff_of_true (fill_eq_panic c hnull) ⟨l, rfl, hnull⟩
    · rw [fill_eq_ok c hnull]
      simp [hnull]

theorem decode_ok {c c' : Catalog} (h : returns decoded >>= fill set c = .ok c') :
    ∃ l, decoded = .ok l ∧ c' = (l.filterMap id).foldl set c := by
  cases decoded with
  | error err => cases h
  | ok l =>
    change fill set c l = _ at h
    by_cases hnull : none ∈ l
    · rw [fill_eq_panic c hnull] at h
      cases h
    · rw [fill_eq_ok c hnull] at h
      cases h
      exact ⟨l, rfl, rfl⟩

theorem decode_ok_iff (c : Catalog) : (∃ c', returns decoded >>= fill set c = .ok c') ↔
    ∃ l, decoded = .ok l ∧ none ∉ l := by
  cases decoded with
  | error err =>
    constructor
    · rintro ⟨c', h⟩
      cases h
    · rintro ⟨l, h, -⟩
      cases h
  | ok l =>
    change (∃ c', fill set c l = _) ↔ _
    by_cases hnull : none ∈ l
    · rw [fill_eq_panic c hnull]
      simp [hnull]
    · exact iff_of_true ⟨_, fill_eq_ok c hnull⟩ ⟨l, rfl, hnull⟩

end

theorem unmarshalInto_panic_iff (c : Catalog) (name : String) (data : Bytes) :
    unmarshalInto cdn c name data = .error .panic ↔ NullIn cdn name data := by
  unfold unmarshalInto NullIn
  split
  · exact decode_panic_iff c
  · exact decode_panic_iff c
  · exact decode_panic_iff c
  · exact decode_panic_iff c
  · simp

theorem unmarshalInto_ok_iff (c : Catalog) (name : String) (data : Bytes) :
    (∃ c', unmarshalInto cdn c name data = .ok c') ↔ Decodes cdn name data := by
  unfold unmarshalInto Decodes
  split
  · exact decode_ok_iff c
  · exact decode_ok_iff c
  · exact decode_ok_iff c
  · exact decode_ok_iff c
  · simp

/-! ## Manifests -/

def NullAmong (cdn : Cdn) (version : String) (fs : List ManifestFile) : Prop :=
  ∃ before f after, fs = before ++ f :: after ∧ (∀ g ∈ before, FileLoads cdn version g) ∧
    ∃ data, fetchFile cdn version f.name f.checksum = .ok data ∧ NullIn cdn f.name data

def NullReached (cdn : Cdn) (version : String) : Prop :=
  ∃ m, fetchManifest cdn version = .ok m ∧ NullAmong cdn version m.files

theorem not_null_of_decodes {name : String} {data : Bytes} (h : Decodes cdn name data) :
    ¬ NullIn cdn name data := by
  rw [← unmarshalInto_panic_iff (newCatalog "")]
  obtain ⟨c, hc⟩ := (unmarshalInto_ok_iff (newCatalog "") name data).mpr h
  rw [hc]
  intro h
  cases h

theorem nullAmong_cons {f : ManifestFile} {fs : List ManifestFile} :
    NullAmong cdn version (f :: fs) ↔
      (∃ data, fetchFile cdn version f.name f.checksum = .ok data ∧ NullIn cdn f.name data) ∨
        FileLoads cdn version f ∧ NullAmong cdn version fs := by
  constructor
  · rintro ⟨before, g, after, hfs, hbefore, hnull⟩
    cases before with
    | nil =>
      cases hfs
      exact .inl hnull
    | cons f' before =>
      cases hfs
      have hf : FileLoads cdn version f := hbefore f List.mem_cons_self
      exact .inr ⟨hf, before, g, after, rfl,
        fun g hg => hbefore g (List.mem_cons_of_mem _ hg), hnull⟩
  · rintro (hnull | ⟨hf, before, g, after, rfl, hbefore, hnull⟩)
    · exact ⟨[], f, fs, rfl, by simp, hnull⟩
    · refine ⟨f :: before, g, after, rfl, ?_, hnull⟩
      intro h hh
      rcases List.mem_cons.mp hh with rfl | hh
      · exact hf
      · exact hbefore h hh

theorem loadFiles_cons (f : ManifestFile) (fs : List ManifestFile) (c : Catalog) :
    (∃ data c', fetchFile cdn version f.name f.checksum = .ok data ∧
      unmarshalInto cdn c f.name data = .ok c' ∧
        loadFiles cdn version (f :: fs) c = loadFiles cdn version fs c') ∨
      (∃ data, fetchFile cdn version f.name f.checksum = .ok data ∧
        unmarshalInto cdn c f.name data = .error .panic ∧
          loadFiles cdn version (f :: fs) c = .error .panic) ∨
      (∃ data err, fetchFile cdn version f.name f.checksum = .ok data ∧
        unmarshalInto cdn c f.name data = .error (.error err) ∧
          loadFiles cdn version (f :: fs) c =
            .error (.error (.wrap ("unmarshal " ++ f.name) err))) ∨
      ∃ err, fetchFile cdn version f.name f.checksum = .error err ∧
        loadFiles cdn version (f :: fs) c = .error (.error (.wrap ("fetch " ++ f.name) err)) := by
  rw [loadFiles]
  cases hdata : fetchFile cdn version f.name f.checksum with
  | error err => exact .inr (.inr (.inr ⟨err, rfl, rfl⟩))
  | ok data =>
    have hrest : (returns (Except.ok data : Except GoError Bytes) >>= fun data =>
        wrapError ("unmarshal " ++ f.name) (unmarshalInto cdn c f.name data) >>=
          loadFiles cdn version fs) =
        wrapError ("unmarshal " ++ f.name) (unmarshalInto cdn c f.name data) >>=
          loadFiles cdn version fs := rfl
    cases hdecode : unmarshalInto cdn c f.name data with
    | ok c' =>
      refine .inl ⟨data, c', rfl, hdecode, ?_⟩
      refine Eq.trans hrest ?_
      rw [hdecode]
      rfl
    | error failure =>
      cases failure with
      | panic =>
        refine .inr (.inl ⟨data, rfl, hdecode, ?_⟩)
        refine Eq.trans hrest ?_
        rw [hdecode]
        rfl
      | error err =>
        refine .inr (.inr (.inl ⟨data, err, rfl, hdecode, ?_⟩))
        refine Eq.trans hrest ?_
        rw [hdecode]
        rfl

theorem loadFiles_panic_iff (fs : List ManifestFile) (c : Catalog) :
    loadFiles cdn version fs c = .error .panic ↔ NullAmong cdn version fs := by
  induction fs generalizing c with
  | nil =>
    constructor
    · intro h
      cases h
    · rintro ⟨before, f, after, h, -⟩
      cases before <;> cases h
  | cons f fs ih =>
    rw [nullAmong_cons]
    unfold FileLoads
    obtain ⟨data, c', hdata, hdecode, hload⟩ | ⟨data, hdata, hdecode, hload⟩ |
      ⟨data, err, hdata, hdecode, hload⟩ | ⟨err, hdata, hload⟩ := loadFiles_cons f fs c
    · have hdecodes := (unmarshalInto_ok_iff c f.name data).mp ⟨c', hdecode⟩
      rw [hload, ih c']
      simp [hdata, hdecodes, not_null_of_decodes hdecodes]
    · have hnull := (unmarshalInto_panic_iff c f.name data).mp hdecode
      rw [hload]
      simp [hdata, hnull]
    · have hnot : ¬ Decodes cdn f.name data := by
        rw [← unmarshalInto_ok_iff c, hdecode]
        simp
      have hnot' : ¬ NullIn cdn f.name data := by
        rw [← unmarshalInto_panic_iff c, hdecode]
        simp
      rw [hload]
      simp [hdata, hnot, hnot']
    · rw [hload]
      simp [hdata]

theorem loadFiles_ok {fs : List ManifestFile} {c c' : Catalog}
    (h : loadFiles cdn version fs c = .ok c') : ∀ f ∈ fs, FileLoads cdn version f := by
  induction fs generalizing c with
  | nil => simp
  | cons f fs ih =>
    intro g hg
    obtain ⟨data, c₁, hdata, hdecode, hload⟩ | ⟨data, hdata, hdecode, hload⟩ |
      ⟨data, err, hdata, hdecode, hload⟩ | ⟨err, hdata, hload⟩ := loadFiles_cons f fs c
    · rcases List.mem_cons.mp hg with rfl | hg
      · exact ⟨data, hdata, (unmarshalInto_ok_iff c g.name data).mp ⟨c₁, hdecode⟩⟩
      · rw [hload] at h
        exact ih h g hg
    all_goals
      rw [hload] at h
      cases h

theorem load_ok {c : Catalog} (h : load cdn version = .ok c) : ∃ m,
    fetchManifest cdn version = .ok m ∧
      loadFiles cdn version m.files (newCatalog version) = .ok c := by
  obtain ⟨m, hm, hload⟩ := bind_ok h
  refine ⟨m, ?_, hload⟩
  cases hr : fetchManifest cdn version with
  | error err =>
    rw [hr] at hm
    cases hm
  | ok m' =>
    rw [hr] at hm
    cases hm
    rfl

theorem load_panic_iff : load cdn version = .error .panic ↔ NullReached cdn version := by
  unfold load NullReached
  cases hm : fetchManifest cdn version with
  | error err =>
    constructor
    · intro h
      cases h
    · rintro ⟨m, h, -⟩
      cases h
  | ok m =>
    change loadFiles cdn version m.files (newCatalog version) = _ ↔ _
    rw [loadFiles_panic_iff]
    simp

def Returns {α : Type} (r : Except Failure α) : Prop := r ≠ .error .panic

/-- Decoding a file and loading a version return unless they come to a null element. -/
theorem returns_iff (cdn : Cdn) :
    (∀ c name data, Returns (unmarshalInto cdn c name data) ↔ ¬ NullIn cdn name data) ∧
      ∀ version, Returns (load cdn version) ↔ ¬ NullReached cdn version :=
  ⟨fun c name data => not_congr (unmarshalInto_panic_iff c name data),
    fun _ => not_congr load_panic_iff⟩

def itemsCdn (items : List (Option ItemListDesign)) : Cdn where
  baseURL := "https://cdn"
  httpGet _ := .ok []
  decodeManifest _ := .ok ⟨"2.01.01.00", [⟨"ITEM_LIST.json", ""⟩]⟩
  decodeBatData _ := .ok []
  decodeCurrency _ := .ok []
  decodeItem _ := .ok items
  decodeShop _ := .ok []
  sha256Hex _ := ""

theorem load_null_panics :
    ¬ Returns (unmarshalInto (itemsCdn [none]) (newCatalog "") "ITEM_LIST.json" []) ∧
      ¬ Returns (load (itemsCdn [none]) "2.01.01.00") :=
  ⟨fun h => h rfl, fun h => h rfl⟩

/-! ## The flagged records -/

def batRecordsOf (cdn : Cdn) (version : String) (f : ManifestFile) : List BatDataDesign :=
  if f.name = "BAT_DATA.json" then
    match fetchFile cdn version f.name f.checksum with
    | .ok data => ((cdn.decodeBatData data).toOption.getD []).filterMap id
    | .error _ => []
  else []

def batRecords (cdn : Cdn) (version : String) : List BatDataDesign :=
  ((fetchManifest cdn version).toOption.map fun m =>
    m.files.flatMap (batRecordsOf cdn version)).getD []

def setAll (t : Design Int32 BatDataDesign) (records : List BatDataDesign) :
    Design Int32 BatDataDesign :=
  records.foldl (fun t v => t.insert v.nid v) t

def flagged (records : List BatDataDesign) : List BatDataDesign :=
  records.filter fun v => v.useflag

theorem setBatData_foldl (c : Catalog) (records : List BatDataDesign) :
    (records.foldl setBatData c).batData = setAll c.batData records ∧
      (records.foldl setBatData c).batDataByUseFlag =
        setAll c.batDataByUseFlag (flagged records) := by
  induction records using List.reverseRecOn with
  | nil => exact ⟨rfl, rfl⟩
  | append_singleton records v ih =>
    unfold setAll flagged at ih ⊢
    rw [List.filter_append, List.foldl_append, List.foldl_append, List.foldl_append]
    simp only [List.foldl_cons, List.foldl_nil]
    cases hflag : v.useflag with
    | true => simp [setBatData, hflag, ih]
    | false => simp [setBatData, hflag, ih]

theorem foldl_keeps {V : Type} (set : Catalog → V → Catalog)
    (hset : ∀ c v, (set c v).batData = c.batData ∧
      (set c v).batDataByUseFlag = c.batDataByUseFlag) (c : Catalog) (l : List V) :
    (l.foldl set c).batData = c.batData ∧
      (l.foldl set c).batDataByUseFlag = c.batDataByUseFlag := by
  induction l generalizing c with
  | nil => exact ⟨rfl, rfl⟩
  | cons v l ih =>
    obtain ⟨hbat, hflag⟩ := hset c v
    rw [List.foldl_cons, (ih (set c v)).1, (ih (set c v)).2]
    exact ⟨hbat, hflag⟩

theorem unmarshalInto_tables {f : ManifestFile} {data : Bytes} {c c' : Catalog}
    (hdata : fetchFile cdn version f.name f.checksum = .ok data)
    (h : unmarshalInto cdn c f.name data = .ok c') :
    c'.batData = setAll c.batData (batRecordsOf cdn version f) ∧
      c'.batDataByUseFlag = setAll c.batDataByUseFlag (flagged (batRecordsOf cdn version f)) := by
  have hother : f.name ≠ "BAT_DATA.json" → c'.batData = c.batData ∧
      c'.batDataByUseFlag = c.batDataByUseFlag →
      c'.batData = setAll c.batData (batRecordsOf cdn version f) ∧
        c'.batDataByUseFlag =
          setAll c.batDataByUseFlag (flagged (batRecordsOf cdn version f)) := by
    intro hname hkept
    unfold batRecordsOf
    rw [if_neg hname]
    exact hkept
  unfold unmarshalInto at h
  split at h
  · next hname =>
    obtain ⟨l, hl, rfl⟩ := decode_ok h
    have hrecords : batRecordsOf cdn version f = l.filterMap id := by
      unfold batRecordsOf
      rw [if_pos hname, hdata]
      dsimp only
      rw [hl]
      rfl
    rw [hrecords]
    exact setBatData_foldl c _
  · next hname =>
    obtain ⟨l, -, rfl⟩ := decode_ok h
    exact hother (by rw [hname]; decide) (foldl_keeps setCurrency (fun c v => ⟨rfl, rfl⟩) c _)
  · next hname =>
    obtain ⟨l, -, rfl⟩ := decode_ok h
    exact hother (by rw [hname]; decide) (foldl_keeps setItem (fun c v => ⟨rfl, rfl⟩) c _)
  · next hname =>
    obtain ⟨l, -, rfl⟩ := decode_ok h
    exact hother (by rw [hname]; decide) (foldl_keeps setShop (fun c v => ⟨rfl, rfl⟩) c _)
  · next hname _ _ _ =>
    cases h
    exact hother hname ⟨rfl, rfl⟩

theorem loadFiles_tables {fs : List ManifestFile} {c c' : Catalog}
    (h : loadFiles cdn version fs c = .ok c') :
    c'.batData = setAll c.batData (fs.flatMap (batRecordsOf cdn version)) ∧
      c'.batDataByUseFlag =
        setAll c.batDataByUseFlag (flagged (fs.flatMap (batRecordsOf cdn version))) := by
  induction fs generalizing c with
  | nil =>
    cases h
    exact ⟨rfl, rfl⟩
  | cons f fs ih =>
    obtain ⟨data, c₁, hdata, hdecode, hload⟩ | ⟨data, hdata, hdecode, hload⟩ |
      ⟨data, err, hdata, hdecode, hload⟩ | ⟨err, hdata, hload⟩ := loadFiles_cons f fs c
    · rw [hload] at h
      obtain ⟨hbat, hflag⟩ := unmarshalInto_tables hdata hdecode
      obtain ⟨hbat', hflag'⟩ := ih h
      unfold setAll flagged at *
      rw [List.flatMap_cons, List.filter_append, List.foldl_append, List.foldl_append, ← hbat,
        ← hflag]
      exact ⟨hbat', hflag'⟩
    all_goals
      rw [hload] at h
      cases h

theorem load_tables {c : Catalog} (h : load cdn version = .ok c) :
    c.batData = setAll ∅ (batRecords cdn version) ∧
      c.batDataByUseFlag = setAll ∅ (flagged (batRecords cdn version)) := by
  obtain ⟨m, hm, hload⟩ := load_ok h
  have hrecords : batRecords cdn version = m.files.flatMap (batRecordsOf cdn version) := by
    unfold batRecords
    rw [hm]
    rfl
  rw [hrecords]
  exact loadFiles_tables hload

def lastWith (records : List BatDataDesign) (k : Int32) : Option BatDataDesign :=
  records.reverse.find? fun v => v.nid = k

theorem lookup_setAll (records : List BatDataDesign) (k : Int32) :
    (setAll ∅ records).lookup k = lastWith records k := by
  unfold setAll lastWith
  rw [lookup_foldl_insert, AList.lookup_empty, Option.or_none]

/-- The flagged entries of the first table are the entries of the second. -/
def FlaggedAgree (c : Catalog) : Prop :=
  ∀ k v, c.batDataByUseFlag.lookup k = some v ↔ c.batData.lookup k = some v ∧ v.useflag = true

/-- A NID with a flagged record has the flag in its last record. -/
def LastFlagged (records : List BatDataDesign) : Prop :=
  ∀ v ∈ records, v.useflag = true → ∀ w, lastWith records v.nid = some w → w.useflag = true

theorem lastWith_flagged {records : List BatDataDesign} {k : Int32} {v : BatDataDesign}
    (h : lastWith records k = some v) (hflag : v.useflag = true) :
    lastWith (flagged records) k = some v := by
  unfold lastWith flagged at *
  rw [← List.filter_reverse]
  obtain ⟨hk, before, after, hsplit, hbefore⟩ := List.find?_eq_some_iff_append.mp h
  rw [hsplit, List.filter_append, List.filter_cons_of_pos hflag]
  apply List.find?_eq_some_iff_append.mpr
  refine ⟨hk, _, _, rfl, ?_⟩
  intro w hw
  exact hbefore w (List.mem_filter.mp hw).1

theorem flagged_iff_lastFlagged (records : List BatDataDesign) :
    (∀ k v, lastWith (flagged records) k = some v ↔
      lastWith records k = some v ∧ v.useflag = true) ↔ LastFlagged records := by
  have hmem : ∀ {l : List BatDataDesign} {k v}, lastWith l k = some v → v ∈ l ∧ v.nid = k := by
    intro l k v h
    refine ⟨List.mem_reverse.mp (List.mem_of_find?_eq_some h), ?_⟩
    simpa using List.find?_some h
  have hsome : ∀ {l : List BatDataDesign} {v}, v ∈ l → ∃ w, lastWith l v.nid = some w := by
    intro l v hv
    apply Option.isSome_iff_exists.mp
    unfold lastWith
    rw [List.find?_isSome]
    exact ⟨v, List.mem_reverse.mpr hv, by simp⟩
  constructor
  · intro h v hv hflag w hw
    obtain ⟨u, hu⟩ := hsome (List.mem_filter.mpr ⟨hv, hflag⟩)
    obtain ⟨hlast, huflag⟩ := (h v.nid u).mp hu
    rw [hlast] at hw
    cases hw
    exact huflag
  · intro h k v
    constructor
    · intro hv
      obtain ⟨hin, hk⟩ := hmem hv
      obtain ⟨hrecord, hflag⟩ := List.mem_filter.mp hin
      obtain ⟨w, hw⟩ := hsome hrecord
      have hwflag := lastWith_flagged hw (h v hrecord hflag w hw)
      rw [hk] at hw hwflag
      rw [hwflag] at hv
      cases hv
      exact ⟨hw, hflag⟩
    · rintro ⟨hv, hflag⟩
      exact lastWith_flagged hv hflag

/-- The second table agrees with the first if and only if no NID loses its flag on the way. -/
theorem flagged_iff {c : Catalog} (h : load cdn version = .ok c) :
    FlaggedAgree c ↔ LastFlagged (batRecords cdn version) := by
  obtain ⟨hbat, hflag⟩ := load_tables h
  unfold FlaggedAgree
  rw [hbat, hflag]
  simp only [lookup_setAll]
  exact flagged_iff_lastFlagged _

def battersCdn (batters : List BatDataDesign) : Cdn where
  baseURL := "https://cdn"
  httpGet _ := .ok []
  decodeManifest _ := .ok ⟨"2.01.01.00", [⟨"BAT_DATA.json", ""⟩]⟩
  decodeBatData _ := .ok (batters.map some)
  decodeCurrency _ := .ok []
  decodeItem _ := .ok []
  decodeShop _ := .ok []
  sha256Hex _ := ""

def catalogOf (cdn : Cdn) : Catalog := ((load cdn "2.01.01.00").toOption).getD (newCatalog "")

def lineup : List BatDataDesign :=
  [⟨1, 100, true⟩, ⟨2, 101, false⟩, ⟨3, 102, false⟩, ⟨4, 100, true⟩, ⟨5, 101, true⟩]

theorem flagged_iff_lineup : FlaggedAgree (catalogOf (battersCdn lineup)) := by
  have hload : load (battersCdn lineup) "2.01.01.00" = .ok (catalogOf (battersCdn lineup)) := rfl
  refine (flagged_iff hload).mpr ?_
  unfold LastFlagged
  decide

def unflagged : List BatDataDesign := [⟨1, 100, true⟩, ⟨2, 100, false⟩]

theorem not_flaggedAgree_unflagged :
    (∃ c, load (battersCdn unflagged) "2.01.01.00" = .ok c) ∧
      ¬ FlaggedAgree (catalogOf (battersCdn unflagged)) := by
  refine ⟨⟨_, rfl⟩, fun h => ?_⟩
  have hindex := (h 100 ⟨1, 100, true⟩).mp (by decide)
  revert hindex
  decide

end FutureWas.CatalogLoading
