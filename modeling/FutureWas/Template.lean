import FutureWas.CreatedFiles

/-!
# The template of a migration file

The texts of a request are written between two annotation lines as they are. The file has one
section for each of the two texts exactly when none of their own lines is an annotation; a
request is asked to leave annotations out, and nothing checks that it does.
-/

set_option autoImplicit false

namespace FutureWas.Migrations

open Collections

inductive Direction
  | up
  | down
  deriving DecidableEq

def upLine : List Char := "-- +goose Up".toList

def downLine : List Char := "-- +goose Down".toList

/-- How `goose` reads a line: annotations have the form `-- +goose [annotation]`. -/
structure Annotations where
  annotation : List Char → Option Direction
  up : annotation upLine = some .up
  down : annotation downLine = some .down
  marked : ∀ line d, annotation line = some d → "+goose".toList <:+: line

def isBlank (c : Char) : Bool := c = ' ' ∨ c = '\n' ∨ c = '\t' ∨ c = '\r'

def trim (s : List Char) : List Char := (s.rdropWhile isBlank).dropWhile isBlank

def lines (s : List Char) : List (List Char) := s.splitOn '\n'

def unlines (ls : List (List Char)) : List Char := ['\n'].intercalate ls

/-- The file has one Up section with the one text and one Down section with the other. -/
def RoundTrips (goose : Annotations) (content : List Char) (upSQL downSQL : String) : Prop :=
  ∃ up down, (cut goose.annotation (lines content)).2 = [(.up, up), (.down, down)] ∧
    trim (unlines up) = trim upSQL.toList ∧ trim (unlines down) = trim downSQL.toList

def Unannotated (goose : Annotations) (sql : String) : Prop :=
  ∀ line ∈ lines (trimRight sql.toList), goose.annotation line = none

/-! ## Blank space -/

section

variable {p q : Char → Bool}

theorem rdropWhile_rdropWhile (h : ∀ c, p c = true → q c = true) (s : List Char) :
    (s.rdropWhile p).rdropWhile q = s.rdropWhile q := by
  induction s using List.reverseRecOn with
  | nil => simp
  | append_singleton s c ih =>
    by_cases hc : p c = true
    · rw [List.rdropWhile_concat_pos _ _ _ hc, ih, List.rdropWhile_concat_pos _ _ _ (h c hc)]
    · rw [List.rdropWhile_concat_neg _ _ _ hc]

end

theorem trim_block (sql : String) : trim (block sql ++ ['\n']) = trim sql.toList := by
  have hblock : (block sql).rdropWhile isBlank = (trimRight sql.toList).rdropWhile isBlank := by
    unfold block
    dsimp only
    split_ifs with hempty
    · rw [hempty]
    · exact List.rdropWhile_concat_pos _ _ _ (by decide)
  unfold trim
  rw [List.rdropWhile_concat_pos _ _ _ (by decide), hblock, trimRight, rdropWhile_rdropWhile]
  intro c hc
  simp only [decide_eq_true_eq] at hc
  rcases hc with rfl | rfl | rfl <;> decide

/-! ## Lines -/

theorem lines_append (s t : List Char) : lines (s ++ '\n' :: t) = lines s ++ lines t :=
  List.splitOn_append_cons_self s t

theorem lines_single {s : List Char} (h : '\n' ∉ s) : lines s = [s] := List.splitOn_eq_singleton h

theorem lines_unlines (s : List Char) (ss : List (List Char)) :
    lines (unlines (s :: ss)) = (s :: ss).flatMap lines := by
  induction ss generalizing s with
  | nil => simp [unlines, List.intercalate]
  | cons t ss ih =>
    have hcons : unlines (s :: t :: ss) = s ++ '\n' :: unlines (t :: ss) := by
      simp [unlines, List.intercalate]
    rw [hcons, lines_append, ih]
    rfl

theorem lines_block (sql : String) : lines (block sql) =
    lines (trimRight sql.toList) ++ if trimRight sql.toList = [] then [] else [[]] := by
  unfold block
  dsimp only
  split_ifs with hempty
  · rw [hempty, List.append_nil]
  · exact lines_append _ []

section

variable (goose : Annotations)

theorem annotation_none {line : List Char} (h : '+' ∉ line) : goose.annotation line = none := by
  cases hline : goose.annotation line with
  | none => rfl
  | some d =>
    have hplus : '+' ∈ "+goose".toList := by decide
    exact absurd ((goose.marked line d hline).subset hplus) h

theorem annotation_nil : goose.annotation [] = none := annotation_none goose List.not_mem_nil

theorem block_unannotated {sql : String} :
    (∀ line ∈ lines (block sql), goose.annotation line = none) ↔ Unannotated goose sql := by
  rw [lines_block, Unannotated, List.forall_mem_append]
  constructor
  · exact fun h => h.1
  · intro h
    refine ⟨h, ?_⟩
    split_ifs
    · simp
    · simpa using annotation_nil goose

theorem isDigit_ne {ds : List Char} (h : ∀ c ∈ ds, c.isDigit = true) {c : Char}
    (hc : c.isDigit = false) : c ∉ ds := by
  intro hmem
  rw [h c hmem] at hc
  cases hc

theorem notMem_created (now : KST) {c : Char} (hdigit : c.isDigit = false)
    (hother : c ∉ ['-', ' ', ':', 'K', 'S', 'T']) : c ∉ now.created := by
  have hpad : ∀ width n, c ∉ pad width n := fun _ _ => isDigit_ne isDigit_pad hdigit
  have htext : " KST".toList = [' ', 'K', 'S', 'T'] := by decide
  simp only [List.mem_cons, not_or] at hother
  simp only [KST.created, htext, List.mem_append, List.mem_cons, not_or]
  simp [hpad, hother]

theorem buildTemplate_eq (name author : List Char) (now : KST) (upSQL downSQL : String) :
    buildTemplate name author now upSQL downSQL =
      unlines ["-- migration: ".toList ++ name, "-- author:    ".toList ++ author,
        "-- created:   ".toList ++ now.created, [], upLine, block upSQL, [], downLine,
        block downSQL, []] := by
  have hauthor : "\n-- author:    ".toList = '\n' :: "-- author:    ".toList := by decide
  have hdate : "\n-- created:   ".toList = '\n' :: "-- created:   ".toList := by decide
  have hup : "\n\n-- +goose Up\n".toList = '\n' :: '\n' :: (upLine ++ ['\n']) := by decide
  have hdown : "\n\n-- +goose Down\n".toList = '\n' :: '\n' :: (downLine ++ ['\n']) := by decide
  have hend : "\n".toList = ['\n'] := by decide
  unfold buildTemplate
  rw [hauthor, hdate, hup, hdown, hend]
  -- the texts of the header play no part from here on
  generalize "-- migration: ".toList = migration
  generalize "-- author:    ".toList = authored
  generalize "-- created:   ".toList = created
  simp only [unlines, List.intercalate, List.intersperse, List.flatten_cons, List.flatten_nil,
    List.append_assoc, List.cons_append, List.nil_append, List.append_nil]

theorem lines_buildTemplate {name author : List Char} (now : KST) (upSQL downSQL : String)
    (hname : ∀ c ∈ name, c ∈ wordChars) (hauthor : ∀ c ∈ author, c ∈ wordChars) :
    ∃ header, (∀ line ∈ header, goose.annotation line = none) ∧
      lines (buildTemplate name author now upSQL downSQL) =
        header ++ upLine :: (lines (block upSQL) ++ [[]] ++
          downLine :: (lines (block downSQL) ++ [[]])) := by
  have hword : ∀ c, c ∉ wordChars → c ∉ name ∧ c ∉ author := fun c hc =>
    ⟨fun hmem => hc (hname c hmem), fun hmem => hc (hauthor c hmem)⟩
  have hplus := hword '+' (by decide)
  have hfeed := hword '\n' (by decide)
  refine ⟨["-- migration: ".toList ++ name, "-- author:    ".toList ++ author,
    "-- created:   ".toList ++ now.created, []], ?_, ?_⟩
  · have hcreated : '+' ∉ now.created := notMem_created now (by decide) (by decide)
    simp only [List.forall_mem_cons]
    refine ⟨?_, ?_, ?_, annotation_nil goose, by simp⟩
    all_goals
      apply annotation_none
      rw [List.mem_append, not_or]
    · exact ⟨by decide, hplus.1⟩
    · exact ⟨by decide, hplus.2⟩
    · exact ⟨by decide, hcreated⟩
  · have hcreated : '\n' ∉ now.created := notMem_created now (by decide) (by decide)
    have hmigration : lines ("-- migration: ".toList ++ name) = ["-- migration: ".toList ++ name] :=
      lines_single (by rw [List.mem_append, not_or]; exact ⟨by decide, hfeed.1⟩)
    have hauthored :
        lines ("-- author:    ".toList ++ author) = ["-- author:    ".toList ++ author] :=
      lines_single (by rw [List.mem_append, not_or]; exact ⟨by decide, hfeed.2⟩)
    have hdated : lines ("-- created:   ".toList ++ now.created) =
        ["-- created:   ".toList ++ now.created] :=
      lines_single (by rw [List.mem_append, not_or]; exact ⟨by decide, hcreated⟩)
    have hempty : lines [] = [[]] := rfl
    have hup : lines upLine = [upLine] := lines_single (by decide)
    have hdown : lines downLine = [downLine] := lines_single (by decide)
    rw [buildTemplate_eq, lines_unlines]
    simp only [List.flatMap_cons, List.flatMap_nil, hmigration, hauthored, hdated, hempty, hup,
      hdown]
    simp

theorem cut_template {header upLines downLines : List (List Char)}
    (hheader : ∀ line ∈ header, goose.annotation line = none)
    (hup : ∀ line ∈ upLines, goose.annotation line = none)
    (hdown : ∀ line ∈ downLines, goose.annotation line = none) :
    (cut goose.annotation (header ++ upLine :: (upLines ++ downLine :: downLines))).2 =
      [(.up, upLines), (.down, downLines)] := by
  rw [cut_append hheader, cut_cons_some goose.up, cut_append hup, cut_cons_some goose.down,
    cut_unmarked hdown]
  simp

theorem unlines_section (sql : String) :
    unlines (lines (block sql) ++ [[]]) = block sql ++ ['\n'] := by
  have hlines : lines (block sql ++ ['\n']) = lines (block sql) ++ [[]] := lines_append _ []
  rw [← hlines]
  exact List.intercalate_splitOn '\n'

theorem unannotated_of_length {header upLines downLines : List (List Char)}
    (h : (cut goose.annotation
      (header ++ upLine :: (upLines ++ downLine :: downLines))).2.length = 2) :
    (∀ line ∈ upLines, goose.annotation line = none) ∧
      ∀ line ∈ downLines, goose.annotation line = none := by
  rw [length_cut] at h
  simp only [List.countP_append, List.countP_cons, goose.up, goose.down, Option.isSome_some,
    ↓reduceIte] at h
  have hnone : ∀ ls : List (List Char), (ls.countP fun l => (goose.annotation l).isSome) = 0 →
      ∀ line ∈ ls, goose.annotation line = none := by
    intro ls hcount line hline
    simpa using List.countP_eq_zero.mp hcount line hline
  exact ⟨hnone _ (by omega), hnone _ (by omega)⟩

end

/-- A created file has the two texts as its sections exactly when no line of either is an
annotation. -/
theorem roundTrips_iff (goose : Annotations) {lower : Char → Char} {os : OperatingSystem}
    {now : KST} {req : CreateRequest} {disk written : Disk} {f : CreatedFile}
    (h : createMigrationFile lower os now req disk = (.ok f, written)) :
    RoundTrips goose f.content req.upSQL req.downSQL ↔
      Unannotated goose req.upSQL ∧ Unannotated goose req.downSQL := by
  obtain ⟨-, -, hname, -, -, -, hcontent, -⟩ := createMigrationFile_eq_ok h
  obtain ⟨header, hheader, hlines⟩ := lines_buildTemplate goose now req.upSQL req.downSQL
    (matchString_name hname).2 fun c hc => mem_sanitizeAuthor hc
  have hlast : ∀ sql, (∀ line ∈ lines (block sql) ++ [[]], goose.annotation line = none) ↔
      Unannotated goose sql := by
    intro sql
    rw [List.forall_mem_append, block_unannotated]
    simp [annotation_nil]
  unfold RoundTrips
  rw [hcontent, hlines]
  constructor
  · rintro ⟨up, down, hcut, -, -⟩
    have hlength := congrArg List.length hcut
    obtain ⟨hup, hdown⟩ := unannotated_of_length goose hlength
    exact ⟨(hlast _).mp hup, (hlast _).mp hdown⟩
  · rintro ⟨hup, hdown⟩
    refine ⟨_, _, cut_template goose hheader ((hlast _).mpr hup) ((hlast _).mpr hdown), ?_, ?_⟩
    · rw [unlines_section, trim_block]
    · rw [unlines_section, trim_block]

theorem created_of_post {lower : Char → Char} {os : OperatingSystem} {now : KST} {stage : String}
    {body : CreateBody} {disk written : Disk} {status : ℕ} {f : CreatedFile}
    (h : postMigrations lower os now stage body disk = ((status, .ok f), written)) :
    createMigrationFile lower os now body.request disk = (.ok f, written) := by
  unfold postMigrations at h
  split_ifs at h with hstage
  · cases h
  · split at h
    · cases h
    · next hcreate =>
      cases h
      exact hcreate

theorem post_roundTrips_iff (goose : Annotations) {lower : Char → Char} {os : OperatingSystem}
    {now : KST} {stage : String} {body : CreateBody} {disk written : Disk} {status : ℕ}
    {f : CreatedFile}
    (h : postMigrations lower os now stage body disk = ((status, .ok f), written)) :
    RoundTrips goose f.content body.upSQL body.downSQL ↔
      Unannotated goose body.upSQL ∧ Unannotated goose body.downSQL :=
  roundTrips_iff goose (created_of_post h)

def exactAnnotations : Annotations where
  annotation line :=
    if line = upLine then some .up else if line = downLine then some .down else none
  up := if_pos rfl
  down := by decide
  marked := by
    intro line d h
    split_ifs at h with hup hdown
    · rw [hup]
      decide
    · rw [hdown]
      decide

def plainBody : CreateBody where
  category := "game"
  version := "2.01.02"
  name := "add_memo"
  author := "mega"
  upSQL := "ALTER TABLE TB_USER ADD memo TEXT;\n"
  downSQL := "ALTER TABLE TB_USER DROP memo;\n"

def pastedBody : CreateBody :=
  { plainBody with
    upSQL := "ALTER TABLE TB_USER ADD memo TEXT;\n-- +goose Down\nALTER TABLE TB_USER DROP memo;" }

def createdFrom (body : CreateBody) : CreatedFile where
  filename := "20260520143012_mega_add_memo.sql".toList
  path := "sql/migrations/game/2.01.02/20260520143012_mega_add_memo.sql".toList
  content := buildTemplate "add_memo".toList "mega".toList may20 body.upSQL body.downSQL

theorem post_roundTrips_plain :
    RoundTrips exactAnnotations (createdFrom plainBody).content plainBody.upSQL
        plainBody.downSQL ↔
      Unannotated exactAnnotations plainBody.upSQL ∧
        Unannotated exactAnnotations plainBody.downSQL := by
  have hpost : (postMigrations Char.toLower quietSystem may20 stageLocal plainBody initialDisk).1 =
      (200, .ok (createdFrom plainBody)) := by decide +kernel
  exact post_roundTrips_iff exactAnnotations (Prod.fst_eq_iff.mp hpost)

theorem post_not_roundTrips :
    ¬ ∀ (goose : Annotations) lower os now stage body disk status f written,
      postMigrations lower os now stage body disk = ((status, .ok f), written) →
      RoundTrips goose f.content body.upSQL body.downSQL := by
  intro h
  have hpost : (postMigrations Char.toLower quietSystem may20 stageLocal pastedBody
      initialDisk).1 = (200, .ok (createdFrom pastedBody)) := by decide +kernel
  obtain ⟨up, down, hcut, -, -⟩ := h exactAnnotations _ _ _ _ _ _ _ _ _ (Prod.fst_eq_iff.mp hpost)
  have hlength : (cut exactAnnotations.annotation
      (lines (createdFrom pastedBody).content)).2.length = 3 := by decide +kernel
  rw [hcut] at hlength
  exact absurd hlength (by simp)

end FutureWas.Migrations
