import FutureWas.ReleaseOrder

/-!
# Trees read off a disk

The tree of a category is the directory of its name on the disk. The walker goes through the
files in it and in its version directories, and fails exactly if one of them has no version id:
`exists_walkDisk_iff`.
-/

set_option autoImplicit false

namespace FutureWas.Migrations

open Collections Path

/-! ## Directories -/

section

variable (disk : Disk) (rooted : Bool) (stack : List (List Char))

theorem readDir_ascending : ((readDir disk rooted stack).map DirEntry.name).Pairwise (· < ·) := by
  have hsorted : ((readDir disk rooted stack).map DirEntry.name).Pairwise (· ≤ ·) := by
    rw [List.pairwise_map]
    exact List.pairwise_insertionSort _ _
  have hnodup : ((readDir disk rooted stack).map DirEntry.name).Nodup := by
    unfold readDir
    rw [((List.perm_insertionSort _ _).map DirEntry.name).nodup_iff, List.map_map]
    have hnames : ((disk.children rooted stack).map Prod.fst).map String.ofList =
        (disk.children rooted stack).map (DirEntry.name ∘ fun c =>
          (⟨String.ofList c.1, c.2.isDirectory⟩ : DirEntry)) := List.map_map
    rw [← hnames]
    exact (disk.nodup_children rooted stack).map fun _ _ h => String.ofList_injective h
  exact (hsorted.and hnodup).imp fun h => lt_of_le_of_ne h.1 h.2

def fileNames : List String :=
  ((readDir disk rooted stack).filter fun e => !e.isDir).map DirEntry.name

theorem fileNames_ascending : (fileNames disk rooted stack).Pairwise (· < ·) :=
  (readDir_ascending disk rooted stack).sublist (List.filter_sublist.map _)

def dirOf (label : String) : Dir :=
  ⟨label, fileNames disk rooted stack, fileNames_ascending disk rooted stack⟩

theorem mem_readDir {e : DirEntry} : e ∈ readDir disk rooted stack ↔
    ∃ (p : Place) (n : Node), p.rooted = rooted ∧ p.stack = e.name.toList :: stack ∧
      disk.find p = some n ∧ n.isDirectory = e.isDir := by
  unfold readDir
  rw [List.mem_insertionSort, List.mem_map]
  constructor
  · rintro ⟨⟨name, n⟩, hmem, rfl⟩
    obtain ⟨p, hrooted, hstack, hfind⟩ := Disk.mem_children.mp hmem
    exact ⟨p, n, hrooted, by rw [hstack, String.toList_ofList], hfind, rfl⟩
  · rintro ⟨p, n, hrooted, hstack, hfind, hdir⟩
    refine ⟨(e.name.toList, n), Disk.mem_children.mpr ⟨p, hrooted, hstack, hfind⟩, ?_⟩
    rw [hdir, String.ofList_toList]

variable {disk rooted stack}

theorem mem_fileNames {name : String} : name ∈ fileNames disk rooted stack ↔
    ∃ (p : Place) (c : List Char), p.rooted = rooted ∧ p.stack = name.toList :: stack ∧
      disk.find p = some (.file c) := by
  unfold fileNames
  simp only [List.mem_map, List.mem_filter, Bool.not_eq_true', mem_readDir]
  constructor
  · rintro ⟨e, ⟨⟨p, n, hrooted, hstack, hfind, hnode⟩, hdir⟩, rfl⟩
    cases n with
    | directory =>
      rw [hdir] at hnode
      cases hnode
    | file c => exact ⟨p, c, hrooted, hstack, hfind⟩
  · rintro ⟨p, c, hrooted, hstack, hfind⟩
    exact ⟨⟨name, false⟩, ⟨⟨p, .file c, hrooted, hstack, hfind, rfl⟩, rfl⟩, rfl⟩

theorem mem_versions {v : String} : v ∈ listVersionDirs (readDir disk rooted stack) ↔
    ∃ p : Place, p.rooted = rooted ∧ p.stack = v.toList :: stack ∧
      disk.find p = some .directory := by
  rw [mem_listVersionDirs]
  constructor
  · rintro ⟨e, he, hdir, rfl⟩
    obtain ⟨p, n, hrooted, hstack, hfind, hnode⟩ := (mem_readDir _ _ _).mp he
    cases n with
    | directory => exact ⟨p, hrooted, hstack, hfind⟩
    | file c =>
      rw [hdir] at hnode
      cases hnode
  · rintro ⟨p, hrooted, hstack, hfind⟩
    refine ⟨⟨v, true⟩, (mem_readDir _ _ _).mpr ?_, rfl, rfl⟩
    exact ⟨p, .directory, hrooted, hstack, hfind, rfl⟩

theorem lt_of_mem_versions {v : String} (h : v ∈ listVersionDirs (readDir disk rooted stack)) :
    "" < v := by
  obtain ⟨p, -, hstack, -⟩ := mem_versions.mp h
  have hreduced := p.reduced
  rw [hstack] at hreduced
  rw [String.lt_iff_toList_lt]
  cases hv : v.toList with
  | nil => exact absurd hv hreduced.2.2.1
  | cons c cs => exact List.nil_lt_cons c cs

end

/-! ## Trees -/

/-- The directory of a category: its own files, and those of its version directories. -/
def treeOf (disk : Disk) (rooted : Bool) (stack : List (List Char)) : Tree where
  root := dirOf disk rooted stack ""
  versions := (listVersionDirs (readDir disk rooted stack)).map fun v =>
    dirOf disk rooted (v.toList :: stack) v
  root_label := rfl
  sorted := by
    have hlabels : (dirOf disk rooted stack "" ::
        (listVersionDirs (readDir disk rooted stack)).map fun v =>
          dirOf disk rooted (v.toList :: stack) v).map Dir.label =
        "" :: listVersionDirs (readDir disk rooted stack) := by
      rw [List.map_cons, List.map_map]
      exact congrArg (List.cons "") (List.map_id' _)
    rw [hlabels, List.pairwise_cons]
    refine ⟨fun v hv => lt_of_mem_versions hv, listVersionDirs_ascending ?_⟩
    exact (readDir_ascending disk rooted stack).imp fun h => h.ne

theorem plain_category (cat : MigrationCategory) : Plain cat.name.toList := by
  cases cat with
  | game => exact ⟨by decide, by decide, by decide, by decide⟩
  | shard => exact ⟨by decide, by decide, by decide, by decide⟩

def categoryAt (base : List Char) (cat : MigrationCategory) : Place :=
  (Place.of base).child cat.name.toList (plain_category cat)

/-- `WalkMigrationFiles` over a directory of migrations on the disk. -/
def walkDisk (cat : MigrationCategory) (base : List Char) (disk : Disk) :
    Except GoError (List MigrationFile) :=
  let root := categoryAt base cat
  if disk.find root = some .directory then
    walkMigrationFiles cat (treeOf disk root.rooted root.stack)
  else .error (.external ("open " ++ cat.name ++ ": no such file or directory"))

/-- A name that the walker comes to: in the directory of the category or one below it. -/
def Walked (root p : Place) (name : String) : Prop :=
  p.rooted = root.rooted ∧
    (p.stack = name.toList :: root.stack ∨ ∃ d, p.stack = name.toList :: d :: root.stack)

def Numbered (disk : Disk) (root : Place) : Prop :=
  ∀ p c name, disk.find p = some (.file c) → Walked root p name → isSQL name = true →
    ∃ vid, parseVersionID name = some vid

section

variable {disk : Disk} {cat : MigrationCategory} {base : List Char}

theorem mem_versions_of_file {p root : Place} {name d c : List Char}
    (hfind : disk.find p = some (.file c)) (hrooted : p.rooted = root.rooted)
    (hstack : p.stack = name :: d :: root.stack) :
    String.ofList d ∈ listVersionDirs (readDir disk root.rooted root.stack) := by
  obtain ⟨q, hqrooted, hqstack, hq⟩ := Disk.exists_parent hfind hstack
  refine mem_versions.mpr ⟨q, hqrooted.trans hrooted, ?_, hq⟩
  rw [hqstack, String.toList_ofList]

theorem exists_walkDisk_iff (hroot : disk.find (categoryAt base cat) = some .directory) :
    (∃ files, walkDisk cat base disk = .ok files) ↔ Numbered disk (categoryAt base cat) := by
  unfold walkDisk
  dsimp only
  rw [if_pos hroot]
  generalize categoryAt base cat = root
  unfold walkMigrationFiles
  rw [exists_walkDirs, Tree.dirs, List.forall_mem_cons]
  unfold treeOf
  dsimp only
  rw [List.forall_mem_map]
  constructor
  · rintro ⟨hown, hbelow⟩ p c name hfind ⟨hrooted, hstack⟩ hsql
    rcases hstack with hstack | ⟨d, hstack⟩
    · exact hown name (mem_fileNames.mpr ⟨p, c, hrooted, hstack, hfind⟩) hsql
    · refine hbelow _ (mem_versions_of_file hfind hrooted hstack) name ?_ hsql
      refine mem_fileNames.mpr ⟨p, c, hrooted, ?_, hfind⟩
      rw [hstack, String.toList_ofList]
  · intro h
    constructor
    · intro name hname hsql
      obtain ⟨p, c, hrooted, hstack, hfind⟩ := mem_fileNames.mp hname
      exact h p c name hfind ⟨hrooted, Or.inl hstack⟩ hsql
    · intro v _ name hname hsql
      obtain ⟨p, c, hrooted, hstack, hfind⟩ := mem_fileNames.mp hname
      exact h p c name hfind ⟨hrooted, Or.inr ⟨_, hstack⟩⟩ hsql

theorem mem_walkDisk {files : List MigrationFile} (h : walkDisk cat base disk = .ok files)
    {p : Place} {c : List Char} {f : MigrationFile} (hfind : disk.find p = some (.file c))
    (hrooted : p.rooted = (categoryAt base cat).rooted)
    (hstack : p.stack = f.filename.toList :: f.version.toList :: (categoryAt base cat).stack)
    (hsql : isSQL f.filename = true) (hvid : parseVersionID f.filename = some f.versionID) :
    f ∈ files := by
  unfold walkDisk at h
  dsimp only at h
  generalize categoryAt base cat = root at *
  split_ifs at h
  have hversion := mem_versions_of_file hfind hrooted hstack
  rw [String.ofList_toList] at hversion
  refine (mem_walkDirs h f).mpr ⟨_, List.mem_cons_of_mem _ (List.mem_map_of_mem hversion), ?_⟩
  exact ⟨rfl, mem_fileNames.mpr ⟨p, c, hrooted, hstack, hfind⟩, hsql, hvid⟩

end

end FutureWas.Migrations
