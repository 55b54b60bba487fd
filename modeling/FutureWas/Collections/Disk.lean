import FutureWas.Collections.Paths
import Mathlib.Data.List.AList

/-!
# Disks

A disk has directories and files at places, which are paths without redundant components. The
roots are directories, and so is the parent of everything on the disk. Links are left out.
-/

set_option autoImplicit false

open Collections.Path

namespace Collections

/-- Where a path leads: its components, the last one first. -/
@[ext]
structure Place where
  rooted : Bool
  stack : List (List Char)
  reduced : Reduced rooted stack
  deriving DecidableEq

namespace Place

def of (path : List Char) : Place := ⟨isRooted path, stackOf path, reduced_stackOf path⟩

def path (p : Place) : List Char := render p.rooted p.stack.reverse

def parent : Place → Option Place
  | ⟨_, [], _⟩ => none
  | ⟨rooted, _ :: stack, h⟩ => some ⟨rooted, stack, h.1⟩

def child (p : Place) (name : List Char) (h : Plain name) : Place :=
  ⟨p.rooted, name :: p.stack, p.reduced, h.no_separator, h.ne_nil, h.ne_dot,
    fun heq => absurd heq h.ne_dots⟩

end Place

inductive Node
  | directory
  | file (content : List Char)
  deriving DecidableEq

def Node.isDirectory : Node → Bool
  | directory => true
  | file _ => false

def nodeAt (nodes : AList fun _ : Place => Node) (p : Place) : Option Node :=
  if p.stack = [] then some .directory else nodes.lookup p

structure Disk where
  nodes : AList fun _ : Place => Node
  closed : ∀ p ∈ nodes, ∀ q ∈ p.parent, nodeAt nodes q = some .directory

namespace Disk

def empty : Disk := ⟨∅, fun p h => absurd h (AList.notMem_empty p)⟩

def find (disk : Disk) (p : Place) : Option Node := nodeAt disk.nodes p

def Reaches (disk : Disk) (p : Place) : Prop := ∀ q ∈ p.parent, disk.find q = some .directory

instance (disk : Disk) (p : Place) : Decidable (disk.Reaches p) :=
  inferInstanceAs (Decidable (∀ q ∈ p.parent, _))

theorem nodeAt_insert {nodes : AList fun _ : Place => Node} {p : Place} {n : Node}
    (hdir : nodeAt nodes p = some .directory → n = .directory) (q : Place) :
    nodeAt (nodes.insert p n) q = if q = p then some n else nodeAt nodes q := by
  unfold nodeAt at hdir ⊢
  split_ifs with hroot heq heq
  · rw [← heq, if_pos hroot] at hdir
    rw [hdir rfl]
  · rfl
  · rw [heq, AList.lookup_insert]
  · rw [AList.lookup_insert_ne heq]

/-- Something put at a place; a directory stays one. -/
def put (disk : Disk) (p : Place) (n : Node) (hreach : disk.Reaches p)
    (hdir : disk.find p = some .directory → n = .directory) : Disk where
  nodes := disk.nodes.insert p n
  closed := by
    intro q hq r hr
    have hold : nodeAt disk.nodes r = some .directory := by
      rcases (AList.mem_insert _).mp hq with rfl | hq
      · exact hreach r hr
      · exact disk.closed q hq r hr
    rw [nodeAt_insert hdir]
    split_ifs with heq
    · rw [hdir (heq ▸ hold)]
    · exact hold

theorem find_put {disk : Disk} {p : Place} {n : Node} (hreach : disk.Reaches p)
    (hdir : disk.find p = some .directory → n = .directory) (q : Place) :
    (disk.put p n hreach hdir).find q = if q = p then some n else disk.find q :=
  nodeAt_insert hdir q

theorem find_of_stack_eq_nil (disk : Disk) {p : Place} (h : p.stack = []) :
    disk.find p = some .directory :=
  if_pos h

theorem reaches_of_find {disk : Disk} {p : Place} {n : Node} (h : disk.find p = some n) :
    disk.Reaches p := by
  intro q hq
  have hne : ¬ p.stack = [] := by
    obtain ⟨rooted, stack, hreduced⟩ := p
    rintro rfl
    cases hq
  have hlookup : disk.nodes.lookup p = some n := by
    rw [← h]
    exact (if_neg hne).symm
  exact disk.closed p (AList.lookup_isSome.mp (hlookup ▸ rfl)) q hq

theorem exists_parent {disk : Disk} {p : Place} {n : Node} (h : disk.find p = some n)
    {name : List Char} {stack : List (List Char)} (hstack : p.stack = name :: stack) :
    ∃ q : Place, q.rooted = p.rooted ∧ q.stack = stack ∧ disk.find q = some .directory := by
  obtain ⟨rooted, stack', hreduced⟩ := p
  cases hstack
  exact ⟨⟨rooted, stack, hreduced.1⟩, rfl, rfl, reaches_of_find h _ rfl⟩

/-! ## Directories -/

/-- `os.Mkdir`, where a directory may be there already. The place named is the one in the way. -/
def makeDir (disk : Disk) (p : Place) : Except Place Disk :=
  match disk.find p with
  | some .directory => .ok disk
  | some (.file _) => .error p
  | none =>
    if hreach : disk.Reaches p then
      .ok (disk.put p .directory hreach fun _ => rfl)
    else .error p

def makeAllFrom (rooted : Bool) : (stack : List (List Char)) → Reduced rooted stack → Disk →
    Except Place Disk
  | [], _, disk => .ok disk
  | name :: stack, h, disk => do
    let made ← makeAllFrom rooted stack h.1 disk
    made.makeDir ⟨rooted, name :: stack, h⟩

/-- `os.MkdirAll`. -/
def makeAll (disk : Disk) (p : Place) : Except Place Disk :=
  makeAllFrom p.rooted p.stack p.reduced disk

structure Extends (disk made : Disk) (p : Place) : Prop where
  kept : ∀ q n, disk.find q = some n → made.find q = some n
  fresh : ∀ q n, made.find q = some n → disk.find q = some n ∨
    n = .directory ∧ q.rooted = p.rooted ∧ q.stack <:+ p.stack
  directory : made.find p = some .directory

theorem extends_of_makeDir {disk made : Disk} {p : Place} (h : disk.makeDir p = .ok made) :
    Extends disk made p := by
  unfold makeDir at h
  split at h
  · next hfind =>
    cases h
    exact ⟨fun _ _ hq => hq, fun _ _ hq => Or.inl hq, hfind⟩
  · cases h
  · next hfind =>
    split_ifs at h with hreach
    cases h
    constructor
    · intro q n hq
      rw [find_put]
      split_ifs with heq
      · rw [heq, hfind] at hq
        cases hq
      · exact hq
    · intro q n hq
      rw [find_put] at hq
      split_ifs at hq with heq
      · cases hq
        exact Or.inr ⟨rfl, heq ▸ rfl, heq ▸ List.suffix_rfl⟩
      · exact Or.inl hq
    · rw [find_put, if_pos rfl]

theorem extends_of_makeAllFrom {rooted : Bool} {stack : List (List Char)}
    (hreduced : Reduced rooted stack) {disk made : Disk}
    (h : makeAllFrom rooted stack hreduced disk = .ok made) :
    Extends disk made ⟨rooted, stack, hreduced⟩ := by
  induction stack generalizing made with
  | nil =>
    cases h
    exact ⟨fun _ _ hq => hq, fun _ _ hq => Or.inl hq, find_of_stack_eq_nil disk rfl⟩
  | cons name stack ih =>
    cases hparent : makeAllFrom rooted stack hreduced.1 disk with
    | error p =>
      rw [makeAllFrom, hparent] at h
      cases h
    | ok parent =>
      rw [makeAllFrom, hparent] at h
      have hbelow := ih hreduced.1 hparent
      have hstep := extends_of_makeDir h
      refine ⟨fun q n hq => hstep.kept q n (hbelow.kept q n hq), ?_, hstep.directory⟩
      intro q n hq
      rcases hstep.fresh q n hq with hq | hq
      · refine (hbelow.fresh q n hq).imp_right fun ⟨hdir, hrooted, hsuffix⟩ => ?_
        exact ⟨hdir, hrooted, hsuffix.trans (List.suffix_cons name stack)⟩
      · exact Or.inr hq

theorem extends_of_makeAll {disk made : Disk} {p : Place} (h : disk.makeAll p = .ok made) :
    Extends disk made p :=
  extends_of_makeAllFrom p.reduced h

/-! ## Files -/

/-- `os.WriteFile`. -/
def write (disk : Disk) (p : Place) (content : List Char) : Option Disk :=
  if h : disk.Reaches p ∧ disk.find p ≠ some .directory then
    some (disk.put p (.file content) h.1 fun hdir => absurd hdir h.2)
  else none

theorem find_of_write {disk written : Disk} {p : Place} {content : List Char}
    (h : disk.write p content = some written) (q : Place) :
    written.find q = if q = p then some (.file content) else disk.find q := by
  unfold write at h
  split_ifs at h with hwrite
  cases h
  exact find_put hwrite.1 _ q

/-! ## Listings -/

def nameIn (rooted : Bool) (stack : List (List Char)) (p : Place) : Option (List Char) :=
  match p.stack with
  | [] => none
  | name :: rest => if p.rooted = rooted ∧ rest = stack then some name else none

def children (disk : Disk) (rooted : Bool) (stack : List (List Char)) :
    List (List Char × Node) :=
  disk.nodes.entries.filterMap fun e => (nameIn rooted stack e.1).map fun name => (name, e.2)

theorem nameIn_eq_some {rooted : Bool} {stack : List (List Char)} {p : Place}
    {name : List Char} :
    nameIn rooted stack p = some name ↔ p.rooted = rooted ∧ p.stack = name :: stack := by
  unfold nameIn
  cases p.stack with
  | nil => simp
  | cons d rest =>
    dsimp only
    split_ifs with h
    · rw [h.2, Option.some_inj, List.cons.injEq]
      exact ⟨fun hname => ⟨h.1, hname, rfl⟩, fun hname => hname.2.1⟩
    · refine iff_of_false nofun fun hname => h ⟨hname.1, ?_⟩
      exact (List.cons.inj hname.2).2

theorem mem_children {disk : Disk} {rooted : Bool} {stack : List (List Char)} {name : List Char}
    {n : Node} : (name, n) ∈ disk.children rooted stack ↔
      ∃ p : Place, p.rooted = rooted ∧ p.stack = name :: stack ∧ disk.find p = some n := by
  have hfind : ∀ p : Place, p.stack = name :: stack → disk.find p = disk.nodes.lookup p :=
    fun p hp => if_neg (by rw [hp]; exact List.cons_ne_nil _ _)
  unfold children
  rw [List.mem_filterMap]
  constructor
  · rintro ⟨⟨p, m⟩, hmem, hname⟩
    obtain ⟨name', hname', heq⟩ := Option.map_eq_some_iff.mp hname
    cases heq
    obtain ⟨hrooted, hstack⟩ := nameIn_eq_some.mp hname'
    refine ⟨p, hrooted, hstack, ?_⟩
    rw [hfind p hstack]
    exact AList.mem_lookup_iff.mpr hmem
  · rintro ⟨p, hrooted, hstack, hp⟩
    rw [hfind p hstack] at hp
    refine ⟨⟨p, n⟩, AList.mem_lookup_iff.mp hp, ?_⟩
    rw [nameIn_eq_some.mpr ⟨hrooted, hstack⟩]
    rfl

theorem nodup_children (disk : Disk) (rooted : Bool) (stack : List (List Char)) :
    ((disk.children rooted stack).map Prod.fst).Nodup := by
  have hnames : (disk.children rooted stack).map Prod.fst =
      disk.nodes.keys.filterMap (nameIn rooted stack) := by
    unfold children AList.keys List.keys
    rw [List.map_filterMap, List.filterMap_map]
    refine List.filterMap_congr fun e _ => ?_
    rw [Option.map_map]
    exact Option.map_id'
  rw [hnames]
  refine disk.nodes.keys_nodup.filterMap fun p q name hp hq => ?_
  obtain ⟨hprooted, hpstack⟩ := nameIn_eq_some.mp hp
  obtain ⟨hqrooted, hqstack⟩ := nameIn_eq_some.mp hq
  exact Place.ext (hprooted.trans hqrooted.symm) (hpstack.trans hqstack.symm)

end Disk

end Collections
