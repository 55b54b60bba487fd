import Mathlib.Data.List.Basic

/-!
# Paths

`filepath.Clean` and `filepath.Join` on a path with `/` between its components. The stack of
components that `Clean` builds stays reduced (`Reduced`), and a reduced stack, rendered and
read again, is the same stack; so joining to a joined path adds one component.
-/

set_option autoImplicit false

namespace Collections.Path

def addComponent (rooted : Bool) (stack : List (List Char)) (c : List Char) :
    List (List Char) :=
  if c = [] ∨ c = ['.'] then stack
  else if c = ['.', '.'] then
    match stack with
    | [] => if rooted then [] else [c]
    | top :: rest => if top = ['.', '.'] then c :: stack else rest
  else c :: stack

def isRooted (path : List Char) : Bool := path.head? = some '/'

def components (path : List Char) : List (List Char) :=
  ((path.splitOn '/').foldl (addComponent (isRooted path)) []).reverse

def render (rooted : Bool) (cs : List (List Char)) : List Char :=
  if ¬ rooted ∧ cs = [] then ['.']
  else (if rooted then ['/'] else []) ++ ['/'].intercalate cs

/-- `filepath.Clean`. -/
def clean (path : List Char) : List Char := render (isRooted path) (components path)

/-- `filepath.Join`: empty elements are left out. -/
def join (elems : List (List Char)) : List Char :=
  let elems := elems.filter (· ≠ [])
  if elems = [] then [] else clean (['/'].intercalate elems)

/-- A stack of components that `addComponent` builds. -/
def Reduced (rooted : Bool) : List (List Char) → Prop
  | [] => True
  | c :: rest => Reduced rooted rest ∧ '/' ∉ c ∧ c ≠ [] ∧ c ≠ ['.'] ∧
      (c = ['.', '.'] → rooted = false ∧ (rest = [] ∨ rest.head? = some ['.', '.']))

structure Plain (c : List Char) : Prop where
  no_separator : '/' ∉ c
  ne_nil : c ≠ []
  ne_dot : c ≠ ['.']
  ne_dots : c ≠ ['.', '.']

section

variable {rooted : Bool} {stack : List (List Char)}

theorem add_skip {c : List Char} (hc : c = [] ∨ c = ['.']) :
    addComponent rooted stack c = stack := if_pos hc

theorem add_dots_cons (top : List Char) (rest : List (List Char)) :
    addComponent rooted (top :: rest) ['.', '.'] =
      if top = ['.', '.'] then ['.', '.'] :: top :: rest else rest := rfl

theorem add_plain {c : List Char} (hempty : ¬ (c = [] ∨ c = ['.'])) (hdots : c ≠ ['.', '.']) :
    addComponent rooted stack c = c :: stack := by
  unfold addComponent
  rw [if_neg hempty, if_neg hdots]

theorem reduced_add (h : Reduced rooted stack) {c : List Char} (hc : '/' ∉ c) :
    Reduced rooted (addComponent rooted stack c) := by
  by_cases hempty : c = [] ∨ c = ['.']
  · rwa [add_skip hempty]
  · have hne := not_or.mp hempty
    by_cases hdots : c = ['.', '.']
    · subst hdots
      cases stack with
      | nil =>
        cases rooted with
        | true => trivial
        | false => exact ⟨trivial, hc, hne.1, hne.2, fun _ => ⟨rfl, Or.inl rfl⟩⟩
      | cons top rest =>
        rw [add_dots_cons]
        split_ifs with htop
        · refine ⟨h, hc, hne.1, hne.2, fun _ => ⟨(h.2.2.2.2 htop).1, Or.inr ?_⟩⟩
          rw [htop]
          rfl
        · exact h.1
    · rw [add_plain hempty hdots]
      exact ⟨h, hc, hne.1, hne.2, fun heq => absurd heq hdots⟩

theorem reduced_foldl {cs : List (List Char)} (h : Reduced rooted stack)
    (hcs : ∀ c ∈ cs, '/' ∉ c) : Reduced rooted (cs.foldl (addComponent rooted) stack) := by
  induction cs generalizing stack with
  | nil => exact h
  | cons c cs ih =>
    obtain ⟨hc, hcs⟩ := List.forall_mem_cons.mp hcs
    exact ih (reduced_add h hc) hcs

theorem foldl_reverse (h : Reduced rooted stack) :
    stack.reverse.foldl (addComponent rooted) [] = stack := by
  induction stack with
  | nil => rfl
  | cons c rest ih =>
    obtain ⟨hrest, -, hne, hdot, hdots⟩ := h
    rw [List.reverse_cons, List.foldl_append, ih hrest, List.foldl_cons, List.foldl_nil]
    by_cases heq : c = ['.', '.']
    · obtain ⟨rfl, hbelow⟩ := hdots heq
      subst heq
      cases rest with
      | nil => rfl
      | cons top rest =>
        have htop : top = ['.', '.'] := by simpa using hbelow
        rw [add_dots_cons, if_pos htop]
    · exact add_plain (not_or.mpr ⟨hne, hdot⟩) heq

theorem mem_reduced (h : Reduced rooted stack) : ∀ c ∈ stack, '/' ∉ c ∧ c ≠ [] := by
  induction stack with
  | nil => simp
  | cons c rest ih => exact List.forall_mem_cons.mpr ⟨⟨h.2.1, h.2.2.1⟩, ih h.1⟩

theorem foldl_plain {cs : List (List Char)} (hcs : ∀ c ∈ cs, Plain c) :
    cs.foldl (addComponent rooted) stack = cs.reverse ++ stack := by
  induction cs generalizing stack with
  | nil => rfl
  | cons c cs ih =>
    obtain ⟨hc, hcs⟩ := List.forall_mem_cons.mp hcs
    rw [List.foldl_cons, add_plain (not_or.mpr ⟨hc.ne_nil, hc.ne_dot⟩) hc.ne_dots, ih hcs,
      List.reverse_cons, List.append_assoc]
    rfl

end

theorem notMem_of_mem_splitOn {sep : Char} {path c : List Char} (h : c ∈ path.splitOn sep) :
    sep ∉ c := by
  induction path generalizing c with
  | nil =>
    rw [List.splitOn_nil, List.mem_singleton] at h
    rw [h]
    exact List.not_mem_nil
  | cons d path ih =>
    rw [List.splitOn_cons_eq_if_modifyHead] at h
    split_ifs at h with hsep
    · rcases List.mem_cons.mp h with rfl | h
      · exact List.not_mem_nil
      · exact ih h
    · cases hsplit : path.splitOn sep with
      | nil => exact absurd hsplit (List.splitOn_ne_nil sep path)
      | cons first rest =>
        rw [hsplit] at h ih
        rcases List.mem_cons.mp h with rfl | h
        · rw [List.mem_cons, not_or]
          exact ⟨fun heq => hsep (by rw [heq]; exact beq_self_eq_true d), ih List.mem_cons_self⟩
        · exact ih (List.mem_cons_of_mem _ h)

def stackOf (path : List Char) : List (List Char) :=
  (path.splitOn '/').foldl (addComponent (isRooted path)) []

theorem components_eq (path : List Char) : components path = (stackOf path).reverse := rfl

theorem reduced_stackOf (path : List Char) : Reduced (isRooted path) (stackOf path) :=
  reduced_foldl trivial fun _ hc => notMem_of_mem_splitOn hc

theorem isRooted_append {path rest : List Char} (h : path ≠ []) :
    isRooted (path ++ rest) = isRooted path := by
  cases path with
  | nil => exact absurd rfl h
  | cons c path => rfl

theorem stackOf_append {path : List Char} (h : path ≠ []) {cs : List (List Char)}
    (hcs : ∀ c ∈ cs, Plain c) (hne : cs ≠ []) :
    stackOf (path ++ '/' :: ['/'].intercalate cs) = cs.reverse ++ stackOf path := by
  have hsplit : (['/'].intercalate cs).splitOn '/' = cs :=
    List.splitOn_intercalate '/' (fun c hc => (hcs c hc).no_separator) hne
  unfold stackOf
  rw [isRooted_append h, List.splitOn_append_cons_self, List.foldl_append, hsplit,
    foldl_plain hcs]

section

variable {rooted : Bool} {stack : List (List Char)}

theorem isRooted_intercalate (h : Reduced rooted stack) (hne : stack ≠ []) :
    isRooted (['/'].intercalate stack.reverse) = false := by
  cases hrev : stack.reverse with
  | nil => exact absurd (List.reverse_eq_nil_iff.mp hrev) hne
  | cons c rest =>
    have hmem : c ∈ stack := by
      rw [← List.mem_reverse, hrev]
      exact List.mem_cons_self
    obtain ⟨hsep, hc⟩ := mem_reduced h c hmem
    cases c with
    | nil => exact absurd rfl hc
    | cons d c =>
      have hd : d ≠ '/' := fun heq => hsep (heq ▸ List.mem_cons_self)
      cases rest <;> simp [isRooted, List.intercalate, hd]

theorem isRooted_render (h : Reduced rooted stack) (hne : stack ≠ []) :
    isRooted (render rooted stack.reverse) = rooted := by
  unfold render
  rw [if_neg (by simp [hne])]
  cases rooted with
  | true => rfl
  | false => exact isRooted_intercalate h hne

theorem stackOf_render (h : Reduced rooted stack) (hne : stack ≠ []) :
    stackOf (render rooted stack.reverse) = stack := by
  have hsplit : (['/'].intercalate stack.reverse).splitOn '/' = stack.reverse :=
    List.splitOn_intercalate '/'
      (fun c hc => (mem_reduced h c (List.mem_reverse.mp hc)).1) (by simp [hne])
  unfold stackOf
  rw [isRooted_render h hne]
  unfold render
  rw [if_neg (by simp [hne])]
  cases rooted with
  | true =>
    have hsep : (['/'] ++ ['/'].intercalate stack.reverse).splitOn '/' =
        [] :: (['/'].intercalate stack.reverse).splitOn '/' :=
      List.splitOn_append_cons_self [] _
    rw [hsplit] at hsep
    simp only [↓reduceIte, hsep, List.foldl_cons, add_skip (Or.inl rfl)]
    exact foldl_reverse h
  | false =>
    simp only [Bool.false_eq_true, ↓reduceIte, List.nil_append, hsplit]
    exact foldl_reverse h

end

section

variable {cs : List (List Char)}

theorem reduced_plain {rooted : Bool} {stack : List (List Char)} (h : Reduced rooted stack)
    (hcs : ∀ c ∈ cs, Plain c) : Reduced rooted (cs.reverse ++ stack) := by
  rw [← foldl_plain hcs]
  exact reduced_foldl h fun c hc => (hcs c hc).no_separator

/-- `Join` of a path and plain names adds the names to the components of the path. -/
theorem join_plain (path : List Char) (hcs : ∀ c ∈ cs, Plain c) (hne : cs ≠ []) :
    join (path :: cs) = render (isRooted path) (components path ++ cs) := by
  have hfilter : cs.filter (· ≠ []) = cs :=
    List.filter_eq_self.mpr fun c hc => decide_eq_true (hcs c hc).ne_nil
  unfold join
  by_cases hpath : path = []
  · subst hpath
    have hsplit : (['/'].intercalate cs).splitOn '/' = cs :=
      List.splitOn_intercalate '/' (fun c hc => (hcs c hc).no_separator) hne
    have hreduced : Reduced false cs.reverse := by
      have hempty : Reduced false [] := trivial
      simpa using reduced_plain hempty hcs
    have hrooted := isRooted_intercalate hreduced (by simp [hne])
    rw [List.reverse_reverse] at hrooted
    rw [List.filter_cons_of_neg (by simp), hfilter, if_neg hne, clean, components_eq, stackOf,
      hsplit, foldl_plain hcs, hrooted]
    simp [components, isRooted, addComponent]
  · rw [List.filter_cons_of_pos (by simpa using hpath), hfilter, if_neg (List.cons_ne_nil _ _)]
    have hjoined : ['/'].intercalate (path :: cs) = path ++ '/' :: ['/'].intercalate cs := by
      cases cs with
      | nil => exact absurd rfl hne
      | cons c cs => simp [List.intercalate]
    rw [hjoined, clean, components_eq, stackOf_append hpath hcs hne, isRooted_append hpath,
      List.reverse_append, List.reverse_reverse, components_eq]

theorem join_join (path : List Char) (hcs : ∀ c ∈ cs, Plain c) (hne : cs ≠ []) {name : List Char}
    (hname : Plain name) :
    join [join (path :: cs), name] =
      render (isRooted path) (components path ++ (cs ++ [name])) := by
  have hreduced := reduced_plain (reduced_stackOf path) hcs
  have hnonempty : cs.reverse ++ stackOf path ≠ [] := by simp [hne]
  have hrev : (cs.reverse ++ stackOf path).reverse = components path ++ cs := by
    rw [List.reverse_append, List.reverse_reverse, components_eq]
  have hdir := join_plain path hcs hne
  rw [← hrev] at hdir
  rw [join_plain _ (by simpa using hname) (List.cons_ne_nil _ _), hdir,
    isRooted_render hreduced hnonempty, components_eq, stackOf_render hreduced hnonempty, hrev,
    List.append_assoc]

end

end Collections.Path
