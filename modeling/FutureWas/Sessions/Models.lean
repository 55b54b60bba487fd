import FutureWas.Tenancy

/-!
# Stored models and their rows

A unit of work stores models by pointer; a model stands for a row of its table or waits for
its `INSERT`. `Lists` says so of all stored models of one kind together with the statements
queued for them. A transaction runs the statements, which brings the rows up to the models.
-/

set_option autoImplicit false

namespace FutureWas.Sessions

/-! ## Models and rows -/

def inserts (e : EntityKind) (X : List Stmt) : List Ref :=
  X.filterMap fun
    | .insert e' r => if e' = e then some r else none
    | .update _ _ => none

/-- A model has the key of its row, and is equal to it unless its `UPDATE` is queued or it has
been assigned to (`T`). -/
def Shows {e : EntityKind} (T : Ref → Prop) (X : List Stmt) (h : Heap) (r : Ref) (row : Row e) :
    Prop :=
  (h.cell e r).primaryKey = row.primaryKey ∧ (.update e r ∉ X → ¬ T r → h.cell e r = row)

/-- The stored models `rs` of a kind, the statements `X` queued for them and the rows of the
table that are in `mine`. The rows in `hidden` have no model. -/
structure Lists (e : EntityKind) (mine : Row e → Bool) (T : Ref → Prop) (hidden : List (Row e))
    (X : List Stmt) (rs : List Ref) (h : Heap) (table : List (Row e)) : Prop where
  keys : (table.map Row.primaryKey).Nodup
  nodup : rs.Nodup
  lt : ∀ r ∈ rs, r < h.next
  refs : ∀ s ∈ X, s.kind = e ∧ s.ref ∈ rs
  first : X.Pairwise fun s s' => s' = .insert e s'.ref → s.ref ≠ s'.ref
  owned : ∀ r ∈ rs, mine (h.cell e r) = true
  shows : ∃ (held : List Ref) (row : Ref → Row e), rs.Perm (held ++ inserts e X) ∧
    (held.map row ++ hidden).Perm (table.filter mine) ∧ ∀ r ∈ held, Shows T X h r (row r)

section

variable {e : EntityKind} {X Y : List Stmt} {r : Ref}

@[simp] theorem inserts_nil : inserts e [] = [] := rfl

@[simp] theorem inserts_insert : inserts e (.insert e r :: X) = r :: inserts e X := by
  simp [inserts]

@[simp] theorem inserts_update {e' : EntityKind} :
    inserts e (.update e' r :: X) = inserts e X := by
  simp [inserts]

@[simp] theorem inserts_append : inserts e (X ++ Y) = inserts e X ++ inserts e Y := by
  simp [inserts]

theorem mem_inserts : r ∈ inserts e X ↔ .insert e r ∈ X := by
  unfold inserts
  rw [List.mem_filterMap]
  constructor
  · intro h
    obtain ⟨s, hs, hr⟩ := h
    cases s with
    | insert e' r' =>
      dsimp only at hr
      split_ifs at hr with he
      cases hr
      rwa [he] at hs
    | update e' r' => cases hr
  · intro h
    exact ⟨_, h, by simp⟩

namespace Lists

variable {mine : Row e → Bool} {T T' : Ref → Prop} {hidden : List (Row e)} {rs : List Ref}
  {h h' : Heap} {table table' : List (Row e)}

theorem nodup_held (hl : Lists e mine T hidden X rs h table) {held : List Ref}
    (hperm : rs.Perm (held ++ inserts e X)) : (held ++ inserts e X).Nodup :=
  hperm.nodup_iff.mp hl.nodup

theorem empty (hkeys : (table.map Row.primaryKey).Nodup) :
    Lists e mine T (table.filter mine) [] [] h table where
  keys := hkeys
  nodup := List.nodup_nil
  lt := by simp
  refs := by simp
  first := List.Pairwise.nil
  owned := by simp
  shows := ⟨[], fun _ => Row.zero e, .refl _, .refl _, by simp⟩

theorem congr (hl : Lists e mine T hidden X rs h table) (hnext : h.next ≤ h'.next)
    (hcell : ∀ r ∈ rs, h'.cell e r = h.cell e r) (hkeys : (table'.map Row.primaryKey).Nodup)
    (hrows : table'.filter mine = table.filter mine) : Lists e mine T hidden X rs h' table' where
  keys := hkeys
  nodup := hl.nodup
  lt r hr := Nat.lt_of_lt_of_le (hl.lt r hr) hnext
  refs := hl.refs
  first := hl.first
  owned r hr := by
    rw [hcell r hr]
    exact hl.owned r hr
  shows := by
    obtain ⟨held, row, hperm, hsel, hshows⟩ := hl.shows
    refine ⟨held, row, hperm, by rwa [hrows], ?_⟩
    intro r hr
    have hmem : r ∈ rs := hperm.mem_iff.mpr (List.mem_append_left _ hr)
    unfold Shows
    rw [hcell r hmem]
    exact hshows r hr

theorem key_unique (hl : Lists e mine T hidden X rs h table) {m m' : Row e} (hm : m ∈ table)
    (hm' : m' ∈ table) (hkey : m.primaryKey = m'.primaryKey) : m = m' :=
  List.inj_on_of_nodup_map hl.keys hm hm' hkey

theorem ref_unique (hl : Lists e mine T hidden X rs h table) {held : List Ref} {row : Ref → Row e}
    (hsel : (held.map row ++ hidden).Perm (table.filter mine)) {r r' : Ref} (hr : r ∈ held)
    (hr' : r' ∈ held) (hkey : (row r).primaryKey = (row r').primaryKey) : r = r' := by
  have hnodup : ((held.map row ++ hidden).map Row.primaryKey).Nodup := by
    have hsub : ((table.filter mine).map Row.primaryKey).Sublist (table.map Row.primaryKey) :=
      List.filter_sublist.map _
    exact (hsel.map _).nodup_iff.mpr (hl.keys.sublist hsub)
  rw [List.map_append, List.map_map] at hnodup
  exact List.inj_on_of_nodup_map hnodup.of_append_left hr hr' hkey

theorem insert (hl : Lists e mine T hidden (.insert e r :: X) rs h table) {k : UInt64}
    (hfresh : ∀ m ∈ table, m.primaryKey ≠ k)
    (hmine : mine ((h.cell e r).setPrimaryKey k) = mine (h.cell e r)) :
    Lists e mine T hidden X rs (h.set e r ((h.cell e r).setPrimaryKey k))
      (table ++ [(h.cell e r).setPrimaryKey k]) := by
  have hr : r ∈ rs := (hl.refs _ List.mem_cons_self).2
  have hrow : mine ((h.cell e r).setPrimaryKey k) = true := hmine.trans (hl.owned r hr)
  refine ⟨?_, hl.nodup, hl.lt, fun s hs => hl.refs s (List.mem_cons_of_mem _ hs),
    hl.first.of_cons, ?_, ?_⟩
  · rw [List.map_append, List.nodup_append]
    refine ⟨hl.keys, List.nodup_singleton _, ?_⟩
    intro a ha b hb hab
    obtain ⟨m, hm, rfl⟩ := List.mem_map.mp ha
    rw [List.map_singleton, List.mem_singleton, Row.primaryKey_setPrimaryKey] at hb
    exact hfresh m hm (hab.trans hb)
  · intro r' hr'
    by_cases hrr : r' = r
    · rw [hrr, Heap.set_cell_self]
      exact hrow
    · rw [Heap.set_cell_of_ne _ _ hrr]
      exact hl.owned r' hr'
  · obtain ⟨held, row, hperm, hsel, hshows⟩ := hl.shows
    have hnodup := hl.nodup_held hperm
    rw [inserts_insert] at hperm hnodup
    have hnot : r ∉ held := by
      intro hmem
      exact (List.nodup_append.mp hnodup).2.2 r hmem r List.mem_cons_self rfl
    refine ⟨held ++ [r], Function.update row r ((h.cell e r).setPrimaryKey k), ?_, ?_, ?_⟩
    · simpa using hperm
    · have hold : held.map (Function.update row r ((h.cell e r).setPrimaryKey k)) =
          held.map row := by
        refine List.map_congr_left fun r' hr' => ?_
        have hne : r' ≠ r := fun heq => hnot (heq ▸ hr')
        rw [Function.update_of_ne hne]
      rw [List.map_append, hold, List.map_singleton, Function.update_self, List.filter_append,
        List.filter_singleton, hrow]
      have hswap : (held.map row ++ [(h.cell e r).setPrimaryKey k] ++ hidden).Perm
          (held.map row ++ hidden ++ [(h.cell e r).setPrimaryKey k]) := by
        rw [List.append_assoc, List.append_assoc]
        exact List.perm_append_comm.append_left _
      exact hswap.trans (hsel.append_right _)
    · intro r' hr'
      rcases List.mem_append.mp hr' with hr' | hr'
      · have hne : r' ≠ r := fun heq => hnot (heq ▸ hr')
        have hold := hshows r' hr'
        unfold Shows
        rw [Function.update_of_ne hne, Heap.set_cell_of_ne _ _ hne]
        refine ⟨hold.1, fun hupdate => hold.2 ?_⟩
        simpa using hupdate
      · rw [List.mem_singleton.mp hr']
        unfold Shows
        rw [Function.update_self, Heap.set_cell_self]
        exact ⟨rfl, fun _ _ => rfl⟩

theorem update (hl : Lists e mine T hidden (.update e r :: X) rs h table) :
    Lists e mine T hidden X rs h
      (table.map fun row =>
        if row.primaryKey = (h.cell e r).primaryKey then h.cell e r else row) := by
  have hr : r ∈ rs := (hl.refs _ List.mem_cons_self).2
  obtain ⟨held, row, hperm, hsel, hshows⟩ := hl.shows
  rw [inserts_update] at hperm
  have hheld : r ∈ held := by
    refine (List.mem_append.mp (hperm.mem_iff.mp hr)).resolve_right ?_
    intro hins
    have hfirst := (List.pairwise_cons.mp hl.first).1 _ (mem_inserts.mp hins)
    exact hfirst rfl rfl
  set g : Row e → Row e := fun row =>
    if row.primaryKey = (h.cell e r).primaryKey then h.cell e r else row with hg
  have hkeys : ∀ m, (g m).primaryKey = m.primaryKey := by
    intro m
    simp only [hg]
    split_ifs with hm
    · exact hm.symm
    · rfl
  have hrow : row r ∈ table.filter mine :=
    hsel.mem_iff.mp (List.mem_append_left _ (List.mem_map_of_mem hheld))
  have hkey : (h.cell e r).primaryKey = (row r).primaryKey := (hshows r hheld).1
  have hmine : ∀ m ∈ table, mine (g m) = mine m := by
    intro m hm
    simp only [hg]
    split_ifs with heq
    · have hsame : m = row r := hl.key_unique hm (List.mem_filter.mp hrow).1 (heq.trans hkey)
      rw [hl.owned r hr, hsame, (List.mem_filter.mp hrow).2]
    · rfl
  refine ⟨?_, hl.nodup, hl.lt, fun s hs => hl.refs s (List.mem_cons_of_mem _ hs),
    hl.first.of_cons, hl.owned, held, fun r' => g (row r'), hperm, ?_, ?_⟩
  · rw [List.map_map]
    have hcomp : Row.primaryKey ∘ g = Row.primaryKey := funext hkeys
    rw [hcomp]
    exact hl.keys
  · have hfilter : (table.map g).filter mine = (table.filter mine).map g := by
      rw [List.filter_map]
      congr 1
      exact List.filter_congr fun m hm => hmine m hm
    have hhidden : hidden.map g = hidden := by
      refine (List.map_congr_left fun m hm => ?_).trans (List.map_id _)
      have hnodup : ((held.map row ++ hidden).map Row.primaryKey).Nodup := by
        have hsub : ((table.filter mine).map Row.primaryKey).Sublist (table.map Row.primaryKey) :=
          List.filter_sublist.map _
        exact (hsel.map _).nodup_iff.mpr (hl.keys.sublist hsub)
      have hne : m.primaryKey ≠ (h.cell e r).primaryKey := by
        intro heq
        rw [List.map_append] at hnodup
        have hleft : (row r).primaryKey ∈ (held.map row).map Row.primaryKey :=
          List.mem_map_of_mem (List.mem_map_of_mem hheld)
        exact (List.nodup_append.mp hnodup).2.2 _ hleft _ (List.mem_map_of_mem hm)
          (hkey.symm.trans heq.symm)
      exact if_neg hne
    rw [hfilter, ← hhidden, ← Function.comp_def, ← List.map_map, ← List.map_append]
    exact hsel.map g
  · intro r' hr'
    have hold := hshows r' hr'
    refine ⟨hold.1.trans (hkeys _).symm, fun hupdate hT => ?_⟩
    simp only [hg]
    split_ifs with heq
    · have hsame : r' = r := hl.ref_unique hsel hr' hheld (heq.trans hkey)
      rw [hsame]
    · have hne : r' ≠ r := by
        intro hsame
        rw [hsame] at heq
        exact heq hkey.symm
      refine hold.2 ?_ hT
      simp [hne, hupdate]

theorem queueUpdate (hl : Lists e mine T hidden X rs h table) (hr : r ∈ rs) :
    Lists e mine T hidden (X ++ [.update e r]) rs h table where
  keys := hl.keys
  nodup := hl.nodup
  lt := hl.lt
  refs := by
    intro s hs
    rcases List.mem_append.mp hs with hs | hs
    · exact hl.refs s hs
    · rw [List.mem_singleton.mp hs]
      exact ⟨rfl, hr⟩
  first := by
    refine List.pairwise_append.mpr ⟨hl.first, List.pairwise_singleton _ _, ?_⟩
    intro s _ s' hs' heq
    rw [List.mem_singleton.mp hs'] at heq
    cases heq
  owned := hl.owned
  shows := by
    obtain ⟨held, row, hperm, hsel, hshows⟩ := hl.shows
    refine ⟨held, row, by simpa using hperm, hsel, ?_⟩
    intro r' hr'
    refine ⟨(hshows r' hr').1, fun hupdate => (hshows r' hr').2 ?_⟩
    exact fun hmem => hupdate (List.mem_append_left _ hmem)

theorem queueInsert (hl : Lists e mine T hidden X rs h table) (hr : r ∉ rs) (hlt : r < h.next)
    (howned : mine (h.cell e r) = true) :
    Lists e mine T hidden (X ++ [.insert e r]) (rs ++ [r]) h table where
  keys := hl.keys
  nodup := by
    refine List.nodup_append.mpr ⟨hl.nodup, List.nodup_singleton _, ?_⟩
    intro a ha b hb hab
    rw [List.mem_singleton.mp hb] at hab
    exact hr (hab ▸ ha)
  lt := by
    intro r' hr'
    rcases List.mem_append.mp hr' with hr' | hr'
    · exact hl.lt r' hr'
    · rwa [List.mem_singleton.mp hr']
  refs := by
    intro s hs
    rcases List.mem_append.mp hs with hs | hs
    · exact ⟨(hl.refs s hs).1, List.mem_append_left _ (hl.refs s hs).2⟩
    · rw [List.mem_singleton.mp hs]
      exact ⟨rfl, List.mem_append_right _ (List.mem_singleton.mpr rfl)⟩
  first := by
    refine List.pairwise_append.mpr ⟨hl.first, List.pairwise_singleton _ _, ?_⟩
    intro s hs s' hs' _ heq
    rw [List.mem_singleton.mp hs'] at heq
    have hmem : s.ref ∈ rs := (hl.refs s hs).2
    rw [heq] at hmem
    exact hr hmem
  owned := by
    intro r' hr'
    rcases List.mem_append.mp hr' with hr' | hr'
    · exact hl.owned r' hr'
    · rwa [List.mem_singleton.mp hr']
  shows := by
    obtain ⟨held, row, hperm, hsel, hshows⟩ := hl.shows
    refine ⟨held, row, ?_, hsel, ?_⟩
    · simpa using hperm.append_right [r]
    · intro r' hr'
      refine ⟨(hshows r' hr').1, fun hupdate => (hshows r' hr').2 ?_⟩
      exact fun hmem => hupdate (List.mem_append_left _ hmem)

theorem inserted (hl : Lists e mine T hidden X rs h table) (hr : r ∉ rs) (hlt : r < h.next)
    (howned : mine (h.cell e r) = true) {k : UInt64} (hfresh : ∀ m ∈ table, m.primaryKey ≠ k)
    (hmine : mine ((h.cell e r).setPrimaryKey k) = mine (h.cell e r)) :
    Lists e mine T hidden X (rs ++ [r]) (h.set e r ((h.cell e r).setPrimaryKey k))
      (table ++ [(h.cell e r).setPrimaryKey k]) := by
  have hqueued := hl.queueInsert hr hlt howned
  refine Lists.insert (r := r) (X := X) ?_ hfresh hmine
  -- Queued first or last, it precedes nothing else on the model.
  have hnot : ∀ s ∈ X, s.ref ≠ r := fun s hs heq => hr (heq ▸ (hl.refs s hs).2)
  refine ⟨hqueued.keys, hqueued.nodup, hqueued.lt, ?_, ?_, hqueued.owned, ?_⟩
  · intro s hs
    refine hqueued.refs s ?_
    rcases List.mem_cons.mp hs with rfl | hs
    · exact List.mem_append_right _ (List.mem_singleton.mpr rfl)
    · exact List.mem_append_left _ hs
  · refine List.pairwise_cons.mpr ⟨?_, hl.first⟩
    intro s hs _ heq
    exact hnot s hs heq.symm
  · obtain ⟨held, row, hperm, hsel, hshows⟩ := hl.shows
    refine ⟨held, row, ?_, hsel, ?_⟩
    · rw [inserts_insert]
      exact List.perm_append_comm.trans ((hperm.cons r).trans List.perm_middle.symm)
    · intro r' hr'
      refine ⟨(hshows r' hr').1, fun hupdate => (hshows r' hr').2 ?_⟩
      simpa using hupdate

theorem assign (hl : Lists e mine T hidden X rs h table) {m : Row e}
    (hm : r ∈ rs → mine m = true ∧
      (.insert e r ∉ X → m.primaryKey = (h.cell e r).primaryKey)) :
    Lists e mine (fun r' => r' = r ∨ T r') hidden X rs (h.set e r m) table where
  keys := hl.keys
  nodup := hl.nodup
  lt := hl.lt
  refs := hl.refs
  first := hl.first
  owned := by
    intro r' hr'
    by_cases hrr : r' = r
    · rw [hrr] at hr' ⊢
      rw [Heap.set_cell_self]
      exact (hm hr').1
    · rw [Heap.set_cell_of_ne _ _ hrr]
      exact hl.owned r' hr'
  shows := by
    obtain ⟨held, row, hperm, hsel, hshows⟩ := hl.shows
    refine ⟨held, row, hperm, hsel, ?_⟩
    intro r' hr'
    have hold := hshows r' hr'
    by_cases hrr : r' = r
    · have hmem : r ∈ rs := hrr ▸ hperm.mem_iff.mpr (List.mem_append_left _ hr')
      have hnot : .insert e r ∉ X := by
        intro hins
        have hnodup := (List.nodup_append.mp (hl.nodup_held hperm)).2.2
        exact hnodup r' hr' r (mem_inserts.mpr hins) hrr
      unfold Shows
      rw [hrr, Heap.set_cell_self, (hm hmem).2 hnot, ← hrr]
      exact ⟨hold.1, fun _ hT => absurd (Or.inl rfl) hT⟩
    · unfold Shows
      rw [Heap.set_cell_of_ne _ _ hrr]
      exact ⟨hold.1, fun hupdate hT => hold.2 hupdate fun h => hT (Or.inr h)⟩

theorem loadedAs (hkeys : (table.map Row.primaryKey).Nodup) {ms : List (Row e)}
    {f : Row e → Row e} (hms : (ms.map f ++ hidden).Perm (table.filter mine))
    (howned : ∀ m ∈ ms, mine m = true) (hf : ∀ m ∈ ms, m.primaryKey = (f m).primaryKey)
    (hT : (∀ r, h.next ≤ r → T r) ∨ ∀ m ∈ ms, m = f m) :
    Lists e mine T hidden [] (h.allocMany e ms).2 (h.allocMany e ms).1 table where
  keys := hkeys
  nodup := by
    rw [Heap.allocMany_refs]
    exact List.nodup_range'
  lt r hr := (h.allocMany_lt e ms hr).2
  refs := by simp
  first := List.Pairwise.nil
  owned r hr := howned _ (h.allocMany_cell_mem e ms hr)
  shows := by
    refine ⟨(h.allocMany e ms).2, fun r => f ((h.allocMany e ms).1.cell e r), by simp, ?_, ?_⟩
    · have hvalues : (h.allocMany e ms).2.map (fun r => f ((h.allocMany e ms).1.cell e r)) =
          ms.map f := by
        rw [← Function.comp_def, ← List.map_map, h.allocMany_values]
      rwa [hvalues]
    · intro r hr
      have hmem := h.allocMany_cell_mem e ms hr
      refine ⟨hf _ hmem, fun _ hnot => ?_⟩
      rcases hT with hT | hT
      · exact absurd (hT r (h.allocMany_lt e ms hr).1) hnot
      · exact hT _ hmem

theorem loaded (hkeys : (table.map Row.primaryKey).Nodup) {ms : List (Row e)}
    (hms : (ms ++ hidden).Perm (table.filter mine)) :
    Lists e mine T hidden [] (h.allocMany e ms).2 (h.allocMany e ms).1 table := by
  refine loadedAs (f := id) hkeys (by rwa [List.map_id]) ?_ (fun _ _ => rfl) (.inr fun _ _ => rfl)
  intro m hm
  exact (List.mem_filter.mp (hms.mem_iff.mp (List.mem_append_left _ hm))).2

theorem settle (hl : Lists e mine T hidden X rs h table) :
    Lists e mine (fun r => T r ∧ ∀ s ∈ X, s.ref ≠ r) hidden X rs h table where
  keys := hl.keys
  nodup := hl.nodup
  lt := hl.lt
  refs := hl.refs
  first := hl.first
  owned := hl.owned
  shows := by
    obtain ⟨held, row, hperm, hsel, hshows⟩ := hl.shows
    refine ⟨held, row, hperm, hsel, ?_⟩
    intro r hr
    refine ⟨(hshows r hr).1, fun hupdate hT => (hshows r hr).2 hupdate fun hTr => ?_⟩
    refine hT ⟨hTr, fun s hs heq => ?_⟩
    have hkind := (hl.refs s hs).1
    cases s with
    | insert e' r' =>
      cases hkind
      cases heq
      exact (List.nodup_append.mp (hl.nodup_held hperm)).2.2 r' hr r' (mem_inserts.mpr hs) rfl
    | update e' r' =>
      cases hkind
      cases heq
      exact hupdate hs

theorem exists_rows {ms : List (Row e)} (hnodup : (ms.map Row.primaryKey).Nodup)
    (hms : ∀ m ∈ ms, ∃ row ∈ table, row.primaryKey = m.primaryKey) :
    ∃ (f : Row e → Row e) (hidden : List (Row e)), (ms.map f ++ hidden).Perm table ∧
      ∀ m ∈ ms, m.primaryKey = (f m).primaryKey := by
  have hchosen : ∀ m, ∃ row, m ∈ ms → row ∈ table ∧ row.primaryKey = m.primaryKey := by
    intro m
    by_cases hm : m ∈ ms
    · obtain ⟨row, hrow, hkey⟩ := hms m hm
      exact ⟨row, fun _ => ⟨hrow, hkey⟩⟩
    · exact ⟨m, fun h => absurd h hm⟩
  choose f hf using hchosen
  have hsame : (ms.map f).map Row.primaryKey = ms.map Row.primaryKey := by
    rw [List.map_map]
    exact List.map_congr_left fun m hm => (hf m hm).2
  have hrows : (ms.map f).Nodup := by
    rw [← hsame] at hnodup
    exact hnodup.of_map
  have hsub : (ms.map f).Subperm table := by
    refine hrows.subperm fun row hrow => ?_
    obtain ⟨m, hm, rfl⟩ := List.mem_map.mp hrow
    exact (hf m hm).1
  obtain ⟨l, hl, hsublist⟩ := hsub
  obtain ⟨hidden, hperm⟩ := hsublist.exists_perm_append
  exact ⟨f, hidden, (hl.append_right hidden).symm.trans hperm.symm, fun m hm => (hf m hm).2.symm⟩

theorem rows (hl : Lists e mine T hidden [] rs h table) :
    ∃ row : Ref → Row e, (rs.map row ++ hidden).Perm (table.filter mine) ∧
      ∀ r ∈ rs, (h.cell e r).primaryKey = (row r).primaryKey ∧ (¬ T r → h.cell e r = row r) := by
  obtain ⟨held, row, hperm, hsel, hshows⟩ := hl.shows
  rw [inserts_nil, List.append_nil] at hperm
  refine ⟨row, ((hperm.map row).append_right hidden).trans hsel, ?_⟩
  intro r hr
  have hold := hshows r (hperm.mem_iff.mp hr)
  exact ⟨hold.1, hold.2 (by simp)⟩

end Lists

/-! ## Statements of a transaction -/

def own (e : EntityKind) (X : List Stmt) : List Stmt := X.filter fun s => s.kind = e

@[simp] theorem own_nil : own e [] = [] := rfl

@[simp] theorem own_append : own e (X ++ Y) = own e X ++ own e Y :=
  List.filter_append _ _

theorem own_cons_self {s : Stmt} (hs : s.kind = e) : own e (s :: X) = s :: own e X := by
  simp [own, hs]

theorem own_cons_other {s : Stmt} (hs : s.kind ≠ e) : own e (s :: X) = own e X := by
  simp [own, hs]

theorem mem_own {s : Stmt} : s ∈ own e X ↔ s ∈ X ∧ s.kind = e := by
  simp [own]

theorem Lists.run {ops : List Stmt} {t t' : Tables} {h h' : Heap} (hrun : StmtRun ops t h t' h')
    {mine : Row e → Bool} (hmine : ∀ k m, mine (Row.setPrimaryKey k m) = mine m)
    {T : Ref → Prop} {hidden : List (Row e)} {rs : List Ref}
    (hl : Lists e mine T hidden (own e ops ++ Y) rs h (t e)) :
    Lists e mine T hidden Y rs h' (t' e) := by
  induction hrun with
  | nil => simpa using hl
  | @insert e' r ops t h t' h' k hinserts _ ih =>
    apply ih
    by_cases he : e' = e
    · subst he
      rw [own_cons_self (e := e') (s := .insert e' r) rfl, List.cons_append] at hl
      have hstep := hl.insert hinserts.1.2 (hmine k _)
      rwa [← Tables.insert_self] at hstep
    · rw [own_cons_other (s := .insert e' r) he] at hl
      rw [Tables.insert_of_ne _ (Ne.symm he)]
      exact hl.congr (le_refl _) (fun r' _ => h.set_cell_kind (Ne.symm he) r r' _) hl.keys rfl
  | @update e' r ops t h t' h' _ _ ih =>
    apply ih
    by_cases he : e' = e
    · subst he
      rw [own_cons_self (e := e') (s := .update e' r) rfl, List.cons_append] at hl
      have hstep := hl.update
      rwa [← Tables.update_self] at hstep
    · rw [own_cons_other (s := .update e' r) he] at hl
      rw [Tables.update_of_ne _ (Ne.symm he)]
      exact hl

theorem stmtRun_frame {ops : List Stmt} {t t' : Tables} {h h' : Heap}
    (hrun : StmtRun ops t h t' h') :
    h'.next = h.next ∧ ∀ r ∉ inserts e ops, h'.cell e r = h.cell e r := by
  induction hrun with
  | nil => exact ⟨rfl, fun _ _ => rfl⟩
  | @insert e' r ops t h t' h' k _ _ ih =>
    refine ⟨ih.1, fun r' hr' => ?_⟩
    have hother : e ≠ e' ∨ r' ≠ r := by
      by_contra hsame
      rw [not_or, not_not, not_not] at hsame
      rw [hsame.1, hsame.2, inserts_insert] at hr'
      exact hr' List.mem_cons_self
    have hrest : r' ∉ inserts e ops := fun hmem => hr' (List.mem_filterMap.mpr (by
      obtain ⟨s, hs, hsr⟩ := List.mem_filterMap.mp hmem
      exact ⟨s, List.mem_cons_of_mem _ hs, hsr⟩))
    rw [ih.2 r' hrest]
    exact h.set_cell_other hother _
  | @update e' r ops t h t' h' _ _ ih =>
    rw [inserts_update]
    exact ih

theorem stmtRun_keys {ops : List Stmt} {t t' : Tables} {h h' : Heap} (hrun : StmtRun ops t h t' h')
    (hnodup : (inserts e ops).Nodup) (k : UInt64) :
    (k ∈ (t' e).map Row.primaryKey ↔ k ∈ (t e).map Row.primaryKey ∨
      ∃ r ∈ inserts e ops, (h'.cell e r).primaryKey = k) ∧
      ∀ r ∈ inserts e ops, (h'.cell e r).primaryKey ∉ (t e).map Row.primaryKey := by
  induction hrun with
  | nil => simp
  | @insert e' r ops t h t' h' key hinserts hrest ih =>
    by_cases he : e' = e
    · subst he
      rw [inserts_insert] at hnodup ⊢
      obtain ⟨hr, hnodup⟩ := List.nodup_cons.mp hnodup
      obtain ⟨hkeys, hnew⟩ := ih hnodup
      have hcell : (h'.cell e' r).primaryKey = key := by
        rw [(stmtRun_frame hrest).2 r hr, Heap.set_cell_self, Row.primaryKey_setPrimaryKey]
      have hkey : key ∉ (t e').map Row.primaryKey := by
        intro hmem
        obtain ⟨m, hm, hmk⟩ := List.mem_map.mp hmem
        exact hinserts.1.2 m hm hmk
      rw [Tables.insert_self, List.map_append, List.map_singleton, Row.primaryKey_setPrimaryKey]
        at hkeys hnew
      refine ⟨?_, ?_⟩
      · rw [hkeys, List.mem_append, List.mem_singleton, List.exists_mem_cons_iff, hcell, or_assoc,
          eq_comm]
      · intro r' hr'
        rcases List.mem_cons.mp hr' with rfl | hr'
        · rwa [hcell]
        · exact fun hmem => hnew r' hr' (List.mem_append_left _ hmem)
    · have hins : inserts e (.insert e' r :: ops) = inserts e ops := by simp [inserts, he]
      rw [hins] at hnodup ⊢
      rw [Tables.insert_of_ne _ (Ne.symm he)] at ih
      exact ih hnodup
  | @update e' r ops t h t' h' _ hrest ih =>
    rw [inserts_update] at hnodup ⊢
    have hsame : (t.update e' (h.cell e' r) e).map Row.primaryKey = (t e).map Row.primaryKey := by
      by_cases he : e' = e
      · subst he
        rw [Tables.update_self, List.map_map]
        refine List.map_congr_left fun m _ => ?_
        dsimp only [Function.comp]
        split_ifs with hm
        · exact hm.symm
        · rfl
      · rw [Tables.update_of_ne _ (Ne.symm he)]
    rw [hsame] at ih
    exact ih hnodup

end

end FutureWas.Sessions
