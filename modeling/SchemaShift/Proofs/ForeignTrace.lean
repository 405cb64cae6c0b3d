import SchemaShift.Proofs.KeyOutcome
import SchemaShift.Proofs.TableLog

/-! A trace of foreign keys without column logs.

Where no table has a column log, the rewrites and the faults of a trace follow
from what the tables became (`Schema.resolve_still`); that is told by a function
`f` from names, which stands for the table history (`Schema.Answers`). The keys
are then rewritten table by table, each where its column is found
(`Schema.followed`, `Schema.traceForeign_eq`), so a key whose column has a name of
its own gets what `f` says (`Schema.OnlyAt.followed`). -/
namespace SchemaShift
namespace Schema

/-! ### The keys to resolve -/

variable {f : String → Fate}

/-- The rewrite that a key asks for when its table became something else. -/
def rewrite? (f : String → Fate) (site : Site) : Option Rewrite :=
  ((f site.key.table).name?.bind (newName? site.key.table)).map fun new =>
    ⟨site.table, site.column, some new, none⟩

/-- What is to be reported of a key. -/
def report? (s : Schema) (f : String → Fate) (site : Site) : Option Fault :=
  match f site.key.table with
  | .dropped => some (.dropped site.key.table)
  | .name new => if (s.find? new).isNone then some (.entryNotFound new) else none

/-- No table has a column log. -/
def Still (s : Schema) : Prop := ∀ t ∈ s.tables.values, t.offset = t.entries.values.length

/-- The graph answers for tables what `f` says. -/
def Answers (g : RenameGraph) (p : NodePool Fate) (f : String → Fate) : Prop :=
  ∀ name, (g.trace? p name).getD (.name name) = f name

variable {s : Schema} {p : NodePool Fate}

theorem inPlace_rewrite? (f : String → Fate) : InPlace (rewrite? f) := by
  intro site r hr
  obtain ⟨new, _, rfl⟩ := Option.map_eq_some_iff.mp hr
  exact ⟨rfl, rfl⟩

theorem mem_of_find? {name : String} {t : Table} (h : s.find? name = some t) : t ∈ s.tables.values := by
  obtain ⟨i, _, hget⟩ := Option.bind_eq_some_iff.mp h
  rw [← Entries.getElem?_values] at hget
  exact List.mem_of_getElem? hget

/-- Without a column log a column stays what it is. -/
theorem columnFate_still (hstill : s.Still) {t : Table} (ht : t ∈ s.tables.values) (name : String) :
    t.columnFate name = .name name := by
  rw [Table.columnFate, hstill t ht, List.drop_length]
  exact RenameGraph.greedyEnd_of_none rfl

/-- The outcome of a key depends on its table alone. -/
theorem outcome_still (hstill : s.Still) (hf : ∀ name, s.tableFate name = f name) (site : Site) :
    s.asked? site = rewrite? f site ∧ (s.outcome site.key).fault = s.report? f site := by
  have htable := hf site.key.table
  cases hfate : f site.key.table with
  | dropped =>
    have houtcome : s.outcome site.key =
        ⟨site.key.table, site.key.column, some (.dropped site.key.table)⟩ := by
      simp only [outcome, htable, hfate]
    rw [asked?, houtcome]
    exact ⟨(renaming?_self site).trans (by simp [rewrite?, hfate, Fate.name?]), by simp [report?, hfate]⟩
  | name new =>
    have houtcome : s.outcome site.key = ⟨new, site.key.column, s.report? f site⟩ := by
      cases hfind : s.find? new with
      | none => simp [outcome, htable, hfate, hfind, report?]
      | some t =>
        simp [outcome, htable, hfate, hfind, report?, columnFate_still hstill (mem_of_find? hfind)]
    rw [asked?, houtcome]
    refine ⟨?_, rfl⟩
    cases hnew : newName? site.key.table new <;>
      simp [renaming?, rewrite?, hfate, Fate.name?, hnew, newName?_self, Rewrite.isNeeded]

/-- **What resolving finds out** where no table has a column log. -/
theorem resolve_still (hp : p.Valid) {capacity : UInt64} (hstill : s.Still)
    (hg : Answers (RenameGraph.ofEntries s.tables s.offset p capacity).1
      (RenameGraph.ofEntries s.tables s.offset p capacity).2 f) :
    (s.resolve p capacity).1 = (sites s.tables.values.zipIdx).filterMap (rewrite? f) ∧
      (s.resolve p capacity).2.1 = (sites s.tables.values.zipIdx).filterMap (s.report? f) := by
  have hf : ∀ name, s.tableFate name = f name := fun name =>
    ((RenameGraph.records_ofEntries s.tables s.offset hp capacity).trace? name).symm.trans (hg name)
  obtain ⟨hrewrites, hfaults⟩ := s.resolve_spec hp capacity
  refine ⟨hrewrites.trans ?_, hfaults.trans ?_⟩
  · exact List.filterMap_congr fun site _ => (outcome_still hstill hf site).1
  · exact List.filterMap_congr fun site _ => (outcome_still hstill hf site).2

/-! ### Rewriting the keys -/

/-- The column with its key rewritten. -/
def rekey (r : Rewrite) (c : Column) : Column := { c with foreign := c.foreign.map r.apply }

/-- The table with the key rewritten where its column is found. -/
def retarget (t : Table) (r : Rewrite) : Table :=
  match t.columns with
  | .shared _ => t
  | .owned columns =>
    match columns.findLive? r.column with
    | none => t
    | some i => { t with columns := .owned (columns.modify i (rekey r)) }

/-- What is done to the element at `i` depends on that element alone. -/
theorem modify_congr {α : Type} {g h : α → α} {l : List α} {i : Nat} {a : α} (ha : l[i]? = some a)
    (hgh : g a = h a) : l.modify i g = l.modify i h := by
  refine List.ext_getElem? fun j => ?_
  rw [List.getElem?_modify, List.getElem?_modify]
  by_cases hij : i = j
  · subst hij
    simp [ha, hgh]
  · simp [hij]

/-- One rewrite reaches one table, and reports no drop. -/
theorem applyRewrite_spec (s : Schema) (r : Rewrite) :
    (s.applyRewrite r).1.tables.values = s.tables.values.modify r.table (retarget · r) ∧
      ∀ name, (s.applyRewrite r).2 ≠ some (.dropped name) := by
  unfold applyRewrite
  cases hget : s.tables.get? r.table with
  | none =>
    rw [← Entries.getElem?_values] at hget
    rw [List.modify_eq_set_getElem?, hget]
    exact ⟨rfl, by simp⟩
  | some t =>
    have hvalue : s.tables.values[r.table]? = some t := by rw [Entries.getElem?_values, hget]
    have hstay : retarget t r = t →
        s.tables.values = s.tables.values.modify r.table (retarget · r) := fun h =>
      (List.modify_id _ _).symm.trans (modify_congr hvalue h.symm)
    cases hcolumns : t.columns with
    | shared columns =>
      simp only [Table.ownedColumns, hcolumns]
      exact ⟨hstay (by simp [retarget, hcolumns]), by simp⟩
    | owned columns =>
      simp only [Table.ownedColumns, hcolumns]
      cases hfind : columns.findLive? r.column with
      | none => exact ⟨hstay (by simp [retarget, hcolumns, hfind]), by simp⟩
      | some i =>
        refine ⟨(Entries.values_modify _ _ _).trans (modify_congr hvalue ?_), by simp⟩
        rw [retarget, hcolumns]
        simp only [hfind]
        rfl

theorem values_applyRewrites (s : Schema) (rs : List Rewrite) :
    (s.applyRewrites rs).1.tables.values =
      rs.foldl (fun ts r => ts.modify r.table (retarget · r)) s.tables.values := by
  induction rs generalizing s with
  | nil => rfl
  | cons r rest ih => rw [applyRewrites, ih, (applyRewrite_spec s r).1, List.foldl_cons]

theorem applyRewrites_no_drop (s : Schema) (rs : List Rewrite) (name : String) :
    .dropped name ∉ (s.applyRewrites rs).2 := by
  induction rs generalizing s with
  | nil => simp [applyRewrites]
  | cons r rest ih =>
    rw [applyRewrites]
    intro hmem
    rcases List.mem_append.mp hmem with hmem | hmem
    · exact (applyRewrite_spec s r).2 name (Option.mem_toList.mp hmem)
    · exact ih _ hmem

/-- Where a table stands does not matter to what is asked of its keys. -/
def Uniform (ask : Site → Option Rewrite) : Prop :=
  ∀ site i, ask { site with table := i } = (ask site).map fun r => { r with table := i }

theorem uniform_rewrite? (f : String → Fate) : Uniform (rewrite? f) := by
  intro site i
  rw [rewrite?, rewrite?, Option.map_map]
  rfl

theorem sitesOf_eq (i : Nat) (t : Table) : sitesOf i t = (sitesOf 0 t).map fun site => { site with table := i } := by
  rw [sitesOf, sitesOf, List.map_filterMap]
  congr 1
  funext c
  cases hname : c.name <;> cases hkey : c.foreign <;> simp [siteOf?, hname, hkey]

/-- The table with what is asked of its keys done. -/
def reworded (ask : Site → Option Rewrite) (t : Table) : Table :=
  ((sitesOf 0 t).filterMap ask).foldl retarget t

/-- The table with all its keys rewritten. -/
def followed (f : String → Fate) (t : Table) : Table :=
  ((sitesOf 0 t).filterMap (rewrite? f)).foldl retarget t

variable {ask : Site → Option Rewrite}

/-- Where a table stands does not matter to what is made of it. -/
theorem reworded_eq (h : Uniform ask) (i : Nat) (t : Table) :
    ((sitesOf i t).filterMap ask).foldl retarget t = reworded ask t := by
  have hasked : (sitesOf i t).filterMap ask =
      ((sitesOf 0 t).filterMap ask).map fun r => { r with table := i } := by
    rw [sitesOf_eq, List.filterMap_map, List.map_filterMap]
    exact List.filterMap_congr fun site _ => h site i
  rw [hasked, List.foldl_map]
  rfl

/-- Rewrites of one table reach that table. -/
theorem foldl_retarget_middle {front back : List Table} {rs : List Rewrite}
    (h : ∀ r ∈ rs, r.table = front.length) (t : Table) :
    rs.foldl (fun ts r => ts.modify r.table (retarget · r)) (front ++ t :: back) =
      front ++ rs.foldl retarget t :: back := by
  induction rs generalizing t with
  | nil => rfl
  | cons r rest ih =>
    rw [List.foldl_cons, List.foldl_cons, h r List.mem_cons_self, modify_middle]
    exact ih (fun r hr => h r (List.mem_cons_of_mem _ hr)) _

/-- Rewrites go to the tables one after the other. -/
theorem foldl_retarget_sites (hplace : InPlace ask) (huniform : Uniform ask) (front rest : List Table) :
    ((sites (rest.zipIdx front.length)).filterMap ask).foldl
        (fun ts r => ts.modify r.table (retarget · r)) (front ++ rest) =
      front ++ rest.map fun t => if Entry.isLive t then reworded ask t else t := by
  induction rest generalizing front with
  | nil => rfl
  | cons t rest ih =>
    -- The tables in front of the rest are done; the first of the rest joins them.
    have hjoin : ∀ t',
        ((sites (rest.zipIdx (front.length + 1))).filterMap ask).foldl
          (fun ts r => ts.modify r.table (retarget · r)) (front ++ t' :: rest) =
        front ++ t' :: rest.map fun t => if Entry.isLive t then reworded ask t else t := by
      intro t'
      simpa using ih (front ++ [t'])
    rw [List.zipIdx_cons, List.map_cons]
    split
    · next hlive =>
      have hsplit : sites ((t, front.length) :: rest.zipIdx (front.length + 1)) =
          sitesOf front.length t ++ sites (rest.zipIdx (front.length + 1)) := by simp [sites, hlive]
      have htable : ∀ r ∈ (sitesOf front.length t).filterMap ask, r.table = front.length :=
        fun r hr => (hplace.of_mem hr).1
      rw [hsplit, List.filterMap_append, List.foldl_append, foldl_retarget_middle htable,
        reworded_eq huniform]
      exact hjoin _
    · next hlive =>
      have hskip : sites ((t, front.length) :: rest.zipIdx (front.length + 1)) =
          sites (rest.zipIdx (front.length + 1)) := by simp [sites, hlive]
      rw [hskip]
      exact hjoin t

/-! ### What becomes of a key -/

/-- The same table, as far as it does not concern the keys. -/
structure SameButKeys (t t' : Table) : Prop where
  rest : { t' with columns := t.columns } = t
  isStatic : t'.isStatic = t.isStatic
  columns : t'.entries.values.map Column.removeReference = t.entries.values.map Column.removeReference
  ordered : t.entries.Ordered → t'.entries.Ordered

theorem SameButKeys.refl (t : Table) : SameButKeys t t := ⟨rfl, rfl, rfl, id⟩

theorem SameButKeys.trans {t t' t'' : Table} (h : SameButKeys t t') (h' : SameButKeys t' t'') :
    SameButKeys t t'' where
  rest := by
    have hfirst := h.rest
    rw [← h'.rest] at hfirst
    exact hfirst
  isStatic := h'.isStatic.trans h.isStatic
  columns := h'.columns.trans h.columns
  ordered := h'.ordered ∘ h.ordered

/-- A column of a live name that no other live column of the table has. -/
structure OnlyAt (t : Table) (k : Nat) (c : Column) (name : String) : Prop where
  get : t.entries.values[k]? = some c
  live : Entry.isLive c = true
  named : c.name = some name
  only : ∀ k' c', t.entries.values[k']? = some c' → Entry.isLive c' = true → c'.name = some name → k' = k

variable {t : Table} {k : Nat} {c : Column} {name : String}

/-- A rewrite leaves a table alone or reaches one of its columns. -/
theorem retarget_cases (t : Table) (r : Rewrite) :
    retarget t r = t ∧ (t.isStatic = true ∨ t.entries.findLive? r.column = none) ∨
      ∃ i, t.isStatic = false ∧ t.entries.findLive? r.column = some i ∧
        retarget t r = { t with columns := .owned (t.entries.modify i (rekey r)) } := by
  unfold retarget
  cases hcolumns : t.columns with
  | shared columns => exact .inl ⟨rfl, .inl (by simp [Table.isStatic, hcolumns, Slot.isOwned])⟩
  | owned columns =>
    have hentries : t.entries = columns := by simp [Table.entries, hcolumns, Slot.value]
    cases hfind : columns.findLive? r.column with
    | none => exact .inl ⟨by simp [hfind], .inr (hentries ▸ hfind)⟩
    | some i =>
      refine .inr ⟨i, by simp [Table.isStatic, hcolumns, Slot.isOwned], hentries ▸ hfind, ?_⟩
      simp [hfind, hentries]

theorem sameButKeys_retarget (t : Table) (r : Rewrite) : SameButKeys t (retarget t r) := by
  rcases retarget_cases t r with ⟨hstay, _⟩ | ⟨i, howned, hfind, hmove⟩
  · rw [hstay]
    exact .refl t
  · rw [hmove]
    refine ⟨rfl, howned.symm, ?_, fun ho => ho.modify i _⟩
    show (t.entries.modify i (rekey r)).values.map Column.removeReference = _
    rw [Entries.values_modify]
    exact Entries.map_modify (f := rekey r) (fun _ => rfl) t.entries.values i

theorem sameButKeys_foldl (t : Table) (rs : List Rewrite) : SameButKeys t (rs.foldl retarget t) := by
  induction rs generalizing t with
  | nil => exact .refl t
  | cons r rest ih => exact (sameButKeys_retarget t r).trans (ih _)

theorem reworded_static (h : t.isStatic = true) : reworded ask t = t := by
  unfold reworded
  generalize (sitesOf 0 t).filterMap ask = rs
  induction rs with
  | nil => rfl
  | cons r rest ih =>
    rcases retarget_cases t r with ⟨hstay, _⟩ | ⟨_, howned, _⟩
    · rwa [List.foldl_cons, hstay]
    · exact absurd howned (by simp [h])

/-- A rewrite of its name reaches the only column of that name, any other rewrite does not. -/
theorem OnlyAt.retarget (h : OnlyAt t k c name) (ho : t.entries.Ordered) (howned : t.isStatic = false)
    (r : Rewrite) : OnlyAt (retarget t r) k (if r.column = name then rekey r c else c) name := by
  have hsame := sameButKeys_retarget t r
  have hget : (Schema.retarget t r).entries.values[k]? =
      some (if r.column = name then rekey r c else c) := by
    rcases retarget_cases t r with ⟨hstay, hmiss⟩ | ⟨i, _, hfind, hmove⟩
    · have hne : r.column ≠ name := by
        rintro rfl
        have hnone := hmiss.resolve_left (by simp [howned])
        exact Entries.findLive?_ne_none ho (List.mem_of_getElem? h.get) h.named h.live hnone
      rw [hstay, if_neg hne, h.get]
    · obtain ⟨found, hfound, hname, hlive⟩ := Entries.findLive?_some hfind
      rw [← Entries.getElem?_values] at hfound
      rw [hmove]
      show (t.entries.modify i (rekey r)).values[k]? = _
      rw [Entries.values_modify, List.getElem?_modify, h.get]
      by_cases hcolumn : r.column = name
      · subst hcolumn
        simp [h.only i found hfound hlive hname]
      · have hne : i ≠ k := by
          rintro rfl
          obtain rfl := Option.some.inj (hfound.symm.trans h.get)
          exact hcolumn (Option.some.inj (hname.symm.trans h.named))
        simp [hcolumn, hne]
  refine ⟨hget, ?_, ?_, fun k' c' hk' hlive hname => ?_⟩
  · split <;> exact h.live
  · split <;> exact h.named
  · have hcolumns := congrArg (·[k']?) hsame.columns
    simp only [List.getElem?_map, hk', Option.map_some] at hcolumns
    obtain ⟨old, hold, hcolumn⟩ := Option.map_eq_some_iff.mp hcolumns.symm
    have holdName : old.removeReference.name = c'.removeReference.name := congrArg _ hcolumn
    have holdLive : Entry.isLive old.removeReference = Entry.isLive c'.removeReference :=
      congrArg _ hcolumn
    exact h.only k' old hold (holdLive.trans hlive) (holdName.trans hname)

theorem OnlyAt.foldl (h : OnlyAt t k c name) (ho : t.entries.Ordered) (howned : t.isStatic = false)
    (rs : List Rewrite) : OnlyAt (rs.foldl Schema.retarget t) k
      ((rs.filter fun r => r.column = name).foldl (fun c r => rekey r c) c) name := by
  induction rs generalizing t c with
  | nil => exact h
  | cons r rest ih =>
    have hsame := sameButKeys_retarget t r
    have hrest := ih (h.retarget ho howned r) (hsame.ordered ho) (hsame.isStatic.trans howned)
    rw [List.foldl_cons, List.filter_cons]
    by_cases hcolumn : r.column = name <;> simpa [hcolumn] using hrest

/-- The rewrites of a name are those of its only column. -/
theorem OnlyAt.rewrites (h : OnlyAt t k c name) {ask : Site → Option Rewrite} (hask : InPlace ask)
    (i : Nat) : ((sitesOf i t).filterMap ask).filter (fun r => r.column = name) =
      if c.isForeign then ((siteOf? i c).bind ask).toList else [] := by
  let asked : List Column → List Rewrite := fun columns =>
    (((columns.filter Column.isForeign).filterMap (siteOf? i)).filterMap ask).filter
      fun r => r.column = name
  have happend : ∀ cs cs', asked (cs ++ cs') = asked cs ++ asked cs' := by simp [asked]
  have hothers : ∀ cs, (∀ c' ∈ cs, Entry.isLive c' = true → c'.name ≠ some name) → asked cs = [] := by
    intro cs hcs
    refine List.filter_eq_nil_iff.mpr fun r hr hcolumn => ?_
    obtain ⟨_, c', hc', hname⟩ := hask.of_mem hr
    obtain ⟨hmem, hforeign⟩ := List.mem_filter.mp hc'
    rw [Column.isForeign, Bool.and_eq_true] at hforeign
    exact hcs c' hmem hforeign.1 (hname.trans (congrArg some (by simpa using hcolumn)))
  have hown : asked [c] = if c.isForeign then ((siteOf? i c).bind ask).toList else [] := by
    by_cases hforeign : c.isForeign = true
    · rw [if_pos hforeign]
      cases hsite : siteOf? i c with
      | none => simp [asked, hforeign, hsite]
      | some site =>
        cases hr : ask site with
        | none => simp [asked, hforeign, hsite, hr]
        | some r =>
          obtain ⟨column, hname, hcolumn⟩ := Option.bind_eq_some_iff.mp hsite
          obtain ⟨key, _, rfl⟩ := Option.map_eq_some_iff.mp hcolumn
          have hrname : r.column = name :=
            (hask _ _ hr).2.trans (Option.some.inj (hname.symm.trans h.named))
          simp [asked, hforeign, hsite, hr, hrname]
    · simp [asked, hforeign]
  obtain ⟨hk, hget⟩ := List.getElem?_eq_some_iff.mp h.get
  have hsplit : t.entries.values = t.entries.values.take k ++ ([c] ++ t.entries.values.drop (k + 1)) := by
    rw [← hget, List.singleton_append, ← List.drop_eq_getElem_cons hk, List.take_append_drop]
  have hfront : asked (t.entries.values.take k) = [] := hothers _ fun c' hc' hlive hname => by
    obtain ⟨j, hj⟩ := List.mem_iff_getElem?.mp hc'
    rw [List.getElem?_take] at hj
    split at hj
    · next hlt => exact absurd (h.only j c' hj hlive hname) hlt.ne
    · exact absurd hj (by simp)
  have hback : asked (t.entries.values.drop (k + 1)) = [] := hothers _ fun c' hc' hlive hname => by
    obtain ⟨j, hj⟩ := List.mem_iff_getElem?.mp hc'
    rw [List.getElem?_drop] at hj
    have hjk := h.only _ c' hj hlive hname
    omega
  show asked t.entries.values = _
  rw [hsplit, happend, happend, hfront, hback, hown, List.nil_append, List.append_nil]

/-- **What becomes of a key** whose column has a name of its own. -/
theorem OnlyAt.followed (h : OnlyAt t k c name) (ho : t.entries.Ordered) (howned : t.isStatic = false)
    (f : String → Fate) {key : ForeignKey} (hkey : c.foreign = some key) :
    (followed f t).entries.values[k]? = some { c with
      foreign := some { key with table := (f key.table).name?.getD key.table } } := by
  have hget := (h.foldl ho howned ((sitesOf 0 t).filterMap (rewrite? f))).get
  have hforeign : c.isForeign = true := by simp [Column.isForeign, h.live, Column.hasForeign, hkey]
  rw [h.rewrites (inPlace_rewrite? f), if_pos hforeign] at hget
  refine hget.trans (congrArg some ?_)
  have hsite : siteOf? 0 c = some ⟨0, name, key⟩ := by simp [siteOf?, h.named, hkey]
  rw [hsite, Option.bind_some]
  cases hfate : f key.table with
  | dropped =>
    have hsame : { c with foreign := some key } = c := by rw [← hkey]
    simp [rewrite?, hfate, Fate.name?, hsame]
  | name new =>
    by_cases hnew : new = key.table
    · have hsame : { c with foreign := some key } = c := by rw [← hkey]
      simp [rewrite?, hfate, Fate.name?, hnew, newName?, hsame]
    · simp [rewrite?, hfate, Fate.name?, hnew, newName?, rekey, hkey, Rewrite.apply]

/-! ### The whole trace -/

/-- The foreign keys of a table that stand under a name. -/
def keysOf (t : Table) : List ForeignKey :=
  t.foreignColumns.filterMap fun c => c.name.bind fun _ => c.foreign

theorem map_key_sitesOf (i : Nat) (t : Table) : (sitesOf i t).map Site.key = keysOf t := by
  rw [sitesOf, keysOf, List.map_filterMap]
  congr 1
  funext c
  cases hname : c.name <;> cases hkey : c.foreign <;> simp [siteOf?, hname, hkey]

theorem map_key_sites (tables : List Table) (i : Nat) :
    (sites (tables.zipIdx i)).map Site.key = (tables.filter Entry.isLive).flatMap keysOf := by
  induction tables generalizing i with
  | nil => rfl
  | cons t rest ih =>
    have hrest := ih (i + 1)
    rw [sites] at hrest ⊢
    rw [List.zipIdx_cons]
    cases hlive : Entry.isLive t <;> simp [hlive, map_key_sitesOf, ← hrest]

/-- The name that a fault reports as dropped. -/
def droppedName? : Fault → Option String
  | .dropped name => some name
  | _ => none

/-- The drop that is reported of a key, if its trail ends in one. -/
def drop? (f : String → Fate) (key : ForeignKey) : Option String :=
  if f key.table = .dropped then some key.table else none

/-- **A trace without column logs** rewrites the live tables one by one and reports the keys
that lead to a drop. -/
theorem traceForeign_eq (hstill : s.Still)
    (hg : Answers (RenameGraph.ofEntries s.tables s.offset (.ofChunkSize NodePool.defaultChunkSize)
        RenameGraph.defaultCapacity).1
      (RenameGraph.ofEntries s.tables s.offset (.ofChunkSize NodePool.defaultChunkSize)
        RenameGraph.defaultCapacity).2 f) :
    s.traceForeign.1.tables.values =
        s.tables.values.map (fun t => if Entry.isLive t then followed f t else t) ∧
      s.traceForeign.2.filterMap droppedName? =
        ((s.tables.values.filter Entry.isLive).flatMap keysOf).filterMap (drop? f) := by
  obtain ⟨hrewrites, hfaults⟩ :=
    resolve_still (NodePool.valid_ofChunkSize NodePool.defaultChunkSize) hstill hg
  let resolved := s.resolve (.ofChunkSize NodePool.defaultChunkSize) RenameGraph.defaultCapacity
  have htables : s.traceForeign.1.tables.values = (s.applyRewrites resolved.1).1.tables.values := rfl
  have hreports : s.traceForeign.2 = resolved.2.1 ++ (s.applyRewrites resolved.1).2 := rfl
  constructor
  · rw [htables, values_applyRewrites, hrewrites]
    exact foldl_retarget_sites (inPlace_rewrite? f) (uniform_rewrite? f) [] s.tables.values
  · have hrefusals : ∀ rs, (s.applyRewrites rs).2.filterMap droppedName? = [] := by
      intro rs
      refine List.filterMap_eq_nil_iff.mpr fun fault hfault => ?_
      cases fault with
      | dropped name => exact absurd hfault (applyRewrites_no_drop s rs name)
      | _ => rfl
    rw [hreports, List.filterMap_append, hrefusals, List.append_nil, hfaults, ← map_key_sites _ 0,
      List.filterMap_filterMap, List.filterMap_map]
    congr 1
    funext site
    cases hfate : f site.key.table with
    | dropped => simp [report?, drop?, hfate, droppedName?]
    | name new => cases hfind : s.find? new <;> simp [report?, drop?, hfate, hfind, droppedName?]

end Schema
end SchemaShift
