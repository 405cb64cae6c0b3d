import SchemaShift.Proofs.ForeignTrace
import SchemaShift.Proofs.TrailEnd

/-! Tracing again.

A trace leaves a key with names whose trails end where they begin, so it has
nothing to ask for a second time, and what was to be reported of it is reported
again (`Schema.outcome_settle`). The keys of static tables stay as they are and
are refused again. As keys are no part of a log, the histories are those of the
first trace, and the second one changes and reports nothing else
(`Schema.traceForeign_again`). -/
namespace SchemaShift
namespace Schema

variable {s s' : Schema} {t t' : Table} {k : Nat} {c : Column} {name : String}

/-! ### Keys that are settled -/

/-- The key with the names that it is to have. -/
def settle (s : Schema) (key : ForeignKey) : ForeignKey :=
  { key with table := (s.outcome key).table, column := (s.outcome key).column }

/-- **A settled key has the outcome of the key that it was.** -/
theorem outcome_settle (s : Schema) (key : ForeignKey) : s.outcome (s.settle key) = s.outcome key := by
  cases hfate : s.tableFate key.table with
  | dropped =>
    have houtcome : s.outcome key = ⟨key.table, key.column, some (.dropped key.table)⟩ := by
      simp only [outcome, hfate]
    have hsame : s.settle key = key := by rw [settle, houtcome]
    rw [hsame]
  | name target =>
    have hfate' : s.tableFate target = .name target := RenameGraph.greedyEnd_of_greedyEnd hfate
    cases hfind : s.find? target with
    | none =>
      have houtcome : s.outcome key = ⟨target, key.column, some (.entryNotFound target)⟩ := by
        simp only [outcome, hfate, hfind]
      rw [settle, houtcome]
      simp only [outcome, hfate', hfind]
    | some t =>
      cases hcolumn : t.columnFate key.column with
      | dropped =>
        have houtcome : s.outcome key =
            ⟨target, key.column, some (.dropped (target ++ "." ++ key.column))⟩ := by
          simp only [outcome, hfate, hfind, hcolumn]
        rw [settle, houtcome]
        simp only [outcome, hfate', hfind, hcolumn]
      | name column =>
        have hcolumn' : t.columnFate column = .name column :=
          RenameGraph.greedyEnd_of_greedyEnd hcolumn
        have houtcome : s.outcome key = ⟨target, column, none⟩ := by
          simp only [outcome, hfate, hfind, hcolumn]
        rw [settle, houtcome]
        simp only [outcome, hfate', hfind, hcolumn']

/-- A settled key asks for nothing. -/
theorem asked?_settle (s : Schema) (i : Nat) (column : String) (key : ForeignKey) :
    s.asked? ⟨i, column, s.settle key⟩ = none := by
  rw [asked?, outcome_settle]
  exact renaming?_self ⟨i, column, s.settle key⟩

theorem getD_newName? (old new : String) : (newName? old new).getD old = new := by
  unfold newName?
  split
  · next heq => exact heq.symm
  · rfl

/-- The rewrite that is asked for settles the key. -/
theorem apply_asked? (s : Schema) (i : Nat) (column : String) (key : ForeignKey) :
    ((s.asked? ⟨i, column, key⟩).map fun r => r.apply key).getD key = s.settle key := by
  have happly : (⟨i, column, newName? key.table (s.outcome key).table,
      newName? key.column (s.outcome key).column⟩ : Rewrite).apply key = s.settle key := by
    rw [Rewrite.apply, getD_newName?, getD_newName?]
    rfl
  rw [asked?, renaming?]
  split
  · exact happly
  · next hneeded =>
    have hnone := Bool.eq_false_iff.mpr hneeded
    rw [Rewrite.isNeeded, Bool.or_eq_false_iff, Option.isSome_eq_false_iff, Option.isSome_eq_false_iff,
      Option.isNone_iff_eq_none, Option.isNone_iff_eq_none] at hnone
    rw [← happly, Rewrite.apply, hnone.1, hnone.2]
    rfl

/-- The column with its key settled. -/
def settleColumn (s : Schema) (c : Column) : Column :=
  if c.isForeign && c.name.isSome then { c with foreign := c.foreign.map s.settle } else c

/-! ### Rewriting a table -/

/-- No rewrite reaches a column that is not live or has no name. -/
theorem retarget_other (hget : t.entries.values[k]? = some c)
    (hother : Entry.isLive c = false ∨ c.name = none) (r : Rewrite) :
    (retarget t r).entries.values[k]? = some c := by
  rcases retarget_cases t r with ⟨hstay, _⟩ | ⟨i, _, hfind, hmove⟩
  · rw [hstay, hget]
  · obtain ⟨found, hfound, hname, hlive⟩ := Entries.findLive?_some hfind
    rw [← Entries.getElem?_values] at hfound
    have hne : i ≠ k := by
      rintro rfl
      obtain rfl := Option.some.inj (hfound.symm.trans hget)
      rcases hother with hother | hother
      · exact absurd (hlive.symm.trans hother) (by decide)
      · exact absurd (hname.symm.trans hother) (by simp)
    rw [hmove]
    show (t.entries.modify i (rekey r)).values[k]? = _
    rw [Entries.values_modify, List.getElem?_modify, hget]
    simp [hne]

theorem foldl_retarget_other (hget : t.entries.values[k]? = some c)
    (hother : Entry.isLive c = false ∨ c.name = none) (rs : List Rewrite) :
    (rs.foldl retarget t).entries.values[k]? = some c := by
  induction rs generalizing t with
  | nil => exact hget
  | cons r rest ih => exact ih (retarget_other hget hother r)

/-- A live column is the only one of its name. -/
theorem onlyAt_of_distinct (h : t.entries.Distinct) (hget : t.entries.values[k]? = some c)
    (hlive : Entry.isLive c = true) (hname : c.name = some name) : OnlyAt t k c name := by
  refine ⟨hget, hlive, hname, fun k' c' hk' hlive' hname' => ?_⟩
  rw [Entries.getElem?_values] at hget hk'
  exact h.index hk' hget hlive' hlive hname' hname

/-- A table whose keys are settled. -/
structure Settled (s : Schema) (t t' : Table) : Prop where
  same : SameButKeys t t'
  values : t'.entries.values = t.entries.values.map s.settleColumn

/-- **The rewrites of a table settle its keys.** -/
theorem settled_foldl (ho : t.entries.Ordered) (hdistinct : t.entries.Distinct)
    (howned : t.isStatic = false) (s : Schema) (i : Nat) :
    Settled s t (((sitesOf i t).filterMap s.asked?).foldl retarget t) := by
  refine ⟨sameButKeys_foldl t _, List.ext_getElem? fun k => ?_⟩
  rw [List.getElem?_map]
  cases hget : t.entries.values[k]? with
  | none =>
    have hlength := congrArg List.length
      (sameButKeys_foldl t ((sitesOf i t).filterMap s.asked?)).columns
    rw [List.length_map, List.length_map] at hlength
    rw [Option.map_none, List.getElem?_eq_none_iff]
    rw [List.getElem?_eq_none_iff] at hget
    omega
  | some c =>
    rw [Option.map_some, settleColumn]
    by_cases hnamed : Entry.isLive c = true ∧ c.name.isSome = true
    · obtain ⟨hlive, hsome⟩ := hnamed
      obtain ⟨name, hname⟩ := Option.isSome_iff_exists.mp hsome
      have honly := onlyAt_of_distinct hdistinct hget hlive hname
      have hafter := (honly.foldl ho howned ((sitesOf i t).filterMap s.asked?)).get
      rw [honly.rewrites s.inPlace_asked?] at hafter
      rw [hafter]
      by_cases hforeign : c.isForeign = true
      · obtain ⟨key, hkey⟩ := Option.isSome_iff_exists.mp (Bool.and_eq_true_iff.mp hforeign).2
        have hsite : siteOf? i c = some ⟨i, name, key⟩ := by simp [siteOf?, hname, hkey]
        have hsettle := s.apply_asked? i name key
        rw [if_pos hforeign, hsite, Option.bind_some, hforeign, hsome, Bool.and_self, if_pos rfl, hkey,
          Option.map_some, ← hsettle]
        cases hasked : s.asked? ⟨i, name, key⟩ with
        | none =>
          have hsame : { c with foreign := some key } = c := by rw [← hkey]
          simp [hsame]
        | some r => simp [rekey, hkey]
      · simp [hforeign]
    · have hother : Entry.isLive c = false ∨ c.name = none := by
        rcases not_and_or.mp hnamed with hlive | hsome
        · exact .inl (by simpa using hlive)
        · exact .inr (by simpa using hsome)
      have hneg : ¬ (c.isForeign && c.name.isSome) = true := fun h =>
        hnamed ⟨(Bool.and_eq_true_iff.mp (Bool.and_eq_true_iff.mp h).1).1, (Bool.and_eq_true_iff.mp h).2⟩
      rw [foldl_retarget_other hget hother, if_neg hneg]

/-! ### Rewriting all tables -/

theorem applyRewrites_cons (s : Schema) (r : Rewrite) (rest : List Rewrite) :
    s.applyRewrites (r :: rest) = (((s.applyRewrite r).1.applyRewrites rest).1,
      (s.applyRewrite r).2.toList ++ ((s.applyRewrite r).1.applyRewrites rest).2) := rfl

theorem applyRewrites_append (s : Schema) (rs rs' : List Rewrite) :
    s.applyRewrites (rs ++ rs') = (((s.applyRewrites rs).1.applyRewrites rs').1,
      (s.applyRewrites rs).2 ++ ((s.applyRewrites rs).1.applyRewrites rs').2) := by
  induction rs generalizing s with
  | nil => rfl
  | cons r rest ih =>
    rw [List.cons_append, applyRewrites_cons, applyRewrites_cons, ih, List.append_assoc]

/-- Rewrites change tables only. -/
theorem applyRewrites_rest (s : Schema) (rs : List Rewrite) :
    { (s.applyRewrites rs).1 with tables := s.tables } = s ∧
      (s.tables.Ordered → (s.applyRewrites rs).1.tables.Ordered) := by
  induction rs generalizing s with
  | nil => exact ⟨rfl, id⟩
  | cons r rest ih =>
    have hstep : { (s.applyRewrite r).1 with tables := s.tables } = s ∧
        (s.tables.Ordered → (s.applyRewrite r).1.tables.Ordered) := by
      unfold applyRewrite
      split
      · exact ⟨rfl, id⟩
      · split
        · exact ⟨rfl, id⟩
        · split
          · exact ⟨rfl, id⟩
          · exact ⟨rfl, fun ho => ho.modify _ _⟩
    obtain ⟨hrest, hordered⟩ := ih (s.applyRewrite r).1
    refine ⟨?_, hordered ∘ hstep.2⟩
    rw [applyRewrites_cons]
    have hboth := hstep.1
    rw [← hrest] at hboth
    exact hboth

/-- A static table refuses. -/
theorem applyRewrites_static (hstatic : t.isStatic = true) {rs : List Rewrite}
    (h : ∀ r ∈ rs, s.tables.get? r.table = some t) :
    s.applyRewrites rs = (s, rs.map fun _ => .staticData (Entry.displayName t)) := by
  have hone : ∀ r ∈ rs, s.applyRewrite r = (s, some (.staticData (Entry.displayName t))) := by
    intro r hr
    cases hcolumns : t.columns with
    | shared columns => simp only [applyRewrite, h r hr, Table.ownedColumns, hcolumns]
    | owned columns => simp [Table.isStatic, hcolumns, Slot.isOwned] at hstatic
  induction rs with
  | nil => rfl
  | cons r rest ih =>
    have hrest := ih (fun r hr => h r (List.mem_cons_of_mem _ hr)) fun r hr =>
      hone r (List.mem_cons_of_mem _ hr)
    rw [applyRewrites_cons, hone r List.mem_cons_self, hrest]
    rfl

/-- A table with columns of its own has no reason to refuse. -/
theorem applyRewrites_owned {front back : List Table} {rs : List Rewrite}
    (hvalues : s.tables.values = front ++ t :: back) (ho : t.entries.Ordered) (howned : t.isStatic = false)
    (hrs : ∀ r ∈ rs, r.table = front.length ∧
      ∃ c ∈ t.entries.values, Entry.isLive c = true ∧ c.name = some r.column) :
    (s.applyRewrites rs).2 = [] := by
  induction rs generalizing s t with
  | nil => rfl
  | cons r rest ih =>
    obtain ⟨htable, c, hc, hlive, hname⟩ := hrs r List.mem_cons_self
    have hget : s.tables.get? r.table = some t := by
      rw [← Entries.getElem?_values, hvalues, htable]
      simp
    obtain ⟨columns, hcolumns⟩ : ∃ columns, t.columns = .owned columns := by
      cases hcolumns : t.columns with
      | shared columns => simp [Table.isStatic, hcolumns, Slot.isOwned] at howned
      | owned columns => exact ⟨columns, rfl⟩
    have hentries : t.entries = columns := by simp [Table.entries, hcolumns, Slot.value]
    have hnone : (s.applyRewrite r).2 = none := by
      obtain ⟨i, hi⟩ := Option.ne_none_iff_exists'.mp (Entries.findLive?_ne_none ho hc hname hlive)
      rw [hentries] at hi
      simp only [applyRewrite, hget, Table.ownedColumns, hcolumns, hi]
    have hsame := sameButKeys_retarget t r
    have hmoved : (s.applyRewrite r).1.tables.values = front ++ retarget t r :: back := by
      rw [(applyRewrite_spec s r).1, hvalues, htable, modify_middle]
    have hrest := ih hmoved (hsame.ordered ho) (hsame.isStatic.trans howned) fun r' hr' => by
      obtain ⟨htable', c', hc', hlive', hname'⟩ := hrs r' (List.mem_cons_of_mem r hr')
      have hstripped : c'.removeReference ∈ (retarget t r).entries.values.map Column.removeReference :=
        hsame.columns ▸ List.mem_map_of_mem hc'
      obtain ⟨moved, hmem, heq⟩ := List.mem_map.mp hstripped
      have hmovedName : moved.removeReference.name = c'.removeReference.name := congrArg _ heq
      have hmovedLive : Entry.isLive moved.removeReference = Entry.isLive c'.removeReference :=
        congrArg _ heq
      exact ⟨htable', moved, hmem, hmovedLive.trans hlive', hmovedName.trans hname'⟩
    rw [applyRewrites_cons, hnone, hrest]
    rfl

/-- What a trace leaves of a table: the keys of a live table are settled, if it has its own columns. -/
structure Retraced (s : Schema) (t t' : Table) : Prop where
  same : SameButKeys t t'
  stays : Entry.isLive t = false ∨ t.isStatic = true → t' = t
  settled : Entry.isLive t = true → t.isStatic = false →
    t'.entries.values = t.entries.values.map s.settleColumn

/-- The faults of the static tables among live ones, one for each rewrite that was asked for. -/
def refusals (s : Schema) (entries : List (Table × Nat)) : List Fault :=
  (entries.filter fun entry => Entry.isLive entry.1 && entry.1.isStatic).flatMap fun entry =>
    ((sitesOf entry.2 entry.1).filterMap s.asked?).map fun _ => .staticData (Entry.displayName entry.1)

/-- What a trace makes of a table. -/
def traced (s : Schema) (t : Table) : Table := if Entry.isLive t then reworded s.asked? t else t

theorem uniform_asked? (s : Schema) : Uniform s.asked? := by
  intro site i
  unfold asked? renaming?
  dsimp only
  cases newName? site.key.table (s.outcome site.key).table <;>
    cases newName? site.key.column (s.outcome site.key).column <;> rfl

/-- **The rewrites go to the tables one after the other.** -/
theorem values_asked (s₀ s : Schema) :
    (s.applyRewrites ((sites s.tables.values.zipIdx).filterMap s₀.asked?)).1.tables.values =
      s.tables.values.map s₀.traced := by
  rw [values_applyRewrites]
  exact foldl_retarget_sites s₀.inPlace_asked? s₀.uniform_asked? [] s.tables.values

/-- What is asked of a table concerns live columns in it. -/
theorem asked_here (s : Schema) {i : Nat} {r : Rewrite} (hr : r ∈ (sitesOf i t).filterMap s.asked?) :
    r.table = i ∧ ∃ c ∈ t.entries.values, Entry.isLive c = true ∧ c.name = some r.column := by
  obtain ⟨htable, c, hc, hname⟩ := s.inPlace_asked?.of_mem hr
  obtain ⟨hmem, hforeign⟩ := List.mem_filter.mp hc
  exact ⟨htable, c, hmem, (Bool.and_eq_true_iff.mp hforeign).1, hname⟩

/-- Static tables refuse, and no other ones. -/
theorem refusals_sites (s₀ : Schema) {front rest : List Table} (hvalues : s.tables.values = front ++ rest)
    (hrest : ∀ t ∈ rest, t.entries.Ordered) :
    (s.applyRewrites ((sites (rest.zipIdx front.length)).filterMap s₀.asked?)).2 =
      s₀.refusals (rest.zipIdx front.length) := by
  induction rest generalizing s front with
  | nil => rfl
  | cons t rest ih =>
    -- The table joins those in front once it is done.
    have hjoin : ∀ {s : Schema} {t' : Table}, s.tables.values = front ++ t' :: rest →
        (s.applyRewrites ((sites (rest.zipIdx (front.length + 1))).filterMap s₀.asked?)).2 =
          s₀.refusals (rest.zipIdx (front.length + 1)) := by
      intro s t' hs
      have hsplit : s.tables.values = (front ++ [t']) ++ rest := by simp [hs]
      have hfaults := ih hsplit fun t ht => hrest t (List.mem_cons_of_mem _ ht)
      rwa [List.length_append, List.length_singleton] at hfaults
    rw [List.zipIdx_cons]
    by_cases hlive : Entry.isLive t = true
    · have hsites : sites ((t, front.length) :: rest.zipIdx (front.length + 1)) =
          sitesOf front.length t ++ sites (rest.zipIdx (front.length + 1)) := by simp [sites, hlive]
      rw [hsites, List.filterMap_append, applyRewrites_append]
      by_cases hstatic : t.isStatic = true
      · have hget : ∀ r ∈ (sitesOf front.length t).filterMap s₀.asked?, s.tables.get? r.table = some t := by
          intro r hr
          rw [(s₀.asked_here hr).1, ← Entries.getElem?_values, hvalues]
          simp
        rw [applyRewrites_static hstatic hget]
        simp [hjoin hvalues, refusals, hlive, hstatic]
      · have howned : t.isStatic = false := by simpa using hstatic
        have hmoved := values_applyRewrites s ((sitesOf front.length t).filterMap s₀.asked?)
        rw [hvalues, foldl_retarget_middle fun r hr => (s₀.asked_here hr).1] at hmoved
        have hnone := applyRewrites_owned hvalues (hrest t List.mem_cons_self) howned fun r hr =>
          s₀.asked_here hr
        simp [hjoin hmoved, refusals, hnone, howned]
    · have hsites : sites ((t, front.length) :: rest.zipIdx (front.length + 1)) =
          sites (rest.zipIdx (front.length + 1)) := by simp [sites, hlive]
      rw [hsites]
      exact (hjoin hvalues).trans (by simp [refusals, hlive])

theorem refusals_asked (s₀ s : Schema) (h : ∀ t ∈ s.tables.values, t.entries.Ordered) :
    (s.applyRewrites ((sites s.tables.values.zipIdx).filterMap s₀.asked?)).2 =
      s₀.refusals s.tables.values.zipIdx := by
  have hvalues : s.tables.values = [] ++ s.tables.values := rfl
  exact refusals_sites s₀ hvalues h

theorem retraced_traced (s : Schema) (ho : t.entries.Ordered) (hdistinct : t.entries.Distinct) :
    Retraced s t (s.traced t) := by
  unfold traced
  by_cases hlive : Entry.isLive t = true
  · rw [if_pos hlive]
    by_cases hstatic : t.isStatic = true
    · rw [reworded_static hstatic]
      exact ⟨.refl t, fun _ => rfl, fun _ howned => absurd howned (by simp [hstatic])⟩
    · have howned : t.isStatic = false := by simpa using hstatic
      have hsettled := settled_foldl ho hdistinct howned s 0
      exact ⟨hsettled.same, fun h => absurd h (by simp [hlive, howned]), fun _ _ => hsettled.values⟩
  · rw [if_neg hlive]
    exact ⟨.refl t, fun _ => rfl, fun h => absurd h hlive⟩

theorem applyRewrites_asked (s₀ s : Schema)
    (h : ∀ t ∈ s.tables.values, t.entries.Ordered ∧ t.entries.Distinct) :
    List.Forall₂ (Retraced s₀) s.tables.values
        (s.applyRewrites ((sites s.tables.values.zipIdx).filterMap s₀.asked?)).1.tables.values ∧
      (s.applyRewrites ((sites s.tables.values.zipIdx).filterMap s₀.asked?)).2 =
        s₀.refusals s.tables.values.zipIdx := by
  refine ⟨?_, s₀.refusals_asked s fun t ht => (h t ht).1⟩
  rw [values_asked, List.forall₂_map_right_iff, List.forall₂_same]
  exact fun t ht => retraced_traced s₀ (h t ht).1 (h t ht).2

/-! ### The histories of the second trace -/

theorem edges_congr {ε : Type} [Entry ε] {log log' : List ε}
    (h : log'.map RenameGraph.edge? = log.map RenameGraph.edge?) (n : Nat) :
    RenameGraph.edges (log'.drop n) = RenameGraph.edges (log.drop n) := by
  have hedges : ∀ log : List ε, RenameGraph.edges (log.drop n) =
      ((log.map RenameGraph.edge?).drop n).filterMap id := by
    intro log
    rw [← List.map_drop, List.filterMap_map]
    rfl
  rw [hedges, hedges, h]

/-- Keys are no part of a column log. -/
theorem SameButKeys.columnFate (h : SameButKeys t t') : t'.columnFate = t.columnFate := by
  have hedge : ∀ columns : List Column, columns.map RenameGraph.edge? =
      (columns.map Column.removeReference).map RenameGraph.edge? := by
    intro columns
    rw [List.map_map]
    rfl
  have hsame : t'.entries.values.map RenameGraph.edge? = t.entries.values.map RenameGraph.edge? := by
    rw [hedge, hedge t.entries.values, h.columns]
  have hrest := congrArg Table.offset h.rest
  have hoffset : t'.offset = t.offset := hrest
  funext name
  rw [Table.columnFate, Table.columnFate, hoffset, edges_congr hsame]

theorem SameButKeys.edge? (h : SameButKeys t t') : RenameGraph.edge? t' = RenameGraph.edge? t := by
  have hrest := congrArg (fun t : Table => RenameGraph.edge? t) h.rest
  exact hrest

theorem SameButKeys.entry (h : SameButKeys t t') :
    (Entry.name t', Entry.isLive t') = (Entry.name t, Entry.isLive t) := by
  have hrest := congrArg (fun t : Table => (Entry.name t, Entry.isLive t)) h.rest
  exact hrest

theorem entry_traced (s : Schema) (t : Table) :
    (Entry.name (s.traced t), Entry.isLive (s.traced t)) = (Entry.name t, Entry.isLive t) := by
  unfold traced
  split
  · exact (sameButKeys_foldl t _).entry
  · rfl

theorem SameButKeys.distinct (h : SameButKeys t t') (hd : t.entries.Distinct) : t'.entries.Distinct := by
  have hnames : ∀ columns : List Column, (columns.filter Entry.isLive).filterMap Entry.name =
      ((columns.map Column.removeReference).filter Entry.isLive).filterMap Entry.name := by
    intro columns
    rw [List.filter_map, List.filterMap_map]
    rfl
  rw [Entries.Distinct, hnames] at hd ⊢
  rwa [h.columns]

theorem exists_retraced {tables tables' : List Table} (h : List.Forall₂ (Retraced s) tables tables')
    (ht : t' ∈ tables') : ∃ t ∈ tables, Retraced s t t' := by
  induction h with
  | nil => exact absurd ht List.not_mem_nil
  | @cons w w' _ _ hhead _ ih =>
    rcases List.mem_cons.mp ht with rfl | ht
    · exact ⟨w, List.mem_cons_self, hhead⟩
    · obtain ⟨t, hmem, hretraced⟩ := ih ht
      exact ⟨t, List.mem_cons_of_mem w hmem, hretraced⟩

theorem map_of_retraced {β : Type} {tables tables' : List Table} {f : Table → β}
    (h : List.Forall₂ (Retraced s) tables tables') (hf : ∀ {t t'}, SameButKeys t t' → f t' = f t) :
    tables'.map f = tables.map f := by
  induction h with
  | nil => rfl
  | cons hhead _ ih => rw [List.map_cons, List.map_cons, hf hhead.same, ih]

/-- **The outcome of a key is the same** once other keys are settled. -/
theorem outcome_retraced (h : List.Forall₂ (Retraced s) s.tables.values s'.tables.values)
    (hoffset : s'.offset = s.offset) (ho : s.tables.Ordered) (ho' : s'.tables.Ordered) :
    s'.outcome = s.outcome := by
  have htable : s'.tableFate = s.tableFate := by
    funext name
    rw [tableFate, tableFate, hoffset, edges_congr (map_of_retraced h SameButKeys.edge?)]
  have hget : ∀ {β : Type} {f : Table → β}, (∀ {t t'}, SameButKeys t t' → f t' = f t) → ∀ i,
      (s'.tables.get? i).map f = (s.tables.get? i).map f := by
    intro β f hf i
    rw [← Entries.getElem?_values, ← Entries.getElem?_values, ← List.getElem?_map, ← List.getElem?_map,
      map_of_retraced h hf]
  have hfind : ∀ name, (s'.find? name).map Table.columnFate = (s.find? name).map Table.columnFate := by
    intro name
    rw [find?, find?, Entries.live?, Entries.live?, Entries.findLive?_congr ho ho' (hget SameButKeys.entry)]
    cases s.tables.findLive? name with
    | none => rfl
    | some i => exact hget SameButKeys.columnFate i
  funext key
  rw [outcome, outcome, htable]
  cases s.tableFate key.table with
  | dropped => rfl
  | name target =>
    have htarget := hfind target
    cases hnew : s'.find? target with
    | none =>
      rw [hnew, Option.map_none] at htarget
      have hold : s.find? target = none := Option.map_eq_none_iff.mp htarget.symm
      simp only [hnew, hold]
    | some t' =>
      rw [hnew, Option.map_some] at htarget
      obtain ⟨t, hold, hfate⟩ := Option.map_eq_some_iff.mp htarget.symm
      simp only [hnew, hold, hfate]

/-! ### The keys of the second trace -/

theorem sitesOf_settled (howned : t'.entries.values = t.entries.values.map s.settleColumn) (i : Nat) :
    sitesOf i t' = (sitesOf i t).map fun site => { site with key := s.settle site.key } := by
  have hforeign : ∀ c, (s.settleColumn c).isForeign = c.isForeign := by
    intro c
    unfold settleColumn
    split
    · show (Entry.isLive c && (c.foreign.map s.settle).isSome) = c.isForeign
      rw [Option.isSome_map]
      rfl
    · rfl
  have hsite : ∀ c ∈ t.foreignColumns, siteOf? i (s.settleColumn c) =
      (siteOf? i c).map fun site => { site with key := s.settle site.key } := by
    intro c hc
    have hforeign := (List.mem_filter.mp hc).2
    cases hname : c.name with
    | none => simp [siteOf?, settleColumn, hname]
    | some name => cases hkey : c.foreign <;> simp [siteOf?, settleColumn, hname, hforeign, hkey]
  rw [sitesOf, sitesOf, Table.foreignColumns, howned, List.filter_map, List.filterMap_map,
    List.map_filterMap]
  have hsame : Column.isForeign ∘ s.settleColumn = Column.isForeign := funext hforeign
  rw [hsame]
  exact List.filterMap_congr hsite

/-- The keys of a table, settled or refused, have the outcomes that they had, and none of a table
with columns of its own asks for anything. -/
theorem Retraced.sites (h : Retraced s t t') (hlive : Entry.isLive t = true) (i : Nat) :
    ((sitesOf i t').filterMap fun site => (s.outcome site.key).fault) =
        (sitesOf i t).filterMap (fun site => (s.outcome site.key).fault) ∧
      (t.isStatic = false → (sitesOf i t').filterMap s.asked? = []) := by
  by_cases hstatic : t.isStatic = true
  · rw [h.stays (.inr hstatic)]
    exact ⟨rfl, fun howned => absurd howned (by simp [hstatic])⟩
  · have howned : t.isStatic = false := by simpa using hstatic
    rw [sitesOf_settled (h.settled hlive howned), List.filterMap_map, List.filterMap_map]
    refine ⟨List.filterMap_congr fun site _ => ?_, fun _ => ?_⟩
    · exact congrArg Outcome.fault (s.outcome_settle site.key)
    · exact List.filterMap_eq_nil_iff.mpr fun site _ => s.asked?_settle site.table site.column site.key

/-- What the second trace finds out: the same faults, and rewrites of static tables only, which
refuse as they did. -/
theorem sites_retraced {tables tables' : List Table} (h : List.Forall₂ (Retraced s) tables tables')
    (i : Nat) :
    ((Schema.sites (tables'.zipIdx i)).filterMap fun site => (s.outcome site.key).fault) =
        (Schema.sites (tables.zipIdx i)).filterMap (fun site => (s.outcome site.key).fault) ∧
      s.refusals (tables'.zipIdx i) = s.refusals (tables.zipIdx i) ∧
      ∀ r ∈ (Schema.sites (tables'.zipIdx i)).filterMap s.asked?,
        ∃ k t, r.table = i + k ∧ tables'[k]? = some t ∧ t.isStatic = true := by
  induction h generalizing i with
  | nil => exact ⟨rfl, rfl, by simp [Schema.sites]⟩
  | @cons t t' tables tables' hhead _ ih =>
    obtain ⟨hfaults, hrefusals, hstatic⟩ := ih (i + 1)
    have hentry := hhead.same.entry
    have hlive : Entry.isLive t' = Entry.isLive t := congrArg Prod.snd hentry
    have hcons : ∀ (t : Table) (tables : List Table), Schema.sites ((t, i) :: tables.zipIdx (i + 1)) =
        (if Entry.isLive t then sitesOf i t else []) ++ Schema.sites (tables.zipIdx (i + 1)) := by
      intro t tables
      by_cases hlive : Entry.isLive t = true <;> simp [Schema.sites, hlive]
    rw [List.zipIdx_cons, List.zipIdx_cons, hcons, hcons, hlive, List.filterMap_append,
      List.filterMap_append, List.filterMap_append, hfaults]
    have hlater : ∀ r ∈ (Schema.sites (tables'.zipIdx (i + 1))).filterMap s.asked?,
        ∃ k w, r.table = i + k ∧ (t' :: tables')[k]? = some w ∧ w.isStatic = true := by
      intro r hr
      obtain ⟨k, w, htable, hget, hw⟩ := hstatic r hr
      exact ⟨k + 1, w, by omega, hget, hw⟩
    by_cases hl : Entry.isLive t = true
    · obtain ⟨hsame, hnone⟩ := hhead.sites hl i
      rw [if_pos hl, if_pos hl, hsame]
      refine ⟨rfl, ?_, fun r hr => ?_⟩
      · by_cases hstatic : t.isStatic = true
        · rw [hhead.stays (.inr hstatic)]
          simp [refusals, hl, hstatic] at hrefusals ⊢
          exact hrefusals
        · have hstatic' : t'.isStatic = t.isStatic := hhead.same.isStatic
          simp [refusals, hl, hstatic, hstatic', hlive] at hrefusals ⊢
          exact hrefusals
      · rcases List.mem_append.mp hr with hr | hr
        · by_cases hstatic : t.isStatic = true
          · obtain ⟨htable, _⟩ := s.inPlace_asked?.of_mem hr
            exact ⟨0, t', htable, rfl, hhead.same.isStatic.trans hstatic⟩
          · rw [hnone (by simpa using hstatic)] at hr
            exact absurd hr List.not_mem_nil
        · exact hlater r hr
    · rw [if_neg hl, if_neg hl]
      refine ⟨rfl, ?_, by simpa using hlater⟩
      simp [refusals, hl, hlive] at hrefusals ⊢
      exact hrefusals

/-! ### The second trace -/

/-- Where every rewrite is refused nothing changes. -/
theorem applyRewrites_refused {rs : List Rewrite}
    (h : ∀ r ∈ rs, ∃ t, s.tables.get? r.table = some t ∧ t.isStatic = true) :
    (s.applyRewrites rs).1 = s := by
  induction rs with
  | nil => rfl
  | cons r rest ih =>
    obtain ⟨t, hget, hstatic⟩ := h r List.mem_cons_self
    have hone : s.applyRewrites [r] = (s, [Fault.staticData (Entry.displayName t)]) :=
      applyRewrites_static hstatic fun r' hr' => by rw [List.mem_singleton.mp hr', hget]
    have hstep : (s.applyRewrite r).1 = s := congrArg Prod.fst hone
    rw [applyRewrites_cons, hstep]
    exact ih fun r hr => h r (List.mem_cons_of_mem _ hr)

theorem traceForeignWith_eq (s : Schema) {p : NodePool Fate} (hp : p.Valid) (capacity : UInt64) :
    (s.traceForeignWith p capacity).1 =
        (s.applyRewrites ((sites s.tables.values.zipIdx).filterMap s.asked?)).1 ∧
      (s.traceForeignWith p capacity).2.1 =
        ((sites s.tables.values.zipIdx).filterMap fun site => (s.outcome site.key).fault) ++
          (s.applyRewrites ((sites s.tables.values.zipIdx).filterMap s.asked?)).2 := by
  obtain ⟨hrewrites, hfaults⟩ := s.resolve_spec hp capacity
  rw [← hrewrites, ← hfaults]
  exact ⟨rfl, rfl⟩

/-- **Tracing again** changes nothing and reports the same faults, whatever the pools are. -/
theorem traceForeignWith_again {p p' : NodePool Fate} (hp : p.Valid) (hp' : p'.Valid) (capacity capacity' : UInt64)
    (ho : s.tables.Ordered) (hcolumns : ∀ t ∈ s.tables.values, t.entries.Ordered ∧ t.entries.Distinct) :
    ((s.traceForeignWith p capacity).1.traceForeignWith p' capacity').1 = (s.traceForeignWith p capacity).1 ∧
      ((s.traceForeignWith p capacity).1.traceForeignWith p' capacity').2.1 =
        (s.traceForeignWith p capacity).2.1 := by
  obtain ⟨hfirst, hreports⟩ := s.traceForeignWith_eq hp capacity
  obtain ⟨hretraced, hrefusals⟩ := applyRewrites_asked s s hcolumns
  obtain ⟨hrest, hordered⟩ := s.applyRewrites_rest ((sites s.tables.values.zipIdx).filterMap s.asked?)
  rw [← hfirst] at hretraced hrest hordered
  generalize (s.traceForeignWith p capacity).1 = s₁ at *
  have houtcome : s₁.outcome = s.outcome := by
    have hoffset := congrArg Schema.offset hrest
    exact outcome_retraced hretraced hoffset ho (hordered ho)
  have hasked : s₁.asked? = s.asked? := by
    funext site
    rw [asked?, asked?, houtcome]
  have hcolumns₁ : ∀ t ∈ s₁.tables.values, t.entries.Ordered ∧ t.entries.Distinct := by
    intro t' ht'
    obtain ⟨t, ht, hkept⟩ := exists_retraced hretraced ht'
    obtain ⟨hmarked, hdistinct⟩ := hcolumns t ht
    exact ⟨hkept.same.ordered hmarked, hkept.same.distinct hdistinct⟩
  obtain ⟨hfaults, hsame, hstatic⟩ := sites_retraced hretraced 0
  obtain ⟨hsecond, hreports₁⟩ := s₁.traceForeignWith_eq hp' capacity'
  obtain ⟨_, hrefusals₁⟩ := applyRewrites_asked s s₁ hcolumns₁
  rw [hasked] at hsecond
  rw [hasked, houtcome, hfaults, hrefusals₁, hsame, ← hrefusals, ← hreports] at hreports₁
  refine ⟨?_, hreports₁⟩
  rw [hsecond]
  refine applyRewrites_refused fun r hr => ?_
  obtain ⟨k, t, htable, hget, hw⟩ := hstatic r hr
  rw [Nat.zero_add] at htable
  exact ⟨t, by rw [htable, ← Entries.getElem?_values, hget], hw⟩

/-- **A trace of foreign keys is idempotent** where live columns of a table have different names: a
second one changes nothing and reports the same faults in the same order. That the marks are true is
so in everything that the operations make. -/
theorem traceForeign_again (ho : s.tables.Ordered)
    (hmarks : ∀ t ∈ s.tables.values, t.entries.Ordered)
    (hcolumns : ∀ t ∈ s.tables.values, t.entries.Distinct) :
    s.traceForeign.1.traceForeign = s.traceForeign := by
  have hp := NodePool.valid_ofChunkSize (α := Fate) NodePool.defaultChunkSize
  obtain ⟨hstay, hreports⟩ := traceForeignWith_again hp hp RenameGraph.defaultCapacity
    RenameGraph.defaultCapacity ho fun t ht => ⟨hmarks t ht, hcolumns t ht⟩
  exact Prod.ext hstay hreports

/-- A table with keys to `a` and `c` and a static one with a key to `a`. Since then `a` has been
renamed back and forth and on to `d`, and `c` was dropped. -/
def renamedAround : Schema :=
  let toA := (Column.plain "a_id" .int).reference "a" "id"
  let toC := (Column.plain "c_id" .int).reference "c" "id"
  { name := "app", version := 1, offset := 3
    tables := { slots := [
      .owned (.plain "d"),
      .owned { name := some "x", offset := 2, columns := .owned { slots := [.owned toA, .owned toC] } },
      .owned { name := some "y", offset := 1, columns := .shared { slots := [.owned toA] } },
      .owned (.renameOf "a" "b"), .owned (.renameOf "b" "a"), .owned (.renameOf "a" "d"),
      .owned (.dropOf "c")] } }

/-- One key is rewritten, one is reported and one is refused, and then the same once more. -/
theorem traceForeign_again_renamedAround :
    renamedAround.traceForeign.2.map Fault.message =
        [Fault.message (.dropped "c"), Fault.message (.staticData "y")] ∧
      renamedAround.traceForeign.1 ≠ renamedAround ∧
      renamedAround.traceForeign.1.traceForeign = renamedAround.traceForeign := by
  have hmarks : ∀ t ∈ renamedAround.tables.values, t.entries.sorted = false := by decide
  refine ⟨by decide +kernel, by decide +kernel, traceForeign_again (Entries.ordered_of_unsorted rfl)
    (fun t ht => Entries.ordered_of_unsorted (hmarks t ht)) ?_⟩
  unfold Entries.Distinct
  decide

end Schema
end SchemaShift
