import SchemaShift.Proofs.ForeignTrace

/-! Foreign keys after a log of drops and renames.

Once a valid log is folded into a committed schema and traced, a key ends as the
replay of the log says if, and only if, the trace of its table finds what the
replay finds (`Schema.foreignKeys_follow`). Where a table takes a name that
another one has left the trace can go on along the edges of the other one
(`Schema.foreignKeys_follow_shift`). -/
namespace SchemaShift
namespace Schema

open NameChange

variable {s : Schema} {p : NodePool Fate}

/-- What was promised for a key that named the table `name`: it names what the table is called
after the log, or it stays as written and is reported if the table was dropped. -/
def Promised (log : List NameChange) (name now : String) (reported : Prop) : Prop :=
  match replay log name with
  | .name new => now = new ∧ ¬reported
  | .dropped => now = name ∧ reported

theorem promised_iff (log : List NameChange) (name : String) :
    Promised log name ((traced log name).name?.getD name) (traced log name = .dropped) ↔
      traced log name = replay log name := by
  unfold Promised
  cases hreplay : replay log name <;> cases htraced : traced log name <;> simp [Fate.name?]

/-- The history of a log answers what a trace of the log says. -/
theorem answers_log {base : List Table} {log : List NameChange} (h : Split s base (log.map table))
    (hp : p.Valid) (capacity : UInt64) : Answers (RenameGraph.ofEntries s.tables s.offset p capacity).1
      (RenameGraph.ofEntries s.tables s.offset p capacity).2 (traced log) := by
  intro name
  have hrecords := RenameGraph.records_ofEntries s.tables s.offset hp capacity
  rw [hrecords.trace?, h.values, h.offset, List.drop_left, edges_table, traced]

/-- A log brings no column logs in. -/
theorem still_log {tables : List Table} {f : String → Fate} {log : List NameChange}
    (h : Split s (tables.filterMap (carried f)) (log.map table))
    (htables : ∀ t ∈ tables, t.offset = t.entries.values.length) : s.Still := by
  intro t ht
  rw [h.values] at ht
  rcases List.mem_append.mp ht with ht | ht
  · obtain ⟨t', ht', hcarry⟩ := List.mem_filterMap.mp ht
    obtain ⟨name, rfl, _⟩ := carried_cases hcarry
    exact htables t' ht'
  · obtain ⟨change, _, rfl⟩ := List.mem_map.mp ht
    cases change <;> rfl

/-- What becomes of the foreign keys of `s` when the log of `delta` is folded in and traced. -/
structure KeysFollow (s delta : Schema) (log : List NameChange) : Prop where
  accepted : (s.accumulate delta).2 = none
  /-- Every table carries the name that the log gives it or is gone. -/
  replayed : (s.accumulate delta).1.tables.values =
    s.tables.values.filterMap (carried (replay log)) ++ log.map NameChange.table
  /-- A trace goes over the tables that are left. -/
  followed : (s.accumulate delta).1.traceForeign.1.tables.values =
    (s.tables.values.filterMap (carried (replay log))).map (followed (traced log)) ++
      log.map NameChange.table
  same : ∀ t, SameButKeys t (Schema.followed (traced log) t)
  /-- A static table refuses. -/
  static : ∀ t, t.isStatic = true → Schema.followed (traced log) t = t
  /-- A key under a column name of its own names what the trace of its table says or, if that is
  a drop, what it named before. -/
  key : ∀ t ∈ s.tables.values, ∀ t', carried (replay log) t = some t' → t.isStatic = false →
    ∀ k c name key, OnlyAt t k c name → c.foreign = some key →
      (Schema.followed (traced log) t').entries.values[k]? = some { c with
        foreign := some { key with table := (traced log key.table).name?.getD key.table } }
  /-- The drops reported are those of the keys with such a trace, one for each. -/
  reported : (s.accumulate delta).1.traceForeign.2.filterMap droppedName? =
    ((s.tables.values.filterMap (carried (replay log))).flatMap keysOf).filterMap (drop? (traced log))
  /-- A key that named `name` ends as promised if, and only if, its trace ends as the log does. -/
  promised : ∀ name, Promised log name ((traced log name).name?.getD name)
    (traced log name = .dropped) ↔ traced log name = replay log name
  /-- That is so for a table that takes no name which another one has left. -/
  undisturbed : ∀ name, Undisturbed [] name log → traced log name = replay log name

/-- **Foreign keys follow a valid log as far as their traces do**, from any committed schema with
distinct live names whose columns are in order where they are marked so. -/
theorem foreignKeys_follow (s₀ delta : Schema) (clear set : Flags) (log : List NameChange)
    {s : Schema} (hs : s = s₀.clearChanges clear set)
    (hmarks : ∀ t ∈ s.tables.values, t.entries.Ordered)
    (hnames : (s.tables.values.filterMap Table.name).Nodup)
    (hdelta : delta.tables.values = log.map NameChange.table)
    (hvalid : Valid (s.tables.values.filterMap Table.name) log) : KeysFollow s delta log := by
  have hcommitted : s.Committed := hs ▸ committed_clearChanges s₀ clear set
  obtain ⟨hok, hsplit⟩ := accumulate_log hcommitted hnames hdelta hvalid
  obtain ⟨htables, hreports⟩ := traceForeign_eq
    (still_log hsplit fun t ht => (hcommitted.tables t ht).1)
    (answers_log hsplit (NodePool.valid_ofChunkSize NodePool.defaultChunkSize) RenameGraph.defaultCapacity)
  have hlive : ∀ t ∈ s.tables.values.filterMap (carried (replay log)), Entry.isLive t = true := hsplit.live
  have hplaced : ∀ t ∈ log.map NameChange.table, Entry.isLive t = false := hsplit.placeholder
  rw [hsplit.values] at htables hreports
  refine ⟨hok, hsplit.values, ?followed, fun t => sameButKeys_foldl t _, fun t => reworded_static, ?key,
    ?reported, promised_iff log, fun name => traced_of_undisturbed⟩
  case followed =>
    rw [htables, List.map_append]
    congr 1
    · exact List.map_congr_left fun t ht => if_pos (hlive t ht)
    · refine (List.map_congr_left fun t ht => if_neg ?_).trans (List.map_id _)
      rw [hplaced t ht]
      exact Bool.false_ne_true
  case key =>
    intro t ht t' hcarry howned k c name key honly hkey
    obtain ⟨new, rfl, _⟩ := carried_cases hcarry
    have hmoved : OnlyAt { t with name := new } k c name :=
      ⟨honly.get, honly.live, honly.named, honly.only⟩
    exact hmoved.followed (hmarks t ht) howned (traced log) hkey
  case reported =>
    rw [hreports, List.filter_append, List.filter_eq_self.mpr hlive,
      List.filter_eq_nil_iff.mpr fun t ht => by simp [hplaced t ht], List.append_nil]

/-- A table with a key that names table `a`. -/
def pointing : Table :=
  { name := some "x"
    columns := .owned { slots := [.owned ((Column.plain "a_id" .int).reference "a" "id")] } }

/-- Two tables and one that names the first of them. -/
def shelf : Schema :=
  { name := "app", version := 1
    tables := { slots := [.owned (.plain "a"), .owned (.plain "b"), .owned pointing] } }

/-- The first table takes the name of the second one, which has left it. -/
def shifts : List NameChange := [.rename "b" "c", .rename "a" "b"]

/-- A delta that shifts the names. -/
def shift : Schema := ({ name := "app", version := 2 : Schema }.renameTable "b" "c").renameTable "a" "b"

theorem traced_shifts : traced shifts "a" = .name "c" := by
  have hfirst : (shifts.map edge).find? (fun edge => edge.1 = .name "a") = some (.name "a", .name "b") := by
    decide
  have hnext : ((shifts.map edge).eraseP fun edge => edge.1 = .name "a").find?
      (fun edge => edge.1 = .name "b") = some (.name "b", .name "c") := by decide
  rw [traced, RenameGraph.greedyEnd_of_some hfirst, if_neg (by decide),
    RenameGraph.greedyEnd_of_some hnext, if_neg (by decide)]
  exact RenameGraph.greedyEnd_of_none (by decide)

/-- The table that was called `a` is called `b` now, and the key that named it names `c`. -/
theorem foreignKeys_follow_shift : replay shifts "a" = .name "b" ∧
    ∃ t ∈ ((shelf.clearChanges .empty .empty).accumulate shift).1.traceForeign.1.tables.values,
      ∃ c ∈ t.entries.values, c.foreign.map ForeignKey.table = some "c" := by
  have hmarks : ∀ t ∈ (shelf.clearChanges .empty .empty).tables.values, t.entries.sorted = false := by
    decide
  have hfollow := foreignKeys_follow shelf shift .empty .empty shifts rfl
    (fun t ht => Entries.ordered_of_unsorted (hmarks t ht)) (by decide) rfl (by decide)
  have hmem : pointing.commit .empty .empty ∈ (shelf.clearChanges .empty .empty).tables.values := by
    decide
  have hcarried : carried (replay shifts) (pointing.commit .empty .empty) =
      some (pointing.commit .empty .empty) := by decide
  have honly : OnlyAt (pointing.commit .empty .empty) 0 ((Column.plain "a_id" .int).reference "a" "id")
      "a_id" := by
    have hentries : (pointing.commit .empty .empty).entries.values =
        [(Column.plain "a_id" .int).reference "a" "id"] := by decide
    refine ⟨by rw [hentries]; rfl, by decide, by decide, fun k c hk _ _ => ?_⟩
    rw [hentries] at hk
    cases k with
    | zero => rfl
    | succ k => exact absurd hk (by simp)
  have hnow := hfollow.key _ hmem _ hcarried rfl 0 _ _ _ honly rfl
  refine ⟨by decide, followed (traced shifts) (pointing.commit .empty .empty), ?_, _,
    List.mem_of_getElem? hnow, ?_⟩
  · rw [hfollow.followed]
    exact List.mem_append_left _ (List.mem_map_of_mem (List.mem_filterMap.mpr ⟨_, hmem, hcarried⟩))
  · show some ((traced shifts "a").name?.getD "a") = some "c"
    rw [traced_shifts]
    rfl

end Schema
end SchemaShift
