import SchemaShift.Proofs.Atomicity

/-! Two deltas, one after the other or in one.

The replay of names tells from the live names alone what folding in finds among the
tables. While every entry fits when its turn comes (`Schema.FitsThrough`) the two go
side by side: either both get through, or both stop at the first change of a table
that is static (`Schema.folds_or_reaches`). A delta therefore fails exactly there, and
to fold two deltas in is to fold in the one that holds the entries of both
(`Schema.accumulate_batch`). -/
namespace SchemaShift
namespace Schema

/-! ### Entries in two parts -/

/-- Folding goes on behind entries that were folded in, and stops at a fault. -/
theorem applyEntries_append (s : Schema) (front rest : List (Slot Table)) :
    s.applyEntries (front ++ rest) =
      match s.applyEntries front with
      | (s', none) => s'.applyEntries rest
      | (s', some fault) => (s', some fault) := by
  induction front generalizing s with
  | nil => rfl
  | cons slot front ih =>
    rw [List.cons_append, applyEntries, applyEntries]
    cases hentry : s.applyEntry slot with
    | mk s' fault =>
      cases fault with
      | none => exact ih s'
      | some fault => rfl

theorem foldlM_append_ok {p p' : Projection} {front : List Table} (h : front.foldlM Projection.step p = .ok p')
    (rest : List Table) : (front ++ rest).foldlM Projection.step p = rest.foldlM Projection.step p' := by
  rw [List.foldlM_append, h]
  rfl

/-! ### The version is no part of it -/

/-- The schema as a delta of that version leaves it. -/
def stamped (version : UInt64) (s : Schema) : Schema := { s with version, accumulated := true }

variable {s s' delta : Schema} {slot : Slot Table} {slots : List (Slot Table)} {p : Projection} {name : String}

theorem prepared_stamped (version : UInt64) (s : Schema) : (s.stamped version).prepared = s.stamped version := rfl

theorem adopt_stamped (version : UInt64) (s : Schema) (t : Table) :
    (s.stamped version).adopt t = (s.adopt t).stamped version := by
  have hregister : ∀ t : Table, (s.stamped version).registerType t = (s.registerType t).stamped version := by
    intro t
    unfold registerType
    split
    · split <;> rfl
    · rfl
  rw [adopt, hregister]
  rfl

theorem applyAlter_stamped (version : UInt64) (s : Schema) (t : Table) :
    (s.stamped version).applyAlter t = ((s.applyAlter t).1.stamped version, (s.applyAlter t).2) := by
  have htables : (s.stamped version).tables = s.tables := rfl
  unfold applyAlter
  rw [htables, adopt_stamped]
  cases t.name.bind s.tables.findLive? with
  | none => rfl
  | some i =>
    dsimp only
    cases s.tables.get? i with
    | none => rfl
    | some existing =>
      dsimp only
      cases existing.accumulate t <;> rfl

theorem renameLive_stamped (version : UInt64) (s : Schema) (old new : String) :
    (s.stamped version).renameLive old new = (s.renameLive old new).stamped version := by
  have htables : (s.stamped version).tables = s.tables := rfl
  unfold renameLive
  rw [htables]
  cases s.tables.findLive? old <;> rfl

/-- **Folding an entry in** neither reads the version nor writes it. -/
theorem applyEntry_stamped (version : UInt64) (s : Schema) (slot : Slot Table) :
    (s.stamped version).applyEntry slot = ((s.applyEntry slot).1.stamped version, (s.applyEntry slot).2) := by
  have htables : (s.stamped version).tables = s.tables := rfl
  unfold applyEntry
  cases Entry.change? slot.value with
  | none => rfl
  | some change =>
    cases change with
    | add => exact Prod.ext (adopt_stamped version s slot.value) rfl
    | alter => exact applyAlter_stamped version s slot.value
    | drop =>
      dsimp only [applyDrop]
      rw [htables]
      cases slot.value.oldName.bind s.tables.findLive? <;> rfl
    | rename =>
      dsimp only [applyRename]
      cases slot.value.oldName with
      | none => rfl
      | some old =>
        cases slot.value.name with
        | none => rfl
        | some new =>
          dsimp only
          rw [renameLive_stamped]
          rfl

theorem applyEntries_stamped (version : UInt64) (s : Schema) (slots : List (Slot Table)) :
    (s.stamped version).applyEntries slots = ((s.applyEntries slots).1.stamped version, (s.applyEntries slots).2) := by
  induction slots generalizing s with
  | nil => rfl
  | cons slot rest ih =>
    rw [applyEntries, applyEntries, applyEntry_stamped]
    cases hentry : s.applyEntry slot with
    | mk s' fault =>
      cases fault with
      | none => exact ih s'
      | some fault => rfl

/-! ### Side by side -/

/-- Every entry fits when its turn comes, up to the first one that fails. -/
def FitsThrough (s : Schema) : List (Slot Table) → Prop
  | [] => True
  | slot :: rest => s.Fits slot.value ∧ ((s.applyEntry slot).2 = none → (s.applyEntry slot).1.FitsThrough rest)

/-- Folding in comes to a change of the live table of that name, which is static. -/
def ReachesStatic (s : Schema) (slots : List (Slot Table)) (name : String) : Prop :=
  ∃ front slot rest s', slots = front ++ slot :: rest ∧ s.applyEntries front = (s', none) ∧
    Entry.change? slot.value = some .alter ∧ slot.value.name = some name ∧
    ∃ t, s'.find? name = some t ∧ t.isStatic = true

instance (s : Schema) (t : Table) : Decidable (s.Fits t) :=
  match h : Entry.change? t with
  | none | some .drop => .isTrue (by simp only [Fits, h])
  | some .alter => decidable_of_iff (t.oldName = none) (by simp only [Fits, h])
  | some .add | some .rename =>
    decidable_of_iff (∀ name ∈ t.name, s.find? name = none) (by simp only [Fits, h, Option.mem_def])

instance decidableFitsThrough : (s : Schema) → (slots : List (Slot Table)) → Decidable (s.FitsThrough slots)
  | _, [] => inferInstanceAs (Decidable True)
  | s, slot :: rest =>
    have := decidableFitsThrough (s.applyEntry slot).1 rest
    inferInstanceAs (Decidable (_ ∧ _))

theorem FitsThrough.stamped (version : UInt64) (h : s.FitsThrough slots) : (s.stamped version).FitsThrough slots := by
  induction slots generalizing s with
  | nil => trivial
  | cons slot rest ih =>
    refine ⟨h.1, fun hok => ?_⟩
    rw [applyEntry_stamped] at hok ⊢
    exact ih (h.2 hok)

/-- Entries that fit throughout fit in both parts. -/
theorem FitsThrough.parts {front rest : List (Slot Table)} (h : s.FitsThrough (front ++ rest)) :
    s.FitsThrough front ∧ ∀ s', s.applyEntries front = (s', none) → s'.FitsThrough rest := by
  induction front generalizing s with
  | nil =>
    refine ⟨trivial, fun s' hs' => ?_⟩
    obtain rfl : s = s' := (Prod.mk.inj hs').1
    exact h
  | cons slot front ih =>
    obtain ⟨hfits, hlater⟩ := h
    refine ⟨⟨hfits, fun hok => (ih (hlater hok)).1⟩, fun s' hs' => ?_⟩
    rw [applyEntries] at hs'
    cases hentry : s.applyEntry slot with
    | mk s₁ fault =>
      rw [hentry] at hs' hlater
      cases fault with
      | none => exact (ih (hlater rfl)).2 s' hs'
      | some fault => exact absurd (Prod.mk.inj hs').2 (by simp)

/-- The replay of names refuses one thing, the change of what it takes for a static table. -/
theorem Projection.step_error {t : Table} {fault : Fault} (h : p.step t = .error fault) :
    ∃ name, Entry.change? t = some .alter ∧ t.name = some name ∧ p.lookup name = some true ∧
      fault = .staticData name := by
  cases hkind : Entry.change? t with
  | none =>
    rw [step_skip _ hkind] at h
    exact absurd h (by simp)
  | some change =>
    have hnames := names_of_change hkind
    cases change with
    | add =>
      obtain ⟨name, hname⟩ := Option.isSome_iff_exists.mp hnames.1
      rw [step_add _ hkind hname] at h
      exact absurd h (by simp)
    | alter =>
      obtain ⟨name, hname⟩ := Option.isSome_iff_exists.mp hnames
      cases hlookup : p.lookup name with
      | none =>
        rw [step_alter_missing _ hkind hname hlookup] at h
        exact absurd h (by simp)
      | some b =>
        rw [step_alter _ hkind hname hlookup] at h
        cases b with
        | false => exact absurd h (by simp)
        | true => exact ⟨name, rfl, hname, hlookup, (Except.error.inj h).symm⟩
    | drop =>
      obtain ⟨old, hold⟩ := Option.isSome_iff_exists.mp hnames.2
      rw [step_drop _ hkind hold] at h
      exact absurd h (by simp)
    | rename =>
      obtain ⟨new, hnew⟩ := Option.isSome_iff_exists.mp hnames.1
      obtain ⟨old, hold⟩ := Option.isSome_iff_exists.mp hnames.2
      cases hlookup : p.lookup old with
      | none =>
        rw [step_rename_missing _ hkind hold hnew hlookup] at h
        exact absurd h (by simp)
      | some b =>
        rw [step_rename _ hkind hold hnew hlookup] at h
        exact absurd h (by simp)

/-- What the replay of names knows of a name is what the live table of that name is. -/
theorem Tracks.lookup_iff (h : Tracks p (standing s.tables.values)) (ho : s.tables.Ordered) {b : Bool} :
    p.lookup name = some b ↔ ∃ t, s.find? name = some t ∧ t.isStatic = b := by
  have hfound : ∀ {t}, s.find? name = some t → (name, t.isStatic) ∈ standing s.tables.values := by
    intro t ht
    obtain ⟨hname, hlive⟩ := Entries.live?_some ht
    obtain ⟨i, _, hi⟩ := Option.bind_eq_some_iff.mp ht
    rw [← Entries.getElem?_values] at hi
    exact mem_standing.mpr ⟨t, List.mem_of_getElem? hi, hlive, hname, rfl⟩
  constructor
  · intro hb
    cases hfind : s.find? name with
    | none => exact absurd ((h.lookup name b).mp hb) (not_standing_of_find? ho hfind b)
    | some t =>
      have hstatic := (h.lookup name _).mpr (hfound hfind)
      exact ⟨t, rfl, Option.some.inj (hstatic.symm.trans hb)⟩
  · rintro ⟨t, ht, rfl⟩
    exact (h.lookup name _).mpr (hfound ht)

/-- **The replay of names and the folding go side by side.** -/
theorem folds_or_reaches (ho : s.tables.Ordered) (ht : Tracks p (standing s.tables.values))
    (hfits : s.FitsThrough slots) :
    (∃ p' s', (slots.map Slot.value).foldlM Projection.step p = .ok p' ∧ s.applyEntries slots = (s', none) ∧
        s'.tables.Ordered ∧ Tracks p' (standing s'.tables.values)) ∨
      ∃ name, (slots.map Slot.value).foldlM Projection.step p = .error (.staticData name) ∧
        s.ReachesStatic slots name := by
  induction slots generalizing s p with
  | nil => exact .inl ⟨p, s, rfl, rfl, ho, ht⟩
  | cons slot rest ih =>
    rw [List.map_cons, List.foldlM_cons]
    cases hstep : p.step slot.value with
    | error fault =>
      obtain ⟨name, hkind, hname, hlookup, rfl⟩ := Projection.step_error hstep
      exact .inr ⟨name, rfl, [], slot, rest, s, rfl, rfl, hkind, hname, (ht.lookup_iff ho).mp hlookup⟩
    | ok p₁ =>
      obtain ⟨hnone, htracks⟩ := (folded_applyEntry s slot).tracks ho ht hfits.1 hstep
      have hordered := ordered_applyEntry ho slot
      cases hentry : s.applyEntry slot with
      | mk s₁ fault =>
        have hlater := hfits.2 hnone
        rw [hentry] at hnone htracks hordered hlater
        obtain rfl : fault = none := hnone
        have hgo : ∀ rest, s.applyEntries (slot :: rest) = s₁.applyEntries rest := by
          intro rest
          rw [applyEntries, hentry]
        rcases ih hordered htracks hlater with ⟨p', s', hreplay, hfold, hrest⟩ |
          ⟨name, hreplay, front, slot', rest', s', rfl, hfold, hreach⟩
        · exact .inl ⟨p', s', hreplay, (hgo rest).trans hfold, hrest⟩
        · exact .inr ⟨name, hreplay, slot :: front, slot', rest', s', rfl, (hgo front).trans hfold, hreach⟩

/-- The change of a static table is refused. -/
theorem applyEntry_static {t : Table} (hkind : Entry.change? slot.value = some .alter)
    (hname : slot.value.name = some name) (hfind : s.find? name = some t) (hstatic : t.isStatic = true) :
    (s.applyEntry slot).2 ≠ none := by
  simp only [applyEntry, hkind]
  rcases s.applyAlter_cases hname with ⟨hi, _⟩ | ⟨i, existing, hi, hvalue, _, hcases⟩
  · rw [find?_of_findLive? hi] at hfind
    exact absurd hfind (by simp)
  · have hget : s.tables.get? i = some existing := by rw [← Entries.getElem?_values, hvalue]
    rw [find?, Entries.live?, hi, Option.bind_some, hget] at hfind
    obtain rfl := Option.some.inj hfind
    rcases hcases with ⟨_, _, howned, _⟩ | ⟨_, hrefuse⟩
    · exact absurd hstatic (by simp [howned])
    · rw [hrefuse]
      simp

/-- Entries that come to a static table are not all folded in. -/
theorem ReachesStatic.stops (h : s.ReachesStatic slots name) : (s.applyEntries slots).2 ≠ none := by
  obtain ⟨front, slot, rest, s', rfl, hfold, hkind, hname, t, hfind, hstatic⟩ := h
  have hrefused := applyEntry_static hkind hname hfind hstatic
  rw [applyEntries_append, hfold]
  dsimp only
  rw [applyEntries]
  cases hentry : s'.applyEntry slot with
  | mk s₁ fault =>
    rw [hentry] at hrefused
    cases fault with
    | none => exact absurd rfl hrefused
    | some fault => simp

/-- Where folding in comes to a static table, the replay of names refuses the delta. -/
theorem ReachesStatic.replay (h : s.ReachesStatic slots name) (ho : s.tables.Ordered)
    (ht : Tracks p (standing s.tables.values)) (hfits : s.FitsThrough slots) :
    (slots.map Slot.value).foldlM Projection.step p = .error (.staticData name) := by
  obtain ⟨front, slot, rest, s', rfl, hfold, hkind, hname, hstatic⟩ := h
  rcases folds_or_reaches ho ht hfits.parts.1 with ⟨p', s'', hreplay, hfold', ho', ht'⟩ | ⟨_, _, hreach⟩
  · obtain rfl : s'' = s' := (Prod.mk.inj (hfold'.symm.trans hfold)).1
    have hlookup := (ht'.lookup_iff ho').mpr hstatic
    rw [List.map_append, foldlM_append_ok hreplay, List.map_cons, List.foldlM_cons,
      Projection.step_alter _ hkind hname hlookup]
    rfl
  · exact absurd (congrArg Prod.snd hfold) hreach.stops

/-! ### A delta -/

/-- Different names of live tables are different names that stand. -/
theorem distinct_iff_standing (tables : Entries Table) :
    tables.Distinct ↔ ((standing tables.values).map Prod.fst).Nodup := by
  have hnames : (standing tables.values).map Prod.fst = (tables.values.filter Entry.isLive).filterMap Entry.name := by
    rw [standing, List.map_filterMap]
    refine List.filterMap_congr fun t _ => ?_
    show (t.name.map (·, t.isStatic)).map Prod.fst = t.name
    cases t.name <;> rfl
  rw [hnames, Entries.Distinct]

theorem tracks_prepared (hd : s.tables.Distinct) :
    Tracks (Projection.ofTables s.tables.values) (standing s.prepared.tables.values) := by
  rw [standing_prepared]
  exact tracks_ofTables ((distinct_iff_standing s.tables).mp hd)

/-- **A delta whose entries fit** is folded in, or it comes to a static table and is not begun. -/
theorem accumulates_or_reaches (ho : s.tables.Ordered) (hd : s.tables.Distinct)
    (hfits : s.prepared.FitsThrough delta.tables.slots) :
    (∃ s', s.prepared.applyEntries delta.tables.slots = (s', none) ∧
        s.accumulate delta = (s'.stamped delta.version, none) ∧ s'.tables.Ordered ∧ s'.tables.Distinct) ∨
      ∃ name, s.accumulate delta = (s, some (.staticData name)) ∧
        s.prepared.ReachesStatic delta.tables.slots name := by
  have hvalues : delta.tables.values = delta.tables.slots.map Slot.value := rfl
  rcases folds_or_reaches (ordered_prepared ho) (tracks_prepared hd) hfits with
    ⟨p, s', hreplay, hfold, ho', ht'⟩ | ⟨name, hreplay, hreach⟩
  · have hcheck : s.checkStatic delta = .ok () := by
      rw [checkStatic, hvalues, hreplay]
      rfl
    refine .inl ⟨s', hfold, ?_, ho', (distinct_iff_standing _).mpr ht'.nodup⟩
    rw [accumulate_of_check_ok hcheck, hfold]
    rfl
  · have hcheck : s.checkStatic delta = .error (.staticData name) := by
      rw [checkStatic, hvalues, hreplay]
      rfl
    exact .inr ⟨name, by rw [accumulate, hcheck], hreach⟩

/-- Where all entries are folded in, so is the delta. -/
theorem accumulate_of_folds (ho : s.tables.Ordered) (hd : s.tables.Distinct)
    (hfits : s.prepared.FitsThrough delta.tables.slots)
    (h : s.prepared.applyEntries delta.tables.slots = (s', none)) :
    s.accumulate delta = (s'.stamped delta.version, none) ∧ s'.tables.Ordered ∧ s'.tables.Distinct := by
  rcases accumulates_or_reaches ho hd hfits with ⟨s'', hfold, hrest⟩ | ⟨name, _, hreach⟩
  · obtain rfl : s'' = s' := (Prod.mk.inj (hfold.symm.trans h)).1
    exact hrest
  · exact absurd (congrArg Prod.snd h) hreach.stops

/-- Where folding the entries in stops, the delta fails. -/
theorem accumulate_of_stops (ho : s.tables.Ordered) (hd : s.tables.Distinct)
    (hfits : s.prepared.FitsThrough delta.tables.slots)
    (h : (s.prepared.applyEntries delta.tables.slots).2 ≠ none) : (s.accumulate delta).2 ≠ none := by
  rcases accumulates_or_reaches ho hd hfits with ⟨s', hfold, _⟩ | ⟨name, hfailed, _⟩
  · exact absurd (congrArg Prod.snd hfold) h
  · rw [hfailed]
    simp

/-- It fails exactly where it comes to a static table. -/
theorem accumulate_fault_iff (ho : s.tables.Ordered) (hd : s.tables.Distinct)
    (hfits : s.prepared.FitsThrough delta.tables.slots) (fault : Fault) :
    (s.accumulate delta).2 = some fault ↔
      ∃ name, fault = .staticData name ∧ s.prepared.ReachesStatic delta.tables.slots name := by
  constructor
  · intro hfault
    rcases accumulates_or_reaches ho hd hfits with ⟨s', _, hdone, _⟩ | ⟨name, hfailed, hreach⟩
    · exact absurd hfault (by simp [hdone])
    · rw [hfailed] at hfault
      exact ⟨name, (Option.some.inj hfault).symm, hreach⟩
  · rintro ⟨name, rfl, hreach⟩
    have hvalues : delta.tables.values = delta.tables.slots.map Slot.value := rfl
    have hreplay := hreach.replay (ordered_prepared ho) (tracks_prepared hd) hfits
    have hcheck : s.checkStatic delta = .error (.staticData name) := by
      rw [checkStatic, hvalues, hreplay]
      rfl
    rw [accumulate, hcheck]

/-- **Two deltas in one.** Let every entry of two deltas fit when its turn comes. The delta that holds
the entries of both, with the version of the second, is folded in if, and only if, the first one is and
then the second one, and both ways leave the same schema. It fails exactly where folding its entries in
comes to a change of a live table that is static, with the name of that table. -/
theorem accumulate_batch {first second : Schema} (ho : s.tables.Ordered) (hd : s.tables.Distinct)
    (hslots : delta.tables.slots = first.tables.slots ++ second.tables.slots)
    (hversion : delta.version = second.version) (hfits : s.prepared.FitsThrough delta.tables.slots) :
    ((s.accumulate delta).2 = none ↔
        (s.accumulate first).2 = none ∧ ((s.accumulate first).1.accumulate second).2 = none) ∧
      ((s.accumulate delta).2 = none →
        (s.accumulate delta).1 = ((s.accumulate first).1.accumulate second).1) ∧
      ∀ fault, (s.accumulate delta).2 = some fault ↔
        ∃ name, fault = .staticData name ∧ s.prepared.ReachesStatic delta.tables.slots name := by
  rw [← and_assoc]
  refine ⟨?_, accumulate_fault_iff ho hd hfits⟩
  have hparts := hfits
  rw [hslots] at hparts
  obtain ⟨hfirst, hsecond⟩ := hparts.parts
  have hwhole := s.prepared.applyEntries_append first.tables.slots second.tables.slots
  rw [← hslots] at hwhole
  cases hfold₁ : s.prepared.applyEntries first.tables.slots with
  | mk s₁ fault₁ =>
    rw [hfold₁] at hwhole
    cases fault₁ with
    | some fault₁ =>
      have hstops₁ := accumulate_of_stops ho hd hfirst (by simp [hfold₁])
      have hstops := accumulate_of_stops ho hd hfits (by simp [hwhole])
      exact ⟨iff_of_false hstops fun h => hstops₁ h.1, fun h => absurd h hstops⟩
    | none =>
      -- The second delta is folded into what the first one leaves, under another version.
      dsimp only at hwhole
      obtain ⟨hdone₁, ho₁, hd₁⟩ := accumulate_of_folds ho hd hfirst hfold₁
      have hstep : (s.accumulate first).1.accumulate second = (s₁.stamped first.version).accumulate second := by
        rw [hdone₁]
      have hfits₂ : (s₁.stamped first.version).prepared.FitsThrough second.tables.slots :=
        (hsecond s₁ hfold₁).stamped first.version
      have hfold₂ := applyEntries_stamped first.version s₁ second.tables.slots
      rw [← hwhole] at hfold₂
      rw [hstep, hdone₁]
      cases hfold : s.prepared.applyEntries delta.tables.slots with
      | mk s₂ fault₂ =>
        rw [hfold] at hfold₂
        cases fault₂ with
        | some fault₂ =>
          have hstops₂ := accumulate_of_stops (s := s₁.stamped first.version) ho₁ hd₁ hfits₂
            (by rw [prepared_stamped, hfold₂]; simp)
          have hstops := accumulate_of_stops ho hd hfits (by simp [hfold])
          exact ⟨iff_of_false hstops fun h => hstops₂ h.2, fun h => absurd h hstops⟩
        | none =>
          obtain ⟨hdone, _⟩ := accumulate_of_folds ho hd hfits hfold
          obtain ⟨hdone₂, _⟩ := accumulate_of_folds (s := s₁.stamped first.version) ho₁ hd₁ hfits₂ hfold₂
          rw [hdone, hdone₂, hversion]
          exact ⟨iff_of_true rfl ⟨rfl, rfl⟩, fun _ => rfl⟩

/-- Users, and countries that are static. -/
def atlas : Schema :=
  ({ name := "app", version := 1 : Schema }.createTable "users").insertStatic
    (.static "countries" { typeName := "Country", slots := [.shared (.plain "code" .string)] })

/-- Countries go, and come back as a table that is not static. -/
def reopened : Schema :=
  ({ name := "app", version := 2 : Schema }.dropTable "countries").alterTable "countries"

/-- Those countries get another name and a column. -/
def regrouped : Schema :=
  (({ name := "app", version := 3 : Schema }.renameTable "countries" "nations").alterTable "nations").editLast
    (·.appendSlot (.owned (.plain "iso" .string)))

/-- Both deltas in one. -/
def reworked : Schema :=
  { regrouped with tables := { slots := reopened.tables.slots ++ regrouped.tables.slots } }

/-- The static countries do not stand in the way of the last change: they are gone by then. -/
theorem accumulate_batch_atlas :
    atlas.tables.Ordered ∧ atlas.tables.Distinct ∧ atlas.prepared.FitsThrough reworked.tables.slots ∧
      (atlas.accumulate reworked).2 = none ∧ ((atlas.accumulate reopened).1.accumulate regrouped).2 = none ∧
      (atlas.accumulate reworked).1 = ((atlas.accumulate reopened).1.accumulate regrouped).1 := by
  have ho : atlas.tables.Ordered := Entries.ordered_of_unsorted rfl
  have hd : atlas.tables.Distinct := by decide +kernel
  have hfits : atlas.prepared.FitsThrough reworked.tables.slots := by decide +kernel
  have hdone : (atlas.accumulate reworked).2 = none := by decide +kernel
  have hslots : reworked.tables.slots = reopened.tables.slots ++ regrouped.tables.slots := rfl
  have hversion : reworked.version = regrouped.version := rfl
  obtain ⟨hiff, hsame, _⟩ := accumulate_batch ho hd hslots hversion hfits
  exact ⟨ho, hd, hfits, hdone, (hiff.mp hdone).2, hsame hdone⟩

end Schema
end SchemaShift
