import SchemaShift.Proofs.NameReplay

/-! What a failed `Schema.accumulate` leaves behind.

A delta that the replay of names refuses is not begun. A delta that fails later
has changed the schema by then (`accumulate_failed`): every entry but a change of
a table makes the list of tables heavier (`weight`), and a change that fails
leaves its static table last, where the replay would have seen it. -/
namespace SchemaShift
namespace Schema

/-- What the replay of names can tell of a table. -/
def key (t : Table) : Option String × Option String × Bool := (t.name, t.oldName, t.isStatic)

/-- The number of tables, placeholders counted twice. -/
def weight (tables : List Table) : Nat :=
  tables.length + tables.countP Entry.isPlaceholder

theorem weight_append (ts ts' : List Table) : weight (ts ++ ts') = weight ts + weight ts' := by
  simp [weight]
  omega

theorem weight_singleton_pos (t : Table) : 0 < weight [t] := by
  simp [weight]

/-- A table taken out and put back at the end. -/
theorem perm_eraseIdx {ts : List Table} {i : Nat} {t : Table} (h : ts[i]? = some t) :
    (ts.eraseIdx i ++ [t]).Perm ts := by
  obtain ⟨hi, rfl⟩ := List.getElem?_eq_some_iff.mp h
  exact (List.perm_append_singleton _ _).trans (List.getElem_cons_eraseIdx_perm hi)

theorem weight_of_perm_key {ts ts' : List Table} (h : (ts.map key).Perm (ts'.map key)) :
    weight ts = weight ts' := by
  have hlength := h.length_eq
  have hcount := h.countP_eq fun k : Option String × Option String × Bool => k.2.1.isSome
  rw [List.length_map, List.length_map] at hlength
  rw [List.countP_map, List.countP_map] at hcount
  exact congrArg₂ (· + ·) hlength hcount

theorem key_of_sameEntry {t t' : Table} (h : SameEntry t t') : key t' = key t := by
  rw [key, key, h.name, h.oldName, h.isStatic]

theorem perm_key_merge {ts : List Table} {i : Nat} {t t' : Table} (h : ts[i]? = some t)
    (hsame : SameEntry t t') : ((ts.eraseIdx i ++ [t']).map key).Perm (ts.map key) := by
  have hperm := (perm_eraseIdx h).map key
  rwa [List.map_append, List.map_singleton, ← key_of_sameEntry hsame, ← List.map_singleton,
    ← List.map_append] at hperm

theorem weight_modify_named (ts : List Table) (i : Nat) (new : String) :
    weight (ts.modify i (named new)) = weight ts := by
  have holds : (ts.modify i (named new)).map Table.oldName = ts.map Table.oldName :=
    Entries.map_modify (f := named new) (fun _ => rfl) ts i
  have hcount := congrArg (List.countP Option.isSome) holds
  rw [List.countP_map, List.countP_map] at hcount
  exact congrArg₂ (· + ·) (List.length_modify ..) hcount

/-- An entry that does not make the tables heavier changes a table that stands,
which ends up last, or does nothing. -/
theorem Folded.heavier_or {s : Schema} {slot : Slot Table} {ts : List Table} {fault : Option Fault}
    (h : Folded s slot ts fault) : weight s.tables.values < weight ts ∨
      (Entry.change? slot.value = none ∧ ts = s.tables.values ∧ fault = none) ∨
      ∃ name i t t', Entry.change? slot.value = some .alter ∧ slot.value.name = some name ∧
        s.tables.values[i]? = some t ∧ Entry.isLive t = true ∧ t.name = some name ∧ SameEntry t t' ∧
        ts = s.tables.values.eraseIdx i ++ [t'] ∧ (fault.isSome = t.isStatic) := by
  have happend : ∀ t, weight s.tables.values < weight (s.tables.values ++ [t]) := by
    intro t
    rw [weight_append]
    exact Nat.lt_add_of_pos_right (weight_singleton_pos t)
  cases h with
  | skip hc => exact .inr (.inl ⟨hc, rfl, rfl⟩)
  | add hc => exact .inl (happend _)
  | adopt hc hname hi => exact .inl (happend _)
  | miss hc _ hold hi => exact .inl (happend _)
  | merge hc hname hi hget hstatic hsame =>
    obtain ⟨t, hget', hname', hlive⟩ := found_live hi
    obtain rfl := Option.some.inj (hget.symm.trans hget')
    exact .inr (.inr ⟨_, _, _, _, hc, hname, hget, hlive, hname', hsame, rfl, hstatic.symm⟩)
  | refuse hc hname hi hget hstatic =>
    obtain ⟨t, hget', hname', hlive⟩ := found_live hi
    obtain rfl := Option.some.inj (hget.symm.trans hget')
    exact .inr (.inr ⟨_, _, _, _, hc, hname, hget, hlive, hname', ⟨rfl, rfl, rfl⟩, rfl, hstatic.symm⟩)
  | drop hc hold hi =>
    obtain ⟨t, hget, _, hlive⟩ := found_live hi
    have hback := weight_of_perm_key ((perm_eraseIdx hget).map key)
    have hplaceholder : weight [slot.value] = 2 := by
      have : Entry.isPlaceholder slot.value = true := congrArg Option.isSome hold
      simp [weight, this]
    have htable : weight [t] = 1 := by
      have : Entry.isPlaceholder t = false := by simpa [Entry.isLive] using hlive
      simp [weight, this]
    rw [weight_append] at hback ⊢
    omega
  | rename hc hold hnew hi =>
    rw [weight_append, weight_modify_named]
    exact .inl (Nat.lt_add_of_pos_right (weight_singleton_pos _))

/-- Nothing that an entry does makes the tables lighter. -/
theorem Folded.weight_le {s : Schema} {slot : Slot Table} {ts : List Table} {fault : Option Fault}
    (h : Folded s slot ts fault) : weight s.tables.values ≤ weight ts := by
  rcases h.heavier_or with hlt | ⟨_, rfl, _⟩ | ⟨name, i, t, t', _, _, hget, _, _, hsame, rfl, _⟩
  · exact hlt.le
  · exact le_rfl
  · exact (weight_of_perm_key (perm_key_merge hget hsame)).ge

theorem weight_applyEntries (s : Schema) (slots : List (Slot Table)) :
    weight s.tables.values ≤ weight (s.applyEntries slots).1.tables.values := by
  induction slots generalizing s with
  | nil => exact le_rfl
  | cons slot rest ih =>
    have hstep := (folded_applyEntry s slot).weight_le
    rw [applyEntries]
    split
    · next s' heq =>
      rw [heq] at hstep
      exact hstep.trans (ih s')
    · next s' fault heq =>
      rw [heq] at hstep
      exact hstep

/-- A static table stands last that the replay of names takes for one that is not. -/
def Overlooked (base ts : List Table) : Prop :=
  ∃ rest t name, ts = rest ++ [t] ∧ Entry.isLive t = true ∧ t.name = some name ∧
    t.isStatic = true ∧ (Projection.ofTables base).lookup name = some false

/-- The names that stand are told by the keys. -/
theorem standing_of_key {base : List Table} {s : Schema} {t : Table} {name : String}
    (hkeys : (s.tables.values.map key).Perm (base.map key)) (ht : t ∈ s.tables.values)
    (hlive : Entry.isLive t = true) (hname : t.name = some name) :
    (name, t.isStatic) ∈ standing base := by
  obtain ⟨w, hw, hkey⟩ := List.mem_map.mp (hkeys.mem_iff.mp (List.mem_map_of_mem ht))
  simp only [key, Prod.mk.injEq] at hkey
  refine mem_standing.mpr ⟨w, hw, ?_, hkey.1.trans hname, hkey.2.2⟩
  rw [← hlive]
  exact isLive_congr hkey.2.1

/-- As long as the tables do not get heavier the replay of names stays where it
began, and a delta that it lets through fails at a static table that it takes for
another one. -/
theorem applyEntries_failed {base : List Table} {s : Schema} {slots : List (Slot Table)}
    {p : Projection} (hkeys : (s.tables.values.map key).Perm (base.map key))
    (hcheck : (slots.map Slot.value).foldlM Projection.step (Projection.ofTables base) = .ok p)
    (hfault : (s.applyEntries slots).2.isSome = true) :
    weight base < weight (s.applyEntries slots).1.tables.values ∨
      Overlooked base (s.applyEntries slots).1.tables.values := by
  induction slots generalizing s with
  | nil => exact absurd hfault (by simp [applyEntries])
  | cons slot rest ih =>
    have hfolded := folded_applyEntry s slot
    have hweight := weight_of_perm_key hkeys
    obtain ⟨p₁, hstep, hrest⟩ := Projection.foldlM_cons_ok hcheck
    rw [applyEntries] at hfault ⊢
    cases hentry : s.applyEntry slot with
    | mk s' fault =>
      rw [hentry] at hfolded
      rcases hfolded.heavier_or with hlt | ⟨hc, hsame, hnone⟩ |
        ⟨name, i, t, t', hc, hname, hget, hlive, hname', hsame, hts, hstatic⟩
      · refine .inl (hweight ▸ hlt.trans_le ?_)
        cases fault with
        | none => exact weight_applyEntries s' rest
        | some fault => exact le_rfl
      · obtain rfl : fault = none := hnone
        rw [Projection.step_skip _ hc] at hstep
        obtain rfl := Except.ok.inj hstep
        rw [hentry] at hfault
        exact ih (by rwa [← hsame] at hkeys) hrest hfault
      · -- The replay knows the name, and takes its table for one that is not static.
        have hstanding := standing_of_key hkeys (List.mem_of_getElem? hget) hlive hname'
        obtain ⟨b, hb⟩ := Option.isSome_iff_exists.mp (lookup_ofTables_isSome hstanding)
        rw [Projection.step_alter _ hc hname hb] at hstep
        cases b with
        | true => exact absurd hstep (by simp)
        | false =>
          obtain rfl := Except.ok.inj hstep
          cases fault with
          | some fault =>
            refine .inr ⟨_, t', name, hts, ?_, hsame.name.trans hname', ?_, hb⟩
            · rw [hsame.isLive, hlive]
            · rw [hsame.isStatic, ← hstatic]
              rfl
          | none =>
            rw [hentry] at hfault
            refine ih (List.Perm.trans ?_ hkeys) hrest hfault
            show (s'.tables.values.map key).Perm _
            rw [show s'.tables.values = _ from hts]
            exact perm_key_merge hget hsame

/-- The schema that the entries of a delta are folded into. -/
def prepared (s : Schema) : Schema := if s.accumulated then s else s.collectForeigns

theorem accumulate_of_check_ok {s delta : Schema} (h : s.checkStatic delta = .ok ()) :
    s.accumulate delta = match s.prepared.applyEntries delta.tables.slots with
      | (s, none) => ({ s with version := delta.version, accumulated := true }, none)
      | (s, some fault) => (s, some fault) := by
  rw [accumulate, h]
  rfl

/-- What folding the entries in leaves is left, but for the version and the mark. -/
theorem accumulate_folded {s delta : Schema} (h : s.checkStatic delta = .ok ()) :
    ∃ version accumulated, s.accumulate delta =
      ({ (s.prepared.applyEntries delta.tables.slots).1 with version, accumulated },
        (s.prepared.applyEntries delta.tables.slots).2) := by
  rw [accumulate_of_check_ok h]
  split
  · next s' heq => exact ⟨delta.version, true, by rw [heq]⟩
  · next s' fault heq => exact ⟨s'.version, s'.accumulated, by rw [heq]⟩

theorem perm_key_prepared (s : Schema) :
    (s.prepared.tables.values.map key).Perm (s.tables.values.map key) := by
  unfold prepared
  split
  · exact .refl _
  · refine .of_eq ?_
    simp only [collectForeigns, Entries.values_modifyAll, List.map_map]
    rfl

theorem ordered_prepared {s : Schema} (h : s.tables.Ordered) : s.prepared.tables.Ordered := by
  unfold prepared
  split
  · exact h
  · exact Entries.ordered_modifyAll _ _

theorem standing_prepared (s : Schema) :
    standing s.prepared.tables.values = standing s.tables.values := by
  unfold prepared
  split
  · rfl
  · simp only [collectForeigns, Entries.values_modifyAll, standing, List.filter_map,
      List.filterMap_map]
    rfl

/-- The replay of names lets the delta through. -/
theorem checkStatic_ok {s delta : Schema} (h : s.checkStatic delta = .ok ()) :
    ∃ p, (delta.tables.slots.map Slot.value).foldlM Projection.step
      (Projection.ofTables s.tables.values) = .ok p := by
  rw [checkStatic] at h
  cases hp : delta.tables.values.foldlM Projection.step (Projection.ofTables s.tables.values) with
  | error refused => exact absurd h (by simp [hp, bind, Except.bind])
  | ok p => exact ⟨p, hp⟩

/-- A delta that fails although the replay of names let it through has changed the schema. -/
theorem ne_of_check_ok {s delta s' : Schema} {fault : Fault} (hcheck : s.checkStatic delta = .ok ())
    (h : s.prepared.applyEntries delta.tables.slots = (s', some fault)) : s' ≠ s := by
  rintro rfl
  obtain ⟨p, hp⟩ := checkStatic_ok hcheck
  rcases applyEntries_failed s'.perm_key_prepared hp (by rw [h]; rfl) with hlt | hover
  · rw [h] at hlt
    exact absurd hlt (Nat.lt_irrefl _)
  · rw [h] at hover
    obtain ⟨rest, t, name, hts, hlive, hname, hstatic, hb⟩ := hover
    rw [hts, lookup_ofTables_concat hlive hname, hstatic] at hb
    exact absurd hb (by simp)

/-- A delta of fresh names fails in the replay of names or not at all. -/
theorem none_of_fresh {s delta : Schema} (ho : s.tables.Ordered)
    (hnodup : ((standing s.tables.values).map Prod.fst).Nodup)
    (hfresh : s.prepared.Fresh delta.tables.slots) (hcheck : s.checkStatic delta = .ok ()) :
    (s.prepared.applyEntries delta.tables.slots).2 = none := by
  obtain ⟨p, hp⟩ := checkStatic_ok hcheck
  have htracks := tracks_ofTables hnodup
  rw [← standing_prepared] at htracks
  exact applyEntries_of_fresh (ordered_prepared ho) htracks hfresh hp

/-- **A failed call leaves the schema as it was if, and only if,** the replay of
names refused the delta. So does every failed call with distinct live names and
a delta that brings no name in that stands already. -/
theorem accumulate_failed {s delta s' : Schema} {fault : Fault}
    (h : s.accumulate delta = (s', some fault)) :
    (s' = s ↔ s.checkStatic delta = .error fault) ∧
      (s.tables.Ordered → ((standing s.tables.values).map Prod.fst).Nodup →
        s.prepared.Fresh delta.tables.slots → s' = s) := by
  cases hcheck : s.checkStatic delta with
  | error refused =>
    rw [accumulate, hcheck] at h
    obtain ⟨rfl, rfl⟩ : s = s' ∧ refused = fault := by simpa using h
    exact ⟨iff_of_true rfl rfl, fun _ _ _ => rfl⟩
  | ok u =>
    rw [accumulate_of_check_ok hcheck] at h
    have hfailed : s.prepared.applyEntries delta.tables.slots = (s', some fault) := by
      split at h
      · exact absurd h (by simp)
      · next s₁ fault₁ heq =>
        rw [heq]
        exact h
    refine ⟨iff_of_false (ne_of_check_ok hcheck hfailed) (by simp), fun ho hnodup hfresh => ?_⟩
    have hnone := none_of_fresh ho hnodup hfresh hcheck
    rw [hfailed] at hnone
    exact absurd hnone (by simp)

/-- A static table and one that is not, of the same name. -/
def twins : Schema :=
  let shadowed : Table := .static "a" {}
  { name := "app", version := 1, tables := { slots := [.shared shadowed, .owned (.plain "a")] } }

/-- A delta that changes the table. -/
def touch : Schema := { name := "app", version := 2 : Schema }.alterTable "a"

/-- The replay of names sees the second table, folding in finds the first one:
the call fails and has moved it. -/
theorem accumulate_failed_twins :
    (twins.accumulate touch).2 = some (.staticData "a") ∧ (twins.accumulate touch).1 ≠ twins := by
  have hfault : (twins.accumulate touch).2 = some (.staticData "a") := by rfl
  have hcheck : twins.checkStatic touch = .ok () := by rfl
  refine ⟨hfault, fun hsame => ?_⟩
  have hrefused := (accumulate_failed (Prod.ext rfl hfault)).1.mp hsame
  rw [hcheck] at hrefused
  exact absurd hrefused (by simp)

end Schema
end SchemaShift
