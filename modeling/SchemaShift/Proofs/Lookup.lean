import SchemaShift.Proofs.StableSort
import Mathlib.Data.List.TakeWhile

/-! Looking entries up by name.

A look-up by halving answers what a scan from the front answers, as long as the
slots are in order where the mark says so (`Entries.Ordered`,
`Entries.position_eq_scan`). Sorting does not change which entry a name finds
(`Entries.live?_sort`), and among different names (`Entries.Distinct`) a live entry
is found wherever it stands. -/
namespace SchemaShift
namespace Entries

/-! ### The entries themselves -/

section Values
variable {ε : Type}

theorem getElem?_values (es : Entries ε) (i : Nat) : es.values[i]? = es.get? i := List.getElem?_map

theorem values_modify (es : Entries ε) (i : Nat) (f : ε → ε) :
    (es.modify i f).values = es.values.modify i f := by
  refine List.ext_getElem? fun j => ?_
  rw [List.getElem?_modify, getElem?_values, getElem?_values, get?, get?, modify]
  cases h : es.slots[i]? with
  | none =>
    by_cases hij : i = j
    · subst hij
      simp [h]
    · simp [hij]
  | some slot =>
    by_cases hij : i = j
    · subst hij
      obtain ⟨hlt, rfl⟩ := List.getElem?_eq_some_iff.mp h
      simp [hlt]
    · simp [hij]

/-- What stands in a changed list stood there before, or is the change of what stood there. -/
theorem mem_modify {l : List ε} {i : Nat} {f : ε → ε} {e : ε} (h : e ∈ l.modify i f) :
    e ∈ l ∨ ∃ e' ∈ l, e = f e' := by
  obtain ⟨j, hj⟩ := List.getElem?_of_mem h
  rw [List.getElem?_modify] at hj
  obtain ⟨e', he', rfl⟩ := Option.map_eq_some_iff.mp hj
  have hmem := List.mem_of_getElem? he'
  split
  · exact .inr ⟨e', hmem, rfl⟩
  · exact .inl hmem

/-- What a change does not concern is read off a changed list as before. -/
theorem map_modify {β : Type} {f : ε → ε} {g : ε → β} (h : ∀ e, g (f e) = g e) (l : List ε) (i : Nat) :
    (l.modify i f).map g = l.map g := by
  refine List.ext_getElem? fun j => ?_
  rw [List.getElem?_map, List.getElem?_map, List.getElem?_modify]
  cases l[j]? with
  | none => rfl
  | some e =>
    show some (g (if i = j then f e else e)) = some (g e)
    split
    · rw [h e]
    · rfl

theorem values_steal (es : Entries ε) (i : Nat) : (es.steal i 1).2.values = es.values.eraseIdx i := by
  simp [steal, values, List.eraseIdx_eq_take_drop_succ, List.map_take, List.map_drop]

theorem values_modifyAll (es : Entries ε) (f : ε → ε) : (es.modifyAll f).values = es.values.map f := by
  simp [modifyAll, values, Function.comp_def]

end Values

/-! ### Order -/

variable {ε : Type} [Entry ε]

/-- The mark tells the truth: slots that are marked as sorted are in order. -/
def Ordered (es : Entries ε) : Prop :=
  es.sorted = true →
    es.slots.Pairwise fun a b => Entry.nameLe (Entry.name a.value) (Entry.name b.value) = true

theorem ordered_of_unsorted {es : Entries ε} (h : es.sorted = false) : es.Ordered :=
  fun hs => absurd (h ▸ hs) Bool.false_ne_true

theorem Ordered.modify {es : Entries ε} (h : es.Ordered) (i : Nat) (f : ε → ε) :
    (es.modify i f).Ordered := by
  unfold Entries.modify
  split
  · exact ordered_of_unsorted rfl
  · exact h

/-- Changing every entry leaves the mark only where there is none. -/
theorem ordered_modifyAll (es : Entries ε) (f : ε → ε) : (es.modifyAll f).Ordered := by
  intro hsorted
  simp only [modifyAll, Bool.and_eq_true] at hsorted
  have hempty : es.slots = [] := List.isEmpty_iff.mp hsorted.2
  simp [modifyAll, hempty]

theorem ordered_sort (es : Entries ε) : es.sort.Ordered :=
  fun _ => sorted_stableSort (Entry.nameLe_isPreorder.comap fun s : Slot ε => Entry.name s.value) _

theorem sort_sort (es : Entries ε) : es.sort.sort = es.sort := by
  have hslots := stableSort_of_pairwise (es.ordered_sort rfl)
  exact congrArg (fun slots => { es.sort with slots }) hslots

/-! ### What is found has the name -/

theorem scan_some {accept : ε → Bool} {name : String} {slots : List (Slot ε)} {i : Nat}
    (h : scan accept name slots = some i) :
    ∃ s, slots[i]? = some s ∧ Entry.name s.value = some name ∧ accept s.value = true := by
  obtain ⟨hi, hp, _⟩ := List.findIdx?_eq_some_iff_getElem.mp h
  rw [Bool.and_eq_true, beq_iff_eq] at hp
  exact ⟨slots[i], List.getElem?_eq_getElem hi, hp⟩

theorem searchRun_some {accept : ε → Bool} {name : String} {slots : List (Slot ε)} {i : Nat}
    (h : searchRun accept name slots = some i) :
    ∃ s, slots[i]? = some s ∧ Entry.name s.value = some name ∧ accept s.value = true := by
  obtain ⟨k, hk, rfl⟩ := Option.map_eq_some_iff.mp h
  obtain ⟨hlt, hp, _⟩ := List.findIdx?_eq_some_iff_getElem.mp hk
  have hname := List.mem_takeWhile_imp (List.getElem_mem hlt)
  have hat := (List.prefix_iff_getElem?.mp (List.takeWhile_prefix _)) k hlt
  rw [List.getElem?_drop] at hat
  exact ⟨_, hat, beq_iff_eq.mp hname, hp⟩

/-- What a look-up finds is an accepted entry of that name, in order or not. -/
theorem position_some {es : Entries ε} {accept : ε → Bool} {name : String} {i : Nat}
    (h : es.position accept name = some i) :
    ∃ s, es.slots[i]? = some s ∧ Entry.name s.value = some name ∧ accept s.value = true := by
  unfold position at h
  split at h
  · exact searchRun_some h
  · exact scan_some h

/-- What is found live is live and has the name. -/
theorem findLive?_some {es : Entries ε} {name : String} {i : Nat} (h : es.findLive? name = some i) :
    ∃ e, es.get? i = some e ∧ Entry.name e = some name ∧ Entry.isLive e = true := by
  obtain ⟨s, hs, hname, hlive⟩ := position_some h
  exact ⟨s.value, by rw [get?, hs]; rfl, hname, hlive⟩

theorem live?_some {es : Entries ε} {name : String} {e : ε} (h : es.live? name = some e) :
    Entry.name e = some name ∧ Entry.isLive e = true := by
  obtain ⟨i, hi, he⟩ := Option.bind_eq_some_iff.mp h
  obtain ⟨e', he', hname, hlive⟩ := findLive?_some hi
  rw [he] at he'
  obtain rfl : e = e' := Option.some.inj he'
  exact ⟨hname, hlive⟩

/-! ### Halving finds what a scan finds -/

/-- For a `p` that does not hold again once it failed, halving finds where it fails. -/
theorem bisect_spec (p : Nat → Bool) (lo hi : Nat) (hlohi : lo ≤ hi)
    (hp : ∀ i j, i ≤ j → p j = true → p i = true) :
    bisect p lo hi ≤ hi ∧ (∀ i, lo ≤ i → i < bisect p lo hi → p i = true) ∧
      (∀ i, bisect p lo hi ≤ i → i < hi → p i = false) := by
  fun_induction bisect p lo hi with
  | case1 lo hi hlt hmid ih =>
    obtain ⟨hle, hbelow, habove⟩ := ih (by omega)
    refine ⟨hle, fun i hlo hi' => ?_, habove⟩
    by_cases h : i ≤ (lo + hi) / 2
    · exact hp i _ h hmid
    · exact hbelow i (by omega) hi'
  | case2 lo hi hlt hmid ih =>
    obtain ⟨hle, hbelow, habove⟩ := ih (by omega)
    refine ⟨by omega, hbelow, fun i hb hi' => ?_⟩
    by_cases h : i < (lo + hi) / 2
    · exact habove i hb h
    · exact Bool.eq_false_iff.mpr fun hpi => hmid (hp _ i (by omega) hpi)
  | case3 lo hi hlt => exact ⟨hlohi, fun i _ _ => by omega, fun i _ _ => by omega⟩

/-- Among names from `name` on, in order, those of the name stand first. -/
theorem scan_eq_run (accept : ε → Bool) (name : String) {slots : List (Slot ε)}
    (hs : slots.Pairwise fun a b => Entry.nameLe (Entry.name a.value) (Entry.name b.value) = true)
    (hge : ∀ s ∈ slots, Entry.nameLe (some name) (Entry.name s.value) = true) :
    scan accept name slots =
      (slots.takeWhile fun s => Entry.name s.value == some name).findIdx? fun s => accept s.value := by
  induction slots with
  | nil => rfl
  | cons s rest ih =>
    obtain ⟨hhead, hrest⟩ := List.pairwise_cons.mp hs
    by_cases hname : Entry.name s.value = some name
    · have ih := ih hrest fun t ht => hge t (List.mem_cons_of_mem s ht)
      rw [scan] at ih ⊢
      rw [List.takeWhile_cons_of_pos (by rw [hname, beq_self_eq_true]), List.findIdx?_cons,
        List.findIdx?_cons, ih, hname, beq_self_eq_true, Bool.true_and]
    · -- The names behind `s` are above the one sought, as that of `s` is.
      have hnone : scan accept name (s :: rest) = none := by
        rw [scan, List.findIdx?_eq_none_iff]
        intro t ht
        have hne : Entry.name t.value ≠ some name := by
          intro hcontra
          rcases List.mem_cons.mp ht with rfl | ht
          · exact hname hcontra
          · have hle := hhead t ht
            rw [hcontra] at hle
            exact hname (Entry.nameLe_antisymm hle (hge s List.mem_cons_self))
        rw [beq_false_of_ne hne, Bool.false_and]
      rw [hnone, List.takeWhile_cons_of_neg (by rw [beq_iff_eq]; exact hname)]
      rfl

theorem findIdx?_drop {α : Type} {p : α → Bool} {l : List α} {n : Nat}
    (h : ∀ a ∈ l.take n, p a = false) (hn : n ≤ l.length) :
    l.findIdx? p = ((l.drop n).findIdx? p).map (n + ·) := by
  conv_lhs => rw [← List.take_append_drop n l]
  rw [List.findIdx?_append, List.findIdx?_eq_none_iff.mpr h, List.length_take, Nat.min_eq_left hn,
    Option.none_or]
  exact congrArg (Option.map · _) (funext fun i => Nat.add_comm i n)

/-- Where halving stops in a list in which nothing is below behind something that is not. -/
theorem bisect_list {α : Type} (below : α → Bool) {l : List α}
    (hl : l.Pairwise fun a b => below b = true → below a = true) {belowAt : Nat → Bool}
    (hbelow : ∀ i, belowAt i = l[i]?.any below) {start : Nat}
    (hstart : bisect belowAt 0 l.length = start) :
    start ≤ l.length ∧ (∀ a ∈ l.take start, below a = true) ∧ ∀ a ∈ l.drop start, below a = false := by
  have hat : ∀ {i : Nat} (h : i < l.length), belowAt i = below l[i] := fun h => by
    rw [hbelow, List.getElem?_eq_getElem h, Option.any_some]
  have hanti : ∀ i j, i ≤ j → belowAt j = true → belowAt i = true := by
    intro i j hij hj
    by_cases hjl : j < l.length
    · have hil : i < l.length := by omega
      rw [hat hjl] at hj
      rw [hat hil]
      rcases Nat.lt_or_eq_of_le hij with hlt | rfl
      · exact List.pairwise_iff_getElem.mp hl i j hil hjl hlt hj
      · exact hj
    · simp [hbelow, List.getElem?_eq_none (Nat.le_of_not_lt hjl)] at hj
  obtain ⟨hle, hbefore, hafter⟩ := bisect_spec belowAt 0 l.length (Nat.zero_le _) hanti
  rw [hstart] at hle hbefore hafter
  refine ⟨hle, fun a hmem => ?_, fun a hmem => ?_⟩
  · obtain ⟨i, hi, rfl⟩ := List.getElem_of_mem hmem
    rw [List.length_take] at hi
    have h := hbefore i (Nat.zero_le i) (by omega)
    rw [hat (by omega)] at h
    rwa [List.getElem_take]
  · obtain ⟨i, hi, rfl⟩ := List.getElem_of_mem hmem
    rw [List.length_drop] at hi
    have h := hafter (start + i) (Nat.le_add_right _ _) (by omega)
    rw [hat (by omega)] at h
    rwa [List.getElem_drop]

/-- Where the run of a name starts: the names in front are below it, no other is. -/
theorem runStart_spec (name : String) {slots : List (Slot ε)}
    (hs : slots.Pairwise fun a b => Entry.nameLe (Entry.name a.value) (Entry.name b.value) = true) :
    runStart name slots ≤ slots.length ∧
      (∀ s ∈ slots.take (runStart name slots), Entry.nameLe (some name) (Entry.name s.value) = false) ∧
      ∀ s ∈ slots.drop (runStart name slots), Entry.nameLe (some name) (Entry.name s.value) = true := by
  have hanti : slots.Pairwise fun a b => Entry.nameLt (Entry.name b.value) (some name) = true →
      Entry.nameLt (Entry.name a.value) (some name) = true := by
    refine hs.imp fun {a b} hle hlt => ?_
    rw [Entry.nameLt, Bool.not_eq_true'] at hlt ⊢
    exact Bool.eq_false_iff.mpr fun h =>
      absurd (Entry.nameLe_isPreorder.trans _ _ _ h hle) (Bool.eq_false_iff.mp hlt)
  obtain ⟨hle, hbefore, hafter⟩ := bisect_list
    (fun s : Slot ε => Entry.nameLt (Entry.name s.value) (some name)) hanti
    (fun i => by cases slots[i]? <;> rfl) (runStart.eq_1 name slots).symm
  refine ⟨hle, fun s hmem => ?_, fun s hmem => ?_⟩
  · simpa [Entry.nameLt] using hbefore s hmem
  · simpa [Entry.nameLt] using hafter s hmem

theorem searchRun_eq_scan (accept : ε → Bool) (name : String) {slots : List (Slot ε)}
    (hs : slots.Pairwise fun a b => Entry.nameLe (Entry.name a.value) (Entry.name b.value) = true) :
    searchRun accept name slots = scan accept name slots := by
  obtain ⟨hle, hbefore, hafter⟩ := runStart_spec name hs
  have hskip : ∀ s ∈ slots.take (runStart name slots),
      (Entry.name s.value == some name && accept s.value) = false := by
    intro s hmem
    have hne : Entry.name s.value ≠ some name := fun h => by
      have hlt := hbefore s hmem
      rw [h, Entry.nameLe_refl] at hlt
      exact absurd hlt (by decide)
    rw [beq_false_of_ne hne, Bool.false_and]
  rw [scan, findIdx?_drop hskip hle]
  exact congrArg (Option.map _)
    (scan_eq_run accept name (hs.sublist (List.drop_sublist _ _)) hafter).symm

/-- Halving and scanning find the same entry. -/
theorem position_eq_scan {es : Entries ε} (h : es.Ordered) (accept : ε → Bool) (name : String) :
    es.position accept name = scan accept name es.slots := by
  unfold position
  split
  · exact searchRun_eq_scan accept name (h ‹_›)
  · rfl

/-- The first element that passes stands at the first position that passes. -/
theorem bind_findIdx? {α : Type} (p : α → Bool) (l : List α) :
    ((l.findIdx? p).bind fun i => l[i]?) = l.find? p := by
  induction l with
  | nil => rfl
  | cons a rest ih =>
    rw [List.findIdx?_cons, List.find?_cons]
    cases p a
    · rw [← ih]
      cases rest.findIdx? p <;> rfl
    · rfl

/-- The live entry of a name is the first one from the front. -/
theorem live?_eq_find? {es : Entries ε} (h : es.Ordered) (name : String) :
    es.live? name =
      es.values.find? fun e => Entry.name e == some name && Entry.isLive e := by
  rw [live?, findLive?, position_eq_scan h, scan, values, List.find?_map, ← bind_findIdx?,
    Option.map_bind]
  rfl

/-- Where it stands, too. -/
theorem findLive?_eq_findIdx? {es : Entries ε} (h : es.Ordered) (name : String) :
    es.findLive? name = es.values.findIdx? fun e => Entry.name e == some name && Entry.isLive e := by
  rw [findLive?, position_eq_scan h, scan, values, List.findIdx?_map]
  rfl

/-- Where the live entry of a name stands depends on names and placeholders only. -/
theorem findLive?_congr {es es' : Entries ε} (h : es.Ordered) (h' : es'.Ordered)
    (hsame : ∀ i, (es'.get? i).map (fun e => (Entry.name e, Entry.isLive e)) =
      (es.get? i).map fun e => (Entry.name e, Entry.isLive e)) (name : String) :
    es'.findLive? name = es.findLive? name := by
  have hscan : ∀ es : Entries ε, scan Entry.isLive name es.slots =
      (es.slots.map fun s => (Entry.name s.value, Entry.isLive s.value)).findIdx? fun a =>
        a.1 == some name && a.2 := by
    intro es
    rw [List.findIdx?_map]
    rfl
  have hslots : (es'.slots.map fun s => (Entry.name s.value, Entry.isLive s.value)) =
      es.slots.map fun s => (Entry.name s.value, Entry.isLive s.value) := by
    refine List.ext_getElem? fun i => ?_
    rw [List.getElem?_map, List.getElem?_map]
    simpa only [get?, Option.map_map, Function.comp_def] using hsame i
  rw [findLive?, findLive?, position_eq_scan h, position_eq_scan h', hscan, hscan, hslots]

/-- Sorting does not change which live entry a name finds. -/
theorem live?_sort {es : Entries ε} (h : es.Ordered) (name : String) :
    es.sort.live? name = es.live? name := by
  rw [live?_eq_find? es.ordered_sort, live?_eq_find? h, values, values, List.find?_map,
    List.find?_map, sort]
  congr 1
  refine find?_stableSort (Entry.nameLe_isPreorder.comap fun s : Slot ε => Entry.name s.value) _ _ ?_
  intro a b ha hb
  simp only [Function.comp_apply, Bool.and_eq_true, beq_iff_eq] at ha hb
  rw [ha.1, hb.1]
  exact Entry.nameLe_refl _

/-- A live entry of the name is found, or one in front of it. -/
theorem findLive?_ne_none {es : Entries ε} (ho : es.Ordered) {name : String} {e : ε} (he : e ∈ es.values)
    (hname : Entry.name e = some name) (hlive : Entry.isLive e = true) : es.findLive? name ≠ none := by
  intro hnone
  rw [findLive?, position_eq_scan ho, scan, List.findIdx?_eq_none_iff] at hnone
  obtain ⟨slot, hslot, rfl⟩ := List.mem_map.mp he
  have hmiss := hnone slot hslot
  simp [hname, hlive] at hmiss

/-! ### Different names -/

/-- No two live entries have one name. -/
def Distinct (es : Entries ε) : Prop := ((es.values.filter Entry.isLive).filterMap Entry.name).Nodup

instance (es : Entries ε) : Decidable es.Distinct :=
  inferInstanceAs (Decidable ((es.values.filter Entry.isLive).filterMap Entry.name).Nodup)

/-- The entry of a name stands in one place. -/
theorem Distinct.index {es : Entries ε} (h : es.Distinct) {i j : Nat} {e e' : ε} {name : String}
    (hi : es.get? i = some e) (hj : es.get? j = some e') (he : Entry.isLive e = true)
    (he' : Entry.isLive e' = true) (hname : Entry.name e = some name)
    (hname' : Entry.name e' = some name) : i = j := by
  have hpair := List.pairwise_filter.mp (List.pairwise_filterMap.mp h)
  have happart : ∀ {i j : Nat} {e e' : ε}, es.get? i = some e → es.get? j = some e' →
      Entry.isLive e = true → Entry.isLive e' = true → Entry.name e = some name →
        Entry.name e' = some name → ¬ i < j := by
    intro i j e e' hi hj he he' hname hname' hlt
    rw [← getElem?_values] at hi hj
    obtain ⟨hil, rfl⟩ := List.getElem?_eq_some_iff.mp hi
    obtain ⟨hjl, rfl⟩ := List.getElem?_eq_some_iff.mp hj
    exact List.pairwise_iff_getElem.mp hpair i j hil hjl hlt he he' name hname name hname' rfl
  have hij := happart hi hj he he' hname hname'
  have hji := happart hj hi he' he hname' hname
  omega

/-- Among different names the live entry of a name is found, wherever it stands. -/
theorem Distinct.findLive?_iff {es : Entries ε} (h : es.Distinct) (ho : es.Ordered) {name : String}
    {i : Nat} : es.findLive? name = some i ↔
      ∃ e, es.get? i = some e ∧ Entry.name e = some name ∧ Entry.isLive e = true := by
  refine ⟨findLive?_some, fun ⟨e, he, hname, hlive⟩ => ?_⟩
  have hmem : e ∈ es.values := List.mem_of_getElem? ((getElem?_values es i).trans he)
  obtain ⟨j, hj⟩ := Option.ne_none_iff_exists'.mp (findLive?_ne_none ho hmem hname hlive)
  obtain ⟨e', he', hname', hlive'⟩ := findLive?_some hj
  rw [hj, h.index he' he hlive' hlive hname' hname]

theorem Distinct.live?_iff {es : Entries ε} (h : es.Distinct) (ho : es.Ordered) {name : String} {e : ε} :
    es.live? name = some e ↔ e ∈ es.values ∧ Entry.name e = some name ∧ Entry.isLive e = true := by
  constructor
  · intro hfind
    obtain ⟨i, _, he⟩ := Option.bind_eq_some_iff.mp hfind
    rw [← getElem?_values] at he
    exact ⟨List.mem_of_getElem? he, live?_some hfind⟩
  · rintro ⟨hmem, hname, hlive⟩
    obtain ⟨i, hi⟩ := List.getElem?_of_mem hmem
    rw [getElem?_values] at hi
    have hfind := (h.findLive?_iff ho).mpr ⟨e, hi, hname, hlive⟩
    rw [live?, hfind, Option.bind_some, hi]

end Entries
end SchemaShift
