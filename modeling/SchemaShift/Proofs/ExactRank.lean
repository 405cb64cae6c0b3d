import SchemaShift.Proofs.Circles
import SchemaShift.Proofs.Rearrange
import Mathlib.Algebra.BigOperators.Group.Finset.Basic

/-! Exact ranks.

A table that leads into no circle weighs one more than the tables that it references
do together (`Ranking.weigh_eq`), and its rank is just that, up to the greatest word
(`Schema.exactRank`). Its rank is counted up in place while those of other tables are
still open, but none of these is a table that it references: a run keeps every finished
rank exact, whether it closes circles elsewhere or not (`Ranking.runs_exact`). References
to one table stand side by side, so none is counted twice. -/
namespace SchemaShift
namespace Ranking

variable {references : List (List Reference)} {marks marks' : Marks}

/-! ### What a table weighs -/

/-- The tables that references lead to, one by one. -/
def targetsIn (rs : List Reference) : List Nat := rs.filterMap Reference.target

/-- The different tables that table `u` references. -/
def targets (references : List (List Reference)) (u : Nat) : Finset Nat :=
  (targetsIn (referencesOf references u)).toFinset

/-- One more than what the referenced tables weigh, in so many steps. -/
def weighUpTo (references : List (List Reference)) : (steps : Nat) → Nat → Nat
  | 0, _ => 1
  | steps + 1, u => 1 + ∑ v ∈ targets references u, weighUpTo references steps v

/-- What a table weighs. No way that comes to no table twice has more steps than there are tables. -/
def weigh (references : List (List Reference)) (u : Nat) : Nat :=
  weighUpTo references references.length u

theorem mem_targets {u v : Nat} : v ∈ targets references u ↔ Leads references u v := by
  rw [targets, List.mem_toFinset, targetsIn, List.mem_filterMap]
  rfl

open scoped Classical in
/-- The tables that lie ahead of table `u`. -/
noncomputable def ahead (references : List (List Reference)) (u : Nat) : Finset Nat :=
  {v ∈ Finset.range references.length | Relation.TransGen (Leads references) u v}

open scoped Classical in
theorem mem_ahead {u v : Nat} : v ∈ ahead references u ↔
    v < references.length ∧ Relation.TransGen (Leads references) u v := by
  rw [ahead, Finset.mem_filter, Finset.mem_range]

/-- Where no circle is ahead, there is less ahead of a table that is referenced. -/
theorem ahead_card_lt (hw : Within references.length references) {u v : Nat} (huv : Leads references u v)
    (hu : ¬ IntoCircle references u) : (ahead references v).card < (ahead references u).card := by
  obtain ⟨r, hr, htarget⟩ := huv
  have huv : Leads references u v := ⟨r, hr, htarget⟩
  refine Finset.card_lt_card (Finset.ssubset_iff_of_subset (fun w hw' => ?_) |>.mpr ⟨v, ?_, fun hv => ?_⟩)
  · obtain ⟨hlt, hvw⟩ := mem_ahead.mp hw'
    exact mem_ahead.mpr ⟨hlt, hvw.head huv⟩
  · exact mem_ahead.mpr ⟨hw u r hr v htarget, .single huv⟩
  · exact hu ⟨v, .single huv, (mem_ahead.mp hv).2⟩

/-- More steps than there are tables ahead make no difference. -/
theorem weighUpTo_succ (hw : Within references.length references) {steps u : Nat} (hu : ¬ IntoCircle references u)
    (hsteps : (ahead references u).card ≤ steps) :
    weighUpTo references (steps + 1) u = weighUpTo references steps u := by
  induction steps generalizing u with
  | zero =>
    have hnone : targets references u = ∅ := by
      refine Finset.eq_empty_of_forall_notMem fun v hv => ?_
      have hlt := ahead_card_lt hw (mem_targets.mp hv) hu
      omega
    show 1 + ∑ v ∈ targets references u, 1 = 1
    rw [hnone]
    rfl
  | succ steps ih =>
    rw [weighUpTo, weighUpTo]
    refine congrArg _ (Finset.sum_congr rfl fun v hv => ?_)
    have huv := mem_targets.mp hv
    have hlt := ahead_card_lt hw huv hu
    exact ih (fun hv => hu (hv.head huv)) (by omega)

/-- **A table that leads into no circle weighs one more than the tables that it references.** -/
theorem weigh_eq (hw : Within references.length references) {u : Nat} (hu : ¬ IntoCircle references u) :
    weigh references u = 1 + ∑ v ∈ targets references u, weigh references v := by
  have hcard : (ahead references u).card ≤ references.length := by
    rw [← Finset.card_range references.length]
    exact Finset.card_le_card fun v hv => Finset.mem_range.mpr (mem_ahead.mp hv).1
  exact (weighUpTo_succ hw hu hcard).symm

/-! ### What a run finds out -/

/-- The columns whose keys dangle, in order. -/
def dangling (rs : List Reference) : List String :=
  (rs.filter fun r => r.target.isNone).map Reference.column

/-- References to one table stand side by side, but for keys that dangle. -/
def Grouped (references : List (List Reference)) : Prop :=
  ∀ i seen r rest, referencesOf references i = seen ++ r :: rest → ∀ target, r.target = some target →
    target ∈ targetsIn seen → (targetsIn seen).getLast? = some target

/-- What the ranking finds out about a table that leads into no circle. -/
structure Exact (references : List (List Reference)) (v : Nat) (m : Mark) : Prop where
  rank : m.rank = min maxRank (weigh references v)
  cycle : m.cycle = false
  constrainedCycle : m.constrainedCycle = false
  retained : m.retained = dangling (referencesOf references v)

/-- It has found out so about every one that it is done with. -/
def AllExact (references : List (List Reference)) (marks : Marks) : Prop :=
  ∀ v, ¬ IntoCircle references v → 0 < (markOf marks v).rank → (markOf marks v).checking = false →
    Exact references v (markOf marks v)

/-- Part way through the references of table `i`, which leads into no circle. -/
structure Counted (references : List (List Reference)) (i : Nat) (seen : List Reference) (scan : Scan) : Prop where
  rank : (markOf scan.marks i).rank = min maxRank (1 + ∑ v ∈ (targetsIn seen).toFinset, weigh references v)
  cycle : (markOf scan.marks i).cycle = false
  constrainedCycle : (markOf scan.marks i).constrainedCycle = false
  retained : scan.retained = dangling seen
  previous : scan.previous = (targetsIn seen).getLast?
  closed : scan.closed = false

/-- Part way through the references of any table. -/
structure ScanExact (references : List (List Reference)) (i : Nat) (seen : List Reference) (scan : Scan) : Prop where
  sound : Sound scan.marks
  rank : 0 < (markOf scan.marks i).rank
  checking : (markOf scan.marks i).checking = true
  stack : StackLeads references scan.marks i
  others : AllExact references scan.marks
  here : ¬ IntoCircle references i → Counted references i seen scan

/-- What is noted with a table that is being ranked does not matter to the others. -/
theorem AllExact.beside {i : Nat} (h : AllExact references marks) (hsame : ∀ v, v ≠ i → markOf marks' v = markOf marks v)
    (hi : (markOf marks' i).checking = true) : AllExact references marks' := by
  intro v hv hpos hdone
  have hne : v ≠ i := ne_of_checking hi hdone
  rw [hsame v hne] at hpos hdone ⊢
  exact h v hv hpos hdone

theorem targetsIn_append (seen rest : List Reference) : targetsIn (seen ++ rest) = targetsIn seen ++ targetsIn rest :=
  List.filterMap_append

theorem dangling_append (seen rest : List Reference) : dangling (seen ++ rest) = dangling seen ++ dangling rest := by
  rw [dangling, List.filter_append, List.map_append]
  rfl

theorem targetsIn_of_some {r : Reference} {target : Nat} (hr : r.target = some target) : targetsIn [r] = [target] :=
  List.filterMap_cons_some hr

theorem targetsIn_of_none {r : Reference} (hr : r.target = none) : targetsIn [r] = [] :=
  List.filterMap_cons_none hr

theorem dangling_of_some {r : Reference} {target : Nat} (hr : r.target = some target) : dangling [r] = [] := by
  simp [dangling, hr]

variable {i : Nat} {seen : List Reference} {scan : Scan} {r : Reference} {target : Nat}

theorem ScanExact.keep (h : ScanExact references i seen scan) (hr : r.target = none) :
    ScanExact references i (seen ++ [r]) (scan.keep r) := by
  refine ⟨h.sound, h.rank, h.checking, h.stack, h.others, fun hi => ?_⟩
  have hcounted := h.here hi
  have htargets : targetsIn (seen ++ [r]) = targetsIn seen := by
    rw [targetsIn_append, targetsIn_of_none hr, List.append_nil]
  have hdangling : dangling [r] = [r.column] := by simp [dangling, hr]
  refine ⟨?_, hcounted.cycle, hcounted.constrainedCycle, ?_, ?_, hcounted.closed⟩
  · rw [htargets]
    exact hcounted.rank
  · rw [dangling_append, hdangling, ← hcounted.retained]
    rfl
  · rw [htargets]
    exact hcounted.previous

/-- A reference back to a table that is being ranked is none of a table that leads into no circle. -/
theorem ScanExact.close (h : ScanExact references i seen scan) (hi : IntoCircle references i) (seen' : List Reference)
    (r : Reference) : ScanExact references i seen' (scan.close i r) := by
  have hgrows := grows_close scan r h.sound h.rank
  have hchecking : (markOf (scan.close i r).marks i).checking = true := (hgrows.checking i).trans h.checking
  refine ⟨hgrows.sound, hgrows.rank_pos h.rank, hchecking,
    fun v hv => h.stack v ((hgrows.checking v).symm.trans hv), h.others.beside (fun v hv => ?_) hchecking,
    fun hnot => absurd hi hnot⟩
  exact markOf_modify_ne (Sound.lt_length h.rank) _ hv

/-- The table referenced last is not counted again. -/
theorem ScanExact.again (h : ScanExact references i seen scan) (hr : r.target = some target)
    (hprevious : scan.previous = some target) : ScanExact references i (seen ++ [r]) scan := by
  refine ⟨h.sound, h.rank, h.checking, h.stack, h.others, fun hi => ?_⟩
  have hcounted := h.here hi
  have hlast : (targetsIn seen).getLast? = some target := hcounted.previous.symm.trans hprevious
  have htargets : targetsIn (seen ++ [r]) = targetsIn seen ++ [target] := by
    rw [targetsIn_append, targetsIn_of_some hr]
  have hsame : (targetsIn (seen ++ [r])).toFinset = (targetsIn seen).toFinset := by
    rw [htargets, List.toFinset_append, List.toFinset_cons, List.toFinset_nil]
    have hmem : target ∈ (targetsIn seen).toFinset := List.mem_toFinset.mpr (List.mem_of_getLast? hlast)
    simpa using hmem
  refine ⟨?_, hcounted.cycle, hcounted.constrainedCycle, ?_, ?_, hcounted.closed⟩
  · rw [hsame]
    exact hcounted.rank
  · rw [dangling_append, dangling_of_some hr, List.append_nil]
    exact hcounted.retained
  · rw [htargets, List.getLast?_concat]
    exact hprevious

/-- **A table that is ranked counts** what it weighs. -/
theorem Counted.absorb (h : Counted references i seen scan) (hpos : 0 < (markOf scan.marks i).rank)
    (hext : Extends scan.marks marks) (hr : r.target = some target)
    (hnew : target ∉ targetsIn seen) (htarget : Exact references target (markOf marks target)) :
    Counted references i (seen ++ [r]) (scan.absorb i r target marks false) := by
  have hkept : markOf marks i = markOf scan.marks i := hext.kept i hpos
  have hself : markOf (count i target marks) i =
      { markOf scan.marks i with rank := addRank (markOf scan.marks i).rank (markOf marks target).rank } := by
    rw [count, markOf_modify_self (Sound.lt_length (hext.rank_pos hpos)), hkept]
  have htargets : targetsIn (seen ++ [r]) = targetsIn seen ++ [target] := by
    rw [targetsIn_append, targetsIn_of_some hr]
  have hinsert : (targetsIn seen ++ [target]).toFinset = insert target (targetsIn seen).toFinset := by
    ext v
    simp
  refine ⟨?rank, ?cycle, ?constrainedCycle, ?retained, ?previous, h.closed⟩
  case rank =>
    show (markOf (count i target marks) i).rank = _
    rw [hself, htargets, hinsert, Finset.sum_insert (by rwa [List.mem_toFinset])]
    show addRank _ _ = _
    rw [h.rank, htarget.rank, addRank]
    omega
  case cycle =>
    show (markOf (count i target marks) i).cycle = false
    rw [hself]
    exact h.cycle
  case constrainedCycle =>
    show (markOf (count i target marks) i).constrainedCycle = false
    rw [hself]
    exact h.constrainedCycle
  case retained =>
    rw [dangling_append, dangling_of_some hr, List.append_nil]
    exact h.retained
  case previous =>
    rw [htargets, List.getLast?_concat]
    rfl

theorem ScanExact.absorb (h : ScanExact references i seen scan) (hext : Extends scan.marks marks) {closed : Bool}
    (hothers : AllExact references marks)
    (hcounted : ¬ IntoCircle references i → Counted references i (seen ++ [r]) (scan.absorb i r target marks closed)) :
    ScanExact references i (seen ++ [r]) (scan.absorb i r target marks closed) := by
  have hgrows := hext.grows_absorb r target closed h.rank
  have hchecking := (hgrows.checking i).trans h.checking
  refine ⟨hgrows.sound, hgrows.rank_pos h.rank, hchecking, fun v hv => h.stack v ((hgrows.checking v).symm.trans hv),
    hothers.beside (fun v hv => ?_) hchecking, hcounted⟩
  exact markOf_absorb_ne (Sound.lt_length (hext.rank_pos h.rank)) hv

/-- The table has begun. -/
theorem ScanExact.start (hs : Sound marks) (hfresh : (markOf marks i).rank = 0) (hi : i < marks.length)
    (hstack : StackLeads references marks i) (h : AllExact references marks) :
    ScanExact references i [] { marks := start i marks } := by
  have hself := markOf_start_self hi
  have hchecking : (markOf (Ranking.start i marks) i).checking = true := by rw [hself]
  refine ⟨sound_start hs hi, by rw [hself]; exact Nat.one_pos, hchecking, fun v hv => ?_,
    h.beside (fun v hv => markOf_start_ne hi hv) hchecking, fun _ => ⟨?_, ?_, ?_, rfl, rfl, rfl⟩⟩
  · by_cases hvi : v = i
    · rw [hvi]
      exact .refl
    · rw [markOf_start_ne hi hvi] at hv
      exact hstack v hv
  · have hmax := maxRank_pos
    rw [hself]
    show 1 = min maxRank (1 + 0)
    omega
  · rw [hself, hs.unreached i hfresh]
  · rw [hself, hs.unreached i hfresh]

/-- **The table is done with**, and its rank is exact. -/
theorem ScanExact.finish (hw : Within references.length references)
    (h : ScanExact references i (referencesOf references i) scan) : AllExact references (finish i scan) := by
  have hlt := Sound.lt_length h.rank
  intro v hv hpos hdone
  by_cases hvi : v = i
  · subst hvi
    have hcounted := h.here hv
    rw [markOf_finish_self hlt]
    exact ⟨by rw [weigh_eq hw hv]; exact hcounted.rank, hcounted.cycle, hcounted.constrainedCycle, hcounted.retained⟩
  · rw [markOf_finish_ne hlt hvi] at hpos hdone ⊢
    exact h.others v hv hpos hdone

/-- **A run keeps finished ranks exact**, and closes no circle through a table that leads into none. -/
theorem runs_exact (hw : Within references.length references) (hgrouped : Grouped references) :
    (∀ {i marks marks' closed}, Ranks references i marks marks' closed → Sound marks →
      StackLeads references marks i → AllExact references marks →
        AllExact references marks' ∧ (¬ IntoCircle references i → closed = false)) ∧
    ∀ {i rs scan scan'}, Scans references i rs scan scan' → ∀ seen, referencesOf references i = seen ++ rs →
      ScanExact references i seen scan → ScanExact references i (seen ++ rs) scan' := by
  refine run_induct ?ranked ?fresh ?nil ?dangling ?back ?again ?call
  case ranked => exact fun i marks _ _ _ h => ⟨h, fun _ => rfl⟩
  case nil => exact fun i scan seen _ h => by rwa [List.append_nil]
  case dangling =>
    intro i r rest scan scan' hr _ ih seen hsplit h
    rw [List.append_cons] at hsplit ⊢
    exact ih _ hsplit (h.keep hr)
  case back =>
    intro i r rest target scan scan' hr hc _ ih seen hsplit h
    have hleads : Leads references i target := ⟨r, by rw [hsplit]; simp, hr⟩
    have hi := (intoCircle_of_back hleads (h.stack target hc)).1
    rw [List.append_cons] at hsplit ⊢
    exact ih _ hsplit (h.close hi _ r)
  case again =>
    intro i r rest target scan scan' hr _ hprevious _ ih seen hsplit h
    rw [List.append_cons] at hsplit ⊢
    exact ih _ hsplit (h.again hr hprevious)
  case call =>
    intro i r rest target scan marks closed scan' hr hc hprevious hrun _ ihr ih seen hsplit h
    have hleads : Leads references i target := ⟨r, by rw [hsplit]; simp, hr⟩
    have hext := ranks_extends hrun h.sound
    obtain ⟨hothers, hclosed⟩ := ihr h.sound (fun v hv => (h.stack v hv).tail hleads) h.others
    have hcounted : ¬ IntoCircle references i →
        Counted references i (seen ++ [r]) (scan.absorb i r target marks closed) := by
      intro hi
      have htarget : ¬ IntoCircle references target := fun ht => hi (ht.head hleads)
      have hhere := h.here hi
      have hnew : target ∉ targetsIn seen := fun hmem =>
        hprevious (hhere.previous.trans (hgrouped i seen r rest hsplit target hr hmem))
      have hexact := hothers target htarget (ranks_pos hrun h.sound) ((hext.checking target).trans hc)
      rw [hclosed htarget]
      exact hhere.absorb h.rank hext hr hnew hexact
    rw [List.append_cons] at hsplit ⊢
    exact ih _ hsplit (h.absorb hext hothers hcounted)
  case fresh =>
    intro i marks scan hfresh hi _ ih hs hstack h
    have hend := ih [] rfl (.start hs hfresh hi hstack h)
    exact ⟨hend.finish hw, fun hnot => (hend.here hnot).closed⟩

/-- In the end every rank is exact. -/
theorem rankAll_exact {live : List Nat} (hw : Within references.length references) (hgrouped : Grouped references)
    (hlive : ∀ i ∈ live, i < references.length) : AllExact references (rankAll references live) := by
  refine rankAll_of_runs hw hlive (fun v _ hpos => ?_) fun hrun hs hstack hexact =>
    ((runs_exact hw hgrouped).1 hrun hs hstack hexact).1
  rw [markOf_replicate] at hpos
  exact absurd hpos (Nat.lt_irrefl 0)

end Ranking

namespace Schema

open Ranking (Leads IntoCircle Grouped targetsIn_append targetsIn_of_some targetsIn_of_none maxRank)

/-! ### The references of a schema -/

theorem target_eq {tables : Entries Table} {t : Table} {r : Reference} (hr : r ∈ references tables t) :
    r.target = tables.findLive? r.targetName := by
  obtain ⟨_, _, _, _, hreference⟩ := mem_references.mp hr
  obtain ⟨_, _, _, heq⟩ := referenceOf_some hreference
  rw [heq]

/-- References to one table name it alike. -/
theorem targetName_eq {tables : Entries Table} {t : Table} {r r' : Reference} {target : Nat}
    (hr : r ∈ references tables t) (hr' : r' ∈ references tables t) (htarget : r.target = some target)
    (htarget' : r'.target = some target) : r.targetName = r'.targetName := by
  rw [target_eq hr] at htarget
  rw [target_eq hr'] at htarget'
  obtain ⟨e, he, hname, _⟩ := Entries.findLive?_some htarget
  obtain ⟨e', he', hname', _⟩ := Entries.findLive?_some htarget'
  obtain rfl := Option.some.inj (he.symm.trans he')
  exact Option.some.inj (hname.symm.trans hname')

/-- **References to one table stand side by side**, as they are sorted by its name. -/
theorem grouped_references (tables : Entries Table) : Grouped (allReferences tables) := by
  intro i seen r rest hsplit target hr hmem
  obtain ⟨t, ht, _⟩ : ∃ t, tables.get? i = some t ∧ r ∈ references tables t :=
    get?_of_reference (by rw [← allReferences, hsplit]; simp)
  rw [allReferences, referencesOf_map _ ht] at hsplit
  have hsub : (seen ++ [r]).Sublist (references tables t) := by
    rw [hsplit]
    exact ((List.nil_sublist rest).cons_cons r).append_left seen
  clear hsplit
  -- On `seen` from its end: what stands between two references to one table has the name, too.
  induction seen using List.reverseRecOn with
  | nil => exact absurd hmem List.not_mem_nil
  | append_singleton seen r₁ ih =>
    cases hr₁ : r₁.target with
    | none =>
      rw [targetsIn_append, targetsIn_of_none hr₁, List.append_nil] at hmem ⊢
      rw [List.append_assoc] at hsub
      exact ih hmem (((List.sublist_append_right [r₁] [r]).append_left seen).trans hsub)
    | some target₁ =>
      rw [targetsIn_append, targetsIn_of_some hr₁, List.getLast?_concat, ← hr₁]
      have hin := hsub.subset
      obtain ⟨r', hr', htarget'⟩ := List.mem_filterMap.mp hmem
      have hname := targetName_eq (hin (List.mem_append_left _ hr')) (hin (by simp)) htarget' hr
      have hsorted := (references_sorted tables t).sublist hsub
      have hle : r₁.targetName ≤ r.targetName := by
        have h := (List.pairwise_append.mp hsorted).2.2 r₁ (by simp) r List.mem_cons_self
        exact of_decide_eq_true h
      have hge : r'.targetName ≤ r₁.targetName := by
        rcases List.mem_append.mp hr' with hr' | hr'
        · have h := (List.pairwise_append.mp (List.pairwise_append.mp hsorted).1).2.2 r' hr' r₁ List.mem_cons_self
          exact of_decide_eq_true h
        · rw [List.mem_singleton.mp hr']
      have hsame : r₁.targetName = r.targetName := le_antisymm hle (hname ▸ hge)
      rw [target_eq (hin (by simp)), hsame, ← target_eq (hin (by simp)), hr]

/-! ### Exact ranks -/

/-- A listed foreign key leads from table `u` to table `v`. -/
def LeadsTo (s : Schema) (u v : Nat) : Prop := ∃ column, s.Refers u column v

/-- Listed keys lead from table `u` into a circle of such keys. -/
def IntoKeyCircle (s : Schema) (u : Nat) : Prop :=
  ∃ v, Relation.ReflTransGen s.LeadsTo u v ∧ Relation.TransGen s.LeadsTo v v

/-- A live table has the name. -/
def hasLive (s : Schema) (name : String) : Bool :=
  s.tables.values.any fun t => t.name == some name && Entry.isLive t

/-- The name is that of a foreign key column whose key dangles. -/
def dangles (s : Schema) (t : Table) (name : String) : Bool :=
  (t.column? name).any fun c => c.foreign.any fun key => !s.hasLive key.table

/-- The different tables that table `u` references. -/
def referenced (s : Schema) (u : Nat) : Finset Nat := Ranking.targets (allReferences s.byName) u

/-- What table `u` weighs. -/
def keyWeight (s : Schema) (u : Nat) : Nat := Ranking.weigh (allReferences s.byName) u

/-- Table `u` was `t` and is left as `t'`, with an exact rank. -/
structure ExactRank (s : Schema) (u : Nat) (t t' : Table) : Prop where
  same : t' = { t with rank := t'.rank, foreigns := t'.foreigns, flags := t.flags.remove .checking }
  rank : t'.rank = min maxRank (s.keyWeight u)
  weight : s.keyWeight u = 1 + ∑ v ∈ s.referenced u, s.keyWeight v
  referenced : ∀ v, v ∈ s.referenced u ↔ s.LeadsTo u v
  /-- Keys that dangle stay listed, and no others. -/
  foreigns : t'.foreigns.Perm (t.foreigns.filter (s.dangles t))
  referenceCycle : t'.flags.isReferenceCycle = t.flags.isReferenceCycle
  constraintCycle : t'.flags.isConstraintCycle = t.flags.isConstraintCycle

variable {s : Schema} {u v : Nat}

theorem live_of_leads (h : Leads (allReferences s.byName) u v) : v ∈ livePositions s.byName := by
  obtain ⟨r, hr, htarget⟩ := h
  obtain ⟨t, _, hreference⟩ := get?_of_reference hr
  exact mem_livePositions.mpr (target_live hreference htarget)

theorem leadsTo_iff (hu : u ∈ livePositions s.byName) :
    s.LeadsTo u v ↔ Leads (allReferences s.byName) u v := by
  constructor
  · intro ⟨column, hrefers⟩
    obtain ⟨r, hr, _, htarget⟩ := hrefers.reference
    exact ⟨r, hr, htarget⟩
  · intro ⟨r, hr, htarget⟩
    obtain ⟨t, ht, hlive⟩ := mem_livePositions.mp hu
    rw [allReferences, referencesOf_map _ ht] at hr
    obtain ⟨column, hlisted, c, hc, hreference⟩ := mem_references.mp hr
    obtain ⟨key, hkey, _, heq⟩ := referenceOf_some hreference
    rw [heq] at htarget
    exact ⟨column, t, c, key, ht, hlive, hlisted, hc, hkey, htarget⟩

theorem leadsTo_of_reaches (hu : u ∈ livePositions s.byName)
    (h : Ranking.Reaches (allReferences s.byName) u v) :
    v ∈ livePositions s.byName ∧ Relation.ReflTransGen s.LeadsTo u v := by
  induction h with
  | refl => exact ⟨hu, .refl⟩
  | tail _ hleads ih => exact ⟨live_of_leads hleads, ih.2.tail ((leadsTo_iff ih.1).mpr hleads)⟩

theorem intoKeyCircle_of_intoCircle (hu : u ∈ livePositions s.byName)
    (h : IntoCircle (allReferences s.byName) u) : s.IntoKeyCircle u := by
  obtain ⟨v, huv, hround⟩ := h
  obtain ⟨w, hvw, hwv⟩ := Relation.TransGen.head'_iff.mp hround
  obtain ⟨hv, huv⟩ := leadsTo_of_reaches hu huv
  exact ⟨v, huv, .head' ((leadsTo_iff hv).mpr hvw) (leadsTo_of_reaches (live_of_leads hvw) hwv).2⟩

theorem isSome_findLive? (s : Schema) (name : String) : (s.byName.findLive? name).isSome = s.hasLive name := by
  rw [byName, Entries.findLive?_eq_findIdx? (Entries.ordered_sort _), List.findIdx?_isSome, hasLive,
    ← s.byName_perm.any_eq]
  rfl

theorem dangling_perm (s : Schema) (t : Table) :
    (Ranking.dangling (references s.byName t)).Perm (t.foreigns.filter (s.dangles t)) := by
  refine (map_column_filter s.byName t _).trans (.of_eq (List.filter_congr fun name _ => ?_))
  rw [dangles]
  cases hc : t.column? name with
  | none => rfl
  | some c =>
    rw [Option.bind_some, referenceOf_of_name _ (Entries.live?_some hc).1, Option.any_map, Option.any_some]
    refine congrArg (Option.any · c.foreign) (funext fun key => ?_)
    show (s.byName.findLive? key.table).isNone = _
    rw [← Option.not_isSome, isSome_findLive?]

/-- **Away from circles ranks are exact**, wherever else the schema has circles. -/
theorem exactRank (s : Schema) {u : Nat} {t : Table} (ht : s.byName.get? u = some t)
    (hlive : Entry.isLive t = true) (hcircle : ¬ s.IntoKeyCircle u) :
    ∃ t' ∈ s.arrange.1, s.arrange.2.tables.get? u = some t' ∧ s.ExactRank u t t' := by
  have hu : u ∈ livePositions s.byName := mem_livePositions.mpr ⟨t, ht, hlive⟩
  have hnot : ¬ IntoCircle (allReferences s.byName) u := fun h =>
    hcircle (intoKeyCircle_of_intoCircle hu h)
  have hafter : s.arrange.2.tables.get? u = some (ranked (s.markAt u) t) := by
    rw [get?_arrange, ht, Option.map_some, arranged_of_live hlive]
  obtain ⟨done, hdone⟩ := s.marks_rootsDone
  have hpos := ((hdone.order.mem u).mp (hdone.seen hu)).1
  have hexact : Ranking.Exact (allReferences s.byName) u (s.markAt u) := by
    have hall := Ranking.rankAll_exact (within_length s.byName) (grouped_references s.byName) livePositions_lt
    rw [← marks_eq_rankAll] at hall
    exact hall u hnot hpos (hdone.checking u)
  refine ⟨ranked (s.markAt u) t, ?listed, hafter, ?same, hexact.rank, ?weight, ?referenced, ?foreigns,
    ?referenceCycle, ?constraintCycle⟩
  case listed =>
    refine (stableSort_perm _ _).mem_iff.mpr (List.mem_filter.mpr ⟨?_, hlive⟩)
    exact List.mem_of_getElem? ((Entries.getElem?_values _ _).trans hafter)
  case same => simp [ranked, hexact.cycle, hexact.constrainedCycle]
  case weight => exact Ranking.weigh_eq (within_length s.byName) hnot
  case referenced => exact fun v => Ranking.mem_targets.trans (leadsTo_iff hu).symm
  case foreigns =>
    show (s.markAt u).retained.Perm _
    rw [hexact.retained, allReferences, referencesOf_map _ ht]
    exact s.dangling_perm t
  case referenceCycle => rw [isReferenceCycle_ranked_eq, hexact.cycle, Bool.false_or]
  case constraintCycle => rw [isConstraintCycle_ranked_eq, hexact.constrainedCycle, Bool.false_or]

/-- Two tables name each other, and one of them a table that is part of no circle. -/
def layered : Schema :=
  let key (name target : String) : Slot Column := .owned ((Column.plain name .int64).reference target "id")
  let table (name : String) (columns : List (Slot Column)) : Slot Table :=
    .owned { Table.plain name with
      columns := .owned { slots := columns }, foreigns := columns.filterMap fun c => c.value.name }
  { name := "app", version := 1
    tables := { slots := [table "a" [key "b" "b"], table "b" [key "a" "a", key "d" "d"], table "c" [],
      table "d" [key "c" "c"],
      table "e" [key "first" "d", key "lost" "gone", key "c" "c", key "second" "d"]] } }

/-- Two keys to one table count once, and a key that dangles stays. -/
theorem exactRank_layered : ∃ e e', layered.byName.get? 4 = some e ∧
    layered.arrange.2.tables.get? 4 = some e' ∧ layered.ExactRank 4 e e' ∧
    e'.rank = 4 ∧ e'.foreigns = ["lost"] ∧ ¬ layered.IntoKeyCircle 4 := by
  have hedges : ∀ u < layered.byName.length, ∀ r ∈ (allReferences layered.byName)[u]?.getD [],
      ∀ v ∈ r.target, 2 ≤ u → 2 ≤ v ∧ v < u := by decide +kernel
  -- No key leads from these tables up or to one that is part of the circle.
  have hdown : ∀ {u v}, layered.LeadsTo u v → 2 ≤ u → 2 ≤ v ∧ v < u := by
    intro u v ⟨column, hrefers⟩
    obtain ⟨t, ht, _⟩ := hrefers.live
    obtain ⟨r, hr, _, hv⟩ := hrefers.reference
    exact hedges u (get?_lt ht) r hr v hv
  have hstays : ∀ {v}, Relation.ReflTransGen layered.LeadsTo 4 v → 2 ≤ v := by
    intro v h
    induction h with
    | refl => decide
    | tail _ hleads ih => exact (hdown hleads ih).1
  have hfalls : ∀ {u v}, Relation.TransGen layered.LeadsTo u v → 2 ≤ u → 2 ≤ v ∧ v < u := by
    intro u v h hu
    induction h with
    | single hleads => exact hdown hleads hu
    | tail _ hleads ih =>
      have hlast := hdown hleads ih.1
      omega
  have hcircle : ¬ layered.IntoKeyCircle 4 := by
    intro ⟨v, hreach, hround⟩
    exact Nat.lt_irrefl v (hfalls hround (hstays hreach)).2
  obtain ⟨e, he, hlive⟩ : ∃ e, layered.byName.get? 4 = some e ∧ Entry.isLive e = true := by
    exact ⟨_, rfl, by decide +kernel⟩
  obtain ⟨e', _, he', hexact⟩ := exactRank layered he hlive hcircle
  have hfound : (layered.arrange.2.tables.get? 4).map (fun t => (t.rank, t.foreigns)) = some (4, ["lost"]) := by
    decide +kernel
  rw [he', Option.map_some] at hfound
  obtain ⟨hrank, hforeigns⟩ := Prod.ext_iff.mp (Option.some.inj hfound)
  exact ⟨e, e', he, he', hexact, hrank, hforeigns, hcircle⟩

end Schema
end SchemaShift
