import SchemaShift.Proofs.FinishOrder
import Mathlib.Dynamics.PeriodicPts.Defs
import Mathlib.Logic.Relation

/-! Circles of references.

What a ranking keeps leads into a circle (`rankAll_turns`), but need not be part
of one: a table that only leads into a circle keeps its key when the circle is
reached through it first. The other way round a circle can be missed, except one
on which no table has a choice (`RoundTrip`): there every key is kept, wherever
the ranking enters it (`rankAll_kept`). -/
namespace SchemaShift
namespace Ranking

variable {references : List (List Reference)} {marks marks' : Marks}

/-- Table `a` has a reference to table `b`. -/
def Leads (references : List (List Reference)) (a b : Nat) : Prop :=
  ∃ r ∈ referencesOf references a, r.target = some b

/-- References lead from table `a` to table `b`, or they are one table. -/
def Reaches (references : List (List Reference)) : Nat → Nat → Prop :=
  Relation.ReflTransGen (Leads references)

/-- Some table that table `a` reaches is part of a circle. -/
def IntoCircle (references : List (List Reference)) (a : Nat) : Prop :=
  ∃ b, Reaches references a b ∧ Relation.TransGen (Leads references) b b

theorem IntoCircle.head {a b : Nat} (hab : Leads references a b) (h : IntoCircle references b) :
    IntoCircle references a :=
  let ⟨c, hbc, hc⟩ := h
  ⟨c, hbc.head hab, hc⟩

/-- A reference back to a table that leads here closes a circle. -/
theorem intoCircle_of_back {a b : Nat} (hab : Leads references a b) (hba : Reaches references b a) :
    IntoCircle references a ∧ IntoCircle references b :=
  ⟨⟨a, .refl, Relation.TransGen.head' hab hba⟩, ⟨b, .refl, Relation.TransGen.tail' hba hab⟩⟩

/-! ### What is kept leads into a circle -/

/-- Each of these columns holds a reference that dangles or leads into a circle. -/
def Turns (references : List (List Reference)) (seen : List Reference) (retained : List String) :
    Prop :=
  ∀ column ∈ retained, ∃ r ∈ seen, r.column = column ∧
    ∀ target, r.target = some target → IntoCircle references target

/-- So do the columns kept of every table. -/
def AllTurn (references : List (List Reference)) (marks : Marks) : Prop :=
  ∀ v, Turns references (referencesOf references v) (markOf marks v).retained

/-- Every table that is being ranked leads to table `i`. -/
def StackLeads (references : List (List Reference)) (marks : Marks) (i : Nat) : Prop :=
  ∀ v, (markOf marks v).checking = true → Reaches references v i

/-- Part way through the references of table `i`. -/
structure ScanTurns (references : List (List Reference)) (i : Nat) (seen : List Reference)
    (scan : Scan) : Prop where
  sound : Sound scan.marks
  rank : 0 < (markOf scan.marks i).rank
  stack : StackLeads references scan.marks i
  others : AllTurn references scan.marks
  kept : Turns references seen scan.retained
  closed : scan.closed = true → IntoCircle references i

theorem Turns.append {seen : List Reference} {retained : List String} (h : Turns references seen retained)
    (r : Reference) : Turns references (seen ++ [r]) retained := fun column hcolumn =>
  let ⟨r', hr', hrest⟩ := h column hcolumn
  ⟨r', List.mem_append_left _ hr', hrest⟩

theorem Turns.keep {seen : List Reference} {retained : List String} {r : Reference}
    (h : Turns references seen retained)
    (hr : ∀ target, r.target = some target → IntoCircle references target) :
    Turns references (seen ++ [r]) (retained ++ [r.column]) := by
  intro column hcolumn
  rcases List.mem_append.mp hcolumn with hcolumn | hcolumn
  · exact h.append r column hcolumn
  · exact ⟨r, by simp, (List.mem_singleton.mp hcolumn).symm, hr⟩

/-- A change of a mark that leaves the columns kept alone. -/
theorem AllTurn.modify {i : Nat} {f : Mark → Mark} (h : AllTurn references marks) (hi : i < marks.length)
    (hf : (f (markOf marks i)).retained = (markOf marks i).retained) :
    AllTurn references (marks.modify i f) := by
  intro v
  by_cases hv : v = i
  · subst hv
    rw [markOf_modify_self hi, hf]
    exact h v
  · rw [markOf_modify_ne hi f hv]
    exact h v

theorem ScanTurns.close {i : Nat} {seen : List Reference} {scan : Scan} {r : Reference}
    (h : ScanTurns references i seen scan)
    (hr : ∀ target, r.target = some target → IntoCircle references target)
    (hi : IntoCircle references i) : ScanTurns references i (seen ++ [r]) (scan.close i r) := by
  have hgrows := grows_close scan r h.sound h.rank
  exact ⟨hgrows.sound, hgrows.rank_pos h.rank, fun v hv => h.stack v ((hgrows.checking v).symm.trans hv),
    h.others.modify (Sound.lt_length h.rank) rfl, h.kept.keep hr, fun _ => hi⟩

theorem ScanTurns.absorb {i target : Nat} {seen : List Reference} {scan : Scan} {r : Reference}
    {closed : Bool} (h : ScanTurns references i seen scan) (hr : r.target = some target)
    (hi : Leads references i target) (hext : Extends scan.marks marks) (ho : AllTurn references marks)
    (hc : closed = true → IntoCircle references target) :
    ScanTurns references i (seen ++ [r]) (scan.absorb i r target marks closed) := by
  have hpos := hext.rank_pos h.rank
  have hgrows := grows_count target hext.sound hpos
  have hcount : ScanTurns references i seen { scan with marks := count i target marks } :=
    ⟨hgrows.sound, hgrows.rank_pos hpos,
      fun v hv => h.stack v ((hext.checking v).symm.trans ((hgrows.checking v).symm.trans hv)),
      ho.modify (Sound.lt_length hpos) rfl, h.kept, h.closed⟩
  cases closed with
  | true =>
    refine hcount.close (fun t ht => ?_) (.head hi (hc rfl))
    obtain rfl := Option.some.inj (hr.symm.trans ht)
    exact hc rfl
  | false =>
    exact ⟨hcount.sound, hcount.rank, hcount.stack, hcount.others, hcount.kept.append r, hcount.closed⟩

/-- **What a run keeps leads into a circle**, and so does a table through which
it closes one. -/
theorem runs_turn :
    (∀ {i marks marks' closed}, Ranks references i marks marks' closed → Sound marks →
      StackLeads references marks i → AllTurn references marks →
        AllTurn references marks' ∧ (closed = true → IntoCircle references i)) ∧
    ∀ {i rs scan scan'}, Scans references i rs scan scan' →
      (∀ r ∈ rs, r ∈ referencesOf references i) → ∀ seen, ScanTurns references i seen scan →
        ScanTurns references i (seen ++ rs) scan' := by
  refine run_induct ?ranked ?fresh ?nil ?dangling ?back ?again ?call
  case ranked => exact fun i marks _ _ _ h => ⟨h, fun hc => absurd hc (by decide)⟩
  case nil => exact fun i scan _ seen h => by rwa [List.append_nil]
  case dangling =>
    intro i r rest scan scan' hr _ ih hrs seen h
    rw [List.append_cons]
    refine ih (fun s hs => hrs s (List.mem_cons_of_mem r hs)) _
      ⟨h.sound, h.rank, h.stack, h.others, h.kept.keep fun target ht => ?_, h.closed⟩
    exact absurd (hr.symm.trans ht) (by simp)
  case back =>
    intro i r rest target scan scan' hr hc _ ih hrs seen h
    have hleads : Leads references i target := ⟨r, hrs r List.mem_cons_self, hr⟩
    obtain ⟨hi, htarget⟩ := intoCircle_of_back hleads (h.stack target hc)
    rw [List.append_cons]
    refine ih (fun s hs => hrs s (List.mem_cons_of_mem r hs)) _ (h.close (fun t ht => ?_) hi)
    obtain rfl := Option.some.inj (hr.symm.trans ht)
    exact htarget
  case again =>
    intro i r rest target scan scan' _ _ _ _ ih hrs seen h
    rw [List.append_cons]
    exact ih (fun s hs => hrs s (List.mem_cons_of_mem r hs)) _
      ⟨h.sound, h.rank, h.stack, h.others, h.kept.append r, h.closed⟩
  case call =>
    intro i r rest target scan marks closed scan' hr _ _ hrun _ ihr ih hrs seen h
    have hleads : Leads references i target := ⟨r, hrs r List.mem_cons_self, hr⟩
    obtain ⟨ho, hc⟩ := ihr h.sound (fun v hv => (h.stack v hv).tail hleads) h.others
    rw [List.append_cons]
    exact ih (fun s hs => hrs s (List.mem_cons_of_mem r hs)) _
      (h.absorb hr hleads (ranks_extends hrun h.sound) ho hc)
  case fresh =>
    intro i marks scan h0 hi hscans ih hs hstack ho
    have hself := markOf_start_self hi
    have hbegun : ScanTurns references i [] { marks := start i marks } := by
      refine ⟨sound_start hs hi, by rw [hself]; exact Nat.one_pos, fun v hv => ?_, ho.modify hi rfl,
        fun column hcolumn => absurd hcolumn List.not_mem_nil, fun hc => absurd hc (by simp)⟩
      by_cases hvi : v = i
      · rw [hvi]
        exact .refl
      · rw [markOf_start_ne hi hvi] at hv
        exact hstack v hv
    have hend := ih (fun r hr => hr) [] hbegun
    have hlt := Sound.lt_length hend.rank
    refine ⟨fun v => ?_, hend.closed⟩
    by_cases hvi : v = i
    · subst hvi
      rw [markOf_finish_self hlt]
      exact hend.kept
    · rw [markOf_finish_ne hlt hvi]
      exact hend.others v

/-- What runs preserve holds in the end, as no table is being ranked where one begins. -/
theorem rankAll_of_runs {live : List Nat} {P : Marks → Prop} (hw : Within references.length references)
    (hlive : ∀ i ∈ live, i < references.length) (init : P (List.replicate references.length {}))
    (step : ∀ {i marks marks' closed}, Ranks references i marks marks' closed → Sound marks →
      StackLeads references marks i → P marks → P marks') : P (rankAll references live) := by
  refine (rankAll_induct (P := fun _ marks => P marks ∧ ∀ v, (markOf marks v).checking = false) hw hlive
    ⟨init, fun v => by rw [markOf_replicate]⟩ ?_).1
  intro seen i marks marks' closed _ hs h hrun _
  obtain ⟨h, hchecking⟩ := h
  have hstack : StackLeads references marks i := fun v hv =>
    absurd ((hchecking v).symm.trans hv) (by decide)
  exact ⟨step hrun hs hstack h, fun v => ((ranks_extends hrun hs).checking v).trans (hchecking v)⟩

/-- Every column kept in the end dangles or leads into a circle. -/
theorem rankAll_turns {live : List Nat} (hw : Within references.length references)
    (hlive : ∀ i ∈ live, i < references.length) : AllTurn references (rankAll references live) := by
  refine rankAll_of_runs hw hlive (fun v column hcolumn => ?_) fun hrun hs hstack hturn =>
    (runs_turn.1 hrun hs hstack hturn).1
  rw [markOf_replicate] at hcolumn
  exact absurd hcolumn List.not_mem_nil

/-! ### What a run does not reach -/

/-- **A run leaves the tables alone that it does not reach.** -/
theorem runs_untouched (v : Nat) :
    (∀ {i marks marks' closed}, Ranks references i marks marks' closed → Sound marks →
      ¬ Reaches references i v → markOf marks' v = markOf marks v) ∧
    ∀ {i rs scan scan'}, Scans references i rs scan scan' →
      (∀ r ∈ rs, r ∈ referencesOf references i) → Sound scan.marks → 0 < (markOf scan.marks i).rank →
        ¬ Reaches references i v → markOf scan'.marks v = markOf scan.marks v := by
  refine run_induct ?ranked ?fresh ?nil ?dangling ?back ?again ?call
  case ranked => exact fun i marks _ _ _ => rfl
  case nil => exact fun i scan _ _ _ _ => rfl
  case dangling =>
    exact fun i r rest scan scan' _ _ ih hrs => ih fun s hs => hrs s (List.mem_cons_of_mem r hs)
  case again =>
    exact fun i r rest target scan scan' _ _ _ _ ih hrs => ih fun s hs => hrs s (List.mem_cons_of_mem r hs)
  case back =>
    intro i r rest target scan scan' _ _ _ ih hrs hs hi hv
    have hclose := grows_close scan r hs hi
    have hvi : v ≠ i := fun h => hv (h ▸ .refl)
    rw [ih (fun s hs => hrs s (List.mem_cons_of_mem r hs)) hclose.sound (hclose.rank_pos hi) hv]
    exact markOf_modify_ne (Sound.lt_length hi) _ hvi
  case call =>
    intro i r rest target scan marks closed scan' hr _ _ hrun _ ihr ih hrs hs hi hv
    have hext := ranks_extends hrun hs
    have habsorb := hext.grows_absorb r target closed hi
    have hvi : v ≠ i := fun h => hv (h ▸ .refl)
    have htarget : ¬ Reaches references target v := fun h =>
      hv (h.head ⟨r, hrs r List.mem_cons_self, hr⟩)
    rw [ih (fun s hs => hrs s (List.mem_cons_of_mem r hs)) habsorb.sound (habsorb.rank_pos hi) hv,
      markOf_absorb_ne (Sound.lt_length (hext.rank_pos hi)) hvi, ihr hs htarget]
  case fresh =>
    intro i marks scan _ hi hscans ih hs hv
    have hvi : v ≠ i := fun h => hv (h ▸ .refl)
    have hpos : 0 < (markOf (start i marks) i).rank := by
      rw [markOf_start_self hi]
      exact Nat.one_pos
    have hgrows := scans_grows hscans (sound_start hs hi) hpos
    rw [markOf_finish_ne (Sound.lt_length (hgrows.rank_pos hpos)) hvi,
      ih (fun r hr => hr) (sound_start hs hi) hpos hv, markOf_start_ne hi hvi]

/-! ### Circles without a choice -/

/-- A circle on which no table has a choice: one reference of each, `key`, leads
on to the table `after` it, and no other leads back to the circle. -/
structure RoundTrip (references : List (List Reference)) (on : Nat → Prop) (key : Nat → Reference)
    (after : Nat → Nat) : Prop where
  mem : ∀ w, on w → key w ∈ referencesOf references w
  target : ∀ w, on w → (key w).target = some (after w)
  stays : ∀ w, on w → on (after w)
  leaves : ∀ w, on w → ∀ r ∈ referencesOf references w, r ≠ key w →
    ∀ target, r.target = some target → ∀ x, on x → ¬ Reaches references target x
  /-- Going round comes to every table. -/
  round : ∀ w x, on w → on x → ∃ k, after^[k] w = x

/-- One reference of table `w` leads back to it, and no other does. -/
def Sole (references : List (List Reference)) (w : Nat) : Prop :=
  ∃ r ∈ referencesOf references w, ∃ v, r.target = some v ∧ Reaches references v w ∧
    ∀ r' ∈ referencesOf references w, ∀ v', r'.target = some v' → Reaches references v' w → r' = r

/-- Where one reference of each leads back, the tables around table `u` are one circle. -/
theorem exists_roundTrip {u : Nat}
    (hsole : ∀ w, Reaches references u w → Reaches references w u → Sole references w) :
    ∃ key after, RoundTrip references (fun w => Reaches references u w ∧ Reaches references w u) key
      after := by
  have : Nonempty Reference := ⟨⟨"", none, "", false⟩⟩
  choose! key hmem after htarget hback honly using hsole
  have hstays : ∀ w, Reaches references u w ∧ Reaches references w u →
      Reaches references u (after w) ∧ Reaches references (after w) u := fun w ⟨huw, hwu⟩ =>
    ⟨huw.tail ⟨key w, hmem w huw hwu, htarget w huw hwu⟩, (hback w huw hwu).trans hwu⟩
  refine ⟨key, after, fun w hw => hmem w hw.1 hw.2, fun w hw => htarget w hw.1 hw.2, hstays, ?leaves,
    ?round⟩
  case leaves =>
    intro w hw r hr hne v hv x hx hvx
    exact hne (honly w hw.1 hw.2 r hr v hv ((hvx.trans hx.2).trans hw.1))
  case round =>
    intro w x hw hx
    have hwx : Reaches references w x := hw.2.trans hx.1
    induction hwx using Relation.ReflTransGen.head_induction_on with
    | refl => exact ⟨0, rfl⟩
    | @head w v hwv hvx ih =>
      obtain ⟨r, hr, hv⟩ := hwv
      have hvu := hvx.trans hx.2
      have hkey := honly w hw.1 hw.2 r hr v hv (hvu.trans hw.1)
      have hafter : v = after w := by
        rw [hkey, htarget w hw.1 hw.2] at hv
        exact (Option.some.inj hv).symm
      obtain ⟨k, hk⟩ := ih ⟨hw.1.tail ⟨r, hr, hv⟩, hvu⟩
      refine ⟨k + 1, ?_⟩
      rw [Function.iterate_succ_apply, ← hafter, hk]

/-- The tables in `rest` follow table `i` one after the other, and `stop` follows them. -/
def Follow (after : Nat → Nat) (stop : Nat) : Nat → List Nat → Prop
  | i, [] => after i = stop
  | i, w :: rest => after i = w ∧ Follow after stop w rest

/-- The table is reached and keeps its key. -/
def Keeps (key : Nat → Reference) (marks : Marks) (w : Nat) : Prop :=
  0 < (markOf marks w).rank ∧ (key w).column ∈ (markOf marks w).retained

variable {on : Nat → Prop} {key : Nat → Reference} {after : Nat → Nat}

theorem Keeps.of_grows {i w : Nat} (h : Keeps key marks w) (hg : Grows i marks marks') (hw : w ≠ i) :
    Keeps key marks' w := by
  rw [Keeps, hg.kept w hw h.1]
  exact h

/-- What is closed stays so, and what is kept stays kept. -/
theorem scans_mono {i : Nat} {rs : List Reference} {scan scan' : Scan}
    (h : Scans references i rs scan scan') :
    (scan.closed = true → scan'.closed = true) ∧ scan.retained ⊆ scan'.retained := by
  refine (run_induct (P := fun _ _ _ _ => True) (Q := fun _ _ scan scan' =>
    (scan.closed = true → scan'.closed = true) ∧ scan.retained ⊆ scan'.retained)
    ?ranked ?fresh ?nil ?dangling ?back ?again ?call).2 h
  case ranked => exact fun _ _ _ => trivial
  case fresh => exact fun _ _ _ _ _ _ _ => trivial
  case nil => exact fun i scan => ⟨id, List.Subset.refl _⟩
  case dangling =>
    exact fun i r rest scan scan' _ _ ih => ⟨ih.1, List.Subset.trans (List.subset_append_left _ _) ih.2⟩
  case back =>
    exact fun i r rest target scan scan' _ _ _ ih =>
      ⟨fun _ => ih.1 rfl, List.Subset.trans (List.subset_append_left _ _) ih.2⟩
  case again => exact fun i r rest target scan scan' _ _ _ _ ih => ih
  case call =>
    intro i r rest target scan marks closed scan' _ _ _ _ _ _ ih
    cases closed with
    | false => exact ih
    | true => exact ⟨fun _ => ih.1 rfl, List.Subset.trans (List.subset_append_left _ _) ih.2⟩

/-- Part way through the references of table `i` on the circle, its key not seen yet. -/
structure Around (on : Nat → Prop) (after : Nat → Nat) (i stop : Nat) (rest : List Nat) (scan : Scan) :
    Prop where
  here : on i
  sound : Sound scan.marks
  rank : 0 < (markOf scan.marks i).rank
  follow : Follow after stop i rest
  nodup : (i :: rest).Nodup
  fresh : ∀ w ∈ rest, on w ∧ (markOf scan.marks w).rank = 0
  stop : (markOf scan.marks stop).checking = true
  previous : scan.previous ≠ some (after i)

/-- A change that leaves the tables ahead alone. -/
theorem Around.grow {i stop : Nat} {rest : List Nat} {scan scan' : Scan}
    (h : Around on after i stop rest scan) (hg : Grows i scan.marks scan'.marks)
    (hsame : ∀ w ∈ rest, markOf scan'.marks w = markOf scan.marks w)
    (hp : scan'.previous ≠ some (after i)) : Around on after i stop rest scan' where
  here := h.here
  sound := hg.sound
  rank := hg.rank_pos h.rank
  follow := h.follow
  nodup := h.nodup
  fresh w hw := by
    rw [hsame w hw]
    exact h.fresh w hw
  stop := (hg.checking stop).trans h.stop
  previous := hp

/-- The table ahead is `stop` or not reached yet. -/
theorem Around.ahead {i stop : Nat} {rest : List Nat} {scan : Scan}
    (h : Around on after i stop rest scan) :
    (rest = [] ∧ (markOf scan.marks (after i)).checking = true) ∨
      ∃ ahead, rest = after i :: ahead ∧ (markOf scan.marks (after i)).checking = false := by
  cases hrest : rest with
  | nil =>
    have hfollow := h.follow
    rw [hrest] at hfollow
    have hstop : after i = stop := hfollow
    exact .inl ⟨rfl, hstop ▸ h.stop⟩
  | cons w ahead =>
    have hfollow := h.follow
    rw [hrest] at hfollow
    obtain ⟨rfl, _⟩ := hfollow
    have h0 := (h.fresh (after i) (by simp [hrest])).2
    refine .inr ⟨ahead, rfl, ?_⟩
    rw [h.sound.unreached _ h0]

/-- **A run that enters a circle before any of its tables is finished goes round**
as far as it is not ranked yet: it closes the circle and keeps every key on the way. -/
theorem runs_around (ht : RoundTrip references on key after) :
    (∀ {i marks marks' closed}, Ranks references i marks marks' closed → on i → Sound marks →
      ∀ stop rest, Follow after stop i rest → (i :: rest).Nodup →
        (∀ w ∈ i :: rest, on w ∧ (markOf marks w).rank = 0) →
        ((markOf marks stop).checking = true ∨ stop = i) →
          closed = true ∧ ∀ w ∈ i :: rest, Keeps key marks' w) ∧
    ∀ {i rs scan scan'}, Scans references i rs scan scan' →
      (∀ r ∈ rs, r ∈ referencesOf references i) → key i ∈ rs →
        ∀ stop rest, Around on after i stop rest scan →
          scan'.closed = true ∧ (key i).column ∈ scan'.retained ∧ ∀ w ∈ rest, Keeps key scan'.marks w := by
  refine run_induct ?ranked ?fresh ?nil ?dangling ?back ?again ?call
  case ranked =>
    intro i marks hpos _ _ stop rest _ _ hfresh
    have h0 := (hfresh i List.mem_cons_self).2
    omega
  case nil => exact fun i scan _ hkey => absurd hkey List.not_mem_nil
  case dangling =>
    intro i r rest scan scan' hr _ ih hrs hkey stop ahead h
    have hne : key i ≠ r := by
      rintro rfl
      exact absurd (hr.symm.trans (ht.target i h.here)) (by simp)
    exact ih (fun s hs => hrs s (List.mem_cons_of_mem r hs)) ((List.mem_cons.mp hkey).resolve_left hne)
      stop ahead (h.grow (.refl h.sound) (fun _ _ => rfl) h.previous)
  case back =>
    intro i r rest target scan scan' hr hc hscans ih hrs hkey stop ahead h
    by_cases hkeyr : r = key i
    · subst hkeyr
      obtain rfl := Option.some.inj ((ht.target i h.here).symm.trans hr)
      obtain ⟨hclosed, hretained⟩ := scans_mono hscans
      rcases h.ahead with ⟨rfl, _⟩ | ⟨_, _, hopen⟩
      · refine ⟨hclosed rfl, hretained ?_, by simp⟩
        exact List.mem_append_right _ (List.mem_singleton.mpr rfl)
      · exact absurd (hc.symm.trans hopen) (by decide)
    · have hmem := (List.mem_cons.mp hkey).resolve_left fun h => hkeyr h.symm
      refine ih (fun s hs => hrs s (List.mem_cons_of_mem r hs)) hmem stop ahead
        (h.grow (grows_close scan r h.sound h.rank) (fun w hw => ?_) h.previous)
      exact markOf_modify_ne (Sound.lt_length h.rank) _ fun hwi =>
        (List.nodup_cons.mp h.nodup).1 (hwi ▸ hw)
  case again =>
    intro i r rest target scan scan' hr _ hp _ ih hrs hkey stop ahead h
    have hne : key i ≠ r := by
      rintro rfl
      exact h.previous (hp.trans (hr.symm.trans (ht.target i h.here)))
    exact ih (fun s hs => hrs s (List.mem_cons_of_mem r hs)) ((List.mem_cons.mp hkey).resolve_left hne)
      stop ahead h
  case call =>
    intro i r rest target scan marks closed scan' hr hc _ hrun hscans ihr ih hrs hkey stop ahead h
    have hext := ranks_extends hrun h.sound
    have habsorb := hext.grows_absorb r target closed h.rank
    have hlt : i < marks.length := Sound.lt_length (hext.rank_pos h.rank)
    have hnotin := (List.nodup_cons.mp h.nodup).1
    by_cases hkeyr : r = key i
    · subst hkeyr
      obtain rfl := Option.some.inj ((ht.target i h.here).symm.trans hr)
      rcases h.ahead with ⟨_, hstop⟩ | ⟨beyond, rfl, _⟩
      · exact absurd (hstop.symm.trans hc) (by decide)
      · obtain ⟨rfl, hkeeps⟩ := ihr (ht.stays i h.here) h.sound stop beyond h.follow.2
          (List.nodup_cons.mp h.nodup).2 h.fresh (.inl h.stop)
        obtain ⟨hclosed, hretained⟩ := scans_mono hscans
        have hgrows := scans_grows hscans habsorb.sound (habsorb.rank_pos h.rank)
        refine ⟨hclosed rfl, hretained ?_, fun w hw => ?_⟩
        · exact List.mem_append_right _ (List.mem_singleton.mpr rfl)
        · have hwi : w ≠ i := fun hwi => hnotin (hwi ▸ hw)
          refine Keeps.of_grows ?_ hgrows hwi
          rw [Keeps, markOf_absorb_ne hlt hwi]
          exact hkeeps w hw
    · have hmem := (List.mem_cons.mp hkey).resolve_left fun h => hkeyr h.symm
      have haway := ht.leaves i h.here r (hrs r List.mem_cons_self) hkeyr target hr
      refine ih (fun s hs => hrs s (List.mem_cons_of_mem r hs)) hmem stop ahead
        (h.grow habsorb (fun w hw => ?_) ?_)
      · rw [markOf_absorb_ne hlt fun hwi => hnotin (hwi ▸ hw)]
        exact (runs_untouched w).1 hrun h.sound (haway w (h.fresh w hw).1)
      · have hafter : target ≠ after i := fun heq => haway (after i) (ht.stays i h.here) (heq ▸ .refl)
        cases closed with
        | true => exact h.previous
        | false => exact fun heq => hafter (Option.some.inj heq)
  case fresh =>
    intro i marks scan h0 hi hscans ih hon hs stop rest hfollow hnodup hfresh hstop
    have hself := markOf_start_self hi
    have hpos : 0 < (markOf (start i marks) i).rank := by
      rw [hself]
      exact Nat.one_pos
    have hnotin := (List.nodup_cons.mp hnodup).1
    have hbegun : Around on after i stop rest { marks := start i marks } := by
      refine ⟨hon, sound_start hs hi, hpos, hfollow, hnodup, fun w hw => ?_, ?_, by simp⟩
      · rw [markOf_start_ne hi fun hwi => hnotin (hwi ▸ hw)]
        exact hfresh w (List.mem_cons_of_mem i hw)
      · by_cases hsi : stop = i
        · rw [hsi, hself]
        · rw [markOf_start_ne hi hsi]
          exact hstop.resolve_right hsi
    obtain ⟨hclosed, hkept, hrest⟩ := ih (fun r hr => hr) (ht.mem i hon) stop rest hbegun
    have hgrows := scans_grows hscans (sound_start hs hi) hpos
    have hlt := Sound.lt_length (hgrows.rank_pos hpos)
    refine ⟨hclosed, fun w hw => ?_⟩
    rcases List.mem_cons.mp hw with rfl | hw
    · rw [Keeps, markOf_finish_self hlt]
      exact ⟨hgrows.rank_pos hpos, hkept⟩
    · rw [Keeps, markOf_finish_ne hlt fun hwi => hnotin (hwi ▸ hw)]
      exact hrest w hw

theorem follow_iterate (after : Nat → Nat) (i n : Nat) :
    Follow after (after^[n + 1] i) i ((List.range n).map fun k => after^[k + 1] i) := by
  induction n generalizing i with
  | zero => rfl
  | succ n ih =>
    rw [List.range_succ_eq_map, List.map_cons, List.map_map]
    exact ⟨rfl, ih (after i)⟩

/-- From every table of the circle the way round comes to all its tables once. -/
theorem RoundTrip.exists_round (ht : RoundTrip references on key after) {i : Nat} (hi : on i) :
    ∃ rest, Follow after i i rest ∧ (i :: rest).Nodup ∧ ∀ w, on w ↔ w ∈ i :: rest := by
  have hall : ∀ k, on (after^[k] i) := fun k => by
    induction k with
    | zero => exact hi
    | succ k ih =>
      rw [Function.iterate_succ_apply']
      exact ht.stays _ ih
  obtain ⟨k, hk⟩ := ht.round (after i) i (ht.stays i hi) hi
  have hperiodic : i ∈ Function.periodicPts after := ⟨k + 1, Nat.succ_pos k, hk⟩
  have hpos := Function.minimalPeriod_pos_of_mem_periodicPts hperiodic
  obtain ⟨n, hn⟩ := Nat.exists_eq_succ_of_ne_zero hpos.ne'
  have hback : after^[n + 1] i = i := by
    rw [← Nat.succ_eq_add_one, ← hn]
    exact Function.iterate_minimalPeriod
  have hcons : i :: (List.range n).map (fun k => after^[k + 1] i) =
      (List.range (Function.minimalPeriod after i)).map fun k => after^[k] i := by
    rw [hn, Nat.succ_eq_add_one, List.range_succ_eq_map, List.map_cons, List.map_map]
    rfl
  refine ⟨(List.range n).map fun k => after^[k + 1] i, ?_, ?_, fun w => ?_⟩
  · have hfollow := follow_iterate after i n
    rwa [hback] at hfollow
  · rw [hcons]
    refine List.Nodup.map_on (fun a ha b hb hab => ?_) List.nodup_range
    exact Function.iterate_injOn_Iio_minimalPeriod (List.mem_range.mp ha) (List.mem_range.mp hb) hab
  · rw [hcons, List.mem_map]
    constructor
    · intro hw
      obtain ⟨m, rfl⟩ := ht.round i w hi hw
      refine ⟨m % Function.minimalPeriod after i, List.mem_range.mpr (Nat.mod_lt _ hpos), ?_⟩
      exact Function.iterate_mod_minimalPeriod_eq
    · rintro ⟨m, _, rfl⟩
      exact hall m

/-- The circle is not reached yet, or all its keys are kept. -/
def Whole (on : Nat → Prop) (key : Nat → Reference) (marks : Marks) : Prop :=
  (∀ w, on w → (markOf marks w).rank = 0) ∨ ∀ w, on w → Keeps key marks w

theorem Whole.congr {i : Nat} (h : Whole on key marks)
    (hsame : ∀ w, w ≠ i → markOf marks' w = markOf marks w) (hi : ¬ on i) : Whole on key marks' := by
  have hne : ∀ w, on w → w ≠ i := fun w hw hwi => hi (hwi ▸ hw)
  refine h.imp (fun h w hw => ?_) fun h w hw => ?_
  · rw [hsame w (hne w hw)]
    exact h w hw
  · rw [Keeps, hsame w (hne w hw)]
    exact h w hw

/-- **A run leaves no circle half kept.** -/
theorem runs_whole (ht : RoundTrip references on key after) :
    (∀ {i marks marks' closed}, Ranks references i marks marks' closed → Sound marks →
      Whole on key marks → Whole on key marks') ∧
    ∀ {i rs scan scan'}, Scans references i rs scan scan' → ¬ on i → Sound scan.marks →
      0 < (markOf scan.marks i).rank → Whole on key scan.marks → Whole on key scan'.marks := by
  refine run_induct ?ranked ?fresh ?nil ?dangling ?back ?again ?call
  case ranked => exact fun i marks _ _ h => h
  case nil => exact fun i scan _ _ _ h => h
  case dangling => exact fun i r rest scan scan' _ _ ih => ih
  case again => exact fun i r rest target scan scan' _ _ _ _ ih => ih
  case back =>
    intro i r rest target scan scan' _ _ _ ih hi hs hpos h
    have hclose := grows_close scan r hs hpos
    refine ih hi hclose.sound (hclose.rank_pos hpos) (h.congr (fun w hw => ?_) hi)
    exact markOf_modify_ne (Sound.lt_length hpos) _ hw
  case call =>
    intro i r rest target scan marks closed scan' _ _ _ hrun _ ihr ih hi hs hpos h
    have hext := ranks_extends hrun hs
    have habsorb := hext.grows_absorb r target closed hpos
    refine ih hi habsorb.sound (habsorb.rank_pos hpos) ((ihr hs h).congr (fun w hw => ?_) hi)
    exact markOf_absorb_ne (Sound.lt_length (hext.rank_pos hpos)) hw
  case fresh =>
    intro i marks scan h0 hlt hscans ih hs h
    have hrun : Ranks references i marks (finish i scan) scan.closed := .fresh h0 hlt hscans
    by_cases hi : on i
    · -- The run comes from outside, as the table that it is for is not reached yet.
      have hnone := h.resolve_right fun hkeeps => by
        have hpos := (hkeeps i hi).1
        omega
      obtain ⟨rest, hfollow, hnodup, hmem⟩ := ht.exists_round hi
      refine .inr fun w hw => ((runs_around ht).1 hrun hi hs i rest hfollow hnodup (fun v hv => ?_)
        (.inr rfl)).2 w ((hmem w).mp hw)
      exact ⟨(hmem v).mpr hv, hnone v ((hmem v).mpr hv)⟩
    · have hpos : 0 < (markOf (start i marks) i).rank := by
        rw [markOf_start_self hlt]
        exact Nat.one_pos
      have hgrows := scans_grows hscans (sound_start hs hlt) hpos
      refine (ih hi (sound_start hs hlt) hpos (h.congr (fun w hw => ?_) hi)).congr (fun w hw => ?_) hi
      · exact markOf_start_ne hlt hw
      · exact markOf_finish_ne (Sound.lt_length (hgrows.rank_pos hpos)) hw

/-- **Every key of a circle without a choice is kept.** -/
theorem rankAll_kept {live : List Nat} (ht : RoundTrip references on key after)
    (hw : Within references.length references) (hlive : ∀ i ∈ live, i < references.length) {i : Nat}
    (hi : i ∈ live) (hon : on i) : (key i).column ∈ (markOf (rankAll references live) i).retained := by
  obtain ⟨done, hdone⟩ := rankAll_rootsDone hw hlive
  have hpos := ((hdone.order.mem i).mp (hdone.seen hi)).1
  have hwhole : Whole on key (rankAll references live) := by
    refine rankAll_induct (P := fun _ marks => Whole on key marks) hw hlive (.inl fun w _ => ?_)
      fun seen i marks marks' closed _ hs h hrun _ => (runs_whole ht).1 hrun hs h
    rw [markOf_replicate]
  refine (hwhole.resolve_left fun hnone => ?_) i hon |>.2
  have h0 := hnone i hon
  omega

/-- **A reference that leads back is kept** where no table on the way has a choice. -/
theorem rankAll_kept_of_sole {live : List Nat} (hw : Within references.length references)
    (hlive : ∀ i ∈ live, i < references.length) {u v : Nat} (hu : u ∈ live) {r : Reference}
    (hr : r ∈ referencesOf references u) (hv : r.target = some v) (hback : Reaches references v u)
    (hsole : ∀ w, Reaches references u w → Reaches references w u → Sole references w) :
    r.column ∈ (markOf (rankAll references live) u).retained := by
  obtain ⟨key, after, ht⟩ := exists_roundTrip hsole
  have hon : Reaches references u u ∧ Reaches references u u := ⟨.refl, .refl⟩
  have hkey : r = key u := by
    by_contra hne
    exact ht.leaves u hon r hr hne v hv u hon hback
  rw [hkey]
  exact rankAll_kept ht hw hlive hu hon

end Ranking
end SchemaShift
