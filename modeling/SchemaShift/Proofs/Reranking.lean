import SchemaShift.Proofs.FinishOrder

/-! Ranking what a ranking kept.

A ranking keeps the keys that lead into a circle and the dangling ones
(`Account`). Ranking the tables once more by the kept keys alone runs through the
same tables on circles in the same way (`runs_replay`) and finds every other
table without a target, so it keeps the same keys and finds the same circles;
only ranks go down (`Residue`, `rankAll_residue`). -/
namespace SchemaShift
namespace Ranking

variable {references : List (List Reference)} {marks marks' : Marks}

/-- The mark of a table in the middle of its references or past them: `kept` are
the references kept out of those in `seen`. -/
structure Account (seen kept : List Reference) (retained : List String) (m : Mark) : Prop where
  sublist : kept.Sublist seen
  retained : retained = kept.map Reference.column
  /-- A circle is noted for the kept references that lead somewhere. -/
  cycle : m.cycle = kept.any fun r => r.target.isSome
  constrained : m.constrainedCycle = kept.any fun r => r.target.isSome && r.constrained
  /-- What is not kept counts. -/
  counted : 1 < m.rank ∨ kept = seen

/-- Every finished table has an account. -/
def Accounted (references : List (List Reference)) (marks : Marks) : Prop :=
  ∀ v, 0 < (markOf marks v).rank → (markOf marks v).checking = false →
    ∃ kept, Account (referencesOf references v) kept (markOf marks v).retained (markOf marks v)

/-- Part way through the references of table `i`. -/
structure ScanAccount (references : List (List Reference)) (i : Nat) (seen : List Reference)
    (scan : Scan) : Prop where
  sound : Sound scan.marks
  rank : 0 < (markOf scan.marks i).rank
  checking : (markOf scan.marks i).checking = true
  others : Accounted references scan.marks
  /-- A target was counted before it is remembered. -/
  previous : scan.previous.isSome = true → 1 < (markOf scan.marks i).rank
  account : ∃ kept, Account seen kept scan.retained (markOf scan.marks i)

/-- Without a circle nothing but dangling keys is kept. -/
theorem Account.dangling {seen kept : List Reference} {retained : List String} {m : Mark}
    (h : Account seen kept retained m) (hc : m.cycle = false) :
    m.constrainedCycle = false ∧ ∀ r ∈ kept, r.target = none := by
  have hnone : ∀ r ∈ kept, r.target = none := by
    have hany := h.cycle.symm.trans hc
    simpa using hany
  refine ⟨h.constrained.trans ?_, hnone⟩
  rw [List.any_eq_false]
  intro r hr
  simp [hnone r hr]

/-- A dangling key is kept. -/
theorem Account.keep {seen kept : List Reference} {retained : List String} {m : Mark} {r : Reference}
    (h : Account seen kept retained m) (hr : r.target = none) :
    Account (seen ++ [r]) (kept ++ [r]) (retained ++ [r.column]) m where
  sublist := h.sublist.append (List.Sublist.refl _)
  retained := by rw [h.retained, List.map_append, List.map_singleton]
  cycle := by simp [h.cycle, hr]
  constrained := by simp [h.constrained, hr]
  counted := h.counted.imp_right fun heq => by rw [heq]

/-- A key that closes a circle is kept and noted. -/
theorem Account.close {seen kept : List Reference} {retained : List String} {m : Mark} {r : Reference}
    (h : Account seen kept retained m) (hr : r.target.isSome = true) :
    Account (seen ++ [r]) (kept ++ [r]) (retained ++ [r.column]) (m.onCycle r.constrained) where
  sublist := h.sublist.append (List.Sublist.refl _)
  retained := by rw [h.retained, List.map_append, List.map_singleton]
  cycle := by simp [Mark.onCycle, hr]
  constrained := by simp [Mark.onCycle, h.constrained, hr]
  counted := h.counted.imp_right fun heq => by rw [heq]

/-- A reference that is not kept, but counted. -/
theorem Account.skip {seen kept : List Reference} {retained : List String} {m : Mark}
    (r : Reference) (h : Account seen kept retained m) (hm : 1 < m.rank) :
    Account (seen ++ [r]) kept retained m where
  sublist := h.sublist.trans (List.sublist_append_left _ _)
  retained := h.retained
  cycle := h.cycle
  constrained := h.constrained
  counted := .inl hm

/-- A greater rank changes nothing about it. -/
theorem Account.raise {seen kept : List Reference} {retained : List String} {m : Mark} {rank : Nat}
    (h : Account seen kept retained m) (hrank : m.rank ≤ rank) :
    Account seen kept retained { m with rank } where
  sublist := h.sublist
  retained := h.retained
  cycle := h.cycle
  constrained := h.constrained
  counted := h.counted.imp_left fun hm => hm.trans_le hrank

/-! ### What a run keeps, and why -/

/-- Changing the mark of a table that is not finished. -/
theorem Accounted.modify {i : Nat} {f : Mark → Mark} (h : Accounted references marks)
    (hi : i < marks.length) (hf : (f (markOf marks i)).checking = true) :
    Accounted references (marks.modify i f) := by
  intro v hv hc
  have hvi : v ≠ i := ne_of_checking (by rwa [markOf_modify_self hi]) hc
  rw [markOf_modify_ne hi f hvi] at hv hc ⊢
  exact h v hv hc

theorem ScanAccount.keep {i : Nat} {seen : List Reference} {scan : Scan} {r : Reference}
    (h : ScanAccount references i seen scan) (hr : r.target = none) :
    ScanAccount references i (seen ++ [r]) (scan.keep r) := by
  obtain ⟨kept, hkept⟩ := h.account
  exact ⟨h.sound, h.rank, h.checking, h.others, h.previous, kept ++ [r], hkept.keep hr⟩

theorem ScanAccount.close {i : Nat} {seen : List Reference} {scan : Scan} {r : Reference}
    (h : ScanAccount references i seen scan) (hr : r.target.isSome = true) :
    ScanAccount references i (seen ++ [r]) (scan.close i r) := by
  obtain ⟨kept, hkept⟩ := h.account
  have hlt := Sound.lt_length h.rank
  have hgrows := grows_close scan r h.sound h.rank
  refine ⟨hgrows.sound, hgrows.rank_pos h.rank, (hgrows.checking i).trans h.checking,
    h.others.modify hlt h.checking, fun hp => (h.previous hp).trans_le hgrows.rank, kept ++ [r], ?_⟩
  rw [Scan.close, markOf_modify_self hlt]
  exact hkept.close hr

theorem ScanAccount.absorb {i target : Nat} {seen : List Reference} {scan : Scan} {r : Reference}
    {closed : Bool} (h : ScanAccount references i seen scan) (hr : r.target = some target)
    (hext : Extends scan.marks marks)
    (ho : Accounted references marks) (ht : 0 < (markOf marks target).rank) :
    ScanAccount references i (seen ++ [r]) (scan.absorb i r target marks closed) := by
  obtain ⟨kept, hkept⟩ := h.account
  have hself := hext.kept i h.rank
  have hpos := hext.rank_pos h.rank
  have hlt := Sound.lt_length hpos
  have hchecking : (markOf marks i).checking = true := by rw [hself, h.checking]
  have hgrows := grows_count target hext.sound hpos
  have hmark : markOf (count i target marks) i =
      { markOf marks i with rank := addRank (markOf marks i).rank (markOf marks target).rank } :=
    markOf_modify_self hlt _
  have hcounted : 1 < (markOf (count i target marks) i).rank := by
    rw [hmark]
    exact one_lt_addRank hpos ht
  have haccount : Account seen kept scan.retained (markOf (count i target marks) i) := by
    rw [hmark]
    rw [← hself] at hkept
    exact hkept.raise (le_addRank _ (hext.sound.bounded i))
  have hcount : ScanAccount references i seen { scan with marks := count i target marks } :=
    ⟨hgrows.sound, hgrows.rank_pos hpos, (hgrows.checking i).trans hchecking,
      ho.modify hlt hchecking, fun _ => hcounted, kept, haccount⟩
  cases closed with
  | true => exact hcount.close (by rw [hr]; rfl)
  | false =>
    exact ⟨hcount.sound, hcount.rank, hcount.checking, hcount.others, fun _ => hcounted, kept,
      haccount.skip r hcounted⟩

/-- **A run keeps account** of what it keeps. -/
theorem runs_accounted :
    (∀ {i marks marks' closed}, Ranks references i marks marks' closed → Sound marks →
      Accounted references marks → Accounted references marks') ∧
    ∀ {i rs scan scan'}, Scans references i rs scan scan' → ∀ seen,
      ScanAccount references i seen scan → ScanAccount references i (seen ++ rs) scan' := by
  refine run_induct ?ranked ?fresh ?nil ?dangling ?back ?again ?call
  case ranked => exact fun i marks _ _ h => h
  case nil => exact fun i scan seen h => by rwa [List.append_nil]
  case dangling =>
    intro i r rest scan scan' hr _ ih seen h
    rw [List.append_cons]
    exact ih _ (h.keep hr)
  case back =>
    intro i r rest target scan scan' hr _ _ ih seen h
    rw [List.append_cons]
    exact ih _ (h.close (by rw [hr]; rfl))
  case again =>
    intro i r rest target scan scan' _ _ hp _ ih seen h
    obtain ⟨kept, hkept⟩ := h.account
    have hcounted := h.previous (by rw [hp]; rfl)
    rw [List.append_cons]
    exact ih _ ⟨h.sound, h.rank, h.checking, h.others, h.previous, kept, hkept.skip r hcounted⟩
  case call =>
    intro i r rest target scan marks closed scan' hr _ _ hrun _ ihr ih seen h
    rw [List.append_cons]
    exact ih _ (h.absorb hr (ranks_extends hrun h.sound) (ihr h.sound h.others)
      (ranks_pos hrun h.sound))
  case fresh =>
    intro i marks scan h0 hi _ ih hs ho
    have hself := markOf_start_self hi
    have hbegun : ScanAccount references i [] { marks := start i marks } := by
      refine ⟨sound_start hs hi, by rw [hself]; exact Nat.one_pos, by rw [hself], ho.modify hi rfl,
        fun hp => absurd hp (by simp), [], List.nil_sublist _, rfl, ?_, ?_, .inr rfl⟩
      · rw [hself, hs.unreached i h0]
        rfl
      · rw [hself, hs.unreached i h0]
        rfl
    obtain ⟨hsound, hpos, hchecking, hothers, -, kept, hkept⟩ := ih [] hbegun
    have hlt := Sound.lt_length hpos
    intro v hv hc
    by_cases hvi : v = i
    · subst hvi
      rw [markOf_finish_self hlt]
      exact ⟨kept, hkept.sublist, hkept.retained, hkept.cycle, hkept.constrained, hkept.counted⟩
    · rw [markOf_finish_ne hlt hvi] at hv hc ⊢
      exact hothers v hv hc

theorem closed_absorb {i target : Nat} {scan : Scan} {r : Reference} {closed : Bool} :
    (scan.absorb i r target marks closed).closed = (closed || scan.closed) := by
  cases closed <;> rfl

theorem cycle_absorb {i target : Nat} {scan : Scan} {r : Reference} {closed : Bool}
    (hi : i < marks.length) : (markOf (scan.absorb i r target marks closed).marks i).cycle =
      (closed || (markOf marks i).cycle) := by
  have hadd : i < (count i target marks).length := by rwa [count, List.length_modify]
  cases closed with
  | true =>
    show (markOf (List.modify _ i _) i).cycle = _
    rw [markOf_modify_self hadd]
    rfl
  | false =>
    show (markOf (List.modify _ i _) i).cycle = _
    rw [markOf_modify_self hi]
    rfl

/-- **A run tells whether it found a circle**: its table is marked, or it marks
none of the tables that it reaches. -/
theorem runs_closed :
    (∀ {i marks marks' closed}, Ranks references i marks marks' closed → Sound marks →
      (closed = true → (markOf marks' i).cycle = true) ∧
        (closed = false → ∀ v, (markOf marks v).rank = 0 → (markOf marks' v).cycle = false)) ∧
    ∀ {i rs scan scan'}, Scans references i rs scan scan' → Sound scan.marks →
      0 < (markOf scan.marks i).rank → scan.closed = (markOf scan.marks i).cycle →
        scan'.closed = (markOf scan'.marks i).cycle ∧
          (scan'.closed = false → scan.closed = false ∧
            ∀ v, v ≠ i → (markOf scan.marks v).rank = 0 → (markOf scan'.marks v).cycle = false) := by
  refine run_induct ?ranked ?fresh ?nil ?dangling ?back ?again ?call
  case ranked =>
    intro i marks _ hs
    refine ⟨fun h => absurd h (by decide), fun _ v hv => ?_⟩
    rw [hs.unreached v hv]
  case nil =>
    intro i scan hs _ hc
    refine ⟨hc, fun h => ⟨h, fun v _ hv => ?_⟩⟩
    rw [hs.unreached v hv]
  case dangling => exact fun i r rest scan scan' _ _ ih hs hi hc => ih hs hi hc
  case again => exact fun i r rest target scan scan' _ _ _ _ ih hs hi hc => ih hs hi hc
  case back =>
    intro i r rest target scan scan' _ _ _ ih hs hi _
    have hclose := grows_close scan r hs hi
    have hcycle : (scan.close i r).closed = (markOf (scan.close i r).marks i).cycle := by
      rw [Scan.close, markOf_modify_self (Sound.lt_length hi)]
      rfl
    obtain ⟨hc', hquiet⟩ := ih hclose.sound (hclose.rank_pos hi) hcycle
    exact ⟨hc', fun h => absurd (hquiet h).1 (by simp [Scan.close])⟩
  case call =>
    intro i r rest target scan marks closed scan' _ _ _ hrun hrest ihr ih hs hi hc
    have hext := ranks_extends hrun hs
    have habsorb := hext.grows_absorb r target closed hi
    have hlt : i < marks.length := Sound.lt_length (hext.rank_pos hi)
    have hcycle : (scan.absorb i r target marks closed).closed =
        (markOf (scan.absorb i r target marks closed).marks i).cycle := by
      rw [closed_absorb, cycle_absorb hlt, hext.kept i hi, hc]
    obtain ⟨hc', hquiet⟩ := ih habsorb.sound (habsorb.rank_pos hi) hcycle
    refine ⟨hc', fun h => ?_⟩
    obtain ⟨hopen, hothers⟩ := hquiet h
    rw [closed_absorb, Bool.or_eq_false_iff] at hopen
    refine ⟨hopen.2, fun v hvi hv => ?_⟩
    have hsame : markOf (scan.absorb i r target marks closed).marks v = markOf marks v :=
      markOf_absorb_ne hlt hvi
    by_cases h0 : (markOf marks v).rank = 0
    · exact hothers v hvi (by rw [hsame]; exact h0)
    · rw [(scans_grows hrest habsorb.sound (habsorb.rank_pos hi)).kept v hvi
        (by rw [hsame]; exact Nat.pos_of_ne_zero h0), hsame]
      exact (ihr hs).2 hopen.1 v hv
  case fresh =>
    intro i marks scan h0 hi hscans ih hs
    have hself := markOf_start_self hi
    have hpos : 0 < (markOf (start i marks) i).rank := by rw [hself]; exact Nat.one_pos
    have hgrows := scans_grows hscans (sound_start hs hi) hpos
    have hlt := Sound.lt_length (hgrows.rank_pos hpos)
    obtain ⟨hc, hquiet⟩ := ih (sound_start hs hi) hpos (by rw [hself, hs.unreached i h0])
    refine ⟨fun h => ?_, fun h v hv => ?_⟩
    · rw [markOf_finish_self hlt]
      exact hc.symm.trans h
    · by_cases hvi : v = i
      · subst hvi
        rw [markOf_finish_self hlt]
        exact hc.symm.trans h
      · rw [markOf_finish_ne hlt hvi]
        exact (hquiet h).2 v hvi (by rw [markOf_start_ne hi hvi]; exact hv)

/-! ### The same run over the kept references -/

/-- Finished tables have their final mark. -/
def Lasting (marks final : Marks) : Prop :=
  ∀ v, 0 < (markOf marks v).rank → (markOf marks v).checking = false →
    markOf final v = markOf marks v

/-- The references `kept` are those that a ranking with these final marks keeps
of the tables in `live`, which lead to such tables only. -/
structure Residue (references kept : List (List Reference)) (live : List Nat) (final : Marks) :
    Prop where
  within : ∀ i ∈ live, ∀ r ∈ referencesOf references i, ∀ target, r.target = some target →
    target ∈ live
  /-- A column has one key. -/
  column : ∀ i ∈ live, ∀ r ∈ referencesOf references i, ∀ r' ∈ referencesOf references i,
    r.column = r'.column → r = r'
  sublist : ∀ i ∈ live, (referencesOf kept i).Sublist (referencesOf references i)
  retained : ∀ i ∈ live, (referencesOf kept i).map Reference.column = (markOf final i).retained

/-- The second mark is the first one, but for a rank that is not greater; it is
smaller if a reference was not kept, unless the ranks have reached the greatest word. -/
structure Lowered (references : List (List Reference)) (i : Nat) (m m' : Mark) : Prop where
  same : m' = { m with rank := m'.rank }
  reached : m'.rank = 0 ↔ m.rank = 0
  le : m'.rank ≤ m.rank
  strict : 0 < m.rank → m.checking = false → m'.rank < m.rank ∨ m.rank = maxRank ∨
    m.retained = (referencesOf references i).map Reference.column

theorem Lowered.pos {i : Nat} {m m' : Mark} (h : Lowered references i m m') (hm : 0 < m.rank) :
    0 < m'.rank :=
  Nat.pos_of_ne_zero fun h0 => Nat.pos_iff_ne_zero.mp hm (h.reached.mp h0)

/-- Part way through two runs, the second one over the kept references: the
tables on circles have the same marks, but for ranks. -/
structure Replays (references : List (List Reference)) (final marks again : Marks) : Prop where
  length : again.length = marks.length
  sound : Sound again
  lowered : ∀ v, (markOf final v).cycle = true →
    Lowered references v (markOf marks v) (markOf again v)

variable {kept : List (List Reference)} {live : List Nat} {final again again' : Marks}

theorem Lasting.of_grows {i : Nat} (h : Lasting marks' final) (hg : Grows i marks marks')
    (hi : (markOf marks i).checking = true) : Lasting marks final := by
  intro v hv hc
  have hsame := hg.kept v (ne_of_checking hi hc) hv
  rw [h v (by rwa [hsame]) (by rwa [hsame]), hsame]

/-- A run that finds no circle changes no mark of a table on one. -/
theorem Replays.quiet {i : Nat} (h : Replays references final marks again) (hs : Sound marks)
    (hrun : Ranks references i marks marks' false) (hlast : Lasting marks' final) :
    Replays references final marks' again := by
  have hext := ranks_extends hrun hs
  refine ⟨h.length.trans hext.length.symm, h.sound, fun v hv => ?_⟩
  suffices hsame : markOf marks' v = markOf marks v by
    rw [hsame]
    exact h.lowered v hv
  by_cases h0 : (markOf marks v).rank = 0
  · have hcycle := ((runs_closed.1 hrun hs).2 rfl) v h0
    have hchecking : (markOf marks' v).checking = false := by
      rw [hext.checking, hs.unreached v h0]
    by_cases h0' : (markOf marks' v).rank = 0
    · rw [hext.sound.unreached v h0', hs.unreached v h0]
    · rw [hlast v (Nat.pos_of_ne_zero h0') hchecking, hcycle] at hv
      exact absurd hv (by decide)
  · exact hext.kept v (Nat.pos_of_ne_zero h0)

/-- The mark of one table changes in both runs. -/
theorem Replays.modify {i : Nat} {f g : Mark → Mark} (h : Replays references final marks again)
    (hi : i < marks.length) (hpos : 0 < (g (markOf again i)).rank)
    (hmax : (f (markOf marks i)).rank ≤ maxRank)
    (hl : Lowered references i (f (markOf marks i)) (g (markOf again i))) :
    Replays references final (marks.modify i f) (again.modify i g) := by
  have hi' : i < again.length := by rwa [h.length]
  refine ⟨by rw [List.length_modify, List.length_modify, h.length],
    h.sound.modify hi' hpos (hl.le.trans hmax), fun v hv => ?_⟩
  by_cases hvi : v = i
  · subst hvi
    rwa [markOf_modify_self hi, markOf_modify_self hi']
  · rw [markOf_modify_ne hi f hvi, markOf_modify_ne hi' g hvi]
    exact h.lowered v hv

/-- Part way through the references of a table on a circle, as all tables being ranked are. -/
structure OnCircle (final : Marks) (i : Nat) (scan : Scan) : Prop where
  sound : Sound scan.marks
  rank : 0 < (markOf scan.marks i).rank
  checking : (markOf scan.marks i).checking = true
  stack : ∀ v, (markOf scan.marks v).checking = true → (markOf final v).cycle = true

theorem OnCircle.grow {i : Nat} {scan scan' : Scan} (h : OnCircle final i scan)
    (hg : Grows i scan.marks scan'.marks) : OnCircle final i scan' where
  sound := hg.sound
  rank := hg.rank_pos h.rank
  checking := (hg.checking i).trans h.checking
  stack v hv := h.stack v ((hg.checking v).symm.trans hv)

/-- A table on no circle is another one. -/
theorem OnCircle.ne {i v : Nat} {scan : Scan} (h : OnCircle final i scan)
    (hv : (markOf final v).cycle = false) : v ≠ i := by
  rintro rfl
  exact absurd ((h.stack v h.checking).symm.trans hv) (by decide)

/-- Part way through the references of table `i` in two runs, those in `seen`
being behind in the first one. -/
structure ScanReplays (references : List (List Reference)) (final : Marks) (i : Nat)
    (seen : List Reference) (scan again : Scan) : Prop where
  marks : Replays references final scan.marks again.marks
  retained : again.retained = scan.retained
  closed : again.closed = scan.closed
  previous : again.previous = none
  strict : (markOf again.marks i).rank < (markOf scan.marks i).rank ∨
    (markOf scan.marks i).rank = maxRank ∨
      (scan.retained = seen.map Reference.column ∧ scan.previous = none)

theorem ScanReplays.keep {i : Nat} {seen : List Reference} {scan again : Scan} (r : Reference)
    (h : ScanReplays references final i seen scan again) :
    ScanReplays references final i (seen ++ [r]) (scan.keep r) (again.keep r) where
  marks := h.marks
  retained := by rw [Scan.keep, Scan.keep, h.retained]
  closed := h.closed
  previous := h.previous
  strict := h.strict.imp_right (Or.imp_right fun ⟨hretained, hprevious⟩ =>
    ⟨by rw [Scan.keep, hretained, List.map_append, List.map_singleton], hprevious⟩)

theorem ScanReplays.close {i : Nat} {seen : List Reference} {scan again : Scan} (r : Reference)
    (h : ScanReplays references final i seen scan again) (hi : OnCircle final i scan) :
    ScanReplays references final i (seen ++ [r]) (scan.close i r) (again.close i r) := by
  have hkeep := h.keep r
  have hlt := Sound.lt_length hi.rank
  have hlt' : i < again.marks.length := by rwa [h.marks.length]
  have hlow := h.marks.lowered i (hi.stack i hi.checking)
  have hsame : (markOf again.marks i).onCycle r.constrained =
      { (markOf scan.marks i).onCycle r.constrained with rank := (markOf again.marks i).rank } := by
    rw [hlow.same]
    rfl
  refine ⟨h.marks.modify hlt ?_ (hi.sound.bounded i) ⟨hsame, hlow.reached, hlow.le, fun _ hc => ?_⟩,
    hkeep.retained, rfl, hkeep.previous, ?_⟩
  · exact hlow.pos hi.rank
  · exact absurd (hi.checking.symm.trans hc) (by decide)
  · rw [Scan.close, Scan.close, markOf_modify_self hlt, markOf_modify_self hlt']
    exact hkeep.strict

/-- A reference to the target before is passed over by both runs, by the second one
for lack of it. -/
theorem ScanReplays.skip {i target : Nat} {seen : List Reference} {scan again : Scan} (r : Reference)
    (h : ScanReplays references final i seen scan again) (hp : scan.previous = some target) :
    ScanReplays references final i (seen ++ [r]) scan again where
  marks := h.marks
  retained := h.retained
  closed := h.closed
  previous := h.previous
  strict := h.strict.imp_right (Or.imp_right fun ⟨_, hprevious⟩ => by
    rw [hp] at hprevious
    exact absurd hprevious (by simp))

theorem addRank_mono {a a' b b' : Nat} (ha : a' ≤ a) (hb : b' ≤ b) : addRank a' b' ≤ addRank a b := by
  unfold addRank
  omega

/-- A sum stays below where a summand does. -/
theorem addRank_strict {a a' b b' : Nat} (ha : a' < a ∨ a = maxRank) (hb : b' ≤ b) :
    addRank a' b' < addRank a b ∨ addRank a b = maxRank := by
  unfold addRank
  omega

theorem addRank_pos {a : Nat} (b : Nat) (ha : 0 < a) : 0 < addRank a b := by
  have := maxRank_pos
  unfold addRank
  omega

/-- A reference that is not kept counts in the first run only. -/
theorem ScanReplays.drop {i target : Nat} {seen : List Reference} {scan again : Scan}
    (r : Reference) (h : ScanReplays references final i seen scan again) (hi : OnCircle final i scan)
    (hrun : Ranks references target scan.marks marks false) (hlast : Lasting marks final) :
    ScanReplays references final i (seen ++ [r]) (scan.absorb i r target marks false) again := by
  have hext := ranks_extends hrun hi.sound
  have hquiet := h.marks.quiet hi.sound hrun hlast
  have hself := hext.kept i hi.rank
  have hpos : 0 < (markOf marks i).rank := hext.rank_pos hi.rank
  have hlt := Sound.lt_length hpos
  have hlow := hquiet.lowered i (hi.stack i hi.checking)
  have hle : (markOf marks i).rank ≤ addRank (markOf marks i).rank (markOf marks target).rank :=
    le_addRank _ (hext.sound.bounded i)
  have hpos' : 0 < (markOf again.marks i).rank := hlow.pos hpos
  have hreplays : Replays references final (count i target marks) (again.marks.modify i id) := by
    refine hquiet.modify hlt hpos' (addRank_le_maxRank _ _)
      ⟨?_, ?_, hlow.le.trans hle, fun _ hc => ?_⟩
    · rw [id, hlow.same]
    · exact iff_of_false (Nat.pos_iff_ne_zero.mp hpos') (Nat.pos_iff_ne_zero.mp (hpos.trans_le hle))
    · have hchecking : (markOf marks i).checking = true := by rw [hself, hi.checking]
      exact absurd (hchecking.symm.trans hc) (by decide)
  rw [List.modify_id] at hreplays
  refine ⟨hreplays, h.retained, h.closed, h.previous, ?_⟩
  show _ < (markOf (List.modify _ i _) i).rank ∨ (markOf (List.modify _ i _) i).rank = _ ∨ _
  rw [markOf_modify_self hlt]
  have hadd : (markOf again.marks i).rank < addRank (markOf marks i).rank (markOf marks target).rank ∨
      addRank (markOf marks i).rank (markOf marks target).rank = maxRank := by
    have ht := ranks_pos hrun hi.sound
    have hlow := hlow.le
    unfold addRank
    omega
  exact hadd.imp_right .inl

/-- A reference that leads into a circle counts in both runs. -/
theorem ScanReplays.absorb {i target : Nat} {seen : List Reference} {scan again : Scan}
    (r : Reference) (h : ScanReplays references final i seen scan again) (hi : OnCircle final i scan)
    (hrun : Ranks references target scan.marks marks true)
    (hrun' : Ranks kept target again.marks again' true)
    (hreplays : Replays references final marks again')
    (ht : (markOf final target).cycle = true) :
    ScanReplays references final i (seen ++ [r]) (scan.absorb i r target marks true)
      (again.absorb i r target again' true) := by
  have hext := ranks_extends hrun hi.sound
  have hself := hext.kept i hi.rank
  have hpos : 0 < (markOf marks i).rank := hext.rank_pos hi.rank
  have hlt := Sound.lt_length hpos
  have hchecking : (markOf marks i).checking = true := by rw [hself, hi.checking]
  have hcycle := hi.stack i hi.checking
  have hlow := hreplays.lowered i hcycle
  have htarget := hreplays.lowered target ht
  have hpos' : 0 < (markOf again' i).rank := hlow.pos hpos
  have hagain : 0 < (markOf again.marks i).rank := (h.marks.lowered i hcycle).pos hi.rank
  have hself' := (ranks_extends hrun' h.marks.sound).kept i hagain
  have hadd : ScanReplays references final i seen
      { scan with marks := count i target marks } { again with marks := count i target again' } := by
    refine ⟨hreplays.modify hlt (addRank_pos _ hpos') (addRank_le_maxRank _ _) ⟨?_, ?_, ?_, ?_⟩,
      h.retained, h.closed, h.previous, ?_⟩
    · rw [hlow.same]
    · exact iff_of_false (Nat.pos_iff_ne_zero.mp (addRank_pos _ hpos'))
        (Nat.pos_iff_ne_zero.mp (addRank_pos _ hpos))
    · exact addRank_mono hlow.le htarget.le
    · exact fun _ hc => absurd (hchecking.symm.trans hc) (by decide)
    · rw [count, count, markOf_modify_self hlt, markOf_modify_self (by rwa [hreplays.length]), hself',
        hself]
      rcases h.strict with hlt | hmax | hall
      · exact (addRank_strict (.inl hlt) htarget.le).imp_right .inl
      · exact (addRank_strict (.inr hmax) htarget.le).imp_right .inl
      · exact .inr (.inr hall)
  have hgrown : OnCircle final i { scan with marks := count i target marks } :=
    hi.grow ((hext.grows hi.rank).trans (grows_count target hext.sound hpos))
  exact hadd.close r hgrown

/-- Lists of references of one table with the same columns are equal. -/
theorem eq_of_map_column {rs ks ks' : List Reference}
    (hinj : ∀ r ∈ rs, ∀ r' ∈ rs, r.column = r'.column → r = r') (hks : ks ⊆ rs) (hks' : ks' ⊆ rs)
    (h : ks.map Reference.column = ks'.map Reference.column) : ks = ks' := by
  induction ks generalizing ks' with
  | nil => exact (List.map_eq_nil_iff.mp h.symm).symm
  | cons r ks ih =>
    cases ks' with
    | nil => exact absurd h (by simp)
    | cons r' ks' =>
      obtain ⟨hr, hrest⟩ := List.cons.inj h
      obtain ⟨hmem, hks⟩ := List.cons_subset.mp hks
      obtain ⟨hmem', hks'⟩ := List.cons_subset.mp hks'
      rw [hinj r hmem r' hmem' hr, ih hks hks' hrest]

/-- **A run that finds a circle runs again over the kept references**, and leaves
the tables that are on no circle alone. -/
theorem runs_replay (hres : Residue references kept live final) :
    (∀ {i marks marks' closed}, Ranks references i marks marks' closed → closed = true → i ∈ live →
      Sound marks → Lasting marks' final →
      (∀ v, (markOf marks v).checking = true → (markOf final v).cycle = true) →
      ∀ again, Replays references final marks again → ∃ again', Ranks kept i again again' true ∧
        Replays references final marks' again' ∧
          ∀ v, (markOf final v).cycle = false → markOf again' v = markOf again v) ∧
    ∀ {i rs scan scan'}, Scans references i rs scan scan' →
      (∀ r ∈ rs, ∀ target, r.target = some target → target ∈ live) → OnCircle final i scan →
      Lasting scan'.marks final → ∀ seen again, ScanReplays references final i seen scan again →
        ∃ ks again', ks.Sublist rs ∧ Scans kept i ks again again' ∧
          ScanReplays references final i (seen ++ rs) scan' again' ∧
          again'.retained = again.retained ++ ks.map Reference.column ∧
          ∀ v, (markOf final v).cycle = false → markOf again'.marks v = markOf again.marks v := by
  refine run_induct ?ranked ?fresh ?nil ?dangling ?back ?again ?call
  case ranked => exact fun i marks _ h => absurd h (by decide)
  case nil =>
    intro i scan _ _ _ seen again h
    exact ⟨[], again, List.Sublist.refl _, .nil, by rwa [List.append_nil],
      (List.append_nil _).symm, fun _ _ => rfl⟩
  case dangling =>
    intro i r rest scan scan' hr _ ih hlive hi hlast seen again h
    obtain ⟨ks, again', hks, hrun, hend, hretained, hothers⟩ :=
      ih (fun s hs => hlive s (List.mem_cons_of_mem r hs)) (hi.grow (.refl hi.sound)) hlast _ _ (h.keep r)
    refine ⟨r :: ks, again', hks.cons_cons r, .dangling hr hrun, by rwa [List.append_cons], ?_, hothers⟩
    rw [hretained, List.map_cons, List.append_cons]
    rfl
  case back =>
    intro i r rest target scan scan' hr hc _ ih hlive hi hlast seen again h
    obtain ⟨ks, again', hks, hrun, hend, hretained, hothers⟩ :=
      ih (fun s hs => hlive s (List.mem_cons_of_mem r hs))
        (hi.grow (grows_close scan r hi.sound hi.rank)) hlast _ _ (h.close r hi)
    have hchecking : (markOf again.marks target).checking = true := by
      rw [(h.marks.lowered target (hi.stack target hc)).same]
      exact hc
    refine ⟨r :: ks, again', hks.cons_cons r, .back hr hchecking hrun, by rwa [List.append_cons], ?_,
      fun v hv => (hothers v hv).trans ?_⟩
    · rw [hretained, List.map_cons, List.append_cons]
      rfl
    · exact markOf_modify_ne (by rw [h.marks.length]; exact Sound.lt_length hi.rank) _ (hi.ne hv)
  case again =>
    intro i r rest target scan scan' _ _ hp _ ih hlive hi hlast seen again h
    obtain ⟨ks, again', hks, hrun, hend, hretained, hothers⟩ :=
      ih (fun s hs => hlive s (List.mem_cons_of_mem r hs)) hi hlast _ _ (h.skip r hp)
    exact ⟨ks, again', hks.cons r, hrun, by rwa [List.append_cons], hretained, hothers⟩
  case call =>
    intro i r rest target scan marks closed scan' hr hc _ hrun hrest ihr ih hlive hi hlast seen again h
    have hlive' : ∀ s ∈ rest, ∀ target, s.target = some target → target ∈ live :=
      fun s hs => hlive s (List.mem_cons_of_mem r hs)
    have hext := ranks_extends hrun hi.sound
    have habsorb := grows_absorb scan r target closed hext.sound (hext.rank_pos hi.rank)
    have hi' : OnCircle final i (scan.absorb i r target marks closed) :=
      hi.grow ((hext.grows hi.rank).trans habsorb)
    have hlast' : Lasting (scan.absorb i r target marks closed).marks final :=
      hlast.of_grows (scans_grows hrest hi'.sound hi'.rank) hi'.checking
    have hlasting : Lasting marks final :=
      hlast'.of_grows habsorb ((hext.checking i).trans hi.checking)
    cases closed with
    | false =>
      obtain ⟨ks, again', hks, hrun', hend, hretained, hothers⟩ :=
        ih hlive' hi' hlast _ _ (h.drop r hi hrun hlasting)
      exact ⟨ks, again', hks.cons r, hrun', by rwa [List.append_cons], hretained, hothers⟩
    | true =>
      obtain ⟨marks₂, hrun₂, hreplays, hothers₂⟩ := ihr rfl (hlive r List.mem_cons_self target hr)
        hi.sound hlasting hi.stack _ h.marks
      have hcycle : (markOf final target).cycle = true := by
        rw [hlasting target (ranks_pos hrun hi.sound) ((hext.checking target).trans hc)]
        exact (runs_closed.1 hrun hi.sound).1 rfl
      obtain ⟨ks, again', hks, hrun', hend, hretained, hothers⟩ :=
        ih hlive' hi' hlast _ _ (h.absorb r hi hrun hrun₂ hreplays hcycle)
      have hc' : (markOf again.marks target).checking = false := by
        rw [(h.marks.lowered target hcycle).same]
        exact hc
      refine ⟨r :: ks, again', hks.cons_cons r, .call hr hc' (by rw [h.previous]; simp) hrun₂ hrun',
        by rwa [List.append_cons], ?_, fun v hv => ?_⟩
      · rw [hretained, List.map_cons, List.append_cons]
        rfl
      · have hlt : i < marks₂.length := by
          rw [hreplays.length]
          exact Sound.lt_length (hext.rank_pos hi.rank)
        rw [hothers v hv, markOf_absorb_ne hlt (hi.ne hv), hothers₂ v hv]
  case fresh =>
    intro i marks scan h0 hi hscans ih hclosed hlive hs hlast hstack again h
    have hrun : Ranks references i marks (finish i scan) scan.closed := .fresh h0 hi hscans
    have hcycle : (markOf final i).cycle = true := by
      rw [hlast i (ranks_pos hrun hs) ?_]
      · exact (runs_closed.1 hrun hs).1 hclosed
      · rw [(ranks_extends hrun hs).checking, hs.unreached i h0]
    have hi' : i < again.length := by rwa [h.length]
    have hlow := h.lowered i hcycle
    have h0' : (markOf again i).rank = 0 := hlow.reached.mpr h0
    have hstart : ScanReplays references final i [] { marks := start i marks }
        { marks := start i again } := by
      refine ⟨h.modify hi Nat.one_pos maxRank_pos.le ⟨?_, Iff.rfl, le_rfl, fun _ hc => ?_⟩,
        rfl, rfl, rfl, .inr (.inr ⟨rfl, rfl⟩)⟩
      · rw [hlow.same]
      · exact absurd hc (by simp)
    have hself := markOf_start_self hi
    have hbegun : OnCircle final i { marks := start i marks } := by
      refine ⟨sound_start hs hi, by rw [hself]; exact Nat.one_pos, by rw [hself], fun v hv => ?_⟩
      by_cases hvi : v = i
      · exact hvi ▸ hcycle
      · exact hstack v (by rwa [markOf_start_ne hi hvi] at hv)
    have hgrows := scans_grows hscans hbegun.sound hbegun.rank
    have hended : OnCircle final i scan := hbegun.grow hgrows
    have hlt := Sound.lt_length hended.rank
    have hlast' : Lasting scan.marks final := by
      intro v hv hc
      have hvi : v ≠ i := ne_of_checking hended.checking hc
      have hsame := markOf_finish_ne hlt hvi
      rw [← hsame] at hv hc ⊢
      exact hlast v hv hc
    obtain ⟨ks, again', hks, hrun', hend, hretained, hothers⟩ :=
      ih (hres.within i hlive) hbegun hlast' [] _ hstart
    have hfinish := markOf_finish_self hlt
    have hks' : ks = referencesOf kept i := by
      refine eq_of_map_column (hres.column i hlive) hks.subset (hres.sublist i hlive).subset ?_
      have hfinal : markOf final i = markOf (finish i scan) i :=
        hlast i (ranks_pos hrun hs) (by rw [hfinish])
      rw [hres.retained i hlive, hfinal, hfinish, ← hend.retained, hretained]
      rfl
    subst hks'
    refine ⟨finish i again', ?_, ?_, fun v hv => ?_⟩
    · rw [← hclosed, ← hend.closed]
      exact .fresh h0' hi' hrun'
    · have hlow' := hend.marks.lowered i hcycle
      have hpos' : 0 < (markOf again'.marks i).rank := hlow'.pos hended.rank
      refine hend.marks.modify hlt hpos' (hended.sound.bounded i)
        ⟨?_, hlow'.reached, hlow'.le, fun _ _ => ?_⟩
      · rw [hlow'.same, hend.retained]
      · exact hend.strict.imp_right (Or.imp_right fun hall => hall.1)
    · have hvi : v ≠ i := hended.ne hv
      have hlt' : i < again'.marks.length := by rwa [hend.marks.length]
      rw [markOf_finish_ne hlt' hvi, hothers v hv]
      exact markOf_start_ne hi' hvi

/-! ### All tables -/

/-- Nothing but dangling keys is kept of a table on no circle. -/
def Dangling (kept : List (List Reference)) (live : List Nat) (final : Marks) : Prop :=
  ∀ i ∈ live, (markOf final i).cycle = false → ∀ r ∈ referencesOf kept i, r.target = none

/-- Dangling keys are kept one after the other. -/
theorem scans_dangling {i : Nat} {rs : List Reference} (scan : Scan)
    (h : ∀ r ∈ rs, r.target = none) : Scans references i rs scan
      { scan with retained := scan.retained ++ rs.map Reference.column } := by
  induction rs generalizing scan with
  | nil =>
    rw [List.map_nil, List.append_nil]
    exact .nil
  | cons r rest ih =>
    have hrest := ih (scan.keep r) fun s hs => h s (List.mem_cons_of_mem r hs)
    rw [Scan.keep, List.append_assoc] at hrest
    exact .dangling (h r List.mem_cons_self) hrest

/-- Between two tables of two runs, the second one over the kept references. -/
structure RootsReplay (references : List (List Reference)) (live : List Nat)
    (final marks again : Marks) : Prop where
  replays : Replays references final marks again
  checking : ∀ v, (markOf marks v).checking = false
  others : ∀ v ∈ live, (markOf final v).cycle = false → 0 < (markOf again v).rank →
    markOf again v = { rank := 1, retained := (markOf final v).retained }

theorem RootsReplay.rank {i : Nat} {closed closed' : Bool} (hres : Residue references kept live final)
    (hdangling : Dangling kept live final) (h : RootsReplay references live final marks again)
    (hs : Sound marks) (hi : i ∈ live) (hrun : Ranks references i marks marks' closed)
    (hrun' : Ranks kept i again again' closed') (hlast : Lasting marks' final) :
    RootsReplay references live final marks' again' := by
  have hext := ranks_extends hrun hs
  have hchecking : ∀ v, (markOf marks' v).checking = false := fun v =>
    (hext.checking v).trans (h.checking v)
  cases hcycle : (markOf final i).cycle with
  | true =>
    cases hrun with
    | ranked hpos =>
      have hpos' : 0 < (markOf again i).rank := (h.replays.lowered i hcycle).pos hpos
      obtain ⟨rfl, _⟩ := ranks_unique hrun' (.ranked hpos')
      exact h
    | @fresh _ _ scan h0 hlt hscans =>
      have hrun : Ranks references i marks (finish i scan) scan.closed := .fresh h0 hlt hscans
      have hclosed : scan.closed = true := by
        rw [← Bool.not_eq_false]
        intro hopen
        rw [hlast i (ranks_pos hrun hs) (hchecking i), (runs_closed.1 hrun hs).2 hopen i h0] at hcycle
        exact absurd hcycle (by decide)
      obtain ⟨again'', hrun'', hreplays, hothers⟩ := (runs_replay hres).1 hrun hclosed hi hs hlast
        (fun v hv => absurd ((h.checking v).symm.trans hv) (by decide)) again h.replays
      obtain ⟨rfl, _⟩ := ranks_unique hrun' hrun''
      refine ⟨hreplays, hchecking, fun v hv hc hpos => ?_⟩
      rw [hothers v hc] at hpos ⊢
      exact h.others v hv hc hpos
  | false =>
    have hquiet : closed = false := by
      cases closed with
      | false => rfl
      | true =>
        rw [hlast i (ranks_pos hrun hs) (hchecking i), (runs_closed.1 hrun hs).1 rfl] at hcycle
        exact absurd hcycle (by decide)
    subst hquiet
    have hreplays := h.replays.quiet hs hrun hlast
    cases hrun' with
    | ranked _ => exact ⟨hreplays, hchecking, h.others⟩
    | @fresh _ _ scan h0 hlt hscans =>
      have hscan := runs_unique.2 hscans _ (scans_dangling _ (hdangling i hi hcycle))
      have hmarks : scan.marks = start i again := by rw [← hscan]
      have hretained : scan.retained = (markOf final i).retained := by
        rw [← hscan, ← hres.retained i hi]
        rfl
      have hlt' : i < scan.marks.length := by rwa [hmarks, start, List.length_modify]
      have hfinish : markOf (finish i scan) i =
          { rank := 1, retained := (markOf final i).retained } := by
        rw [markOf_finish_self hlt', hretained, hmarks, markOf_start_self hlt,
          h.replays.sound.unreached i h0]
      have hother : ∀ v, v ≠ i → markOf (finish i scan) v = markOf again v := by
        intro v hv
        rw [markOf_finish_ne hlt' hv, hmarks]
        exact markOf_start_ne hlt hv
      have hext' := ranks_extends (.fresh h0 hlt hscans) h.replays.sound
      refine ⟨⟨hext'.length.trans hreplays.length, hext'.sound, fun v hv => ?_⟩, hchecking,
        fun v hv hc hpos => ?_⟩
      · have hvi : v ≠ i := by
          rintro rfl
          exact absurd (hcycle.symm.trans hv) (by decide)
        rw [hother v hvi]
        exact hreplays.lowered v hv
      · by_cases hvi : v = i
        · subst hvi
          exact hfinish
        · rw [hother v hvi] at hpos ⊢
          exact h.others v hv hc hpos

/-- Every finished table has an account in the end. -/
theorem rankAll_accounted (hw : Within references.length references)
    (hlive : ∀ i ∈ live, i < references.length) : Accounted references (rankAll references live) := by
  refine rankAll_induct (P := fun _ marks => Accounted references marks) hw hlive (fun v hv => ?_)
    fun _ i marks marks' closed _ hs ho hrun _ => runs_accounted.1 hrun hs ho
  rw [markOf_replicate] at hv
  exact absurd hv (by decide)

theorem account_of_mem (hw : Within references.length references)
    (hlive : ∀ i ∈ live, i < references.length) {i : Nat} (hi : i ∈ live) :
    ∃ ks, Account (referencesOf references i) ks (markOf (rankAll references live) i).retained
      (markOf (rankAll references live) i) := by
  obtain ⟨done, hdone⟩ := rankAll_rootsDone hw hlive
  exact rankAll_accounted hw hlive i ((hdone.order.mem i).mp (hdone.seen hi)).1 (hdone.checking i)

/-- The references kept are those of the account. -/
theorem Residue.account (hres : Residue references kept live (rankAll references live))
    (hw : Within references.length references) (hlive : ∀ i ∈ live, i < references.length)
    {i : Nat} (hi : i ∈ live) : Account (referencesOf references i) (referencesOf kept i)
      (markOf (rankAll references live) i).retained (markOf (rankAll references live) i) := by
  obtain ⟨ks, hks⟩ := account_of_mem hw hlive hi
  have heq : referencesOf kept i = ks :=
    eq_of_map_column (hres.column i hi) (hres.sublist i hi).subset hks.sublist.subset
      ((hres.retained i hi).trans hks.retained)
  rwa [heq]

theorem rootsReplay_rankAll (hres : Residue references kept live (rankAll references live))
    (hw : Within references.length references) (hw' : Within kept.length kept)
    (hlength : kept.length = references.length) (hlive : ∀ i ∈ live, i < references.length) :
    RootsReplay references live (rankAll references live) (rankAll references live)
      (rankAll kept live) := by
  have hdangling : Dangling kept live (rankAll references live) := fun i hi hcycle =>
    ((hres.account hw hlive hi).dangling hcycle).2
  refine rankAll_induct (P := fun seen marks => RootsReplay references live
    (rankAll references live) marks (rankAll kept seen)) hw hlive ?_ ?_
  · refine ⟨⟨?_, sound_replicate _, fun v _ => ?_⟩, fun v => ?_, fun v _ _ hpos => ?_⟩
    · rw [rankAll, visitAll, List.foldl_nil, List.length_replicate, List.length_replicate, hlength]
    · rw [rankAll, visitAll, List.foldl_nil, markOf_replicate, markOf_replicate]
      exact ⟨rfl, Iff.rfl, le_rfl, fun hpos => absurd hpos (by decide)⟩
    · rw [markOf_replicate]
    · rw [rankAll, visitAll, List.foldl_nil, markOf_replicate] at hpos
      exact absurd hpos (by decide)
  · intro seen i marks marks' closed hi hs h hrun hext
    have hn : (rankAll kept seen).length = kept.length := by
      rw [h.replays.length, hlength, ← length_rankAll hw hlive, hext.length,
        (ranks_extends hrun hs).length]
    have hrun' := ranks_visit_length hw' h.replays.sound hn (hlength ▸ hlive i hi)
    have hlast : Lasting marks' (rankAll references live) := fun v hv _ => hext.kept v hv
    rw [rankAll_append_singleton]
    exact h.rank hres hdangling hs hi hrun hrun' hlast

/-- **Ranking the tables again by the keys that were kept** finds the same marks,
but for ranks, which are not greater. -/
theorem rankAll_residue (hres : Residue references kept live (rankAll references live))
    (hw : Within references.length references) (hw' : Within kept.length kept)
    (hlength : kept.length = references.length) (hlive : ∀ i ∈ live, i < references.length)
    {i : Nat} (hi : i ∈ live) :
    Lowered references i (markOf (rankAll references live) i) (markOf (rankAll kept live) i) := by
  have hroots := rootsReplay_rankAll hres hw hw' hlength hlive
  cases hcycle : (markOf (rankAll references live) i).cycle with
  | true => exact hroots.replays.lowered i hcycle
  | false =>
    obtain ⟨done, hdone⟩ := rankAll_rootsDone hw hlive
    obtain ⟨done', hdone'⟩ := rankAll_rootsDone hw' (hlength.symm ▸ hlive)
    have hpos := ((hdone.order.mem i).mp (hdone.seen hi)).1
    have hpos' := ((hdone'.order.mem i).mp (hdone'.seen hi)).1
    have haccount := hres.account hw hlive hi
    have hagain := hroots.others i hi hcycle hpos'
    refine ⟨?_, iff_of_false (Nat.pos_iff_ne_zero.mp hpos') (Nat.pos_iff_ne_zero.mp hpos), ?_,
      fun _ _ => ?_⟩
    · rw [hagain, Mark.mk.injEq]
      exact ⟨rfl, (hdone.checking i).symm, hcycle.symm, (haccount.dangling hcycle).1.symm, rfl⟩
    · rw [hagain]
      exact hpos
    · rw [hagain]
      refine haccount.counted.imp_right fun hall => .inr ?_
      rw [← hres.retained i hi, hall]

end Ranking
end SchemaShift
