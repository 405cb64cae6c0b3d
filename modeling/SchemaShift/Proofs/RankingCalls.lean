import SchemaShift.Proofs.Rearrange

/-! The calls of a ranking.

A call that ranks a table makes calls for the targets of its references. They are told
in the order in which they return, each with the tables that are being ranked around it
(`Ranking.calls`), and none is left out: the answers to them settle what a table is ranked
to (`Ranking.Settling`). A call is never cut off by the depth that it is given, as it stands
in the middle of different tables only (`Call.Regular`), and from one call to the next the
finished tables stay as they are (`Course`). So the calls of a whole ranking go through
the references of every live table once (`Schema.ranking_ends`). -/
namespace SchemaShift
namespace Ranking

/-- A call of the ranking that has returned. -/
structure Call where
  /-- The tables in the middle of whose references it was made, the innermost first. -/
  callers : List Nat
  table : Nat
  before : Marks
  after : Marks
  /-- It tells that a cycle was closed through its table. -/
  closed : Bool
  /-- It went through the references of its table. -/
  entered : Bool
  deriving DecidableEq, Repr

/-- What the call answers. -/
def Call.answer (c : Call) : Marks × Bool := (c.after, c.closed)

/-- The table that a reference makes a call for. -/
def Scan.callee? (scan : Scan) (r : Reference) : Option Nat :=
  r.target.filter fun target => !(markOf scan.marks target).checking && scan.previous != some target

/-- The calls that seeing these references of table `i` makes at once: for which table,
and with which marks. -/
def callees (visit : Nat → Marks → Marks × Bool) (i : Nat) : List Reference → Scan → List (Nat × Marks)
  | [], _ => []
  | r :: rest, scan =>
    match scan.callee? r with
    | none => callees visit i rest (scan.step visit i r)
    | some target => (target, scan.marks) :: callees visit i rest (scan.step visit i r)

/-- The call that ranks table `i` with all calls within it, in the order in which they return. -/
def calls (references : List (List Reference)) :
    (depth : Nat) → (callers : List Nat) → Nat → Marks → List Call
  | 0, callers, i, marks => [⟨callers, i, marks, marks, false, false⟩]
  | depth + 1, callers, i, marks =>
    if 0 < (markOf marks i).rank then [⟨callers, i, marks, marks, false, false⟩]
    else
      (callees (visit references depth) i (referencesOf references i) { marks := start i marks }).flatMap
          (fun callee => calls references depth (i :: callers) callee.1 callee.2) ++
        [⟨callers, i, marks, (visit references (depth + 1) i marks).1,
          (visit references (depth + 1) i marks).2, true⟩]

/-- The calls that rank tables in order. -/
def callsAll (references : List (List Reference)) : List Nat → Marks → List Call
  | [], _ => []
  | i :: rest, marks =>
    calls references references.length [] i marks ++
      callsAll references rest (visit references references.length i marks).1

/-- The marks when no table was reached. -/
def unmarked (references : List (List Reference)) : Marks := List.replicate references.length {}

/-- The tables whose references the calls went through. -/
def entries (calls : List Call) : List Nat := (calls.filter Call.entered).map Call.table

/-- The ranking of the table has begun and is over. -/
def Finished (marks : Marks) (v : Nat) : Prop :=
  0 < (markOf marks v).rank ∧ (markOf marks v).checking = false

/-- What a table is ranked to by its references, where calls are answered as by `visit`. -/
def entering (references : List (List Reference)) (visit : Nat → Marks → Marks × Bool) (i : Nat) (marks : Marks) :
    Marks × Bool :=
  let scan := (referencesOf references i).foldl (Scan.step visit i) { marks := start i marks }
  (finish i scan, scan.closed)

/-- Whoever answers these calls as they were answered ranks each table that was entered to the same. -/
def Settling (references : List (List Reference)) (calls : List Call) : Prop :=
  ∀ visit : Nat → Marks → Marks × Bool, (∀ c ∈ calls, visit c.table c.before = c.answer) →
    ∀ c ∈ calls, c.entered = true → entering references visit c.table c.before = c.answer

/-- What holds of every call, in a ranking of these tables. -/
structure Call.Regular (references : List (List Reference)) (tables : List Nat) (c : Call) : Prop where
  /-- It is answered as by the ranking itself, -/
  answered : visit references references.length c.table c.before = c.answer
  /-- comes to an end by itself -/
  returns : Ranks references c.table c.before c.after c.closed
  /-- and is not cut off: a table without a rank is entered. -/
  entered : c.entered = true ↔ (markOf c.before c.table).rank = 0
  within : c.table :: c.callers ⊆ tables
  nodup : (c.table :: c.callers).Nodup
  /-- The tables that are being ranked are those around the call, -/
  callers : ∀ v, (markOf c.before v).checking = true ↔ v ∈ c.callers
  /-- and are the same ones when it returns. -/
  checking : ∀ v, (markOf c.after v).checking = (markOf c.before v).checking
  ranked : 1 ≤ (markOf c.after c.table).rank
  /-- It changes nothing about a table that had a rank. -/
  kept : ∀ v, 1 ≤ (markOf c.before v).rank → markOf c.after v = markOf c.before v

/-- The calls that were made, in the order in which they returned, while `marks` became `marks'`. -/
structure Course (references : List (List Reference)) (tables : List Nat) (marks : Marks)
    (calls : List Call) (marks' : Marks) : Prop where
  regular : ∀ c ∈ calls, c.Regular references tables
  begun : ∀ v, 0 < (markOf marks v).rank → 0 < (markOf marks' v).rank
  /-- What was finished stays as it is, -/
  kept : ∀ v, Finished marks v → markOf marks' v = markOf marks v
  /-- whenever a call is made. -/
  since : ∀ c ∈ calls, ∀ v, Finished marks v → markOf c.before v = markOf marks v
  /-- What a call leaves of its table is there when a later one returns, -/
  lasting : calls.Pairwise fun c later => markOf later.after c.table = markOf c.after c.table
  /-- and in the end. -/
  final : ∀ c ∈ calls, markOf marks' c.table = markOf c.after c.table
  /-- Exactly the tables that come to have a rank are entered, each of them once. -/
  nodup : (entries calls).Nodup
  entries : ∀ v, v ∈ entries calls ↔ (markOf marks v).rank = 0 ∧ 0 < (markOf marks' v).rank

variable {references : List (List Reference)} {tables : List Nat} {marks marks' : Marks}

/-! ### One reference -/

theorem Scan.callee?_eq_some {scan : Scan} {r : Reference} {target : Nat} :
    scan.callee? r = some target ↔ r.target = some target ∧
      (markOf scan.marks target).checking = false ∧ scan.previous ≠ some target := by
  rw [Scan.callee?, Option.filter_eq_some_iff]
  simp

/-- A reference with a callee asks for the ranking of that table, with the marks as they are. -/
theorem Scan.step_of_callee {scan : Scan} {r : Reference} {target : Nat}
    (h : scan.callee? r = some target) (visit : Nat → Marks → Marks × Bool) (i : Nat) :
    scan.step visit i r =
      scan.absorb i r target (visit target scan.marks).1 (visit target scan.marks).2 := by
  obtain ⟨hr, hchecking, hprevious⟩ := Scan.callee?_eq_some.mp h
  simp only [Scan.step, hr, hchecking, hprevious, Bool.false_eq_true, if_false]
  rfl

/-- Any other one asks for none: at most a cycle is noted with the table itself. -/
theorem Scan.step_of_no_callee {scan : Scan} {r : Reference} (h : scan.callee? r = none)
    (visit : Nat → Marks → Marks × Bool) (i : Nat) :
    (scan.step visit i r).marks = scan.marks ∨ (scan.step visit i r).marks = (scan.close i r).marks := by
  cases hr : r.target with
  | none =>
    left
    simp only [Scan.step, hr]
    rfl
  | some target =>
    by_cases hchecking : (markOf scan.marks target).checking = true
    · right
      simp only [Scan.step, hr, hchecking, if_true]
    · rw [Bool.not_eq_true] at hchecking
      by_cases hprevious : scan.previous = some target
      · left
        simp only [Scan.step, hr, hchecking, hprevious, Bool.false_eq_true, if_false, if_true]
      · have hcallee := Scan.callee?_eq_some.mpr ⟨hr, hchecking, hprevious⟩
        rw [h] at hcallee
        exact absurd hcallee (by simp)

theorem Scan.step_congr {visit visit' : Nat → Marks → Marks × Bool} {scan : Scan} {r : Reference}
    (h : ∀ target, scan.callee? r = some target → visit' target scan.marks = visit target scan.marks)
    (i : Nat) : scan.step visit' i r = scan.step visit i r := by
  cases hcallee : scan.callee? r with
  | some target => rw [scan.step_of_callee hcallee visit', scan.step_of_callee hcallee visit, h target hcallee]
  | none =>
    unfold Scan.step
    cases hr : r.target with
    | none => rfl
    | some target =>
      by_cases hchecking : (markOf scan.marks target).checking = true
      · simp only [hchecking, if_true]
      · rw [Bool.not_eq_true] at hchecking
        have hprevious : scan.previous = some target := by
          by_contra hne
          exact absurd (hcallee.symm.trans (Scan.callee?_eq_some.mpr ⟨hr, hchecking, hne⟩)) (by simp)
        simp only [hchecking, hprevious, Bool.false_eq_true, if_false, if_true]

/-- What the references of a table come to depends on the answers to these calls only. -/
theorem foldl_step_congr {visit visit' : Nat → Marks → Marks × Bool} {i : Nat} {rs : List Reference} {scan : Scan}
    (h : ∀ callee ∈ callees visit i rs scan, visit' callee.1 callee.2 = visit callee.1 callee.2) :
    rs.foldl (Scan.step visit' i) scan = rs.foldl (Scan.step visit i) scan := by
  induction rs generalizing scan with
  | nil => rfl
  | cons r rest ih =>
    rw [callees] at h
    have hstep : scan.step visit' i r = scan.step visit i r := by
      refine Scan.step_congr (fun target hcallee => ?_) i
      rw [hcallee] at h
      exact h (target, scan.marks) List.mem_cons_self
    rw [List.foldl_cons, List.foldl_cons, hstep]
    refine ih fun callee hcallee => h callee ?_
    cases scan.callee? r with
    | none => exact hcallee
    | some target => exact List.mem_cons_of_mem _ hcallee

/-- A table without a rank is ranked by its references. -/
theorem visit_of_fresh {i : Nat} (hfresh : (markOf marks i).rank = 0) (depth : Nat) :
    visit references (depth + 1) i marks = entering references (visit references depth) i marks := by
  rw [visit, if_neg (by omega)]
  rfl

/-- The call itself is told last. -/
theorem exists_call (references : List (List Reference)) (depth : Nat) (callers : List Nat) (i : Nat)
    (marks : Marks) : ∃ c ∈ calls references depth callers i marks,
    c.table = i ∧ c.before = marks ∧ c.answer = visit references depth i marks := by
  cases depth with
  | zero => exact ⟨_, List.mem_singleton_self _, rfl, rfl, rfl⟩
  | succ depth =>
    rw [calls]
    by_cases hpos : 0 < (markOf marks i).rank
    · rw [if_pos hpos, visit, if_pos hpos]
      exact ⟨_, List.mem_singleton_self _, rfl, rfl, rfl⟩
    · rw [if_neg hpos]
      exact ⟨_, List.mem_append_right _ (List.mem_singleton_self _), rfl, rfl, rfl⟩

theorem settling_skipped {c : Call} (h : c.entered = false) : Settling references [c] := by
  intro visit _ d hd hentered
  rw [List.mem_singleton.mp hd, h] at hentered
  exact absurd hentered Bool.false_ne_true

theorem Settling.append {a b : List Call} (ha : Settling references a) (hb : Settling references b) :
    Settling references (a ++ b) := by
  intro visit hvisit d hd
  rcases List.mem_append.mp hd with hd | hd
  · exact ha visit (fun c hc => hvisit c (List.mem_append_left b hc)) d hd
  · exact hb visit (fun c hc => hvisit c (List.mem_append_right a hc)) d hd

theorem settling_flatMap {β : Type} {log : β → List Call} {items : List β}
    (h : ∀ item ∈ items, Settling references (log item)) : Settling references (items.flatMap log) := by
  intro visit hvisit d hd
  obtain ⟨item, hitem, hd⟩ := List.mem_flatMap.mp hd
  exact h item hitem visit (fun c hc => hvisit c (List.mem_flatMap.mpr ⟨item, hitem, hc⟩)) d hd

/-- **No call is left out.** -/
theorem settling_calls (depth : Nat) (callers : List Nat) (i : Nat) (marks : Marks) :
    Settling references (calls references depth callers i marks) := by
  induction depth generalizing callers i marks with
  | zero => exact settling_skipped rfl
  | succ depth ih =>
    rw [calls]
    by_cases hpos : 0 < (markOf marks i).rank
    · rw [if_pos hpos]
      exact settling_skipped rfl
    · rw [if_neg hpos]
      intro answers hanswers d hd hentered
      have hinner := fun c hc => hanswers c (List.mem_append_left _ hc)
      rcases List.mem_append.mp hd with hd | hd
      · exact settling_flatMap (fun callee _ => ih (i :: callers) callee.1 callee.2) answers hinner d hd hentered
      · rw [List.mem_singleton.mp hd]
        show entering references answers i marks = visit references (depth + 1) i marks
        -- Each call that is made at once is told last in its own part of the log.
        have hcallees : ∀ callee ∈ callees (visit references depth) i (referencesOf references i)
            { marks := start i marks }, answers callee.1 callee.2 = visit references depth callee.1 callee.2 := by
          intro callee hcallee
          obtain ⟨c, hc, htable, hbefore, hanswer⟩ :=
            exists_call references depth (i :: callers) callee.1 callee.2
          rw [← hanswer, ← hinner c (List.mem_flatMap.mpr ⟨callee, hcallee, hc⟩), htable, hbefore]
        rw [visit_of_fresh (by omega), entering, entering, foldl_step_congr hcallees]

theorem settling_callsAll (starts : List Nat) (marks : Marks) :
    Settling references (callsAll references starts marks) := by
  induction starts generalizing marks with
  | nil => exact fun _ _ c hc => absurd hc List.not_mem_nil
  | cons i rest ih => exact (settling_calls _ _ i marks).append (ih _)

/-! ### Calls one after the other -/

/-- Calls stand in the middle of different tables, so they nest no deeper than there are tables. -/
theorem Call.Regular.depth {c : Call} (h : c.Regular references tables) : c.callers.length < tables.length :=
  (h.nodup.subperm h.within).length_le

theorem Call.Regular.finished {c : Call} (h : c.Regular references tables) : Finished c.after c.table := by
  have hnot : c.table ∉ c.callers := (List.nodup_cons.mp h.nodup).1
  refine ⟨h.ranked, ?_⟩
  rw [h.checking, ← Bool.not_eq_true, h.callers]
  exact hnot

theorem Finished.congr {v : Nat} (h : Finished marks v) (hsame : markOf marks' v = markOf marks v) :
    Finished marks' v := by
  rwa [Finished, hsame]

theorem mem_entries {calls : List Call} {v : Nat} :
    v ∈ entries calls ↔ ∃ c ∈ calls, c.entered = true ∧ c.table = v := by
  simp only [entries, List.mem_map, List.mem_filter, and_assoc]

theorem entries_append (a b : List Call) : entries (a ++ b) = entries a ++ entries b := by
  rw [entries, List.filter_append, List.map_append]
  rfl

/-- No call is made while only a table that is being ranked changes. -/
theorem Course.idle {i : Nat} (hg : Grows i marks marks') (hi : 0 < (markOf marks i).rank)
    (hchecking : (markOf marks i).checking = true)
    (hsame : ∀ v, v ≠ i → markOf marks' v = markOf marks v) : Course references tables marks [] marks' where
  regular c hc := absurd hc List.not_mem_nil
  begun v hv := hg.rank_pos hv
  kept v hv := hsame v (ne_of_checking hchecking hv.2)
  since c hc := absurd hc List.not_mem_nil
  lasting := .nil
  final c hc := absurd hc List.not_mem_nil
  nodup := List.nodup_nil
  entries v := by
    refine iff_of_false List.not_mem_nil fun ⟨hzero, hpos⟩ => ?_
    by_cases hvi : v = i
    · subst hvi
      omega
    · rw [hsame v hvi] at hpos
      omega

/-- **Calls one after the other** make one course. -/
theorem Course.append {a b c : Marks} {first second : List Call} (hab : Course references tables a first b)
    (hbc : Course references tables b second c) : Course references tables a (first ++ second) c := by
  have hdone : ∀ d ∈ first, Finished b d.table := fun d hd =>
    (hab.regular d hd).finished.congr (hab.final d hd)
  have hkept : ∀ v, Finished a v → Finished b v := fun v hv => hv.congr (hab.kept v hv)
  refine ⟨?regular, fun v hv => hbc.begun v (hab.begun v hv), ?kept, ?since, ?lasting, ?final, ?nodup, ?entries⟩
  case regular =>
    intro d hd
    rcases List.mem_append.mp hd with hd | hd
    · exact hab.regular d hd
    · exact hbc.regular d hd
  case kept =>
    intro v hv
    rw [hbc.kept v (hkept v hv), hab.kept v hv]
  case since =>
    intro d hd v hv
    rcases List.mem_append.mp hd with hd | hd
    · exact hab.since d hd v hv
    · rw [hbc.since d hd v (hkept v hv), hab.kept v hv]
  case lasting =>
    refine List.pairwise_append.mpr ⟨hab.lasting, hbc.lasting, fun d hd later hlater => ?_⟩
    -- The later call found the table finished, and so leaves it as it was.
    have hbefore : markOf later.before d.table = markOf b d.table := hbc.since later hlater _ (hdone d hd)
    have hrank : 1 ≤ (markOf later.before d.table).rank := by
      rw [hbefore]
      exact (hdone d hd).1
    rw [(hbc.regular later hlater).kept _ hrank, hbefore, hab.final d hd]
  case final =>
    intro d hd
    rcases List.mem_append.mp hd with hd | hd
    · rw [hbc.kept _ (hdone d hd), hab.final d hd]
    · exact hbc.final d hd
  case nodup =>
    rw [entries_append]
    refine List.nodup_append'.mpr ⟨hab.nodup, hbc.nodup, fun v hfirst hsecond => ?_⟩
    have hpos := ((hab.entries v).mp hfirst).2
    have hzero := ((hbc.entries v).mp hsecond).1
    omega
  case entries =>
    intro v
    rw [entries_append, List.mem_append, hab.entries, hbc.entries]
    have hab' := hab.begun v
    have hbc' := hbc.begun v
    omega

/-! ### One call -/

/-- The marks in the middle of the references of these tables, where the depth is enough. -/
structure Amid (n depth : Nat) (callers : List Nat) (marks : Marks) : Prop where
  sound : Sound marks
  length : marks.length = n
  depth : (unreached marks).card ≤ depth
  checking : ∀ v, (markOf marks v).checking = true ↔ v ∈ callers
  nodup : callers.Nodup

/-- Every reference leads to one of these tables. -/
def LeadInto (tables : List Nat) (references : List (List Reference)) : Prop :=
  ∀ i, ∀ r ∈ referencesOf references i, ∀ target, r.target = some target → target ∈ tables

variable {n depth i : Nat} {callers : List Nat}

theorem Amid.grow (h : Amid n depth callers marks) (hg : Grows i marks marks') : Amid n depth callers marks' where
  sound := hg.sound
  length := hg.length.trans h.length
  depth := hg.unreached_card_le.trans h.depth
  checking v := by
    rw [hg.checking]
    exact h.checking v
  nodup := h.nodup

theorem Amid.not_mem (h : Amid n depth callers marks) (hfresh : (markOf marks i).rank = 0) : i ∉ callers := by
  rw [← h.checking, h.sound.unreached i hfresh]
  decide

/-- Every table that begins takes one from the tables that were not reached. -/
theorem Amid.start (h : Amid n (depth + 1) callers marks) (hi : i < n) (hfresh : (markOf marks i).rank = 0) :
    Amid n depth (i :: callers) (start i marks) := by
  have hlt : i < marks.length := h.length ▸ hi
  refine ⟨sound_start h.sound hlt, ?_, ?_, fun v => ?_, List.nodup_cons.mpr ⟨h.not_mem hfresh, h.nodup⟩⟩
  · rw [Ranking.start, List.length_modify, h.length]
  · exact Nat.le_of_lt_succ ((unreached_start_card_lt hlt hfresh).trans_le h.depth)
  · rw [List.mem_cons, ← h.checking]
    by_cases hvi : v = i
    · subst hvi
      rw [markOf_start_self hlt]
      exact iff_of_true rfl (.inl rfl)
    · rw [markOf_start_ne hlt hvi]
      exact (or_iff_right hvi).symm

/-- A call that is made in such a place is regular. -/
theorem Amid.regular {c : Call} (h : Amid references.length depth c.callers c.before)
    (hw : Within references.length references) (hlt : c.table < references.length)
    (hwithin : c.table :: c.callers ⊆ tables) (hnot : c.table ∉ c.callers)
    (hentered : c.entered = true ↔ (markOf c.before c.table).rank = 0)
    (hrun : Ranks references c.table c.before c.after c.closed) : c.Regular references tables where
  answered := by
    obtain ⟨hafter, hclosed⟩ := ranks_unique hrun (ranks_visit_length hw h.sound h.length hlt)
    exact Prod.ext hafter hclosed
  returns := hrun
  entered := hentered
  within := hwithin
  nodup := List.nodup_cons.mpr ⟨hnot, h.nodup⟩
  callers := h.checking
  checking := (ranks_extends hrun h.sound).checking
  ranked := ranks_pos hrun h.sound
  kept := (ranks_extends hrun h.sound).kept

/-- A call for a table that has a rank is over at once. -/
theorem Course.again (h : Amid references.length depth callers marks) (hw : Within references.length references)
    (hi : i < references.length) (hwithin : i :: callers ⊆ tables) (hnot : i ∉ callers)
    (hpos : 0 < (markOf marks i).rank) :
    Course references tables marks [⟨callers, i, marks, marks, false, false⟩] marks where
  regular c hc := by
    obtain rfl := List.mem_singleton.mp hc
    exact h.regular hw hi hwithin hnot (iff_of_false Bool.false_ne_true (Nat.pos_iff_ne_zero.mp hpos)) (.ranked hpos)
  begun v hv := hv
  kept v _ := rfl
  since c hc v _ := by rw [List.mem_singleton.mp hc]
  lasting := List.pairwise_singleton _ _
  final c hc := by rw [List.mem_singleton.mp hc]
  nodup := List.nodup_nil
  entries v := iff_of_false List.not_mem_nil fun ⟨hzero, hpos⟩ => by omega

/-- **A call that enters its table**, after the calls that it makes. -/
theorem Course.enter {inner : List Call} {scan : Scan} (hfresh : (markOf marks i).rank = 0)
    (hi : i < marks.length) (hinner : Course references tables (start i marks) inner scan.marks)
    (hpos : 0 < (markOf scan.marks i).rank) (hchecking : (markOf scan.marks i).checking = true)
    (hregular : Call.Regular references tables ⟨callers, i, marks, finish i scan, scan.closed, true⟩)
    (hext : Extends marks (finish i scan)) :
    Course references tables marks (inner ++ [⟨callers, i, marks, finish i scan, scan.closed, true⟩])
      (finish i scan) := by
  have hlt := Sound.lt_length hpos
  have hself : 0 < (markOf (finish i scan) i).rank := hregular.ranked
  -- The table itself is being ranked, so no call that it makes is for it.
  have hfinal : ∀ d ∈ inner, markOf (finish i scan) d.table = markOf d.after d.table := by
    intro d hd
    have hdone := (hinner.regular d hd).finished.congr (hinner.final d hd)
    rw [markOf_finish_ne hlt (ne_of_checking hchecking hdone.2), hinner.final d hd]
  have hnot : i ∉ Ranking.entries inner := by
    rw [hinner.entries, markOf_start_self hi]
    exact fun h => absurd h.1 Nat.one_ne_zero
  have hentries : Ranking.entries (inner ++ [⟨callers, i, marks, finish i scan, scan.closed, true⟩]) =
      Ranking.entries inner ++ [i] := entries_append _ _
  refine ⟨?regular, fun v hv => hext.rank_pos hv, fun v hv => hext.kept v hv.1, ?since, ?lasting, ?final,
    ?nodup, ?entries⟩
  case regular =>
    intro d hd
    rcases List.mem_append.mp hd with hd | hd
    · exact hinner.regular d hd
    · rwa [List.mem_singleton.mp hd]
  case since =>
    intro d hd v hv
    rcases List.mem_append.mp hd with hd | hd
    · have hne : v ≠ i := by
        rintro rfl
        exact absurd hfresh (Nat.pos_iff_ne_zero.mp hv.1)
      have hsame : markOf (Ranking.start i marks) v = markOf marks v := markOf_start_ne hi hne
      rw [hinner.since d hd v (hv.congr hsame), hsame]
    · rw [List.mem_singleton.mp hd]
  case lasting =>
    refine List.pairwise_append.mpr ⟨hinner.lasting, List.pairwise_singleton _ _, fun d hd later hlater => ?_⟩
    rw [List.mem_singleton.mp hlater]
    exact hfinal d hd
  case final =>
    intro d hd
    rcases List.mem_append.mp hd with hd | hd
    · exact hfinal d hd
    · rw [List.mem_singleton.mp hd]
  case nodup =>
    rw [hentries]
    exact List.nodup_append'.mpr ⟨hinner.nodup, List.nodup_singleton i, List.disjoint_singleton.mpr hnot⟩
  case entries =>
    intro v
    rw [hentries, List.mem_append, List.mem_singleton, hinner.entries]
    by_cases hvi : v = i
    · subst hvi
      exact iff_of_true (.inr rfl) ⟨hfresh, hself⟩
    · rw [markOf_start_ne hi hvi, markOf_finish_ne hlt hvi]
      exact or_iff_left hvi

/-- The calls that the references of a table make, given the course of each of them. -/
theorem course_callees {visit : Nat → Marks → Marks × Bool} {log : Nat → Marks → List Call}
    (hcall : ∀ target marks, Amid n depth (i :: callers) marks → target ∈ tables → target ∉ i :: callers →
      Ranks references target marks (visit target marks).1 (visit target marks).2 ∧
        Course references tables marks (log target marks) (visit target marks).1)
    (rs : List Reference) (scan : Scan)
    (hrs : ∀ r ∈ rs, ∀ target, r.target = some target → target ∈ tables)
    (h : Amid n depth (i :: callers) scan.marks) (hi : 0 < (markOf scan.marks i).rank) :
    Course references tables scan.marks
      ((callees visit i rs scan).flatMap fun callee => log callee.1 callee.2)
      (rs.foldl (Scan.step visit i) scan).marks := by
  have hlt := Sound.lt_length hi
  have hchecking : (markOf scan.marks i).checking = true := (h.checking i).mpr List.mem_cons_self
  induction rs generalizing scan with
  | nil => exact .idle (.refl h.sound) hi hchecking fun _ _ => rfl
  | cons r rest ih =>
    have hrest := fun s hs => hrs s (List.mem_cons_of_mem r hs)
    have hnext : ∀ {scan' : Scan}, Grows i scan.marks scan'.marks →
        Course references tables scan'.marks
          ((callees visit i rest scan').flatMap fun callee => log callee.1 callee.2)
          (rest.foldl (Scan.step visit i) scan').marks := by
      intro scan' hg
      exact ih scan' hrest (h.grow hg) (hg.rank_pos hi) (Sound.lt_length (hg.rank_pos hi))
        ((hg.checking i).trans hchecking)
    rw [List.foldl_cons, callees]
    cases hcallee : scan.callee? r with
    | none =>
      obtain ⟨hgrows, hsame⟩ : Grows i scan.marks (scan.step visit i r).marks ∧
          ∀ v, v ≠ i → markOf (scan.step visit i r).marks v = markOf scan.marks v := by
        rcases scan.step_of_no_callee hcallee visit i with hstep | hstep
        · rw [hstep]
          exact ⟨.refl h.sound, fun _ _ => rfl⟩
        · rw [hstep]
          exact ⟨grows_close scan r h.sound hi, fun v hv => markOf_modify_ne hlt _ hv⟩
      exact (Course.idle hgrows hi hchecking hsame).append (hnext hgrows)
    | some target =>
      obtain ⟨hr, hidle, _⟩ := Scan.callee?_eq_some.mp hcallee
      have hout : target ∉ i :: callers := by
        rw [← h.checking, hidle]
        decide
      obtain ⟨hrun, hcourse⟩ := hcall target scan.marks h (hrs r List.mem_cons_self target hr) hout
      have hext := ranks_extends hrun h.sound
      have hi' := hext.rank_pos hi
      have hcounted := grows_absorb scan r target (visit target scan.marks).2 hext.sound hi'
      have hidle' : Course references tables (visit target scan.marks).1 [] _ :=
        .idle hcounted hi' ((hext.checking i).trans hchecking) fun v hv => markOf_absorb_ne (Sound.lt_length hi') hv
      rw [scan.step_of_callee hcallee visit i, List.flatMap_cons]
      exact hcourse.append (hidle'.append (hnext (hext.grows_absorb r target _ hi)))

/-- **The course of a call**: the depth is enough for it and for all calls within it. -/
theorem course_calls (hinto : LeadInto tables references) (htables : ∀ v ∈ tables, v < references.length)
    (h : Amid references.length depth callers marks) (hwithin : i :: callers ⊆ tables) (hnot : i ∉ callers) :
    Course references tables marks (calls references depth callers i marks)
      (visit references depth i marks).1 := by
  have hw : Within references.length references := fun i r hr target htarget =>
    htables target (hinto i r hr target htarget)
  induction depth generalizing callers i marks with
  | zero =>
    have hi : i < references.length := htables i (hwithin List.mem_cons_self)
    have hrun := ranks_visit hw 0 i marks h.sound h.length hi h.depth
    exact .again h hw hi hwithin hnot (ranks_pos hrun h.sound)
  | succ depth ih =>
    have hi : i < references.length := htables i (hwithin List.mem_cons_self)
    have hrun := ranks_visit hw (depth + 1) i marks h.sound h.length hi h.depth
    unfold calls
    by_cases hpos : 0 < (markOf marks i).rank
    · rw [if_pos hpos, visit, if_pos hpos]
      exact .again h hw hi hwithin hnot hpos
    · have hfresh : (markOf marks i).rank = 0 := by omega
      have hlt : i < marks.length := h.length ▸ hi
      have hamid := h.start hi hfresh
      have hbegun : 0 < (markOf (start i marks) i).rank := by
        rw [markOf_start_self hlt]
        exact Nat.one_pos
      have hscans := scans_foldl (ranks_visit hw depth) i (referencesOf references i) { marks := start i marks }
        (hw i) hamid.sound hbegun hamid.length hamid.depth
      have hgrows := scans_grows hscans hamid.sound hbegun
      have hinner := course_callees (fun target marks hamid htarget hout =>
          ⟨ranks_visit hw depth target marks hamid.sound hamid.length (htables target htarget) hamid.depth,
            ih hamid (List.cons_subset.mpr ⟨htarget, hwithin⟩) hout⟩)
        (referencesOf references i) { marks := start i marks } (hinto i) hamid hbegun
      rw [if_neg hpos]
      rw [visit_of_fresh hfresh, entering] at hrun ⊢
      exact hinner.enter hfresh hlt (hgrows.rank_pos hbegun)
        ((hgrows.checking i).trans ((hamid.checking i).mpr List.mem_cons_self))
        (h.regular hw hi hwithin hnot (iff_of_true rfl hfresh) hrun) (ranks_extends hrun h.sound)

/-! ### All tables -/

/-- **The course of a ranking**, table after table. -/
theorem course_callsAll (hinto : LeadInto tables references) (htables : ∀ v ∈ tables, v < references.length)
    {starts : List Nat} (hstarts : starts ⊆ tables) (hs : Sound marks)
    (hlength : marks.length = references.length) (hidle : ∀ v, (markOf marks v).checking = false) :
    Course references tables marks (callsAll references starts marks) (visitAll references starts marks) := by
  have hw : Within references.length references := fun i r hr target htarget =>
    htables target (hinto i r hr target htarget)
  induction starts generalizing marks with
  | nil =>
    refine ⟨fun c hc => absurd hc List.not_mem_nil, fun v hv => hv, fun v _ => rfl,
      fun c hc => absurd hc List.not_mem_nil, .nil, fun c hc => absurd hc List.not_mem_nil, List.nodup_nil,
      fun v => iff_of_false List.not_mem_nil fun ⟨hzero, hpos⟩ => ?_⟩
    rw [show visitAll references [] marks = marks from rfl] at hpos
    omega
  | cons i rest ih =>
    obtain ⟨hi, hrest⟩ := List.cons_subset.mp hstarts
    have hamid : Amid references.length references.length [] marks := by
      refine ⟨hs, hlength, ?_, fun v => iff_of_false (by rw [hidle v]; decide) List.not_mem_nil, List.nodup_nil⟩
      rw [← hlength, ← Finset.card_range marks.length]
      exact Finset.card_le_card (Finset.filter_subset _ _)
    have hext := ranks_extends (ranks_visit_length hw hs hlength (htables i hi)) hs
    have hfirst := course_calls hinto htables hamid (List.cons_subset.mpr ⟨hi, List.nil_subset _⟩)
      List.not_mem_nil
    rw [visitAll_cons, callsAll]
    exact hfirst.append (ih hrest hext.sound (hext.length.trans hlength)
      fun v => (hext.checking v).trans (hidle v))

end Ranking

namespace Schema

open Ranking (Course rankAll unmarked)

variable {tables : Entries Table}

theorem length_allReferences (tables : Entries Table) : (allReferences tables).length = tables.length := by
  rw [allReferences, List.length_map, Entries.values, List.length_map]
  rfl

/-- References lead to live tables only. -/
theorem leadInto_live (tables : Entries Table) :
    Ranking.LeadInto (livePositions tables) (allReferences tables) := by
  intro i r hr target htarget
  obtain ⟨t, _, hr⟩ := get?_of_reference hr
  exact mem_livePositions.mpr (target_live hr htarget)

/-- The calls that rank these tables of a schema, of which none is ranked yet. -/
def rankingCalls (tables : Entries Table) (starts : List Nat) : List Ranking.Call :=
  Ranking.callsAll (allReferences tables) starts (unmarked (allReferences tables))

theorem course_ranking {starts within : List Nat} (hstarts : starts ⊆ within)
    (hwithin : ∀ v ∈ within, v < tables.length) (hlive : livePositions tables ⊆ within) :
    Course (allReferences tables) within (unmarked (allReferences tables)) (rankingCalls tables starts)
      (rankAll (allReferences tables) starts) := by
  refine Ranking.course_callsAll (fun i r hr target htarget => hlive (leadInto_live tables i r hr target htarget))
    (fun v hv => (hwithin v hv).trans_eq (length_allReferences tables).symm) hstarts
    (Ranking.sound_replicate _) List.length_replicate fun v => ?_
  rw [unmarked, Ranking.markOf_replicate]

/-- **A ranking ends, and goes through the references of each table once.** From whatever
tables it starts, calls nest no deeper than there are tables, their course is regular, and
they settle every table that is entered; from all live tables, the ranking enters each of
these once and no other. -/
theorem ranking_ends (tables : Entries Table) :
    (∀ starts : List Nat, (∀ i ∈ starts, i < tables.length) →
      Course (allReferences tables) (List.range tables.length) (unmarked (allReferences tables))
        (rankingCalls tables starts) (rankAll (allReferences tables) starts) ∧
      Ranking.Settling (allReferences tables) (rankingCalls tables starts) ∧
      ∀ c ∈ rankingCalls tables starts, c.callers.length < tables.length) ∧
    Course (allReferences tables) (livePositions tables) (unmarked (allReferences tables))
      (rankingCalls tables (livePositions tables)) (marks tables) ∧
    (∀ c ∈ rankingCalls tables (livePositions tables), c.callers.length < (livePositions tables).length) ∧
    (Ranking.entries (rankingCalls tables (livePositions tables))).Perm (livePositions tables) := by
  have hlt : ∀ v ∈ livePositions tables, v < tables.length := fun v hv =>
    (livePositions_lt v hv).trans_eq (length_allReferences tables)
  have hcourse : Course (allReferences tables) (livePositions tables) (unmarked (allReferences tables))
      (rankingCalls tables (livePositions tables)) (marks tables) := by
    rw [marks_eq_rankAll]
    exact course_ranking (List.Subset.refl _) hlt (List.Subset.refl _)
  refine ⟨fun starts hstarts => ?_, hcourse, fun c hc => (hcourse.regular c hc).depth, ?_⟩
  · have hall : Course (allReferences tables) (List.range tables.length) _ (rankingCalls tables starts) _ :=
      course_ranking (fun v hv => List.mem_range.mpr (hstarts v hv)) (fun v hv => List.mem_range.mp hv)
        fun v hv => List.mem_range.mpr (hlt v hv)
    exact ⟨hall, Ranking.settling_callsAll starts _, fun c hc =>
      (hall.regular c hc).depth.trans_eq List.length_range⟩
  · refine (List.perm_ext_iff_of_nodup hcourse.nodup (livePositions_nodup tables)).mpr fun v =>
      ⟨fun hv => ?_, fun hv => ?_⟩
    · obtain ⟨c, hc, _, rfl⟩ := Ranking.mem_entries.mp hv
      exact (hcourse.regular c hc).within List.mem_cons_self
    · obtain ⟨done, hdone⟩ := Ranking.rankAll_rootsDone (within_length tables) livePositions_lt
      rw [← marks_eq_rankAll] at hdone
      refine (hcourse.entries v).mpr ⟨?_, ((hdone.order.mem v).mp (hdone.seen hv)).1⟩
      rw [unmarked, Ranking.markOf_replicate]

/-- Two tables name each other, one names itself, and one was dropped. -/
def knotted : Entries Table :=
  let key (name target : String) : Slot Column := .owned ((Column.plain name .int64).reference target "id")
  let table (name : String) (columns : List (Slot Column)) : Slot Table :=
    .owned { Table.plain name with
      columns := .owned { slots := columns }, foreigns := columns.filterMap fun c => c.value.name }
  { slots := [table "a" [key "first" "b", key "second" "c"], .owned (Table.dropOf "old"),
      table "b" [key "back" "a", key "lost" "old", key "self" "b"], table "c" [key "self" "c", key "up" "a"]] }

theorem ranking_ends_knotted :
    (rankingCalls knotted [3, 1, 0]).map (fun c => (c.callers, c.table, c.entered)) =
      [([0, 3], 2, true), ([3], 0, true), ([], 3, true), ([], 1, true), ([], 0, false)] ∧
    Course (allReferences knotted) (List.range 4) (unmarked (allReferences knotted))
      (rankingCalls knotted [3, 1, 0]) (rankAll (allReferences knotted) [3, 1, 0]) ∧
    (Ranking.entries (rankingCalls knotted (livePositions knotted))).Perm [0, 2, 3] := by
  have hends := ranking_ends knotted
  have hlive : livePositions knotted = [0, 2, 3] := by decide +kernel
  exact ⟨by decide +kernel, (hends.1 [3, 1, 0] (by decide)).1, hlive ▸ hends.2.2.2⟩

end Schema
end SchemaShift
