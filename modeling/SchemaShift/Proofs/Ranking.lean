import SchemaShift.Schema.Ranking
import Mathlib.Data.Finset.Card
import Mathlib.Data.Finset.Range

/-! How a ranking runs.

`Ranking.visit` is given a depth. What it does, with a depth that is large
enough, is told here without one: `Ranks references i marks marks' closed` says
that ranking table `i` takes `marks` to `marks'`, and `Scans` says the same of
part of its references. A run keeps what it finds finished (`Extends`,
`ranks_extends`), is unique (`ranks_unique`), and the depth that
`Ranking.visitAll` gives is always enough (`ranks_visit`). Whatever every run
preserves the ranking of all tables preserves too (`rankAll_induct`). -/
namespace SchemaShift
namespace Ranking

/-! ### Marks -/

theorem markOf_modify {marks : Marks} {i : Nat} (hi : i < marks.length) (f : Mark → Mark) (v : Nat) :
    markOf (marks.modify i f) v = if v = i then f (markOf marks v) else markOf marks v := by
  unfold markOf
  rw [List.getElem?_modify]
  by_cases h : v = i
  · subst h
    rw [if_pos rfl, List.getElem?_eq_getElem hi]
    simp
  · rw [if_neg h]
    cases marks[v]? <;> simp [Ne.symm h]

@[simp] theorem markOf_modify_self {marks : Marks} {i : Nat} (hi : i < marks.length)
    (f : Mark → Mark) : markOf (marks.modify i f) i = f (markOf marks i) := by
  rw [markOf_modify hi, if_pos rfl]

theorem markOf_modify_ne {marks : Marks} {i : Nat} (hi : i < marks.length) (f : Mark → Mark)
    {v : Nat} (hv : v ≠ i) : markOf (marks.modify i f) v = markOf marks v := by
  rw [markOf_modify hi, if_neg hv]

theorem markOf_of_length_le {marks : Marks} {v : Nat} (h : marks.length ≤ v) :
    markOf marks v = {} := by
  rw [markOf, List.getElem?_eq_none h]
  rfl

@[simp] theorem markOf_replicate (n v : Nat) : markOf (List.replicate n {}) v = {} := by
  unfold markOf
  rw [List.getElem?_replicate]
  split <;> rfl

theorem addRank_le_maxRank (a b : Nat) : addRank a b ≤ maxRank := Nat.min_le_right _ _

theorem le_addRank {a : Nat} (b : Nat) (h : a ≤ maxRank) : a ≤ addRank a b :=
  Nat.le_min.mpr ⟨Nat.le_add_right a b, h⟩

/-- The sum of two ranks is above one. -/
theorem one_lt_addRank {a b : Nat} (ha : 0 < a) (hb : 0 < b) : 1 < addRank a b := by
  have hmax : 1 < maxRank := by decide
  unfold addRank
  omega

theorem maxRank_pos : 1 < maxRank := by decide

/-- The marks once table `i` has begun. -/
def start (i : Nat) (marks : Marks) : Marks :=
  marks.modify i fun m => { m with rank := 1, checking := true }

/-- The marks once all references of table `i` are seen. -/
def finish (i : Nat) (scan : Scan) : Marks :=
  scan.marks.modify i fun m => { m with retained := scan.retained, checking := false }

theorem markOf_start_self {i : Nat} {marks : Marks} (hi : i < marks.length) :
    markOf (start i marks) i = { markOf marks i with rank := 1, checking := true } :=
  markOf_modify_self hi _

theorem markOf_start_ne {i v : Nat} {marks : Marks} (hi : i < marks.length) (hv : v ≠ i) :
    markOf (start i marks) v = markOf marks v :=
  markOf_modify_ne hi _ hv

theorem markOf_finish_self {i : Nat} {scan : Scan} (hi : i < scan.marks.length) :
    markOf (finish i scan) i =
      { markOf scan.marks i with retained := scan.retained, checking := false } :=
  markOf_modify_self hi _

theorem markOf_finish_ne {i v : Nat} {scan : Scan} (hi : i < scan.marks.length) (hv : v ≠ i) :
    markOf (finish i scan) v = markOf scan.marks v :=
  markOf_modify_ne hi _ hv

/-- A table that is not being ranked is none that is. -/
theorem ne_of_checking {marks : Marks} {i v : Nat} (hi : (markOf marks i).checking = true)
    (hv : (markOf marks v).checking = false) : v ≠ i := by
  rintro rfl
  rw [hi] at hv
  exact absurd hv (by decide)

/-- The marks once the rank of a target counts for table `i`. -/
def count (i target : Nat) (marks : Marks) : Marks :=
  marks.modify i fun m => { m with rank := addRank m.rank (markOf marks target).rank }

/-- Goes on after the target of a reference is ranked. -/
def Scan.absorb (scan : Scan) (i : Nat) (r : Reference) (target : Nat) (marks : Marks)
    (closed : Bool) : Scan :=
  let scan := { scan with marks := count i target marks }
  if closed then scan.close i r else { scan with previous := some target }

/-! ### Runs -/

section Runs
variable (references : List (List Reference))

mutual

/-- Ranking table `i` takes marks to others; the last part tells whether it closed a cycle. -/
inductive Ranks : Nat → Marks → Marks → Bool → Prop where
  | ranked {i marks} : 0 < (markOf marks i).rank → Ranks i marks marks false
  | fresh {i marks scan} : (markOf marks i).rank = 0 → i < marks.length →
      Scans i (referencesOf references i) { marks := start i marks } scan →
      Ranks i marks (finish i scan) scan.closed

/-- Seeing these references of table `i` takes a scan to another one. -/
inductive Scans : Nat → List Reference → Scan → Scan → Prop where
  | nil {i scan} : Scans i [] scan scan
  /-- The key dangles. -/
  | dangling {i r rest scan scan'} : r.target = none →
      Scans i rest (scan.keep r) scan' → Scans i (r :: rest) scan scan'
  /-- The target is not finished. -/
  | back {i r rest target scan scan'} : r.target = some target →
      (markOf scan.marks target).checking = true →
      Scans i rest (scan.close i r) scan' → Scans i (r :: rest) scan scan'
  /-- The target was that of the reference before this one. -/
  | again {i r rest target scan scan'} : r.target = some target →
      (markOf scan.marks target).checking = false → scan.previous = some target →
      Scans i rest scan scan' → Scans i (r :: rest) scan scan'
  /-- The target is ranked first. -/
  | call {i r rest target scan marks closed scan'} : r.target = some target →
      (markOf scan.marks target).checking = false → scan.previous ≠ some target →
      Ranks target scan.marks marks closed →
      Scans i rest (scan.absorb i r target marks closed) scan' → Scans i (r :: rest) scan scan'

end

variable {references}

/-- Induction over a run, with the references of a table as an inner one. -/
theorem run_induct {P : Nat → Marks → Marks → Bool → Prop}
    {Q : Nat → List Reference → Scan → Scan → Prop}
    (ranked : ∀ i marks, 0 < (markOf marks i).rank → P i marks marks false)
    (fresh : ∀ i marks scan, (markOf marks i).rank = 0 → i < marks.length →
      Scans references i (referencesOf references i) { marks := start i marks } scan →
      Q i (referencesOf references i) { marks := start i marks } scan →
      P i marks (finish i scan) scan.closed)
    (nil : ∀ i scan, Q i [] scan scan)
    (dangling : ∀ i r rest scan scan', r.target = none →
      Scans references i rest (scan.keep r) scan' → Q i rest (scan.keep r) scan' →
      Q i (r :: rest) scan scan')
    (back : ∀ i r rest target scan scan', r.target = some target →
      (markOf scan.marks target).checking = true →
      Scans references i rest (scan.close i r) scan' → Q i rest (scan.close i r) scan' →
      Q i (r :: rest) scan scan')
    (again : ∀ i r rest target scan scan', r.target = some target →
      (markOf scan.marks target).checking = false → scan.previous = some target →
      Scans references i rest scan scan' → Q i rest scan scan' → Q i (r :: rest) scan scan')
    (call : ∀ i r rest target scan marks closed scan', r.target = some target →
      (markOf scan.marks target).checking = false → scan.previous ≠ some target →
      Ranks references target scan.marks marks closed →
      Scans references i rest (scan.absorb i r target marks closed) scan' →
      P target scan.marks marks closed → Q i rest (scan.absorb i r target marks closed) scan' →
      Q i (r :: rest) scan scan') :
    (∀ {i marks marks' closed}, Ranks references i marks marks' closed → P i marks marks' closed) ∧
      ∀ {i rs scan scan'}, Scans references i rs scan scan' → Q i rs scan scan' := by
  constructor
  · intro i marks marks' closed h
    exact @Ranks.rec references (fun i marks marks' closed _ => P i marks marks' closed)
      (fun i rs scan scan' _ => Q i rs scan scan') (fun h => ranked _ _ h)
      (fun h hi hs ih => fresh _ _ _ h hi hs ih) (nil _ _)
      (fun h hs ih => dangling _ _ _ _ _ h hs ih) (fun h hc hs ih => back _ _ _ _ _ _ h hc hs ih)
      (fun h hc hp hs ih => again _ _ _ _ _ _ h hc hp hs ih)
      (fun h hc hp hr hs ihr ih => call _ _ _ _ _ _ _ _ h hc hp hr hs ihr ih) _ _ _ _ h
  · intro i rs scan scan' h
    exact @Scans.rec references (fun i marks marks' closed _ => P i marks marks' closed)
      (fun i rs scan scan' _ => Q i rs scan scan') (fun h => ranked _ _ h)
      (fun h hi hs ih => fresh _ _ _ h hi hs ih) (nil _ _)
      (fun h hs ih => dangling _ _ _ _ _ h hs ih) (fun h hc hs ih => back _ _ _ _ _ _ h hc hs ih)
      (fun h hc hp hs ih => again _ _ _ _ _ _ h hc hp hs ih)
      (fun h hc hp hr hs ihr ih => call _ _ _ _ _ _ _ _ h hc hp hr hs ihr ih) _ _ _ _ h

end Runs

/-! ### What a run keeps -/

/-- Tables that were not reached have no mark, and no rank is above the greatest. -/
structure Sound (marks : Marks) : Prop where
  unreached : ∀ v, (markOf marks v).rank = 0 → markOf marks v = {}
  bounded : ∀ v, (markOf marks v).rank ≤ maxRank

/-- Later marks: what had begun keeps its mark, and the same tables are being ranked. -/
structure Extends (marks marks' : Marks) : Prop where
  length : marks'.length = marks.length
  kept : ∀ v, 0 < (markOf marks v).rank → markOf marks' v = markOf marks v
  checking : ∀ v, (markOf marks' v).checking = (markOf marks v).checking
  sound : Sound marks'

/-- Later marks in the middle of table `i`: only its rank grows and cycles are noted. -/
structure Grows (i : Nat) (marks marks' : Marks) : Prop where
  length : marks'.length = marks.length
  kept : ∀ v, v ≠ i → 0 < (markOf marks v).rank → markOf marks' v = markOf marks v
  rank : (markOf marks i).rank ≤ (markOf marks' i).rank
  cycle : (markOf marks i).cycle = true → (markOf marks' i).cycle = true
  retained : (markOf marks' i).retained = (markOf marks i).retained
  checking : ∀ v, (markOf marks' v).checking = (markOf marks v).checking
  sound : Sound marks'

theorem sound_replicate (n : Nat) : Sound (List.replicate n {}) :=
  ⟨fun v _ => markOf_replicate n v, fun v => by rw [markOf_replicate]; exact Nat.zero_le _⟩

theorem Sound.lt_length {marks : Marks} {v : Nat} (h : 0 < (markOf marks v).rank) :
    v < marks.length := by
  by_contra hv
  rw [markOf_of_length_le (Nat.le_of_not_lt hv)] at h
  exact absurd h (by decide)

/-- Changing the mark of a table that has begun. -/
theorem Sound.modify {marks : Marks} (h : Sound marks) {i : Nat} (hi : i < marks.length)
    {f : Mark → Mark} (hpos : 0 < (f (markOf marks i)).rank)
    (hmax : (f (markOf marks i)).rank ≤ maxRank) : Sound (marks.modify i f) where
  unreached v hv := by
    by_cases hvi : v = i
    · subst hvi
      rw [markOf_modify_self hi] at hv
      omega
    · rw [markOf_modify_ne hi f hvi] at hv ⊢
      exact h.unreached v hv
  bounded v := by
    by_cases hvi : v = i
    · subst hvi
      rwa [markOf_modify_self hi]
    · rw [markOf_modify_ne hi f hvi]
      exact h.bounded v

theorem Extends.refl {marks : Marks} (h : Sound marks) : Extends marks marks :=
  ⟨rfl, fun _ _ => rfl, fun _ => rfl, h⟩

theorem Extends.trans {a b c : Marks} (hab : Extends a b) (hbc : Extends b c) : Extends a c where
  length := hbc.length.trans hab.length
  kept v hv := by
    have hb := hab.kept v hv
    rw [hbc.kept v (by rw [hb]; exact hv), hb]
  checking v := (hbc.checking v).trans (hab.checking v)
  sound := hbc.sound

/-- What had begun still has. -/
theorem Extends.rank_pos {a b : Marks} (h : Extends a b) {v : Nat} (hv : 0 < (markOf a v).rank) :
    0 < (markOf b v).rank := by
  rw [h.kept v hv]
  exact hv

theorem Grows.refl {i : Nat} {marks : Marks} (h : Sound marks) : Grows i marks marks :=
  ⟨rfl, fun _ _ _ => rfl, le_rfl, id, rfl, fun _ => rfl, h⟩

theorem Grows.rank_pos {i : Nat} {a b : Marks} (h : Grows i a b) {v : Nat}
    (hv : 0 < (markOf a v).rank) : 0 < (markOf b v).rank := by
  by_cases hvi : v = i
  · subst hvi
    exact hv.trans_le h.rank
  · rw [h.kept v hvi hv]
    exact hv

theorem Grows.trans {i : Nat} {a b c : Marks} (hab : Grows i a b) (hbc : Grows i b c) :
    Grows i a c where
  length := hbc.length.trans hab.length
  kept v hvi hv := by
    have hb := hab.kept v hvi hv
    rw [hbc.kept v hvi (by rw [hb]; exact hv), hb]
  rank := hab.rank.trans hbc.rank
  cycle h := hbc.cycle (hab.cycle h)
  retained := hbc.retained.trans hab.retained
  checking v := (hbc.checking v).trans (hab.checking v)
  sound := hbc.sound

/-- A whole run in the middle of a table that has begun. -/
theorem Extends.grows {i : Nat} {a b : Marks} (h : Extends a b) (hi : 0 < (markOf a i).rank) :
    Grows i a b where
  length := h.length
  kept v _ hv := h.kept v hv
  rank := by rw [h.kept i hi]
  cycle hc := by rw [h.kept i hi]; exact hc
  retained := by rw [h.kept i hi]
  checking := h.checking
  sound := h.sound

/-- Noting something with the table in the middle of its references. -/
theorem grows_modify {i : Nat} {marks : Marks} (h : Sound marks) (hi : 0 < (markOf marks i).rank)
    {f : Mark → Mark} (hrank : (markOf marks i).rank ≤ (f (markOf marks i)).rank)
    (hmax : (f (markOf marks i)).rank ≤ maxRank)
    (hcycle : (markOf marks i).cycle = true → (f (markOf marks i)).cycle = true)
    (hretained : (f (markOf marks i)).retained = (markOf marks i).retained)
    (hchecking : (f (markOf marks i)).checking = (markOf marks i).checking) :
    Grows i marks (marks.modify i f) := by
  have hlt := Sound.lt_length hi
  refine ⟨List.length_modify .., fun v hvi _ => markOf_modify_ne hlt f hvi, ?_, ?_, ?_, fun v => ?_,
    h.modify hlt (by omega) hmax⟩
  · rwa [markOf_modify_self hlt]
  · rwa [markOf_modify_self hlt]
  · rwa [markOf_modify_self hlt]
  · by_cases hv : v = i
    · subst hv
      rwa [markOf_modify_self hlt]
    · rw [markOf_modify_ne hlt f hv]

theorem grows_close {i : Nat} (scan : Scan) (r : Reference) (h : Sound scan.marks)
    (hi : 0 < (markOf scan.marks i).rank) : Grows i scan.marks (scan.close i r).marks :=
  grows_modify h hi le_rfl (h.bounded i) (fun _ => rfl) rfl rfl

theorem grows_count {i : Nat} (target : Nat) {marks : Marks} (h : Sound marks)
    (hi : 0 < (markOf marks i).rank) : Grows i marks (count i target marks) :=
  grows_modify h hi (le_addRank _ (h.bounded i)) (addRank_le_maxRank _ _) id rfl rfl

/-- Counting a target, and noting a cycle that goes through it. -/
theorem grows_absorb {i : Nat} (scan : Scan) (r : Reference) (target : Nat) {marks : Marks}
    (closed : Bool) (h : Sound marks) (hi : 0 < (markOf marks i).rank) :
    Grows i marks (scan.absorb i r target marks closed).marks := by
  have hcount := grows_count target h hi
  cases closed with
  | false => exact hcount
  | true =>
    exact hcount.trans (grows_close { scan with marks := count i target marks } r hcount.sound
      (hcount.rank_pos hi))

/-- A whole run and what its end counts for. -/
theorem Extends.grows_absorb {i : Nat} {scan : Scan} {marks : Marks} (h : Extends scan.marks marks)
    (r : Reference) (target : Nat) (closed : Bool) (hi : 0 < (markOf scan.marks i).rank) :
    Grows i scan.marks (scan.absorb i r target marks closed).marks :=
  (h.grows hi).trans (Ranking.grows_absorb scan r target closed h.sound (h.rank_pos hi))

theorem markOf_absorb_ne {marks : Marks} {i target v : Nat} {scan : Scan} {r : Reference} {closed : Bool}
    (hi : i < marks.length) (hv : v ≠ i) :
    markOf (scan.absorb i r target marks closed).marks v = markOf marks v := by
  have hcount : markOf (count i target marks) v = markOf marks v := markOf_modify_ne hi _ hv
  cases closed with
  | false => exact hcount
  | true =>
    show markOf ((count i target marks).modify i _) v = _
    rw [markOf_modify_ne (by rwa [count, List.length_modify]) _ hv, hcount]

theorem sound_start {i : Nat} {marks : Marks} (h : Sound marks) (hi : i < marks.length) :
    Sound (start i marks) :=
  h.modify hi Nat.one_pos maxRank_pos.le

/-- **A run changes no mark that had begun before it**, leaves the same tables
being ranked, and ranks the table that it is for. -/
theorem runs_keep {references : List (List Reference)} :
    (∀ {i marks marks' closed}, Ranks references i marks marks' closed →
      Sound marks → Extends marks marks' ∧ 0 < (markOf marks' i).rank) ∧
    ∀ {i rs scan scan'}, Scans references i rs scan scan' →
      Sound scan.marks → 0 < (markOf scan.marks i).rank → Grows i scan.marks scan'.marks := by
  refine run_induct ?ranked ?fresh ?nil ?dangling ?back ?again ?call
  case ranked => exact fun i marks h hs => ⟨.refl hs, h⟩
  case nil => exact fun i scan hs _ => .refl hs
  case dangling => exact fun i r rest scan scan' _ _ ih hs hi => ih hs hi
  case again => exact fun i r rest target scan scan' _ _ _ _ ih hs hi => ih hs hi
  case back =>
    intro i r rest target scan scan' _ _ _ ih hs hi
    have hclose := grows_close scan r hs hi
    exact hclose.trans (ih hclose.sound (hclose.rank_pos hi))
  case call =>
    intro i r rest target scan marks closed scan' _ _ _ _ _ ihr ih hs hi
    have habsorb := (ihr hs).1.grows_absorb r target closed hi
    exact habsorb.trans (ih habsorb.sound (habsorb.rank_pos hi))
  case fresh =>
    intro i marks scan hfresh hi _ ih hs
    have hbegun : 0 < (markOf (start i marks) i).rank := by
      rw [markOf_start_self hi]
      exact Nat.one_pos
    have hgrows := ih (sound_start hs hi) hbegun
    have hpos : 0 < (markOf scan.marks i).rank := hgrows.rank_pos hbegun
    have hlt := Sound.lt_length hpos
    refine ⟨⟨?_, fun v hv => ?_, fun v => ?_, hgrows.sound.modify hlt hpos (hgrows.sound.bounded i)⟩, ?_⟩
    · rw [finish, List.length_modify, hgrows.length, start, List.length_modify]
    · have hne : v ≠ i := by rintro rfl; omega
      have hstart : markOf (start i marks) v = markOf marks v := markOf_start_ne hi hne
      rw [markOf_finish_ne hlt hne, hgrows.kept v hne (by rw [hstart]; exact hv), hstart]
    · by_cases hne : v = i
      · subst hne
        rw [markOf_finish_self hlt, hs.unreached v hfresh]
      · rw [markOf_finish_ne hlt hne, hgrows.checking, markOf_start_ne hi hne]
    · rw [markOf_finish_self hlt]
      exact hpos

theorem ranks_extends {references : List (List Reference)} {i : Nat} {marks marks' : Marks}
    {closed : Bool} (h : Ranks references i marks marks' closed) (hs : Sound marks) :
    Extends marks marks' :=
  (runs_keep.1 h hs).1

theorem ranks_pos {references : List (List Reference)} {i : Nat} {marks marks' : Marks}
    {closed : Bool} (h : Ranks references i marks marks' closed) (hs : Sound marks) :
    0 < (markOf marks' i).rank :=
  (runs_keep.1 h hs).2

theorem scans_grows {references : List (List Reference)} {i : Nat} {rs : List Reference}
    {scan scan' : Scan} (h : Scans references i rs scan scan') (hs : Sound scan.marks)
    (hi : 0 < (markOf scan.marks i).rank) : Grows i scan.marks scan'.marks :=
  runs_keep.2 h hs hi

/-! ### Runs are unique, and there is one -/

theorem runs_unique {references : List (List Reference)} :
    (∀ {i marks marks' closed}, Ranks references i marks marks' closed →
      ∀ marks'' closed', Ranks references i marks marks'' closed' →
        marks'' = marks' ∧ closed' = closed) ∧
    ∀ {i rs scan scan'}, Scans references i rs scan scan' →
      ∀ scan'', Scans references i rs scan scan'' → scan'' = scan' := by
  refine run_induct ?ranked ?fresh ?nil ?dangling ?back ?again ?call
  case ranked =>
    intro i marks h marks'' closed' h'
    cases h' with
    | ranked _ => exact ⟨rfl, rfl⟩
    | fresh h0 _ _ => omega
  case fresh =>
    intro i marks scan h0 _ _ ih marks'' closed' h'
    cases h' with
    | ranked h => omega
    | fresh _ _ hs =>
      rw [ih _ hs]
      exact ⟨rfl, rfl⟩
  case nil =>
    intro i scan scan'' h'
    cases h'
    rfl
  case dangling =>
    intro i r rest scan scan' hr _ ih scan'' h'
    cases h' <;> simp_all only [reduceCtorEq]
  case back =>
    intro i r rest target scan scan' hr hc _ ih scan'' h'
    cases h' <;> simp_all only [reduceCtorEq, Option.some.injEq]
  case again =>
    intro i r rest target scan scan' hr hc hp _ ih scan'' h'
    cases h' with
    | dangling hr' _ => simp_all only [reduceCtorEq]
    | back hr' hc' _ => simp_all only [Option.some.injEq, reduceCtorEq]
    | again _ _ _ hs => exact ih _ hs
    | call hr' _ hp' _ _ => exact absurd (hp.trans (hr.symm.trans hr')) hp'
  case call =>
    intro i r rest target scan marks closed scan' hr hc hp _ _ ihr ih scan'' h'
    cases h' with
    | dangling hr' _ => simp_all only [reduceCtorEq]
    | back hr' hc' _ => simp_all only [Option.some.injEq, reduceCtorEq]
    | again hr' _ hp' _ => exact absurd (hp'.trans (hr'.symm.trans hr)) hp
    | call hr' _ _ hrun hs =>
      obtain rfl := Option.some.inj (hr.symm.trans hr')
      obtain ⟨rfl, rfl⟩ := ihr _ _ hrun
      exact ih _ hs

theorem ranks_unique {references : List (List Reference)} {i : Nat} {marks a b : Marks}
    {closed closed' : Bool} (ha : Ranks references i marks a closed)
    (hb : Ranks references i marks b closed') : b = a ∧ closed' = closed :=
  runs_unique.1 ha b closed' hb

/-- Every reference leads to one of `n` tables. -/
def Within (n : Nat) (references : List (List Reference)) : Prop :=
  ∀ i, ∀ r ∈ referencesOf references i, ∀ target, r.target = some target → target < n

/-- The tables that were not reached. -/
def unreached (marks : Marks) : Finset Nat :=
  {v ∈ Finset.range marks.length | (markOf marks v).rank = 0}

theorem mem_unreached {marks : Marks} {v : Nat} :
    v ∈ unreached marks ↔ v < marks.length ∧ (markOf marks v).rank = 0 := by
  rw [unreached, Finset.mem_filter, Finset.mem_range]

theorem Grows.unreached_card_le {i : Nat} {a b : Marks} (h : Grows i a b) :
    (unreached b).card ≤ (unreached a).card := by
  refine Finset.card_le_card fun v hv => ?_
  obtain ⟨hlt, hzero⟩ := mem_unreached.mp hv
  refine mem_unreached.mpr ⟨h.length ▸ hlt, ?_⟩
  by_contra hne
  exact absurd hzero (Nat.pos_iff_ne_zero.mp (h.rank_pos (Nat.pos_of_ne_zero hne)))

theorem unreached_start_card_lt {i : Nat} {marks : Marks} (hi : i < marks.length)
    (h : (markOf marks i).rank = 0) : (unreached (start i marks)).card < (unreached marks).card := by
  refine Finset.card_lt_card (Finset.ssubset_iff_of_subset (fun v hv => ?_) |>.mpr
    ⟨i, mem_unreached.mpr ⟨hi, h⟩, fun hcontra => ?_⟩)
  · obtain ⟨hlt, hzero⟩ := mem_unreached.mp hv
    rw [start, List.length_modify] at hlt
    refine mem_unreached.mpr ⟨hlt, ?_⟩
    by_cases hvi : v = i
    · exact hvi ▸ h
    · rwa [start, markOf_modify_ne hi _ hvi] at hzero
  · have hzero := (mem_unreached.mp hcontra).2
    rw [start, markOf_modify_self hi] at hzero
    exact absurd hzero Nat.one_ne_zero

/-- The references of a table, given that the depth is enough for its targets. -/
theorem scans_foldl {references : List (List Reference)} {n depth : Nat}
    (hvisit : ∀ i marks, Sound marks → marks.length = n → i < n →
      (unreached marks).card ≤ depth →
      Ranks references i marks (visit references depth i marks).1 (visit references depth i marks).2)
    (i : Nat) (rs : List Reference) (scan : Scan)
    (hrs : ∀ r ∈ rs, ∀ target, r.target = some target → target < n) (hs : Sound scan.marks)
    (hi : 0 < (markOf scan.marks i).rank) (hn : scan.marks.length = n)
    (hdepth : (unreached scan.marks).card ≤ depth) :
    Scans references i rs scan (rs.foldl (Scan.step (visit references depth) i) scan) := by
  induction rs generalizing scan with
  | nil => exact .nil
  | cons r rest ih =>
    have ih := fun scan => ih scan fun r hr => hrs r (List.mem_cons_of_mem _ hr)
    rw [List.foldl_cons]
    cases hr : r.target with
    | none =>
      have hstep : Scan.step (visit references depth) i scan r = scan.keep r := by
        rw [Scan.step, hr]
      rw [hstep]
      exact .dangling hr (ih _ hs hi hn hdepth)
    | some target =>
      by_cases hc : (markOf scan.marks target).checking = true
      · have hstep : Scan.step (visit references depth) i scan r = scan.close i r := by
          simp only [Scan.step, hr, hc, if_true]
        have hclose := grows_close scan r hs hi
        rw [hstep]
        exact .back hr hc (ih _ hclose.sound (hclose.rank_pos hi) (hclose.length.trans hn)
          (hclose.unreached_card_le.trans hdepth))
      · rw [Bool.not_eq_true] at hc
        by_cases hp : scan.previous = some target
        · have hstep : Scan.step (visit references depth) i scan r = scan := by
            simp only [Scan.step, hr, hc, hp, Bool.false_eq_true, if_false, if_true]
          rw [hstep]
          exact .again hr hc hp (ih _ hs hi hn hdepth)
        · have hrun := hvisit target scan.marks hs hn (hrs r List.mem_cons_self target hr) hdepth
          have hstep : Scan.step (visit references depth) i scan r =
              scan.absorb i r target (visit references depth target scan.marks).1
                (visit references depth target scan.marks).2 := by
            simp only [Scan.step, hr, hc, hp, Bool.false_eq_true, if_false]
            rfl
          have habsorb := (ranks_extends hrun hs).grows_absorb r target
            (visit references depth target scan.marks).2 hi
          rw [hstep]
          exact .call hr hc hp hrun (ih _ habsorb.sound (habsorb.rank_pos hi)
            (habsorb.length.trans hn) (habsorb.unreached_card_le.trans hdepth))

/-- **A depth of the number of tables that were not reached is enough** to rank a table. -/
theorem ranks_visit {references : List (List Reference)} {n : Nat} (hw : Within n references)
    (depth i : Nat) (marks : Marks) (hs : Sound marks) (hn : marks.length = n) (hi : i < n)
    (hdepth : (unreached marks).card ≤ depth) :
    Ranks references i marks (visit references depth i marks).1 (visit references depth i marks).2 := by
  induction depth generalizing i marks with
  | zero =>
    have hpos : 0 < (markOf marks i).rank := by
      refine Nat.pos_of_ne_zero fun hzero => ?_
      have hmem := mem_unreached.mpr ⟨hn ▸ hi, hzero⟩
      rw [Finset.card_eq_zero.mp (Nat.le_zero.mp hdepth)] at hmem
      exact absurd hmem (Finset.notMem_empty i)
    exact .ranked hpos
  | succ depth ih =>
    unfold visit
    by_cases hpos : 0 < (markOf marks i).rank
    · rw [if_pos hpos]
      exact .ranked hpos
    · have hzero : (markOf marks i).rank = 0 := by omega
      have hlt : i < marks.length := hn ▸ hi
      rw [if_neg hpos]
      refine .fresh hzero hlt (scans_foldl (fun i marks hs hn hi hd => ih i marks hs hn hi hd) i _ _
        (hw i) (sound_start hs hlt) ?_ ?_ ?_)
      · rw [start, markOf_modify_self hlt]
        exact Nat.one_pos
      · rw [start, List.length_modify, hn]
      · exact Nat.le_of_lt_succ ((unreached_start_card_lt hlt hzero).trans_le hdepth)

/-- Ranking one more table is a run. -/
theorem ranks_visit_length {references : List (List Reference)} {i : Nat} {marks : Marks}
    (hw : Within references.length references) (hs : Sound marks)
    (hn : marks.length = references.length) (hi : i < references.length) :
    Ranks references i marks (visit references references.length i marks).1
      (visit references references.length i marks).2 := by
  refine ranks_visit hw references.length i marks hs hn hi ?_
  rw [← hn, ← Finset.card_range marks.length]
  exact Finset.card_le_card (Finset.filter_subset _ _)

/-- The marks once all tables in `live` are ranked. -/
def rankAll (references : List (List Reference)) (live : List Nat) : Marks :=
  visitAll references live (List.replicate references.length {})

theorem visitAll_cons (references : List (List Reference)) (i : Nat) (rest : List Nat)
    (marks : Marks) : visitAll references (i :: rest) marks =
      visitAll references rest (visit references references.length i marks).1 := rfl

theorem rankAll_append_singleton (references : List (List Reference)) (seen : List Nat) (i : Nat) :
    rankAll references (seen ++ [i]) =
      (visit references references.length i (rankAll references seen)).1 := by
  rw [rankAll, visitAll, List.foldl_append]
  rfl

theorem visitAll_extends {references : List (List Reference)} {live : List Nat} {marks : Marks}
    (hw : Within references.length references) (hs : Sound marks)
    (hn : marks.length = references.length) (hlive : ∀ i ∈ live, i < references.length) :
    Extends marks (visitAll references live marks) := by
  induction live generalizing marks with
  | nil => exact .refl hs
  | cons i rest ih =>
    have hext := ranks_extends (ranks_visit_length hw hs hn (hlive i List.mem_cons_self)) hs
    rw [visitAll_cons]
    exact hext.trans (ih hext.sound (hext.length.trans hn) fun v hv =>
      hlive v (List.mem_cons_of_mem i hv))

theorem length_rankAll {references : List (List Reference)} {live : List Nat}
    (hw : Within references.length references) (hlive : ∀ i ∈ live, i < references.length) :
    (rankAll references live).length = references.length :=
  (visitAll_extends hw (sound_replicate _) List.length_replicate hlive).length.trans
    List.length_replicate

/-- Induction over the ranking of all tables, by what one run preserves. -/
theorem rankAll_induct {references : List (List Reference)} {P : List Nat → Marks → Prop}
    {live : List Nat} (hw : Within references.length references)
    (hlive : ∀ i ∈ live, i < references.length)
    (init : P [] (List.replicate references.length {}))
    (step : ∀ seen i marks marks' closed, i ∈ live → Sound marks → P seen marks →
      Ranks references i marks marks' closed → Extends marks' (rankAll references live) →
        P (seen ++ [i]) marks') :
    P live (rankAll references live) := by
  suffices h : ∀ rest seen marks, live = seen ++ rest → Sound marks →
      marks.length = references.length → P seen marks →
      visitAll references rest marks = rankAll references live → P live (rankAll references live) from
    h live [] _ rfl (sound_replicate _) List.length_replicate init rfl
  intro rest
  induction rest with
  | nil =>
    intro seen marks hsplit _ _ hP hend
    rw [List.append_nil] at hsplit
    rw [← hend]
    exact hsplit ▸ hP
  | cons i rest ih =>
    intro seen marks hsplit hs hn hP hend
    have hi : i ∈ live := by rw [hsplit]; simp
    have hrun := ranks_visit_length hw hs hn (hlive i hi)
    have hext := ranks_extends hrun hs
    have hn' := hext.length.trans hn
    rw [visitAll_cons] at hend
    have hrest : Extends _ (visitAll references rest _) := visitAll_extends hw hext.sound hn'
      fun v hv => hlive v (by rw [hsplit]; simp [hv])
    rw [hend] at hrest
    exact ih (seen ++ [i]) _ (by rw [hsplit, List.append_assoc]; rfl) hext.sound hn'
      (step seen i marks _ _ hi hs hP hrun hrest) hend

end Ranking
end SchemaShift
