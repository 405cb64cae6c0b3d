import SchemaShift.Proofs.Ranking
import Mathlib.Data.List.Cycle

/-! The order in which tables are finished.

When a table is finished, every key that it does not keep leads to a table that
was finished before and has a smaller rank, unless the ranks have reached the
greatest word (`Settled`, `FinishOrder`). A run of the ranking carries such an
order on (`runs_finishOrder`), so there is one for all tables in the end
(`rankAll_rootsDone`), and no circle of keys is left without one that is kept
(`FinishOrder.kept_of_circle`): ranks alone would not show it, as they stop
growing. -/
namespace SchemaShift
namespace Ranking

/-- The table was finished and stands below table `i` by its rank. -/
def Below (marks : Marks) (done : List Nat) (i target : Nat) : Prop :=
  target ∈ done ∧
    ((markOf marks target).rank < (markOf marks i).rank ∨ (markOf marks i).rank = maxRank)

/-- What becomes of a reference of table `i`: its key is kept, and is noted if it
leads anywhere, or its target was finished before. -/
def Settled (marks : Marks) (done : List Nat) (retained : List String) (i : Nat) (r : Reference) :
    Prop :=
  (r.column ∈ retained ∧ (r.target.isSome = true → (markOf marks i).cycle = true)) ∨
    ∃ target, r.target = some target ∧ Below marks done i target

/-- Every reference of the tables listed is settled by the tables behind. -/
def SettledIn (references : List (List Reference)) (marks : Marks) : List Nat → Prop
  | [] => True
  | i :: done =>
    (∀ r ∈ referencesOf references i, Settled marks done (markOf marks i).retained i r) ∧
      SettledIn references marks done

/-- The finished tables, the last one first. -/
structure FinishOrder (references : List (List Reference)) (marks : Marks) (done : List Nat) :
    Prop where
  mem : ∀ v, v ∈ done ↔ 0 < (markOf marks v).rank ∧ (markOf marks v).checking = false
  nodup : done.Nodup
  settled : SettledIn references marks done

variable {references : List (List Reference)} {marks marks' : Marks} {done done' : List Nat}

/-! ### Later marks -/

theorem settledIn_congr (h : ∀ v ∈ done, markOf marks' v = markOf marks v)
    (hd : SettledIn references marks done) : SettledIn references marks' done := by
  induction done with
  | nil => trivial
  | cons i done ih =>
    have hi := h i List.mem_cons_self
    refine ⟨fun r hr => ?_, ih (fun v hv => h v (List.mem_cons_of_mem i hv)) hd.2⟩
    rw [hi]
    rcases hd.1 r hr with ⟨hkept, hcycle⟩ | ⟨target, htarget, hmem, hrank⟩
    · exact .inl ⟨hkept, by rwa [hi]⟩
    · exact .inr ⟨target, htarget, hmem, by rwa [hi, h target (List.mem_cons_of_mem i hmem)]⟩

/-- A change of the mark of a table that is not finished, before and after. -/
theorem FinishOrder.congr {i : Nat} (h : FinishOrder references marks done)
    (hv : ∀ v, v ≠ i → markOf marks' v = markOf marks v)
    (hi : ¬ (0 < (markOf marks i).rank ∧ (markOf marks i).checking = false))
    (hi' : ¬ (0 < (markOf marks' i).rank ∧ (markOf marks' i).checking = false)) :
    FinishOrder references marks' done where
  mem v := by
    by_cases hvi : v = i
    · subst hvi
      rw [h.mem v]
      exact iff_of_false hi hi'
    · rw [hv v hvi]
      exact h.mem v
  nodup := h.nodup
  settled := settledIn_congr
    (fun v hmem => hv v fun hvi => hi (hvi ▸ (h.mem v).mp hmem)) h.settled

/-- What is below a table in the middle of its references stays below it. -/
theorem Below.grows {i target : Nat} (hb : Below marks done i target)
    (h : FinishOrder references marks done) (hg : Grows i marks marks')
    (hi : (markOf marks i).checking = true) (hd : done <:+ done') : Below marks' done' i target := by
  obtain ⟨hmem, hrank⟩ := hb
  obtain ⟨hpos, hchecking⟩ := (h.mem target).mp hmem
  have hne : target ≠ i := by
    rintro rfl
    rw [hi] at hchecking
    exact absurd hchecking (by decide)
  refine ⟨hd.subset hmem, ?_⟩
  rw [hg.kept target hne hpos]
  rcases hrank with hlt | hmax
  · exact .inl (hlt.trans_le hg.rank)
  · exact .inr ((hg.sound.bounded i).antisymm (hmax ▸ hg.rank))

theorem Settled.grows {i : Nat} {retained retained' : List String} {r : Reference}
    (hs : Settled marks done retained i r) (h : FinishOrder references marks done)
    (hg : Grows i marks marks') (hi : (markOf marks i).checking = true) (hd : done <:+ done')
    (hr : retained ⊆ retained') : Settled marks' done' retained' i r := by
  rcases hs with ⟨hkept, hcycle⟩ | ⟨target, htarget, hb⟩
  · exact .inl ⟨hr hkept, fun hsome => hg.cycle (hcycle hsome)⟩
  · exact .inr ⟨target, htarget, hb.grows h hg hi hd⟩

/-! ### One run -/

/-- Part way through the references of table `i`, those in `seen` being behind. -/
structure ScanOrder (references : List (List Reference)) (i : Nat) (seen : List Reference)
    (scan : Scan) (done : List Nat) : Prop where
  sound : Sound scan.marks
  rank : 0 < (markOf scan.marks i).rank
  checking : (markOf scan.marks i).checking = true
  order : FinishOrder references scan.marks done
  settled : ∀ r ∈ seen, Settled scan.marks done scan.retained i r
  previous : ∀ target, scan.previous = some target → Below scan.marks done i target

/-- Marks that grow leave what was seen settled. -/
theorem ScanOrder.grow {i : Nat} {seen : List Reference} {scan : Scan}
    (h : ScanOrder references i seen scan done) (hg : Grows i scan.marks marks')
    (ho : FinishOrder references marks' done') (hd : done <:+ done') :
    ScanOrder references i seen { scan with marks := marks' } done' where
  sound := hg.sound
  rank := hg.rank_pos h.rank
  checking := (hg.checking i).trans h.checking
  order := ho
  settled r hr := (h.settled r hr).grows h.order hg h.checking hd (List.Subset.refl _)
  previous target ht := (h.previous target ht).grows h.order hg h.checking hd

/-- A change of the mark of the table itself. -/
theorem ScanOrder.modify {i : Nat} {seen : List Reference} {scan : Scan} {f : Mark → Mark}
    (h : ScanOrder references i seen scan done)
    (hg : Grows i scan.marks (scan.marks.modify i f)) :
    ScanOrder references i seen { scan with marks := scan.marks.modify i f } done := by
  refine h.grow hg (h.order.congr (fun v hv => markOf_modify_ne (Sound.lt_length h.rank) _ hv) ?_ ?_)
    List.suffix_rfl
  · rw [h.checking]
    simp
  · rw [hg.checking, h.checking]
    simp

/-- One more reference is settled. -/
theorem ScanOrder.settle {i : Nat} {seen : List Reference} {scan : Scan} {r : Reference}
    (h : ScanOrder references i seen scan done) (hr : Settled scan.marks done scan.retained i r) :
    ScanOrder references i (seen ++ [r]) scan done := by
  refine { h with settled := fun s hs => ?_ }
  rcases List.mem_append.mp hs with hs | hs
  · exact h.settled s hs
  · rwa [List.mem_singleton.mp hs]

/-- One more key is kept. -/
theorem ScanOrder.keep {i : Nat} {seen : List Reference} {scan : Scan} {r : Reference}
    (h : ScanOrder references i seen scan done)
    (hr : r.target.isSome = true → (markOf scan.marks i).cycle = true) :
    ScanOrder references i (seen ++ [r]) (scan.keep r) done := by
  have hkept : ∀ s ∈ seen, Settled scan.marks done (scan.keep r).retained i s := fun s hs =>
    (h.settled s hs).grows h.order (.refl h.sound) h.checking List.suffix_rfl
      (List.subset_append_left _ _)
  have hkeep : ScanOrder references i seen (scan.keep r) done := { h with settled := hkept }
  exact hkeep.settle (.inl ⟨List.mem_append_right _ (List.mem_singleton.mpr rfl), hr⟩)

theorem ScanOrder.close {i : Nat} {seen : List Reference} {scan : Scan} {r : Reference}
    (h : ScanOrder references i seen scan done) :
    ScanOrder references i (seen ++ [r]) (scan.close i r) done := by
  have hmodify := h.modify (grows_close scan r h.sound h.rank)
  have hkeep := hmodify.keep (r := r) fun _ => by
    rw [markOf_modify_self (Sound.lt_length h.rank)]
    rfl
  exact { hkeep with }

/-- The rank of a target that was just ranked is added: the sum is above it. -/
theorem lt_addRank {a : Nat} (b : Nat) (ha : 0 < a) : b < addRank a b ∨ addRank a b = maxRank := by
  unfold addRank
  omega

theorem ScanOrder.absorb {i target : Nat} {seen : List Reference} {scan : Scan} {r : Reference}
    {closed : Bool} (h : ScanOrder references i seen scan done) (hr : r.target = some target)
    (hc : (markOf scan.marks target).checking = false)
    (hrun : Ranks references target scan.marks marks closed)
    (ho : FinishOrder references marks done') (hd : done <:+ done') :
    ScanOrder references i (seen ++ [r]) (scan.absorb i r target marks closed) done' := by
  have hext := ranks_extends hrun h.sound
  have hgrown := h.grow (hext.grows h.rank) ho hd
  have hadd := hgrown.modify (grows_count target hgrown.sound hgrown.rank)
  have hlt := Sound.lt_length hgrown.rank
  have hne : target ≠ i := by
    rintro rfl
    rw [h.checking] at hc
    exact absurd hc (by decide)
  have hbelow : Below (count i target marks) done' i target := by
    refine ⟨(ho.mem target).mpr ⟨ranks_pos hrun h.sound, (hext.checking target).trans hc⟩, ?_⟩
    rw [count, markOf_modify_ne hlt _ hne, markOf_modify_self hlt]
    exact lt_addRank _ hgrown.rank
  cases closed with
  | true => exact hadd.close
  | false =>
    have hsettle := hadd.settle (.inr ⟨target, hr, hbelow⟩)
    exact { hsettle with previous := fun t ht => Option.some.inj ht ▸ hbelow }

/-- A table that begins is not finished, and nothing of it is seen. -/
theorem FinishOrder.start {i : Nat} (h : FinishOrder references marks done) (hs : Sound marks)
    (hi : i < marks.length) (h0 : (markOf marks i).rank = 0) :
    ScanOrder references i [] { marks := start i marks } done where
  sound := sound_start hs hi
  rank := by
    rw [markOf_start_self hi]
    exact Nat.one_pos
  checking := by rw [markOf_start_self hi]
  order := by
    refine h.congr (fun v hv => markOf_start_ne hi hv) ?_ ?_
    · rw [h0]
      simp
    · rw [markOf_start_self hi]
      simp
  settled r hr := absurd hr List.not_mem_nil
  previous target ht := absurd ht (by simp)

/-- A table whose references are all seen is the next one finished. -/
theorem ScanOrder.finish {i : Nat} {scan : Scan}
    (h : ScanOrder references i (referencesOf references i) scan done) :
    FinishOrder references (finish i scan) (i :: done) := by
  have hlt := Sound.lt_length h.rank
  have hself := markOf_finish_self hlt
  have hother : ∀ v, v ≠ i → markOf (Ranking.finish i scan) v = markOf scan.marks v :=
    fun v hv => markOf_finish_ne hlt hv
  have hnotin : i ∉ done := by
    rw [h.order.mem i, h.checking]
    simp
  have hdone : ∀ v ∈ done, markOf (Ranking.finish i scan) v = markOf scan.marks v :=
    fun v hv => hother v fun hvi => hnotin (hvi ▸ hv)
  refine ⟨fun v => ?_, List.nodup_cons.mpr ⟨hnotin, h.order.nodup⟩, fun r hr => ?_,
    settledIn_congr hdone h.order.settled⟩
  · by_cases hv : v = i
    · subst hv
      rw [hself]
      exact iff_of_true List.mem_cons_self ⟨h.rank, rfl⟩
    · rw [hother v hv, List.mem_cons, ← h.order.mem v]
      exact or_iff_right hv
  · rw [hself]
    rcases h.settled r hr with ⟨hkept, hcycle⟩ | ⟨target, htarget, hmem, hrank⟩
    · exact .inl ⟨hkept, by rwa [hself]⟩
    · exact .inr ⟨target, htarget, hmem, by rwa [hself, hdone target hmem]⟩

/-- **A run carries the order on** by the tables that it finishes. -/
theorem runs_finishOrder :
    (∀ {i marks marks' closed}, Ranks references i marks marks' closed → ∀ done, Sound marks →
      FinishOrder references marks done →
        ∃ done', done <:+ done' ∧ FinishOrder references marks' done') ∧
    ∀ {i rs scan scan'}, Scans references i rs scan scan' → ∀ done seen,
      ScanOrder references i seen scan done →
        ∃ done', done <:+ done' ∧ ScanOrder references i (seen ++ rs) scan' done' := by
  refine run_induct ?ranked ?fresh ?nil ?dangling ?back ?again ?call
  case ranked => exact fun i marks _ done _ h => ⟨done, List.suffix_rfl, h⟩
  case nil => exact fun i scan done seen h => ⟨done, List.suffix_rfl, by rwa [List.append_nil]⟩
  case dangling =>
    intro i r rest scan scan' hr _ ih done seen h
    rw [List.append_cons]
    exact ih done _ (h.keep (by rw [hr]; simp))
  case back =>
    intro i r rest target scan scan' _ _ _ ih done seen h
    rw [List.append_cons]
    exact ih done _ h.close
  case again =>
    intro i r rest target scan scan' hr _ hp _ ih done seen h
    rw [List.append_cons]
    exact ih done _ (h.settle (.inr ⟨target, hr, h.previous target hp⟩))
  case call =>
    intro i r rest target scan marks closed scan' hr hc _ hrun _ ihr ih done seen h
    obtain ⟨done₁, hd₁, h₁⟩ := ihr done h.sound h.order
    obtain ⟨done', hd, h'⟩ := ih done₁ _ (h.absorb hr hc hrun h₁ hd₁)
    exact ⟨done', hd₁.trans hd, by rwa [List.append_cons]⟩
  case fresh =>
    intro i marks scan h0 hi _ ih done hs h
    obtain ⟨done', hd, h'⟩ := ih done [] (h.start hs hi h0)
    exact ⟨i :: done', hd.trans (List.suffix_cons i done'), h'.finish⟩

/-! ### All tables -/

/-- Between two tables: those that were ranked are finished, and nothing is being ranked. -/
structure RootsDone (references : List (List Reference)) (seen : List Nat) (marks : Marks)
    (done : List Nat) : Prop where
  order : FinishOrder references marks done
  seen : seen ⊆ done
  checking : ∀ v, (markOf marks v).checking = false

theorem rootsDone_replicate (references : List (List Reference)) (n : Nat) :
    RootsDone references [] (List.replicate n {}) [] where
  order := by
    refine ⟨fun v => ?_, List.nodup_nil, trivial⟩
    rw [markOf_replicate]
    simp
  seen := List.Subset.refl _
  checking v := by rw [markOf_replicate]

theorem RootsDone.rank {seen : List Nat} {i : Nat} {closed : Bool}
    (h : RootsDone references seen marks done) (hs : Sound marks)
    (hrun : Ranks references i marks marks' closed) :
    ∃ done', RootsDone references (seen ++ [i]) marks' done' := by
  obtain ⟨done', hd, ho⟩ := runs_finishOrder.1 hrun done hs h.order
  have hchecking : ∀ v, (markOf marks' v).checking = false := fun v =>
    ((ranks_extends hrun hs).checking v).trans (h.checking v)
  have hi : i ∈ done' := (ho.mem i).mpr ⟨ranks_pos hrun hs, hchecking i⟩
  exact ⟨done', ho, List.append_subset.mpr ⟨List.Subset.trans h.seen hd.subset, by simpa using hi⟩, hchecking⟩

/-- The tables ranked one after the other are all finished in the end. -/
theorem rankAll_rootsDone {live : List Nat} (hw : Within references.length references)
    (hlive : ∀ i ∈ live, i < references.length) :
    ∃ done, RootsDone references live (rankAll references live) done := by
  refine rankAll_induct (P := fun seen marks => ∃ done, RootsDone references seen marks done) hw
    hlive ⟨[], rootsDone_replicate _ _⟩ ?_
  intro seen i marks marks' closed _ hs h hrun _
  obtain ⟨done, hdone⟩ := h
  exact hdone.rank hs hrun

/-! ### Circles of keys -/

/-- The key leads to a table that was finished before table `i` and has a smaller rank. -/
def Earlier (marks : Marks) (done : List Nat) (i : Nat) (r : Reference) : Prop :=
  ∃ target, r.target = some target ∧ target ∈ done ∧ done.idxOf i < done.idxOf target ∧
    ((markOf marks target).rank < (markOf marks i).rank ∨ (markOf marks i).rank = maxRank)

theorem SettledIn.kept_or_earlier {i : Nat} {r : Reference} (h : SettledIn references marks done)
    (hnodup : done.Nodup) (hi : i ∈ done) (hr : r ∈ referencesOf references i) :
    (r.column ∈ (markOf marks i).retained ∧
        (r.target.isSome = true → (markOf marks i).cycle = true)) ∨ Earlier marks done i r := by
  induction done with
  | nil => exact absurd hi List.not_mem_nil
  | cons j done ih =>
    obtain ⟨hj, hnodup⟩ := List.nodup_cons.mp hnodup
    have hskip : ∀ {v}, v ∈ done → (j :: done).idxOf v = done.idxOf v + 1 := fun hv =>
      List.idxOf_cons_ne done fun hjv => hj (hjv ▸ hv)
    by_cases hij : i = j
    · subst hij
      rcases h.1 r hr with hkept | ⟨target, htarget, hmem, hrank⟩
      · exact .inl hkept
      · refine .inr ⟨target, htarget, List.mem_cons_of_mem i hmem, ?_, hrank⟩
        rw [List.idxOf_cons_self, hskip hmem]
        exact Nat.succ_pos _
    · have hi := (List.mem_cons.mp hi).resolve_left hij
      refine (ih h.2 hnodup hi).imp_right fun ⟨target, htarget, hmem, hlt, hrank⟩ => ?_
      refine ⟨target, htarget, List.mem_cons_of_mem j hmem, ?_, hrank⟩
      rw [hskip hi, hskip hmem]
      exact Nat.succ_lt_succ hlt

/-- From every place of a circle there is a step. -/
theorem exists_step {α : Type} {R : α → α → Prop} {circle : Cycle α} (h : circle.Chain R) {a : α}
    (ha : a ∈ circle) : ∃ b, R a b := by
  induction circle using Cycle.induction_on with
  | nil => exact absurd ha (Cycle.notMem_nil a)
  | cons first rest _ =>
    rw [Cycle.chain_coe_cons, ← List.cons_append] at h
    obtain ⟨before, after, hsplit⟩ := List.append_of_mem (Cycle.mem_coe_iff.mp ha)
    rw [hsplit, List.append_assoc, List.cons_append] at h
    have htail := h.right_of_append
    cases after with
    | nil => exact ⟨first, htail.rel⟩
    | cons b after => exact ⟨b, htail.rel⟩

/-- Table `a.1` is finished and has a reference through the column `a.2` to table `b.1`. -/
def Follows (references : List (List Reference)) (done : List Nat) (a b : Nat × String) : Prop :=
  a.1 ∈ done ∧ ∃ r ∈ referencesOf references a.1, r.column = a.2 ∧ r.target = some b.1

/-- **No circle of keys is dropped whole**: one of its keys is kept, in a table
that is marked. -/
theorem FinishOrder.kept_of_circle (h : FinishOrder references marks done)
    {circle : Cycle (Nat × String)} (hne : circle ≠ Cycle.nil)
    (hchain : circle.Chain (Follows references done)) :
    ∃ a ∈ circle, a.2 ∈ (markOf marks a.1).retained ∧ (markOf marks a.1).cycle = true := by
  by_contra hnone
  push Not at hnone
  induction circle using Cycle.induction_on with
  | nil => exact hne rfl
  | cons first rest _ =>
    have hon : ∀ a ∈ first :: (rest ++ [first]), a ∈ (↑(first :: rest) : Cycle (Nat × String)) := by
      intro a ha
      rw [Cycle.mem_coe_iff]
      simpa [or_comm] using ha
    -- Every step leads to a table finished earlier, so no walk comes back.
    have hback : Cycle.Chain (fun a b => done.idxOf a.1 < done.idxOf b.1)
        (↑(first :: rest) : Cycle (Nat × String)) := by
      rw [Cycle.chain_coe_cons] at hchain ⊢
      refine hchain.imp_of_mem_imp fun a b ha _ hab => ?_
      obtain ⟨hdone, r, hr, hcolumn, htarget⟩ := hab
      rcases h.settled.kept_or_earlier h.nodup hdone hr with ⟨hkept, hcycle⟩ | ⟨v, hv, _, hlt, _⟩
      · rw [hcolumn] at hkept
        exact absurd (hcycle (by rw [htarget]; rfl)) (hnone a (hon a ha) hkept)
      · obtain rfl : b.1 = v := Option.some.inj (htarget.symm.trans hv)
        exact hlt
    have hmap := (Cycle.chain_map (r := (· < ·)) fun a : Nat × String => done.idxOf a.1).mpr hback
    exact hne ((Cycle.map_eq_nil _ _).mp hmap.eq_nil_of_irrefl)

end Ranking
end SchemaShift
