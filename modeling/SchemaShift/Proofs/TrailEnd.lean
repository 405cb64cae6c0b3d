import SchemaShift.Proofs.RenameTrail

/-! Where a trail ends.

A trail takes the edges of a name in their order, and it ends at a name only when
it has taken all of them. A second trail from there comes to no name more often
than the first one did, as it takes edges of the first one only; so at every other
name it finds one left, and it ends where it began
(`RenameGraph.greedyEnd_of_greedyEnd`). -/
namespace SchemaShift
namespace RenameGraph

/-- Every edge begins where the one before it ends, from `start` on and up to `stop`. -/
def Path : Fate → List (Fate × Fate) → Fate → Prop
  | start, [], stop => start = stop
  | start, edge :: rest, stop => edge.1 = start ∧ Path edge.2 rest stop

/-- The edges that leave `v`, in order. -/
def out (v : Fate) (edges : List (Fate × Fate)) : List (Fate × Fate) :=
  edges.filter fun edge => edge.1 = v

/-- How often a trail comes to `v`. -/
def arrivals (v : Fate) (trail : List (Fate × Fate)) : Nat := trail.countP fun edge => edge.2 = v

variable {edges trail taken left : List (Fate × Fate)} {start stop current v : Fate}
  {edge : Fate × Fate}

theorem Path.concat (h : Path start trail edge.1) : Path start (trail ++ [edge]) edge.2 := by
  induction trail generalizing start with
  | nil =>
    obtain rfl : start = edge.1 := h
    exact ⟨rfl, rfl⟩
  | cons first rest ih => exact ⟨h.1, ih h.2⟩

/-- A trail leaves a name as often as it comes to it, but for its two ends. -/
theorem Path.balance (h : Path start trail stop) (v : Fate) :
    arrivals v trail + (if start = v then 1 else 0) =
      (out v trail).length + if stop = v then 1 else 0 := by
  induction trail generalizing start with
  | nil =>
    obtain rfl : start = stop := h
    simp [arrivals, out]
  | cons first rest ih =>
    obtain ⟨rfl, hrest⟩ := h
    have hrest := ih hrest
    simp only [arrivals, out, List.countP_cons, List.filter_cons, decide_eq_true_eq] at hrest ⊢
    by_cases hfirst : first.1 = v
    · simp only [hfirst, if_true, List.length_cons]
      omega
    · simp only [hfirst, if_false]
      omega

/-! ### What a trail takes -/

theorem out_append (v : Fate) (front back : List (Fate × Fate)) :
    out v (front ++ back) = out v front ++ out v back := List.filter_append ..

theorem out_cons_self (edge : Fate × Fate) (rest : List (Fate × Fate)) :
    out edge.1 (edge :: rest) = edge :: out edge.1 rest := List.filter_cons_of_pos (by simp)

theorem out_cons_ne (h : edge.1 ≠ v) (rest : List (Fate × Fate)) : out v (edge :: rest) = out v rest :=
  List.filter_cons_of_neg (by simpa using h)

section Keyed
variable {β κ : Type} [DecidableEq κ] {key : β → κ} {xs ys : List β} {x : β} {k : κ}

/-- The first element of a key leaves, and of every key the others stay in order. -/
theorem filter_of_find? (h : xs.find? (fun x => key x = k) = some x) :
    key x = k ∧ ∀ v, xs.filter (fun x => key x = v) =
      [x].filter (fun x => key x = v) ++ (xs.eraseP fun x => key x = k).filter fun x => key x = v := by
  obtain ⟨hkey, front, back, rfl, hfront⟩ := List.find?_eq_some_iff_append.mp h
  obtain rfl : key x = k := by simpa using hkey
  refine ⟨rfl, fun v => ?_⟩
  rw [List.eraseP_append_right _ fun other hother => by simpa using hfront other hother,
    List.eraseP_cons_of_pos (by simp), List.filter_append, List.filter_append]
  by_cases hv : key x = v
  · have hnone : front.filter (fun x => key x = v) = [] := List.filter_eq_nil_iff.mpr fun other hother => by
      simpa [← hv] using hfront other hother
    rw [hnone, List.filter_cons_of_pos (by simpa using hv), List.filter_cons_of_pos (by simpa using hv)]
    rfl
  · rw [List.filter_cons_of_neg (by simpa using hv), List.filter_cons_of_neg (by simpa using hv)]
    rfl

theorem filter_of_find?_none (h : xs.find? (fun x => key x = k) = none) :
    xs.filter (fun x => key x = k) = [] :=
  List.filter_eq_nil_iff.mpr fun other hother => by simpa using List.find?_eq_none.mp h other hother

/-- What has of every key only the first elements of a list is a part of the list. -/
theorem subperm_of_filter [DecidableEq β]
    (h : ∀ v, ys.filter (fun x => key x = v) <+: xs.filter fun x => key x = v) : ys.Subperm xs := by
  refine List.subperm_ext_iff.mpr fun y _ => ?_
  have hcount : ∀ zs : List β, (zs.filter fun x => key x = key y).count y = zs.count y :=
    fun zs => List.count_filter (by simp)
  rw [← hcount ys, ← hcount xs]
  exact (h (key y)).sublist.count_le y

end Keyed

/-- The oldest edge of a name leaves first, and the others stay. -/
theorem out_of_find? (h : edges.find? (fun edge => edge.1 = current) = some edge) :
    edge.1 = current ∧ ∀ v, out v edges =
      out v [edge] ++ out v (edges.eraseP fun edge => edge.1 = current) := filter_of_find? h

theorem out_of_find?_none (h : edges.find? (fun edge => edge.1 = current) = none) :
    out current edges = [] := filter_of_find?_none h

/-- Of every name a trail takes the oldest edges, in order. -/
theorem out_greedyTrail (edges : List (Fate × Fate)) (start v : Fate) :
    out v (greedyTrail edges start) <+: out v edges := by
  fun_induction greedyTrail edges start with
  | case1 => exact List.nil_prefix
  | case2 edges current edge hfind ih =>
    rw [(out_of_find? hfind).2 v, ← List.singleton_append, out_append, List.prefix_append_right_inj]
    split
    · exact List.nil_prefix
    · exact ih

/-- What a trail does until it ends at a name. -/
structure Exhausts (edges trail : List (Fate × Fate)) (start stop : Fate) : Prop where
  path : Path start trail stop
  /-- The edges of each name are taken in order. -/
  inOrder : ∀ v, out v trail <+: out v edges
  full : out stop trail = out stop edges
  named : ∀ edge ∈ trail, edge.2 ≠ .dropped

theorem exhausts_greedyTrail (edges : List (Fate × Fate)) (start : Fate)
    (h : greedyEnd edges start ≠ .dropped) :
    Exhausts edges (greedyTrail edges start) start (greedyEnd edges start) := by
  have htrail := out_greedyTrail edges start
  fun_induction greedyTrail edges start with
  | case1 edges start hfind =>
    rw [greedyEnd_of_none hfind]
    exact ⟨rfl, fun _ => List.nil_prefix, (out_of_find?_none hfind).symm, by simp⟩
  | case2 edges start edge hfind ih =>
    obtain ⟨rfl, hout⟩ := out_of_find? hfind
    rw [greedyEnd_of_some hfind] at h ⊢
    have hnamed : edge.2 ≠ .dropped := fun hdropped => h (if_pos hdropped)
    rw [if_neg hnamed] at h htrail
    rw [if_neg hnamed, if_neg hnamed]
    have hrest := ih h (out_greedyTrail _ _)
    refine ⟨⟨rfl, hrest.path⟩, htrail, ?_, fun other hother => ?_⟩
    · rw [← List.singleton_append, out_append, hout, hrest.full]
    · rcases List.mem_cons.mp hother with rfl | hother
      · exact hnamed
      · exact hrest.named other hother

/-! ### A second trail -/

/-- Taking no more of each name's edges, a trail comes to no name more often. -/
theorem arrivals_le (h : ∀ v, out v taken <+: out v trail) (v : Fate) :
    arrivals v taken ≤ arrivals v trail := (subperm_of_filter h).countP_le _

/-- A trail from the end of another one has an edge of the other one left, unless it is back. -/
theorem Exhausts.behind (h : Exhausts edges trail start stop) (hpath : Path stop taken current)
    (hwithin : ∀ v, out v taken <+: out v trail) (hne : current ≠ stop) :
    (out current taken).length < (out current trail).length := by
  have hfirst := h.path.balance current
  have hsecond := hpath.balance current
  have hle := arrivals_le hwithin current
  rw [if_neg hne.symm] at hfirst hsecond
  rw [if_pos rfl] at hsecond
  omega

/-- From the end of a trail on, only edges of this trail are taken, and the end is the same. -/
theorem Exhausts.greedyEnd_left (h : Exhausts edges trail start stop) (hpath : Path stop taken current)
    (hwithin : ∀ v, out v taken <+: out v trail) (hsplit : ∀ v, out v edges = out v taken ++ out v left) :
    greedyEnd left current = stop := by
  induction hn : left.length using Nat.strongRecOn generalizing left taken current with
  | ind n ih =>
    have hcurrent := hsplit current
    cases hfind : left.find? fun edge => edge.1 = current with
    | none =>
      rw [greedyEnd_of_none hfind]
      by_contra hne
      have hbehind := h.behind hpath hwithin hne
      have hle := (h.inOrder current).length_le
      rw [hcurrent, out_of_find?_none hfind, List.append_nil] at hle
      omega
    | some edge =>
      obtain ⟨rfl, hout⟩ := out_of_find? hfind
      have hnext : out edge.1 (taken ++ [edge]) <+: out edge.1 edges := by
        rw [hcurrent, hout, out_append, ← List.append_assoc]
        exact List.prefix_append _ _
      -- The first trail goes on along the same edge.
      have hlonger : (out edge.1 (taken ++ [edge])).length ≤ (out edge.1 trail).length := by
        by_cases hne : edge.1 = stop
        · rw [hne, h.full, ← hne]
          exact hnext.length_le
        · have hbehind := h.behind hpath hwithin hne
          rw [out_append, out_cons_self, List.length_append]
          exact hbehind
      have htaken : ∀ v, out v (taken ++ [edge]) <+: out v trail := by
        intro v
        by_cases hv : edge.1 = v
        · subst hv
          exact List.prefix_of_prefix_length_le hnext (h.inOrder _) hlonger
        · rw [out_append, out_cons_ne hv]
          exact (List.append_nil _).symm ▸ hwithin v
      have hmem : edge ∈ trail := by
        have hedge : edge ∈ out edge.1 (taken ++ [edge]) := List.mem_filter.mpr ⟨by simp, by simp⟩
        exact (List.mem_filter.mp ((htaken edge.1).subset hedge)).1
      rw [greedyEnd_of_some hfind, if_neg (h.named edge hmem)]
      refine ih _ ?_ hpath.concat htaken (fun v => ?_) rfl
      · have hpos := List.length_pos_of_mem (List.mem_of_find?_eq_some hfind)
        rw [← hn, List.length_eraseP_of_mem (List.mem_of_find?_eq_some hfind) (by simp)]
        omega
      · rw [hsplit, hout, out_append, List.append_assoc]

/-- **The end of a trail is the end of the trail from there.** -/
theorem greedyEnd_of_greedyEnd {name : String} (h : greedyEnd edges start = .name name) :
    greedyEnd edges (.name name) = .name name := by
  have hexhausts := exhausts_greedyTrail edges start (by simp [h])
  rw [h] at hexhausts
  have hpath : Path (.name name) [] (.name name) := rfl
  exact hexhausts.greedyEnd_left hpath (fun _ => List.nil_prefix) fun _ => rfl

end RenameGraph
end SchemaShift
