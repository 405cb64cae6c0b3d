import SchemaShift.Settings.Expansion
import Mathlib.Data.List.Infix

/-! Replacing a pattern everywhere.

A pattern that closes with a character which it holds nowhere else cannot overlap
itself, so a replacement reaches every place where it stands (`Expansion.places`).
A text with gaps (`Expansion.fill`) tells the places that are meant from those where
the pattern only happens to stand: a replacement fills the gaps and does nothing
else exactly if there are no other places, or if it puts the pattern there again
(`Expansion.Closed.replaceAll_iff`). -/
namespace SchemaShift
namespace Expansion

variable {pattern value front back text rest : List Char} {c : Char}

/-! ### Patterns that cannot overlap themselves -/

/-- The last character of the pattern stands nowhere else in it. -/
def Closed (pattern : List Char) : Prop := ∃ body closing, pattern = body ++ [closing] ∧ closing ∉ body

theorem Closed.ne_nil (h : Closed pattern) : pattern ≠ [] := by
  obtain ⟨body, closing, rfl, _⟩ := h
  simp

/-- No part at the end of the pattern is also one at its start. -/
theorem Closed.no_overlap (h : Closed pattern) (hback : back <:+ pattern) (hne : back ≠ [])
    (hlt : back.length < pattern.length) : ¬ back <+: pattern := by
  obtain ⟨body, closing, rfl, hbody⟩ := h
  intro hstarts
  have hclosing : closing ∈ back := by
    obtain ⟨front, hfront⟩ := hback
    have hlast := congrArg List.getLast? hfront
    rw [List.getLast?_append_of_ne_nil _ hne, List.getLast?_concat] at hlast
    exact List.mem_of_getLast? hlast
  have hle : back.length ≤ body.length := by
    rw [List.length_append, List.length_singleton] at hlt
    omega
  exact hbody ((List.prefix_of_prefix_length_le hstarts (List.prefix_append _ _) hle).subset hclosing)

/-- Neither does one stand where another one has begun. -/
theorem Closed.not_inside (h : Closed pattern) (hback : back <:+ pattern) (hne : back ≠ [])
    (hlt : back.length < pattern.length) (rest : List Char) : ¬ pattern <+: back ++ rest := fun hstarts =>
  h.no_overlap hback hne hlt (List.prefix_of_prefix_length_le (List.prefix_append _ _) hstarts hlt.le)

/-! ### The places of a pattern -/

/-- The number of places where the pattern stands, overlapping ones included. -/
def places (pattern text : List Char) : Nat := text.tails.countP (pattern.isPrefixOf ·)

theorem places_nil (h : pattern ≠ []) : places pattern [] = 0 := by
  cases pattern with
  | nil => exact absurd rfl h
  | cons c rest => rfl

theorem places_cons : places pattern (c :: text) =
    places pattern text + if pattern <+: c :: text then 1 else 0 := by
  rw [places, List.tails_cons, List.countP_cons, places]
  simp only [List.isPrefixOf_iff_prefix]

/-- The pattern begins nowhere in `front` when `rest` stands behind it. -/
def Misses (pattern front rest : List Char) : Prop :=
  ∀ back, back <:+ front → back ≠ [] → ¬ pattern <+: back ++ rest

theorem places_append (h : Misses pattern front rest) :
    places pattern (front ++ rest) = places pattern rest := by
  induction front with
  | nil => rfl
  | cons c front ih =>
    have hhead : ¬ pattern <+: c :: (front ++ rest) := h (c :: front) (List.suffix_refl _) (by simp)
    rw [List.cons_append, places_cons, if_neg hhead]
    exact ih fun back hback => h back (hback.trans (List.suffix_cons c front))

theorem Closed.places_append (h : Closed pattern) (rest : List Char) :
    places pattern (pattern ++ rest) = places pattern rest + 1 := by
  obtain ⟨c, tail, hpattern⟩ := List.exists_cons_of_ne_nil h.ne_nil
  have hmisses : Misses pattern tail rest := by
    intro back hback hne
    have hlt : back.length < pattern.length := by
      have hle := hback.length_le
      rw [hpattern, List.length_cons]
      omega
    exact h.not_inside (hback.trans (hpattern ▸ List.suffix_cons c tail)) hne hlt rest
  have hcons : pattern ++ rest = c :: (tail ++ rest) := by rw [hpattern, List.cons_append]
  rw [hcons, places_cons, Expansion.places_append hmisses, if_pos (hcons ▸ List.prefix_append pattern rest)]

/-! ### The replacement, place by place -/

theorem replaceAfter_eq (pattern value : List Char) (skip : Nat) (text : List Char) :
    replaceAfter pattern value skip text = replaceAll pattern value (text.drop skip) := by
  induction text generalizing skip with
  | nil => cases skip <;> rfl
  | cons c rest ih =>
    cases skip with
    | zero => rfl
    | succ skip => exact ih skip

theorem replaceAll_cons (h : ¬ pattern <+: c :: text) :
    replaceAll pattern value (c :: text) = c :: replaceAll pattern value text :=
  if_neg (mt List.isPrefixOf_iff_prefix.mp h)

theorem replaceAll_append (h : pattern ≠ []) (rest : List Char) :
    replaceAll pattern value (pattern ++ rest) = value ++ replaceAll pattern value rest := by
  obtain ⟨c, tail, hpattern⟩ := List.exists_cons_of_ne_nil h
  have hcons : pattern ++ rest = c :: (tail ++ rest) := by rw [hpattern, List.cons_append]
  have hlength : pattern.length - 1 = tail.length := by rw [hpattern, List.length_cons, Nat.add_sub_cancel]
  have hstarts : pattern.isPrefixOf (c :: (tail ++ rest)) = true :=
    List.isPrefixOf_iff_prefix.mpr (hcons ▸ List.prefix_append pattern rest)
  rw [hcons, replaceAll, replaceAfter, if_pos hstarts, replaceAfter_eq, hlength, List.drop_left]

/-! ### Texts with gaps -/

/-- What stands in a gap or at a character. -/
def fillAt (filling : List Char) : Option Char → List Char
  | some c => [c]
  | none => filling

/-- The text with its gaps filled. -/
def fill (filling : List Char) (gapped : List (Option Char)) : List Char := gapped.flatMap (fillAt filling)

variable {gapped : List (Option Char)}

theorem fill_gap (filling : List Char) (gapped : List (Option Char)) :
    fill filling (none :: gapped) = filling ++ fill filling gapped := rfl

theorem fill_char (filling : List Char) (c : Char) (gapped : List (Option Char)) :
    fill filling (some c :: gapped) = c :: fill filling gapped := rfl

theorem fill_chars (filling text : List Char) (gapped : List (Option Char)) :
    fill filling (text.map some ++ gapped) = text ++ fill filling gapped := by
  induction text with
  | nil => rfl
  | cons c text ih => exact congrArg (c :: ·) ih

theorem count_chars (text : List Char) (gapped : List (Option Char)) :
    (text.map some ++ gapped).count none = gapped.count none := by
  rw [List.count_append, Nat.add_eq_right, List.count_eq_zero]
  simp

/-- A pattern that begins in front of a gap has ended there. -/
theorem Closed.prefix_fill (h : Closed pattern) (hback : back <:+ pattern) (hlt : back.length < pattern.length)
    (hstarts : back <+: fill pattern gapped) : ∃ rest, gapped = back.map some ++ rest := by
  induction back generalizing gapped with
  | nil => exact ⟨gapped, rfl⟩
  | cons c back ih =>
    cases gapped with
    | nil => exact absurd (List.prefix_nil.mp hstarts) (by simp)
    | cons place gapped =>
      cases place with
      | none =>
        have hstart : c :: back <+: pattern :=
          List.prefix_of_prefix_length_le hstarts (List.prefix_append pattern _) hlt.le
        exact absurd hstart (h.no_overlap hback (by simp) hlt)
      | some d =>
        obtain ⟨rfl, hrest⟩ := List.cons_prefix_cons.mp hstarts
        have hlt' : back.length < pattern.length := by
          rw [List.length_cons] at hlt
          omega
        obtain ⟨rest, rfl⟩ := ih ((List.suffix_cons c back).trans hback) hlt' hrest
        exact ⟨rest, rfl⟩

/-- From left to right a text with gaps has a gap, a place of the pattern that is none, or a character
where the pattern does not begin. -/
theorem Closed.gapped_induction (h : Closed pattern) {motive : List (Option Char) → Prop} (nil : motive [])
    (gap : ∀ rest, motive rest → motive (none :: rest))
    (place : ∀ rest, motive rest → motive (pattern.map some ++ rest))
    (char : ∀ c rest, ¬ pattern <+: c :: fill pattern rest → motive rest → motive (some c :: rest))
    (gapped : List (Option Char)) : motive gapped := by
  match gapped with
  | [] => exact nil
  | none :: gapped => exact gap gapped (h.gapped_induction nil gap place char gapped)
  | some c :: gapped =>
    by_cases hstarts : pattern <+: c :: fill pattern gapped
    · obtain ⟨d, tail, hpattern⟩ := List.exists_cons_of_ne_nil h.ne_nil
      obtain ⟨hd, htail⟩ := List.cons_prefix_cons.mp (hpattern ▸ hstarts)
      have hlt : tail.length < pattern.length := by
        rw [hpattern, List.length_cons]
        omega
      obtain ⟨rest, hrest⟩ := h.prefix_fill (hpattern ▸ List.suffix_cons d tail) hlt (hpattern ▸ htail)
      have hplace : some c :: gapped = pattern.map some ++ rest := by
        rw [hpattern, hrest, hd, List.map_cons, List.cons_append]
      have hlength : rest.length ≤ gapped.length := by
        rw [hrest, List.length_append]
        omega
      rw [hplace]
      exact place rest (h.gapped_induction nil gap place char rest)
    · exact char c gapped hstarts (h.gapped_induction nil gap place char gapped)
  termination_by gapped.length

/-- Every gap is a place of the pattern that fills it. -/
theorem Closed.count_le_places (h : Closed pattern) (gapped : List (Option Char)) :
    gapped.count none ≤ places pattern (fill pattern gapped) := by
  induction gapped using h.gapped_induction with
  | nil => exact Nat.zero_le _
  | gap rest ih =>
    rw [fill_gap, h.places_append, List.count_cons_self]
    omega
  | place rest ih =>
    rw [fill_chars, h.places_append, count_chars]
    omega
  | char c rest hc ih =>
    rw [fill_char, places_cons, if_neg hc, List.count_cons_of_ne (by simp)]
    exact ih

/-- Filling the gaps with something else, in length. -/
theorem length_fill (pattern value : List Char) (gapped : List (Option Char)) :
    (fill value gapped).length + gapped.count none * pattern.length =
      (fill pattern gapped).length + gapped.count none * value.length := by
  induction gapped with
  | nil => simp [fill]
  | cons place gapped ih =>
    cases place with
    | none =>
      rw [fill_gap, fill_gap, List.count_cons_self, List.length_append, List.length_append, Nat.add_mul,
        Nat.add_mul]
      omega
    | some c =>
      rw [fill_char, fill_char, List.count_cons_of_ne (by simp), List.length_cons, List.length_cons]
      omega

/-- The replacement, in length. -/
theorem Closed.length_replaceAll (h : Closed pattern) (value : List Char) (gapped : List (Option Char)) :
    (replaceAll pattern value (fill pattern gapped)).length +
        places pattern (fill pattern gapped) * pattern.length =
      (fill pattern gapped).length + places pattern (fill pattern gapped) * value.length := by
  have hplace : ∀ text, (replaceAll pattern value text).length + places pattern text * pattern.length =
      text.length + places pattern text * value.length →
      (replaceAll pattern value (pattern ++ text)).length + places pattern (pattern ++ text) * pattern.length =
        (pattern ++ text).length + places pattern (pattern ++ text) * value.length := by
    intro text ih
    rw [replaceAll_append h.ne_nil, h.places_append, List.length_append, List.length_append, Nat.add_mul,
      Nat.add_mul]
    omega
  induction gapped using h.gapped_induction with
  | nil =>
    show 0 + places pattern [] * _ = 0 + places pattern [] * _
    rw [places_nil h.ne_nil, Nat.zero_mul, Nat.zero_mul]
  | gap rest ih => exact hplace _ ih
  | place rest ih =>
    rw [fill_chars]
    exact hplace _ ih
  | char c rest hc ih =>
    rw [fill_char, replaceAll_cons hc, places_cons, if_neg hc, Nat.add_zero, List.length_cons, List.length_cons]
    omega

/-- **When a replacement fills the gaps and does nothing else**: there is no other place of the pattern, or
the pattern is put there again. -/
theorem Closed.replaceAll_iff (h : Closed pattern) (value : List Char) (gapped : List (Option Char)) :
    replaceAll pattern value (fill pattern gapped) = fill value gapped ↔
      value = pattern ∨ places pattern (fill pattern gapped) = gapped.count none := by
  induction gapped using h.gapped_induction with
  | nil => exact ⟨fun _ => .inr (places_nil h.ne_nil), fun _ => rfl⟩
  | gap rest ih =>
    rw [fill_gap, fill_gap, replaceAll_append h.ne_nil, h.places_append, List.count_cons_self,
      List.append_cancel_left_eq, ih, Nat.add_right_cancel_iff]
  | place rest ih =>
    rw [fill_chars, fill_chars, replaceAll_append h.ne_nil, h.places_append, count_chars]
    have hle := h.count_le_places rest
    constructor
    · intro heq
      -- There are more places than gaps, so the lengths agree only if nothing grows or shrinks.
      have hlength := congrArg List.length heq
      have hreplaced := h.length_replaceAll value rest
      have hfilled := length_fill pattern value rest
      rw [List.length_append, List.length_append] at hlength
      obtain ⟨more, hmore⟩ := Nat.exists_eq_add_of_le hle
      rw [hmore, Nat.add_mul, Nat.add_mul] at hreplaced
      have hsame : (more + 1) * value.length = (more + 1) * pattern.length := by
        rw [Nat.add_mul, Nat.add_mul]
        omega
      exact .inl (List.append_inj_left heq (Nat.eq_of_mul_eq_mul_left more.succ_pos hsame))
    · rintro (rfl | hplaces)
      · rw [ih.mpr (.inl rfl)]
      · omega
  | char c rest hc ih =>
    rw [fill_char, fill_char, replaceAll_cons hc, places_cons, if_neg hc, Nat.add_zero,
      List.count_cons_of_ne (by simp), List.cons_inj_right, ih]

end Expansion
end SchemaShift
