import SchemaShift.Proofs.Replacing
import Mathlib.Data.List.TakeWhile
import Mathlib.Logic.Function.Basic

/-! Expanding references, one after the other.

A text is read as characters and references (`Expansion.Reads`), and what is meant by
its expansion is the text in which every reference of a variable that is set has given
way to the value, all at once (`Expansion.substitute`). What is done instead is one
replacement after the other in a text that holds the values of the references before.
The two agree, and at every stage, exactly if the reference to be replaced stands in
the text of that stage in its own places only (`Expansion.Unmixed`,
`Expansion.expand_eq_substitute`). That is so if neither names nor values hold what
begins a reference, or could begin one with the text around them
(`Expansion.Separate`). -/
namespace SchemaShift
namespace Expansion

/-! ### Reading a text -/

/-- A character of a text, or a reference in it. -/
inductive Piece where
  | char (c : Char)
  | reference (name : List Char)
  deriving DecidableEq, Repr

namespace Piece

/-- The text of a piece, where a reference is written as `write` says. -/
def render (write : List Char → List Char) : Piece → List Char
  | char c => [c]
  | reference name => write name

def name? : Piece → Option (List Char)
  | char _ => none
  | reference name => some name

end Piece

/-- The text of the pieces. -/
def render (write : List Char → List Char) (ps : List Piece) : List Char := ps.flatMap (Piece.render write)

theorem render_char (write : List Char → List Char) (c : Char) (ps : List Piece) :
    render write (.char c :: ps) = c :: render write ps := rfl

theorem render_reference (write : List Char → List Char) (name : List Char) (ps : List Piece) :
    render write (.reference name :: ps) = write name ++ render write ps := rfl

/-- No reference begins here. -/
def Plain (text : List Char) : Prop := ∀ name, name ≠ [] → '}' ∉ name → ¬ referenceTo name <+: text

/-- A text and its pieces: references are taken from left to right, each one where it begins, and their
names are not empty and hold no closing brace. -/
inductive Reads : List Char → List Piece → Prop where
  | nil : Reads [] []
  | char {c : Char} {text : List Char} {pieces : List Piece} :
      Plain (c :: text) → Reads text pieces → Reads (c :: text) (.char c :: pieces)
  | reference {name text : List Char} {pieces : List Piece} : name ≠ [] → '}' ∉ name →
      Reads text pieces → Reads (referenceTo name ++ text) (.reference name :: pieces)

/-- The pieces of a text after `skip` characters of it. -/
def piecesAfter : (skip : Nat) → List Char → List Piece
  | _, [] => []
  | skip + 1, _ :: rest => piecesAfter skip rest
  | 0, c :: rest =>
    match nameAt? (c :: rest) with
    | some name => .reference name :: piecesAfter (name.length + 2) rest
    | none => .char c :: piecesAfter 0 rest

/-- The pieces of a text. -/
def pieces (text : List Char) : List Piece := piecesAfter 0 text

variable {env : Environment} {text rest name : List Char} {c : Char} {ps : List Piece}

theorem takeWhile_name (h : '}' ∉ name) (rest : List Char) : (name ++ '}' :: rest).takeWhile (· != '}') = name := by
  have hname : ∀ c ∈ name, (c != '}') = true := fun c hc => bne_iff_ne.mpr fun heq => h (heq ▸ hc)
  rw [List.takeWhile_append_of_pos hname, List.takeWhile_cons_of_neg (by simp), List.append_nil]

/-- The name that is read is that of the reference that begins here. -/
theorem nameAt?_eq_some : nameAt? text = some name ↔ name ≠ [] ∧ '}' ∉ name ∧ referenceTo name <+: text := by
  constructor
  · intro h
    unfold nameAt? at h
    split at h
    · next rest =>
      dsimp only at h
      split at h
      · next hname =>
        obtain ⟨hne, hmem⟩ := Bool.and_eq_true_iff.mp hname
        obtain ⟨front, back, hrest, hfront⟩ := List.eq_append_cons_of_mem (List.contains_iff_mem.mp hmem)
        rw [hrest, takeWhile_name hfront] at h hne
        obtain rfl := Option.some.inj h
        refine ⟨by simpa using hne, hfront, back, ?_⟩
        rw [hrest, referenceTo]
        simp
      · exact absurd h (by simp)
    · exact absurd h (by simp)
  · rintro ⟨hne, hclosing, rest, rfl⟩
    have htext : referenceTo name ++ rest = '$' :: '{' :: (name ++ '}' :: rest) := by simp [referenceTo]
    rw [htext, nameAt?]
    simp [takeWhile_name hclosing, hne]

theorem plain_of_nameAt? (h : nameAt? text = none) : Plain text := by
  intro name hne hclosing hstarts
  rw [nameAt?_eq_some.mpr ⟨hne, hclosing, hstarts⟩] at h
  exact absurd h (by simp)

theorem piecesAfter_eq (skip : Nat) (text : List Char) : piecesAfter skip text = pieces (text.drop skip) := by
  induction text generalizing skip with
  | nil => cases skip <;> rfl
  | cons c rest ih =>
    cases skip with
    | zero => rfl
    | succ skip => exact ih skip

theorem pieces_cons (h : Plain (c :: text)) : pieces (c :: text) = .char c :: pieces text := by
  have hnone : nameAt? (c :: text) = none := by
    refine Option.eq_none_iff_forall_ne_some.mpr fun name hname => ?_
    obtain ⟨hne, hclosing, hstarts⟩ := nameAt?_eq_some.mp hname
    exact h name hne hclosing hstarts
  rw [pieces, piecesAfter, hnone]
  rfl

theorem pieces_reference (h : name ≠ [] ∧ '}' ∉ name) (rest : List Char) :
    pieces (referenceTo name ++ rest) = .reference name :: pieces rest := by
  have hname : nameAt? (referenceTo name ++ rest) = some name :=
    nameAt?_eq_some.mpr ⟨h.1, h.2, List.prefix_append _ _⟩
  have hcons : referenceTo name ++ rest = '$' :: ('{' :: name ++ ['}'] ++ rest) := rfl
  have hlength : ('{' :: name ++ ['}']).length = name.length + 2 := by simp
  rw [hcons] at hname ⊢
  rw [pieces, piecesAfter, hname]
  dsimp only
  rw [piecesAfter_eq, ← hlength, List.drop_left]

/-- **A text is read in one way.** -/
theorem reads_iff (text : List Char) (ps : List Piece) : Reads text ps ↔ ps = pieces text := by
  constructor
  · intro h
    induction h with
    | nil => rfl
    | char hplain _ ih => rw [pieces_cons hplain, ih]
    | reference hne hclosing _ ih => rw [pieces_reference ⟨hne, hclosing⟩, ih]
  · rintro rfl
    match text with
    | [] => exact .nil
    | c :: rest =>
      cases hname : nameAt? (c :: rest) with
      | none =>
        have hplain := plain_of_nameAt? hname
        rw [pieces_cons hplain]
        exact .char hplain ((reads_iff rest _).mpr rfl)
      | some name =>
        obtain ⟨hne, hclosing, back, hback⟩ := nameAt?_eq_some.mp hname
        have hle : back.length ≤ rest.length := by
          have hlength := congrArg List.length hback
          simp only [referenceTo, List.cons_append, List.length_cons, List.length_append] at hlength
          omega
        rw [← hback, pieces_reference ⟨hne, hclosing⟩]
        exact .reference hne hclosing ((reads_iff back _).mpr rfl)
  termination_by text.length

theorem reads_pieces (text : List Char) : Reads text (pieces text) := (reads_iff text _).mpr rfl

/-- The names that are looked up are those of the references. -/
theorem names_eq (text : List Char) : names text = (pieces text).filterMap Piece.name? := by
  rw [names, pieces]
  generalize (0 : Nat) = skip
  fun_induction namesAfter skip text with
  | case1 => simp [piecesAfter]
  | case2 skip c rest ih => exact ih
  | case3 c rest name hname ih =>
    rw [piecesAfter, hname, ih]
    rfl
  | case4 c rest hname ih =>
    rw [piecesAfter, hname, ih]
    rfl

theorem Reads.render_referenceTo (h : Reads text ps) : render referenceTo ps = text := by
  induction h with
  | nil => rfl
  | char _ _ ih => exact congrArg (_ :: ·) ih
  | reference _ _ _ ih => exact congrArg (_ ++ ·) ih

theorem Reads.closing (h : Reads text ps) (hname : name ∈ ps.filterMap Piece.name?) : name ≠ [] ∧ '}' ∉ name := by
  induction h with
  | nil => exact absurd hname List.not_mem_nil
  | char _ _ ih => exact ih hname
  | reference hne hclosing _ ih =>
    rcases List.mem_cons.mp hname with rfl | hname
    · exact ⟨hne, hclosing⟩
    · exact ih hname

/-! ### Putting values in -/

/-- The value of a variable; one that is not set leaves its reference. -/
def valueOf (env : Environment) (name : List Char) : List Char :=
  match env.get? (String.ofList name) with
  | some value => value.toList
  | none => referenceTo name

/-- The text with all references expanded at once. -/
def substitute (env : Environment) (text : String) : String :=
  String.ofList (render (valueOf env) (pieces text.toList))

/-- How references are written when the variables in `seen` have been looked up. -/
def valueSeen (env : Environment) (seen : List (List Char)) (name : List Char) : List Char :=
  if name ∈ seen then valueOf env name else referenceTo name

/-- The text with the references to the variables in `seen` expanded at once. -/
def partly (env : Environment) (seen : List (List Char)) (text : List Char) : List Char :=
  render (valueSeen env seen) (pieces text)

/-- At every stage the reference that is expanded next stands in its own places only, or its variable is
not set or holds the reference itself. -/
def Unmixed (env : Environment) (text : List Char) : Prop :=
  ∀ k name value, (names text)[k]? = some name → env.get? (String.ofList name) = some value →
    value.toList = referenceTo name ∨ places (referenceTo name) (partly env ((names text).take k) text) =
      if name ∈ (names text).take k then 0 else (names text).count name

theorem render_congr {write write' : List Char → List Char}
    (h : ∀ name ∈ ps.filterMap Piece.name?, write name = write' name) : render write ps = render write' ps := by
  induction ps with
  | nil => rfl
  | cons piece ps ih =>
    cases piece with
    | char c => exact congrArg (c :: ·) (ih h)
    | reference name =>
      obtain ⟨hhead, hrest⟩ := List.forall_mem_cons.mp h
      rw [render_reference, render_reference, hhead, ih hrest]

theorem partly_nil (env : Environment) (text : List Char) : partly env [] text = text := by
  have hnone : valueSeen env [] = referenceTo := funext fun name => if_neg List.not_mem_nil
  rw [partly, hnone, (reads_pieces text).render_referenceTo]

theorem partly_names (env : Environment) (text : List Char) :
    partly env (names text) text = render (valueOf env) (pieces text) :=
  render_congr fun _ hname => if_pos (names_eq text ▸ hname)

/-- Looking a variable up says how its own references are written. -/
theorem valueSeen_concat (env : Environment) (seen : List (List Char)) (name : List Char) :
    valueSeen env (seen ++ [name]) = Function.update (valueSeen env seen) name (valueOf env name) := by
  funext other
  rw [Function.update_apply]
  unfold valueSeen
  by_cases heq : other = name <;> simp [heq]

/-- A piece of a text with gaps in the places of the references to `name`. -/
def gapAt (write : List Char → List Char) (name : List Char) : Piece → List (Option Char)
  | .char c => [some c]
  | .reference other => if other = name then [none] else (write other).map some

theorem fill_gaps (write : List Char → List Char) (name filling : List Char) (ps : List Piece) :
    fill filling (ps.flatMap (gapAt write name)) = render (Function.update write name filling) ps := by
  induction ps with
  | nil => rfl
  | cons piece ps ih =>
    rw [List.flatMap_cons]
    cases piece with
    | char c => exact congrArg (c :: ·) ih
    | reference other =>
      show fill filling ((if other = name then [none] else (write other).map some) ++ _) =
        Function.update write name filling other ++ render _ ps
      rw [Function.update_apply]
      split
      · exact congrArg (filling ++ ·) ih
      · rw [fill_chars, ih]

theorem count_gaps (write : List Char → List Char) (name : List Char) (ps : List Piece) :
    (ps.flatMap (gapAt write name)).count none = (ps.filterMap Piece.name?).count name := by
  induction ps with
  | nil => rfl
  | cons piece ps ih =>
    rw [List.flatMap_cons]
    cases piece with
    | char c => exact (List.count_cons_of_ne (by simp)).trans ih
    | reference other =>
      show ((if other = name then [none] else (write other).map some) ++ _).count none =
        (other :: ps.filterMap Piece.name?).count name
      by_cases heq : other = name
      · rw [if_pos heq, List.singleton_append, List.count_cons_self, ih, heq, List.count_cons_self]
      · rw [if_neg heq, count_chars, ih, List.count_cons_of_ne heq]

theorem closed_referenceTo (h : '}' ∉ name) : Closed (referenceTo name) :=
  ⟨'$' :: '{' :: name, '}', rfl, by simpa using h⟩

/-! ### One reference after the other -/

/-- **When one stage does what is meant by it.** -/
theorem expandName_iff (env : Environment) (seen : List (List Char)) (text : List Char) (h : '}' ∉ name) :
    expandName env (partly env seen text) name = partly env (seen ++ [name]) text ↔
      ∀ value, env.get? (String.ofList name) = some value → value.toList = referenceTo name ∨
        places (referenceTo name) (partly env seen text) =
          if name ∈ seen then 0 else (names text).count name := by
  rw [expandName, partly, partly, valueSeen_concat, names_eq]
  generalize pieces text = ps
  cases hvalue : env.get? (String.ofList name) with
  | none =>
    have hname : valueOf env name = valueSeen env seen name := by
      rw [valueSeen, valueOf, hvalue]
      exact (ite_self _).symm
    rw [Function.update_eq_self_iff.mpr hname]
    simp
  | some value =>
    have hname : valueOf env name = value.toList := by rw [valueOf, hvalue]
    rw [hname]
    simp only [Option.some.injEq, forall_eq']
    by_cases hseen : name ∈ seen
    · -- The references have given way already, and whatever stands there is not meant.
      have hput : value.toList = valueSeen env seen name := by rw [valueSeen, if_pos hseen, hname]
      have hiff := (closed_referenceTo h).replaceAll_iff value.toList
        ((render (valueSeen env seen) ps).map some ++ [])
      rw [fill_chars, fill_chars, count_chars] at hiff
      rw [Function.update_eq_self_iff.mpr hput, if_pos hseen]
      simpa [fill] using hiff
    · have hkept : referenceTo name = valueSeen env seen name := by rw [valueSeen, if_neg hseen]
      have hiff := (closed_referenceTo h).replaceAll_iff value.toList
        (ps.flatMap (gapAt (valueSeen env seen) name))
      rw [fill_gaps, fill_gaps, count_gaps, Function.update_eq_self_iff.mpr hkept] at hiff
      rwa [if_neg hseen]

/-- **When every stage does what is meant by it.** -/
theorem stages_iff (env : Environment) (text : List Char) :
    (∀ k ≤ (names text).length, ((names text).take k).foldl (expandName env) text =
      partly env ((names text).take k) text) ↔ Unmixed env text := by
  have hnext : ∀ {k name}, (names text)[k]? = some name →
      (names text).take (k + 1) = (names text).take k ++ [name] ∧ '}' ∉ name := by
    intro k name hk
    have hmem : name ∈ (pieces text).filterMap Piece.name? := names_eq text ▸ List.mem_of_getElem? hk
    exact ⟨by rw [List.take_add_one, hk]; rfl, ((reads_pieces text).closing hmem).2⟩
  constructor
  · intro hstages k name value hk hvalue
    obtain ⟨htake, hclosing⟩ := hnext hk
    have hlt : k < (names text).length := (List.getElem?_eq_some_iff.mp hk).1
    have hstage := hstages (k + 1) hlt
    rw [htake, List.foldl_append, hstages k hlt.le] at hstage
    exact (expandName_iff env _ text hclosing).mp hstage value hvalue
  · intro hunmixed k hle
    induction k with
    | zero => exact (partly_nil env text).symm
    | succ k ih =>
      have hk : (names text)[k]? = some (names text)[k] := List.getElem?_eq_getElem hle
      obtain ⟨htake, hclosing⟩ := hnext hk
      rw [htake, List.foldl_append, ih (by omega)]
      exact (expandName_iff env _ text hclosing).mpr fun value hvalue => hunmixed k _ value hk hvalue

theorem Unmixed.expand (text : String) (h : Unmixed env text.toList) : expand env text = substitute env text := by
  have hall := (stages_iff env text.toList).mpr h _ le_rfl
  rw [List.take_length, partly_names] at hall
  exact congrArg String.ofList hall

/-! ### Texts that stay apart -/

/-- What begins a reference. -/
def opening : List Char := ['$', '{']

/-- Neither names nor values hold what begins a reference, no value ends in the middle of that, and no
reference stands behind one. -/
structure Separate (env : Environment) (text : List Char) : Prop where
  inText : ¬ '$' :: opening <:+: text
  inNames : ∀ name ∈ names text, ¬ opening <:+: name
  inValues : ∀ name ∈ names text, ∀ value, env.get? (String.ofList name) = some value →
    ¬ opening <:+: value.toList ++ ['{']

/-- Where no reference is opened none begins. -/
theorem misses_of_not_opened {front : List Char} (h : ¬ opening <:+: front ++ ['{']) (name rest : List Char) :
    Misses (referenceTo name) front rest := by
  intro back hback hne hstarts
  have hopening : opening <+: back ++ rest := List.IsPrefix.trans ⟨name ++ ['}'], rfl⟩ hstarts
  obtain ⟨before, rfl⟩ := hback
  match back with
  | [] => exact hne rfl
  | [c] =>
    obtain ⟨rfl, _⟩ := List.cons_prefix_cons.mp hopening
    exact h ⟨before, [], by simp [opening]⟩
  | c :: d :: back =>
    obtain ⟨rfl, hsecond⟩ := List.cons_prefix_cons.mp hopening
    obtain ⟨rfl, _⟩ := List.cons_prefix_cons.mp hsecond
    exact h ⟨before, back ++ ['{'], by simp [opening]⟩

/-- No other reference begins in a reference. -/
theorem misses_reference {other : List Char} (hother : other ≠ [] ∧ '}' ∉ other) (hname : name ≠ [] ∧ '}' ∉ name)
    (hne : other ≠ name) (h : ¬ opening <:+: other) (rest : List Char) :
    Misses (referenceTo name) (referenceTo other) rest := by
  intro back hback hnil
  rcases List.suffix_cons_iff.mp hback with rfl | hback
  · intro hstarts
    have hread : nameAt? (referenceTo other ++ rest) = some name :=
      nameAt?_eq_some.mpr ⟨hname.1, hname.2, hstarts⟩
    have hown : nameAt? (referenceTo other ++ rest) = some other :=
      nameAt?_eq_some.mpr ⟨hother.1, hother.2, List.prefix_append _ _⟩
    exact hne (Option.some.inj (hown.symm.trans hread))
  · rcases List.suffix_cons_iff.mp hback with rfl | hback
    · intro hstarts
      exact absurd (List.cons_prefix_cons.mp hstarts).1 (by decide)
    · have hinner : ¬ opening <:+: other ++ ['}'] ++ ['{'] := by
        rw [List.infix_concat_iff, List.infix_concat_iff, ← List.reverse_prefix, ← List.reverse_prefix]
        simpa [opening] using h
      exact misses_of_not_opened hinner name rest back hback hnil

/-- Without a closing brace a text has no references. -/
theorem Reads.render_of_not_mem (h : Reads text ps) (hclosing : '}' ∉ text) (write : List Char → List Char) :
    render write ps = text := by
  induction h with
  | nil => rfl
  | char _ _ ih => exact congrArg (_ :: ·) (ih fun hmem => hclosing (List.mem_cons_of_mem _ hmem))
  | reference _ _ _ _ => exact absurd (by simp [referenceTo]) hclosing

/-- A character that begins no reference is read as itself. -/
theorem Reads.render_cons (h : Reads text ps) (hc : c ≠ '$') (htext : text = c :: rest)
    (write : List Char → List Char) : ∃ rest', render write ps = c :: rest' := by
  cases h with
  | nil => exact absurd htext (by simp)
  | @char d text ps _ _ =>
    obtain ⟨rfl, _⟩ := List.cons_eq_cons.mp htext
    exact ⟨render write ps, rfl⟩
  | reference _ _ _ => exact absurd (List.cons_eq_cons.mp htext).1.symm hc

/-- A character of the text begins no reference, whatever is put in behind it, unless one stands there. -/
theorem Reads.not_opened (h : Reads text ps) (hplain : Plain (c :: text)) (hapart : ¬ '$' :: opening <:+: c :: text)
    (hname : name ≠ [] ∧ '}' ∉ name) (write : List Char → List Char) :
    ¬ referenceTo name <+: c :: render write ps := by
  intro hstarts
  obtain ⟨rfl, hbrace⟩ := List.cons_prefix_cons.mp hstarts
  cases h with
  | nil => exact absurd (List.prefix_nil.mp hbrace) (by simp)
  | reference _ _ _ => exact hapart ⟨[], _, rfl⟩
  | @char d text ps _ hreads =>
    obtain ⟨rfl, hinner⟩ := List.cons_prefix_cons.mp hbrace
    by_cases hclosing : '}' ∈ text
    · -- The brace that closes would close a reference of the text, or stands where the name begins.
      obtain ⟨front, back, htext, hfront⟩ := List.eq_append_cons_of_mem hclosing
      cases front with
      | nil =>
        obtain ⟨rest, hrest⟩ := hreads.render_cons (by decide) htext write
        cases name with
        | nil => exact hname.1 rfl
        | cons d name =>
          have hinner : d :: (name ++ ['}']) <+: render write ps := hinner
          rw [hrest] at hinner
          obtain ⟨rfl, _⟩ := List.cons_prefix_cons.mp hinner
          exact hname.2 List.mem_cons_self
      | cons d front => exact hplain (d :: front) (by simp) hfront ⟨back, by simp [referenceTo, htext]⟩
    · have hinner : name ++ ['}'] <+: render write ps := hinner
      rw [hreads.render_of_not_mem hclosing write] at hinner
      exact hclosing (hinner.subset (by simp))

/-- In texts that stay apart a reference to a variable that is set has no places but its own. -/
theorem Reads.places (h : Reads text ps) (hapart : ¬ '$' :: opening <:+: text)
    (hnames : ∀ other ∈ ps.filterMap Piece.name?, ¬ opening <:+: other)
    (hvalues : ∀ other ∈ ps.filterMap Piece.name?, ∀ value, env.get? (String.ofList other) = some value →
      ¬ opening <:+: value.toList ++ ['{'])
    (hname : name ≠ [] ∧ '}' ∉ name) {value : String} (hvalue : env.get? (String.ofList name) = some value)
    (seen : List (List Char)) : places (referenceTo name) (render (valueSeen env seen) ps) =
      if name ∈ seen then 0 else (ps.filterMap Piece.name?).count name := by
  have hclosed := closed_referenceTo hname.2
  induction h with
  | nil =>
    show Expansion.places (referenceTo name) [] = _
    rw [places_nil hclosed.ne_nil]
    split <;> rfl
  | char hplain hreads ih =>
    have hnone := hreads.not_opened hplain hapart hname (valueSeen env seen)
    rw [render_char, places_cons, if_neg hnone, Nat.add_zero]
    exact ih (fun hinner => hapart (hinner.trans (List.suffix_cons _ _).isInfix)) hnames hvalues
  | @reference other text ps hne hclosing hreads ih =>
    obtain ⟨hother, hnames⟩ := List.forall_mem_cons.mp hnames
    obtain ⟨hown, hvalues⟩ := List.forall_mem_cons.mp hvalues
    have ih := ih (fun hinner => hapart (hinner.trans (List.suffix_append _ _).isInfix)) hnames hvalues
    have hnamed : (Piece.reference other :: ps).filterMap Piece.name? = other :: ps.filterMap Piece.name? := rfl
    rw [render_reference, hnamed]
    by_cases heq : other = name
    · by_cases hseen : name ∈ seen
      · have hput : valueSeen env seen other = value.toList := by rw [valueSeen, heq, if_pos hseen, valueOf, hvalue]
        have hmisses := misses_of_not_opened (hown value (heq ▸ hvalue)) name (render (valueSeen env seen) ps)
        rw [hput, places_append hmisses, ih, if_pos hseen, if_pos hseen]
      · have hkept : valueSeen env seen other = referenceTo name := by rw [valueSeen, heq, if_neg hseen]
        rw [hkept, hclosed.places_append, ih, if_neg hseen, if_neg hseen, heq, List.count_cons_self]
    · have hmisses : Misses (referenceTo name) (valueSeen env seen other) (render (valueSeen env seen) ps) := by
        have hkept := misses_reference ⟨hne, hclosing⟩ hname heq hother (render (valueSeen env seen) ps)
        unfold valueSeen valueOf
        split
        · split
          · next put hput => exact misses_of_not_opened (hown put hput) name _
          · exact hkept
        · exact hkept
      rw [places_append hmisses, ih, List.count_cons_of_ne heq]

theorem Separate.unmixed (h : Separate env text) : Unmixed env text := by
  intro k name value hk hvalue
  have hnames := names_eq text
  have hmem : name ∈ (pieces text).filterMap Piece.name? := hnames ▸ List.mem_of_getElem? hk
  refine .inr ?_
  rw [partly, (reads_pieces text).places h.inText (hnames ▸ h.inNames) (hnames ▸ h.inValues)
    ((reads_pieces text).closing hmem) hvalue, ← hnames]

/-- **The references of a text are expanded at once**, stage by stage, exactly if the reference that is expanded
next stands in its own places only. That is so in texts that stay apart. -/
theorem expand_eq_substitute (env : Environment) (text : String) :
    (∀ ps, Reads text.toList ps ↔ ps = pieces text.toList) ∧
      ((∀ k ≤ (names text.toList).length,
          ((names text.toList).take k).foldl (expandName env) text.toList =
            partly env ((names text.toList).take k) text.toList) ↔ Unmixed env text.toList) ∧
      (Unmixed env text.toList → expand env text = substitute env text) ∧
      (Separate env text.toList → Unmixed env text.toList) :=
  ⟨reads_iff _, stages_iff env _, Unmixed.expand text, Separate.unmixed⟩

/-- A host that is set, and a user that is not. -/
def server : Environment := [("HOST", "db")]

/-- The one text stays apart. In the other one, behind a reference to the host, a name holds the text of that
reference, so the variable of that name, which is not set, is not left as it was written. -/
theorem expand_eq_substitute_server :
    Separate server "$\x7bHOST\x7d/$\x7bUSER\x7d".toList ∧
      expand server "$\x7bHOST\x7d/$\x7bUSER\x7d" = "db/$\x7bUSER\x7d" ∧
      ¬ Unmixed server "$\x7bHOST\x7d/$\x7b$\x7bHOST\x7d".toList ∧
      expand server "$\x7bHOST\x7d/$\x7b$\x7bHOST\x7d" = "db/$\x7bdb" ∧
      substitute server "$\x7bHOST\x7d/$\x7b$\x7bHOST\x7d" = "db/$\x7b$\x7bHOST\x7d" := by
  obtain ⟨_, _, happart, hseparate⟩ := expand_eq_substitute server "$\x7bHOST\x7d/$\x7bUSER\x7d"
  obtain ⟨_, _, hmixed, _⟩ := expand_eq_substitute server "$\x7bHOST\x7d/$\x7b$\x7bHOST\x7d"
  have hapart : Separate server "$\x7bHOST\x7d/$\x7bUSER\x7d".toList := by
    refine ⟨by decide +kernel, by decide +kernel, ?_⟩
    show ∀ name ∈ _, ∀ value ∈ server.get? (String.ofList name), _
    decide +kernel
  have hcode : expand server "$\x7bHOST\x7d/$\x7b$\x7bHOST\x7d" = "db/$\x7bdb" := by decide +kernel
  have hmeant : substitute server "$\x7bHOST\x7d/$\x7b$\x7bHOST\x7d" = "db/$\x7b$\x7bHOST\x7d" := by
    decide +kernel
  refine ⟨hapart, (happart (hseparate hapart)).trans (by decide +kernel), fun h => ?_, hcode, hmeant⟩
  have hsame := hmixed h
  rw [hcode, hmeant] at hsame
  exact absurd hsame (by decide +kernel)

end Expansion
end SchemaShift
