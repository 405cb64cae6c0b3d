import SchemaShift.Flags

/-! Flag sets, bit by bit.

`Flags.bit` reads one bit of a set. Two sets with the same bits are equal
(`Flags.ext_bit`), what inserting and removing do to a set is told by what they do
to a bit, and a flag is a bit (`Flags.contains_of_twoPow`). -/
namespace SchemaShift
namespace Flags

/-- Bit `i` is set. -/
def bit (f : Flags) (i : Nat) : Bool := f.bits.toBitVec.getLsbD i

theorem ext_bit {f g : Flags} (h : ∀ i, f.bit i = g.bit i) : f = g := by
  have hbits : f.bits = g.bits :=
    UInt32.toBitVec_inj.mp (BitVec.eq_of_getLsbD_eq fun i _ => h i)
  cases f
  cases g
  rw [mk.injEq]
  exact hbits

@[simp] theorem bit_insert (f g : Flags) (i : Nat) : (f.insert g).bit i = (f.bit i || g.bit i) :=
  BitVec.getLsbD_or

@[simp] theorem bit_remove (f g : Flags) (i : Nat) : (f.remove g).bit i = (f.bit i && !g.bit i) := by
  unfold bit remove
  rw [UInt32.toBitVec_and, UInt32.toBitVec_not, BitVec.getLsbD_and, BitVec.getLsbD_not]
  by_cases hi : i < 32
  · rw [decide_eq_true hi, Bool.true_and]
  · rw [BitVec.getLsbD_of_ge _ _ (Nat.le_of_not_lt hi)]
    rfl

theorem contains_iff {f g : Flags} : f.contains g = true ↔ ∀ i, g.bit i = true → f.bit i = true := by
  rw [contains, beq_iff_eq, ← UInt32.toBitVec_inj, UInt32.toBitVec_and]
  constructor
  · intro h i hi
    have hbit := congrArg (·.getLsbD i) h
    simp only [BitVec.getLsbD_and] at hbit
    have hand : (f.bit i && g.bit i) = g.bit i := hbit
    rw [hi, Bool.and_true] at hand
    exact hand
  · intro h
    refine BitVec.eq_of_getLsbD_eq fun i _ => ?_
    rw [BitVec.getLsbD_and]
    show (f.bit i && g.bit i) = g.bit i
    cases hg : g.bit i
    · rw [Bool.and_false]
    · rw [h i hg, Bool.and_true]

/-- A set of one bit is contained in a set that has the bit. -/
theorem contains_of_twoPow {g : Flags} {n : Nat} (hg : g.bits.toBitVec = BitVec.twoPow 32 n) (hn : n < 32)
    (f : Flags) : f.contains g = f.bit n := by
  have hbit : ∀ i, g.bit i = true ↔ n = i := by
    intro i
    rw [bit, hg, BitVec.getLsbD_twoPow, Bool.and_eq_true, decide_eq_true_eq, decide_eq_true_eq]
    exact and_iff_right hn
  rw [Bool.eq_iff_iff, contains_iff]
  constructor
  · exact fun h => h n ((hbit n).mpr rfl)
  · intro h i hi
    rwa [← (hbit i).mp hi]

theorem isChange_eq (f : Flags) : f.isChange = f.bit 0 :=
  contains_of_twoPow (by decide) (by decide) f

theorem isChecking_eq (f : Flags) : f.isChecking = f.bit 6 :=
  contains_of_twoPow (by decide) (by decide) f

theorem isReferenceCycle_eq (f : Flags) : f.isReferenceCycle = f.bit 8 :=
  contains_of_twoPow (by decide) (by decide) f

theorem isConstraintCycle_eq (f : Flags) : f.isConstraintCycle = f.bit 7 :=
  contains_of_twoPow (by decide) (by decide) f

/-- What was inserted is gone once it is removed. -/
theorem remove_insert (f g : Flags) : (f.insert g).remove g = f.remove g := by
  refine ext_bit fun i => ?_
  rw [bit_remove, bit_insert, bit_remove]
  cases f.bit i <;> cases g.bit i <;> rfl

theorem remove_remove (f g : Flags) : (f.remove g).remove g = f.remove g := by
  refine ext_bit fun i => ?_
  rw [bit_remove, bit_remove, Bool.and_assoc, Bool.and_self]

theorem isChange_remove (f : Flags) : (f.remove .change).isChange = false := by
  have hchange : change.bit 0 = true := by decide
  rw [isChange_eq, bit_remove, hchange, Bool.not_true, Bool.and_false]

/-- A set without the change flag has none to lose. -/
theorem remove_change {f : Flags} (h : f.isChange = false) : f.remove .change = f := by
  have hchange : change.bits.toBitVec = BitVec.twoPow 32 0 := by decide
  refine ext_bit fun i => ?_
  by_cases hi : i = 0
  · rw [hi, bit_remove, ← isChange_eq f, h, Bool.false_and]
  · have hbit : change.bit i = false := by
      rw [bit, hchange, BitVec.getLsbD_twoPow, Bool.and_eq_false_iff]
      exact .inr (decide_eq_false fun heq => hi heq.symm)
    rw [bit_remove, hbit, Bool.not_false, Bool.and_true]

end Flags
end SchemaShift
