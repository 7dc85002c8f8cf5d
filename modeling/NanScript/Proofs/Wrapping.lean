import Mathlib.Algebra.Group.Int.Defs
import NanScript.Machine.Operator
import NanScript.Proofs.Boxing

/-!
# Integers of 32 bits

An integer is boxed by its last 32 bits, and taking the last 32 bits commutes with sum, difference, product and negation. So
these operators compute as if the integers had never been reduced. A remainder does not commute: it is that of the reduced
integers, with the sign of the dividend, and there is none by zero. What is no number makes null.
-/

namespace NanScript

/-- An integer of 64 bits, boxed. -/
def boxedInt (number : Int64) : Value := .ofInt number.toInt

/-- The number from `-2 ^ 31` to `2 ^ 31 - 1` with the same last 32 bits. -/
def reducedInt (number : Int64) : Int := number.toInt.bmod (2 ^ 32)

namespace Kind

def IsNumber : Kind → Prop
  | float _ | int _ => True
  | _ => False

def IsText : Kind → Prop
  | str _ => True
  | _ => False

end Kind

namespace Value

theorem kind_ofInt (number : Int) : (ofInt number).kind = .int (Int32.ofInt number) :=
  @Kind.kind_box (.int (Int32.ofInt number)) nofun

theorem operands?_ofInt (x y : Int) :
    operands? (ofInt x) (ofInt y) = some (.ints (Int32.ofInt x) (Int32.ofInt y)) := by
  rw [operands?, kind_ofInt, kind_ofInt]

/-- The last 32 bits of an integer are those of its last 64 bits. -/
theorem ofInt_ofInt64 (number : Int) : ofInt (Int64.ofInt number).toInt = ofInt number := by
  have hbits : (number.bmod (2 ^ 64)).bmod (2 ^ 32) = number.bmod (2 ^ 32) := Int.bmod_bmod_of_dvd (by decide)
  refine congrArg ofInt32 ((Int32.ofInt_eq_iff_bmod_eq_toInt _ _).2 ?_)
  rw [Int64.toInt_ofInt, Int32.toInt_ofInt]
  exact hbits

/-- An operation that commutes with the reduction to 32 bits gives the exact result, reduced. -/
theorem arithmetic_boxedInt {onInts : Int32 → Int32 → Int32} {exact : Int → Int → Int}
    (hcommutes : ∀ x y, Int32.ofInt (exact x y) = onInts (Int32.ofInt x) (Int32.ofInt y))
    (onFloats : UInt64 → UInt64 → UInt64) (x y : Int64) :
    arithmetic onInts onFloats (boxedInt x) (boxedInt y) = boxedInt (.ofInt (exact x.toInt y.toInt)) := by
  unfold arithmetic boxedInt
  rw [operands?_ofInt, ofInt_ofInt64, ofInt, hcommutes]

theorem neg_boxedInt (x : Int64) : neg (boxedInt x) = boxedInt (.ofInt (-x.toInt)) := by
  unfold neg boxedInt
  rw [kind_ofInt, ofInt_ofInt64, ofInt, Int32.ofInt_neg]

/-! ### Remainders -/

theorem toInt_ofInt_eq_reducedInt (number : Int64) : (Int32.ofInt number.toInt).toInt = reducedInt number :=
  Int32.toInt_ofInt

theorem reducedInt_eq_zero {number : Int64} : reducedInt number = 0 ↔ 2 ^ 32 ∣ number.toInt :=
  (Int.dvd_iff_bmod_eq_zero (a := 2 ^ 32)).symm

theorem ofInt_eq_zero {number : Int64} : Int32.ofInt number.toInt = 0 ↔ 2 ^ 32 ∣ number.toInt := by
  rw [← Int32.toInt_inj, toInt_ofInt_eq_reducedInt]
  exact reducedInt_eq_zero

theorem mod_boxedInt (x y : Int64) : mod (boxedInt x) (boxedInt y) =
      if 2 ^ 32 ∣ y.toInt then .error .divisionByZero else .ok (ofInt ((reducedInt x).tmod (reducedInt y))) := by
  unfold mod boxedInt
  rw [operands?_ofInt]
  simp only [ofInt_eq_zero]
  refine if_congr Iff.rfl rfl (congrArg Except.ok (congrArg ofInt32 ?_))
  rw [← toInt_ofInt_eq_reducedInt, ← toInt_ofInt_eq_reducedInt, ← Int32.toInt_mod, Int32.ofInt_toInt]

/-! ### What is no number -/

variable {a b : Value}

theorem number?_eq_none (hkind : ¬a.kind.IsNumber) : a.number? = none := by
  unfold number?
  cases hcase : a.kind with
  | float | int =>
    rw [hcase] at hkind
    exact absurd trivial hkind
  | _ => rfl

theorem operands?_eq_none (hkinds : ¬a.kind.IsNumber ∨ ¬b.kind.IsNumber) : operands? a b = none := by
  unfold operands?
  split
  · rename_i hleft hright
    rw [hleft, hright] at hkinds
    exact absurd hkinds (by simp [Kind.IsNumber])
  · rcases hkinds with hkind | hkind
    · rw [number?_eq_none hkind]
      rfl
    · rw [number?_eq_none hkind]
      cases a.number? <;> rfl

theorem arithmetic_eq_null (hkinds : ¬a.kind.IsNumber ∨ ¬b.kind.IsNumber) (onInts : Int32 → Int32 → Int32)
    (onFloats : UInt64 → UInt64 → UInt64) : arithmetic onInts onFloats a b = null := by
  rw [arithmetic, operands?_eq_none hkinds]

theorem mod_eq_null (hkinds : ¬a.kind.IsNumber ∨ ¬b.kind.IsNumber) : mod a b = .ok null := by
  rw [mod, operands?_eq_none hkinds]

theorem neg_eq_null (hkind : ¬a.kind.IsNumber) : neg a = null := by
  unfold neg
  cases hcase : a.kind with
  | float | int =>
    rw [hcase] at hkind
    exact absurd trivial hkind
  | _ => rfl

end Value

/-- The sum of values that are not two strings needs no memory. -/
theorem Run.add_eq_pure {a b : Value} (hkinds : ¬(a.kind.IsText ∧ b.kind.IsText)) : Run.add a b = pure (a.add b) := by
  unfold Run.add
  split
  · rename_i hleft hright
    exact absurd ⟨hleft ▸ trivial, hright ▸ trivial⟩ hkinds
  · rfl

open RuntimeOperator in
/-- Sums, differences, products and negations of boxed integers are those of the integers, boxed. There is no remainder exactly
if the divisor is zero in its last 32 bits; else it is the one that has a smaller magnitude than the reduced divisor and the sign of
the reduced dividend. A value that is neither an integer nor a double makes null, unless two strings are added. -/
theorem integer_arithmetic_wraps (x y : Int64) :
    (add.apply (boxedInt x) (boxedInt y) = pure (boxedInt (.ofInt (x.toInt + y.toInt))) ∧
      sub.apply (boxedInt x) (boxedInt y) = pure (boxedInt (.ofInt (x.toInt - y.toInt))) ∧
      mul.apply (boxedInt x) (boxedInt y) = pure (boxedInt (.ofInt (x.toInt * y.toInt))) ∧
      (boxedInt x).neg = boxedInt (.ofInt (-x.toInt))) ∧
      (mod.apply (boxedInt x) (boxedInt y) = throw .divisionByZero ↔ 2 ^ 32 ∣ y.toInt) ∧
      (¬2 ^ 32 ∣ y.toInt → ∃ remainder : Int, mod.apply (boxedInt x) (boxedInt y) = pure (.ofInt remainder) ∧
        remainder.natAbs < (reducedInt y).natAbs ∧ (remainder = 0 ∨ remainder.sign = (reducedInt x).sign) ∧
        reducedInt y ∣ reducedInt x - remainder) ∧
      ∀ a b : Value, ¬a.kind.IsNumber ∨ ¬b.kind.IsNumber →
        (¬(a.kind.IsText ∧ b.kind.IsText) → add.apply a b = pure .null) ∧ sub.apply a b = pure .null ∧
          mul.apply a b = pure .null ∧ mod.apply a b = pure .null ∧ (¬a.kind.IsNumber → a.neg = .null) := by
  refine ⟨⟨?_, ?_, ?_, Value.neg_boxedInt x⟩, ?_, fun hzero => ?_, fun a b hkinds => ⟨fun htexts => ?_, ?_, ?_, ?_, ?_⟩⟩
  · have hkind : ¬((boxedInt x).kind.IsText ∧ (boxedInt y).kind.IsText) := by
      rw [boxedInt, Value.kind_ofInt]
      exact fun htexts => htexts.1
    rw [apply, Run.add_eq_pure hkind]
    exact congrArg pure (Value.arithmetic_boxedInt Int32.ofInt_add _ x y)
  · exact congrArg pure (Value.arithmetic_boxedInt Int32.ofInt_sub _ x y)
  · exact congrArg pure (Value.arithmetic_boxedInt Int32.ofInt_mul _ x y)
  · rw [apply, Run.mod, Value.mod_boxedInt]
    split
    · rename_i hzero
      exact ⟨fun _ => hzero, fun _ => rfl⟩
    · rename_i hzero
      exact ⟨fun hfails => (nomatch congrFun hfails {}), fun hdivides => absurd hdivides hzero⟩
  · refine ⟨(reducedInt x).tmod (reducedInt y), ?_, ?_, ?_, Int.dvd_self_sub_tmod⟩
    · rw [apply, Run.mod, Value.mod_boxedInt, if_neg hzero]
      rfl
    · rw [Int.natAbs_tmod]
      exact Nat.mod_lt _ (Int.natAbs_pos.2 (mt Value.reducedInt_eq_zero.1 hzero))
    · have hsign := Int.sign_tmod (reducedInt x) (reducedInt y)
      split at hsign
      · exact .inl (Int.sign_eq_zero_iff_zero.1 hsign)
      · exact .inr hsign
  · rw [apply, Run.add_eq_pure htexts]
    exact congrArg pure (Value.arithmetic_eq_null hkinds _ _)
  · exact congrArg pure (Value.arithmetic_eq_null hkinds _ _)
  · exact congrArg pure (Value.arithmetic_eq_null hkinds _ _)
  · rw [apply, Run.mod, Value.mod_eq_null hkinds]
    rfl
  · exact Value.neg_eq_null

end NanScript
