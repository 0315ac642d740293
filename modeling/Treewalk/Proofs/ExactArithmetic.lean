import Mathlib.Algebra.Order.Group.Unbundled.Int
import Mathlib.Data.Int.ModEq
import Treewalk.Arithmetic
import Treewalk.Proofs.BigStep

/-! The operators against exact arithmetic. Sums, differences and products are exact up to multiples
of `2^64`, quotients and remainders are exact but for one overflow, and comparisons are those of the
integers. What is no integer is refused by every operator but equality. -/

namespace Treewalk

/-! ### Wrapping around -/

/-- The integer can be written with 64 bits. -/
def Fits (z : Int) : Prop := -2 ^ 63 ≤ z ∧ z < 2 ^ 63

/-- Of the integers that fit, `c` is the one that is congruent to `result`. -/
def Wraps (result : Int) (c : Int64) : Prop :=
  ∀ z, Fits z ∧ z ≡ result [ZMOD 2 ^ 64] ↔ z = c.toInt

theorem fits_toInt (c : Int64) : Fits c.toInt := ⟨c.le_toInt, c.toInt_lt⟩

theorem wraps_of_toInt_eq_bmod {result : Int} {c : Int64} (h : c.toInt = result.bmod (2 ^ 64)) :
    Wraps result c := by
  intro z
  rw [h, eq_comm, Int.bmod_eq_iff (by decide), Fits, Int.ModEq]
  omega

namespace Operator

/-- On integers, the operator gives what is left of the exact result in 64 bits. -/
def WrapsTo (op : Operator) (result : Int → Int → Int) : Prop :=
  ∀ a b : Int64, ∃ c, op.apply (.int a) (.int b) = .ok (.int c) ∧ Wraps (result a.toInt b.toInt) c

theorem add_wrapsTo : add.WrapsTo (· + ·) := fun a b =>
  ⟨a + b, rfl, wraps_of_toInt_eq_bmod (Int64.toInt_add a b)⟩

theorem sub_wrapsTo : sub.WrapsTo (· - ·) := fun a b =>
  ⟨a - b, rfl, wraps_of_toInt_eq_bmod (Int64.toInt_sub a b)⟩

theorem mul_wrapsTo : mul.WrapsTo (· * ·) := fun a b =>
  ⟨a * b, rfl, wraps_of_toInt_eq_bmod (Int64.toInt_mul a b)⟩

end Operator

/-! ### Division -/

/-- The quotient `q` and the remainder `r` of `a` by `b`, with the quotient cut toward zero. The one
quotient that does not fit wraps around. -/
def Truncates (a b q r : Int) : Prop :=
  if a = -2 ^ 63 ∧ b = -1 then q = -2 ^ 63 ∧ r = 0 ∧ a ≡ q * b + r [ZMOD 2 ^ 64]
  else a = q * b + r ∧ |r| < |b| ∧ (r = 0 ∨ r.sign = a.sign)

theorem toInt_eq_zero_iff (b : Int64) : b.toInt = 0 ↔ b = 0 := Int64.toInt_inj (y := 0)

theorem abs_tmod_lt (a : Int) {b : Int} (hb : b ≠ 0) : |a.tmod b| < |b| := by
  rw [Int.abs_eq_natAbs, Int.abs_eq_natAbs, Int.natAbs_tmod]
  exact_mod_cast Nat.mod_lt _ (Int.natAbs_pos.mpr hb)

/-- A remainder that is not zero has the sign of the dividend. -/
theorem tmod_eq_zero_or_sign_eq (a b : Int) : a.tmod b = 0 ∨ (a.tmod b).sign = a.sign := by
  rw [Int.sign_tmod]
  split
  · exact .inl (Int.tmod_eq_zero_of_dvd ‹_›)
  · exact .inr rfl

/-- But for one overflow, the quotient is that of the integers. -/
theorem toInt_div_of_not {a b : Int64} (h : ¬ (a.toInt = -2 ^ 63 ∧ b.toInt = -1)) :
    (a / b).toInt = a.toInt.tdiv b.toInt := by
  by_cases ha : a = Int64.minValue
  · refine Int64.toInt_div_of_ne_right a b ?_
    rintro rfl
    exact h ⟨ha ▸ Int64.toInt_minValue, rfl⟩
  · exact Int64.toInt_div_of_ne_left a b ha

theorem truncates_toInt {a b : Int64} (hb : b.toInt ≠ 0) :
    Truncates a.toInt b.toInt (a / b).toInt (a % b).toInt := by
  unfold Truncates
  split
  next overflow =>
    rw [Int64.toInt_div, Int64.toInt_mod, overflow.1, overflow.2]
    decide
  next fits =>
    rw [toInt_div_of_not fits, Int64.toInt_mod]
    exact ⟨(Int.tdiv_mul_add_tmod _ _).symm, abs_tmod_lt _ hb, tmod_eq_zero_or_sign_eq _ _⟩

namespace Operator

variable {e : EvalError}

/-- A check of the divisor fails exactly if the divisor is zero. -/
theorem checked_eq_error_iff {c : EvalError} {b : Int64} {v : Value} :
    (if b = 0 then .error c else .ok v) = (.error e : Except EvalError Value) ↔
      b.toInt = 0 ∧ e = c := by
  rw [toInt_eq_zero_iff]
  split
  next hb => simp only [Except.error.injEq, hb, true_and, eq_comm]
  next hb => simp only [reduceCtorEq, hb, false_and]

theorem div_eq_error_iff (a b : Int64) :
    div.apply (.int a) (.int b) = .error e ↔ b.toInt = 0 ∧ e = .divisionByZero :=
  checked_eq_error_iff

theorem mod_eq_error_iff (a b : Int64) :
    mod.apply (.int a) (.int b) = .error e ↔ b.toInt = 0 ∧ e = .moduloByZero :=
  checked_eq_error_iff

theorem div_of_ne_zero (a : Int64) {b : Int64} (hb : b.toInt ≠ 0) :
    div.apply (.int a) (.int b) = .ok (.int (a / b)) :=
  if_neg (mt (toInt_eq_zero_iff b).mpr hb)

theorem mod_of_ne_zero (a : Int64) {b : Int64} (hb : b.toInt ≠ 0) :
    mod.apply (.int a) (.int b) = .ok (.int (a % b)) :=
  if_neg (mt (toInt_eq_zero_iff b).mpr hb)

/-! ### Comparisons -/

/-- On integers, the operator tells whether they are in the relation. -/
def Decides (op : Operator) (order : Int → Int → Prop) [DecidableRel order] : Prop :=
  ∀ a b : Int64, op.apply (.int a) (.int b) = .ok (.bool (decide (order a.toInt b.toInt)))

theorem lt_decides : lt.Decides (· < ·) := by
  intro a b
  simp only [← Int64.lt_iff_toInt_lt]
  rfl

theorem le_decides : le.Decides (· ≤ ·) := by
  intro a b
  simp only [← Int64.le_iff_toInt_le]
  rfl

theorem gt_decides : gt.Decides (· > ·) := fun a b => lt_decides b a

theorem ge_decides : ge.Decides (· ≥ ·) := fun a b => le_decides b a

/-! ### Operands that are no integers -/

variable {op : Operator} {v w : Value}

theorem applyInt_ne_typeMismatch (op : Operator) (a b : Int64) (context expected got : String) :
    op.applyInt a b ≠ .error (.typeMismatch context expected got) := by
  cases op with
  | div => exact fun h => nomatch (checked_eq_error_iff.mp h).2
  | mod => exact fun h => nomatch (checked_eq_error_iff.mp h).2
  | _ => nofun

/-- The leftmost operand that is no integer. -/
def refused? (v w : Value) : Option Value := [v, w].find? (·.int?.isNone)

theorem refused?_eq_none (h : refused? v w = none) : ∃ a b, v = .int a ∧ w = .int b := by
  cases v with
  | int a =>
    cases w with
    | int b => exact ⟨a, b, rfl, rfl⟩
    | _ => cases h
  | _ => cases h

theorem apply_of_refused?_eq_some {u : Value} (hop : op ≠ eq) (h : refused? v w = some u) :
    op.apply v w = .error (op.operandError u) := by
  unfold apply
  split
  · exact absurd rfl hop
  · cases v with
    | int a =>
      cases w with
      | int b => cases h
      | _ =>
        cases h
        rfl
    | _ =>
      cases h
      rfl

/-- An operator that needs integers reports its token and the leftmost operand that is none. -/
theorem apply_eq_typeMismatch_iff (hop : op ≠ eq) (context expected got : String) :
    op.apply v w = .error (.typeMismatch context expected got) ↔
      ∃ token u, ofToken? token = some op ∧ refused? v w = some u ∧
        context = "operator `" ++ token ++ "`" ∧ expected = "int" ∧ got = u.typeName := by
  cases h : refused? v w with
  | none =>
    obtain ⟨a, b, rfl, rfl⟩ := refused?_eq_none h
    refine iff_of_false (fun failed => ?_) (by rintro ⟨_, _, _, ⟨⟩, _⟩)
    unfold apply at failed
    split at failed
    · cases failed
    · exact applyInt_ne_typeMismatch _ a b _ _ _ failed
  | some u =>
    rw [apply_of_refused?_eq_some hop h, operandError]
    constructor
    · intro failed
      cases failed
      exact ⟨op.symbol, u, ofToken?_eq_some_iff.mpr rfl, rfl, rfl, rfl, rfl⟩
    · rintro ⟨_, _, known, ⟨⟩, rfl, rfl, rfl⟩
      rw [ofToken?_eq_some_iff.mp known]

end Operator

/-- The operators against exact arithmetic. On integers, `+`, `-` and `*` give the one integer in
range that is congruent to the exact result. Quotient and remainder fail exactly if the divisor is
zero, and are exact and cut toward zero otherwise, but for the one overflow; comparisons are those
of the integers. On any two values, an operator other than `==` fails with a type mismatch exactly
if some operand is no integer, and reports its token and the leftmost such operand, and `==` does not
fail. -/
theorem operators_agree_with_integers :
    Operator.add.WrapsTo (· + ·) ∧ Operator.sub.WrapsTo (· - ·) ∧ Operator.mul.WrapsTo (· * ·) ∧
    (∀ a b : Int64,
      (∀ e, Operator.div.apply (.int a) (.int b) = .error e ↔
        b.toInt = 0 ∧ e = .divisionByZero) ∧
      (∀ e, Operator.mod.apply (.int a) (.int b) = .error e ↔
        b.toInt = 0 ∧ e = .moduloByZero) ∧
      (b.toInt ≠ 0 → ∃ q r : Int64,
        Operator.div.apply (.int a) (.int b) = .ok (.int q) ∧
        Operator.mod.apply (.int a) (.int b) = .ok (.int r) ∧
        Fits q.toInt ∧ Fits r.toInt ∧ Truncates a.toInt b.toInt q.toInt r.toInt)) ∧
    Operator.lt.Decides (· < ·) ∧ Operator.le.Decides (· ≤ ·) ∧
    Operator.gt.Decides (· > ·) ∧ Operator.ge.Decides (· ≥ ·) ∧
    ∀ v w : Value,
      (∀ op : Operator, op ≠ .eq → ∀ context expected got,
        op.apply v w = .error (.typeMismatch context expected got) ↔
          ∃ token u, Operator.ofToken? token = some op ∧ Operator.refused? v w = some u ∧
            context = "operator `" ++ token ++ "`" ∧ expected = "int" ∧ got = u.typeName) ∧
      ∃ c, Operator.eq.apply v w = .ok (.bool c) := by
  refine ⟨Operator.add_wrapsTo, Operator.sub_wrapsTo, Operator.mul_wrapsTo, fun a b => ?_,
    Operator.lt_decides, Operator.le_decides, Operator.gt_decides, Operator.ge_decides,
    fun v w => ⟨fun op hop => Operator.apply_eq_typeMismatch_iff hop, _, rfl⟩⟩
  refine ⟨fun e => Operator.div_eq_error_iff a b, fun e => Operator.mod_eq_error_iff a b,
    fun hb => ?_⟩
  exact ⟨a / b, a % b, Operator.div_of_ne_zero a hb, Operator.mod_of_ne_zero a hb, fits_toInt _,
    fits_toInt _, truncates_toInt hb⟩

/-- The quotient that overflows, a negative dividend, and two operands of which the right one is no
integer. -/
theorem operators_agree_with_integers_overflow :
    (∃ q r : Int64, Operator.div.apply (.int Int64.minValue) (.int (-1)) = .ok (.int q) ∧
      Operator.mod.apply (.int Int64.minValue) (.int (-1)) = .ok (.int r) ∧
      q.toInt = -2 ^ 63 ∧ r.toInt = 0) ∧
    (∃ q r : Int64, Operator.div.apply (.int (-7)) (.int 2) = .ok (.int q) ∧
      Operator.mod.apply (.int (-7)) (.int 2) = .ok (.int r) ∧
      -7 = q.toInt * 2 + r.toInt ∧ |r.toInt| < 2 ∧ r.toInt ≤ 0) ∧
    Operator.add.apply (.int 1) .null = .error (.typeMismatch "operator `+`" "int" "null") := by
  obtain ⟨-, -, -, division, -, -, -, -, mismatch⟩ := operators_agree_with_integers
  refine ⟨?_, ?_, ?_⟩
  · obtain ⟨q, r, hq, hr, -, -, h⟩ := (division Int64.minValue (-1)).2.2 (by decide)
    rw [Truncates, if_pos (by decide)] at h
    exact ⟨q, r, hq, hr, h.1, h.2.1⟩
  · obtain ⟨q, r, hq, hr, -, -, h⟩ := (division (-7) 2).2.2 (by decide)
    rw [Truncates, if_neg (by decide)] at h
    refine ⟨q, r, hq, hr, h.1, h.2.1, ?_⟩
    rcases h.2.2 with hzero | hsign
    · exact hzero.le
    · exact Int.sign_nonpos_iff.mp (hsign ▸ by decide)
  · exact ((mismatch (.int 1) .null).1 .add (by decide) _ _ _).mpr
      ⟨"+", .null, rfl, rfl, rfl, rfl, rfl⟩

end Treewalk
