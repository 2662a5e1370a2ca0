import Mkfli4l.Script.Versions

/-!
# Arithmetic in check scripts

`numeric_op` (`tree.c`) calculates with `unsigned long`.  Every operator reads its operands from
texts and returns its result as a text, so a result that has wrapped around is a good operand of
the next operator.

The integers that the operands stand for, and what the operators should make of them, are defined
beside the functions of the program (`numberOf`, `exactValue`).  A calculation is exact as long as
all of these integers are representable.
-/

namespace Mkfli4l
namespace Script

open Lib

/-! ## Integers -/

/-- The integer that `strtoul` is to read, and the text from the end pointer on. -/
def readInteger (base : ℕ) (s : CString) : ℤ × CString :=
  let signed := takeSign (s.dropWhile isSpaceC)
  let body :=
    match signed.2 with
    | '0' :: x :: c :: rest =>
        if base = 16 && (x == 'x' || x == 'X') && isDigitOf 16 c then c :: rest else signed.2
    | body => body
  let digits := body.takeWhile (isDigitOf base)
  if digits = [] then (0, s)
  else
    (if signed.1 then -(digitsValue base digits : ℤ) else digitsValue base digits,
      body.dropWhile (isDigitOf base))

/-- The integer that a text stands for. -/
def numberOf (val : CString) : Option ℤ :=
  let res := if ['0', 'x'] <+: val then readInteger 16 val else readInteger 10 val
  if res.2 = [] then some res.1 else none

/-- The integer is an `unsigned long`. -/
def Representable (n : ℤ) : Prop := 0 ≤ n ∧ n < 18446744073709551616

/-- The result of an operator on integers; `none` is a division by zero. -/
def NumOp.exact : NumOp → ℤ → ℤ → Option ℤ
  | .add, x, y => some (x + y)
  | .sub, x, y => some (x - y)
  | .mult, x, y => some (x * y)
  | .div, x, y => if y = 0 then none else some (x / y)
  | .mod, x, y => if y = 0 then none else some (x % y)

section Trees

variable (env : Env)

/-- The integer that a numeric operand stands for. -/
def operandValue (p : Elem) : Option ℤ :=
  match elemGetArg env p with
  | .ok (val, t) => if t.num then numberOf val else none
  | .error _ => none

/-- The integer that a tree of operators stands for. -/
def exactValue : Elem → Option ℤ
  | .numeric op left right => do
      let x ← exactValue left
      let y ← exactValue right
      op.exact x y
  | p => operandValue env p

/-- All operands and results of a tree are representable. -/
def InRange : Elem → Prop
  | .numeric op left right => InRange left ∧ InRange right ∧
      ∀ n, exactValue env (.numeric op left right) = some n → Representable n
  | p => ∀ n, exactValue env p = some n → Representable n

/-- All operands are read as the integers they stand for, and all results are printed as the
numerals of the integers that they should be. -/
def ComputesExactly : Elem → Prop
  | .numeric op left right => ComputesExactly left ∧ ComputesExactly right ∧
      ∃ n : ℕ, exactValue env (.numeric op left right) = some (n : ℤ) ∧
        ∃ t, elemGetArg env (.numeric op left right) = .ok (Nat.toDigits 10 n, t)
  | p => ∃ n : ℕ, exactValue env p = some (n : ℤ) ∧
      ∃ val t, elemGetArg env p = .ok (val, t) ∧ convertToLong val = .ok n

end Trees

/-! ## Reading operands -/

/-- What `strtoul` makes of an integer. -/
def asUnsignedLong (n : ℤ) : ℤ :=
  if 18446744073709551616 ≤ n.natAbs then 18446744073709551615 else n % 18446744073709551616

theorem asUnsignedLong_lt (n : ℤ) : asUnsignedLong n < 18446744073709551616 := by
  unfold asUnsignedLong
  split <;> omega

theorem asUnsignedLong_eq_iff (n : ℤ) : asUnsignedLong n = n ↔ Representable n := by
  unfold asUnsignedLong Representable
  split <;> omega

theorem clamped_digits (base : ℕ) (s body : CString) (negative : Bool) :
    let digits := body.takeWhile (isDigitOf base)
    let magnitude := digitsValue base digits
    let read : ℕ × CString := if digits = [] then (0, s) else
      (if 18446744073709551616 ≤ magnitude then 18446744073709551615
        else if negative then (18446744073709551616 - magnitude) % 18446744073709551616
        else magnitude, body.dropWhile (isDigitOf base))
    let exact : ℤ × CString := if digits = [] then (0, s) else
      (if negative then -(magnitude : ℤ) else magnitude, body.dropWhile (isDigitOf base))
    read.2 = exact.2 ∧ (read.1 : ℤ) = asUnsignedLong exact.1 := by
  intro digits magnitude
  unfold asUnsignedLong
  by_cases hdigits : digits = []
  · simp [hdigits]
  · simp only [if_neg hdigits, true_and]
    cases negative
    · simp only [Bool.false_eq_true, if_false]
      split <;> split <;> omega
    · simp only [if_true]
      split <;> split <;> omega

theorem strtoul_readInteger (base : ℕ) (s : CString) :
    (strtoul base s).2 = (readInteger base s).2 ∧
      ((strtoul base s).1 : ℤ) = asUnsignedLong (readInteger base s).1 :=
  clamped_digits base s _ _

theorem convertToLong_eq_ok {val : CString} {x : ℕ} :
    convertToLong val = .ok x ↔ ∃ n, numberOf val = some n ∧ (x : ℤ) = asUnsignedLong n := by
  have hspec : ∀ base, (if (strtoul base val).2 = [] then .ok (strtoul base val).1
        else (.error (.invalidNumber val) : Except Fatal ℕ)) = .ok x ↔
      ∃ n, (if (readInteger base val).2 = [] then some (readInteger base val).1 else none) = some n ∧
        (x : ℤ) = asUnsignedLong n := by
    intro base
    obtain ⟨hrest, hvalue⟩ := strtoul_readInteger base val
    rw [hrest]
    split
    · constructor
      · intro hread
        obtain rfl := Except.ok.inj hread
        exact ⟨_, rfl, hvalue⟩
      · rintro ⟨n, hn, hx⟩
        obtain rfl := Option.some.inj hn
        exact congrArg Except.ok (Int.natCast_inj.mp (hvalue.trans hx.symm))
    · exact iff_of_false nofun (fun ⟨_, hn, _⟩ => nomatch hn)
  unfold convertToLong numberOf
  split
  · exact hspec 16
  · exact hspec 10

theorem numberOf_of_convertToLong {val : CString} {x : ℕ} (h : convertToLong val = .ok x) :
    ∃ n, numberOf val = some n ∧ x < 18446744073709551616 ∧ ((x : ℤ) = n ↔ Representable n) := by
  obtain ⟨n, hn, hx⟩ := convertToLong_eq_ok.mp h
  have hlt := asUnsignedLong_lt n
  refine ⟨n, hn, by omega, ?_⟩
  rw [hx]
  exact asUnsignedLong_eq_iff n

/-! ## Operators -/

/-- The result of an operator on representable operands is exact if and only if it is
representable. -/
theorem NumOp.apply_exact {op : NumOp} {x y res : ℕ} (hx : x < 18446744073709551616)
    (hy : y < 18446744073709551616) (h : op.apply x y = .ok res) :
    ∃ n, op.exact x y = some n ∧ res < 18446744073709551616 ∧
      ((res : ℤ) = n ↔ Representable n) := by
  unfold Representable
  cases op with
  | add =>
      obtain rfl := Except.ok.inj h
      exact ⟨_, rfl, by omega, by omega⟩
  | sub =>
      obtain rfl := Except.ok.inj h
      exact ⟨_, rfl, by omega, by omega⟩
  | mult =>
      obtain rfl := Except.ok.inj h
      refine ⟨_, rfl, by omega, ?_⟩
      have hcast : (x : ℤ) * y = ((x * y : ℕ) : ℤ) := by push_cast; rfl
      rw [hcast]
      generalize x * y = product
      omega
  | div =>
      by_cases hzero : y = 0
      · simp [NumOp.apply, hzero] at h
      · simp only [NumOp.apply, if_neg hzero] at h
        obtain rfl := Except.ok.inj h
        have hle : x / y ≤ x := Nat.div_le_self x y
        have hnonneg : (0 : ℤ) ≤ ((x / y : ℕ) : ℤ) := Int.natCast_nonneg _
        refine ⟨((x / y : ℕ) : ℤ), ?_, by omega, by omega⟩
        simp [NumOp.exact, hzero]
  | mod =>
      by_cases hzero : y = 0
      · simp [NumOp.apply, hzero] at h
      · simp only [NumOp.apply, if_neg hzero] at h
        obtain rfl := Except.ok.inj h
        have hle : x % y ≤ x := Nat.mod_le x y
        refine ⟨((x % y : ℕ) : ℤ), ?_, by omega, by omega⟩
        simp [NumOp.exact, hzero]

theorem bind_eq_ok {α β : Type} {x : Except Fatal α} {f : α → Except Fatal β} {b : β}
    (h : (x >>= f) = .ok b) : ∃ a, x = .ok a ∧ f a = .ok b := by
  cases x with
  | error e => exact nomatch h
  | ok a => exact ⟨a, rfl, h⟩

theorem check_eq_ok {β : Type} {p : Prop} [Decidable p] {e : Fatal} {f : PUnit → Except Fatal β}
    {b : β} (h : (if p then throw e >>= f else f ⟨⟩) = .ok b) : ¬ p ∧ f ⟨⟩ = .ok b := by
  split at h
  · exact nomatch h
  · next hp => exact ⟨hp, h⟩

/-- An operand whose value is read as a number. -/
structure ReadAsNumber (env : Env) (p : Elem) (x : ℕ) : Prop where
  arg : ∃ val t, elemGetArg env p = .ok (val, t) ∧ t.num = true ∧ convertToLong val = .ok x

theorem elemGetArg_numeric {env : Env} {op : NumOp} {left right : Elem} {text : CString}
    {t : ArgType} (h : elemGetArg env (.numeric op left right) = .ok (text, t)) :
    ∃ x y res, ReadAsNumber env left x ∧ ReadAsNumber env right y ∧ op.apply x y = .ok res ∧
      text = Nat.toDigits 10 res ∧ t.num = true := by
  rw [elemGetArg] at h
  obtain ⟨⟨lval, ltype⟩, hleft, h⟩ := bind_eq_ok h
  obtain ⟨hlnum, h⟩ := check_eq_ok h
  obtain ⟨x, hx, h⟩ := bind_eq_ok h
  obtain ⟨⟨rval, rtype⟩, hright, h⟩ := bind_eq_ok h
  obtain ⟨hrnum, h⟩ := check_eq_ok h
  obtain ⟨y, hy, h⟩ := bind_eq_ok h
  obtain ⟨res, hres, h⟩ := bind_eq_ok h
  refine ⟨x, y, res, ⟨lval, ltype, hleft, Bool.eq_true_of_not_eq_false hlnum, hx⟩,
    ⟨rval, rtype, hright, Bool.eq_true_of_not_eq_false hrnum, hy⟩, hres, ?_⟩
  obtain ⟨rfl, rfl⟩ := Prod.mk.inj (Except.ok.inj h)
  exact ⟨rfl, rfl⟩

theorem convertToLong_toDigits {res : ℕ} (h : res < 18446744073709551616) :
    convertToLong (Nat.toDigits 10 res) = .ok res := by
  have hdigits : IsDigits (Nat.toDigits 10 res) := by
    refine ⟨fun hnil => ?_, fun c hc => Nat.isDigit_of_mem_toDigits (by omega) (by omega) hc⟩
    have hnumeral := isNumeral_toDigits res
    rw [hnil] at hnumeral
    exact nomatch hnumeral
  rw [convertToLong_digits hdigits, digitsValue_toDigits, Nat.min_eq_right (by omega)]

/-! ## Trees of operators -/

/-- Not a tree of operators. -/
def Elem.IsOperand (p : Elem) : Prop := ∀ op left right, p ≠ .numeric op left right

theorem Elem.numeric_induction {P : Elem → Prop} (operand : ∀ p : Elem, p.IsOperand → P p)
    (numeric : ∀ op left right, P left → P right → P (.numeric op left right)) : ∀ p, P p
  | .numeric op left right =>
      numeric op left right (numeric_induction operand numeric left)
        (numeric_induction operand numeric right)
  | .id _ => operand _ fun _ _ _ => nofun
  | .idset _ => operand _ fun _ _ _ => nofun
  | .string _ => operand _ fun _ _ _ => nofun
  | .num _ => operand _ fun _ _ _ => nofun
  | .ver _ => operand _ fun _ _ _ => nofun
  | .orElse _ _ => operand _ fun _ _ _ => nofun
  | .cast _ _ => operand _ fun _ _ _ => nofun

section Trees

variable {env : Env} {p : Elem}

theorem exactValue_operand (h : p.IsOperand) : exactValue env p = operandValue env p := by
  cases p with
  | numeric op left right => exact absurd rfl (h op left right)
  | _ => rw [exactValue]; exact fun _ _ _ => nofun

theorem inRange_operand (h : p.IsOperand) :
    InRange env p ↔ ∀ n, operandValue env p = some n → Representable n := by
  rw [← exactValue_operand h]
  cases p with
  | numeric op left right => exact absurd rfl (h op left right)
  | _ => rw [InRange]; exact fun _ _ _ => nofun

theorem computesExactly_operand (h : p.IsOperand) :
    ComputesExactly env p ↔ ∃ n : ℕ, operandValue env p = some (n : ℤ) ∧
      ∃ val t, elemGetArg env p = .ok (val, t) ∧ convertToLong val = .ok n := by
  rw [← exactValue_operand h]
  cases p with
  | numeric op left right => exact absurd rfl (h op left right)
  | _ => rw [ComputesExactly]; exact fun _ _ _ => nofun

theorem ReadAsNumber.operandValue {x : ℕ} (h : ReadAsNumber env p x) :
    ∃ n, operandValue env p = some n ∧ x < 18446744073709551616 ∧
      ((x : ℤ) = n ↔ Representable n) := by
  obtain ⟨val, t, harg, hnum, hlong⟩ := h.arg
  obtain ⟨n, hn, hrest⟩ := numberOf_of_convertToLong hlong
  refine ⟨n, ?_, hrest⟩
  simp only [Script.operandValue, harg, hnum, if_true, hn]

theorem exactValue_of_inRange (p : Elem) {x : ℕ} (h : ReadAsNumber env p x)
    (hrange : InRange env p) : exactValue env p = some (x : ℤ) := by
  induction p using Elem.numeric_induction generalizing x with
  | operand p hp =>
      obtain ⟨n, hn, -, hiff⟩ := h.operandValue
      rw [exactValue_operand hp, hn, hiff.mpr ((inRange_operand hp).mp hrange n hn)]
  | numeric op left right ihl ihr =>
      obtain ⟨val, t, harg, -, hlong⟩ := h.arg
      obtain ⟨y, z, res, hleft, hright, hres, rfl, -⟩ := elemGetArg_numeric harg
      obtain ⟨-, -, hy, -⟩ := hleft.operandValue
      obtain ⟨-, -, hz, -⟩ := hright.operandValue
      obtain ⟨n, hn, hlt, hiff⟩ := NumOp.apply_exact hy hz hres
      obtain rfl := Except.ok.inj ((convertToLong_toDigits hlt).symm.trans hlong)
      obtain ⟨hl, hr, hnode⟩ := hrange
      have hvalue : exactValue env (.numeric op left right) = some n := by
        simp only [exactValue, ihl hleft hl, ihr hright hr, Option.bind_eq_bind, Option.bind_some, hn]
      rw [hvalue, hiff.mpr (hnode n hvalue)]

theorem computesExactly_of_inRange (p : Elem) {x : ℕ} (h : ReadAsNumber env p x)
    (hrange : InRange env p) : ComputesExactly env p := by
  induction p using Elem.numeric_induction generalizing x with
  | operand p hp =>
      obtain ⟨val, t, harg, -, hlong⟩ := h.arg
      have hvalue := exactValue_of_inRange p h hrange
      rw [exactValue_operand hp] at hvalue
      exact (computesExactly_operand hp).mpr ⟨x, hvalue, val, t, harg, hlong⟩
  | numeric op left right ihl ihr =>
      have hvalue := exactValue_of_inRange _ h hrange
      obtain ⟨val, t, harg, -, hlong⟩ := h.arg
      obtain ⟨y, z, res, hleft, hright, hres, rfl, -⟩ := elemGetArg_numeric harg
      obtain ⟨-, -, hy, -⟩ := hleft.operandValue
      obtain ⟨-, -, hz, -⟩ := hright.operandValue
      obtain ⟨-, -, hlt, -⟩ := NumOp.apply_exact hy hz hres
      obtain rfl := Except.ok.inj ((convertToLong_toDigits hlt).symm.trans hlong)
      exact ⟨ihl hleft hrange.1, ihr hright hrange.2.1, res, hvalue, t, harg⟩

theorem inRange_of_computesExactly (p : Elem) (h : ComputesExactly env p) : InRange env p := by
  induction p using Elem.numeric_induction with
  | operand p hp =>
      obtain ⟨n, hvalue, val, t, harg, hlong⟩ := (computesExactly_operand hp).mp h
      refine (inRange_operand hp).mpr fun m hm => ?_
      obtain ⟨k, hk, hlt, hiff⟩ := numberOf_of_convertToLong hlong
      obtain rfl := Option.some.inj (hvalue.symm.trans hm)
      exact ⟨Int.natCast_nonneg n, by omega⟩
  | numeric op left right ihl ihr =>
      obtain ⟨hl, hr, n, hvalue, t, harg⟩ := h
      refine ⟨ihl hl, ihr hr, fun m hm => ?_⟩
      obtain ⟨y, z, res, hleft, hright, hres, htext, -⟩ := elemGetArg_numeric harg
      obtain ⟨-, -, hy, -⟩ := hleft.operandValue
      obtain ⟨-, -, hz, -⟩ := hright.operandValue
      obtain ⟨-, -, hlt, -⟩ := NumOp.apply_exact hy hz hres
      have hsame := congrArg (digitsValue 10) htext
      rw [digitsValue_toDigits, digitsValue_toDigits] at hsame
      obtain rfl := Option.some.inj (hvalue.symm.trans hm)
      exact ⟨Int.natCast_nonneg n, by omega⟩

/-- Of the calculations that come back, those are exact whose operands and results are all
representable. -/
theorem computesExactly_iff_inRange {op : NumOp} {left right : Elem} {text : CString} {t : ArgType}
    (h : elemGetArg env (.numeric op left right) = .ok (text, t)) :
    ComputesExactly env (.numeric op left right) ↔ InRange env (.numeric op left right) := by
  refine ⟨inRange_of_computesExactly _, fun hrange => ?_⟩
  obtain ⟨x, y, res, hleft, hright, hres, rfl, hnum⟩ := elemGetArg_numeric h
  obtain ⟨-, -, hx, -⟩ := hleft.operandValue
  obtain ⟨-, -, hy, -⟩ := hright.operandValue
  obtain ⟨-, -, hlt, -⟩ := NumOp.apply_exact hx hy hres
  exact computesExactly_of_inRange _ ⟨_, t, h, hnum, convertToLong_toDigits hlt⟩ hrange

end Trees

/-- `1 + 2` is calculated exactly. -/
theorem computesExactly_iff_inRange_three :
    ComputesExactly oneNumeric (.numeric .add (.num ['1']) (.num ['2'])) ↔
      InRange oneNumeric (.numeric .add (.num ['1']) (.num ['2'])) := by
  have hret : elemGetArg oneNumeric (.numeric .add (.num ['1']) (.num ['2'])) =
      .ok (['3'], { ArgType.none with num := true }) := by
    rfl
  exact computesExactly_iff_inRange hret

/-- `0 - 1` comes back, with `18446744073709551615`. -/
theorem not_computesExactly_sub :
    ¬ ∀ (env : Env) (op : NumOp) (left right : Elem) (text : CString) (t : ArgType),
      elemGetArg env (.numeric op left right) = .ok (text, t) →
        ComputesExactly env (.numeric op left right) := by
  intro h
  have hret : elemGetArg oneNumeric (.numeric .sub (.num ['0']) (.num ['1'])) =
      .ok (Nat.toDigits 10 18446744073709551615, { ArgType.none with num := true }) := by
    rfl
  obtain ⟨-, -, n, hvalue, -⟩ := h oneNumeric .sub (.num ['0']) (.num ['1']) _ _ hret
  have hminus : exactValue oneNumeric (.numeric .sub (.num ['0']) (.num ['1'])) = some (-1) := by
    rfl
  have hn : (-1 : ℤ) = n := Option.some.inj (hminus.symm.trans hvalue)
  omega

end Script
end Mkfli4l
