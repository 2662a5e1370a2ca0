import Mkfli4l.Lib.OperatorChains
import Mkfli4l.Script.Arithmetic

/-!
# Precedence in check scripts

The grammar of the check scripts (`libmkfli4l/grammar.y`) is ambiguous.  The lines `%left` resolve
its conflicts, and all of `&&`, `||`, `+`, `-`, `*`, `/` and `%` are on the same line.  The grammar
of the conditions in config files (`grammar/expr_parser.tokens`) has a line for each of its
operators.
-/

namespace Mkfli4l
namespace Script

open Lib

/-! ## The tables -/

/-- The tokens that have a precedence. -/
inductive OpToken
  | assign | orElse | and | or | add | sub | mult | div | mod
  | equal | notEqual | less | greater | le | ge | match
  | not | copyPending | defined | unique | cast
deriving DecidableEq

/-- The lines `%left` and `%right` of `grammar.y`, from the weakest on. -/
def scriptPrecedences : List (List OpToken) :=
  [[.assign], [.orElse], [.and, .or, .add, .sub, .mult, .div, .mod],
    [.equal, .notEqual, .less, .greater, .le, .ge, .match],
    [.not, .copyPending, .defined, .unique], [.cast]]

/-- The lines `%left` of `expr_parser.tokens`, from the weakest on. -/
def configPrecedences : List (List OpToken) := [[.or], [.and], [.equal, .match, .notEqual], [.not]]

/-- The precedence of a token. -/
def precedence (lines : List (List OpToken)) (token : OpToken) : ℕ :=
  lines.findIdx (token ∈ ·)

/-- `&&` and `||`. -/
inductive LogOp
  | and
  | or
deriving DecidableEq

def LogOp.token : LogOp → OpToken
  | .and => .and
  | .or => .or

def NumOp.token : NumOp → OpToken
  | .add => .add
  | .sub => .sub
  | .mult => .mult
  | .div => .div
  | .mod => .mod

/-- The usual precedence of `&&` and `||`. -/
def LogOp.usual : LogOp → ℕ
  | .and => 1
  | .or => 0

/-- The usual precedence of the arithmetic operators. -/
def NumOp.usual : NumOp → ℕ
  | .add | .sub => 0
  | .mult | .div | .mod => 1

/-! ## Parsing and evaluating -/

/-- The operands of a `num_expr` without parentheses, an `index`. -/
inductive Index
  | id (val : CString)
  | idset (set : IdSet)
  | num (val : CString)

def Index.elem : Index → Elem
  | .id val => .id val
  | .idset set => .idset set
  | .num val => .num val

/-- A chain of numeric operators, as a `num_expr`. -/
def numExpr (x : Index) (chain : List (NumOp × Index)) : Elem :=
  shiftReduce (fun op => precedence scriptPrecedences op.token) Index.elem .numeric [] x.elem chain

/-- A comparison of two values. -/
structure Comparison where
  op : Relop
  left : Elem
  right : Elem

/-- The nodes of a condition that are comparisons, `AND` or `OR`. -/
inductive Cond
  | relop (cmp : Comparison)
  | logical (op : LogOp) (left right : Cond)

/-- A chain of comparisons with `&&` and `||`, as a `condition`. -/
def condition (x : Comparison) (chain : List (LogOp × Comparison)) : Cond :=
  shiftReduce (fun op => precedence scriptPrecedences op.token) Cond.relop .logical [] (.relop x)
    chain

def walkCondition (env : Env) : Cond → Except Fatal Bool
  | .relop cmp => condRelop env cmp.op cmp.left cmp.right
  | .logical .and left right => do
      if ← walkCondition env left then walkCondition env right else pure false
  | .logical .or left right => do
      if ← walkCondition env left then pure true else walkCondition env right

/-! ## One line for all operators -/

theorem numExpr_eq_foldl (x : Index) (chain : List (NumOp × Index)) :
    numExpr x chain = chain.foldl (fun left p => .numeric p.1 left p.2.elem) x.elem := by
  refine shiftReduce_eq_foldl _ _ (List.Pairwise.isChain (List.pairwise_of_forall fun a b => ?_))
  cases a <;> cases b <;> decide

theorem condition_eq_foldl (x : Comparison) (chain : List (LogOp × Comparison)) :
    condition x chain = chain.foldl (fun left p => .logical p.1 left (.relop p.2)) (.relop x) := by
  refine shiftReduce_eq_foldl _ _ (List.Pairwise.isChain (List.pairwise_of_forall fun a b => ?_))
  cases a <;> cases b <;> decide

theorem configPrecedences_usual (x : Comparison) (chain : List (LogOp × Comparison)) :
    shiftReduce (fun op => precedence configPrecedences op.token) Cond.relop .logical []
      (.relop x) chain = (OpTree.read LogOp.usual x chain).eval Cond.relop .logical := by
  have hlevel : (fun op : LogOp => precedence configPrecedences op.token) = LogOp.usual := by
    funext op
    cases op <;> rfl
  rw [hlevel]
  exact (OpTree.reads_read x chain).shiftReduce_eq

/-! ## Conditions -/

section Conditions

variable {env : Env}

/-- A comparison that holds, or one that does not. -/
def constant (b : Bool) : Comparison :=
  if b then ⟨.equal, .num ['0'], .num ['0']⟩ else ⟨.notEqual, .num ['0'], .num ['0']⟩

theorem walkCondition_constant (b : Bool) :
    walkCondition env (.relop (constant b)) = .ok b := by
  cases b <;> rfl

theorem walkCondition_logical {left right : Cond} {b c : Bool} (op : LogOp)
    (hleft : walkCondition env left = .ok b) (hright : walkCondition env right = .ok c) :
    walkCondition env (.logical op left right) =
      .ok (match op with | .and => b && c | .or => b || c) := by
  cases op <;> cases b <;> simp [walkCondition, hleft, hright] <;> rfl

theorem walkCondition_foldl {b : Bool} (ops : List LogOp) {c : Cond}
    (h : walkCondition env c = .ok b) :
    walkCondition env ((ops.map fun op => (op, constant b)).foldl
      (fun left p => .logical p.1 left (.relop p.2)) c) = .ok b := by
  induction ops generalizing c with
  | nil => exact h
  | cons op ops ih =>
      refine ih ?_
      rw [walkCondition_logical op h (walkCondition_constant b)]
      cases op <;> simp

/-- The value of a reading. -/
def walkReading (env : Env) (t : OpTree LogOp Comparison) : Except Fatal Bool :=
  walkCondition env (t.eval .relop .logical)

theorem walkReading_or {left right : OpTree LogOp Comparison} (h : walkReading env left = .ok true) :
    walkReading env (.node .or left right) = .ok true := by
  rw [walkReading] at h
  simp [walkReading, OpTree.eval, walkCondition, h]
  rfl

theorem walkReading_true (t : OpTree LogOp Comparison)
    (h : ∀ cmp ∈ t.first :: t.rest.map Prod.snd, cmp = constant true) :
    walkReading env t = .ok true := by
  induction t with
  | operand cmp =>
      rw [h cmp List.mem_cons_self]
      exact walkCondition_constant true
  | node op left right ihl ihr =>
      simp only [OpTree.first, OpTree.rest, List.map_append, List.map_cons, List.mem_cons,
        List.mem_append] at h ihl ihr
      have hleft := ihl fun cmp hcmp => h cmp (by tauto)
      have hright := ihr fun cmp hcmp => h cmp (by tauto)
      have hnode := walkCondition_logical op hleft hright
      rw [walkReading, OpTree.eval, hnode]
      cases op <;> rfl

/-- An `||` with a left side that holds. -/
def HoldsByLeft (env : Env) (t : OpTree LogOp Comparison) : Prop :=
  ∃ left right, t = .node .or left right ∧ walkReading env left = .ok true

theorem HoldsByLeft.snoc {t : OpTree LogOp Comparison} (h : HoldsByLeft env t) (op : LogOp)
    (x : Comparison) : HoldsByLeft env (t.snoc LogOp.usual op x) := by
  obtain ⟨left, right, rfl, hleft⟩ := h
  cases op with
  | or => exact ⟨_, _, OpTree.snoc_of_level_zero rfl, walkReading_or hleft⟩
  | and => exact ⟨left, _, OpTree.snoc_eq_right Nat.zero_lt_one, hleft⟩

theorem HoldsByLeft.foldl {t : OpTree LogOp Comparison} (h : HoldsByLeft env t)
    (chain : List (LogOp × Comparison)) :
    HoldsByLeft env (chain.foldl (fun t p => t.snoc LogOp.usual p.1 p.2) t) := by
  induction chain generalizing t with
  | nil => exact h
  | cons p chain ih => exact ih (h.snoc p.1 p.2)

/-- The comparisons in front of a critical `&&` hold, and the others do not. -/
def criticalConditions (pre post : List LogOp) : List (LogOp × Comparison) :=
  (pre.map fun op => (op, constant true)) ++
    (.or, constant true) :: (.and, constant false) :: (post.map fun op => (op, constant false))

theorem walkCondition_critical (pre post : List LogOp) :
    walkCondition env (condition (constant true) (criticalConditions pre post)) = .ok false := by
  rw [condition_eq_foldl, criticalConditions, List.foldl_append]
  refine walkCondition_foldl post ?_
  have htrue : walkCondition env (.relop (constant true)) = .ok true := walkCondition_constant true
  have hpre := walkCondition_foldl pre htrue
  have hor := walkCondition_logical .or hpre (walkCondition_constant true)
  exact walkCondition_logical .and hor (walkCondition_constant false)

theorem walkReading_critical (pre post : List LogOp) :
    walkReading env (OpTree.read LogOp.usual (constant true) (criticalConditions pre post)) =
      .ok true := by
  have hpre : (OpTree.read LogOp.usual (constant true) (pre.map fun op => (op, constant true))).Reads
      LogOp.usual (constant true) (pre.map fun op => (op, constant true)) :=
    OpTree.reads_read _ _
  have htrue : walkReading env (OpTree.read LogOp.usual (constant true)
      (pre.map fun op => (op, constant true))) = .ok true := by
    refine walkReading_true _ fun cmp hcmp => ?_
    rw [hpre.first_eq, hpre.rest_eq] at hcmp
    simp only [List.map_map, List.mem_cons, List.mem_map, Function.comp_apply] at hcmp
    obtain rfl | ⟨op, -, rfl⟩ := hcmp
    · rfl
    · rfl
  have hcritical : HoldsByLeft env (OpTree.read LogOp.usual (constant true)
      (criticalConditions pre post)) := by
    rw [criticalConditions, OpTree.read, List.foldl_append]
    exact HoldsByLeft.foldl (HoldsByLeft.snoc ⟨_, _, OpTree.snoc_of_level_zero rfl, htrue⟩ .and _) _
  obtain ⟨left, right, hnode, hleft⟩ := hcritical
  rw [hnode]
  exact walkReading_or hleft

theorem walkCondition_usual_iff (ops : List LogOp) :
    (∀ env x chain t, chain.map Prod.fst = ops → OpTree.Reads LogOp.usual x chain t →
      walkCondition env (condition x chain) = walkReading env t) ↔
    ops.Pairwise fun a b => ¬ (a = .or ∧ b = .and) := by
  have hlevel : ∀ a b : LogOp, ¬ (a = .or ∧ b = .and) ↔ b.usual ≤ a.usual := by
    intro a b
    cases a <;> cases b <;> decide
  simp only [hlevel]
  constructor
  · intro h
    rw [← List.isChain_iff_pairwise, List.isChain_iff_forall_rel_of_append_cons_cons]
    intro a b pre post hops
    by_contra hab
    obtain ⟨rfl, rfl⟩ := not_not.mp (mt (hlevel a b).mp hab)
    have heq := h oneNumeric (constant true) (criticalConditions pre post) _
      (by simp [criticalConditions, hops, Function.comp_def]) (OpTree.reads_read _ _)
    rw [walkCondition_critical, walkReading_critical] at heq
    exact absurd heq (by decide)
  · rintro h env x chain t rfl ht
    rw [condition_eq_foldl, walkReading, ht.eval_eq_foldl h]

end Conditions

/-! ## Numeric expressions -/

def getNumericValue (env : Env) (p : Elem) : Except Fatal ℕ := do
  let (x, t) ← elemGetArg env p
  if t.num = false then throw .nonNumericOperand
  convertToLong x

section Numbers

variable {env : Env}

theorem getNumericValue_eq_ok {p : Elem} {x : ℕ} :
    getNumericValue env p = .ok x ↔ ReadAsNumber env p x := by
  constructor
  · intro h
    obtain ⟨⟨val, t⟩, harg, h⟩ := bind_eq_ok h
    obtain ⟨hnum, hlong⟩ := check_eq_ok h
    exact ⟨val, t, harg, Bool.eq_true_of_not_eq_false hnum, hlong⟩
  · rintro ⟨val, t, harg, hnum, hlong⟩
    simp [getNumericValue, harg, hnum, hlong, bind, Except.bind]

theorem getNumericValue_num {n : ℕ} (h : n < 18446744073709551616) :
    getNumericValue env (.num (Nat.toDigits 10 n)) = .ok n := by
  unfold getNumericValue
  rw [elemGetArg]
  exact convertToLong_toDigits h

theorem getNumericValue_numeric {op : NumOp} {left right : Elem} {x y res : ℕ}
    (hleft : getNumericValue env left = .ok x) (hright : getNumericValue env right = .ok y)
    (hres : op.apply x y = .ok res) : getNumericValue env (.numeric op left right) = .ok res := by
  obtain ⟨lval, ltype, hlarg, hlnum, hx⟩ := getNumericValue_eq_ok.mp hleft
  obtain ⟨rval, rtype, hrarg, hrnum, hy⟩ := getNumericValue_eq_ok.mp hright
  obtain ⟨-, -, hxlt, -⟩ := (getNumericValue_eq_ok.mp hleft).operandValue
  obtain ⟨-, -, hylt, -⟩ := (getNumericValue_eq_ok.mp hright).operandValue
  obtain ⟨-, -, hlt, -⟩ := NumOp.apply_exact hxlt hylt hres
  refine getNumericValue_eq_ok.mpr ⟨_, { ArgType.none with num := true }, ?_, rfl,
    convertToLong_toDigits hlt⟩
  rw [elemGetArg]
  simp [hlarg, hlnum, hx, hrarg, hrnum, hy, hres, bind, Except.bind, pure, Except.pure]

/-- The right operand with which an operator returns the left one, if this is small. -/
def NumOp.neutral : NumOp → ℕ
  | .add | .sub => 0
  | .mult | .div => 1
  | .mod => 100

variable {v : ℕ} {t : OpTree NumOp Index}

theorem NumOp.apply_neutral (op : NumOp) (h : v < 100) : op.apply v op.neutral = .ok v := by
  cases op with
  | add => simp [NumOp.apply, NumOp.neutral]; omega
  | sub => simp [NumOp.apply, NumOp.neutral]; omega
  | mult => simp [NumOp.apply, NumOp.neutral]; omega
  | div => simp [NumOp.apply, NumOp.neutral]
  | mod => simp [NumOp.apply, NumOp.neutral]; omega

/-- The numeral of a number. -/
def Index.ofNat (n : ℕ) : Index := .num (Nat.toDigits 10 n)

theorem getNumericValue_ofNat {n : ℕ} (h : n ≤ 100) :
    getNumericValue env (Index.ofNat n).elem = .ok n :=
  getNumericValue_num (by omega)

theorem getNumericValue_neutral (op : NumOp) :
    getNumericValue env (Index.ofNat op.neutral).elem = .ok op.neutral :=
  getNumericValue_ofNat (by cases op <;> decide)

/-- The operators with neutral operands. -/
def neutralChain (ops : List NumOp) : List (NumOp × Index) :=
  ops.map fun op => (op, Index.ofNat op.neutral)

theorem getNumericValue_foldl (hv : v < 100) (ops : List NumOp) {p : Elem}
    (h : getNumericValue env p = .ok v) :
    getNumericValue env ((neutralChain ops).foldl (fun left p => .numeric p.1 left p.2.elem) p) =
      .ok v := by
  induction ops generalizing p with
  | nil => exact h
  | cons op ops ih =>
      exact ih (getNumericValue_numeric h (getNumericValue_neutral op) (op.apply_neutral hv))

/-- The value of a reading. -/
def readingValue (env : Env) (t : OpTree NumOp Index) : Except Fatal ℕ :=
  getNumericValue env (t.eval Index.elem .numeric)

/-- The reading has the small value `v`, and the operand that an operator takes is small too. -/
inductive Settled (env : Env) (v : ℕ) : OpTree NumOp Index → Prop
  | term {t : OpTree NumOp Index} (root : t.RootAtLeast NumOp.usual 1)
      (value : readingValue env t = .ok v) : Settled env v t
  | sum {op : NumOp} {left right : OpTree NumOp Index} {w c : ℕ} (additive : op.usual = 0)
      (root : right.RootAtLeast NumOp.usual 1) (leftValue : readingValue env left = .ok w)
      (rightValue : readingValue env right = .ok c) (small : c < 100) (value : op.apply w c = .ok v) :
      Settled env v (.node op left right)

theorem Settled.readingValue (h : Settled env v t) : readingValue env t = .ok v := by
  cases h with
  | term _ value => exact value
  | sum _ _ leftValue rightValue _ value =>
      exact getNumericValue_numeric leftValue rightValue value

theorem NumOp.usual_cases (op : NumOp) :
    (op.usual = 0 ∧ op.neutral = 0) ∨ op.usual = 1 := by
  cases op <;> simp [NumOp.usual, NumOp.neutral]

theorem readingValue_snoc {op : NumOp} {x : Index} {c res : ℕ}
    (hop : op.usual = 1) (hroot : t.RootAtLeast NumOp.usual 1)
    (hv : readingValue env t = .ok v) (hc : getNumericValue env x.elem = .ok c)
    (hres : op.apply v c = .ok res) :
    (t.snoc NumOp.usual op x).RootAtLeast NumOp.usual 1 ∧
      readingValue env (t.snoc NumOp.usual op x) = .ok res := by
  rw [OpTree.snoc_eq_node (by rw [hop]; exact hroot)]
  exact ⟨hop.ge, getNumericValue_numeric hv hc hres⟩

theorem Settled.snoc (hv : v < 100) (h : Settled env v t)
    (op : NumOp) : Settled env v (t.snoc NumOp.usual op (Index.ofNat op.neutral)) := by
  have hneutral : getNumericValue env (Index.ofNat op.neutral).elem = .ok op.neutral :=
    getNumericValue_neutral op
  rcases op.usual_cases with ⟨hop, hzero⟩ | hop
  · rw [OpTree.snoc_of_level_zero hop]
    exact .sum hop trivial h.readingValue hneutral (by omega) (op.apply_neutral hv)
  · cases h with
    | term root value =>
        obtain ⟨hroot, hvalue⟩ := readingValue_snoc hop root value hneutral (op.apply_neutral hv)
        exact .term hroot hvalue
    | sum additive root leftValue rightValue small value =>
        obtain ⟨hroot, hvalue⟩ :=
          readingValue_snoc hop root rightValue hneutral (op.apply_neutral small)
        rw [OpTree.snoc_eq_right (by omega)]
        exact .sum additive hroot leftValue hvalue small value

theorem Settled.foldl (hv : v < 100) (ops : List NumOp) (h : Settled env v t) :
    Settled env v ((neutralChain ops).foldl (fun t p => t.snoc NumOp.usual p.1 p.2) t) := by
  induction ops generalizing t with
  | nil => exact h
  | cons op ops ih => exact ih (h.snoc hv op)

/-- The operands of a multiplicative operator behind an additive one. -/
def NumOp.critical : NumOp → ℕ × ℕ
  | .div => (2, 2)
  | _ => (1, 2)

/-- An additive operator with a multiplicative one behind it, and neutral operands around them. -/
def criticalNumbers (a b : NumOp) (pre post : List NumOp) : List (NumOp × Index) :=
  neutralChain pre ++
    (a, Index.ofNat b.critical.1) :: (b, Index.ofNat b.critical.2) :: neutralChain post

theorem NumOp.apply_critical {a b : NumOp} (ha : a.usual = 0) (hb : b.usual = 1) :
    ∃ u v w c, a.apply 5 b.critical.1 = .ok w ∧ b.apply w b.critical.2 = .ok u ∧
      b.apply b.critical.1 b.critical.2 = .ok c ∧ a.apply 5 c = .ok v ∧
      u < 100 ∧ c < 100 ∧ v < 100 ∧ u ≠ v := by
  cases a with
  | add =>
      cases b with
      | add => contradiction
      | sub => contradiction
      | mult => exact ⟨12, 7, 6, 2, by decide⟩
      | div => exact ⟨3, 6, 7, 1, by decide⟩
      | mod => exact ⟨0, 6, 6, 1, by decide⟩
  | sub =>
      cases b with
      | add => contradiction
      | sub => contradiction
      | mult => exact ⟨8, 3, 4, 2, by decide⟩
      | div => exact ⟨1, 4, 3, 1, by decide⟩
      | mod => exact ⟨0, 4, 4, 1, by decide⟩
  | mult => contradiction
  | div => contradiction
  | mod => contradiction

theorem NumOp.critical_le (op : NumOp) : op.critical.1 ≤ 100 ∧ op.critical.2 ≤ 100 := by
  cases op <;> decide

theorem values_critical {a b : NumOp} (ha : a.usual = 0) (hb : b.usual = 1) (pre post : List NumOp) :
    ∃ u v, u ≠ v ∧
      getNumericValue env (numExpr (Index.ofNat 5) (criticalNumbers a b pre post)) = .ok u ∧
      readingValue env (OpTree.read NumOp.usual (Index.ofNat 5) (criticalNumbers a b pre post)) =
        .ok v := by
  obtain ⟨u, v, w, c, hw, hu, hc, hv, hulow, hclow, hvlow, hne⟩ := NumOp.apply_critical ha hb
  have hfive : getNumericValue env (Index.ofNat 5).elem = .ok 5 := getNumericValue_ofNat (by omega)
  have hx : getNumericValue env (Index.ofNat b.critical.1).elem = .ok b.critical.1 :=
    getNumericValue_ofNat b.critical_le.1
  have hy : getNumericValue env (Index.ofNat b.critical.2).elem = .ok b.critical.2 :=
    getNumericValue_ofNat b.critical_le.2
  refine ⟨u, v, hne, ?_, ?_⟩
  · rw [numExpr_eq_foldl, criticalNumbers, List.foldl_append]
    have hpre := getNumericValue_foldl (by omega) pre hfive
    exact getNumericValue_foldl hulow post
      (getNumericValue_numeric (getNumericValue_numeric hpre hx hw) hy hu)
  · rw [criticalNumbers, OpTree.read, List.foldl_append]
    have hpre : Settled env 5 ((neutralChain pre).foldl (fun t p => t.snoc NumOp.usual p.1 p.2)
        (.operand (Index.ofNat 5))) :=
      Settled.foldl (by omega) pre (.term trivial hfive)
    refine (Settled.foldl hvlow post ?_).readingValue
    obtain ⟨hroot, hvalue⟩ := readingValue_snoc (t := .operand (Index.ofNat b.critical.1)) hb trivial
      hx hy hc
    dsimp only
    rw [OpTree.snoc_of_level_zero ha, OpTree.snoc_eq_right (by omega)]
    exact .sum ha hroot hpre.readingValue hvalue hclow hv

theorem elemGetArg_usual_iff (ops : List NumOp) :
    (∀ env x chain t, chain.map Prod.fst = ops → OpTree.Reads NumOp.usual x chain t →
      elemGetArg env (numExpr x chain) = elemGetArg env (t.eval Index.elem .numeric)) ↔
    ops.Pairwise fun a b => b.usual ≤ a.usual := by
  constructor
  · intro h
    rw [← List.isChain_iff_pairwise, List.isChain_iff_forall_rel_of_append_cons_cons]
    intro a b pre post hops
    by_contra hab
    have hle : ∀ op : NumOp, op.usual ≤ 1 := fun op => by cases op <;> decide
    have ha : a.usual = 0 := by have := hle b; omega
    have hb : b.usual = 1 := by have := hle b; omega
    obtain ⟨u, v, hne, hu, hv⟩ :
        ∃ u v, u ≠ v ∧ getNumericValue oneNumeric (numExpr (Index.ofNat 5)
            (criticalNumbers a b pre post)) = .ok u ∧
          readingValue oneNumeric (OpTree.read NumOp.usual (Index.ofNat 5)
            (criticalNumbers a b pre post)) = .ok v :=
      values_critical ha hb pre post
    have heq := h oneNumeric (Index.ofNat 5) (criticalNumbers a b pre post) _
      (by simp [criticalNumbers, neutralChain, hops, Function.comp_def]) (OpTree.reads_read _ _)
    rw [readingValue, getNumericValue, ← heq] at hv
    exact hne (Except.ok.inj (hu.symm.trans hv))
  · rintro h env x chain t rfl ht
    rw [numExpr_eq_foldl, ht.eval_eq_foldl h]

end Numbers

/-- The chains of operators of check scripts that have the value of their usual reading. -/
theorem precedence_usual_iff (logical : List LogOp) (numeric : List NumOp) :
    ((∀ env x chain t, chain.map Prod.fst = logical → OpTree.Reads LogOp.usual x chain t →
        walkCondition env (condition x chain) = walkCondition env (t.eval .relop .logical)) ↔
      logical.Pairwise fun a b => ¬ (a = .or ∧ b = .and)) ∧
    ((∀ env x chain t, chain.map Prod.fst = numeric → OpTree.Reads NumOp.usual x chain t →
        elemGetArg env (numExpr x chain) = elemGetArg env (t.eval Index.elem .numeric)) ↔
      numeric.Pairwise fun a b => b.usual ≤ a.usual) :=
  ⟨walkCondition_usual_iff logical, elemGetArg_usual_iff numeric⟩

/-- `0 == 0 || 0 == 0 && 0 != 0` is false. -/
theorem not_precedence_usual :
    ¬ ∀ (env : Env) (x : Comparison) (chain : List (LogOp × Comparison))
      (t : OpTree LogOp Comparison), t.Reads LogOp.usual x chain →
        walkCondition env (condition x chain) = walkCondition env (t.eval .relop .logical) := by
  intro h
  have heq := h oneNumeric (constant true) (criticalConditions [] []) _ (OpTree.reads_read _ _)
  exact absurd heq (by decide)

end Script
end Mkfli4l
