import Mathlib.Data.List.Chain
import Mathlib.Order.Basic

/-!
# Chains of binary operators

A chain `x₀ op₁ x₁ op₂ x₂ …` has one reading for every table of precedences in which all operators
are left-associative.  A shift-reduce parser resolves the conflict between an operator on its stack
and the operator that comes next by the same table.  Its semantic actions build a value, so that
what it returns is the value of the reading.
-/

namespace Mkfli4l
namespace Lib

/-- Expressions that are built with binary operators. -/
inductive OpTree (Op β : Type) where
  | operand (x : β)
  | node (op : Op) (left right : OpTree Op β)

namespace OpTree

variable {Op β γ : Type}

/-- The first operand. -/
def first : OpTree Op β → β
  | operand x => x
  | node _ left _ => left.first

/-- The operators and the operands behind the first operand. -/
def rest : OpTree Op β → List (Op × β)
  | operand _ => []
  | node op left right => left.rest ++ (op, right.first) :: right.rest

/-- The value, with a meaning for the operands and one for the operators. -/
def eval (leaf : β → γ) (mk : Op → γ → γ → γ) : OpTree Op β → γ
  | operand x => leaf x
  | node op left right => mk op (left.eval leaf mk) (right.eval leaf mk)

variable (level : Op → ℕ)

/-- The operator at the root, if there is one, has at least the level `n`. -/
def RootAtLeast (n : ℕ) : OpTree Op β → Prop
  | operand _ => True
  | node op _ _ => n ≤ level op

/-- The operands of an operator are read with operators of higher levels, on the left also with
operators of the same level. -/
def Respects : OpTree Op β → Prop
  | operand _ => True
  | node op left right => left.Respects ∧ right.Respects ∧ left.RootAtLeast level (level op) ∧
      right.RootAtLeast level (level op + 1)

/-- The tree is the reading of a chain. -/
structure Reads (x : β) (chain : List (Op × β)) (t : OpTree Op β) : Prop where
  first_eq : t.first = x
  rest_eq : t.rest = chain
  respects : t.Respects level

/-! ## Every chain has a reading -/

/-- The tree with one more operator and operand at its right end. -/
def snoc (op : Op) (x : β) : OpTree Op β → OpTree Op β
  | operand y => node op (operand y) (operand x)
  | node o left right =>
      if level op ≤ level o then node op (node o left right) (operand x)
      else node o left (right.snoc op x)

/-- The reading of a chain. -/
def read (x : β) (chain : List (Op × β)) : OpTree Op β :=
  chain.foldl (fun t p => t.snoc level p.1 p.2) (operand x)

variable {level} {op : Op} {x : β} {t : OpTree Op β}

theorem snoc_eq_node (h : t.RootAtLeast level (level op)) :
    t.snoc level op x = node op t (operand x) := by
  cases t with
  | operand y => rfl
  | node o left right => exact if_pos h

theorem snoc_of_level_zero (h : level op = 0) : t.snoc level op x = node op t (operand x) := by
  refine snoc_eq_node ?_
  rw [h]
  cases t with
  | operand y => trivial
  | node o left right => exact Nat.zero_le (level o)

theorem snoc_eq_right {o : Op} {left right : OpTree Op β} (h : level o < level op) :
    (node o left right).snoc level op x = node o left (right.snoc level op x) :=
  if_neg (Nat.not_le.mpr h)

theorem snoc_first : (t.snoc level op x).first = t.first := by
  induction t with
  | operand y => rfl
  | node o left right => unfold snoc; split <;> rfl

theorem snoc_rest : (t.snoc level op x).rest = t.rest ++ [(op, x)] := by
  induction t with
  | operand y => rfl
  | node o left right _ ihr =>
      have hfirst : (right.snoc level op x).first = right.first := snoc_first
      unfold snoc
      split
      · rfl
      · simp only [rest, ihr, hfirst, List.append_assoc, List.cons_append]

theorem snoc_rootAtLeast {n : ℕ} (h : t.RootAtLeast level n) (hop : n ≤ level op) :
    (t.snoc level op x).RootAtLeast level n := by
  cases t with
  | operand y => exact hop
  | node o left right =>
      unfold snoc
      split
      · exact hop
      · exact h

theorem snoc_respects (h : t.Respects level) : (t.snoc level op x).Respects level := by
  induction t with
  | operand y => exact ⟨trivial, trivial, trivial, trivial⟩
  | node o left right _ ihr =>
      obtain ⟨hleft, hright, hl, hr⟩ := h
      unfold snoc
      split
      · next hle => exact ⟨⟨hleft, hright, hl, hr⟩, trivial, hle, trivial⟩
      · next hlt =>
          exact ⟨hleft, ihr hright, hl, snoc_rootAtLeast hr (by omega)⟩

theorem read_snoc (chain : List (Op × β)) (p : Op × β) :
    read level x (chain ++ [p]) = (read level x chain).snoc level p.1 p.2 := by
  simp only [read, List.foldl_append, List.foldl_cons, List.foldl_nil]

theorem reads_read (x : β) (chain : List (Op × β)) : Reads level x chain (read level x chain) := by
  induction chain using List.reverseRecOn with
  | nil => exact ⟨rfl, rfl, trivial⟩
  | append_singleton chain p ih =>
      rw [read_snoc]
      exact ⟨snoc_first.trans ih.first_eq, by rw [snoc_rest, ih.rest_eq], snoc_respects ih.respects⟩

end OpTree

/-! ## Shift-reduce parsing -/

section ShiftReduce

variable {Op β γ : Type} (level : Op → ℕ) (leaf : β → γ) (mk : Op → γ → γ → γ)

/-- The reductions when `op` comes next.  An operator on the stack is reduced if its level is not
below that of `op`. -/
def reduce (op : Op) : List (γ × Op) → γ → List (γ × Op) × γ
  | [], cur => ([], cur)
  | (left, o) :: stack, cur =>
      if level op ≤ level o then reduce op stack (mk o left cur) else ((left, o) :: stack, cur)

/-- The parser, with the operands and operators on its stack and the operand `cur` on top. -/
def shiftReduce : List (γ × Op) → γ → List (Op × β) → γ
  | stack, cur, [] => stack.foldl (fun right p => mk p.2 p.1 right) cur
  | stack, cur, (op, x) :: chain =>
      let (stack, left) := reduce level mk op stack cur
      shiftReduce ((left, op) :: stack) (leaf x) chain

variable {level leaf mk}

/-- The operator on top of the stack has a level below `n`. -/
def TopBelow (level : Op → ℕ) (n : ℕ) : List (γ × Op) → Prop
  | [] => True
  | (_, o) :: _ => level o < n

/-- The operator that comes next has at most the level `n`. -/
def NextAtMost (level : Op → ℕ) (n : ℕ) : List (Op × β) → Prop
  | [] => True
  | (op, _) :: _ => level op ≤ n

theorem TopBelow.mono {n m : ℕ} {stack : List (γ × Op)} (h : TopBelow level n stack)
    (hle : n ≤ m) : TopBelow level m stack := by
  cases stack with
  | nil => trivial
  | cons p stack => exact Nat.lt_of_lt_of_le h hle

theorem NextAtMost.mono {n m : ℕ} {chain : List (Op × β)} (h : NextAtMost level n chain)
    (hle : n ≤ m) : NextAtMost level m chain := by
  cases chain with
  | nil => trivial
  | cons p chain => exact h.trans hle

/-- No operator around a tree takes one of its operands away. -/
def Enclosed (level : Op → ℕ) (stack : List (γ × Op)) (chain : List (Op × β)) :
    OpTree Op β → Prop
  | .operand _ => True
  | .node op _ _ => TopBelow level (level op) stack ∧ NextAtMost level (level op) chain

theorem OpTree.RootAtLeast.enclosed {n : ℕ} {t : OpTree Op β} {stack : List (γ × Op)}
    {chain : List (Op × β)} (h : t.RootAtLeast level n) (hstack : TopBelow level n stack)
    (hchain : NextAtMost level n chain) : Enclosed level stack chain t := by
  cases t with
  | operand x => trivial
  | node op left right => exact ⟨hstack.mono h, hchain.mono h⟩

theorem shiftReduce_shift {op : Op} {stack : List (γ × Op)} {cur : γ} {x : β} {chain : List (Op × β)}
    (h : TopBelow level (level op) stack) :
    shiftReduce level leaf mk stack cur ((op, x) :: chain) =
      shiftReduce level leaf mk ((cur, op) :: stack) (leaf x) chain := by
  have hreduce : reduce level mk op stack cur = (stack, cur) := by
    cases stack with
    | nil => rfl
    | cons p stack => exact if_neg (Nat.not_le.mpr h)
  rw [shiftReduce, hreduce]

theorem shiftReduce_reduce {o : Op} {left cur : γ} {stack : List (γ × Op)} {chain : List (Op × β)}
    (h : NextAtMost level (level o) chain) :
    shiftReduce level leaf mk ((left, o) :: stack) cur chain =
      shiftReduce level leaf mk stack (mk o left cur) chain := by
  cases chain with
  | nil => rfl
  | cons p chain =>
      have hreduce : reduce level mk p.1 ((left, o) :: stack) cur =
          reduce level mk p.1 stack (mk o left cur) := if_pos h
      rw [shiftReduce, shiftReduce, hreduce]

theorem shiftReduce_part (t : OpTree Op β) (ht : t.Respects level) {stack : List (γ × Op)}
    {chain : List (Op × β)} (h : Enclosed level stack chain t) :
    shiftReduce level leaf mk stack (leaf t.first) (t.rest ++ chain) =
      shiftReduce level leaf mk stack (t.eval leaf mk) chain := by
  induction t generalizing stack chain with
  | operand x => rfl
  | node op left right ihl ihr =>
      obtain ⟨hleft, hright, hl, hr⟩ := ht
      obtain ⟨hstack, hchain⟩ := h
      have hnext : NextAtMost level (level op) ((op, right.first) :: (right.rest ++ chain)) :=
        le_refl (level op)
      rw [OpTree.rest, List.append_assoc, List.cons_append, OpTree.first,
        ihl hleft (hl.enclosed hstack hnext), shiftReduce_shift hstack,
        ihr hright (hr.enclosed (Nat.lt_succ_self _) (hchain.mono (Nat.le_succ _))),
        shiftReduce_reduce hchain]
      rfl

theorem OpTree.Reads.shiftReduce_eq {x : β} {chain : List (Op × β)} {t : OpTree Op β}
    (h : t.Reads level x chain) : shiftReduce level leaf mk [] (leaf x) chain = t.eval leaf mk := by
  have henclosed : Enclosed level ([] : List (γ × Op)) [] t := by
    cases t with
    | operand y => trivial
    | node op left right => exact ⟨trivial, trivial⟩
  calc shiftReduce level leaf mk [] (leaf x) chain
      = shiftReduce level leaf mk [] (leaf t.first) (t.rest ++ []) := by
        rw [List.append_nil, h.first_eq, h.rest_eq]
    _ = t.eval leaf mk := shiftReduce_part t h.respects henclosed

theorem shiftReduce_eq_foldl (x : γ) (chain : List (Op × β))
    (h : (chain.map Prod.fst).IsChain fun a b => level b ≤ level a) :
    shiftReduce level leaf mk [] x chain = chain.foldl (fun left p => mk p.1 left (leaf p.2)) x := by
  induction chain generalizing x with
  | nil => rfl
  | cons p chain ih =>
      have hnext : NextAtMost level (level p.1) chain := by
        cases chain with
        | nil => trivial
        | cons q chain => exact (List.isChain_cons_cons.mp h).1
      have hstack : TopBelow level (level p.1) ([] : List (γ × Op)) := trivial
      rw [shiftReduce_shift hstack, shiftReduce_reduce hnext, List.foldl_cons]
      exact ih _ h.tail

theorem OpTree.Reads.eval_eq_foldl {x : β} {chain : List (Op × β)} {t : OpTree Op β}
    (h : t.Reads level x chain)
    (hpairs : (chain.map Prod.fst).Pairwise fun a b => level b ≤ level a) :
    t.eval leaf mk = chain.foldl (fun left p => mk p.1 left (leaf p.2)) (leaf x) := by
  rw [← h.shiftReduce_eq]
  exact shiftReduce_eq_foldl _ _ hpairs.isChain

end ShiftReduce

end Lib
end Mkfli4l
