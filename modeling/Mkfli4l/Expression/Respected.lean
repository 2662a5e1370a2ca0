import Mkfli4l.Expression.Congruence

/-!
# Relations that the whole cycle respects

Reading, evaluating and writing call each other.  A reflexive relation between computations that sequencing
respects holds of all of them at every depth of the call stack, since it holds of their callees one level
deeper.

There are two relations of this kind.  A deeper call stack returns at least as much (`calls_below`).  And
without an array for the matched groups everything is the same up to the first match that succeeds
(`calls_upToMatch`).
-/

namespace Mkfli4l

open Lib Exec

/-! ### The array of the matched groups -/

section MatchArray

variable (D : Defs) (m : Option VarId)

theorem varSlotGetOrCreate_withMatchArray (depth : Nat) (inst : VarInstance) :
    varSlotGetOrCreate (D.withMatchArray m) depth inst = varSlotGetOrCreate D depth inst := by
  have hexpand : ∀ depth inst, varSlotExpand (D.withMatchArray m) depth inst = varSlotExpand D depth inst := by
    intro depth
    induction depth with
    | zero => exact fun _ => rfl
    | succ depth ih =>
        intro inst
        rw [varSlotExpand, varSlotExpand]
        simp only [ih]
        rfl
  have hbounds : ∀ level b, varNArray (D.withMatchArray m) level b = varNArray D level b := by
    intro level
    induction level with
    | zero => exact fun _ => rfl
    | succ level ih =>
        intro b
        cases b with
        | none => rfl
        | some b =>
            rw [varNArray, varNArray]
            simp only [ih]
            rfl
  unfold varSlotGetOrCreate expandBoundClients varSlotExpandClients
  simp only [hexpand, hbounds]
  rfl

theorem boundAbove_withMatchArray (steps : Nat) (b : Option VarId) :
    boundAbove (D.withMatchArray m) steps b = boundAbove D steps b := by
  induction steps generalizing b with
  | zero => cases b <;> rfl
  | succ steps ih =>
      cases b with
      | none => rfl
      | some b =>
          rw [boundAbove, boundAbove]
          simp only [ih]
          rfl

end MatchArray

/-! ### Relations -/

/-- The relation is reflexive, and sequencing respects it. -/
structure Respected (R : ∀ α : Type, SlotExec α → SlotExec α → Prop) : Prop where
  ofRefl : ∀ {α : Type} (x : SlotExec α), R α x x
  ofBind : ∀ {α β : Type} {x y : SlotExec α} {f g : α → SlotExec β},
    R α x y → (∀ a, R β (f a) (g a)) → R β (x >>= f) (y >>= g)

/-- The relation holds of what two records of callees do. -/
structure Callees.Related (R : ∀ α : Type, SlotExec α → SlotExec α → Prop) (D : Defs) (c c' : Callees) :
    Prop where
  exprEvaluate : ∀ e context, R _ (c.exprEvaluate e context) (c'.exprEvaluate e context)
  tryGetValue : ∀ inst, R _ (c.tryGetValue inst) (c'.tryGetValue inst)
  doSetValue : ∀ r, R _ (c.doSetValue r) (c'.doSetValue r)
  create : ∀ inst, R _ (varSlotGetOrCreate D c.depth inst) (varSlotGetOrCreate D c'.depth inst)

section Respected

variable {R : ∀ α : Type, SlotExec α → SlotExec α → Prop} (hR : Respected R) {D : Defs} {m : Option VarId}
  {c c' : Callees} (h : c.Related R D c')

include hR

theorem Respected.congruence : Congruence fun α x (y : Unit → SlotExec α) => R α x (y ()) where
  ofPure a := hR.ofRefl (pure a)
  ofNull _ := hR.ofRefl _
  ofBind hx hf := hR.ofBind hx hf

theorem Respected.forM {α : Type} {f g : α → SlotExec Unit} (l : List α) (hf : ∀ a, R _ (f a) (g a)) :
    R _ (forM l f) (forM l g) := by
  induction l with
  | nil => exact hR.ofRefl _
  | cons a l ih =>
      rw [List.forM_cons, List.forM_cons]
      exact hR.ofBind (hf a) fun _ => ih

omit hR in
theorem Respected.ite {α : Type} {p : Prop} {_ : Decidable p} {x x' y y' : SlotExec α} (hx : R α x y)
    (hx' : R α x' y') : R α (if p then x else x') (if p then y else y') := by
  split
  · exact hx
  · exact hx'

theorem Respected.growPath {v : VarId} {maxlevel : Nat} {f g : List UInt32 → SlotExec Unit}
    (hf : ∀ p, R _ (f p) (g p)) (done rest : List UInt32) :
    R _ (growPath v maxlevel f done rest) (growPath v maxlevel g done rest) := by
  induction rest generalizing done with
  | nil => exact hR.ofRefl _
  | cons i rest ih =>
      refine hR.ofBind (hR.ofRefl _) fun _ => hR.ofBind ?_ fun _ => ih _
      refine hR.ofBind (hR.ofRefl _) fun s => Respected.ite ?_ (hR.ofRefl _)
      exact hR.ofBind (hR.ofRefl _) fun _ => hf _

include h

/-! ### Reading -/

theorem Respected.ofIndicesInBounds (var : Var) (inst : VarInstance) :
    R _ (indicesInBounds D c var inst) (indicesInBounds (D.withMatchArray m) c' var inst) :=
  hR.congruence.ofIndicesInBounds (d := fun _ => c') (fun _ => hR.ofRefl _) h.tryGetValue var inst

theorem Respected.ofVarInstanceIsEnabled (inst : VarInstance) :
    R _ (varInstanceIsEnabled D c inst) (varInstanceIsEnabled (D.withMatchArray m) c' inst) :=
  hR.ofBind (h.exprEvaluate _ inst) fun _ => hR.ofRefl _

theorem Respected.ofVarSlotGetValue (inst : VarInstance) :
    R _ (varSlotGetValue D c inst) (varSlotGetValue (D.withMatchArray m) c' inst) := by
  have hcache : R _ (cacheDefault D c inst) (cacheDefault (D.withMatchArray m) c' inst) := by
    have hdef : (D.withMatchArray m).defValue = D.defValue := rfl
    unfold cacheDefault
    rw [hdef]
    cases D.defValue inst.var with
    | none => exact hR.ofRefl _
    | some e => exact hR.ofBind (h.exprEvaluate e inst) fun _ => hR.ofRefl _
  refine hR.ofBind (hR.ofRefl _) fun s => ?_
  cases (s.entry inst.var inst.indices).value with
  | some text => exact hR.ofRefl _
  | none =>
      refine hR.ofBind ?_ fun _ => hR.ofRefl _
      refine hR.ofBind (hR.ofRefl _) fun t => ?_
      cases (t.entry inst.var inst.indices).defValue with
      | some text => exact hR.ofRefl _
      | none => exact hR.ofBind hcache fun _ => hR.ofRefl _

theorem Respected.ofVarInstanceReadValue (inst : VarInstance) :
    R _ (varInstanceReadValue D c inst) (varInstanceReadValue (D.withMatchArray m) c' inst) := by
  refine hR.ofBind (hR.ofRefl _) fun var => ?_
  refine hR.ofBind (hR.ofIndicesInBounds h var inst) fun inside => Respected.ite ?_ (hR.ofRefl _)
  refine hR.ofBind (hR.ofRefl _) fun _ => ?_
  refine hR.ofBind (hR.ofRefl _) fun s => Respected.ite (hR.ofRefl _) ?_
  refine hR.ofBind (hR.ofRefl _) fun _ => ?_
  refine hR.ofBind (hR.ofVarInstanceIsEnabled h inst) fun enabled => ?_
  refine hR.ofBind (hR.ofRefl _) fun _ => ?_
  exact hR.ofBind (hR.ofVarSlotGetValue h inst) fun _ => hR.ofRefl _

theorem Respected.ofVarInstanceDoGetValue (inst : VarInstance) :
    R _ (varInstanceDoGetValue D c inst) (varInstanceDoGetValue (D.withMatchArray m) c' inst) := by
  refine hR.ofBind (hR.ofRefl _) fun var => Respected.ite (hR.ofRefl _) ?_
  refine hR.ofBind (hR.ofRefl _) fun s => ?_
  cases varInstanceGetSlotForReading s var inst with
  | none => exact hR.ofRefl _
  | some p => exact hR.ofBind (hR.ofVarInstanceReadValue h inst) fun _ => hR.ofRefl _

/-! ### Writing -/

theorem Respected.ofRaiseBound (var : Var) (inst : VarInstance) :
    R _ (raiseBound D c var inst) (raiseBound (D.withMatchArray m) c' var inst) := by
  unfold raiseBound
  cases inst.indices.getLast? with
  | none => exact hR.ofRefl _
  | some last =>
      refine hR.ofBind ?_ fun _ => hR.ofRefl _
      refine hR.ofBind (hR.ofRefl _) fun instN => ?_
      refine hR.ofBind (hR.congruence.ofReadArrayBound (d := fun _ => c') h.tryGetValue instN) fun bound => ?_
      cases bound with
      | none => exact hR.ofRefl _
      | some oldBound =>
          refine Respected.ite ?_ (hR.ofRefl _)
          refine hR.ofBind (h.doSetValue _) fun _ => ?_
          exact hR.ofBind (h.tryGetValue _) fun _ => hR.ofRefl _

theorem Respected.ofVarInstanceGetSlotForWriting (inst : VarInstance) (mode : AccessMode)
    (priority : Priority) (ignoreBasePriority : Bool) :
    R _ (varInstanceGetSlotForWriting D c inst mode priority ignoreBasePriority)
      (varInstanceGetSlotForWriting (D.withMatchArray m) c' inst mode priority ignoreBasePriority) := by
  refine hR.ofBind (hR.ofRefl _) fun var => Respected.ite (hR.ofRefl _) (Respected.ite (hR.ofRefl _) ?_)
  refine hR.ofBind (hR.ofRaiseBound h var inst) fun _ => hR.ofBind ?_ fun _ => hR.ofRefl _
  rw [varSlotGetOrCreate_withMatchArray]
  exact h.create inst

theorem Respected.ofCommit (var : Var) (r : SetRequest) :
    R _ (commit D c.depth var r) (commit (D.withMatchArray m) c'.depth var r) := by
  refine hR.ofBind ?_ fun _ => hR.ofRefl _
  cases r.value with
  | none => exact hR.ofRefl _
  | some value =>
      refine hR.ofBind (hR.ofRefl _) fun s => hR.ofBind (hR.ofRefl _) fun _ => Respected.ite ?_ (hR.ofRefl _)
      refine hR.forM _ fun client => ?_
      rw [varSlotGetOrCreate_withMatchArray]
      exact h.create _

theorem Respected.ofVarInstanceDoSetValue (r : SetRequest) :
    R _ (varInstanceDoSetValue D c r) (varInstanceDoSetValue (D.withMatchArray m) c' r) := by
  refine hR.ofBind (hR.ofRefl _) fun var => Respected.ite (hR.ofRefl _) ?_
  refine hR.ofBind (hR.ofVarInstanceGetSlotForWriting h r.inst r.mode r.priority r.ignoreBasePriority)
    fun access => ?_
  cases access with
  | invalid => exact hR.ofRefl _
  | rejected => exact hR.ofRefl _
  | granted =>
      refine hR.ofBind (hR.ofRefl _) fun ok => Respected.ite ?_ (hR.ofRefl _)
      exact hR.ofBind (hR.ofCommit h var r) fun _ => hR.ofRefl _

/-! ### Evaluating -/

theorem Respected.ofStoreMatches (k : VarId) (i : Nat) (texts : List CString) :
    R _ (storeMatches D c k i texts) (storeMatches (D.withMatchArray m) c' k i texts) := by
  induction texts generalizing i with
  | nil => exact hR.ofRefl _
  | cons text texts ih => exact hR.ofBind (hR.ofVarInstanceDoSetValue h _) fun _ => ih (i + 1)

theorem Respected.ofMatchLiterals
    (hm : m = D.matchArray ∨ m = none ∧ ∀ x : SlotExec Literal, R _ x (throw .definitionAdded))
    (val regex : CString) :
    R _ (matchLiterals D c val regex) (matchLiterals (D.withMatchArray m) c' val regex) := by
  have htypes : (D.withMatchArray m).types = D.types := rfl
  have harray : (D.withMatchArray m).matchArray = m := rfl
  unfold matchLiterals
  rw [htypes, harray]
  cases D.types.regexMatch regex val with
  | invalid => exact hR.ofRefl _
  | noMatch => exact hR.ofRefl _
  | groups texts =>
      rcases hm with rfl | ⟨rfl, hthrow⟩
      · cases D.matchArray with
        | none => exact hR.ofRefl _
        | some k =>
            refine hR.ofBind ?_ fun cleared => Respected.ite ?_ (hR.ofRefl _)
            · refine hR.ofBind (hR.ofRefl _) fun var => Respected.ite (hR.ofRefl _) ?_
              refine hR.ofBind (hR.ofVarInstanceGetSlotForWriting h _ _ _ _) fun access => ?_
              cases access with
              | invalid => exact hR.ofRefl _
              | rejected => exact hR.ofRefl _
              | granted =>
                  rw [boundAbove_withMatchArray]
                  refine hR.ofBind (hR.ofRefl _) fun _ => hR.ofBind (hR.ofRefl _) fun b => ?_
                  exact hR.ofBind (h.doSetValue _) fun _ => hR.ofRefl _
            · exact hR.ofBind (hR.ofStoreMatches h k 0 texts) fun _ => hR.ofRefl _
      · exact hthrow _

theorem Respected.ofExprEvaluate
    (hm : m = D.matchArray ∨ m = none ∧ ∀ x : SlotExec Literal, R _ x (throw .definitionAdded))
    (e : Expr) (context : VarInstance) :
    R _ (exprEvaluate D c e context) (exprEvaluate (D.withMatchArray m) c' e context) :=
  hR.congruence.ofExprEvaluate (d := fun _ => c') (m := fun _ => m) h.tryGetValue
    (fun _ => h.exprEvaluate _) e context (Or.inr (hR.ofMatchLiterals h hm))

end Respected

/-! ### Deeper call stacks -/

section Below

variable {D : Defs}

theorem respected_below : Respected fun _ => Exec.Below (ε := Fault) (σ := Slots) where
  ofRefl := Exec.Below.refl
  ofBind := Exec.Below.bind

theorem varSlotExpand_below {n n' : Nat} (hle : n ≤ n') (inst : VarInstance) :
    Exec.Below (varSlotExpand D n inst) (varSlotExpand D n' inst) := by
  induction n generalizing n' inst with
  | zero => exact fun _ _ h => (throw_ok_iff.mp h).elim
  | succ n ih =>
      obtain ⟨k, rfl⟩ : ∃ k, n' = k + 1 := ⟨n' - 1, by omega⟩
      refine Exec.Below.bind (Exec.Below.refl _) fun var => respected_below.growPath (fun _ => ?_) _ _
      exact respected_below.forM _ fun client => ih (by omega) _

theorem varSlotGetOrCreate_below {n n' : Nat} (hle : n ≤ n') (inst : VarInstance) :
    Exec.Below (varSlotGetOrCreate D n inst) (varSlotGetOrCreate D n' inst) := by
  refine Exec.Below.bind (Exec.Below.refl _) fun var => Exec.Below.bind (Exec.Below.refl _) fun bounds => ?_
  refine respected_below.growPath (fun indices => ?_) _ _
  unfold expandBoundClients
  cases bounds[indices.length - 1]? with
  | none => exact Exec.Below.refl _
  | some b =>
      refine Exec.Below.bind (Exec.Below.refl _) fun var => ?_
      exact respected_below.forM _ fun client => varSlotExpand_below hle _

theorem calls_below {n n' : Nat} (hle : n ≤ n') :
    (calls D n).Related (fun _ => Exec.Below) D (calls D n') := by
  induction n generalizing n' with
  | zero =>
      exact
        { exprEvaluate := fun _ _ _ _ h => (throw_ok_iff.mp h).elim
          tryGetValue := fun _ _ _ h => (throw_ok_iff.mp h).elim
          doSetValue := fun _ _ _ h => (throw_ok_iff.mp h).elim
          create := varSlotGetOrCreate_below (Nat.zero_le _) }
  | succ n ih =>
      obtain ⟨k, rfl⟩ : ∃ k, n' = k + 1 := ⟨n' - 1, by omega⟩
      have hcallees : (calls D n).Related (fun _ => Exec.Below) D (calls D k) := ih (by omega)
      exact
        { exprEvaluate := respected_below.ofExprEvaluate (m := D.matchArray) hcallees (Or.inl rfl)
          tryGetValue := respected_below.ofVarInstanceDoGetValue (m := D.matchArray) hcallees
          doSetValue := respected_below.ofVarInstanceDoSetValue (m := D.matchArray) hcallees
          create := varSlotGetOrCreate_below (by show n ≤ k; omega) }

end Below

/-! ### Matches that succeed -/

section UpToMatch

variable {D : Defs}

/-- The runs of `x` and `y` are the same unless `y` adds a variable. -/
def UpToMatch (α : Type) (x y : SlotExec α) : Prop := ∀ s, y s = .error .definitionAdded ∨ x s = y s

theorem respected_upToMatch : Respected UpToMatch where
  ofRefl x _ := Or.inr rfl
  ofBind := by
    intro α β x y f g hxy hfg s
    rw [bind_apply, bind_apply]
    rcases hxy s with hadded | hsame
    · exact Or.inl (by rw [hadded])
    · rw [hsame]
      cases y s with
      | error e => exact Or.inr rfl
      | ok r => exact hfg r.1 r.2

theorem calls_upToMatch (n : Nat) :
    (calls D n).Related UpToMatch D (calls (D.withMatchArray none) n) := by
  induction n with
  | zero => exact ⟨fun _ _ _ => Or.inr rfl, fun _ _ => Or.inr rfl, fun _ _ => Or.inr rfl, fun _ _ => Or.inr rfl⟩
  | succ n ih =>
      exact
        { exprEvaluate := respected_upToMatch.ofExprEvaluate ih (Or.inr ⟨rfl, fun _ _ => Or.inl rfl⟩)
          tryGetValue := respected_upToMatch.ofVarInstanceDoGetValue ih
          doSetValue := respected_upToMatch.ofVarInstanceDoSetValue ih
          create := fun _ _ => Or.inr rfl }

end UpToMatch

end Mkfli4l
