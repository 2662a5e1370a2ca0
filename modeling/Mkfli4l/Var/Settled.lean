import Mkfli4l.Var.Meaning

/-!
# Evaluations that do not depend on earlier ones

A variable on a dependency cycle has no meaning of its own, but reading it comes to an end:
`read_active` cuts the cycle where the read happens to enter it.  A default value that is
evaluated on the way and cached records where that was, so what a later read returns may
depend on the order of reads.

A store is settled if every default value that is still to be evaluated has a meaning.  In a
settled store nothing but meanings gets cached, and every evaluation, also one that runs into
a cycle, has the outcome that it has from the store itself (`calls_transfer`).  The outcome of
a boolean operator is then determined by the outcomes of its operands.
-/

namespace Mkfli4l

open Lib Exec

/-- Every default value that a read may have to evaluate has a meaning. -/
def DefaultsMeant (D : Defs) (s : Slots) : Prop :=
  ∀ inst var e, D.vars inst.var = some var → inst.indices.length = var.level →
    s.has inst.var inst.indices = true → (s.entry inst.var inst.indices).value = none →
    (s.entry inst.var inst.indices).defValue = none → D.defValue inst.var = some e →
    ∃ n lit, (meaning D s n).expr e inst = some lit

theorem DefaultsMeant.of_literals {D : Defs} (h : ∀ v e, D.defValue v = some e → ∃ value, e = .literal value)
    (s : Slots) : DefaultsMeant D s := by
  intro inst var e _ _ _ _ _ hdef
  obtain ⟨value, rfl⟩ := h inst.var e hdef
  exact ⟨1, value, rfl⟩

/-- No variable that is being read has a meaning. -/
def Unmeant (D : Defs) (s u : Slots) : Prop := ∀ n, NoneActive D s n u

theorem unmeant_self (D : Defs) (s : Slots) : Unmeant D s s := fun n => noneActive_self D s n

/-! ### The same outcome from every store -/

/-- Whatever `x` returns from a store of `I`, the computations `y` return from every store of
`I` if their depth suffices; both end in a store of `I`. -/
def Transfers {α : Type} (I : Slots → Prop) (x : SlotExec α) (y : Nat → SlotExec α) : Prop :=
  ∀ u, I u → ∀ a u', x u = .ok (a, u') →
    I u' ∧ ∀ w, I w → ∃ d₀ w', I w' ∧ ∀ d, d₀ ≤ d → y d w = .ok (a, w')

namespace Transfers

variable {α β : Type} {I : Slots → Prop}

theorem pure (a : α) : Transfers I (pure a) fun _ => pure a := by
  intro u hu b u' h
  obtain ⟨rfl, rfl⟩ := pure_ok_iff.mp h
  exact ⟨hu, fun w hw => ⟨0, w, hw, fun _ _ => rfl⟩⟩

theorem throw (e : Fault) {y : Nat → SlotExec α} : Transfers I (throw e) y :=
  fun _ _ _ _ h => (throw_ok_iff.mp h).elim

theorem bind {x : SlotExec α} {y : Nat → SlotExec α} {f : α → SlotExec β}
    {g : Nat → α → SlotExec β} (hx : Transfers I x y)
    (hf : ∀ a, Transfers I (f a) fun d => g d a) :
    Transfers I (x >>= f) fun d => y d >>= g d := by
  intro u hu b u'' h
  obtain ⟨a, u', hrun, hrest⟩ := bind_ok_iff.mp h
  obtain ⟨hu', hfirst⟩ := hx u hu a u' hrun
  obtain ⟨hu'', hsecond⟩ := hf a u' hu' b u'' hrest
  refine ⟨hu'', fun w hw => ?_⟩
  obtain ⟨d₁, w₁, hw₁, hrun₁⟩ := hfirst w hw
  obtain ⟨d₂, w₂, hw₂, hrun₂⟩ := hsecond w₁ hw₁
  refine ⟨max d₁ d₂, w₂, hw₂, fun d hd => ?_⟩
  show (y d >>= g d) w = _
  rw [bind_of_ok (hrun₁ d (by omega))]
  exact hrun₂ d (by omega)

theorem of_succ {x : SlotExec α} {y : Nat → SlotExec α}
    (h : Transfers I x fun d => y (d + 1)) : Transfers I x y := by
  intro u hu a u' hrun
  obtain ⟨hu', hall⟩ := h u hu a u' hrun
  refine ⟨hu', fun w hw => ?_⟩
  obtain ⟨d₀, w', hw', hrun'⟩ := hall w hw
  refine ⟨d₀ + 1, w', hw', fun d hd => ?_⟩
  obtain ⟨d', rfl⟩ : ∃ d', d = d' + 1 := ⟨d - 1, by omega⟩
  exact hrun' d' (by omega)

theorem ite {p : Prop} {_ : Decidable p} {x x' : SlotExec α} {y y' : Nat → SlotExec α}
    (hx : Transfers I x y) (hx' : Transfers I x' y') :
    Transfers I (if p then x else x') fun d => if p then y d else y' d := by
  by_cases hp : p
  · simpa only [if_pos hp] using hx
  · simpa only [if_neg hp] using hx'

theorem congruence (I : Slots → Prop) : Congruence fun _ => Transfers I where
  ofPure a := pure a
  ofNull _ := throw .nullPointer
  ofBind hx hf := bind hx hf

theorem deref_bind {D : Defs} {v : VarId} {f : Var → SlotExec β} {g : Nat → Var → SlotExec β}
    (hf : ∀ var, D.vars v = some var → Transfers I (f var) fun d => g d var) :
    Transfers I (D.deref v >>= f) fun d => D.deref v >>= g d := by
  unfold Defs.deref
  cases hvar : D.vars v with
  | none => exact throw _
  | some var => exact hf var hvar

end Transfers

/-- The outcomes of the callees transfer to deep enough call stacks. -/
structure Callees.Transfer (D : Defs) (I : Slots → Prop) (c : Callees) : Prop where
  exprEvaluate : ∀ e context, e.matchFree = true →
    Transfers I (c.exprEvaluate e context) fun d => (calls D d).exprEvaluate e context
  tryGetValue : ∀ inst, Transfers I (c.tryGetValue inst) fun d => (calls D d).tryGetValue inst

section transfer

variable {D : Defs} {I : Slots → Prop} {c : Callees} (h : c.Transfer D I)

include h

theorem indicesInBounds_transfers (var : Var) (inst : VarInstance) :
    Transfers I (indicesInBounds D c var inst) fun d =>
      indicesInBounds D (calls D d) var inst :=
  (Transfers.congruence I).ofIndicesInBounds (fun _ => Transfers.throw _) h.tryGetValue var inst

variable (hfree : D.MatchFree)

include hfree

theorem varInstanceIsEnabled_transfers (inst : VarInstance) :
    Transfers I (varInstanceIsEnabled D c inst) fun d =>
      varInstanceIsEnabled D (calls D d) inst :=
  Transfers.bind (h.exprEvaluate _ inst (hfree.1 _)) fun _ => Transfers.pure _

theorem exprEvaluate_transfers (e : Expr) (context : VarInstance) (hmatch : e.matchFree = true) :
    Transfers I (exprEvaluate D c e context) fun d => exprEvaluate D (calls D d) e context :=
  (Transfers.congruence I).ofExprEvaluate (m := fun _ => D.matchArray) h.tryGetValue
    (fun v context => h.exprEvaluate _ context (hfree.1 v)) e context (Or.inl hmatch)

end transfer

/-! ### Reading in a settled store -/

theorem Transfers.of_known {α : Type} {I : Slots → Prop} {x : Nat → SlotExec α}
    (hmono : ∀ d d', d ≤ d' → Exec.Below (x d) (x d')) {n : Nat} {a : α}
    (hknown : ∀ w, I w → ∃ w', x n w = .ok (a, w') ∧ I w') (d : Nat) : Transfers I (x d) x := by
  intro u hu b u' hrun
  obtain ⟨u'', hrun'', hu''⟩ := hknown u hu
  have hmax := hmono d (max d n) (Nat.le_max_left d n) hrun
  have hmax'' := hmono n (max d n) (Nat.le_max_right d n) hrun''
  obtain ⟨rfl, rfl⟩ := Prod.mk.inj (Except.ok.inj (hmax''.symm.trans hmax))
  refine ⟨hu'', fun w hw => ?_⟩
  obtain ⟨w', hrun', hw'⟩ := hknown w hw
  exact ⟨n, w', hw', fun d' hd' => hmono n d' hd' hrun'⟩

section meaning

variable {D : Defs} {s : Slots} (h : DefaultsMeant D s) {inst : VarInstance} {var : Var}
  (hvar : D.vars inst.var = some var) (hlen : inst.indices.length = var.level)
  (hhas : s.has inst.var inst.indices = true)

include h hvar hlen hhas

theorem DefaultsMeant.slotDefaultValue (hvalue : (s.entry inst.var inst.indices).value = none) :
    ∃ n text s', slotDefaultValue D (meaning D s n).callees inst s = .ok (text, s') := by
  have hget : (get : SlotExec Slots) s = .ok (s, s) := rfl
  unfold Mkfli4l.slotDefaultValue
  cases hold : (s.entry inst.var inst.indices).defValue with
  | some text =>
      refine ⟨0, some text, s, ?_⟩
      rw [bind_of_ok hget, hold]
      rfl
  | none =>
      have hcache : ∃ n s', cacheDefault D (meaning D s n).callees inst s = .ok ((), s') := by
        unfold cacheDefault
        cases hdef : D.defValue inst.var with
        | none => exact ⟨0, s, rfl⟩
        | some e =>
            obtain ⟨n, lit, hlit⟩ := h inst var e hvar hlen hhas hvalue hold hdef
            have heval : (meaning D s n).callees.exprEvaluate e inst s = .ok (lit, s) :=
              returnKnown_ok_iff.mpr ⟨hlit, rfl⟩
            have hslot : derefSlot inst.var inst.indices s = .ok ((), s) :=
              derefSlot_ok_iff.mpr ⟨hhas, rfl⟩
            refine ⟨n, ?_⟩
            dsimp only
            rw [bind_of_ok heval, bind_of_ok hslot]
            cases exprGetStringValue lit with
            | none => exact ⟨s, rfl⟩
            | some text => exact ⟨_, rfl⟩
      obtain ⟨n, s', hrun⟩ := hcache
      refine ⟨n, (s'.entry inst.var inst.indices).defValue, s', ?_⟩
      rw [bind_of_ok hget, hold]
      dsimp only
      rw [bind_of_ok hrun]
      rfl

theorem DefaultsMeant.varSlotGetValue :
    ∃ n value s', varSlotGetValue D (meaning D s n).callees inst s = .ok (value, s') := by
  have hget : (get : SlotExec Slots) s = .ok (s, s) := rfl
  unfold Mkfli4l.varSlotGetValue
  simp only [bind_of_ok hget]
  cases hvalue : (s.entry inst.var inst.indices).value with
  | some text => exact ⟨0, _, s, rfl⟩
  | none =>
      obtain ⟨n, text, s', hrun⟩ := h.slotDefaultValue hvar hlen hhas hvalue
      refine ⟨n, ?_⟩
      dsimp only
      rw [bind_of_ok hrun]
      exact ⟨_, _, rfl⟩

end meaning

section reading

variable {D : Defs} {s : Slots}

variable {u₀ : Slots}

theorem tryGetValue_transfers_of_meaning {n : Nat} {inst : VarInstance} {r : Option VarValue}
    (hunmeant : Unmeant D s u₀) (hmeaning : (meaning D s n).read inst = some r) (d : Nat) :
    Transfers (View D s u₀) ((calls D d).tryGetValue inst) fun d' =>
      (calls D d').tryGetValue inst := by
  have hreal := (calls_realize n u₀ (hunmeant n)).tryGetValue inst r s
    (returnKnown_ok_iff.mpr ⟨hmeaning, rfl⟩)
  exact Transfers.of_known (fun _ _ hle => (calls_below hle).tryGetValue inst) hreal.2 d

variable (hsettled : DefaultsMeant D s)

include hsettled

theorem varSlotGetValue_transfers {inst : VarInstance} {var : Var}
    (hunmeant : Unmeant D s u₀) (hvar : D.vars inst.var = some var)
    (hlen : inst.indices.length = var.level) (hhas : s.has inst.var inst.indices = true) (d : Nat) :
    Transfers (View D s u₀) (varSlotGetValue D (calls D d) inst) fun d' =>
      varSlotGetValue D (calls D d') inst := by
  obtain ⟨n, value, s', hmeaning⟩ := hsettled.varSlotGetValue hvar hlen hhas
  have hknown : ∀ w, View D s u₀ w → ∃ w',
      varSlotGetValue D (calls D n) inst w = .ok (value, w') ∧ View D s u₀ w' := by
    intro w hw
    exact varSlotGetValue_of_meaning (calls_realize n) (Sees.refl D s) rfl
      hmeaning hhas (hunmeant n) hw
  exact Transfers.of_known
    (fun _ _ hle => respected_below.ofVarSlotGetValue (m := D.matchArray) (calls_below hle) inst) hknown d

variable (hfree : D.MatchFree)

include hfree

theorem readCheckedValue_transfers {inst : VarInstance} {var : Var} {d : Nat}
    (hc : ∀ u₀, Unmeant D s u₀ → (calls D d).Transfer D (View D s u₀))
    (hunmeant : Unmeant D s u₀) (hnever : ∀ n, (meaning D s n).read inst = none)
    (hvar : D.vars inst.var = some var) (hlen : inst.indices.length = var.level) :
    Transfers (View D s u₀) (readCheckedValue D (calls D d) var inst) fun d' =>
      readCheckedValue D (calls D d') var inst := by
  intro u hu r u' hrun
  obtain ⟨hhas, hcases⟩ := readCheckedValue_cases hrun
  have hhasAll : ∀ {u₁ w : Slots}, View D s u₁ w → w.has inst.var inst.indices = true := by
    intro u₁ w hw
    rw [hw.1.has_eq, ← hu.1.has_eq]
    exact hhas
  have hflag : ∀ w, View D s u₀ w → (w.entry inst.var inst.indices).readActive =
      (u.entry inst.var inst.indices).readActive := by
    intro w hw
    rw [hw.2, hu.2]
  rcases hcases with ⟨hactive, rfl, rfl⟩ |
    ⟨hinactive, enabled, value, u₁, u₂, henabled, hvalue, rfl, rfl⟩
  · refine ⟨⟨hu.1.reportCycle, hu.2⟩, fun w hw => ⟨0, w.reportCycle, ⟨hw.1.reportCycle, hw.2⟩, ?_⟩⟩
    intro d' _
    exact readCheckedValue_of_active (hhasAll hw) ((hflag w hw).trans hactive)
  · -- the variable stays marked while its condition and its default value are evaluated
    have hmark : ∀ w, View D s u₀ w →
        View D s (u₀.updateEntry inst.var inst.indices fun e => { e with readActive := true })
          (w.updateEntry inst.var inst.indices fun e => { e with readActive := true }) :=
      fun w hw => hw.mark
    have hunmeant' : Unmeant D s
        (u₀.updateEntry inst.var inst.indices fun e => { e with readActive := true }) :=
      fun n => (hunmeant n).mark (hnever n)
    have hflag₀ : (u₀.entry inst.var inst.indices).readActive = false :=
      (hu.2 _ _).symm.trans hinactive
    obtain ⟨hu₁, hfirst⟩ := varInstanceIsEnabled_transfers (hc _ hunmeant') hfree inst
      _ (hmark u hu) enabled u₁ henabled
    obtain ⟨hu₂, hsecond⟩ := varSlotGetValue_transfers hsettled hunmeant' hvar hlen
      (by rw [← hu.1.has_eq]; exact hhas) d u₁ hu₁ value u₂ hvalue
    refine ⟨hu₂.unmark hflag₀, fun w hw => ?_⟩
    obtain ⟨d₁, w₁, hw₁, hrun₁⟩ := hfirst _ (hmark w hw)
    obtain ⟨d₂, w₂, hw₂, hrun₂⟩ := hsecond w₁ hw₁
    refine ⟨max d₁ d₂, _, hw₂.unmark hflag₀, fun d' hd' => ?_⟩
    exact readCheckedValue_of_inactive (hhasAll hw) ((hflag w hw).trans hinactive)
      (hrun₁ d' (by omega)) (hhasAll hw₁) (hrun₂ d' (by omega))

theorem varInstanceDoGetValue_transfers {inst : VarInstance} {d : Nat}
    (hc : ∀ u₀, Unmeant D s u₀ → (calls D d).Transfer D (View D s u₀))
    (hunmeant : Unmeant D s u₀) (hnever : ∀ n, (meaning D s n).read inst = none) :
    Transfers (View D s u₀) (varInstanceDoGetValue D (calls D d) inst) fun d' =>
      varInstanceDoGetValue D (calls D d') inst := by
  intro u hu r u' hrun
  obtain ⟨var, hvar, hcases⟩ := varInstanceDoGetValue_cases hrun
  rcases hcases with ⟨rfl, rfl, hmissing⟩ | ⟨r', hlen, hhas, hread, rfl⟩
  · refine ⟨hu, fun w hw => ⟨0, w, hw, fun d' _ => varInstanceDoGetValue_of_missing hvar ?_⟩⟩
    refine hmissing.imp_right fun hslot => ?_
    rw [hw.1.getSlot_eq, ← hu.1.getSlot_eq]
    exact hslot
  · have htransfer : Transfers (View D s u₀) (varInstanceReadValue D (calls D d) inst) fun d' =>
        varInstanceReadValue D (calls D d') inst := by
      refine Transfers.deref_bind fun var' hvar' => ?_
      obtain rfl : var = var' := Option.some.inj (hvar.symm.trans hvar')
      refine Transfers.bind (indicesInBounds_transfers (hc u₀ hunmeant) var inst) fun inside => ?_
      refine Transfers.ite ?_ (Transfers.pure none)
      exact readCheckedValue_transfers hsettled hfree hc hunmeant hnever hvar hlen
    obtain ⟨hu', hall⟩ := htransfer u hu r' u' hread
    refine ⟨hu', fun w hw => ?_⟩
    obtain ⟨d₀, w', hw', hrun'⟩ := hall w hw
    refine ⟨d₀, w', hw', fun d' hd' => varInstanceDoGetValue_of_slot hvar hlen ?_ (hrun' d' hd')⟩
    rw [hw.1.has_eq, ← hu.1.has_eq]
    exact hhas

end reading

section knot

variable {D : Defs} (hfree : D.MatchFree) {s : Slots} (hsettled : DefaultsMeant D s)

include hfree hsettled

theorem calls_transfer (d : Nat) : ∀ u₀, Unmeant D s u₀ →
    (calls D d).Transfer D (View D s u₀) := by
  induction d with
  | zero =>
      intro u₀ _
      exact ⟨fun _ _ _ => Transfers.throw _, fun _ => Transfers.throw _⟩
  | succ d ih =>
      intro u₀ hunmeant
      refine ⟨fun e context hmatch => ?_, fun inst => ?_⟩
      · exact (exprEvaluate_transfers (ih u₀ hunmeant) hfree e context hmatch).of_succ
      · by_cases hmeant : ∃ n r, (meaning D s n).read inst = some r
        · obtain ⟨n, r, hmeaning⟩ := hmeant
          exact tryGetValue_transfers_of_meaning hunmeant hmeaning (d + 1)
        · have hnever : ∀ n, (meaning D s n).read inst = none := by
            intro n
            cases hread : (meaning D s n).read inst with
            | none => rfl
            | some r => exact (hmeant ⟨n, r, hread⟩).elim
          exact (varInstanceDoGetValue_transfers hsettled hfree ih hunmeant hnever).of_succ

end knot

/-! ### Outcomes -/

/-- Evaluating the expression in the context comes back with the literal. -/
def Outcome (D : Defs) (s : Slots) (context : VarInstance) (e : Expr) (lit : Literal) : Prop :=
  ∃ d s', (calls D d).exprEvaluate e context s = .ok (lit, s')

/-- Evaluating the expression in the context comes back. -/
def ComesBack (D : Defs) (s : Slots) (context : VarInstance) (e : Expr) : Prop :=
  ∃ lit, Outcome D s context e lit

/-- Evaluating the expression in the context comes back with TRUE. -/
def Holds (D : Defs) (s : Slots) (context : VarInstance) (e : Expr) : Prop :=
  Outcome D s context e (.boolean true)

/-- Evaluating the expression in the context comes back with the literal and leaves the store `s'`. -/
def Yields (D : Defs) (s : Slots) (context : VarInstance) (e : Expr) (lit : Literal) (s' : Slots) : Prop :=
  ∃ d, (calls D d).exprEvaluate e context s = .ok (lit, s')

/-- What `&&` and `||` have in common: the second operand is evaluated if the value of the first
one is `go`. -/
def junction (go : Bool) (left right : SlotExec Literal) : SlotExec Literal := do
  let result ← left
  match exprGetBooleanValue result with
  | none => pure .error
  | some b =>
      if b = go then do
        let result' ← right
        pure (booleanLiteral result')
      else pure (.boolean b)

theorem exprEvaluate_and (D : Defs) (c : Callees) (left right : Expr) (context : VarInstance) :
    exprEvaluate D c (.logicalAnd left right) context =
      junction true (exprEvaluate D c left context) (exprEvaluate D c right context) := by
  rw [exprEvaluate, junction]
  congr 1
  funext result
  rcases exprGetBooleanValue result with _ | _ | _ <;> rfl

theorem exprEvaluate_or (D : Defs) (c : Callees) (left right : Expr) (context : VarInstance) :
    exprEvaluate D c (.logicalOr left right) context =
      junction false (exprEvaluate D c left context) (exprEvaluate D c right context) := by
  rw [exprEvaluate, junction]
  congr 1
  funext result
  rcases exprGetBooleanValue result with _ | _ | _ <;> rfl

variable {u : Slots}

section outcome

variable {D : Defs} {s s' : Slots} {context : VarInstance} {lit : Literal}

variable {e : Expr}

theorem Yields.outcome (h : Yields D s context e lit s') : Outcome D s context e lit := by
  obtain ⟨d, hrun⟩ := h
  exact ⟨d, s', hrun⟩

theorem Outcome.yields (h : Outcome D s context e lit) : ∃ s', Yields D s context e lit s' := by
  obtain ⟨d, s', hrun⟩ := h
  exact ⟨s', d, hrun⟩

theorem Holds.comesBack (h : Holds D s context e) : ComesBack D s context e := ⟨_, h⟩

theorem yields_iff :
    Yields D s context e lit s' ↔ ∃ d, exprEvaluate D (calls D d) e context s = .ok (lit, s') := by
  constructor
  · rintro ⟨d, hrun⟩
    exact ⟨d, (calls_below (Nat.le_succ d)).exprEvaluate e context hrun⟩
  · rintro ⟨d, hrun⟩
    exact ⟨d + 1, hrun⟩

theorem Yields.unique {lit' : Literal} {s'' : Slots} (h : Yields D s context e lit s')
    (h' : Yields D s context e lit' s'') : lit = lit' ∧ s' = s'' := by
  obtain ⟨d, hrun⟩ := h
  obtain ⟨d', hrun'⟩ := h'
  have hmax := (calls_below (Nat.le_max_left d d')).exprEvaluate e context hrun
  have hmax' := (calls_below (Nat.le_max_right d d')).exprEvaluate e context hrun'
  exact Prod.mk.inj (Except.ok.inj (hmax.symm.trans hmax'))

theorem Outcome.unique {lit' : Literal} (h : Outcome D s context e lit)
    (h' : Outcome D s context e lit') : lit = lit' := by
  obtain ⟨s₁, h⟩ := h.yields
  obtain ⟨s₂, h'⟩ := h'.yields
  exact (h.unique h').1

theorem yields_literal_iff {value : Literal} :
    Yields D s context (.literal value) lit s' ↔ lit = value ∧ s' = s := by
  rw [yields_iff]
  constructor
  · rintro ⟨d, hrun⟩
    obtain ⟨rfl, rfl⟩ := pure_ok_iff.mp hrun
    exact ⟨rfl, rfl⟩
  · rintro ⟨rfl, rfl⟩
    exact ⟨0, rfl⟩

theorem yields_tobool_iff {arg : Expr} :
    Yields D s context (.tobool arg) lit s' ↔ ∃ result, Yields D s context arg result s' ∧
      lit = .boolean ((exprGetBooleanValue result).getD false) := by
  rw [yields_iff]
  constructor
  · rintro ⟨d, hrun⟩
    obtain ⟨result, s₁, harg, hrest⟩ := bind_ok_iff.mp hrun
    obtain ⟨rfl, rfl⟩ := pure_ok_iff.mp hrest
    exact ⟨result, yields_iff.mpr ⟨d, harg⟩, rfl⟩
  · rintro ⟨result, harg, rfl⟩
    obtain ⟨d, hrun⟩ := yields_iff.mp harg
    exact ⟨d, bind_ok_iff.mpr ⟨result, s', hrun, rfl⟩⟩

/-- The outcome of `&&` or `||`: the second operand is evaluated in the store that the first one leaves. -/
theorem yields_junction_iff {go : Bool} {left right : Expr} (heval : ∀ c, exprEvaluate D c e context =
      junction go (exprEvaluate D c left context) (exprEvaluate D c right context)) :
    Yields D s context e lit s' ↔ ∃ result s₁, Yields D s context left result s₁ ∧
      ((exprGetBooleanValue result = none ∧ lit = .error ∧ s' = s₁) ∨
        (exprGetBooleanValue result = some (!go) ∧ lit = .boolean !go ∧ s' = s₁) ∨
        (exprGetBooleanValue result = some go ∧ ∃ result', Yields D s₁ context right result' s' ∧
          lit = booleanLiteral result')) := by
  rw [yields_iff]
  constructor
  · rintro ⟨d, hrun⟩
    rw [heval] at hrun
    obtain ⟨result, s₁, hrunl, hrest⟩ := bind_ok_iff.mp hrun
    refine ⟨result, s₁, yields_iff.mpr ⟨d, hrunl⟩, ?_⟩
    cases hbool : exprGetBooleanValue result with
    | none =>
        rw [hbool] at hrest
        obtain ⟨rfl, rfl⟩ := pure_ok_iff.mp hrest
        exact Or.inl ⟨rfl, rfl, rfl⟩
    | some b =>
        rw [hbool] at hrest
        dsimp only at hrest
        by_cases hb : b = go
        · subst hb
          rw [if_pos rfl] at hrest
          obtain ⟨result', s₂, hrunr, hrest⟩ := bind_ok_iff.mp hrest
          obtain ⟨rfl, rfl⟩ := pure_ok_iff.mp hrest
          exact Or.inr (Or.inr ⟨rfl, result', yields_iff.mpr ⟨d, hrunr⟩, rfl⟩)
        · obtain rfl : b = !go := Bool.eq_not.mpr hb
          rw [if_neg hb] at hrest
          obtain ⟨rfl, rfl⟩ := pure_ok_iff.mp hrest
          exact Or.inr (Or.inl ⟨rfl, rfl, rfl⟩)
  · rintro ⟨result, s₁, hleft, hcases⟩
    obtain ⟨d₁, hrunl⟩ := yields_iff.mp hleft
    rcases hcases with ⟨hbool, rfl, rfl⟩ | ⟨hbool, rfl, rfl⟩ | ⟨hbool, result', hright, rfl⟩
    · refine ⟨d₁, ?_⟩
      rw [heval]
      refine bind_ok_iff.mpr ⟨result, s', hrunl, ?_⟩
      rw [hbool]
      rfl
    · refine ⟨d₁, ?_⟩
      rw [heval]
      refine bind_ok_iff.mpr ⟨result, s', hrunl, ?_⟩
      rw [hbool]
      cases go <;> rfl
    · -- both operands come back at the larger of their depths
      obtain ⟨d₂, hrunr⟩ := yields_iff.mp hright
      have hdeep : ∀ {d e lit s s'}, d ≤ max d₁ d₂ → exprEvaluate D (calls D d) e context s = .ok (lit, s') →
          exprEvaluate D (calls D (max d₁ d₂)) e context s = .ok (lit, s') := fun hle hrun =>
        respected_below.ofExprEvaluate (m := D.matchArray) (calls_below hle) (Or.inl rfl) _ context hrun
      refine ⟨max d₁ d₂, ?_⟩
      rw [heval]
      refine bind_ok_iff.mpr ⟨result, s₁, hdeep (Nat.le_max_left _ _) hrunl, ?_⟩
      rw [hbool]
      dsimp only
      rw [if_pos rfl]
      exact bind_ok_iff.mpr ⟨result', s', hdeep (Nat.le_max_right _ _) hrunr, rfl⟩

/-! In a settled store without matches, an evaluation has the same outcome wherever it is repeated. -/

variable (hfree : D.MatchFree) (hsettled : DefaultsMeant D s)

include hfree hsettled

theorem Outcome.everywhere (hmatch : e.matchFree = true) (h : Outcome D s context e lit)
    (hu : View D s s u) : Outcome D u context e lit := by
  obtain ⟨d, s₁, hrun⟩ := h
  have htransfer := (calls_transfer hfree hsettled d s (unmeant_self D s)).exprEvaluate e context hmatch
  obtain ⟨d₀, u', -, hrun'⟩ := (htransfer s ⟨Sees.refl D s, fun _ _ => rfl⟩ lit s₁ hrun).2 u hu
  exact ⟨d₀, u', hrun' d₀ le_rfl⟩

theorem Yields.of_view (hmatch : e.matchFree = true) {u' : Slots} (hu : View D s s u)
    (h : Yields D u context e lit u') : Outcome D s context e lit ∧ View D s s u' := by
  obtain ⟨d, hrun⟩ := h
  have htransfer := (calls_transfer hfree hsettled d s (unmeant_self D s)).exprEvaluate e context hmatch
  obtain ⟨hu', hall⟩ := htransfer u hu lit u' hrun
  obtain ⟨d₀, s₁, -, hrun'⟩ := hall s ⟨Sees.refl D s, fun _ _ => rfl⟩
  exact ⟨⟨d₀, s₁, hrun' d₀ le_rfl⟩, hu'⟩

theorem outcome_view_iff (hmatch : e.matchFree = true) (hu : View D s s u) :
    Outcome D u context e lit ↔ Outcome D s context e lit := by
  constructor
  · intro h
    obtain ⟨u', h⟩ := h.yields
    exact (h.of_view hfree hsettled hmatch hu).1
  · exact fun h => h.everywhere hfree hsettled hmatch hu

end outcome

/-! ### Questions in any order

Reading writes to the store: it caches default values and marks what is being read.  In a settled
store nobody can tell, also where conditions depend on each other.
-/

/-- What may be asked about an instance: its value, or whether it is enabled. -/
inductive Query
  | value (inst : VarInstance)
  | enabled (inst : VarInstance)
deriving DecidableEq

/-- A value that has been read, or whether the instance is enabled. -/
abbrev Answer := Option VarValue ⊕ Bool

/-- Ask a question. -/
def Query.ask (D : Defs) (c : Callees) : Query → SlotExec Answer
  | value inst => do
      let r ← c.tryGetValue inst
      pure (.inl r)
  | enabled inst => do
      let r ← varInstanceIsEnabled D c inst
      pure (.inr r)

/-- The store answers the question. -/
def Answers (D : Defs) (s : Slots) (q : Query) (a : Answer) : Prop :=
  ∃ depth s', q.ask D (calls D depth) s = .ok (a, s')

/-- Questions asked one after the other, and their answers, the last one first. -/
inductive QueryRun (D : Defs) (s : Slots) : List (Query × Answer) → Slots → Prop
  | start : QueryRun D s [] s
  | ask {log : List (Query × Answer)} {u u' : Slots} {depth : Nat} {q : Query}
      {a : Answer} (h : QueryRun D s log u)
      (hask : q.ask D (calls D depth) u = .ok (a, u')) : QueryRun D s ((q, a) :: log) u'

section settled

variable {D : Defs} (hfree : D.MatchFree) {s : Slots} (hsettled : DefaultsMeant D s)

include hfree hsettled

theorem Query.ask_transfers (q : Query) (d : Nat) :
    Transfers (View D s s) (q.ask D (calls D d)) fun d' => q.ask D (calls D d') := by
  have htransfer := calls_transfer hfree hsettled d s (unmeant_self D s)
  cases q with
  | value inst => exact Transfers.bind (htransfer.tryGetValue inst) fun _ => Transfers.pure _
  | enabled inst =>
      exact Transfers.bind (varInstanceIsEnabled_transfers htransfer hfree inst) fun _ =>
        Transfers.pure _

theorem Answers.of_view {q : Query} {a : Answer} {w : Slots}
    (h : Answers D u q a) (hu : View D s s u) (hw : View D s s w) : Answers D w q a := by
  obtain ⟨d, u', hask⟩ := h
  obtain ⟨-, hall⟩ := q.ask_transfers hfree hsettled d u hu a u' hask
  obtain ⟨d₀, w', -, hask'⟩ := hall w hw
  exact ⟨d₀, w', hask' d₀ le_rfl⟩

theorem Answers.unique {q : Query} {a a' : Answer} (h : Answers D s q a)
    (h' : Answers D s q a') : a = a' := by
  have hview : View D s s s := ⟨Sees.refl D s, fun _ _ => rfl⟩
  obtain ⟨d, u, hask⟩ := h
  obtain ⟨d', u', hask'⟩ := h'
  obtain ⟨d₁, w, -, hall⟩ := (q.ask_transfers hfree hsettled d s hview a u hask).2 s hview
  obtain ⟨d₂, w', -, hall'⟩ := (q.ask_transfers hfree hsettled d' s hview a' u' hask').2 s hview
  have heq := (hall (max d₁ d₂) (Nat.le_max_left _ _)).symm.trans
    (hall' (max d₁ d₂) (Nat.le_max_right _ _))
  exact (Prod.mk.inj (Except.ok.inj heq)).1

theorem QueryRun.view {log : List (Query × Answer)}
    (h : QueryRun D s log u) : View D s s u ∧ ∀ q a, (q, a) ∈ log → Answers D s q a := by
  have hview : View D s s s := ⟨Sees.refl D s, fun _ _ => rfl⟩
  induction h with
  | start => exact ⟨hview, fun _ _ hmem => absurd hmem List.not_mem_nil⟩
  | @ask log u u' depth q a _ hask ih =>
      refine ⟨(q.ask_transfers hfree hsettled depth u ih.1 a u' hask).1, ?_⟩
      intro q' a' hmem
      rcases List.mem_cons.mp hmem with heq | hmem
      · obtain ⟨rfl, rfl⟩ := Prod.mk.inj heq
        exact Answers.of_view hfree hsettled ⟨depth, u', hask⟩ ih.1 hview
      · exact ih.2 q' a' hmem

end settled

end Mkfli4l
