import Mkfli4l.Expression.Congruence

/-!
# The effects of reading and writing

Reading, writing and evaluating call each other, and every invariant of the slots
has to be carried through all of them.  This module says once what the calls can do
to the slots.  A `Move` is one elementary change: caching a default value, marking a
slot as being read, reporting a cycle, creating slots, committing a granted write
request, clearing the array of matched groups.  Every call that comes back has made
a sequence of moves, in which the committed requests are those the program makes on
its own account, followed by the commit of the caller's request if there is one.
-/

namespace Mkfli4l

open Lib Exec Relation

/-- `text` is what the default value of `inst` evaluates to in some state. -/
def DefaultText (D : Defs) (inst : VarInstance) (text : CString) : Prop :=
  ∃ (depth : Nat) (e : Expr) (lit : Literal) (s s' : Slots), D.defValue inst.var = some e ∧
    (calls D depth).exprEvaluate e inst s = .ok (lit, s') ∧ exprGetStringValue lit = some text

/-- The checks that a write request has passed when the slot is changed. -/
structure Granted (D : Defs) (s : Slots) (r : SetRequest) (var : Var) : Prop where
  var_eq : D.vars r.inst.var = some var
  length_eq : r.inst.indices.length = var.level
  has : s.has r.inst.var r.inst.indices = true
  base : r.ignoreBasePriority = true ∨ var.priority ≤ r.priority
  admits : r.mode.admits r.priority (s.entry r.inst.var r.inst.indices).priority = true
  conforms : r.check = true → ∃ text, r.value = some text ∧
    D.types.vartypeMatch var.type text = true

/-- An internal update of an array bound variable. -/
def BoundUpdate (D : Defs) (r : SetRequest) : Prop :=
  ∃ (instN : VarInstance) (newBound : Int), r = boundRequest instN newBound ∧
    ∃ v var, D.vars v = some var ∧ var.varN = some instN.var

/-- A write to the array of matched groups. -/
def MatchWrite (D : Defs) (r : SetRequest) : Prop :=
  ∃ m i text, D.matchArray = some m ∧
    r = ⟨⟨m, [i]⟩, some text, none, .weak, .scriptTransient, true, false⟩

/-- The write requests that the program makes on its own account. -/
def Internal (D : Defs) (r : SetRequest) : Prop := BoundUpdate D r ∨ MatchWrite D r

/-- One elementary change of the slots, where committed write requests satisfy `A`. -/
inductive Move (D : Defs) (A : SetRequest → Prop) : Slots → Slots → Prop
  | cacheDefault {s : Slots} {inst : VarInstance} {text : CString}
      (hhas : s.has inst.var inst.indices = true) (htext : DefaultText D inst text) :
      Move D A s (s.updateEntry inst.var inst.indices fun e => { e with defValue := some text })
  | readActive {s : Slots} (inst : VarInstance) (active : Bool) :
      Move D A s (s.updateEntry inst.var inst.indices fun e => { e with readActive := active })
  | cycle {s : Slots} : Move D A s s.reportCycle
  | create {s s' : Slots} (hgrows : s.Grows D s') : Move D A s s'
  | write {s s' : Slots} {r : SetRequest} {var : Var} {depth : Nat} (hallowed : A r)
      (hgranted : Granted D s r var) (hcommit : commit D depth var r s = .ok ((), s')) :
      Move D A s s'
  | clear {s : Slots} {m : VarId} (hmatch : D.matchArray = some m) :
      Move D A s (s.clearArray m [])

/-- A sequence of moves. -/
abbrev Moves (D : Defs) (A : SetRequest → Prop) : Slots → Slots → Prop :=
  ReflTransGen (Move D A)

/-- A sequence of moves without a request of the caller. -/
abbrev InternalMoves (D : Defs) : Slots → Slots → Prop := Moves D (Internal D)

/-- Computations whose successful runs are sequences of moves. -/
abbrev MovesOnly (D : Defs) {α : Type} (x : SlotExec α) : Prop := Exec.Steps (InternalMoves D) x

variable {s s' : Slots} {inst : VarInstance}

theorem Moves.mono {D : Defs} {A B : SetRequest → Prop} (hAB : ∀ r, A r → B r)
    (h : Moves D A s s') : Moves D B s s' := by
  refine ReflTransGen.mono (fun s t hmove => ?_) _ _ h
  cases hmove with
  | cacheDefault hhas htext => exact Move.cacheDefault hhas htext
  | readActive inst active => exact Move.readActive inst active
  | cycle => exact Move.cycle
  | create hgrows => exact Move.create hgrows
  | write hallowed hgranted hcommit => exact Move.write (hAB _ hallowed) hgranted hcommit
  | clear hmatch => exact Move.clear hmatch

namespace MovesOnly

variable {D : Defs} {α β : Type}

theorem pure (a : α) : MovesOnly D (pure a) :=
  Exec.Steps.pure (fun _ => ReflTransGen.refl) a

theorem get : MovesOnly D (get : SlotExec Slots) :=
  Exec.Steps.get fun _ => ReflTransGen.refl

theorem throw (e : Fault) : MovesOnly D (throw e : SlotExec α) := Exec.Steps.throw e

theorem modify {f : Slots → Slots} (hf : ∀ s, Move D (Internal D) s (f s)) :
    MovesOnly D (modify f : SlotExec PUnit) :=
  Exec.Steps.modify fun s => ReflTransGen.single (hf s)

theorem bind {x : SlotExec α} {f : α → SlotExec β} (hx : MovesOnly D x)
    (hf : ∀ a, MovesOnly D (f a)) : MovesOnly D (x >>= f) :=
  Exec.Steps.bind (fun _ _ _ h h' => h.trans h') hx hf

theorem of_creates {x : SlotExec α} (hx : CreatesOnly D x) : MovesOnly D x :=
  Exec.Steps.mono hx fun _ _ h => ReflTransGen.single (Move.create h)

theorem ite {p : Prop} {_ : Decidable p} {x y : SlotExec α} (hx : MovesOnly D x)
    (hy : MovesOnly D y) : MovesOnly D (if p then x else y) := by
  split
  · exact hx
  · exact hy

theorem congruence (D : Defs) : Congruence fun _ x (_ : Unit → _) => MovesOnly D x :=
  Exec.Steps.congruence (fun _ => ReflTransGen.refl) fun _ _ _ h h' => h.trans h'

theorem deref (v : VarId) : MovesOnly D (D.deref v) := of_creates (Defs.deref_creates v)

theorem derefSlot (v : VarId) (p : List UInt32) : MovesOnly D (derefSlot v p) :=
  of_creates (derefSlot_creates v p)

end MovesOnly

/-- What the callees have to satisfy: everything they do is a sequence of moves, and the
results of evaluations are results of the program's evaluations. -/
structure Callees.Sound (D : Defs) (c : Callees) : Prop where
  exprEvaluate : ∀ e context, MovesOnly D (c.exprEvaluate e context)
  tryGetValue : ∀ inst, MovesOnly D (c.tryGetValue inst)
  doSetValue : ∀ r, Internal D r → MovesOnly D (c.doSetValue r)
  evaluates : ∀ e context s lit s', c.exprEvaluate e context s = .ok (lit, s') →
    ∃ depth, (calls D depth).exprEvaluate e context s = .ok (lit, s')

section reading

variable {D : Defs} {c : Callees} (hc : c.Sound D)

theorem boundInstance_ok {instN : VarInstance} {varN : Option VarId}
    (h : boundInstance D inst varN s = .ok (instN, s')) :
    ∃ b var, varN = some b ∧ D.vars b = some var ∧ var.level ≤ inst.indices.length ∧
      instN = ⟨b, inst.indices.take var.level⟩ ∧ s' = s := by
  cases varN with
  | none => exact (throw_ok_iff.mp h).elim
  | some b =>
      obtain ⟨var, s₁, hderef, hrun⟩ := bind_ok_iff.mp h
      obtain ⟨hvar, rfl⟩ := Defs.deref_ok_iff.mp hderef
      split at hrun
      · exact (throw_ok_iff.mp hrun).elim
      · next hlen =>
          obtain ⟨rfl, rfl⟩ := pure_ok_iff.mp hrun
          exact ⟨b, var, rfl, hvar, Nat.not_lt.mp hlen, rfl, rfl⟩

include hc

theorem readArrayBound_moves (instN : VarInstance) : MovesOnly D (readArrayBound c instN) :=
  (MovesOnly.congruence D).ofReadArrayBound (d := fun _ => c) hc.tryGetValue instN

theorem varInstanceIsEnabled_moves (inst : VarInstance) :
    MovesOnly D (varInstanceIsEnabled D c inst) :=
  MovesOnly.bind (hc.exprEvaluate _ inst) fun _ => MovesOnly.pure _

theorem cacheDefault_moves (inst : VarInstance) : MovesOnly D (cacheDefault D c inst) := by
  intro s u s' h
  rcases cacheDefault_cases h with ⟨-, rfl⟩ | ⟨e, lit, s₁, hdef, heval, hhas, hcached⟩
  · exact ReflTransGen.refl
  · refine (hc.exprEvaluate e inst heval).trans ?_
    rcases hcached with ⟨-, rfl⟩ | ⟨text, htext, rfl⟩
    · exact ReflTransGen.refl
    · obtain ⟨depth, hdepth⟩ := hc.evaluates e inst s lit _ heval
      exact ReflTransGen.single
        (Move.cacheDefault hhas ⟨depth, e, lit, s, _, hdef, hdepth, htext⟩)

theorem slotDefaultValue_moves (inst : VarInstance) :
    MovesOnly D (slotDefaultValue D c inst) := by
  refine MovesOnly.bind MovesOnly.get fun s => ?_
  cases (s.entry inst.var inst.indices).defValue with
  | some text => exact MovesOnly.pure _
  | none =>
      refine MovesOnly.bind (cacheDefault_moves hc inst) fun _ => ?_
      exact MovesOnly.bind MovesOnly.get fun _ => MovesOnly.pure _

theorem varSlotGetValue_moves (inst : VarInstance) : MovesOnly D (varSlotGetValue D c inst) := by
  refine MovesOnly.bind MovesOnly.get fun s => ?_
  cases (s.entry inst.var inst.indices).value with
  | some text => exact MovesOnly.pure _
  | none => exact MovesOnly.bind (slotDefaultValue_moves hc inst) fun _ => MovesOnly.pure _

omit hc in
theorem setReadActive_moves (inst : VarInstance) (active : Bool) :
    MovesOnly D (setReadActive inst active) :=
  MovesOnly.modify fun _ => Move.readActive inst active

theorem readCheckedValue_moves (var : Var) (inst : VarInstance) :
    MovesOnly D (readCheckedValue D c var inst) := by
  refine MovesOnly.bind (MovesOnly.derefSlot _ _) fun _ => ?_
  refine MovesOnly.bind MovesOnly.get fun s => MovesOnly.ite ?_ ?_
  · exact MovesOnly.bind (MovesOnly.modify fun _ => Move.cycle) fun _ => MovesOnly.pure _
  · refine MovesOnly.bind (setReadActive_moves inst true) fun _ => ?_
    refine MovesOnly.bind (varInstanceIsEnabled_moves hc inst) fun enabled => ?_
    refine MovesOnly.bind (MovesOnly.derefSlot _ _) fun _ => ?_
    refine MovesOnly.bind (varSlotGetValue_moves hc inst) fun result => ?_
    exact MovesOnly.bind (setReadActive_moves inst false) fun _ => MovesOnly.pure _

theorem indicesInBounds_moves (var : Var) (inst : VarInstance) :
    MovesOnly D (indicesInBounds D c var inst) :=
  (MovesOnly.congruence D).ofIndicesInBounds (d := fun _ => c) (fun _ => MovesOnly.throw _)
    hc.tryGetValue var inst

theorem varInstanceReadValue_moves (inst : VarInstance) :
    MovesOnly D (varInstanceReadValue D c inst) := by
  refine MovesOnly.bind (MovesOnly.deref _) fun var => ?_
  refine MovesOnly.bind (indicesInBounds_moves hc var inst) fun inside => ?_
  exact MovesOnly.ite (readCheckedValue_moves hc var inst) (MovesOnly.pure none)

theorem varInstanceDoGetValue_moves (inst : VarInstance) :
    MovesOnly D (varInstanceDoGetValue D c inst) := by
  refine MovesOnly.bind (MovesOnly.deref _) fun var => MovesOnly.ite (MovesOnly.pure none) ?_
  refine MovesOnly.bind MovesOnly.get fun s => ?_
  cases varInstanceGetSlotForReading s var inst with
  | none => exact MovesOnly.pure none
  | some p => exact MovesOnly.bind (varInstanceReadValue_moves hc inst) fun _ => MovesOnly.pure _

end reading

section writing

variable {D : Defs} {c : Callees}

variable {var : Var} {r : SetRequest} {mode : AccessMode} {priority : Priority} {access : SlotAccess}
  {ignoreBase : Bool}

theorem commit_ok {depth : Nat} (h : commit D depth var r s = .ok ((), s')) :
    ∃ s₁, storeOptionalValue D depth var r.inst r.value s = .ok ((), s₁) ∧
      s' = s₁.updateEntry r.inst.var r.inst.indices fun e =>
        { e with extra := r.extra.or e.extra, priority := r.priority } := by
  obtain ⟨_, s₁, hstore, hrun⟩ := bind_ok_iff.mp h
  exact ⟨s₁, hstore, (modify_ok_iff.mp hrun).symm⟩

theorem conforms_ok {ok : Bool} (h : conforms D var r s = .ok (ok, s')) :
    s' = s ∧ (ok = true ↔ (r.check = true → ∃ text, r.value = some text ∧
      D.types.vartypeMatch var.type text = true)) := by
  obtain ⟨inst, value, extra, mode, priority, check, ignoreBase⟩ := r
  cases check with
  | false =>
      obtain ⟨rfl, rfl⟩ := pure_ok_iff.mp h
      exact ⟨rfl, fun _ hcheck => (nomatch hcheck), fun _ => rfl⟩
  | true =>
      cases value with
      | none => exact (throw_ok_iff.mp h).elim
      | some text =>
          obtain ⟨rfl, rfl⟩ := pure_ok_iff.mp h
          refine ⟨rfl, fun hok _ => ⟨text, rfl, hok⟩, fun hmatch => ?_⟩
          obtain ⟨text', htext', hok⟩ := hmatch rfl
          obtain rfl := Option.some.inj htext'
          exact hok

/-- What raising the bound of an array does: nothing without indices; otherwise the bound is
read and, if it is too small, written and read again. -/
theorem raiseBound_cases {u : Unit} (h : raiseBound D c var inst s = .ok (u, s')) :
    (inst.indices = [] ∧ s' = s) ∨
      ∃ last b varN bound s₁, inst.indices.getLast? = some last ∧ var.varN = some b ∧
        D.vars b = some varN ∧ varN.level ≤ inst.indices.length ∧
        readArrayBound c ⟨b, inst.indices.take varN.level⟩ s = .ok (bound, s₁) ∧
        (((∀ old, bound = some old → uint32ToInt (last + 1) ≤ old) ∧ s' = s₁) ∨
          ∃ old res s₂ value, bound = some old ∧ old < uint32ToInt (last + 1) ∧
            c.doSetValue (boundRequest ⟨b, inst.indices.take varN.level⟩
              (uint32ToInt (last + 1))) s₁ = .ok (res, s₂) ∧
            c.tryGetValue ⟨b, inst.indices.take varN.level⟩ s₂ = .ok (value, s')) := by
  unfold raiseBound at h
  cases hlast : inst.indices.getLast? with
  | none =>
      rw [hlast] at h
      obtain ⟨-, rfl⟩ := pure_ok_iff.mp h
      exact Or.inl ⟨List.getLast?_eq_none_iff.mp hlast, rfl⟩
  | some last =>
      rw [hlast] at h
      obtain ⟨_, t, hupdate, hrun⟩ := bind_ok_iff.mp h
      obtain ⟨-, rfl⟩ := pure_ok_iff.mp hrun
      obtain ⟨instN, s₀, hinst, hread⟩ := bind_ok_iff.mp hupdate
      obtain ⟨b, varN, hb, hvarN, hlen, rfl, rfl⟩ := boundInstance_ok hinst
      obtain ⟨bound, s₁, hbound, hraise⟩ := bind_ok_iff.mp hread
      refine Or.inr ⟨last, b, varN, bound, s₁, rfl, hb, hvarN, hlen, hbound, ?_⟩
      cases bound with
      | none =>
          obtain ⟨-, rfl⟩ := pure_ok_iff.mp hraise
          exact Or.inl ⟨fun old hold => (nomatch hold), rfl⟩
      | some old =>
          by_cases hless : old < uint32ToInt (last + 1)
          · simp only [if_pos hless] at hraise
            obtain ⟨res, s₂, hset, hraise⟩ := bind_ok_iff.mp hraise
            obtain ⟨value, s₃, hget, hraise⟩ := bind_ok_iff.mp hraise
            have hsame : s₃ = t := by
              rcases value with _ | ⟨_ | text, _, _, _⟩
              · exact (pure_ok_iff.mp hraise).2
              · exact (throw_ok_iff.mp hraise).elim
              · exact (pure_ok_iff.mp hraise).2
            subst hsame
            exact Or.inr ⟨old, res, s₂, value, rfl, hless, hset, hget⟩
          · simp only [if_neg hless] at hraise
            obtain ⟨-, rfl⟩ := pure_ok_iff.mp hraise
            refine Or.inl ⟨fun old' hold' => ?_, rfl⟩
            obtain rfl := Option.some.inj hold'
            exact not_lt.mp hless

theorem openSlot_cases (h : openSlot D c var inst mode priority s = .ok (access, s')) :
    ∃ s₁, raiseBound D c var inst s = .ok ((), s₁) ∧
      varSlotGetOrCreate D c.depth inst s₁ = .ok ((), s') ∧
      s'.has inst.var inst.indices = true ∧
      access = if mode.admits priority (varSlotGetPriority s' inst.var
        (var.level - inst.indices.length) inst.indices) then .granted else .rejected := by
  obtain ⟨_, s₁, hraise, hrun⟩ := bind_ok_iff.mp h
  obtain ⟨_, s₂, hcreate, hrun⟩ := bind_ok_iff.mp hrun
  obtain ⟨_, s₃, hslot, hrun⟩ := bind_ok_iff.mp hrun
  obtain ⟨hhas, rfl⟩ := derefSlot_ok_iff.mp hslot
  obtain ⟨t, s₄, hget, hrun⟩ := bind_ok_iff.mp hrun
  obtain ⟨rfl, rfl⟩ := get_ok_iff.mp hget
  refine ⟨s₁, hraise, ?_⟩
  split at hrun
  · next hadmits =>
      obtain ⟨rfl, rfl⟩ := pure_ok_iff.mp hrun
      exact ⟨hcreate, hhas, (if_pos hadmits).symm⟩
  · next hadmits =>
      obtain ⟨rfl, rfl⟩ := pure_ok_iff.mp hrun
      exact ⟨hcreate, hhas, (if_neg hadmits).symm⟩

/-- A write is refused before any slot is looked at. -/
def RefusedAtOnce (var : Var) (inst : VarInstance) (priority : Priority)
    (ignoreBasePriority : Bool) : Prop :=
  (ignoreBasePriority = false ∧ priority < var.priority) ∨ var.level < inst.indices.length

theorem varInstanceGetSlotForWriting_refused (mode : AccessMode)
    (s : Slots) (hvar : D.vars inst.var = some var)
    (hrefused : RefusedAtOnce var inst priority ignoreBase) :
    ∃ access, access ≠ .granted ∧
      varInstanceGetSlotForWriting D c inst mode priority ignoreBase s = .ok (access, s) := by
  unfold varInstanceGetSlotForWriting
  rw [bind_of_ok (Defs.deref_ok_iff.mpr ⟨hvar, rfl⟩)]
  by_cases hbase : ignoreBase = false ∧ priority < var.priority
  · rw [if_pos hbase]
    exact ⟨.rejected, by decide, rfl⟩
  · have hexcess := hrefused.resolve_left hbase
    rw [if_neg hbase, if_pos hexcess]
    exact ⟨.invalid, by decide, rfl⟩

theorem varInstanceGetSlotForWriting_opened (mode : AccessMode)
    (s : Slots) (hvar : D.vars inst.var = some var)
    (hopen : ¬ RefusedAtOnce var inst priority ignoreBase) :
    varInstanceGetSlotForWriting D c inst mode priority ignoreBase s =
      openSlot D c var inst mode priority s := by
  obtain ⟨hbase, hexcess⟩ := not_or.mp hopen
  unfold varInstanceGetSlotForWriting
  rw [bind_of_ok (Defs.deref_ok_iff.mpr ⟨hvar, rfl⟩), if_neg hbase, if_neg hexcess]

/-- What setting a value does: it is refused at once and nothing happens, or the slot is opened
and the request is committed exactly if it is granted. -/
theorem varInstanceDoSetValue_cases {res : WriteResult}
    (h : varInstanceDoSetValue D c r s = .ok (res, s')) :
    ∃ var, D.vars r.inst.var = some var ∧
      (((r.inst.indices.length < var.level ∨
            RefusedAtOnce var r.inst r.priority r.ignoreBasePriority) ∧
          res ≠ .written ∧ s' = s) ∨
        (r.inst.indices.length = var.level ∧
          ¬ RefusedAtOnce var r.inst r.priority r.ignoreBasePriority ∧
          ∃ access s₁, openSlot D c var r.inst r.mode r.priority s = .ok (access, s₁) ∧
            ((res ≠ .written ∧ ¬ Granted D s₁ r var ∧ s' = s₁) ∨
              (res = .written ∧ Granted D s₁ r var ∧
                commit D c.depth var r s₁ = .ok ((), s'))))) := by
  obtain ⟨var, s₁, hderef, hrun⟩ := bind_ok_iff.mp h
  obtain ⟨hvar, rfl⟩ := Defs.deref_ok_iff.mp hderef
  refine ⟨var, hvar, ?_⟩
  split at hrun
  · next hmissing =>
      obtain ⟨rfl, rfl⟩ := pure_ok_iff.mp hrun
      exact Or.inl ⟨Or.inl hmissing, by decide, rfl⟩
  · next hmissing =>
      obtain ⟨access, s₂, haccess, hrun⟩ := bind_ok_iff.mp hrun
      by_cases hrefused : RefusedAtOnce var r.inst r.priority r.ignoreBasePriority
      · obtain ⟨access', hne, hsame⟩ :=
          varInstanceGetSlotForWriting_refused (c := c) r.mode s hvar hrefused
        rw [hsame] at haccess
        obtain ⟨rfl, rfl⟩ := Prod.mk.inj (Except.ok.inj haccess)
        refine Or.inl ⟨Or.inr hrefused, ?_⟩
        cases access' with
        | invalid =>
            obtain ⟨rfl, rfl⟩ := pure_ok_iff.mp hrun
            exact ⟨by decide, rfl⟩
        | rejected =>
            obtain ⟨rfl, rfl⟩ := pure_ok_iff.mp hrun
            refine ⟨?_, rfl⟩
            split <;> decide
        | granted => exact absurd rfl hne
      · rw [varInstanceGetSlotForWriting_opened r.mode s hvar hrefused] at haccess
        obtain ⟨hbase, hexcess⟩ := not_or.mp hrefused
        have hlen : r.inst.indices.length = var.level := by omega
        have hbase' : r.ignoreBasePriority = true ∨ var.priority ≤ r.priority := by
          rcases Bool.eq_false_or_eq_true r.ignoreBasePriority with htrue | hfalse
          · exact Or.inl htrue
          · exact Or.inr (not_lt.mp fun hlt => hbase ⟨hfalse, hlt⟩)
        obtain ⟨s₀, -, -, hhas, hdecide⟩ := openSlot_cases haccess
        rw [hlen, Nat.sub_self] at hdecide
        refine Or.inr ⟨hlen, hrefused, access, s₂, haccess, ?_⟩
        split at hdecide
        · next hadmits =>
            subst hdecide
            obtain ⟨ok, s₃, hconforms, hrun⟩ := bind_ok_iff.mp hrun
            obtain ⟨rfl, hcheck⟩ := conforms_ok hconforms
            cases ok with
            | true =>
                obtain ⟨_, s₄, hcommit, hrun⟩ := bind_ok_iff.mp hrun
                obtain ⟨rfl, rfl⟩ := pure_ok_iff.mp hrun
                exact Or.inr ⟨rfl, ⟨hvar, hlen, hhas, hbase', hadmits, hcheck.mp rfl⟩, hcommit⟩
            | false =>
                obtain ⟨rfl, rfl⟩ := pure_ok_iff.mp hrun
                exact Or.inl ⟨by decide, fun hgranted => (nomatch hcheck.mpr hgranted.conforms),
                  rfl⟩
        · next hadmits =>
            subst hdecide
            obtain ⟨rfl, rfl⟩ := pure_ok_iff.mp hrun
            refine Or.inl ⟨?_, fun hgranted => hadmits hgranted.admits, rfl⟩
            split <;> decide

variable (hc : c.Sound D)

include hc

theorem varUpdateArrayBound_moves (newBound : Int) (hvar : D.vars inst.var = some var) :
    MovesOnly D (varUpdateArrayBound D c inst var.varN newBound) := by
  intro s res s' h
  obtain ⟨instN, s₁, hinst, hrun⟩ := bind_ok_iff.mp h
  obtain ⟨b, varN, hb, hvarN, hlen, hinstN, rfl⟩ := boundInstance_ok hinst
  have hupdate : Internal D (boundRequest instN newBound) := by
    refine Or.inl ⟨instN, newBound, rfl, inst.var, var, hvar, ?_⟩
    rw [hb, hinstN]
  obtain ⟨bound, s₂, hbound, hrun⟩ := bind_ok_iff.mp hrun
  refine (readArrayBound_moves hc instN hbound).trans ?_
  cases bound with
  | none =>
      obtain ⟨-, rfl⟩ := pure_ok_iff.mp hrun
      exact ReflTransGen.refl
  | some oldBound =>
      refine MovesOnly.ite ?_ (MovesOnly.pure true) hrun
      refine MovesOnly.bind (hc.doSetValue _ hupdate) fun _ => ?_
      refine MovesOnly.bind (hc.tryGetValue instN) fun value => ?_
      rcases value with _ | ⟨_ | text, _, _, _⟩
      · exact MovesOnly.pure _
      · exact MovesOnly.throw _
      · exact MovesOnly.pure _

theorem raiseBound_moves (hvar : D.vars inst.var = some var) :
    MovesOnly D (raiseBound D c var inst) := by
  unfold raiseBound
  cases inst.indices.getLast? with
  | none => exact MovesOnly.pure ()
  | some last =>
      exact MovesOnly.bind (varUpdateArrayBound_moves hc _ hvar) fun _ => MovesOnly.pure ()

theorem openSlot_moves (hvar : D.vars inst.var = some var)
    (h : openSlot D c var inst mode priority s = .ok (access, s')) :
    InternalMoves D s s' ∧ s'.has inst.var inst.indices = true := by
  obtain ⟨s₁, hraise, hcreate, hhas, -⟩ := openSlot_cases h
  exact ⟨(raiseBound_moves hc hvar hraise).trans
    (MovesOnly.of_creates (varSlotGetOrCreate_creates _ _) hcreate), hhas⟩

theorem varInstanceGetSlotForWriting_moves (hvar : D.vars inst.var = some var)
    (h : varInstanceGetSlotForWriting D c inst mode priority ignoreBase s = .ok (access, s')) :
    InternalMoves D s s' := by
  by_cases hrefused : RefusedAtOnce var inst priority ignoreBase
  · obtain ⟨access', -, hsame⟩ :=
      varInstanceGetSlotForWriting_refused (c := c) mode s hvar hrefused
    rw [hsame] at h
    obtain ⟨-, rfl⟩ := Prod.mk.inj (Except.ok.inj h)
    exact ReflTransGen.refl
  · rw [varInstanceGetSlotForWriting_opened mode s hvar hrefused] at h
    exact (openSlot_moves hc hvar h).1

theorem varInstanceDoSetValue_ok {res : WriteResult}
    (h : varInstanceDoSetValue D c r s = .ok (res, s')) :
    (res ≠ .written ∧ InternalMoves D s s') ∨
      (res = .written ∧ ∃ s₁ var, InternalMoves D s s₁ ∧ Granted D s₁ r var ∧
        commit D c.depth var r s₁ = .ok ((), s')) := by
  obtain ⟨var, hvar, ⟨-, hne, rfl⟩ | ⟨-, -, access, s₁, hopen, hend⟩⟩ :=
    varInstanceDoSetValue_cases h
  · exact Or.inl ⟨hne, ReflTransGen.refl⟩
  · have hmoves := (openSlot_moves hc hvar hopen).1
    rcases hend with ⟨hne, -, rfl⟩ | ⟨hres, hgranted, hcommit⟩
    · exact Or.inl ⟨hne, hmoves⟩
    · exact Or.inr ⟨hres, s₁, var, hmoves, hgranted, hcommit⟩

theorem varInstanceDoSetValue_moves (hr : Internal D r) :
    MovesOnly D (varInstanceDoSetValue D c r) := by
  intro s res s' h
  rcases varInstanceDoSetValue_ok hc h with ⟨-, hmoves⟩ | ⟨-, s₁, var, hmoves, hgranted, hcommit⟩
  · exact hmoves
  · exact hmoves.tail (Move.write hr hgranted hcommit)

omit hc in
theorem boundAbove_ok {steps : Nat} {varN : Option VarId} {b : VarId}
    (hfrom : ∀ b, varN = some b → ∃ v var, D.vars v = some var ∧ var.varN = some b)
    (h : boundAbove D steps varN s = .ok (b, s')) :
    s' = s ∧ ∃ v var, D.vars v = some var ∧ var.varN = some b := by
  induction steps generalizing varN with
  | zero =>
      cases varN with
      | none => exact (throw_ok_iff.mp h).elim
      | some b' =>
          obtain ⟨rfl, rfl⟩ := pure_ok_iff.mp h
          exact ⟨rfl, hfrom _ rfl⟩
  | succ steps ih =>
      cases varN with
      | none => exact (throw_ok_iff.mp h).elim
      | some b' =>
          obtain ⟨varN, s₁, hderef, hrun⟩ := bind_ok_iff.mp h
          obtain ⟨hvarN, rfl⟩ := Defs.deref_ok_iff.mp hderef
          exact ih (fun b hb => ⟨b', varN, hvarN, hb⟩) hrun

theorem varInstanceClear_moves {m : VarId} (hm : D.matchArray = some m) (mode : AccessMode)
    (priority : Priority) : MovesOnly D (varInstanceClear D c ⟨m, []⟩ mode priority) := by
  intro s res s' h
  obtain ⟨var, s₁, hderef, hrun⟩ := bind_ok_iff.mp h
  obtain ⟨hvar, rfl⟩ := Defs.deref_ok_iff.mp hderef
  split at hrun
  · obtain ⟨-, rfl⟩ := pure_ok_iff.mp hrun
    exact ReflTransGen.refl
  · obtain ⟨access, s₂, haccess, hrun⟩ := bind_ok_iff.mp hrun
    refine (varInstanceGetSlotForWriting_moves hc hvar haccess).trans ?_
    cases access with
    | invalid => exact MovesOnly.pure false hrun
    | rejected => exact MovesOnly.pure _ hrun
    | granted =>
        obtain ⟨_, s₃, hclear, hrun⟩ := bind_ok_iff.mp hrun
        obtain rfl := modify_ok_iff.mp hclear
        obtain ⟨b, s₄, habove, hrun⟩ := bind_ok_iff.mp hrun
        obtain ⟨rfl, hb⟩ := boundAbove_ok (fun b hb => ⟨m, var, hvar, hb⟩) habove
        have hupdate : Internal D (boundRequest ⟨b, []⟩ 0) := Or.inl ⟨⟨b, []⟩, 0, rfl, hb⟩
        have hset := MovesOnly.bind (hc.doSetValue _ hupdate) (fun _ => MovesOnly.pure true) hrun
        exact (ReflTransGen.single (Move.clear hm)).trans hset

end writing

section evaluating

variable {D : Defs} {c : Callees}

variable (hc : c.Sound D)

include hc

theorem storeMatches_moves {m : VarId} (hm : D.matchArray = some m) (i : Nat)
    (texts : List CString) : MovesOnly D (storeMatches D c m i texts) := by
  induction texts generalizing i with
  | nil => exact MovesOnly.pure ()
  | cons text texts ih =>
      have hwrite : Internal D ⟨⟨m, [UInt32.ofNat i]⟩, some text, none, .weak, .scriptTransient,
          true, false⟩ := Or.inr ⟨m, _, text, hm, rfl⟩
      exact MovesOnly.bind (varInstanceDoSetValue_moves hc hwrite) fun _ => ih (i + 1)

theorem matchLiterals_moves (val regex : CString) : MovesOnly D (matchLiterals D c val regex) := by
  unfold matchLiterals
  cases D.types.regexMatch regex val with
  | invalid => exact MovesOnly.pure _
  | noMatch => exact MovesOnly.pure _
  | groups texts =>
      cases hm : D.matchArray with
      | none => exact MovesOnly.throw _
      | some m =>
          refine MovesOnly.bind (varInstanceClear_moves hc hm _ _) fun cleared => ?_
          refine MovesOnly.ite ?_ (MovesOnly.pure _)
          exact MovesOnly.bind (storeMatches_moves hc hm 0 texts) fun _ => MovesOnly.pure _

theorem exprEvaluate_moves (e : Expr) (context : VarInstance) :
    MovesOnly D (exprEvaluate D c e context) :=
  (MovesOnly.congruence D).ofExprEvaluate (d := fun _ => c) (m := fun _ => D.matchArray) hc.tryGetValue
    (fun _ => hc.exprEvaluate _) e context
    (Or.inr (matchLiterals_moves hc))

end evaluating

theorem calls_sound (D : Defs) (depth : Nat) : (calls D depth).Sound D := by
  induction depth with
  | zero =>
      exact
        { exprEvaluate := fun _ _ => MovesOnly.throw _
          tryGetValue := fun _ => MovesOnly.throw _
          doSetValue := fun _ _ => MovesOnly.throw _
          evaluates := fun _ _ _ _ _ h => ⟨0, h⟩ }
  | succ depth ih =>
      exact
        { exprEvaluate := exprEvaluate_moves ih
          tryGetValue := varInstanceDoGetValue_moves ih
          doSetValue := fun _ hr => varInstanceDoSetValue_moves ih hr
          evaluates := fun _ _ _ _ _ h => ⟨depth + 1, h⟩ }

end Mkfli4l
