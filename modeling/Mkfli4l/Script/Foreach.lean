import Mkfli4l.Grammar.InstanceNames
import Mkfli4l.Script.Split
import Mkfli4l.Var.SlotPointers

/-!
# Loops over arrays

`foreach` of check scripts (`foreach_idset` in `libmkfli4l/tree.c`) iterates over the elements of an array
while its body may carry out any statements, also ones that clear, fill, enlarge or remove this array.

The iterator knows that an array is used up only by its position being equal to the number of slots.  As
long as the element that a round has been run for is still there afterwards, and no array around it has
been moved, every call of the iterator comes back, and the loop ends if from some round on no elements are
added (`foreach_survives`).  A body that clears the array sends the iterator past the end of it.
-/

namespace Mkfli4l

open Lib Exec

/-! ### What a round does -/

/-- `var_instance_create_from_string` in the global scope. -/
def instanceFromString (E : ScriptEnv) (name : CString) : ScriptExec (Option VarInstance) := do
  let found ← onGraph (varTryGet E.graphEnv name)
  match found with
  | some v => pure (some ⟨v, []⟩)
  | none => do
      let split := splitIndices false name
      let found ← onGraph (varTryGet E.graphEnv split.1)
      pure (found.map fun v => ⟨v, split.2⟩)

def getVariable (E : ScriptEnv) (name : CString) : ScriptExec (Option CString) := do
  let inst ← instanceFromString E name
  match inst with
  | none => pure none
  | some inst => do
      let value ← onSlots E fun D c => varInstanceDoGetValue D c inst
      pure (value.bind VarValue.value)

/-- `check_var_optional`, which tells whether a variable is not optional. -/
def checkVarOptional (E : ScriptEnv) (name : CString) : ScriptExec Bool := do
  let found ← onGraph (varTryGet E.graphEnv name)
  match found with
  | none => pure false
  | some v => onSlots E fun D _ => do
      let var ← D.deref v
      pure (!var.props.optional)

def isVarNumeric (E : ScriptEnv) (name : CString) : ScriptExec Bool := do
  let inst ← instanceFromString E (name.map Char.toUpper)
  match inst with
  | none => pure false
  | some inst => onSlots E fun D _ => do
      let var ← D.deref inst.var
      pure (decide (var.type = E.graphEnv.arrayBoundType))

/-- `var_add_weak_declaration`, with the value that the variable gets. -/
def addWeakDeclaration (E : ScriptEnv) (name value : CString) (numeric : Bool) :
    ScriptExec Unit := do
  let upperName := name.map Char.toUpper
  let found ← onGraph (varTryGet E.graphEnv upperName)
  match found with
  | some v => onGraph fun g => ((), varRemove g v)
  | none => pure ()
  let v ← addDeclaration E upperName numeric
  match v with
  | none => throw .fatalExit
  | some v => onSlots E fun D c => do
      -- an error is logged, but the script goes on
      let _ ← varInstanceSetAndCheckValue D c ⟨v, []⟩ (some value) (some ⟨false, false⟩) .weak
        .scriptTransient
      pure ()

/-- The name of an element, by `var_instance_to_string`. -/
def elementName (v : VarId) (indices : List UInt32) : ScriptExec CString := do
  let st ← get
  match st.graph.vars v with
  | none => throw (.fault .nullPointer)
  | some var => pure (varInstanceToString var.name indices)

/-- What `foreach_idset` does with an element that it has got from the iterator. -/
def foreachRound (E : ScriptEnv) (loopVar setVar : CString) (v : VarId) (body : ScriptExec Unit)
    (indices : List UInt32) : ScriptExec Unit := do
  let element ← elementName v indices
  let val ← getVariable E element
  match val with
  | none => do
      let optional ← checkVarOptional E setVar
      if optional then pure () else throw .fatalExit
  | some val => do
      let numeric ← isVarNumeric E element
      addWeakDeclaration E loopVar val numeric
      body

/-! ### The loop -/

/-- What a round depends on besides the store: where the C library has put the arrays in each round of the
iterator, and what the body does. -/
structure RoundInput where
  blocks : ℕ → InMemory.Blocks
  body : ScriptExec Unit

def initSetVarIteration (E : ScriptEnv) (B : InMemory.Blocks) (setVar : CString) :
    ScriptExec (Option (VarId × InMemory.ValueIterator)) := do
  let found ← onGraph (varTryGet E.graphEnv setVar)
  match found with
  | none => pure none
  | some v => onSlots E fun D _ => do
      let var ← D.deref v
      let s ← get
      pure (some (v, InMemory.varValueIteratorCreate B s var ⟨v, []⟩ false))

/-- The call of `var_value_iterator_next` in `get_next_set_var`. -/
def callNext (E : ScriptEnv) (v : VarId) (rounds : ℕ) (blocks : ℕ → InMemory.Blocks)
    (it : InMemory.ValueIterator) : ScriptExec (Bool × InMemory.ValueIterator) :=
  onSlots E fun D c => InMemory.varValueIteratorNext D c v rounds blocks it

/-- The loop of `foreach_idset`. -/
def foreachLoop (E : ScriptEnv) (loopVar setVar : CString) (v : VarId) (rounds : ℕ) :
    ℕ → (ℕ → RoundInput) → InMemory.ValueIterator → ScriptExec Unit
  | 0, _, _ => throw (.fault .roundsExhausted)
  | calls + 1, world, it => do
      let (more, it) ← callNext E v rounds (world 0).blocks it
      if more then do
        foreachRound E loopVar setVar v (world 0).body it.indices
        foreachLoop E loopVar setVar v rounds calls (fun n => world (n + 1)) it
      else pure ()

def foreachIdset (E : ScriptEnv) (loopVar setVar : CString) (world : ℕ → RoundInput)
    (rounds calls : ℕ) : ScriptExec Unit := do
  let start ← initSetVarIteration E ((world 0).blocks 0) setVar
  match start with
  | none => throw .fatalExit
  | some (v, it) => foreachLoop E loopVar setVar v rounds calls world it

/-! ### Runs of the loop -/

section runs

variable (E : ScriptEnv) (loopVar setVar : CString) (v : VarId) (world : ℕ → RoundInput)

/-- After a number of rounds the iterator is called in that store. -/
inductive ForeachRun (st₀ : Store) (it₀ : InMemory.ValueIterator) :
    ℕ → Store → InMemory.ValueIterator → Prop
  | start : ForeachRun st₀ it₀ 0 st₀ it₀
  | round {n rounds : ℕ} {st st₁ st₂ : Store} {it it₁ : InMemory.ValueIterator}
      (run : ForeachRun st₀ it₀ n st it)
      (call : callNext E v rounds (world n).blocks it st = .ok ((true, it₁), st₁))
      (rest : foreachRound E loopVar setVar v (world n).body it₁.indices st₁ = .ok ((), st₂)) :
      ForeachRun st₀ it₀ (n + 1) st₂ it₁

/-- The loop ends: the iterator finds no more elements, or a round aborts. -/
inductive ForeachEnds (st₀ : Store) (it₀ : InMemory.ValueIterator) : Except Abort (Unit × Store) → Prop
  | finished {n rounds : ℕ} {st st₁ : Store} {it it₁ : InMemory.ValueIterator}
      (run : ForeachRun E loopVar setVar v world st₀ it₀ n st it)
      (call : callNext E v rounds (world n).blocks it st = .ok ((false, it₁), st₁)) :
      ForeachEnds st₀ it₀ (.ok ((), st₁))
  | aborted {n rounds : ℕ} {st st₁ : Store} {it it₁ : InMemory.ValueIterator} {abort : Abort}
      (run : ForeachRun E loopVar setVar v world st₀ it₀ n st it)
      (call : callNext E v rounds (world n).blocks it st = .ok ((true, it₁), st₁))
      (rest : foreachRound E loopVar setVar v (world n).body it₁.indices st₁ = .error abort) :
      ForeachEnds st₀ it₀ (.error abort)

/-- The element that the last round has been run for is still there, and so are the arrays around it: the
variable is alive, the element has its slot, no array around it has been moved, and no array is too large
for a position that is an `int`.  Reading the elements comes back and leaves the arrays as they are. -/
structure StillThere (blocks : ℕ → InMemory.Blocks) (var : Var) (st : Store)
    (it : InMemory.ValueIterator) : Prop where
  live : (E.defs st.graph).vars v = some var
  level : it.indices.length = var.level
  element : ∀ leaf parents, it.iter = some (leaf :: parents) → st.slots.has v leaf.iterator.slot = true
  unmoved : ∀ iter, it.iter = some iter → InMemory.PointsToArrays (blocks 0) v var.level iter
  settled : ∀ k, blocks k v = blocks 0 v
  fit : ArraysFit st.slots var ⟨v, []⟩
  quiet : InMemory.QuietReads (E.defs st.graph) (E.callees st.graph) v var.level st.slots

/-- A round of that number adds no elements. -/
def AddsNothing (st₀ : Store) (it₀ : InMemory.ValueIterator) (n : ℕ) : Prop :=
  ∀ st it rounds it₁ st₁ st₂, ForeachRun E loopVar setVar v world st₀ it₀ n st it →
    callNext E v rounds (world n).blocks it st = .ok ((true, it₁), st₁) →
    foreachRound E loopVar setVar v (world n).body it₁.indices st₁ = .ok ((), st₂) →
    ∀ p, st₂.slots.has v p = true → st₁.slots.has v p = true

end runs

variable {rounds : ℕ} {blocks : ℕ → InMemory.Blocks} {B : InMemory.Blocks} {text : CString}

section survival

variable {E : ScriptEnv} {loopVar setVar : CString} {v : VarId} {world : ℕ → RoundInput}
  {st st₀ st₁ st' : Store} {it it₀ : InMemory.ValueIterator} {n : ℕ}

theorem callNext_of_more {rounds' : ℕ} {result : Bool × InMemory.ValueIterator} (hle : rounds ≤ rounds')
    (h : callNext E v rounds blocks it st = .ok (result, st')) :
    callNext E v rounds' blocks it st = .ok (result, st') := by
  obtain ⟨s, hcall, rfl⟩ := onSlots_ok_iff.mp h
  exact onSlots_ok_iff.mpr ⟨s, InMemory.varValueIteratorNext_of_more hle hcall, rfl⟩

theorem callNext_unique {rounds' : ℕ} {result result' : (Bool × InMemory.ValueIterator) × Store}
    (h : callNext E v rounds blocks it st = .ok result) (h' : callNext E v rounds' blocks it st = .ok result') :
    result = result' :=
  Except.ok.inj ((callNext_of_more (le_max_left rounds rounds') h).symm.trans
    (callNext_of_more (le_max_right rounds rounds') h'))

theorem ForeachRun.loop (h : ForeachRun E loopVar setVar v world st₀ it₀ n st it) :
    ∃ needed, ∀ rounds ≥ needed, ∀ calls, foreachLoop E loopVar setVar v rounds (n + calls) world it₀ st₀ =
      foreachLoop E loopVar setVar v rounds calls (fun k => world (n + k)) it st := by
  induction h with
  | start =>
      refine ⟨0, fun rounds _ calls => ?_⟩
      simp only [Nat.zero_add]
  | @round n rounds st st₁ st₂ it it₁ run call rest ih =>
      obtain ⟨needed, hneeded⟩ := ih
      refine ⟨max needed rounds, fun rounds' hrounds calls => ?_⟩
      have hcall := callNext_of_more (le_trans (le_max_right needed rounds) hrounds) call
      have hshift : (fun k => world (n + (k + 1))) = fun k => world (n + 1 + k) := by
        funext k
        congr 1
        omega
      have hcalls : n + 1 + calls = n + (calls + 1) := by omega
      rw [hcalls, hneeded rounds' (le_trans (le_max_left needed rounds) hrounds) (calls + 1), foreachLoop]
      simp only [Nat.add_zero]
      rw [bind_of_ok hcall]
      dsimp only
      rw [if_pos rfl, bind_of_ok rest, hshift]

theorem ForeachEnds.loop {result : Except Abort (Unit × Store)}
    (h : ForeachEnds E loopVar setVar v world st₀ it₀ result) :
    ∃ needed, ∀ rounds ≥ needed, ∀ calls ≥ needed,
      foreachLoop E loopVar setVar v rounds calls world it₀ st₀ = result := by
  cases h with
  | @finished n rounds st st₁ it it₁ run call =>
      obtain ⟨needed, hneeded⟩ := run.loop
      refine ⟨max (n + 1) (max needed rounds), fun rounds' hrounds calls hcalls => ?_⟩
      obtain ⟨left, rfl⟩ : ∃ left, calls = n + (left + 1) := ⟨calls - (n + 1), by omega⟩
      rw [hneeded rounds' (by omega) (left + 1), foreachLoop]
      simp only [Nat.add_zero]
      rw [bind_of_ok (callNext_of_more (by omega) call)]
      rfl
  | @aborted n rounds st st₁ it it₁ abort run call rest =>
      obtain ⟨needed, hneeded⟩ := run.loop
      refine ⟨max (n + 1) (max needed rounds), fun rounds' hrounds calls hcalls => ?_⟩
      obtain ⟨left, rfl⟩ : ∃ left, calls = n + (left + 1) := ⟨calls - (n + 1), by omega⟩
      rw [hneeded rounds' (by omega) (left + 1), foreachLoop]
      simp only [Nat.add_zero]
      rw [bind_of_ok (callNext_of_more (by omega) call)]
      dsimp only
      rw [if_pos rfl, bind_apply, rest]

theorem ForeachEnds.unique {result result' : Except Abort (Unit × Store)}
    (h : ForeachEnds E loopVar setVar v world st₀ it₀ result)
    (h' : ForeachEnds E loopVar setVar v world st₀ it₀ result') : result = result' := by
  obtain ⟨needed, hneeded⟩ := h.loop
  obtain ⟨needed', hneeded'⟩ := h'.loop
  have hle := le_max_left needed needed'
  have hle' := le_max_right needed needed'
  exact (hneeded _ hle _ hle).symm.trans (hneeded' _ hle' _ hle')

/-- An iterator that is called in a run stands at a leaf, or it has not been started. -/
def Resting (v : VarId) (it : InMemory.ValueIterator) : Prop :=
  ∃ s var iter, InMemory.Stands s v var it iter

theorem Resting.stands {var : Var} (h : Resting v it)
    (hthere : StillThere E v blocks var st it) : ∃ iter, InMemory.Stands st.slots v var it iter := by
  obtain ⟨s, var', iter, hstands⟩ := h
  have hlevel : var.level = var'.level := hthere.level.symm.trans hstands.indices_length
  cases iter with
  | nil => exact hstands.route.elim
  | cons leaf parents =>
      refine ⟨leaf :: parents, hstands.iter_eq, ?_, ?_, hthere.level⟩
      · exact InMemory.AtRest.route hlevel hstands.rest hstands.route
          (hthere.element leaf parents hstands.iter_eq)
      · rw [hlevel]
        exact hstands.rest

theorem InMemory.Stands.callNext {var : Var} {iter : List InMemory.SlotFrame}
    (h : InMemory.Stands st.slots v var it iter) (hthere : StillThere E v blocks var st it) :
    ∃ rounds more it₁ st₁, Mkfli4l.callNext E v rounds blocks it st = .ok ((more, it₁), st₁) ∧
      st₁.slots.numSlots v = st.slots.numSlots v ∧
      (more = true → st₁.slots.has v it₁.indices = true ∧
        ∃ iter₁, InMemory.Stands st.slots v var it₁ iter₁ ∧
          (agenda st.slots v var (InMemory.places iter₁)).length <
            (agenda st.slots v var (InMemory.places iter)).length) := by
  obtain ⟨more, it₁, s, hseek, hreads, hmore⟩ :=
    InMemory.seekValue_comesBack hthere.live hthere.quiet hthere.fit hthere.settled .refl h.route
      (hthere.unmoved iter h.iter_eq) h.indices_length (Nat.lt_succ_self _)
  have hsame := hthere.quiet.sameArrays s hreads
  have hcall : Mkfli4l.callNext E v ((agenda st.slots v var (InMemory.places iter)).length + 1) blocks it st =
      .ok ((more, it₁), ⟨st.graph, s⟩) := by
    refine onSlots_ok_iff.mpr ⟨s, ?_, rfl⟩
    unfold InMemory.varValueIteratorNext
    rw [h.iter_eq]
    dsimp only
    rw [bind_of_ok (Defs.deref_of_some hthere.live)]
    exact hseek
  refine ⟨_, more, it₁, _, hcall, hsame, fun htrue => ?_⟩
  obtain ⟨hhas, iter₁, hstands, hless⟩ := hmore htrue
  refine ⟨?_, iter₁, hstands, hless⟩
  rw [InMemory.has_of_numSlots_eq hsame]
  exact hhas

theorem resting_of_init {setVar : CString}
    (hinit : initSetVarIteration E B setVar st₀ = .ok (some (v, it), st₁)) : Resting v it := by
  obtain ⟨found, st₂, -, hrest⟩ := bind_ok_iff.mp hinit
  cases found with
  | none =>
      obtain ⟨hnone, -⟩ := pure_ok_iff.mp hrest
      exact nomatch hnone
  | some w =>
      obtain ⟨s, hcreate, -⟩ := onSlots_ok_iff.mp hrest
      obtain ⟨var, s₁, -, hcreate⟩ := bind_ok_iff.mp hcreate
      obtain ⟨s₂, s₃, -, hcreate⟩ := bind_ok_iff.mp hcreate
      obtain ⟨heq, -⟩ := pure_ok_iff.mp hcreate
      obtain ⟨rfl, rfl⟩ := Prod.mk.inj (Option.some.inj heq)
      have hslot : varInstanceGetSlotForReading s₂ var ⟨w, []⟩ = some [] :=
        varInstanceGetSlotForReading_eq_some.mpr ⟨Nat.zero_le _, Slots.has_nil, rfl⟩
      have hvalid : (Mkfli4l.varValueIteratorCreate s₂ var ⟨w, []⟩ false).Valid s₂ w var [] _ :=
        varValueIteratorCreate_valid hslot
      refine ⟨s₂, var, [⟨⟨[], 0, -1⟩, none⟩], ?_, hvalid.route, Or.inr (by simp), ?_⟩
      · unfold InMemory.varValueIteratorCreate
        rw [hslot]
        rfl
      · unfold InMemory.varValueIteratorCreate
        rw [hslot]
        simp

variable (hstart : Resting v it₀)
  (hthere : ∀ n st it, ForeachRun E loopVar setVar v world st₀ it₀ n st it →
    ∃ var, StillThere E v (world n).blocks var st it)

include hstart hthere

theorem ForeachRun.resting (h : ForeachRun E loopVar setVar v world st₀ it₀ n st it) : Resting v it := by
  induction h with
  | start => exact hstart
  | @round n rounds st st₁ st₂ it it₁ run call rest ih =>
      obtain ⟨var, hvar⟩ := hthere n st it run
      obtain ⟨iter, hstands⟩ := ih.stands hvar
      obtain ⟨rounds', more, it₁', st₁', hcall, -, hmore⟩ := hstands.callNext hvar
      -- both calls come back with the same result
      obtain ⟨hpair, -⟩ := Prod.mk.inj (callNext_unique call hcall)
      obtain ⟨rfl, rfl⟩ := Prod.mk.inj hpair
      obtain ⟨-, iter₁, hstands₁, -⟩ := hmore rfl
      exact ⟨_, _, iter₁, hstands₁⟩

theorem ForeachRun.ends {N : ℕ} (hnothing : ∀ n ≥ N, AddsNothing E loopVar setVar v world st₀ it₀ n)
    {size : ℕ} (hn : N ≤ n) (h : ForeachRun E loopVar setVar v world st₀ it₀ n st it)
    (hsize : ∀ var iter, InMemory.Stands st.slots v var it iter →
      (agenda st.slots v var (InMemory.places iter)).length ≤ size) :
    ∃ result, ForeachEnds E loopVar setVar v world st₀ it₀ result := by
  induction size using Nat.strong_induction_on generalizing n st it with
  | _ size ih =>
      obtain ⟨var, hvar⟩ := hthere n st it h
      obtain ⟨iter, hstands⟩ := (h.resting hstart hthere).stands hvar
      obtain ⟨rounds, more, it₁, st₁, hcall, hsame, hmore⟩ := hstands.callNext hvar
      cases more with
      | false => exact ⟨_, .finished h hcall⟩
      | true =>
          obtain ⟨-, iter₁, hstands₁, hless⟩ := hmore rfl
          cases hrest : foreachRound E loopVar setVar v (world n).body it₁.indices st₁ with
          | error abort => exact ⟨_, .aborted h hcall hrest⟩
          | ok result =>
              obtain ⟨⟨⟩, st₂⟩ := result
              have hnext := ForeachRun.round h hcall hrest
              have hle := hsize var iter hstands
              refine ih (size - 1) (by omega) (by omega) hnext fun var₂ iter₂ hstands₂ => ?_
              -- nothing has come into being since the element was found
              have hlevel : var₂.level = var.level :=
                hstands₂.indices_length.symm.trans hstands₁.indices_length
              obtain rfl : iter₁ = iter₂ := Option.some.inj (hstands₁.iter_eq.symm.trans hstands₂.iter_eq)
              have hshrunk := Route.agenda_length_le hstands₁.route hstands₂.route hlevel fun p hp => by
                rw [← InMemory.has_of_numSlots_eq hsame]
                exact hnothing n hn st it rounds it₁ st₁ st₂ h hcall hrest p hp
              omega

theorem foreachEnds_of_addsNothing {N : ℕ}
    (hnothing : ∀ n ≥ N, AddsNothing E loopVar setVar v world st₀ it₀ n) :
    ∃ result, ForeachEnds E loopVar setVar v world st₀ it₀ result := by
  have hreach : ∀ n, (∃ st it, ForeachRun E loopVar setVar v world st₀ it₀ n st it) ∨
      ∃ result, ForeachEnds E loopVar setVar v world st₀ it₀ result := by
    intro n
    induction n with
    | zero => exact Or.inl ⟨st₀, it₀, .start⟩
    | succ n ih =>
        rcases ih with ⟨st, it, h⟩ | hends
        · obtain ⟨var, hvar⟩ := hthere n st it h
          obtain ⟨iter, hstands⟩ := (h.resting hstart hthere).stands hvar
          obtain ⟨rounds, more, it₁, st₁, hcall, -, -⟩ := hstands.callNext hvar
          cases more with
          | false => exact Or.inr ⟨_, .finished h hcall⟩
          | true =>
              cases hrest : foreachRound E loopVar setVar v (world n).body it₁.indices st₁ with
              | error abort => exact Or.inr ⟨_, .aborted h hcall hrest⟩
              | ok result => exact Or.inl ⟨result.2, it₁, .round h hcall hrest⟩
        · exact Or.inr hends
  rcases hreach N with ⟨st, it, h⟩ | hends
  · obtain ⟨var, hvar⟩ := hthere N st it h
    obtain ⟨iter, hstands⟩ := (h.resting hstart hthere).stands hvar
    have hsize : ∀ var' iter', InMemory.Stands st.slots v var' it iter' →
        (agenda st.slots v var' (InMemory.places iter')).length ≤
          (agenda st.slots v var (InMemory.places iter)).length := by
      intro var' iter' hstands'
      obtain rfl : iter = iter' := Option.some.inj (hstands.iter_eq.symm.trans hstands'.iter_eq)
      have hlevel : var'.level = var.level := hstands'.indices_length.symm.trans hstands.indices_length
      exact Route.agenda_length_le hstands.route hstands'.route hlevel fun _ hp => hp
    exact h.ends hstart hthere hnothing (Nat.le_refl N) hsize
  · exact hends

end survival

/-! ### Loops over arrays of check scripts -/

/-- The variable object of a loop variable. -/
def scalarVar (name : CString) (type : VarTypeId) : Var where
  name := name
  type := type
  level := 0
  varN := none
  varNClients := []
  priority := .scriptTransient
  props := scriptProps

/-- The array `v` is there, and it consists of the texts. -/
structure Store.HoldsArray (E : ScriptEnv) (name bound : CString) (type : VarTypeId) (v b : VarId)
    (texts : List CString) (st : Store) : Prop where
  valid : st.graph.Valid E.graphEnv
  defined : st.graph.HasArray E.graphEnv name bound type v b
  holds : st.slots.HoldsTexts (E.defs st.graph) v b (scriptVar name type b) texts

section rounds

variable {E : ScriptEnv} {name bound : CString} {type : VarTypeId} {v b : VarId} {texts : List CString}
  {st : Store}

theorem Store.HoldsArray.transient (h : st.HoldsArray E name bound type v b texts) :
    TransientArray (E.defs st.graph) v b (scriptVar name type b) (boundVar E.graphEnv bound [v]) :=
  h.defined.transient h.valid

theorem Store.HoldsArray.initFrom (h : st.HoldsArray E name bound type v b texts) :
    (Store.mk st.graph (st.slots.initFrom st.graph.nextId)).HoldsArray E name bound type v b texts :=
  ⟨h.valid, h.defined,
    h.holds.initFrom (h.defined.lt_nextId h.valid) (h.defined.bound.lt_nextId h.valid)⟩

theorem Store.HoldsArray.lookup (h : st.HoldsArray E name bound type v b texts) :
    onGraph (varTryGet E.graphEnv name) st =
      .ok (some v, ⟨st.graph, st.slots.initFrom st.graph.nextId⟩) := by
  rw [onGraph_apply, varTryGet_of_member h.defined.member]

/-- Nothing goes by that name. -/
structure Graph.Free (E : GraphEnv) (g : Graph) (spelling : CString) : Prop where
  member : g.tryGetMember spelling = none
  template : NoTemplate E g spelling

variable {spelling element : CString} {j : UInt32}

theorem Graph.Free.lookup (h : st.graph.Free E.graphEnv spelling) :
    onGraph (varTryGet E.graphEnv spelling) st =
      .ok (none, ⟨st.graph, st.slots.initFrom st.graph.nextId⟩) := by
  have hmissing : varTryGet E.graphEnv spelling st.graph = (none, st.graph) :=
    h.template.varScopeTryGet (sameName_refl spelling) h.member _
  rw [onGraph_apply, hmissing]

theorem Store.HoldsArray.readValue (h : st.HoldsArray E name bound type v b texts)
    (hj : texts[j.toNat]? = some text) (hsmall : j.toNat < 2147483647)
    (hmatch : E.types.vartypeMatch type text = true) :
    ∃ value e, varInstanceReadValue (E.defs st.graph) (E.callees st.graph) ⟨v, [j]⟩ st.slots =
        .ok (some value, st.slots.setEntry b [] e) ∧ value.value = some text ∧
      (Store.mk st.graph (st.slots.setEntry b [] e)).HoldsArray E name bound type v b texts := by
  obtain ⟨value, e, hread, hholds, hvalue⟩ := h.holds.readValue h.transient hj hsmall E.room
  refine ⟨value, e, hread, ?_, h.valid, h.defined, hholds⟩
  have hconforms : E.types.vartypeMatch (scriptVar name type b).type text = true := hmatch
  rw [hvalue, writtenElement, E.defs_types, if_pos hconforms]

/-- The name that an element goes by. -/
structure Graph.NamesElement (E : GraphEnv) (g : Graph) (element name : CString) (j : UInt32) : Prop where
  free : g.Free E element
  split : splitIndices false element = (name, [j])
  upper : element.map Char.toUpper = element

theorem Store.HoldsArray.instanceFromString (h : st.HoldsArray E name bound type v b texts)
    (helement : st.graph.NamesElement E.graphEnv element name j) :
    ∃ st', Mkfli4l.instanceFromString E element st = .ok (some ⟨v, [j]⟩, st') ∧
      st'.graph = st.graph ∧ st'.HoldsArray E name bound type v b texts := by
  refine ⟨⟨st.graph, (st.slots.initFrom st.graph.nextId).initFrom st.graph.nextId⟩, ?_, rfl,
    h.initFrom.initFrom⟩
  unfold Mkfli4l.instanceFromString
  rw [bind_of_ok helement.free.lookup]
  dsimp only
  rw [helement.split, bind_of_ok h.initFrom.lookup]
  rfl

theorem Store.HoldsArray.getVariable (h : st.HoldsArray E name bound type v b texts)
    (helement : st.graph.NamesElement E.graphEnv element name j)
    (hj : texts[j.toNat]? = some text) (hsmall : j.toNat < 2147483647)
    (hmatch : E.types.vartypeMatch type text = true) :
    ∃ st', Mkfli4l.getVariable E element st = .ok (some text, st') ∧ st'.graph = st.graph ∧
      st'.HoldsArray E name bound type v b texts := by
  obtain ⟨st₁, hinstance, hgraph, h₁⟩ := h.instanceFromString helement
  obtain ⟨value, e, hread, hvalue, h₂⟩ := h₁.readValue hj hsmall hmatch
  refine ⟨⟨st₁.graph, st₁.slots.setEntry b [] e⟩, ?_, hgraph, h₂⟩
  have hderef : ∀ t, (E.defs st₁.graph).deref v t = .ok (scriptVar name type b, t) := fun t =>
    Defs.deref_of_some h₁.transient.array
  have hhas : st₁.slots.has v [j] = true := by
    have hlt := (List.getElem?_eq_some_iff.mp hj).1
    have hslot : j < st₁.slots.numSlots v [] := by
      rw [UInt32.lt_iff_toNat_lt, h₁.holds.numSlots]
      exact hlt
    have hconcat := (Slots.has_concat_iff (s := st₁.slots) (v := v) [] j).mpr ⟨Slots.has_nil, hslot⟩
    simpa using hconcat
  have hget : varInstanceDoGetValue (E.defs st₁.graph) (E.callees st₁.graph) ⟨v, [j]⟩ st₁.slots =
      .ok (some value, st₁.slots.setEntry b [] e) := by
    have hlevel : (scriptVar name type b).level = 1 := rfl
    simp only [varInstanceDoGetValue, bind_apply, hderef, hlevel, List.length_singleton,
      Nat.lt_irrefl, if_false, get_apply, varInstanceGetSlotForReading, hhas, if_true, hread,
      pure_apply, dropUnset, hvalue, reduceCtorEq]
  unfold Mkfli4l.getVariable
  rw [bind_of_ok hinstance]
  dsimp only
  rw [bind_of_ok (onSlots_ok hget)]
  exact congrArg (fun r => Except.ok (r, _)) hvalue

theorem Store.HoldsArray.isVarNumeric (h : st.HoldsArray E name bound type v b texts)
    (helement : st.graph.NamesElement E.graphEnv element name j) :
    ∃ st', Mkfli4l.isVarNumeric E element st = .ok (decide (type = E.graphEnv.arrayBoundType), st') ∧
      st'.graph = st.graph ∧ st'.HoldsArray E name bound type v b texts := by
  obtain ⟨st₁, hinstance, hgraph, h₁⟩ := h.instanceFromString helement
  refine ⟨st₁, ?_, hgraph, h₁⟩
  unfold Mkfli4l.isVarNumeric
  rw [helement.upper, bind_of_ok hinstance]
  exact onSlots_ok (bind_of_ok (Defs.deref_of_some h₁.transient.array))

theorem addDeclaration_scalar (hname : isVarName spelling = true)
    (hplaceholders : numPlaceholders spelling = 0) (hfree : st.graph.tryGetMember spelling = none)
    (numeric : Bool) :
    addDeclaration E spelling numeric st = .ok (some st.graph.nextId,
      ⟨st.graph.enrolled (scalarVar spelling (E.scriptType numeric)),
        st.slots.initFrom st.graph.nextId⟩) := by
  have hscalar : computedBoundName spelling = none := by
    cases hcomputed : computedBoundName spelling with
    | none => rfl
    | some lower =>
        have hcount := numPlaceholders_computedBoundName hcomputed
        omega
  have hadd : varAddWithArrayBound E.graphEnv
      ⟨spelling, E.scriptType numeric, .scriptTransient, scriptProps⟩ none st.graph =
        (some st.graph.nextId, st.graph.enrolled (scalarVar spelling (E.scriptType numeric))) := by
    have henroll : enrollVar st.graph (scalarVar spelling (E.scriptType numeric)) = _ := enrollVar_new hfree
    simp only [varAddWithArrayBound, hplaceholders, varAdd, hname, if_true, varCreate, hscalar]
    exact henroll
  unfold addDeclaration
  rw [onGraph_apply, hadd]

theorem Store.HoldsArray.enrolled (h : st.HoldsArray E name bound type v b texts)
    (hplaceholders : numPlaceholders spelling = 0) (hfree : st.graph.tryGetMember spelling = none)
    (hname : ArrayName name bound) (hbound : sameName spelling bound = false) (stype : VarTypeId) :
    (Store.mk (st.graph.enrolled (scalarVar spelling stype))
      (st.slots.initFrom st.graph.nextId)).HoldsArray E name bound type v b texts := by
  have hv := h.defined.lt_nextId h.valid
  have hb := h.defined.bound.lt_nextId h.valid
  have hdiffer : sameName spelling name = false := by
    rw [Bool.eq_false_iff]
    intro hsame
    have hcount := numPlaceholders_of_sameName hsame
    rw [hplaceholders, hname.placeholders] at hcount
    omega
  have hunlinked : (scalarVar spelling stype).varN ≠ some st.graph.nextId := by
    simp [scalarVar]
  have hold : ∀ (w : VarId) (wvar : Var), w < st.graph.nextId → st.graph.vars w = some wvar →
      (st.graph.enrolled (scalarVar spelling stype)).vars w = some wvar := by
    intro w wvar hw hwvar
    show (allocVar st.graph (scalarVar spelling stype)).vars w = _
    rw [allocVar_vars hunlinked, if_neg (Nat.ne_of_lt hw), hwvar]
    simp [Var.withClient, scalarVar]
  refine ⟨h.valid.create hfree rfl hplaceholders.symm rfl, ⟨?_, hold v _ hv h.defined.array, ?_, ?_⟩, ?_⟩
  · rw [Graph.enrolled_tryGetMember_of_not_same hdiffer]
    exact h.defined.member
  · rw [Graph.enrolled_tryGetMember_of_not_same hbound]
    exact h.defined.bound.member
  · exact hold b _ hb h.defined.bound.var
  · have hinit := h.holds.initFrom hv hb
    refine ⟨hinit.bound, hinit.numSlots, fun j text hj => ?_⟩
    have hentry := hinit.entry j text hj
    unfold writtenElement at hentry ⊢
    rw [E.defs_types] at hentry ⊢
    exact hentry

theorem setScalar {D : Defs} {s : Slots} {w : VarId} {stype : VarTypeId}
    (hvar : D.vars w = some (scalarVar spelling stype)) (hlow : (s.entry w []).priority ≤ .scriptTransient)
    (text : CString) (extra : Option SlotExtra) (d : ℕ) :
    ∃ r e, varInstanceSetAndCheckValue D (calls D d) ⟨w, []⟩ (some text) extra .weak .scriptTransient s =
      .ok (r, s.setEntry w [] e) := by
  have hderef : ∀ t, D.deref w t = .ok (scalarVar spelling stype, t) := fun t => Defs.deref_of_some hvar
  have hslot : ∀ t, derefSlot w [] t = .ok ((), t) := fun t => rfl
  have hraise : raiseBound D (calls D d) (scalarVar spelling stype) ⟨w, []⟩ s = .ok ((), s) := rfl
  have hlevel : (scalarVar spelling stype).level = 0 := rfl
  have hcreate : varSlotGetOrCreate D (calls D d).depth ⟨w, []⟩ s = .ok ((), s) := by
    simp only [varSlotGetOrCreate, bind_apply, hderef, hlevel, varNArray, pure_apply,
      List.take_zero, growPath]
  have hadmits : AccessMode.weak.admits .scriptTransient (s.entry w []).priority = true :=
    decide_eq_true hlow
  have hbase : ¬ (Priority.scriptTransient < (scalarVar spelling stype).priority) := lt_irrefl _
  have haccess : varInstanceGetSlotForWriting D (calls D d) ⟨w, []⟩ .weak .scriptTransient false s =
      .ok (.granted, s) := by
    simp only [varInstanceGetSlotForWriting, bind_apply, hderef, hbase, and_false, if_false, hlevel,
      List.length_nil, Nat.lt_irrefl, openSlot, hraise, hcreate, hslot, get_apply, Nat.sub_self,
      varSlotGetPriority, hadmits, if_true, pure_apply]
  let r : SetRequest := ⟨⟨w, []⟩, some text, extra, .weak, .scriptTransient, true, false⟩
  have hconforms : conforms D (scalarVar spelling stype) r s =
      .ok (D.types.vartypeMatch stype text, s) := rfl
  let stored : SlotEntry := { s.entry w [] with value := some text }
  have hstore : storeValue D (calls D d).depth (scalarVar spelling stype) ⟨w, []⟩ text s =
      .ok ((), s.setEntry w [] stored) := by
    have hclients : (scalarVar spelling stype).varNClients = [] := rfl
    simp only [storeValue, bind_apply, get_apply, modify_apply, hclients, List.forM_nil]
    split
    · rfl
    · rfl
  have hcommit : commit D (calls D d).depth (scalarVar spelling stype) r s =
      .ok ((), s.setEntry w [] { stored with
        extra := extra.or stored.extra, priority := .scriptTransient }) := by
    have hentry : (s.setEntry w [] stored).entry w [] = stored := by simp
    have hrequest : storeOptionalValue D (calls D d).depth (scalarVar spelling stype) r.inst r.value s =
        .ok ((), s.setEntry w [] stored) := hstore
    unfold commit
    rw [bind_of_ok hrequest, modify_apply]
    refine congrArg (fun t => Except.ok ((), t)) ?_
    unfold Slots.updateEntry
    show (s.setEntry w [] stored).setEntry w [] { (s.setEntry w [] stored).entry w [] with
      extra := extra.or ((s.setEntry w [] stored).entry w []).extra, priority := .scriptTransient } = _
    rw [hentry, Slots.setEntry_setEntry]
  show ∃ result e, varInstanceDoSetValue D (calls D d) r s = .ok (result, s.setEntry w [] e)
  have hcomplete : ¬ (r.inst.indices.length < (scalarVar spelling stype).level) := Nat.not_lt_zero _
  unfold varInstanceDoSetValue
  rw [bind_of_ok (hderef s), if_neg hcomplete, bind_of_ok haccess]
  dsimp only
  rw [bind_of_ok hconforms]
  cases D.types.vartypeMatch stype text with
  | false => exact ⟨.failed, s.entry w [], by rw [Slots.setEntry_self]; rfl⟩
  | true => exact ⟨.written, _, bind_of_ok hcommit⟩

theorem Store.HoldsArray.setOther (h : st.HoldsArray E name bound type v b texts) {w : VarId} (hv : v ≠ w)
    (hb : b ≠ w) (p : List UInt32) (e : SlotEntry) :
    (Store.mk st.graph (st.slots.setEntry w p e)).HoldsArray E name bound type v b texts := by
  refine ⟨h.valid, h.defined, ?_, h.holds.numSlots, fun j text hj => ?_⟩
  · have hentry : (st.slots.setEntry w p e).entry b [] = st.slots.entry b [] := by
      rw [Slots.setEntry_entry, if_neg fun hsame => hb hsame.1]
    obtain ⟨hsmall, hvalue, hcached, hidle, hpriority⟩ := h.holds.bound
    rw [← hentry] at hvalue hcached hidle hpriority
    exact ⟨hsmall, hvalue, hcached, hidle, hpriority⟩
  · show (st.slots.setEntry w p e).entry v [j] = _
    rw [Slots.setEntry_entry, if_neg fun hsame => hv hsame.1]
    exact h.holds.entry j text hj

theorem Store.HoldsArray.addWeakDeclaration (h : st.HoldsArray E name bound type v b texts)
    {loopVar : CString} (hupper : loopVar.map Char.toUpper = loopVar) (hvalid : isVarName loopVar = true)
    (hplaceholders : numPlaceholders loopVar = 0) (hfree : st.graph.Free E.graphEnv loopVar)
    (hname : ArrayName name bound) (hbound : sameName loopVar bound = false) (value : CString)
    (numeric : Bool) :
    ∃ st', Mkfli4l.addWeakDeclaration E loopVar value numeric st = .ok ((), st') ∧
      st'.graph = st.graph.enrolled (scalarVar loopVar (E.scriptType numeric)) ∧
      st'.HoldsArray E name bound type v b texts := by
  have h₂ := h.initFrom.enrolled hplaceholders hfree.member hname hbound (E.scriptType numeric)
  let st₂ : Store := ⟨st.graph.enrolled (scalarVar loopVar (E.scriptType numeric)),
    (st.slots.initFrom st.graph.nextId).initFrom st.graph.nextId⟩
  have hmissing : (Store.mk st.graph (st.slots.initFrom st.graph.nextId)).graph.tryGetMember loopVar = none :=
    hfree.member
  have hadd : addDeclaration E loopVar numeric ⟨st.graph, st.slots.initFrom st.graph.nextId⟩ =
      .ok (some st.graph.nextId, st₂) := addDeclaration_scalar hvalid hplaceholders hmissing numeric
  have hvar : (E.defs st₂.graph).vars st.graph.nextId = some (scalarVar loopVar (E.scriptType numeric)) := by
    rw [(E.describes st₂.graph h₂.valid).1]
    show (allocVar st.graph (scalarVar loopVar (E.scriptType numeric))).vars st.graph.nextId = _
    rw [allocVar_vars (by simp [scalarVar]), if_pos rfl]
  have hlow : (st₂.slots.entry st.graph.nextId []).priority ≤ .scriptTransient := by
    rw [Slots.initFrom_entry_new (le_refl _)]
    decide
  obtain ⟨r, e, hwrite⟩ := setScalar hvar hlow value (some ⟨false, false⟩) (E.room + 3)
  have hv := h.defined.lt_nextId h.valid
  have hb := h.defined.bound.lt_nextId h.valid
  refine ⟨⟨st₂.graph, st₂.slots.setEntry st.graph.nextId [] e⟩, ?_, rfl,
    Store.HoldsArray.setOther h₂ (Nat.ne_of_lt hv) (Nat.ne_of_lt hb) [] e⟩
  have hset : onSlots E (fun D c => do
      let _ ← varInstanceSetAndCheckValue D c ⟨st.graph.nextId, []⟩ (some value) (some ⟨false, false⟩) .weak
        .scriptTransient
      pure ()) st₂ = .ok ((), ⟨st₂.graph, st₂.slots.setEntry st.graph.nextId [] e⟩) :=
    onSlots_ok (bind_of_ok hwrite)
  unfold Mkfli4l.addWeakDeclaration
  simp only [hupper]
  rw [bind_of_ok hfree.lookup]
  dsimp only
  rw [bind_of_ok hadd]
  exact hset

theorem Store.HoldsArray.foreachRound (h : st.HoldsArray E name bound type v b texts)
    {loopVar : CString} (hupper : loopVar.map Char.toUpper = loopVar) (hvalid : isVarName loopVar = true)
    (hplaceholders : numPlaceholders loopVar = 0) (hfree : st.graph.Free E.graphEnv loopVar)
    (hname : ArrayName name bound) (hbound : sameName loopVar bound = false)
    (helement : st.graph.NamesElement E.graphEnv (varInstanceToString name [j]) name j)
    (hj : texts[j.toNat]? = some text) (hsmall : j.toNat < 2147483647)
    (hmatch : E.types.vartypeMatch type text = true) (setVar : CString) (body : ScriptExec Unit) :
    ∃ stype st', Mkfli4l.foreachRound E loopVar setVar v body [j] st = body st' ∧
      st'.graph = st.graph.enrolled (scalarVar loopVar stype) ∧
      st'.HoldsArray E name bound type v b texts := by
  obtain ⟨st₁, hget, hgraph₁, h₁⟩ := h.getVariable helement hj hsmall hmatch
  obtain ⟨st₂, hnumeric, hgraph₂, h₂⟩ := h₁.isVarNumeric (by rw [hgraph₁]; exact helement)
  obtain ⟨st₃, hdeclare, hgraph₃, h₃⟩ := h₂.addWeakDeclaration hupper hvalid hplaceholders
    (by rw [hgraph₂, hgraph₁]; exact hfree) hname hbound text (decide (type = E.graphEnv.arrayBoundType))
  refine ⟨_, st₃, ?_, by rw [hgraph₃, hgraph₂, hgraph₁], h₃⟩
  have hlabel : elementName v [j] st = .ok (varInstanceToString name [j], st) := by
    unfold elementName
    rw [bind_apply, get_apply]
    simp only [h.defined.array]
    rfl
  unfold Mkfli4l.foreachRound
  rw [bind_of_ok hlabel, bind_of_ok hget]
  dsimp only
  rw [bind_of_ok hnumeric, bind_of_ok hdeclare]

/-! ### Going through the array -/

/-- The iterator that has delivered so many elements of the array. -/
structure InMemory.ValueIterator.After (B : InMemory.Blocks) (v : VarId) (k : ℕ)
    (it : InMemory.ValueIterator) : Prop where
  indices : it.indices.length = 1
  iter : it.iter = some (InMemory.framesAfter B v k)
  all : it.all = false

theorem Store.HoldsArray.initSetVarIteration (h : st.HoldsArray E name bound type v b texts)
    (B : InMemory.Blocks) :
    ∃ it, Mkfli4l.initSetVarIteration E B name st =
        .ok (some (v, it), ⟨st.graph, st.slots.initFrom st.graph.nextId⟩) ∧ it.After B v 0 := by
  refine ⟨⟨[0], some [InMemory.rootAt (-1)], none, false⟩, ?_, rfl, rfl, rfl⟩
  unfold Mkfli4l.initSetVarIteration
  rw [bind_of_ok h.lookup]
  dsimp only
  exact onSlots_ok (bind_of_ok (Defs.deref_of_some h.initFrom.transient.array))

theorem Store.HoldsArray.callNext_element (h : st.HoldsArray E name bound type v b texts)
    {k : ℕ} {it : InMemory.ValueIterator} (hit : it.After B v k)
    (hk : texts[k]? = some text) (hsmall : k < 2147483647)
    (hmatch : E.types.vartypeMatch type text = true) (rounds : ℕ) :
    ∃ it' st', callNext E v (rounds + 2) (fun _ => B) it st = .ok ((true, it'), st') ∧
      it'.indices = [UInt32.ofNat k] ∧ it'.After B v (k + 1) ∧ st'.graph = st.graph ∧
      st'.HoldsArray E name bound type v b texts := by
  have hindex : (UInt32.ofNat k).toNat = k :=
    UInt32.toNat_ofNat_of_lt' (by unfold UInt32.size; omega)
  have hlt := (List.getElem?_eq_some_iff.mp hk).1
  obtain ⟨value, e, hread, hvalue, h'⟩ := h.readValue (by rw [hindex]; exact hk) (by omega) hmatch
  have harray := h.transient.array
  have hnum := h.holds.numSlots
  have hseek := InMemory.seekLeaf_framesAfter (B := B) (s := st.slots) harray rfl (k := k) (by omega)
    (by omega) rounds
  rw [if_neg (by omega)] at hseek
  have hcopy : copyIndices it.indices ([InMemory.rootAt k].map InMemory.SlotFrame.iterator) =
      [UInt32.ofNat k] := by
    obtain ⟨i, hi⟩ := List.length_eq_one_iff.mp hit.indices
    have hposition : toUInt32 (k : ℤ) = UInt32.ofNat k := by
      apply UInt32.toNat_inj.mp
      have hnat := toNat_toUInt32 (n := (k : ℤ)) (by omega) (by omega)
      omega
    rw [hi, ← hposition]
    rfl
  have hkeep : ¬ Mkfli4l.ValueIterator.skips false (some value) = true := by
    simp [Mkfli4l.ValueIterator.skips, hvalue]
  refine ⟨⟨[UInt32.ofNat k], some (InMemory.framesAfter B v (k + 1)), some value, false⟩,
    ⟨st.graph, st.slots.setEntry b [] e⟩, onSlots_ok ?_, rfl, ⟨rfl, rfl, rfl⟩, rfl, h'⟩
  have hlevel : (scriptVar name type b).level = 1 := rfl
  have hi : (0 : ℤ) ≤ ((InMemory.rootAt k).entry B v).iterator.i := le_refl 0
  unfold InMemory.varValueIteratorNext
  rw [hit.iter]
  dsimp only
  rw [bind_of_ok (Defs.deref_of_some harray), hlevel, InMemory.seekValue, bind_of_ok hseek,
    InMemory.framesAfter]
  dsimp only
  rw [if_pos hi, hcopy, bind_of_ok hread, hit.all, if_neg hkeep]
  rfl

theorem Store.HoldsArray.callNext_end (h : st.HoldsArray E name bound type v b texts)
    {it : InMemory.ValueIterator} (hit : it.After B v texts.length)
    (hsmall : texts.length ≤ 2147483647) (rounds : ℕ) :
    ∃ it', callNext E v (rounds + 2) (fun _ => B) it st = .ok ((false, it'), st) := by
  have harray := h.transient.array
  have hnum := h.holds.numSlots
  have hseek := InMemory.seekLeaf_framesAfter (B := B) (s := st.slots) harray rfl (k := texts.length)
    (by omega) hsmall rounds
  rw [if_pos hnum.symm] at hseek
  have hlevel : (scriptVar name type b).level = 1 := rfl
  have hi : ¬ (0 : ℤ) ≤ (InMemory.rootAt (-1)).iterator.i := by decide
  refine ⟨{ it with iter := some [InMemory.rootAt (-1)], last := none }, onSlots_ok (s := st.slots) ?_⟩
  unfold InMemory.varValueIteratorNext
  rw [hit.iter]
  dsimp only
  rw [bind_of_ok (Defs.deref_of_some harray), hlevel, InMemory.seekValue, bind_of_ok hseek]
  dsimp only
  rw [if_neg hi]
  rfl

theorem Store.HoldsArray.quietReads (h : st.HoldsArray E name bound type v b texts)
    (hsmall : texts.length ≤ 2147483647) :
    InMemory.QuietReads (E.defs st.graph) (E.callees st.graph) v 1 st.slots := by
  have hread : ∀ u p, (Store.mk st.graph u).HoldsArray E name bound type v b texts →
      u.numSlots v = st.slots.numSlots v → p.length = 1 → u.has v p = true →
      ∃ r u', varInstanceReadValue (E.defs st.graph) (E.callees st.graph) ⟨v, p⟩ u = .ok (r, u') ∧
        (Store.mk st.graph u').HoldsArray E name bound type v b texts ∧
        u'.numSlots v = st.slots.numSlots v := by
    intro u p hu hsame hlength hhas
    obtain ⟨j, rfl⟩ := List.length_eq_one_iff.mp hlength
    have hlt := ((Slots.has_concat_iff (s := u) (v := v) [] j).mp hhas).2
    rw [UInt32.lt_iff_toNat_lt] at hlt
    have hnum : (u.numSlots v []).toNat = texts.length := hu.holds.numSlots
    have hj : texts[j.toNat]? = some texts[j.toNat] := List.getElem?_eq_getElem (by omega)
    obtain ⟨value, e, hrun, hholds, -⟩ := hu.holds.readValue hu.transient hj (by omega) E.room
    exact ⟨some value, _, hrun, ⟨hu.valid, hu.defined, hholds⟩, hsame⟩
  have hlead : ∀ u, InMemory.ReadsLead (E.defs st.graph) (E.callees st.graph) v 1 st.slots u →
      (Store.mk st.graph u).HoldsArray E name bound type v b texts ∧
        u.numSlots v = st.slots.numSlots v := by
    intro u hu
    induction hu with
    | refl => exact ⟨h, rfl⟩
    | tail _ hstep ih =>
        obtain ⟨p, r, hlength, hhas, hrun⟩ := hstep
        obtain ⟨r', u', hrun', hu', hsame'⟩ := hread _ p ih.1 ih.2 hlength hhas
        rw [hrun] at hrun'
        obtain ⟨-, rfl⟩ := Prod.mk.inj (Except.ok.inj hrun')
        exact ⟨hu', hsame'⟩
  refine ⟨fun u p hu hlength hhas => ?_, fun u hu => (hlead u hu).2⟩
  obtain ⟨hholds, hsame⟩ := hlead u hu
  rw [← InMemory.has_of_numSlots_eq hsame] at hhas
  obtain ⟨r, u', hrun, -⟩ := hread u p hholds hsame hlength hhas
  exact ⟨r, u', hrun⟩

theorem Store.HoldsArray.stillThere (h : st.HoldsArray E name bound type v b texts)
    {k : ℕ} {it : InMemory.ValueIterator} (hit : it.After B v k)
    (hk : k ≤ texts.length) (hsmall : texts.length ≤ 2147483647) :
    StillThere E v (fun _ => B) (scriptVar name type b) st it := by
  have hnum := h.holds.numSlots
  refine ⟨h.transient.array, hit.indices, fun leaf parents hiter => ?_, fun iter hiter => ?_, fun _ => rfl, ?_,
    h.quietReads hsmall⟩
  · rw [hit.iter] at hiter
    cases k with
    | zero =>
        obtain ⟨rfl, -⟩ := List.cons.inj (Option.some.inj hiter)
        exact Slots.has_nil
    | succ j =>
        obtain ⟨rfl, -⟩ := List.cons.inj (Option.some.inj hiter)
        have hindex : (toUInt32 (j : ℤ)).toNat = j := by
          have hnat := toNat_toUInt32 (n := (j : ℤ)) (by omega) (by omega)
          omega
        refine (Slots.has_concat_iff (s := st.slots) (v := v) [] (toUInt32 (j : ℤ))).mpr ⟨Slots.has_nil, ?_⟩
        rw [UInt32.lt_iff_toNat_lt, hindex]
        omega
  · rw [hit.iter] at hiter
    obtain rfl := Option.some.inj hiter
    intro f hf hlevel
    cases k with
    | zero =>
        obtain rfl := List.mem_singleton.mp hf
        rfl
    | succ j =>
        rcases List.mem_cons.mp hf with rfl | hf
        · exact absurd rfl hlevel
        · obtain rfl := List.mem_singleton.mp hf
          rfl
  · intro p _ hinner _
    obtain rfl := List.length_eq_zero_iff.mp (Nat.lt_one_iff.mp hinner)
    show (st.slots.numSlots v []).toNat ≤ 2147483647
    omega

theorem Store.HoldsArray.scriptArray (h : st.HoldsArray E name bound type v b texts)
    (htemplates : ∀ tmpl spelling, E.graphEnv.regexec tmpl spelling = false) :
    ScriptArray E name bound st where
  valid := h.valid
  template := fun tmpl _ spelling _ => htemplates tmpl.name spelling
  boundTemplate := fun tmpl _ spelling _ => htemplates tmpl.name spelling
  array := .inr ⟨type, v, b, h.defined, ⟨_, h.holds.bound⟩, h.holds.elementsLow⟩

theorem Store.HoldsArray.split_removes (h : st.HoldsArray E name bound type v b texts)
    (hname : ArrayName name bound) (hspelling : spelling.map Char.toUpper = name)
    {c : Char} {st' : Store} (hrun : Mkfli4l.split E spelling false text c st = .ok ((), st')) :
    st'.graph.vars v = none := by
  obtain ⟨w, st₁, hdeclare, hwrites⟩ := bind_ok_iff.mp hrun
  unfold checkAddWeakDeclaration at hdeclare
  simp only [hspelling] at hdeclare
  rw [bind_of_ok h.lookup] at hdeclare
  obtain ⟨cleared, st₂, hclear, hdeclare⟩ := bind_ok_iff.mp hdeclare
  obtain ⟨s₂, -, rfl⟩ := onSlots_ok_iff.mp hclear
  have hpriority : (scriptVar name type b).priority = .scriptTransient := rfl
  have hremoved : onGraph (fun g => ((), varRemove g v)) ⟨st.graph, s₂⟩ =
      .ok ((), ⟨varRemove st.graph v, s₂.initFrom st.graph.nextId⟩) := rfl
  simp only [if_true, bind_apply, get_apply, h.defined.array, hpriority, hremoved] at hdeclare
  have hgone : (varRemove st.graph v).vars v = none := by
    rw [h.valid.varRemove_vars h.defined.array, if_pos rfl]
  obtain ⟨hfree, hbound⟩ := h.defined.remove h.valid
  have hadd : varAddWithArrayBound E.graphEnv ⟨name, E.scriptType false, .scriptTransient, scriptProps⟩ none
      (varRemove st.graph v) = _ := addArray_of_hasBound hname hfree hbound (E.scriptType false)
  have hlt : b < (varRemove st.graph v).nextId := hbound.lt_nextId (h.valid.remove v)
  have hlinked : (scriptVar name (E.scriptType false) b).varN ≠ some (varRemove st.graph v).nextId := by
    intro hsame
    exact Nat.ne_of_lt hlt (Option.some.inj hsame)
  have hv : v ≠ (varRemove st.graph v).nextId := by
    rw [h.defined.remove_nextId h.valid]
    exact Nat.ne_of_lt (h.defined.lt_nextId h.valid)
  have hnew : ((varRemove st.graph v).enrolled (scriptVar name (E.scriptType false) b)).vars v = none := by
    show (allocVar (varRemove st.graph v) (scriptVar name (E.scriptType false) b)).vars v = none
    rw [allocVar_vars hlinked, if_neg hv, hgone]
    rfl
  unfold addDeclaration at hdeclare
  rw [onGraph_apply, hadd] at hdeclare
  obtain ⟨rfl, rfl⟩ := Prod.mk.inj (Except.ok.inj hdeclare)
  obtain ⟨s', -, rfl⟩ := onSlots_ok_iff.mp hwrites
  exact hnew

/-- Clear an array and fill it again, as `=~` and `fgrep` do with theirs. -/
def refill (E : ScriptEnv) (spelling : CString) (texts : List CString) : ScriptExec Unit := do
  let v ← checkAddWeakDeclaration E spelling false false
  match v with
  | none => throw .fatalExit
  | some v => onSlots E fun D c => writeElements D c v 0 texts

theorem Store.HoldsArray.refill (h : st.HoldsArray E name bound type v b texts)
    {spelling : CString} (hspelling : spelling.map Char.toUpper = name) {filled : List CString}
    (hlen : filled.length < 4294967296) :
    ∃ st', Mkfli4l.refill E spelling filled st = .ok ((), st') ∧
      st'.HoldsArray E name bound type v b filled := by
  have h₁ := h.initFrom
  obtain ⟨s, hclear, hbound, hempty⟩ :=
    varInstanceClear_array h₁.transient h₁.holds.bound h₁.holds.elementsLow E.room
  have hroom : ([] : List CString).length + filled.length < 4294967296 := by
    rwa [List.length_nil, Nat.zero_add]
  obtain ⟨s', hwrites, hholds⟩ :=
    writeElements_holds h₁.transient E.room (.nil hbound hempty) (i := 0) rfl hroom
  refine ⟨⟨st.graph, s'⟩, ?_, h.valid, h.defined, hholds⟩
  have hdeclare : checkAddWeakDeclaration E spelling false false st = .ok (some v, ⟨st.graph, s⟩) := by
    unfold checkAddWeakDeclaration
    simp only [hspelling]
    rw [bind_of_ok h.lookup]
    exact bind_of_ok (onSlots_ok hclear)
  unfold Mkfli4l.refill
  rw [bind_of_ok hdeclare]
  exact onSlots_ok hwrites

theorem callNext_removed {it : InMemory.ValueIterator}
    {iter : List InMemory.SlotFrame} (hvalid : st.graph.Valid E.graphEnv) (hgone : st.graph.vars v = none)
    (hiter : it.iter = some iter) :
    callNext E v rounds blocks it st = .error (.fault .nullPointer) := by
  have hnone : (E.defs st.graph).vars v = none := by
    rw [(E.describes st.graph hvalid).1]
    exact hgone
  have hderef : (E.defs st.graph).deref v st.slots = .error .nullPointer := by
    unfold Defs.deref
    rw [hnone]
    rfl
  have hnext : InMemory.varValueIteratorNext (E.defs st.graph) (E.callees st.graph) v rounds blocks it
      st.slots = .error .nullPointer := by
    unfold InMemory.varValueIteratorNext
    rw [hiter]
    dsimp only
    rw [bind_apply, hderef]
  unfold callNext onSlots
  dsimp only
  rw [hnext]

end rounds

/-! ### The property of the loop -/

/-- In every run of `foreach` in which the element of the last round is still there whenever the iterator is
called, each call of the iterator comes back, with an element that has a slot or at the end, and the loop
ends if from some round on no elements are added. -/
theorem foreach_survives {E : ScriptEnv} {loopVar setVar : CString} {world : ℕ → RoundInput}
    {st st₀ : Store} {v : VarId} {it₀ : InMemory.ValueIterator}
    (hinit : initSetVarIteration E ((world 0).blocks 0) setVar st = .ok (some (v, it₀), st₀))
    (hthere : ∀ n st it, ForeachRun E loopVar setVar v world st₀ it₀ n st it →
      ∃ var, StillThere E v (world n).blocks var st it) :
    (∀ n st it, ForeachRun E loopVar setVar v world st₀ it₀ n st it →
      ∃ needed more it₁ st₁, (more = true → st₁.slots.has v it₁.indices = true) ∧
        ∀ rounds ≥ needed, callNext E v rounds (world n).blocks it st = .ok ((more, it₁), st₁)) ∧
    ((∃ N, ∀ n ≥ N, AddsNothing E loopVar setVar v world st₀ it₀ n) →
      ∃ result, ForeachEnds E loopVar setVar v world st₀ it₀ result ∧
        ∃ needed, ∀ rounds ≥ needed, ∀ calls ≥ needed,
          foreachIdset E loopVar setVar world rounds calls st = result) := by
  have hstart := resting_of_init hinit
  constructor
  · intro n st it h
    obtain ⟨var, hvar⟩ := hthere n st it h
    obtain ⟨iter, hstands⟩ := (h.resting hstart hthere).stands hvar
    obtain ⟨needed, more, it₁, st₁, hcall, -, hmore⟩ := hstands.callNext hvar
    exact ⟨needed, more, it₁, st₁, fun htrue => (hmore htrue).1, fun rounds hrounds =>
      callNext_of_more hrounds hcall⟩
  · rintro ⟨N, hnothing⟩
    obtain ⟨result, hends⟩ := foreachEnds_of_addsNothing hstart hthere hnothing
    obtain ⟨needed, hneeded⟩ := hends.loop
    refine ⟨result, hends, needed, fun rounds hrounds calls hcalls => ?_⟩
    unfold foreachIdset
    rw [bind_of_ok hinit]
    exact hneeded rounds hrounds calls hcalls

/-! ### Iterating over `X_%` -/

/-- The definitions behind `split` into a new array `X_%`. -/
def sampleArrayGraph : Graph :=
  (varAddWithArrayBound sampleEnv (arraySpec "X_%".toList 1) none Graph.empty).2

theorem split_holds (hlen : (splitTexts ',' text).length < 4294967296) :
    ∃ b st, split sampleScripts "x_%".toList false text ',' Store.empty = .ok ((), st) ∧
      st.graph = sampleArrayGraph ∧
      st.HoldsArray sampleScripts "X_%".toList "X_N".toList 1 1 b (splitTexts ',' text) := by
  have harray := (unused_empty sampleScripts "X_%".toList "X_N".toList).scriptArray
  have hspelling : "x_%".toList.map Char.toUpper = "X_%".toList := by decide
  obtain ⟨v, b, st₁, hdeclare, hdeclared⟩ :=
    checkAddWeakDeclaration_declared arrayName_X harray hspelling false true
  have hcomputed : checkAddWeakDeclaration sampleScripts "x_%".toList false true Store.empty =
      .ok (some 1, ⟨sampleArrayGraph, (Slots.init.initFrom 0).initFrom 0⟩) := rfl
  rw [hdeclare] at hcomputed
  obtain ⟨hv, hst⟩ := Prod.mk.inj (Except.ok.inj hcomputed)
  obtain rfl := Option.some.inj hv
  have htype : sampleScripts.typeAfter Store.empty.graph "X_%".toList false true = 1 := rfl
  rw [htype] at hdeclared
  have hfirst : (0 : UInt32).toNat = ([] : List CString).length := rfl
  have hroom : ([] : List CString).length + (splitTexts ',' text).length < 4294967296 := by
    rwa [List.length_nil, Nat.zero_add]
  obtain ⟨s, hwrites, hholds⟩ :=
    writeElements_holds hdeclared.transient sampleScripts.room hdeclared.holdsTexts hfirst hroom
  refine ⟨b, ⟨st₁.graph, s⟩, ?_, by rw [hst], hdeclared.valid, hdeclared.defined, hholds⟩
  unfold split
  rw [bind_of_ok hdeclare]
  exact onSlots_ok hwrites

theorem foreach_first_round (body : ScriptExec Unit) {first : CString} {rest : List CString}
    (htexts : splitTexts ',' text = first :: rest) (hlen : (first :: rest).length < 4294967296) :
    ∃ b st it₀ st₀ it₁ st₁ st₂,
      st.HoldsArray sampleScripts "X_%".toList "X_N".toList 1 1 b (first :: rest) ∧
      split sampleScripts "x_%".toList false text ',' Store.empty = .ok ((), st) ∧
      initSetVarIteration sampleScripts (fun _ _ => 0) "X_%".toList st = .ok (some (1, it₀), st₀) ∧
      st₀.HoldsArray sampleScripts "X_%".toList "X_N".toList 1 1 b (first :: rest) ∧
      it₀.After (fun _ _ => 0) 1 0 ∧
      callNext sampleScripts 1 2 (fun _ _ _ => 0) it₀ st₀ = .ok ((true, it₁), st₁) ∧
      it₁.After (fun _ _ => 0) 1 1 ∧
      foreachRound sampleScripts ['M'] "X_%".toList 1 body it₁.indices st₁ = body st₂ ∧
      st₂.HoldsArray sampleScripts "X_%".toList "X_N".toList 1 1 b (first :: rest) := by
  obtain ⟨b, st, hsplit, hgraph, h⟩ := split_holds (htexts.symm ▸ hlen)
  rw [htexts] at h
  obtain ⟨it₀, hinit, hit₀⟩ := h.initSetVarIteration fun _ _ => 0
  have htemplate : ∀ g spelling, NoTemplate sampleScripts.graphEnv g spelling := fun _ _ _ _ _ _ => rfl
  have htext : (first :: rest)[0]? = some first := rfl
  obtain ⟨it₁, st₁, hcall, hindices, hit₁, hgraph₁, h₁⟩ :=
    h.initFrom.callNext_element hit₀ htext (by decide) rfl 0
  have hgraph₁ : st₁.graph = sampleArrayGraph := hgraph₁.trans hgraph
  have hfree : ∀ spelling, sampleArrayGraph.tryGetMember spelling = none →
      st₁.graph.Free sampleScripts.graphEnv spelling := by
    intro spelling hmissing
    exact ⟨by rw [hgraph₁]; exact hmissing, htemplate _ _⟩
  have hspelling : varInstanceToString "X_%".toList [UInt32.ofNat 0] = "X_1".toList := by decide
  have helement : st₁.graph.NamesElement sampleScripts.graphEnv
      (varInstanceToString "X_%".toList [UInt32.ofNat 0]) "X_%".toList (UInt32.ofNat 0) := by
    rw [hspelling]
    exact ⟨hfree _ (by decide), by decide, by decide⟩
  have hloopVar : st₁.graph.Free sampleScripts.graphEnv ['M'] := hfree _ (by decide)
  obtain ⟨stype, st₂, hround, -, h₂⟩ := h₁.foreachRound (by decide) (by decide) (by decide) hloopVar
    arrayName_X (by decide) helement htext (by decide) rfl "X_%".toList body
  rw [← hindices] at hround
  exact ⟨b, st, it₀, _, it₁, st₁, st₂, h, hsplit, hinit, h.initFrom, hit₀, hcall, hit₁, hround, h₂⟩

/-- The rounds over the array with one and the same body. -/
def sampleRounds (body : ScriptExec Unit) : ℕ → RoundInput := fun _ => ⟨fun _ _ _ => 0, body⟩

/-- A loop over two elements whose body clears the array and fills it with one: the element of the first
round is there again when the iterator is called, and the loop ends with it. -/
theorem foreach_survives_refill :
    ∃ b st st', split sampleScripts "x_%".toList false "a,b".toList ',' Store.empty = .ok ((), st) ∧
      st.HoldsArray sampleScripts "X_%".toList "X_N".toList 1 1 b [['a'], ['b']] ∧
      st'.HoldsArray sampleScripts "X_%".toList "X_N".toList 1 1 b [['c']] ∧
      ∃ needed, ∀ rounds ≥ needed, ∀ calls ≥ needed,
        foreachIdset sampleScripts ['M'] "X_%".toList
          (sampleRounds (refill sampleScripts "x_%".toList [['c']])) rounds calls st = .ok ((), st') := by
  have htexts : splitTexts ',' "a,b".toList = [['a'], ['b']] := by
    rw [splitTexts_of_ne_blank (by decide)]
    decide
  obtain ⟨b, st, it₀, st₀, it₁, st₁, st₂, hheld, hsplit, hinit, h₀, hit₀, hcall, hit₁, hround, h₂⟩ :=
    foreach_first_round (refill sampleScripts "x_%".toList [['c']]) htexts (by decide)
  obtain ⟨st₃, hbody, h₃⟩ := h₂.refill (show "x_%".toList.map Char.toUpper = "X_%".toList by decide)
    (show [['c']].length < 4294967296 by decide)
  obtain ⟨it₂, hend⟩ := h₃.callNext_end hit₁ (by decide) 0
  have hrest := hround.trans hbody
  have hruns : ∀ n st' it', ForeachRun sampleScripts ['M'] "X_%".toList 1
      (sampleRounds (refill sampleScripts "x_%".toList [['c']])) st₀ it₀ n st' it' →
      (n = 0 ∧ st' = st₀ ∧ it' = it₀) ∨ (n = 1 ∧ st' = st₃ ∧ it' = it₁) := by
    intro n st' it' hrun
    induction hrun with
    | start => exact .inl ⟨rfl, rfl, rfl⟩
    | @round n rounds st' st'' st₄ it' it'' run call rest ih =>
        rcases ih with ⟨rfl, rfl, rfl⟩ | ⟨rfl, rfl, rfl⟩
        · obtain ⟨hsame, rfl⟩ := Prod.mk.inj (callNext_unique call hcall)
          obtain ⟨-, rfl⟩ := Prod.mk.inj hsame
          obtain ⟨-, rfl⟩ := Prod.mk.inj (Except.ok.inj (rest.symm.trans hrest))
          exact .inr ⟨rfl, rfl, rfl⟩
        · -- the second call has come to the end
          obtain ⟨hsame, -⟩ := Prod.mk.inj (callNext_unique call hend)
          exact nomatch (Prod.mk.inj hsame).1
  have hthere : ∀ n st' it', ForeachRun sampleScripts ['M'] "X_%".toList 1
      (sampleRounds (refill sampleScripts "x_%".toList [['c']])) st₀ it₀ n st' it' →
      ∃ var, StillThere sampleScripts 1
        (sampleRounds (refill sampleScripts "x_%".toList [['c']]) n).blocks var st' it' := by
    intro n st' it' hrun
    rcases hruns n st' it' hrun with ⟨rfl, rfl, rfl⟩ | ⟨rfl, rfl, rfl⟩
    · exact ⟨_, h₀.stillThere hit₀ (by decide) (by decide)⟩
    · exact ⟨_, h₃.stillThere hit₁ (by decide) (by decide)⟩
  have hnothing : ∀ n ≥ 1, AddsNothing sampleScripts ['M'] "X_%".toList 1
      (sampleRounds (refill sampleScripts "x_%".toList [['c']])) st₀ it₀ n := by
    intro n hn st' it' rounds it'' st'' st₄ hrun hcall' _ p _
    rcases hruns n st' it' hrun with ⟨rfl, -, -⟩ | ⟨rfl, rfl, rfl⟩
    · exact absurd hn (Nat.not_succ_le_zero 0)
    · obtain ⟨hsame, -⟩ := Prod.mk.inj (callNext_unique hcall' hend)
      exact nomatch (Prod.mk.inj hsame).1
  obtain ⟨result, hends, hloop⟩ := (foreach_survives hinit hthere).2 ⟨1, hnothing⟩
  obtain rfl := hends.unique (.finished (.round .start hcall hrest) hend)
  exact ⟨b, st, st₃, hsplit, hheld, h₃, hloop⟩

/-- A body that splits another string into the array removes the variable that the iterator leads to. -/
theorem foreach_dangles_after_split :
    ∃ st st₀ it₀ st₁ it₁, split sampleScripts "x_%".toList false ['a'] ',' Store.empty = .ok ((), st) ∧
      initSetVarIteration sampleScripts (fun _ _ => 0) "X_%".toList st = .ok (some (1, it₀), st₀) ∧
      ForeachRun sampleScripts ['M'] "X_%".toList 1
        (sampleRounds (split sampleScripts "x_%".toList false ['b'] ',')) st₀ it₀ 1 st₁ it₁ ∧
      st₁.graph.vars 1 = none ∧
      ∀ rounds, callNext sampleScripts 1 rounds (fun _ _ _ => 0) it₁ st₁ = .error (.fault .nullPointer) := by
  have htexts : splitTexts ',' ['a'] = [['a']] := by
    rw [splitTexts_of_ne_blank (by decide)]
    decide
  obtain ⟨b, st, it₀, st₀, it₁, st₁, st₂, -, hsplit, hinit, h₀, hit₀, hcall, hit₁, hround, h₂⟩ :=
    foreach_first_round (split sampleScripts "x_%".toList false ['b'] ',') htexts (by decide)
  have hspelling : "x_%".toList.map Char.toUpper = "X_%".toList := by decide
  have hsplittable : Splittable ',' ['b'] := ⟨by simp [BeginsWithField], by decide⟩
  have harray := h₂.scriptArray fun _ _ => rfl
  obtain ⟨st₃, hbody, -⟩ := split_reads arrayName_X harray hspelling hsplittable
  have htarget : (ArrayStatement.split "x_%".toList false ['b'] ',').target = "X_%".toList := hspelling
  have hexec : (ArrayStatement.split "x_%".toList false ['b'] ',').exec sampleScripts st₂ = .ok ((), st₃) :=
    hbody
  have hvalid := (ArrayStatement.exec_scriptArray arrayName_X harray htarget hexec).valid
  have hgone := h₂.split_removes arrayName_X hspelling hbody
  exact ⟨st, st₀, it₀, st₃, it₁, hsplit, hinit, .round .start hcall (hround.trans hbody), hgone,
    fun rounds => callNext_removed hvalid hgone hit₁.iter⟩

end Mkfli4l
