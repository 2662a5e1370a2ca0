import Mkfli4l.Var.Coverage
import Mkfli4l.Var.GraphRuns
import Mkfli4l.Var.ReadEffects

/-!
# Arrays that are defined late

A store consists of the definitions and of the slots.  Definitions and writes take turns in
any order: a bound may be written before an array is registered at it, and an array may come
into being as the instance of a template while values are written.

What an array bound promises is `Addressable`: every element below the number that is read for
the bound has a slot.  The arrays of the clients are extended in one place only, when a bound
is written (`storeValue`).  A client that is registered at a bound which holds a positive number
already finds no slots, and neither does one whose bound is positive by default.  In runs that
avoid both, the promise is kept in every state (`addressable_of_run`).
-/

namespace Mkfli4l

open Lib

/-- The definitions and the slots. -/
structure Store where
  graph : Graph
  slots : Slots

/-- The store in the beginning. -/
def Store.empty : Store := ⟨Graph.empty, Slots.init⟩

/-- `var_slot_init` of the variables that are created with identifiers from `n` on. -/
def Slots.initFrom (s : Slots) (n : VarId) : Slots :=
  { s with
    numSlots := fun v p => if n ≤ v then 0 else s.numSlots v p
    entry := fun v p => if n ≤ v then SlotEntry.init else s.entry v p }

/-- A call that changes the definitions, or one that reads or writes a value while the
conditions and default values of the definitions are given by `D`. -/
inductive StoreOp
  | define (op : GraphOp)
  | read (D : Defs) (depth : Nat) (inst : VarInstance)
  | write (D : Defs) (depth : Nat) (call : Call)

/-- The definitions `D` are those of the store. -/
def Defs.Describes (D : Defs) (E : GraphEnv) (g : Graph) : Prop :=
  D.vars = g.vars ∧ D.types.arrayBoundType = E.arrayBoundType

/-- The steps of a store, one for each call that comes back. -/
inductive StoreStep (E : GraphEnv) : StoreOp → Store → Store → Prop
  | define {op : GraphOp} {g g' : Graph} {s : Slots} (hexec : op.exec E g = some g') :
      StoreStep E (.define op) ⟨g, s⟩ ⟨g', s.initFrom g.nextId⟩
  | read {D : Defs} {depth : Nat} {inst : VarInstance} {g : Graph} {s s' : Slots}
      {r : Option VarValue} (hdefs : D.Describes E g)
      (hexec : varInstanceDoGetValue D (calls D depth) inst s = .ok (r, s')) :
      StoreStep E (.read D depth inst) ⟨g, s⟩ ⟨g, s'⟩
  | write {D : Defs} {depth : Nat} {call : Call} {g : Graph} {s s' : Slots} {res : WriteResult}
      (hdefs : D.Describes E g) (hexec : call.exec D (calls D depth) s = .ok (res, s')) :
      StoreStep E (.write D depth call) ⟨g, s⟩ ⟨g, s'⟩

/-- Every element of a client below the number that is read for its bound, be it stored or the
default value, can be addressed for reading. -/
def Addressable (D : Defs) (s : Slots) : Prop :=
  ∀ (b : VarId) (varN : Var) (v : VarId) (var : Var) (p : List UInt32) (depth : Nat)
    (value : VarValue) (s' : Slots) (text : CString) (n : Int) (i : UInt32),
    D.vars b = some varN → v ∈ varN.varNClients → D.vars v = some var →
    varInstanceDoGetValue D (calls D depth) ⟨b, p⟩ s = .ok (some value, s') →
    value.kind ≠ .disabled → value.value = some text → varValueConvertToInteger text = some n →
    (i.toNat : Int) < n → varInstanceGetSlotForReading s var ⟨v, p ++ [i]⟩ ≠ none

/-! ### Runs that do not leave arrays behind -/

/-- No bound with clients has a positive number as its default value. -/
def NoPositiveDefault (D : Defs) : Prop :=
  ∀ b varN p text, D.vars b = some varN → varN.varNClients ≠ [] → DefaultText D ⟨b, p⟩ text →
    boundNumber (some text) ≤ 0

/-- No slot of a variable on the given level holds a positive number, neither stored nor as a
cached default. -/
def HoldsNothing (s : Slots) (b : VarId) (level : Nat) : Prop :=
  ∀ p, p.length = level → s.has b p = true →
    boundNumber (s.entry b p).value ≤ 0 ∧ boundNumber (s.entry b p).defValue ≤ 0

/-- A call that leaves no array behind: it registers clients only at bounds that hold nothing
yet; when it reads or writes, it finds no bound with a positive default value and clears no
array. -/
def StoreOp.Tame (E : GraphEnv) (st : Store) : StoreOp → Prop
  | .define op => ∀ g' b varN v, op.exec E st.graph = some g' → st.graph.vars b = some varN →
      v ∈ g'.clientsOf b → v ∉ varN.varNClients → HoldsNothing st.slots b varN.level
  | .read D depth inst => NoPositiveDefault D ∧
      ∀ r s', varInstanceDoGetValue D (calls D depth) inst st.slots = .ok (r, s') →
        s'.clears = st.slots.clears
  | .write D depth call => NoPositiveDefault D ∧
      ∀ res s', call.exec D (calls D depth) st.slots = .ok (res, s') →
        s'.clears = st.slots.clears

/-- A run whose calls leave no array behind. -/
abbrev TameRun (E : GraphEnv) : Store → Store → Prop :=
  Relation.ReflTransGen fun st st' => ∃ op : StoreOp, op.Tame E st ∧ StoreStep E op st st'

/-! ### The definitions -/

section graph

variable {E : GraphEnv} {R : Graph → VarId → Prop} {P : Graph → VarId → VarProperties → Prop}
  {g g' : Graph}

theorem GraphMove.nextId_le (h : GraphMove E R P g g') (hvalid : g.Valid E) :
    g.nextId ≤ g'.nextId := by
  cases h with
  | burn => exact Nat.le_succ _
  | create hnew hclients hlevel hbound =>
      rw [allocVar_nextId]
      exact Nat.le_succ _
  | replaceProps hvar hallowed hclients => exact Nat.le_refl _
  | @remove v hallowed =>
      cases hv : g.vars v with
      | none =>
          rw [varRemove_of_dead hv]
      | some var =>
          rw [hvalid.varRemove_eq hv, varDestroy_nextId]
  | addTemplate tmpl hnew => exact Nat.le_refl _

theorem GraphMove.old_var (h : GraphMove E R P g g') (hvalid : g.Valid E) {u : VarId} {var' : Var}
    (hu : u < g.nextId) (hvar' : g'.vars u = some var') :
    ∃ var, g.vars u = some var ∧ var.level = var'.level := by
  cases h with
  | burn => exact ⟨var', hvar', rfl⟩
  | create hnew hclients hlevel hbound =>
      rcases allocVar_vars_cases (hbound.ne_nextId hvalid) hvar' with ⟨rfl, -⟩ | ⟨-, old, hold, rfl⟩
      · exact absurd hu (Nat.lt_irrefl _)
      · exact ⟨old, hold, by simp⟩
  | replaceProps hvar hallowed hclients =>
      rcases Graph.updateVar_vars_cases hvar' with ⟨rfl, old, hold, rfl⟩ | ⟨-, hold⟩
      · exact ⟨old, hold, rfl⟩
      · exact ⟨var', hold, rfl⟩
  | @remove v hallowed =>
      cases hv : g.vars v with
      | none =>
          rw [varRemove_of_dead hv] at hvar'
          exact ⟨var', hvar', rfl⟩
      | some var =>
          rw [hvalid.varRemove_vars hv] at hvar'
          split at hvar'
          · contradiction
          · obtain ⟨old, hold, rfl⟩ := Option.map_eq_some_iff.mp hvar'
            exact ⟨old, hold, rfl⟩
  | addTemplate tmpl hnew => exact ⟨var', hvar', rfl⟩

theorem GraphMoves.old_var (h : GraphMoves E R P g g') (hvalid : g.Valid E) {u : VarId}
    {var' : Var} (hu : u < g.nextId) (hvar' : g'.vars u = some var') :
    ∃ var, g.vars u = some var ∧ var.level = var'.level := by
  induction h using Relation.ReflTransGen.head_induction_on with
  | refl => exact ⟨var', hvar', rfl⟩
  | head hmove hmoves ih =>
      obtain ⟨var₁, hvar₁, hlevel₁⟩ :=
        ih (hmove.valid hvalid) (Nat.lt_of_lt_of_le hu (hmove.nextId_le hvalid))
      obtain ⟨var, hvar, hlevel⟩ := hmove.old_var hvalid hu hvar₁
      exact ⟨var, hvar, hlevel.trans hlevel₁⟩

end graph

/-! ### The slots -/

/-- No bound with clients has a positive number in a cache. -/
def CachedLow (vars : VarId → Option Var) (s : Slots) : Prop :=
  ∀ b varN p, vars b = some varN → varN.varNClients ≠ [] → p.length = varN.level →
    s.has b p = true → boundNumber (s.entry b p).defValue ≤ 0

variable {v : VarId} {A : SetRequest → Prop} {depth : Nat} {inst : VarInstance}

section slots

variable {D : Defs} {s s' : Slots}

theorem CachedLow.updateEntry (h : CachedLow D.vars s) {p : List UInt32} {f : SlotEntry → SlotEntry}
    (hf : (f (s.entry v p)).defValue = (s.entry v p).defValue ∨
      ∀ varN, D.vars v = some varN → varN.varNClients ≠ [] →
        boundNumber (f (s.entry v p)).defValue ≤ 0) :
    CachedLow D.vars (s.updateEntry v p f) := by
  intro b varN q hb hclients hlen hhas
  rw [Slots.updateEntry_has] at hhas
  have hold := h b varN q hb hclients hlen hhas
  rw [Slots.updateEntry_entry]
  split
  · next hhere =>
      obtain ⟨rfl, rfl⟩ := hhere
      rcases hf with hsame | hlow
      · rw [hsame]
        exact hold
      · exact hlow varN hb hclients
  · exact hold

theorem CachedLow.grows (h : CachedLow D.vars s) (hgrows : s.Grows D s') :
    CachedLow D.vars s' := by
  intro b varN p hb hclients hlen hhas
  by_cases hold : s.has b p = true
  · rw [hgrows.entry_eq b p hold]
    exact h b varN p hb hclients hlen hold
  · rw [hgrows.entry_new b varN p hb hlen (Bool.eq_false_iff.mpr hold) hhas]
    exact Int.le_refl 0

theorem CachedLow.move (hlow : NoPositiveDefault D)
    (hmove : Move D A s s') (hclears : s'.clears = s.clears) (h : CachedLow D.vars s) :
    CachedLow D.vars s' := by
  cases hmove with
  | @cacheDefault inst text hhas htext =>
      exact h.updateEntry (Or.inr fun varN hb hclients => hlow _ varN _ text hb hclients htext)
  | readActive inst active => exact h.updateEntry (Or.inl rfl)
  | cycle =>
      intro b varN p hb hclients hlen hhas
      rw [Slots.reportCycle_has] at hhas
      exact h b varN p hb hclients hlen hhas
  | create hgrows => exact h.grows hgrows
  | @write _ r _ _ hallowed hgranted hcommit =>
      have hupdated : CachedLow D.vars
          (s.updateEntry r.inst.var r.inst.indices r.applied) := h.updateEntry (Or.inl rfl)
      exact hupdated.grows (commit_grows hgranted.has hcommit)
  | clear hmatch => exact absurd hclears (Nat.succ_ne_self _)

theorem Moves.covered_cachedLow (hlow : NoPositiveDefault D)
    (hmoves : Moves D A s s') (hclears : s'.clears = s.clears)
    (h : Covered D s ∧ CachedLow D.vars s) : Covered D s' ∧ CachedLow D.vars s' :=
  Moves.invariant (I := fun s => Covered D s ∧ CachedLow D.vars s)
    (fun _ _ hmove hclear hI => ⟨hI.1.move hmove hclear, hI.2.move hlow hmove hclear⟩)
    hmoves hclears h

variable {n : VarId}

theorem Slots.initFrom_has (hv : v < n) (p : List UInt32) : (s.initFrom n).has v p = s.has v p := by
  refine Slots.has_congr (fun q => ?_) p
  simp only [Slots.initFrom]
  rw [if_neg (Nat.not_le.mpr hv)]

theorem Slots.initFrom_entry (hv : v < n) (p : List UInt32) :
    (s.initFrom n).entry v p = s.entry v p := by
  simp only [Slots.initFrom]
  rw [if_neg (Nat.not_le.mpr hv)]

theorem Slots.initFrom_slotCount (hv : v < n) (p : List UInt32) :
    (s.initFrom n).slotCount v p = s.slotCount v p := by
  unfold Slots.slotCount
  rw [Slots.initFrom_has hv]
  simp only [Slots.initFrom]
  rw [if_neg (Nat.not_le.mpr hv)]

theorem Slots.initFrom_entry_new (hv : n ≤ v) (p : List UInt32) :
    (s.initFrom n).entry v p = SlotEntry.init := by
  simp only [Slots.initFrom]
  rw [if_pos hv]

end slots

/-! ### The invariant of a store -/

/-- Stored bounds are covered by the arrays of their clients, and cached ones are not
positive. -/
structure Store.Tidy (E : GraphEnv) (st : Store) : Prop where
  valid : st.graph.Valid E
  covered : ∀ (b : VarId) (varN : Var) (v : VarId) (p : List UInt32) (text : CString) (n : Int),
    st.graph.vars b = some varN → v ∈ varN.varNClients → p.length = varN.level →
    st.slots.has b p = true → (st.slots.entry b p).value = some text →
    varValueConvertToInteger text = some n → n ≤ st.slots.slotCount v p
  cachedLow : CachedLow st.graph.vars st.slots

section store

variable {E : GraphEnv} {st st' : Store}

theorem Store.Tidy.empty (E : GraphEnv) : Store.empty.Tidy E where
  valid := Graph.Valid.empty E
  covered := fun _ _ _ _ _ _ h => nomatch h
  cachedLow := fun _ _ _ h => nomatch h

/-- Calls that read or write keep the invariant. -/
theorem Store.Tidy.moves {D : Defs} {s' : Slots} (h : st.Tidy E)
    (hdefs : D.Describes E st.graph) (hlow : NoPositiveDefault D)
    (hmoves : Moves D A st.slots s') (hclears : s'.clears = st.slots.clears) :
    (Store.mk st.graph s').Tidy E := by
  have hcovered : Covered D st.slots := by
    unfold Covered
    rw [hdefs.1]
    exact h.covered
  have hcached : CachedLow D.vars st.slots := by
    rw [hdefs.1]
    exact h.cachedLow
  obtain ⟨hcovered', hcached'⟩ := hmoves.covered_cachedLow hlow hclears ⟨hcovered, hcached⟩
  unfold Covered at hcovered'
  rw [hdefs.1] at hcovered' hcached'
  exact ⟨h.valid, hcovered', hcached'⟩

/-- Calls that change the definitions keep the invariant, as long as clients are registered at
bounds that hold nothing. -/
theorem Store.Tidy.define {op : GraphOp} {g' : Graph} (h : st.Tidy E)
    (htame : StoreOp.Tame E st (.define op)) (hexec : op.exec E st.graph = some g') :
    (Store.mk g' (st.slots.initFrom st.graph.nextId)).Tidy E := by
  have hmoves := GraphOp.exec_anyMoves h.valid hexec
  have hold : ∀ {b varN'}, b < st.graph.nextId → g'.vars b = some varN' →
      ∃ varN, st.graph.vars b = some varN ∧ varN.level = varN'.level :=
    fun hb hvarN' => hmoves.old_var h.valid hb hvarN'
  have hlive : ∀ {v var}, st.graph.vars v = some var → v < st.graph.nextId := by
    intro v var hvar
    by_contra hge
    rw [h.valid.fresh v (Nat.not_lt.mp hge)] at hvar
    contradiction
  have hclients : ∀ {b varN}, g'.vars b = some varN → g'.clientsOf b = varN.varNClients := by
    intro b varN hb
    simp [Graph.clientsOf, hb]
  refine ⟨hmoves.valid h.valid, ?_, ?_⟩
  · intro b varN' v p text n hb hv hlen hhas hvalue hn
    dsimp only at hb hhas hvalue ⊢
    by_cases hnew : st.graph.nextId ≤ b
    · rw [Slots.initFrom_entry_new hnew] at hvalue
      contradiction
    · have hnew := Nat.not_le.mp hnew
      obtain ⟨varN, hvarN, hlevel⟩ := hold hnew hb
      rw [Slots.initFrom_has hnew] at hhas
      rw [Slots.initFrom_entry hnew] at hvalue
      by_cases hclient : v ∈ varN.varNClients
      · obtain ⟨var, hvar, -⟩ := h.valid.boundGraph.client hvarN hclient
        rw [Slots.initFrom_slotCount (hlive hvar)]
        exact h.covered b varN v p text n hvarN hclient (hlen.trans hlevel.symm) hhas hvalue hn
      · -- the client is new at a bound that holds nothing
        have hnothing := htame g' b varN v hexec hvarN (by rw [hclients hb]; exact hv) hclient
        have hle := (hnothing p (hlen.trans hlevel.symm) hhas).1
        rw [hvalue, boundNumber_some hn] at hle
        exact hle.trans (Int.natCast_nonneg _)
  · intro b varN' p hb hne hlen hhas
    dsimp only at hb hhas ⊢
    by_cases hnew : st.graph.nextId ≤ b
    · rw [Slots.initFrom_entry_new hnew]
      exact Int.le_refl 0
    · have hnew := Nat.not_le.mp hnew
      obtain ⟨varN, hvarN, hlevel⟩ := hold hnew hb
      rw [Slots.initFrom_has hnew] at hhas
      rw [Slots.initFrom_entry hnew]
      by_cases hnone : varN.varNClients = []
      · obtain ⟨v, hv⟩ := List.exists_mem_of_ne_nil _ hne
        have hnothing := htame g' b varN v hexec hvarN (by rw [hclients hb]; exact hv)
          (by rw [hnone]; exact List.not_mem_nil)
        exact (hnothing p (hlen.trans hlevel.symm) hhas).2
      · exact h.cachedLow b varN p hvarN hnone (hlen.trans hlevel.symm) hhas

/-- Every call that leaves no array behind keeps the invariant. -/
theorem Store.Tidy.step {op : StoreOp} (h : st.Tidy E) (htame : op.Tame E st)
    (hstep : StoreStep E op st st') : st'.Tidy E := by
  cases hstep with
  | define hexec => exact h.define htame hexec
  | @read D depth inst g s s' r hdefs hexec =>
      obtain ⟨hlow, hclears⟩ := htame
      have hmoves := varInstanceDoGetValue_moves (calls_sound D depth) inst hexec
      exact h.moves hdefs hlow hmoves (hclears r s' hexec)
  | @write D depth call g s s' res hdefs hexec =>
      obtain ⟨hlow, hclears⟩ := htame
      exact h.moves hdefs hlow (Call.exec_moves hexec) (hclears res s' hexec)

theorem TameRun.tidy (hrun : TameRun E st st') (h : st.Tidy E) : st'.Tidy E := by
  induction hrun with
  | refl => exact h
  | tail _ hlast ih =>
      obtain ⟨op, htame, hstep⟩ := hlast
      exact ih.step htame hstep

end store

/-! ### Reading a bound -/

/-- Where a value that is read comes from: a disabled variable has a value of its own, and otherwise the
slot holds a stored value, or a default value that is cached afterwards. -/
theorem varInstanceDoGetValue_source {D : Defs} {value : VarValue} {s s' : Slots}
    (h : varInstanceDoGetValue D (calls D depth) inst s = .ok (some value, s'))
    (hclears : s'.clears = s.clears) :
    ∃ var, D.vars inst.var = some var ∧ inst.indices.length = var.level ∧
      s.has inst.var inst.indices = true ∧
      ((value.kind = .disabled ∧ value.value = var.props.disValue) ∨
        (value.kind = .normal ∧ value.value = (s.entry inst.var inst.indices).value) ∨
        (value.kind ≠ .normal ∧ value.kind ≠ .disabled ∧
          value.value = (s'.entry inst.var inst.indices).defValue)) := by
  have hreads := calls_reads D depth
  obtain ⟨var, hvar, hcases⟩ := varInstanceDoGetValue_cases h
  rcases hcases with ⟨hnone, -⟩ | ⟨r, hlen, hhas, hread, hr⟩
  · exact nomatch hnone
  refine ⟨var, hvar, hlen, hhas, ?_⟩
  obtain ⟨var', s₁, hvar', hcases⟩ := varInstanceReadValue_cases hread
  obtain rfl : var = var' := Option.some.inj (hvar.symm.trans hvar')
  rcases hcases with ⟨-, rfl, -⟩ | ⟨hinside, hchecked⟩
  · exact nomatch hr
  rcases (readCheckedValue_cases hchecked).2 with ⟨-, rfl, -⟩ | ⟨-, hslot⟩
  · exact nomatch hr
  obtain ⟨enabled, held, s₂, s₃, henabled, hheld, rfl, rfl⟩ := hslot
  have hvalue : value = presentValue var enabled held := by
    simp only [dropUnset] at hr
    split at hr
    · contradiction
    · exact Option.some.inj hr
  cases enabled with
  | false =>
      subst hvalue
      exact Or.inl ⟨rfl, rfl⟩
  | true =>
      obtain rfl : value = held := hvalue
      have hfirst := indicesInBounds_reads hreads var inst hinside
      have hsecond := varInstanceIsEnabled_reads hreads inst henabled
      have hthird := varSlotGetValue_reads hreads inst hheld
      rcases varSlotGetValue_cases hheld with ⟨hkind, hstored, rfl⟩ | ⟨hkind, hdefault⟩
      · -- nothing has been cleared on the way, so the value was there before
        have hle := hfirst.1
        have hle' := hsecond.1
        rw [Slots.updateEntry_clears] at hle' hclears
        have heff := (hfirst.2 (by omega)).entry inst.var inst.indices
        have heff' := (hsecond.2 (by rw [Slots.updateEntry_clears]; omega)).entry inst.var
          inst.indices
        refine Or.inr (Or.inl ⟨hkind, ?_⟩)
        rw [hstored, heff'.value, Slots.updateEntry_entry, if_pos ⟨rfl, rfl⟩]
        exact heff.value
      · refine Or.inr (Or.inr ?_)
        rw [hdefault, Slots.updateEntry_entry, if_pos ⟨rfl, rfl⟩, hkind]
        cases value.value with
        | none => exact ⟨by decide, by decide, rfl⟩
        | some text => exact ⟨by simp, by simp, rfl⟩

theorem varInstanceDoGetValue_text {D : Defs} {value : VarValue} {s s' : Slots}
    (h : varInstanceDoGetValue D (calls D depth) inst s = .ok (some value, s'))
    (hclears : s'.clears = s.clears) (hkind : value.kind ≠ .disabled) :
    ∃ var, D.vars inst.var = some var ∧ inst.indices.length = var.level ∧
      s.has inst.var inst.indices = true ∧
      (value.value = (s.entry inst.var inst.indices).value ∨
        value.value = (s'.entry inst.var inst.indices).defValue) := by
  obtain ⟨var, hvar, hlen, hhas, hsource⟩ := varInstanceDoGetValue_source h hclears
  refine ⟨var, hvar, hlen, hhas, ?_⟩
  rcases hsource with ⟨hdisabled, -⟩ | ⟨-, hstored⟩ | ⟨-, -, hdefault⟩
  · exact absurd hdisabled hkind
  · exact Or.inl hstored
  · exact Or.inr hdefault

/-- In every run whose calls leave no array behind, the elements below a bound can be addressed
for reading, whatever the order of definitions and writes. -/
theorem addressable_of_run {E : GraphEnv} {st : Store} {D : Defs}
    (hrun : TameRun E Store.empty st) (hdefs : D.Describes E st.graph)
    (hlow : NoPositiveDefault D)
    (hclears : ∀ depth inst r s',
      varInstanceDoGetValue D (calls D depth) inst st.slots = .ok (r, s') →
        s'.clears = st.slots.clears) :
    Addressable D st.slots := by
  have htidy := hrun.tidy (Store.Tidy.empty E)
  intro b varN v var p depth value s' text n i hb hv hvar hread hkind htext hn hi
  obtain ⟨varN', hb', hlen, hhas, hsource⟩ :=
    varInstanceDoGetValue_text hread (hclears _ _ _ _ hread) hkind
  obtain rfl : varN = varN' := Option.some.inj (hb.symm.trans hb')
  rw [htext] at hsource
  have hcount : n ≤ st.slots.slotCount v p := by
    rcases hsource with hstored | hdefault
    · exact htidy.covered b varN v p text n (by rw [← hdefs.1]; exact hb) hv hlen hhas
        hstored.symm hn
    · -- a default value is not positive
      have hmoves := varInstanceDoGetValue_moves (calls_sound D depth) ⟨b, p⟩ hread
      have htidy' := htidy.moves hdefs hlow hmoves (hclears _ _ _ _ hread)
      have hhas' : s'.has b p = true := by
        have heff := (varInstanceDoGetValue_reads (calls_reads D depth) ⟨b, p⟩ hread).2
          (hclears _ _ _ _ hread)
        rw [heff.has_eq]
        exact hhas
      have hle := htidy'.cachedLow b varN p (by rw [← hdefs.1]; exact hb)
        (List.ne_nil_of_mem hv) hlen hhas'
      dsimp only at hdefault hle
      rw [← hdefault, boundNumber_some hn] at hle
      exact hle.trans (Int.natCast_nonneg _)
  have hlt : i.toNat < st.slots.slotCount v p := by omega
  have hslot : st.slots.has v (p ++ [i]) = true := by
    unfold Slots.slotCount at hlt
    split at hlt
    · next hp => exact (Slots.has_concat_iff p i).mpr ⟨hp, hlt⟩
    · exact absurd hlt (Nat.not_lt_zero _)
  obtain ⟨var', hvar', hbound⟩ := D.boundGraph.client hb hv
  obtain rfl : var = var' := Option.some.inj (hvar.symm.trans hvar')
  obtain ⟨varN', hb'', hlevel, -⟩ := D.boundGraph.bound hvar hbound
  obtain rfl : varN = varN' := Option.some.inj (hb.symm.trans hb'')
  have hsome : varInstanceGetSlotForReading st.slots var ⟨v, p ++ [i]⟩ = some (p ++ [i]) := by
    refine varInstanceGetSlotForReading_eq_some.mpr ⟨?_, hslot, rfl⟩
    dsimp only at hlen
    simp only [List.length_append, List.length_singleton]
    omega
  rw [hsome]
  exact Option.some_ne_none _

/-! ### Two arrays with one bound -/

/-- The definition of the array `X_%_A` or `X_%_B`. -/
def addArray (name : CString) : GraphOp := .add (sampleSpec name false false) none

/-- The definitions after `X_%_A` has been added, which creates `X_N`. -/
def oneArray : Graph :=
  (varAddWithArrayBound sampleEnv (sampleSpec "X_%_A".toList false false) none Graph.empty).2

/-- The definitions after `X_%_B` has been added as well. -/
def twoArrays : Graph :=
  (varAddWithArrayBound sampleEnv (sampleSpec "X_%_B".toList false false) none oneArray).2

/-- `X_N` and its clients. -/
def arrayVars (clients : List VarId) : List Var :=
  { name := "X_N".toList, type := 0, level := 0, varN := none, varNClients := clients,
    priority := .configuration, props := boundProps } ::
  clients.map fun v =>
    { name := if v = 1 then "X_%_A".toList else "X_%_B".toList, type := 1, level := 1,
      varN := some 0, varNClients := [], priority := .configuration, props := plainProps }

theorem oneArray_vars : oneArray.vars = fun v => (arrayVars [1])[v]? := by
  funext v
  match v with
  | 0 => rfl
  | 1 => rfl
  | v + 2 => rfl

theorem twoArrays_vars : twoArrays.vars = fun v => (arrayVars [1, 2])[v]? := by
  funext v
  match v with
  | 0 => decide
  | 1 => decide
  | 2 => decide
  | v + 3 => rfl

theorem oneArray_nextId : oneArray.nextId = 2 := rfl

theorem storeStep_twoArrays (s : Slots) : StoreStep sampleEnv (.define (addArray "X_%_B".toList))
    ⟨oneArray, s⟩ ⟨twoArrays, s.initFrom 2⟩ := by
  rw [← oneArray_nextId]
  exact .define rfl

/-- The definitions made of `X_N` and its clients. -/
def arrayDefs (clients : List VarId) (h : boundLinksOk 0 (arrayVars clients) = true) : Defs where
  types := sampleTypes
  vars := fun v => (arrayVars clients)[v]?
  condition := fun _ => .literal (.boolean true)
  defValue := fun v => ((arrayVars clients)[v]?).bind fun var => var.props.defValue
  matchArray := none
  boundGraph := BoundGraph.of_list h

section arrayDefs

variable {clients : List VarId} {h : boundLinksOk 0 (arrayVars clients) = true}

theorem arrayDefs_defValue {e : Expr} (he : (arrayDefs clients h).defValue v = some e) :
    e = .literal (.integer 0) := by
  obtain ⟨var, hvar, hdef⟩ := Option.bind_eq_some_iff.mp he
  rcases List.mem_cons.mp (List.mem_of_getElem? hvar) with rfl | hmem
  · exact (Option.some.inj hdef).symm
  · obtain ⟨w, -, rfl⟩ := List.mem_map.mp hmem
    contradiction

theorem arrayDefs_matchFree : (arrayDefs clients h).MatchFree := by
  refine ⟨fun _ => rfl, fun v e he => ?_⟩
  rw [arrayDefs_defValue he]
  rfl

theorem arrayDefs_noPositiveDefault : NoPositiveDefault (arrayDefs clients h) := by
  rintro b varN p text - - ⟨depth, e, lit, s, s', hdef, heval, htext⟩
  rw [arrayDefs_defValue hdef] at heval
  cases depth with
  | zero => exact (Exec.throw_ok_iff.mp heval).elim
  | succ depth =>
      obtain ⟨rfl, -⟩ := Exec.pure_ok_iff.mp heval
      obtain rfl : ['0'] = text := Option.some.inj htext
      decide

theorem arrayDefs_reads_clears {r : Option VarValue} {s s' : Slots}
    (hread : varInstanceDoGetValue (arrayDefs clients h) (calls (arrayDefs clients h) depth) inst s =
      .ok (r, s')) : s'.clears = s.clears :=
  (varInstanceDoGetValue_calm (calls_calm arrayDefs_matchFree.neverClears depth) (calls_reads _ depth)
    arrayDefs_matchFree.neverClears inst).1 _ _ hread

end arrayDefs

/-- When both arrays are there before `X_3_A` is written, the elements of `X_%_B` below `X_N` can
be addressed, too. -/
theorem addressable_of_run_X_3_A :
    ∃ st, TameRun sampleEnv Store.empty st ∧ (st.slots.entry 0 []).value = some ['3'] ∧
      Addressable (arrayDefs [1, 2] (by decide)) st.slots := by
  let D := arrayDefs [1, 2] (by decide)
  let s := (Slots.init.initFrom 0).initFrom 2
  let write : SlotExec WriteResult := (writeX 2 ['a']).exec D (calls D 8)
  have hexec : write s = .ok (.written, write.stateAfter s) := Exec.ok_of_result (by decide)
  have hdefs : D.Describes sampleEnv twoArrays := ⟨twoArrays_vars.symm, rfl⟩
  have hfirst : StoreStep sampleEnv (.define (addArray "X_%_A".toList)) Store.empty
      ⟨oneArray, Slots.init.initFrom 0⟩ := .define rfl
  have hsecond := storeStep_twoArrays (Slots.init.initFrom 0)
  have hthird : StoreStep sampleEnv (.write D 8 (writeX 2 ['a'])) ⟨twoArrays, s⟩
      ⟨twoArrays, write.stateAfter s⟩ := .write hdefs hexec
  have htame₁ : StoreOp.Tame sampleEnv Store.empty (.define (addArray "X_%_A".toList)) := by
    intro g' b varN v _ hb
    exact nomatch hb
  have htame₂ : StoreOp.Tame sampleEnv ⟨oneArray, Slots.init.initFrom 0⟩
      (.define (addArray "X_%_B".toList)) := by
    intro g' b varN v _ _ _ _ p _ _
    rw [Slots.initFrom_entry_new (Nat.zero_le b)]
    decide
  have hkeeps : ∀ res s', write s = .ok (res, s') → s'.clears = s.clears := by
    intro res s' hrun
    obtain ⟨-, rfl⟩ := Prod.mk.inj (Except.ok.inj (hexec.symm.trans hrun))
    decide
  have htame₃ : StoreOp.Tame sampleEnv ⟨twoArrays, s⟩ (.write D 8 (writeX 2 ['a'])) :=
    And.intro arrayDefs_noPositiveDefault hkeeps
  have hrun : TameRun sampleEnv Store.empty ⟨twoArrays, write.stateAfter s⟩ :=
    ((Relation.ReflTransGen.single ⟨_, htame₁, hfirst⟩).tail ⟨_, htame₂, hsecond⟩).tail
      ⟨_, htame₃, hthird⟩
  exact ⟨_, hrun, by decide, addressable_of_run hrun hdefs arrayDefs_noPositiveDefault
    fun _ _ _ _ => arrayDefs_reads_clears⟩

/-- When `X_%_B` is added after `X_3_A` has been written, it has no slots although `X_N` reads
as 3. -/
theorem addressable_lost_by_late_array :
    ∃ st, Relation.ReflTransGen (fun st st' => ∃ op, StoreStep sampleEnv op st st') Store.empty st ∧
      Defs.Describes (arrayDefs [1, 2] (by decide)) sampleEnv st.graph ∧
      varInstanceGetSlotForReading st.slots ((arrayVars [1, 2])[2]) ⟨2, [0]⟩ = none ∧
      ¬ Addressable (arrayDefs [1, 2] (by decide)) st.slots := by
  let D := arrayDefs [1] (by decide)
  let D' := arrayDefs [1, 2] (by decide)
  let s := Slots.init.initFrom 0
  let write : SlotExec WriteResult := (writeX 2 ['a']).exec D (calls D 8)
  let s' := (write.stateAfter s).initFrom 2
  have hexec : write s = .ok (.written, write.stateAfter s) := Exec.ok_of_result (by decide)
  have hfirst : StoreStep sampleEnv (.define (addArray "X_%_A".toList)) Store.empty
      ⟨oneArray, s⟩ := .define rfl
  have hsecond : StoreStep sampleEnv (.write D 8 (writeX 2 ['a'])) ⟨oneArray, s⟩
      ⟨oneArray, write.stateAfter s⟩ := .write ⟨oneArray_vars.symm, rfl⟩ hexec
  have hthird := storeStep_twoArrays (write.stateAfter s)
  have hread : varInstanceDoGetValue D' (calls D' 8) ⟨0, []⟩ s' =
      .ok (some ⟨some ['3'], .normal, none, .arrayBound⟩, _) :=
    Exec.ok_of_result (by decide +kernel)
  have hnone : varInstanceGetSlotForReading s' ((arrayVars [1, 2])[2]) ⟨2, [0]⟩ = none := rfl
  refine ⟨⟨twoArrays, s'⟩, ?_, ⟨twoArrays_vars.symm, rfl⟩, hnone, fun h => ?_⟩
  · exact ((Relation.ReflTransGen.single ⟨_, hfirst⟩).tail ⟨_, hsecond⟩).tail ⟨_, hthird⟩
  · exact h 0 _ 2 _ [] 8 _ _ ['3'] 3 0 rfl (by decide) rfl hread (by decide) rfl (by decide)
      (by decide) hnone

end Mkfli4l
