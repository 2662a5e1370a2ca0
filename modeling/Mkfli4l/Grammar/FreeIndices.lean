import Mkfli4l.Grammar.Blocks
import Mkfli4l.Var.Shapes

/-!
# Blocks with free indices

Blocks with the index `[]` are meant to add elements to an array, one element each.  The next
free index of an array is the number of its slots, so two blocks get different indices if the
first of them has made the array larger by the time the second one is processed.  It has done
so when its assignment was accepted: then the element has a slot, and arrays never shrink,
apart from the array of matched groups.

The blocks may begin with different members of the array, which are variables of their own.  Then the
element of the first block counts for the second one if the two variables have equally many elements.
-/

namespace Mkfli4l

open Lib Exec

variable {D : Defs} {s s' : Slots} {v : VarId} {p : List UInt32}

theorem Move.has_of_ne {A : SetRequest → Prop} (h : Move D A s s')
    (hv : D.matchArray ≠ some v) (hp : s.has v p = true) :
    s'.has v p = true := by
  cases h with
  | cacheDefault hhas htext => rwa [Slots.updateEntry_has]
  | readActive inst active => rwa [Slots.updateEntry_has]
  | cycle => rwa [Slots.reportCycle_has]
  | create hgrows => exact hgrows.has hp
  | write hallowed hgranted hcommit =>
      exact (commit_grows hgranted.has hcommit).has (by rwa [Slots.updateEntry_has])
  | @clear m hmatch =>
      have hne : v ≠ m := fun heq => hv (heq ▸ hmatch)
      rw [← hp]
      refine Slots.has_congr (fun q => ?_) p
      simp [Slots.clearArray, hne]

theorem Moves.has_of_ne {A : SetRequest → Prop} (h : Moves D A s s')
    (hv : D.matchArray ≠ some v) (hp : s.has v p = true) :
    s'.has v p = true := by
  induction h with
  | refl => exact hp
  | tail _ hmove ih => exact hmove.has_of_ne hv ih

theorem varInstanceDoSetValue_ne_ignored {c : Callees} {r : SetRequest}
    {res : WriteResult} (h : varInstanceDoSetValue D c r s = .ok (res, s'))
    (hmode : r.mode ≠ .tentative) : res ≠ .ignored := by
  obtain ⟨var, s₁, -, hrun⟩ := bind_ok_iff.mp h
  by_cases hmissing : r.inst.indices.length < var.level
  · rw [if_pos hmissing] at hrun
    obtain ⟨rfl, -⟩ := pure_ok_iff.mp hrun
    decide
  · rw [if_neg hmissing] at hrun
    obtain ⟨access, s₂, -, hrun⟩ := bind_ok_iff.mp hrun
    cases access with
    | invalid =>
        obtain ⟨rfl, -⟩ := pure_ok_iff.mp hrun
        decide
    | rejected =>
        obtain ⟨rfl, -⟩ := pure_ok_iff.mp hrun
        rw [if_neg hmode]
        decide
    | granted =>
        obtain ⟨ok, s₃, -, hrun⟩ := bind_ok_iff.mp hrun
        split at hrun
        · obtain ⟨_, s₄, -, hrun⟩ := bind_ok_iff.mp hrun
          obtain ⟨rfl, -⟩ := pure_ok_iff.mp hrun
          decide
        · obtain ⟨rfl, -⟩ := pure_ok_iff.mp hrun
          decide

namespace ConfigReader

variable {R : ConfigReader} {env : BlockEnv} {st st' : ConfigState R.env}

/-- The variable is never used as the array of matched groups. -/
def NotMatched (R : ConfigReader) (v : VarId) : Prop :=
  ∀ writes g, (R.expressions writes g).matchArray ≠ some v

/-- The slot of an element of a variable exists. -/
def HasElement (st : ConfigState R.env) (v : VarId) (before : List UInt32) (i : UInt32) : Prop :=
  ∃ var, st.graph.vars v = some var ∧ before.length < var.level ∧
    st.slots.has v (before ++ [i]) = true

/-- Two variables have arrays with equally many elements behind the given indices. -/
structure SameLength (st : ConfigState R.env) (v w : VarId) (p : List UInt32) : Prop where
  left : ∃ var, st.graph.vars v = some var ∧ p.length < var.level
  right : ∃ var, st.graph.vars w = some var ∧ p.length < var.level
  count : st.slots.slotCount v p = st.slots.slotCount w p

theorem SameLength.of_equalShapes (h : EqualShapes (R.defs st) st.slots) {b w : VarId} {varN : Var}
    (hb : (R.defs st).vars b = some varN) (hv : Descends (R.defs st) b v)
    (hw : Descends (R.defs st) b w) (hp : p.length = varN.level) : SameLength st v w p := by
  obtain ⟨var, hvar, hlevel⟩ := hv.level_lt hb
  obtain ⟨var', hvar', hlevel'⟩ := hw.level_lt hb
  exact ⟨⟨var, hvar, hp.trans_lt hlevel⟩, ⟨var', hvar', hp.trans_lt hlevel'⟩, h b varN v w p hb hv hw hp⟩

/-- Two variables have equally many elements behind the given indices when an assignment to one of them
looks for free indices after so many writes. -/
def EqualAt (R : ConfigReader) (time : Nat) (v w : VarId) (p : List UInt32) :
    List FlatAssignment → BlockEnv → ConfigState R.env → Prop
  | [], _, _ => True
  | a :: rest, env, st =>
      (∀ u st₁, R.varTryGet a.varName st = .ok (some u, st₁) → u = v ∨ u = w →
        st₁.writes.length = time → SameLength st₁ v w p) ∧
      ∀ r st', R.processFlat a env st = .ok (r, st') → EqualAt R time v w p rest r.2 st'

/-- Two indices are those of one array if they became known for one variable, or for two variables with
equally many elements at the time of the later one. -/
def SameArray (Agree : Nat → VarId → VarId → List UInt32 → Prop) (ra rb : Resolution) : Prop :=
  ra.before = rb.before ∧ (ra.var = rb.var ∨ Agree (max ra.time rb.time) ra.var rb.var ra.before)

/-- The index was taken by an assignment that was accepted, and its element cannot get lost. -/
def Kept (R : ConfigReader) (r : Resolution) : Prop := r.accepted = true ∧ R.NotMatched r.var

/-- What is known about the unknowns while assignments are processed. -/
structure Resolved (R : ConfigReader) (Agree : Nat → VarId → VarId → List UInt32 → Prop) (env : BlockEnv)
    (st : ConfigState R.env) : Prop where
  time_lt : ∀ a r, env a = some r → r.time < st.writes.length
  present : ∀ a r, env a = some r → R.Kept r → HasElement st r.var r.before r.index
  distinct : ∀ a b ra rb, a ≠ b → env a = some ra → env b = some rb → SameArray Agree ra rb →
    (ra.time ≤ rb.time → R.Kept ra) → (rb.time ≤ ra.time → R.Kept rb) → ra.index ≠ rb.index

variable {Agree : Nat → VarId → VarId → List UInt32 → Prop}

theorem Resolved.empty (st : ConfigState R.env) : Resolved R Agree (fun _ => none) st :=
  ⟨fun _ _ h => (nomatch h), fun _ _ h => (nomatch h), fun _ _ _ _ _ h => (nomatch h)⟩

/-- The state goes on without losing elements. -/
structure Continues (st st' : ConfigState R.env) : Prop where
  writes_le : st.writes.length ≤ st'.writes.length
  element : ∀ v before i, R.NotMatched v → HasElement st v before i → HasElement st' v before i

theorem Resolved.continues (h : Resolved R Agree env st) (hst : Continues st st') :
    Resolved R Agree env st' :=
  ⟨fun a r hr => (h.time_lt a r hr).trans_le hst.writes_le,
    fun a r hr hkept => hst.element _ _ _ hkept.2 (h.present a r hr hkept),
    h.distinct⟩

theorem varTryGet_continues {name : CString} {found : Option VarId}
    (h : R.varTryGet name st = .ok (found, st')) : Continues st st' := by
  obtain ⟨-, rfl⟩ := Prod.mk.inj (Except.ok.inj h)
  have hvalid := st.reachable.valid (Graph.Valid.empty R.env)
  refine ⟨le_rfl, ?_⟩
  rintro v before i - ⟨var, hvar, hlevel, hhas⟩
  have hgrowths : Growths R.env (numPlaceholders name) st.graph
      (Mkfli4l.varTryGet R.env name st.graph).2 :=
    (varScopeTryGet_spec (varAdd_makes R.env _) hvalid rfl).1
  obtain ⟨clients, hvar'⟩ := hgrowths.vars_eq hvalid hvar
  refine ⟨_, hvar', hlevel, ?_⟩
  simp only
  split
  · exact hhas
  · have hlt : v < st.graph.nextId := by
      by_contra hge
      rw [hvalid.fresh v (Nat.le_of_not_lt hge)] at hvar
      contradiction
    rw [Slots.initFrom_has hlt]
    exact hhas

variable {inst : VarInstance} {value : CString} {priority : Priority} {ok : Bool}

theorem varInstanceSetValue_ok (h : R.varInstanceSetValue inst value priority st = .ok (ok, st')) :
    st'.graph = st.graph ∧ st'.writes.length = st.writes.length + 1 ∧
      ∃ result, ok = decide (result ≠ .failed) ∧
        (Call.setValue inst (some value) (some ⟨false, false⟩) .strong priority).exec (R.defs st)
          (calls (R.defs st) R.depth) st.slots = .ok (result, st'.slots) := by
  unfold varInstanceSetValue at h
  cases hset : Mkfli4l.varInstanceSetValue (R.defs st) (calls (R.defs st) R.depth) inst
      (some value) (some ⟨false, false⟩) .strong priority st.slots with
  | error e =>
      rw [hset] at h
      contradiction
  | ok r =>
      obtain ⟨result, slots⟩ := r
      rw [hset] at h
      obtain ⟨rfl, rfl⟩ := Prod.mk.inj (Except.ok.inj h)
      exact ⟨rfl, by simp, result, rfl, hset⟩

theorem varInstanceSetValue_continues
    (h : R.varInstanceSetValue inst value priority st = .ok (ok, st')) :
    Continues st st' := by
  obtain ⟨hgraph, hwrites, result, -, hexec⟩ := varInstanceSetValue_ok h
  refine ⟨by omega, ?_⟩
  rintro v before i hmatch ⟨var, hvar, hlevel, hhas⟩
  exact ⟨var, by rw [hgraph, hvar], hlevel,
    (Call.exec_moves hexec).has_of_ne (hmatch st.writes st.graph) hhas⟩

theorem varInstanceSetValue_accepted
    (h : R.varInstanceSetValue inst value priority st = .ok (true, st')) :
    ∃ var, st.graph.vars inst.var = some var ∧ inst.indices.length = var.level ∧
      st'.slots.has inst.var inst.indices = true := by
  obtain ⟨-, -, result, hok, hexec⟩ := varInstanceSetValue_ok h
  have hresult : result ≠ .failed := by simpa using hok.symm
  have hdo : varInstanceDoSetValue (R.defs st) (calls (R.defs st) R.depth)
      ⟨inst, some value, some ⟨false, false⟩, .strong, priority, false, false⟩ st.slots =
      .ok (result, st'.slots) := hexec
  have hwritten : result = .written := by
    have hignored : result ≠ .ignored :=
      varInstanceDoSetValue_ne_ignored hdo fun hmode => (nomatch hmode)
    cases result with
    | written => rfl
    | ignored => exact absurd rfl hignored
    | failed => exact absurd rfl hresult
  obtain ⟨var, hvar, ⟨-, hne, -⟩ | ⟨hlength, -, access, s₁, -, ⟨hne, -, -⟩ | ⟨-, hgranted, hcommit⟩⟩⟩ :=
    varInstanceDoSetValue_cases hdo
  · exact absurd hwritten hne
  · exact absurd hwritten hne
  · refine ⟨var, hvar, hlength, ?_⟩
    exact (commit_grows hgranted.has hcommit).has (by rw [Slots.updateEntry_has]; exact hgranted.has)

theorem varInstanceCreateFromString_continues {name : CString} {inst : Option VarInstance}
    (h : R.varInstanceCreateFromString name st = .ok (inst, st')) : Continues st st' := by
  obtain ⟨found, st₁, hget, hrun⟩ := bind_ok_iff.mp h
  have hfirst := varTryGet_continues hget
  cases found with
  | some v =>
      obtain ⟨-, rfl⟩ := pure_ok_iff.mp hrun
      exact hfirst
  | none =>
      obtain ⟨found, st₂, hget', hrun⟩ := bind_ok_iff.mp hrun
      obtain ⟨-, rfl⟩ := pure_ok_iff.mp hrun
      have hsecond := varTryGet_continues hget'
      exact ⟨hfirst.writes_le.trans hsecond.writes_le, fun v before i hmatch helement =>
        hsecond.element v before i hmatch (hfirst.element v before i hmatch helement)⟩

theorem record_cases {flat : List FlatIndex} {real : List UInt32} {time : Nat}
    {accepted : Bool} {id : BlockIndex} {r : Resolution}
    (h : env.record v flat real time accepted id = some r) :
    env id = some r ∨
      (env id = none ∧ ∃ k i, flat[k]? = some (.block id) ∧ real[k]? = some i ∧
        r = ⟨v, real.take k, i, time, accepted⟩) := by
  unfold BlockEnv.record at h
  cases hid : env id with
  | some old =>
      rw [hid] at h
      exact Or.inl h
  | none =>
      rw [hid] at h
      right
      cases hk : flat.idxOf? (.block id) with
      | none => simp [hk] at h
      | some k =>
          simp only [hk] at h
          obtain ⟨i, hi, rfl⟩ := Option.map_eq_some_iff.mp h
          obtain ⟨hlt, hget, -⟩ := List.idxOf?_eq_some_iff.mp hk
          exact ⟨rfl, k, i, List.getElem?_eq_some_iff.mpr ⟨hlt, hget⟩, hi, rfl⟩

theorem nextFree_ne {var : Var} {w : VarId} {before : List UInt32} {i : UInt32}
    (hlevel : before.length < var.level) (hcount : s.slotCount w before = s.slotCount v before)
    (hhas : s.has w (before ++ [i]) = true) : i ≠ varInstanceGetNextFreeIndex s var ⟨v, before⟩ := by
  have hlt : i.toNat < s.slotCount v before := (Slots.lt_slotCount_of_has hhas).trans_eq hcount
  unfold Slots.slotCount at hlt
  unfold varInstanceGetNextFreeIndex
  rw [if_neg (Nat.not_le.mpr hlevel)]
  by_cases hbefore : s.has v before = true
  · rw [if_pos hbefore] at hlt ⊢
    exact UInt32.ne_of_lt (UInt32.lt_iff_toNat_lt.mpr hlt)
  · rw [if_neg hbefore] at hlt
    exact absurd hlt (Nat.not_lt_zero _)

/-- An element that was there before has another index than the one that becomes known. -/
theorem Resolved.index_ne (h : Resolved R Agree env st) {var : Var} {a : BlockIndex} {ra : Resolution}
    (hvar : st.graph.vars v = some var) (ha : env a = some ra) (hkept : R.Kept ra)
    (hsame : ra.var = v ∨ SameLength st ra.var v ra.before) :
    ra.index ≠ varInstanceGetNextFreeIndex st.slots var ⟨v, ra.before⟩ := by
  obtain ⟨var', hvar', hlevel, hhas⟩ := h.present a ra ha hkept
  rcases hsame with rfl | ⟨-, ⟨var'', hvar'', hlevel'⟩, hcount⟩
  · obtain rfl : var = var' := Option.some.inj (hvar.symm.trans hvar')
    exact nextFree_ne hlevel rfl hhas
  · obtain rfl : var = var'' := Option.some.inj (hvar.symm.trans hvar'')
    exact nextFree_ne hlevel' hcount hhas

/-- The indices that become known in one assignment fit what is known already. -/
theorem Resolved.record (h : Resolved R Agree env st) {var : Var} {flat : List FlatIndex}
    (hvar : st.graph.vars v = some var)
    (hagree : ∀ u w p, v = u ∨ v = w → Agree st.writes.length u w p → SameLength st u w p)
    (hset : R.varInstanceSetValue ⟨v, resolveFlat st.slots var v env [] flat⟩ value priority st =
      .ok (ok, st')) :
    Resolved R Agree (env.record v flat (resolveFlat st.slots var v env [] flat) st.writes.length ok)
      st' := by
  obtain ⟨real, hreal, hlength, hvalue⟩ : ∃ real, resolveFlat st.slots var v env [] flat =
      [] ++ real ∧ real.length = flat.length ∧ ∀ (k : Nat) (f : FlatIndex), flat[k]? = some f →
        real[k]? = some (f.resolve st.slots var v env ([] ++ real.take k)) := resolveFlat_spec flat []
  rw [List.nil_append] at hreal
  rw [hreal] at hset ⊢
  obtain ⟨hgraph, hwrites, -⟩ := varInstanceSetValue_ok hset
  have hold := h.continues (varInstanceSetValue_continues hset)
  have hcross : ∀ a b ra k i, env a = some ra → env b = none → flat[k]? = some (.block b) →
      real[k]? = some i → ra.before = real.take k →
      ra.var = v ∨ SameLength st ra.var v ra.before → R.Kept ra → ra.index ≠ i := by
    intro a b ra k i ha hb hk hi hbefore hsame hkept
    have hindex := hvalue k _ hk
    rw [hi, List.nil_append, Option.some.injEq, ← hbefore] at hindex
    simp only [FlatIndex.resolve, hb] at hindex
    rw [hindex]
    exact h.index_ne hvar ha hkept hsame
  refine ⟨?_, ?_, ?_⟩
  · intro a r hr
    rcases record_cases hr with hr | ⟨-, k, i, -, -, rfl⟩
    · exact hold.time_lt a r hr
    · simp only
      omega
  · intro a r hr hkept
    rcases record_cases hr with hr | ⟨-, k, i, -, hi, rfl⟩
    · exact hold.present a r hr hkept
    · obtain rfl : ok = true := hkept.1
      obtain ⟨var', hvar', hlevel, hhas⟩ := varInstanceSetValue_accepted hset
      obtain ⟨hk, rfl⟩ := List.getElem?_eq_some_iff.mp hi
      refine ⟨var', by rw [hgraph]; exact hvar', ?_, ?_⟩
      · simp only [List.length_take] at hlevel ⊢
        omega
      · simp only
        rw [List.take_concat_get']
        exact Slots.has_take hhas (k + 1)
  · intro a b ra rb hne ha hb hsame htime htime'
    obtain ⟨hbefore, hvars⟩ := id hsame
    rcases record_cases ha with hera | ⟨hnone, k, i, hk, hi, rfl⟩
    · rcases record_cases hb with herb | ⟨hnone, k, i, hk, hi, rfl⟩
      · exact hold.distinct a b ra rb hne hera herb hsame htime htime'
      · have hlt := h.time_lt a ra hera
        refine hcross a b ra k i hera hnone hk hi hbefore ?_ (htime hlt.le)
        refine hvars.imp_right fun hcount => hagree _ _ _ (Or.inr rfl) ?_
        rwa [max_eq_right hlt.le] at hcount
    · rcases record_cases hb with herb | ⟨-, k', i', hk', hi', rfl⟩
      · have hlt := h.time_lt b rb herb
        refine (hcross b a rb k i herb hnone hk hi hbefore.symm ?_ (htime' hlt.le)).symm
        rcases hvars with hv | hcount
        · exact Or.inl hv.symm
        · rw [max_eq_left hlt.le] at hcount
          obtain ⟨hleft, hright, hlen⟩ := hagree _ _ _ (Or.inl rfl) hcount
          right
          rw [← hbefore]
          exact ⟨hright, hleft, hlen.symm⟩
      · -- both became known in this assignment
        exfalso
        obtain ⟨hkr, -⟩ := List.getElem?_eq_some_iff.mp hi
        obtain ⟨hkr', -⟩ := List.getElem?_eq_some_iff.mp hi'
        have hkk : k = k' := by
          have hlen := congrArg List.length hbefore
          simp only [List.length_take] at hlen
          omega
        subst hkk
        rw [hk] at hk'
        exact hne (FlatIndex.block.inj (Option.some.inj hk'))

theorem Resolved.processFlat (h : Resolved R Agree env st) {a : FlatAssignment} {r : Bool × BlockEnv}
    (hagree : ∀ v st₁, R.varTryGet a.varName st = .ok (some v, st₁) → ∀ u w p, v = u ∨ v = w →
      Agree st₁.writes.length u w p → SameLength st₁ u w p)
    (hrun : R.processFlat a env st = .ok (r, st')) : Resolved R Agree r.2 st' := by
  obtain ⟨found, st₁, hget, hrun⟩ := bind_ok_iff.mp hrun
  have hst₁ := h.continues (varTryGet_continues hget)
  cases found with
  | none =>
      obtain ⟨inst, st₂, hcreate, hrun⟩ := bind_ok_iff.mp hrun
      have hst₂ := hst₁.continues (varInstanceCreateFromString_continues hcreate)
      cases inst with
      | none =>
          obtain ⟨rfl, rfl⟩ := pure_ok_iff.mp hrun
          exact hst₂
      | some inst =>
          obtain ⟨ok, st₃, hset, hrun⟩ := bind_ok_iff.mp hrun
          obtain ⟨rfl, rfl⟩ := pure_ok_iff.mp hrun
          exact hst₂.continues (varInstanceSetValue_continues hset)
  | some v =>
      obtain ⟨st₂, st₃, hstate, hrun⟩ := bind_ok_iff.mp hrun
      obtain ⟨rfl, rfl⟩ := get_ok_iff.mp hstate
      cases hvar : st₁.graph.vars v with
      | none =>
          simp only [hvar] at hrun
          exact (throw_ok_iff.mp hrun).elim
      | some var =>
          simp only [hvar] at hrun
          obtain ⟨ok, st₄, hset, hrun⟩ := bind_ok_iff.mp hrun
          obtain ⟨rfl, rfl⟩ := pure_ok_iff.mp hrun
          exact hst₁.record hvar (hagree v _ hget) hset

theorem Resolved.processFlats {l : List FlatAssignment} {r : Bool × BlockEnv}
    (h : Resolved R Agree env st)
    (hagree : ∀ time v w p, Agree time v w p → EqualAt R time v w p l env st)
    (hrun : R.processFlats l env st = .ok (r, st')) : Resolved R Agree r.2 st' := by
  induction l generalizing env st r with
  | nil =>
      obtain ⟨rfl, rfl⟩ := pure_ok_iff.mp hrun
      exact h
  | cons a l ih =>
      obtain ⟨first, st₁, hfirst, hrun⟩ := bind_ok_iff.mp hrun
      obtain ⟨others, st₂, hothers, hrun⟩ := bind_ok_iff.mp hrun
      obtain ⟨rfl, rfl⟩ := pure_ok_iff.mp hrun
      have hone : Resolved R Agree first.2 st₁ := by
        refine h.processFlat (fun v st₁ hget u w p hone hcount => ?_) hfirst
        exact (hagree _ u w p hcount).1 v st₁ hget hone rfl
      have hrest : Resolved R Agree others.2 st₂ :=
        ih hone (fun time v w p hcount => (hagree time v w p hcount).2 first st₁ hfirst) hothers
      exact hrest

end ConfigReader

open ConfigReader in
/-- Indices `[]` that became known for the same array and the same indices before them are different,
provided that the assignment by which the earlier one became known was accepted. -/
def DistinctWhenAccepted (R : ConfigReader) (l : List FlatAssignment) (st : ConfigState R.env)
    (env : BlockEnv) : Prop :=
  ∀ a b ra rb, a ≠ b → env a = some ra → env b = some rb →
    SameArray (fun time v w p => EqualAt R time v w p l (fun _ => none) st) ra rb →
    (ra.time ≤ rb.time → R.Kept ra) → (rb.time ≤ ra.time → R.Kept rb) → ra.index ≠ rb.index

/-- The reader does what the flat assignments say, in the same order and with the same outcome.
Blocks with the index `[]` that add elements to the same array add different ones, unless the
element of the earlier block was rejected or is one of the array of matched groups. -/
theorem blocks_flatten_to_distinct_elements (R : ConfigReader) (tree : VarassParseTree) :
    R.configProcessAssignments tree = (do
      let result ← R.processFlats (flattenBlock tree.assignments [] 0 [] []) fun _ => none
      pure (result.1 && tree.ok)) ∧
    ∀ (st st' : ConfigState R.env) (result : Bool × BlockEnv),
      R.processFlats (flattenBlock tree.assignments [] 0 [] []) (fun _ => none) st =
        .ok (result, st') →
      DistinctWhenAccepted R (flattenBlock tree.assignments [] 0 [] []) st result.2 := by
  refine ⟨ConfigReader.configProcessAssignments_eq tree, fun st st' result hrun => ?_⟩
  exact ((ConfigReader.Resolved.empty st).processFlats (fun _ _ _ _ hcount => hcount) hrun).distinct

/-- An assignment in a configuration file, without a block behind it. -/
def assignText (target : VarassTarget) (value : CString) : Varass :=
  .mk target (some value) .configuration []

/-- The target `X[]`. -/
def targetXFree : VarassTarget := .arrayMember (.topLevel (some ['X'])) .nextFree

/-- The block `X[]` with one assignment to a member of the struct. -/
def blockXFree (member value : CString) : Varass :=
  .mk targetXFree none .configuration [assignText (.structMember (.topLevel none) member) value]

/-- The store after `X_%_A` and `X_%_B` have been defined. -/
def membersState : ConfigState sampleEnv where
  graph := (varAddWithArrayBound sampleEnv (sampleSpec "X_%_B".toList false false) none
    (definedState "X_%_A".toList).graph).2
  reachable := (definedState "X_%_A".toList).reachable.tail
    ⟨.add (sampleSpec "X_%_B".toList false false) none, rfl⟩
  slots := Slots.init
  writes := []

/-- The flat assignments of the blocks `X[] { A='a' }` and `X[] { B='b' }`. -/
def memberAssignments : List FlatAssignment :=
  flattenBlock [blockXFree ['A'] ['a'], blockXFree ['B'] ['b']] [] 0 [] []

open ConfigReader in
theorem memberAssignments_equalAt :
    EqualAt sampleReader 1 1 2 [] memberAssignments (fun _ => none) membersState := by
  let first := sampleReader.processFlat ⟨"X_%_A".toList, [.block ⟨[0], 0⟩], ['a'], .configuration⟩
    fun _ => none
  let lookup := sampleReader.varTryGet "X_%_B".toList
  have hlist : memberAssignments = [⟨"X_%_A".toList, [.block ⟨[0], 0⟩], ['a'], .configuration⟩,
      ⟨"X_%_B".toList, [.block ⟨[1], 0⟩], ['b'], .configuration⟩] := by decide
  rw [hlist]
  refine ⟨fun u st₁ hget _ htime => ?_, fun r st₁ hfirst => ⟨fun u st₂ hget _ _ => ?_, fun _ _ _ => trivial⟩⟩
  · obtain ⟨-, rfl⟩ := Prod.mk.inj (Except.ok.inj hget)
    exact absurd htime (by decide)
  · have hfirst : first membersState = .ok (r, st₁) := hfirst
    have hget : lookup st₁ = .ok (some u, st₂) := hget
    obtain rfl : first.stateAfter membersState = st₁ := stateAfter_eq hfirst
    obtain rfl : lookup.stateAfter (first.stateAfter membersState) = st₂ := stateAfter_eq hget
    have hvars : ∀ v ∈ [1, 2], (((lookup.stateAfter (first.stateAfter membersState)).graph.vars v).map
        Var.level) = some 1 := by decide +kernel
    have hcount : (lookup.stateAfter (first.stateAfter membersState)).slots.slotCount 1 [] =
        (lookup.stateAfter (first.stateAfter membersState)).slots.slotCount 2 [] := by decide +kernel
    obtain ⟨var, hvar, hlevel⟩ := Option.map_eq_some_iff.mp (hvars 1 (by decide))
    obtain ⟨var', hvar', hlevel'⟩ := Option.map_eq_some_iff.mp (hvars 2 (by decide))
    exact ⟨⟨var, hvar, hlevel ▸ Nat.one_pos⟩, ⟨var', hvar', hlevel' ▸ Nat.one_pos⟩, hcount⟩

/-- Two blocks `X[]` get different indices, although the one sets `A` and the other one sets `B`. -/
theorem blocks_flatten_to_distinct_elements_members :
    ∃ result st' ra rb, sampleReader.processFlats memberAssignments (fun _ => none) membersState =
        .ok (result, st') ∧
      result.2 ⟨[0], 0⟩ = some ra ∧ result.2 ⟨[1], 0⟩ = some rb ∧ ra.var ≠ rb.var ∧
      ra.index ≠ rb.index := by
  let run := sampleReader.processFlats memberAssignments fun _ => none
  have hrun : (run.result membersState).map (fun result => (result.2 ⟨[0], 0⟩, result.2 ⟨[1], 0⟩)) =
      some (some ⟨1, [], 0, 0, true⟩, some ⟨2, [], 1, 1, true⟩) := by decide +kernel
  obtain ⟨result, hresult, hknown⟩ := Option.map_eq_some_iff.mp hrun
  obtain ⟨ha, hb⟩ := Prod.mk.inj hknown
  have hok := ok_of_result hresult
  have hdistinct := (blocks_flatten_to_distinct_elements sampleReader
    ⟨[blockXFree ['A'] ['a'], blockXFree ['B'] ['b']], true⟩).2 _ _ result hok
  have hkept : ∀ r : Resolution, r.accepted = true → sampleReader.Kept r :=
    fun r haccepted => ⟨haccepted, fun _ _ hmatch => nomatch hmatch⟩
  refine ⟨result, _, _, _, hok, ha, hb, by decide, ?_⟩
  exact hdistinct ⟨[0], 0⟩ ⟨[1], 0⟩ _ _ (by decide) ha hb ⟨rfl, Or.inr memberAssignments_equalAt⟩
    (fun _ => hkept _ rfl) (fun _ => hkept _ rfl)

/-- Blocks that stand side by side get different indices `[]` of the same array. -/
def SiblingsDistinct (env : BlockEnv) : Prop :=
  ∀ (node : List Nat) (i j p q : Nat) (ra rb : Resolution), i ≠ j →
    env ⟨node ++ [i], p⟩ = some ra → env ⟨node ++ [j], q⟩ = some rb → ra.var = rb.var →
    ra.before = rb.before → ra.index ≠ rb.index

/-- The target `X_%[]`. -/
def targetXPlaceholderFree : VarassTarget :=
  .arrayMember (.topLevel (some ['X', '_', '%'])) .nextFree

/-- With the array `X_%_%`, the assignments `X_%[]='a'` and `X_%[]='b'` are rejected because an
index is missing, and both get the first index. -/
theorem siblings_share_index_when_rejected :
    parseTarget false (scanTarget .none "X_%[]".toList) = some targetXPlaceholderFree ∧
    ∃ result st', sampleReader.processFlats
        (flattenBlock [assignText targetXPlaceholderFree ['a'],
          assignText targetXPlaceholderFree ['b']] [] 0 [] [])
        (fun _ => none) (definedState "X_%_%".toList) = .ok (result, st') ∧
      ¬ SiblingsDistinct result.2 := by
  refine ⟨by decide, ?_⟩
  let run := sampleReader.processFlats
    (flattenBlock [assignText targetXPlaceholderFree ['a'],
      assignText targetXPlaceholderFree ['b']] [] 0 [] []) fun _ => none
  have hfirst : (run.result (definedState "X_%_%".toList)).map
      (fun result => (result.2 ⟨[0], 0⟩, result.2 ⟨[1], 0⟩)) =
      some (some ⟨2, [], 0, 0, false⟩, some ⟨2, [], 0, 1, false⟩) := by decide +kernel
  obtain ⟨result, hresult, hknown⟩ := Option.map_eq_some_iff.mp hfirst
  obtain ⟨ha, hb⟩ := Prod.mk.inj hknown
  refine ⟨result, _, ok_of_result hresult, fun hdistinct => ?_⟩
  exact hdistinct [] 0 1 0 0 _ _ (by decide) ha hb rfl rfl rfl

end Mkfli4l
