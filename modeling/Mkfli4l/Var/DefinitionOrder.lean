import Mkfli4l.Var.NamedEntries

/-!
# The order of definitions

The definition files of the packages are read in the order of the directory, and a definition may come
before or after the definition of its array bound.  If it comes before, the bound is made with properties
of its own and redefined later.

Definitions that are plain may come in any order: they are accepted in every order or in none, and they
make the same variables.  The module describes the store that they make without a regard to their order,
and it tells which definitions are accepted.
-/

namespace Mkfli4l

open Lib Function Relation

/-- A definition of a variable.  Names are read from a line. -/
structure Definition where
  name : CString
  arrayBound : Option CString
  type : VarTypeId
  props : VarProperties
  name_line : '\n' ∉ name
  bound_line : ∀ bound, arrayBound = some bound → '\n' ∉ bound
deriving DecidableEq

namespace Definition

/-- The bound of the array: the explicit one, or the computed one. -/
def boundName (d : Definition) : Option CString := d.arrayBound.or (computedBoundName d.name)

/-- The name is valid, and an explicit bound fits the number of placeholders. -/
def WellFormed (d : Definition) : Prop :=
  isVarName d.name = true ∧
    ∀ bound, d.arrayBound = some bound → numPlaceholders bound + 1 = numPlaceholders d.name

/-- What is known about the variable when it is defined. -/
def entry (priority : Priority) (d : Definition) : Entry := ⟨d.type, priority, d.props, d.boundName⟩

end Definition

/-- One definition; `none` if the call fails. -/
def defineVar (E : GraphEnv) (priority : Priority) (g : Graph) (d : Definition) : Option Graph :=
  match varAddWithArrayBound E ⟨d.name, d.type, priority, d.props⟩ d.arrayBound g with
  | (some _, g') => some g'
  | (none, _) => none

/-- Definitions, one after the other; `none` if a call fails. -/
def defineVars (E : GraphEnv) (priority : Priority) (ds : List Definition) : Option Graph :=
  ds.foldlM (defineVar E priority) Graph.empty

/-! ### One definition -/

variable {b : VarId} {varN : Var} {bound : CString} {e : Entry}

section define

variable {E : GraphEnv} {priority : Priority} {g : Graph} {M : NameStore} {d : Definition}

/-- A variable that is there already can be redefined: it is weak and of the type, and if it becomes
optional, so are the arrays it is the bound of. -/
structure NameStore.Redefinable (M : NameStore) (name : CString) (type : VarTypeId)
    (props : VarProperties) (e : Entry) : Prop where
  weak : e.props.weak = true
  type_eq : e.type = type
  clients : props.optional = true → ∀ client e', M client = some e' → e'.bound = some name →
    e'.props.optional = true

/-- What is known about a variable after its definition. -/
def NameStore.enroll (M : NameStore) (name : CString) (e : Entry) : NameStore :=
  update M name (some ((M name).elim e fun old => { old with props := e.props }))

theorem Graph.Shows.clients_iff (h : g.Shows E M) (hb : g.vars b = some varN) :
    (∀ client ∈ varN.varNClients, ∀ clientVar, g.vars client = some clientVar →
        clientVar.props.optional = true) ↔
      ∀ client e, M client = some e → e.bound = some varN.name → e.props.optional = true := by
  constructor
  · intro hclients client e hM hbound
    obtain ⟨v, var, hvar, -, rfl⟩ := (h.entries client e).mp hM
    obtain ⟨b', hvarN, hnameOf⟩ := Option.bind_eq_some_iff.mp hbound
    obtain ⟨varN', hvarN', -, -, -, hcount⟩ := h.valid.boundGraph.bound hvar hvarN
    obtain ⟨varN'', hvarN'', hname⟩ := Option.map_eq_some_iff.mp hnameOf
    obtain rfl : varN'' = varN' := Option.some.inj (hvarN''.symm.trans hvarN')
    obtain rfl : b' = b := h.valid.same_name hvarN' hb hname
    obtain rfl : varN'' = varN := Option.some.inj (hvarN''.symm.trans hb)
    exact hclients v (List.count_pos_iff.mp (by omega)) var hvar
  · intro hstore client hclient clientVar hclientVar
    obtain ⟨var, hvar, hvarN⟩ := h.valid.boundGraph.client hb hclient
    obtain rfl : var = clientVar := Option.some.inj (hvar.symm.trans hclientVar)
    refine hstore var.name _ ((h.entries _ _).mpr ⟨client, var, hvar, rfl, rfl⟩) ?_
    simp only [Graph.entryOf, hvarN, Option.bind_some, Graph.nameOf, hb, Option.map_some]

theorem Graph.Shows.enroll_cases (h : g.Shows E M) (huniform : M.Uniform priority) (var : Var)
    (hproper : ProperName var.name) (hpriority : var.priority = priority)
    (hclients : var.varNClients = []) (hlevel : var.level = numPlaceholders var.name)
    (hbound : BoundFits E g var) :
    match enrollVar g var with
    | (some _, g') => (∀ e, M var.name = some e → M.Redefinable var.name var.type var.props e) ∧
        g'.Shows E (M.enroll var.name (g.entryOf var))
    | (none, _) => ¬ ∀ e, M var.name = some e → M.Redefinable var.name var.type var.props e := by
  rcases enrollVar_cases h.valid hclients hlevel hbound with
    ⟨hnew, henroll⟩ | ⟨old, oldVar, hredef, hcheck, henroll⟩ | ⟨hfound, hrefused, henroll⟩
  · have hM : M var.name = none := by
      cases hM : M var.name with
      | none => rfl
      | some e =>
          obtain ⟨v, w, hfound, -⟩ := h.found hM
          exact nomatch hnew.symm.trans hfound
    rw [henroll]
    refine ⟨fun e he => (nomatch hM.symm.trans he), ?_⟩
    rw [NameStore.enroll, hM]
    exact h.create hproper hnew hclients hlevel hbound
  · obtain ⟨key, hkey⟩ := hredef.found
    obtain ⟨hmem, hsame⟩ := Graph.tryGetMember_some hkey
    obtain ⟨w, hw, hwname⟩ := h.valid.member_live key old hmem
    obtain rfl : w = oldVar := Option.some.inj (hw.symm.trans hredef.live)
    have hname : w.name = var.name := by
      rw [hwname]
      exact (hwname ▸ h.proper hw).plain.eq_of_same hproper.plain hsame
    have hM : M var.name = some (g.entryOf w) := (h.entries _ _).mpr ⟨old, w, hw, hname, rfl⟩
    rw [henroll]
    constructor
    · intro e he
      obtain rfl := Option.some.inj (hM.symm.trans he)
      exact ⟨hredef.weak, hredef.type_eq, fun hoptional => hname ▸ (h.clients_iff hw).mp (hcheck hoptional)⟩
    · have hset := h.setProps hw var.props
      rw [NameStore.enroll, hM, ← hname]
      exact hset.burn _ (Nat.le_succ _)
  · rw [henroll]
    intro hall
    cases hM : M var.name with
    | none => exact hfound (h.missing hproper.plain hM)
    | some e =>
        obtain ⟨v, w, hget, hw, hname, rfl⟩ := h.found hM
        have hredef := hall _ hM
        refine hrefused v w ⟨⟨_, hget⟩, hw, hredef.weak, hredef.type_eq, ?_⟩ fun hoptional => ?_
        · rw [hpriority]
          exact huniform _ _ hM
        · exact (h.clients_iff hw).mpr (hname ▸ hredef.clients hoptional)

/-- The store with the bounds a definition needs. -/
noncomputable def NameStore.withBounds (E : GraphEnv) (priority : Priority) (M : NameStore)
    (d : Definition) : NameStore :=
  d.boundName.elim M (M.addBounds E priority)

/-- The store after a definition. -/
noncomputable def NameStore.define (E : GraphEnv) (priority : Priority) (M : NameStore)
    (d : Definition) : NameStore :=
  (M.withBounds E priority d).enroll d.name (d.entry priority)

/-- The definition is accepted. -/
structure Accepts (E : GraphEnv) (priority : Priority) (M : NameStore) (d : Definition) : Prop where
  wellFormed : d.WellFormed
  bound : ∀ name, d.boundName = some name → BoundOk E M name d.props.optional
  free : ∀ e, M.withBounds E priority d d.name = some e →
    (M.withBounds E priority d).Redefinable d.name d.type d.props e

theorem NameStore.Uniform.addBounds (h : M.Uniform priority) (name : CString) :
    (M.addBounds E priority name).Uniform priority := by
  intro x e hx
  rcases Option.or_eq_some_iff.mp hx with hx | ⟨-, hx⟩
  · exact h x e hx
  · split at hx
    · rw [← Option.some.inj hx]
      rfl
    · exact nomatch hx

theorem defineVar_scalar (h : g.Shows E M) (huniform : M.Uniform priority)
    (hvalid : isVarName d.name = true) (hscalar : computedBoundName d.name = none) :
    match defineVar E priority g d with
    | some g' => Accepts E priority M d ∧ g'.Shows E (M.define E priority d)
    | none => ¬ Accepts E priority M d := by
  have hlevel := computedBoundName_eq_none hscalar
  cases hexplicit : d.arrayBound with
  | some name =>
      have hfails : defineVar E priority g d = none := by
        simp only [defineVar, hexplicit, varAddWithArrayBound, hvalid, if_true, varCreate, hscalar]
      rw [hfails]
      intro haccepted
      have := haccepted.wellFormed.2 name hexplicit
      omega
  | none =>
      have hbound : d.boundName = none := by rw [Definition.boundName, hexplicit, hscalar]; rfl
      have hstore : M.withBounds E priority d = M := by rw [NameStore.withBounds, hbound]; rfl
      let var : Var := ⟨d.name, d.type, 0, none, [], priority, d.props⟩
      have hcases := h.enroll_cases huniform var ⟨hvalid, d.name_line⟩ rfl rfl hlevel.symm rfl
      have hentry : g.entryOf var = d.entry priority := by
        rw [Definition.entry, hbound]
        rfl
      have hdefine : defineVar E priority g d =
          match enrollVar g var with
          | (some _, g') => some g'
          | (none, _) => none := by
        simp only [defineVar, hexplicit, varAddWithArrayBound, hlevel, varAdd, hvalid, if_true,
          varCreate, hscalar, var]
      rw [hentry] at hcases
      rw [hdefine]
      rcases hresult : enrollVar g var with ⟨_ | v, g'⟩ <;> rw [hresult] at hcases
      · intro haccepted
        exact hcases fun e he => hstore ▸ haccepted.free e (hstore.symm ▸ he)
      · refine ⟨⟨⟨hvalid, ?_⟩, ?_, ?_⟩, ?_⟩
        · intro name hname
          exact absurd (hexplicit.symm.trans hname) (Option.some_ne_none name).symm
        · intro name hname
          exact absurd (hbound.symm.trans hname) (Option.some_ne_none name).symm
        · rw [hstore]
          exact hcases.1
        · rw [NameStore.define, hstore]
          exact hcases.2

theorem varCreate_of_array {computed : CString} (hcomputed : computedBoundName d.name = some computed)
    (hgetD : d.arrayBound.getD computed = bound) :
    varCreate E (varAdd E (numPlaceholders bound)) ⟨d.name, d.type, priority, d.props⟩ d.arrayBound g =
      match varGetOrAddArrayBound E (varAdd E (numPlaceholders bound)) bound d.props priority g with
      | (none, g) => (none, g)
      | (some (b, created), g) =>
          if d.arrayBound ≠ none ∧
              (g.vars b).map (fun varN => varN.level + 1) ≠ some (numPlaceholders d.name) then
            (none, if created then varRemove g b else g)
          else
            enrollVar g ⟨d.name, d.type, numPlaceholders d.name, some b, [], priority, d.props⟩ := by
  rcases hbounds : varGetOrAddArrayBound E (varAdd E (numPlaceholders bound)) bound d.props priority g
    with ⟨_ | ⟨b, created⟩, g₁⟩ <;>
    simp only [varCreate, hcomputed, hgetD, hbounds]

/-- A definition of an array. -/
theorem defineVar_array (h : g.Shows E M) (huniform : M.Uniform priority)
    (hvalid : isVarName d.name = true) {computed : CString}
    (hcomputed : computedBoundName d.name = some computed)
    (hplain : ∀ name, d.arrayBound = some name → PlainName name)
    (hclosed : ∀ name, d.boundName = some name → M.ClosedBelow name) :
    match defineVar E priority g d with
    | some g' => Accepts E priority M d ∧ g'.Shows E (M.define E priority d)
    | none => ¬ Accepts E priority M d := by
  have hproper : ProperName d.name := ⟨hvalid, d.name_line⟩
  have hcount := numPlaceholders_computedBoundName hcomputed
  obtain ⟨bound, hgetD⟩ : ∃ bound, d.arrayBound.getD computed = bound := ⟨_, rfl⟩
  have hexplicitly : ∀ name, d.arrayBound = some name → bound = name := by
    intro name hname
    rw [← hgetD, hname, Option.getD_some]
  have hcomputedly : d.arrayBound = none → bound = computed := by
    intro hnone
    rw [← hgetD, hnone, Option.getD_none]
  have hbound : d.boundName = some bound := by
    rw [Definition.boundName, hcomputed, ← hgetD]
    cases d.arrayBound <;> rfl
  have hboundPlain : PlainName bound := by
    cases hexplicit : d.arrayBound with
    | none => exact hcomputedly hexplicit ▸ hproper.plain.computed hcomputed
    | some name => exact hexplicitly name hexplicit ▸ hplain name hexplicit
  have hstore : M.withBounds E priority d = M.addBounds E priority bound := by
    rw [NameStore.withBounds, hbound]
    rfl
  have hget := makesBound E priority (numPlaceholders bound) g M bound d.props h huniform
    (hclosed bound hbound) hboundPlain rfl
  obtain ⟨-, hsuit⟩ := varGetOrAddArrayBound_spec (varAdd_makes E (numPlaceholders bound)) h.valid
    (Eq.refl (numPlaceholders bound)) d.props priority
  let spec : VarSpec := ⟨d.name, d.type, priority, d.props⟩
  have hdefine : varAddWithArrayBound E spec d.arrayBound g = _ :=
    varAddWithArrayBound_of_array hvalid hcomputed d.arrayBound
  rw [hgetD, varCreate_of_array hcomputed hgetD] at hdefine
  rw [defineVar, hdefine]
  rcases hresult : varGetOrAddArrayBound E (varAdd E (numPlaceholders bound)) bound d.props priority g
    with ⟨_ | ⟨b, created⟩, g₁⟩
  · rw [hresult] at hget
    intro haccepted
    exact hget (haccepted.bound bound hbound)
  · rw [hresult] at hget hsuit
    obtain ⟨hok, hmade⟩ := hget
    obtain ⟨varN, hvarN, hsuitable⟩ := hsuit b created rfl
    obtain ⟨varN', hvarN', hname⟩ := hmade.named
    obtain rfl : varN' = varN := Option.some.inj (hvarN'.symm.trans hvarN)
    have hlevelN : varN'.level = numPlaceholders bound := hsuitable.level_eq
    have hvarLevel : (g₁.vars b).map (fun varN => varN.level + 1) = some (numPlaceholders bound + 1) := by
      rw [hvarN, Option.map_some, hlevelN]
    simp only [hvarLevel]
    by_cases hmatch : d.arrayBound ≠ none ∧
        some (numPlaceholders bound + 1) ≠ some (numPlaceholders d.name)
    · -- the explicit bound is of the wrong level
      simp only [if_pos hmatch]
      intro haccepted
      obtain ⟨name, hsome⟩ := Option.ne_none_iff_exists'.mp hmatch.1
      refine hmatch.2 ?_
      rw [hexplicitly name hsome, haccepted.wellFormed.2 name hsome]
    · simp only [if_neg hmatch]
      have hlevel : numPlaceholders bound + 1 = numPlaceholders d.name := by
        cases hexplicit : d.arrayBound with
        | none => rw [hcomputedly hexplicit, hcount]
        | some name =>
            by_contra hne
            exact hmatch ⟨hexplicit ▸ Option.some_ne_none name, fun heq => hne (Option.some.inj heq)⟩
      have hwellFormed : d.WellFormed :=
        ⟨hvalid, fun name hname => hexplicitly name hname ▸ hlevel⟩
      let var : Var := ⟨d.name, d.type, numPlaceholders d.name, some b, [], priority, d.props⟩
      have hfits : BoundFits E g₁ var :=
        ⟨varN', hvarN, by rw [hlevelN, hlevel], hsuitable.type_eq, hsuitable.priority_eq,
          hsuitable.optional⟩
      have hcases := hmade.shows.enroll_cases (huniform.addBounds bound) var hproper rfl
        rfl rfl hfits
      have hnameOf : g₁.nameOf b = some bound := by
        rw [Graph.nameOf, hvarN, Option.map_some, hname]
      have hentry : g₁.entryOf var = d.entry priority := by
        simp only [Graph.entryOf, Definition.entry, var, Option.bind_some, hnameOf, hbound]
      rw [hentry] at hcases
      rcases henroll : enrollVar g₁ var with ⟨_ | v, g'⟩ <;> rw [henroll] at hcases
      · intro haccepted
        refine hcases fun e he => ?_
        rw [← hstore] at he ⊢
        exact haccepted.free e he
      · refine ⟨⟨hwellFormed, ?_, ?_⟩, ?_⟩
        · intro name hsome
          obtain rfl := Option.some.inj (hbound.symm.trans hsome)
          exact hok
        · rw [hstore]
          exact hcases.1
        · rw [NameStore.define, hstore]
          exact hcases.2

theorem defineVar_cases (h : g.Shows E M) (huniform : M.Uniform priority)
    (hplain : ∀ name, d.arrayBound = some name → PlainName name)
    (hclosed : ∀ name, d.boundName = some name → M.ClosedBelow name) :
    match defineVar E priority g d with
    | some g' => Accepts E priority M d ∧ g'.Shows E (M.define E priority d)
    | none => ¬ Accepts E priority M d := by
  cases hvalid : isVarName d.name with
  | false =>
      have hfails : defineVar E priority g d = none := by
        rw [defineVar, varAddWithArrayBound_of_invalid hvalid]
      rw [hfails]
      exact fun haccepted => nomatch hvalid.symm.trans haccepted.wellFormed.1
  | true =>
      cases hcomputed : computedBoundName d.name with
      | none => exact defineVar_scalar h huniform hvalid hcomputed
      | some computed => exact defineVar_array h huniform hvalid hcomputed hplain hclosed

end define

/-! ### What definitions make, whatever their order -/

/-- A name that a definition needs as a bound. -/
def Needed (ds : List Definition) (name : CString) : Prop :=
  ∃ d ∈ ds, ∃ bound, d.boundName = some bound ∧ BoundChain bound name

open Classical in
/-- The store that the definitions make: what is defined is as defined, and what is needed is a bound
made for it. -/
noncomputable def described (E : GraphEnv) (priority : Priority) (ds : List Definition) : NameStore :=
  fun name =>
    match ds.find? (fun d => d.name = name) with
    | some d => some (d.entry priority)
    | none => if Needed ds name then some (implicitEntry E priority name) else none

/-- Explicit bounds have no small letters, a variable that is needed as a bound has the computed bound,
and not both of them are optional. -/
structure PlainDefinitions (ds : List Definition) : Prop where
  upper : ∀ d ∈ ds, ∀ bound, d.arrayBound = some bound → ∀ c ∈ bound, c.isLower = false
  computed : ∀ d ∈ ds, Needed ds d.name → d.boundName = computedBoundName d.name
  optional : ∀ d ∈ ds, Needed ds d.name → ∀ bound ∈ ds, d.boundName = some bound.name →
    d.props.optional = true → bound.props.optional = false

/-- The definitions fit together. -/
structure SoundDefinitions (E : GraphEnv) (ds : List Definition) : Prop where
  wellFormed : ∀ d ∈ ds, d.WellFormed
  names : ∀ name, Needed ds name → isVarName name = true
  types : ∀ d ∈ ds, Needed ds d.name → d.type = E.arrayBoundType
  clients : ∀ d ∈ ds, ∀ bound ∈ ds, d.boundName = some bound.name → bound.props.optional = true →
    d.props.optional = true
  bounds : ∀ name, Needed ds name → ∀ bound ∈ ds, computedBoundName name = some bound.name →
    bound.props.optional = false

section order

variable {E : GraphEnv} {priority : Priority} {ds ds' all : List Definition} {d : Definition}
variable {name : CString}

theorem Needed.mono (h : Needed ds name) (hsub : ds ⊆ ds') : Needed ds' name := by
  obtain ⟨d, hd, bound, hbound, hchain⟩ := h
  exact ⟨d, hsub hd, bound, hbound, hchain⟩

theorem Needed.next (h : Needed ds name) (hbound : computedBoundName name = some bound) :
    Needed ds bound := by
  obtain ⟨d, hd, first, hfirst, hchain⟩ := h
  exact ⟨d, hd, first, hfirst, hchain.tail hbound⟩

theorem Needed.chain (h : Needed ds name) {x : CString} (hx : BoundChain name x) : Needed ds x := by
  obtain ⟨d, hd, first, hfirst, hchain⟩ := h
  exact ⟨d, hd, first, hfirst, hchain.trans hx⟩

theorem SoundDefinitions.mono (h : SoundDefinitions E ds') (hsub : ds ⊆ ds') : SoundDefinitions E ds where
  wellFormed := fun d hd => h.wellFormed d (hsub hd)
  names := fun name hname => h.names name (hname.mono hsub)
  types := fun d hd hneeded => h.types d (hsub hd) (hneeded.mono hsub)
  clients := fun d hd bound hbound => h.clients d (hsub hd) bound (hsub hbound)
  bounds := fun name hname bound hbound => h.bounds name (hname.mono hsub) bound (hsub hbound)

/-- The definitions have different names. -/
abbrev Distinct (ds : List Definition) : Prop := (ds.map Definition.name).Nodup

theorem Distinct.eq (h : Distinct ds) {d d' : Definition} (hd : d ∈ ds) (hd' : d' ∈ ds)
    (hname : d.name = d'.name) : d = d' :=
  List.inj_on_of_nodup_map h hd hd' hname

theorem described_of_mem (h : Distinct ds) (hd : d ∈ ds) :
    described E priority ds d.name = some (d.entry priority) := by
  unfold described
  cases hfind : ds.find? (fun d' => d'.name = d.name) with
  | none =>
      have hnot := List.find?_eq_none.mp hfind d hd
      simp at hnot
  | some d' =>
      have hname : d'.name = d.name := by simpa using List.find?_some hfind
      rw [h.eq (List.mem_of_find?_eq_some hfind) hd hname]

theorem described_of_not_mem (E : GraphEnv) (priority : Priority) (h : ∀ d ∈ ds, d.name ≠ name) :
    (Needed ds name → described E priority ds name = some (implicitEntry E priority name)) ∧
      (¬ Needed ds name → described E priority ds name = none) := by
  have hfind : ds.find? (fun d => d.name = name) = none := by
    rw [List.find?_eq_none]
    intro d hd
    simpa using h d hd
  constructor
  · intro hneeded
    simp only [described, hfind, if_pos hneeded]
  · intro hnot
    simp only [described, hfind, if_neg hnot]

theorem described_cases (h : Distinct ds) (he : described E priority ds name = some e) :
    (∃ d ∈ ds, d.name = name ∧ e = d.entry priority) ∨
      ((∀ d ∈ ds, d.name ≠ name) ∧ Needed ds name ∧ e = implicitEntry E priority name) := by
  by_cases hmem : ∃ d ∈ ds, d.name = name
  · obtain ⟨d, hd, rfl⟩ := hmem
    rw [described_of_mem h hd] at he
    exact Or.inl ⟨d, hd, rfl, (Option.some.inj he).symm⟩
  · have hnot : ∀ d ∈ ds, d.name ≠ name := fun d hd heq => hmem ⟨d, hd, heq⟩
    obtain ⟨hneeded, hnone⟩ := described_of_not_mem E priority hnot
    by_cases hneed : Needed ds name
    · rw [hneeded hneed] at he
      exact Or.inr ⟨hnot, hneed, (Option.some.inj he).symm⟩
    · exact nomatch (hnone hneed).symm.trans he

theorem Needed.known (E : GraphEnv) (priority : Priority) (h : Needed ds name) :
    described E priority ds name ≠ none := by
  by_cases hmem : ∃ d ∈ ds, d.name = name
  · obtain ⟨d, hd, hname⟩ := hmem
    unfold described
    cases hfind : ds.find? (fun d' => d'.name = name) with
    | none =>
        have hnot := List.find?_eq_none.mp hfind d hd
        simp [hname] at hnot
    | some d' => exact Option.some_ne_none _
  · rw [(described_of_not_mem _ _ fun d hd heq => hmem ⟨d, hd, heq⟩).1 h]
    exact Option.some_ne_none _

theorem described_uniform (h : Distinct ds) : (described E priority ds).Uniform priority := by
  intro name e he
  rcases described_cases h he with ⟨d, -, -, rfl⟩ | ⟨-, -, rfl⟩
  · rfl
  · rfl

theorem Needed.bound_of_known (hplain : PlainDefinitions all) (hsub : ds ⊆ all) (hdistinct : Distinct ds)
    (hneeded : Needed all name) (he : described E priority ds name = some e)
    (hbound : computedBoundName name = some bound) : Needed ds bound := by
  rcases described_cases hdistinct he with ⟨d, hd, rfl, -⟩ | ⟨-, hneed, -⟩
  · have hcomputed := hplain.computed d (hsub hd) hneeded
    exact ⟨d, hd, bound, hcomputed.trans hbound, ReflTransGen.refl⟩
  · exact hneed.next hbound

theorem described_closedBelow (E : GraphEnv) (priority : Priority) (hplain : PlainDefinitions all)
    (hsub : ds ⊆ all) (hdistinct : Distinct ds)
    (hneeded : Needed all name) : (described E priority ds).ClosedBelow name := by
  intro x e hx he bound hbound
  exact ((hneeded.chain hx).bound_of_known hplain hsub hdistinct he hbound).known E priority

/-! ### What is accepted fits together -/

theorem BoundOk.chain {M : NameStore} {optional : Bool} {x : CString} (h : BoundOk E M name optional)
    (hx : BoundChain name x) :
    (∃ z e, BoundChain name z ∧ BoundChain z x ∧ M z = some e ∧ e.type = E.arrayBoundType) ∨
      (M x = none ∧ isVarName x = true ∧
        ∀ bound, computedBoundName x = some bound → BoundOk E M bound false) := by
  induction h with
  | found hknown htype _ => exact Or.inl ⟨_, _, ReflTransGen.refl, hx, hknown, htype⟩
  | scalar hnew hvalid hscalar =>
      rcases ReflTransGen.cases_head hx with rfl | ⟨c, hc, -⟩
      · exact Or.inr ⟨hnew, hvalid, fun bound hbound => nomatch hscalar.symm.trans hbound⟩
      · exact nomatch hscalar.symm.trans hc
  | array hnew hvalid hbound hok ih =>
      rcases ReflTransGen.cases_head hx with rfl | ⟨c, hc, hrest⟩
      · refine Or.inr ⟨hnew, hvalid, fun bound' hbound' => ?_⟩
        obtain rfl := Option.some.inj (hbound.symm.trans hbound')
        exact hok
      · obtain rfl := Option.some.inj (hbound.symm.trans hc)
        rcases ih hrest with ⟨z, e, hz, hzx, hknown, htype⟩ | hmade
        · exact Or.inl ⟨z, e, ReflTransGen.head hbound hz, hzx, hknown, htype⟩
        · exact Or.inr hmade

theorem BoundOk.suits {M : NameStore} {optional : Bool} (h : BoundOk E M name optional)
    (hM : M name = some e) :
    e.type = E.arrayBoundType ∧ (e.props.optional = true → optional = true) := by
  cases h with
  | found hknown htype hoptional =>
      obtain rfl := Option.some.inj (hknown.symm.trans hM)
      exact ⟨htype, hoptional⟩
  | scalar hnew => exact nomatch hnew.symm.trans hM
  | array hnew => exact nomatch hnew.symm.trans hM

theorem Definition.WellFormed.placeholders (h : d.WellFormed)
    (hbound : d.boundName = some bound) : numPlaceholders bound + 1 = numPlaceholders d.name := by
  rcases Option.or_eq_some_iff.mp hbound with hexplicit | ⟨-, hcomputed⟩
  · exact h.2 bound hexplicit
  · exact numPlaceholders_computedBoundName hcomputed

theorem Definition.WellFormed.not_chain (h : d.WellFormed)
    (hbound : d.boundName = some bound) : ¬ BoundChain bound d.name := by
  intro hchain
  have hlevel := h.placeholders hbound
  have hle := hchain.placeholders_le
  omega

theorem needed_concat : Needed (ds ++ [d]) name ↔
    Needed ds name ∨ ∃ bound, d.boundName = some bound ∧ BoundChain bound name := by
  constructor
  · rintro ⟨d', hd', bound, hbound, hchain⟩
    rcases List.mem_append.mp hd' with hd' | hd'
    · exact Or.inl ⟨d', hd', bound, hbound, hchain⟩
    · obtain rfl := List.mem_singleton.mp hd'
      exact Or.inr ⟨bound, hbound, hchain⟩
  · rintro (hneeded | ⟨bound, hbound, hchain⟩)
    · exact hneeded.mono (List.subset_append_left ds [d])
    · exact ⟨d, by simp, bound, hbound, hchain⟩

theorem withBounds_of_ne {x : CString} (hx : ¬ ∃ bound, d.boundName = some bound ∧ BoundChain bound x)
    (M : NameStore) : M.withBounds E priority d x = M x := by
  cases hbound : d.boundName with
  | none => rw [NameStore.withBounds, hbound]; rfl
  | some bound =>
      have hnot : ¬ BoundChain bound x := fun hchain => hx ⟨bound, hbound, hchain⟩
      simp only [NameStore.withBounds, hbound, Option.elim_some, NameStore.addBounds, if_neg hnot,
        Option.or_none]

theorem withBounds_self (h : d.WellFormed) (M : NameStore) :
    M.withBounds E priority d d.name = M d.name :=
  withBounds_of_ne (fun ⟨_, hbound, hchain⟩ => h.not_chain hbound hchain) M

theorem withBounds_of_known {x : CString} {M : NameStore} (hM : M x = some e) :
    M.withBounds E priority d x = some e := by
  cases hbound : d.boundName with
  | none => rw [NameStore.withBounds, hbound]; exact hM
  | some bound =>
      simp only [NameStore.withBounds, hbound, Option.elim_some, NameStore.addBounds, hM]
      rfl

theorem Distinct.ne_last (h : Distinct (ds ++ [d])) : ∀ d' ∈ ds, d'.name ≠ d.name := by
  intro d' hd' heq
  rw [Distinct, List.map_append, List.nodup_append'] at h
  exact h.2.2 (List.mem_map_of_mem hd') (by simp [heq])

/-- One more definition is accepted after definitions that fit together. -/
structure OneMore (E : GraphEnv) (priority : Priority) (all ds : List Definition) (d : Definition) :
    Prop where
  plain : PlainDefinitions all
  sub : ds ++ [d] ⊆ all
  distinct : Distinct (ds ++ [d])
  sound : SoundDefinitions E ds
  accepted : Accepts E priority (described E priority ds) d

namespace OneMore

variable (h : OneMore E priority all ds d)

include h

theorem before : ds ⊆ all := fun _ hx => h.sub (List.mem_append_left _ hx)

theorem mem : d ∈ all := h.sub (by simp)

theorem distinct_before : Distinct ds := by
  have hdistinct := h.distinct
  rw [Distinct, List.map_append] at hdistinct
  exact hdistinct.of_append_left

theorem needed {x : CString} (hbound : d.boundName = some bound) (hchain : BoundChain bound x) :
    Needed all x := ⟨d, h.mem, bound, hbound, hchain⟩

theorem found {x : CString} (hbound : d.boundName = some bound)
    (hchain : BoundChain bound x) (he : described E priority ds x = some e) :
    e.type = E.arrayBoundType ∨ Needed ds x := by
  rcases (h.accepted.bound bound hbound).chain hchain with
    ⟨z, e', hz, hzx, hknown, htype⟩ | ⟨hnone, -⟩
  · rcases ReflTransGen.cases_head hzx with rfl | ⟨c, hc, hrest⟩
    · obtain rfl := Option.some.inj (he.symm.trans hknown)
      exact Or.inl htype
    · right
      exact ((h.needed hbound hz).bound_of_known h.plain h.before h.distinct_before hknown hc).chain hrest
  · exact nomatch hnone.symm.trans he

theorem made {x : CString} (hbound : d.boundName = some bound) (hchain : BoundChain bound x)
    (hnone : described E priority ds x = none) :
    isVarName x = true ∧ ∀ bound', computedBoundName x = some bound' →
      BoundOk E (described E priority ds) bound' false := by
  rcases (h.accepted.bound bound hbound).chain hchain with
    ⟨z, e, hz, hzx, hknown, -⟩ | ⟨-, hmade⟩
  · have hclosed := described_closedBelow E priority h.plain h.before h.distinct_before
      (h.needed hbound hz)
    exact absurd hnone (hclosed.known hknown hzx)
  · exact hmade

theorem redefines (hneeded : Needed ds d.name) :
    ((described E priority ds).withBounds E priority d).Redefinable d.name d.type d.props
      (implicitEntry E priority d.name) :=
  h.accepted.free _ (withBounds_of_known
    ((described_of_not_mem _ _ h.distinct.ne_last).1 hneeded))

theorem types_of_mem : ∀ d' ∈ ds ++ [d], Needed (ds ++ [d]) d'.name → d'.type = E.arrayBoundType := by
  intro d' hmem hconcat
  rcases List.mem_append.mp hmem with hd' | hd' <;> rcases needed_concat.mp hconcat with
    hneeded | ⟨bound, hbound, hchain⟩
  · exact h.sound.types d' hd' hneeded
  · rcases h.found hbound hchain (described_of_mem h.distinct_before hd') with htype | hneeded
    · exact htype
    · exact h.sound.types d' hd' hneeded
  · obtain rfl := List.mem_singleton.mp hd'
    exact (h.redefines hneeded).type_eq.symm
  · obtain rfl := List.mem_singleton.mp hd'
    exact absurd hchain (h.accepted.wellFormed.not_chain hbound)

theorem names_of_needed : ∀ x, Needed (ds ++ [d]) x → isVarName x = true := by
  intro x hneeded
  rcases needed_concat.mp hneeded with hneeded | ⟨bound, hbound, hchain⟩
  · exact h.sound.names x hneeded
  · cases he : described E priority ds x with
    | none => exact (h.made hbound hchain he).1
    | some e =>
        rcases described_cases h.distinct_before he with ⟨d', hd', rfl, -⟩ | ⟨-, hneeded, -⟩
        · exact (h.sound.wellFormed d' hd').1
        · exact h.sound.names x hneeded

theorem clients_of_mem : ∀ d' ∈ ds ++ [d], ∀ b ∈ ds ++ [d], d'.boundName = some b.name →
    b.props.optional = true → d'.props.optional = true := by
  intro d' hmem b hbmem hbound hoptional
  rcases List.mem_append.mp hmem with hd' | hd' <;> rcases List.mem_append.mp hbmem with hb | hb
  · exact h.sound.clients d' hd' b hb hbound hoptional
  · obtain rfl := List.mem_singleton.mp hb
    have hneeded : Needed ds b.name := ⟨d', hd', b.name, hbound, ReflTransGen.refl⟩
    exact (h.redefines hneeded).clients hoptional d'.name _
      (withBounds_of_known (described_of_mem h.distinct_before hd')) hbound
  · obtain rfl := List.mem_singleton.mp hd'
    exact ((h.accepted.bound b.name hbound).suits (described_of_mem h.distinct_before hb)).2 hoptional
  · obtain rfl := List.mem_singleton.mp hd'
    obtain rfl := List.mem_singleton.mp hb
    exact absurd ReflTransGen.refl (h.accepted.wellFormed.not_chain hbound)

theorem bounds_of_needed : ∀ x, Needed (ds ++ [d]) x → ∀ b ∈ ds ++ [d],
    computedBoundName x = some b.name → b.props.optional = false := by
  intro x hconcat b hbmem hcomputed
  have hall : Needed all x := hconcat.mono h.sub
  rcases List.mem_append.mp hbmem with hb | hb <;> rcases needed_concat.mp hconcat with
    hneeded | ⟨bound, hbound, hchain⟩
  · exact h.sound.bounds x hneeded b hb hcomputed
  · cases he : described E priority ds x with
    | none =>
        have hsuits := ((h.made hbound hchain he).2 b.name hcomputed).suits
          (described_of_mem h.distinct_before hb)
        exact Bool.eq_false_iff.mpr fun hoptional => Bool.false_ne_true (hsuits.2 hoptional)
    | some e =>
        rcases described_cases h.distinct_before he with ⟨d', hd', rfl, -⟩ | ⟨-, hneeded, -⟩
        · have hbound' := (h.plain.computed d' (h.before hd') hall).trans hcomputed
          by_contra hoptional
          rw [Bool.not_eq_false] at hoptional
          have hclient := h.sound.clients d' hd' b hb hbound' hoptional
          have hfalse := h.plain.optional d' (h.before hd') hall b (h.before hb) hbound' hclient
          exact nomatch hoptional.symm.trans hfalse
        · exact h.sound.bounds x hneeded b hb hcomputed
  · obtain rfl := List.mem_singleton.mp hb
    have hredefines := h.redefines (hneeded.next hcomputed)
    by_contra hoptional
    rw [Bool.not_eq_false] at hoptional
    obtain ⟨e, he⟩ := Option.ne_none_iff_exists'.mp (hneeded.known E priority)
    have hclient := hredefines.clients hoptional x e (withBounds_of_known he)
    rcases described_cases h.distinct_before he with ⟨d', hd', rfl, rfl⟩ | ⟨-, -, rfl⟩
    · have hbound' := (h.plain.computed d' (h.before hd') hall).trans hcomputed
      have hfalse := h.plain.optional d' (h.before hd') hall b h.mem hbound' (hclient hbound')
      exact nomatch hoptional.symm.trans hfalse
    · exact nomatch hclient hcomputed
  · obtain rfl := List.mem_singleton.mp hb
    exact absurd (hchain.tail hcomputed) (h.accepted.wellFormed.not_chain hbound)

theorem sound_concat : SoundDefinitions E (ds ++ [d]) where
  wellFormed := by
    intro d' hd'
    rcases List.mem_append.mp hd' with hd' | hd'
    · exact h.sound.wellFormed d' hd'
    · exact List.mem_singleton.mp hd' ▸ h.accepted.wellFormed
  names := h.names_of_needed
  types := h.types_of_mem
  clients := h.clients_of_mem
  bounds := h.bounds_of_needed

end OneMore

/-! ### What fits together is accepted -/

theorem described_boundOk (hdistinct : Distinct ds) (hsub : ds ⊆ ds') (hsound : SoundDefinitions E ds')
    (x : CString) (optional : Bool) (hneeded : Needed ds' x)
    (hoptional : ∀ b ∈ ds, b.name = x → b.props.optional = true → optional = true) :
    BoundOk E (described E priority ds) x optional := by
  induction hlevel : numPlaceholders x using Nat.strong_induction_on generalizing x optional with
  | _ n ih =>
      cases he : described E priority ds x with
      | some e =>
          rcases described_cases hdistinct he with ⟨b, hb, rfl, rfl⟩ | ⟨-, -, rfl⟩
          · exact .found he (hsound.types b (hsub hb) hneeded) (hoptional b hb rfl)
          · exact .found he rfl fun h => nomatch h
      | none =>
          cases hcomputed : computedBoundName x with
          | none => exact .scalar he (hsound.names x hneeded) hcomputed
          | some bound =>
              have hcount := numPlaceholders_computedBoundName hcomputed
              refine .array he (hsound.names x hneeded) hcomputed
                (ih (numPlaceholders bound) (by omega) bound false (hneeded.next hcomputed) ?_ rfl)
              rintro b hb rfl hboptional
              exact (hsound.bounds x hneeded b (hsub hb) hcomputed).symm.trans hboptional

theorem SoundDefinitions.accepted (hdistinct : Distinct (ds ++ [d]))
    (hsound : SoundDefinitions E (ds ++ [d])) : Accepts E priority (described E priority ds) d := by
  have hdistinct' : Distinct ds := by
    rw [Distinct, List.map_append] at hdistinct
    exact hdistinct.of_append_left
  have hsub : ds ⊆ ds ++ [d] := List.subset_append_left ds [d]
  have hd : d ∈ ds ++ [d] := by simp
  have hwellFormed := hsound.wellFormed d hd
  refine ⟨hwellFormed, ?_, ?_⟩
  · intro name hname
    refine described_boundOk hdistinct' hsub hsound name _
      ⟨d, hd, name, hname, ReflTransGen.refl⟩ ?_
    rintro b hb rfl hoptional
    exact hsound.clients d hd b (hsub hb) hname hoptional
  · intro e he
    rw [withBounds_self hwellFormed] at he
    rcases described_cases hdistinct' he with ⟨d', hd', hname, -⟩ | ⟨-, hneeded, rfl⟩
    · exact absurd hname (hdistinct.ne_last d' hd')
    · refine ⟨rfl, (hsound.types d hd (hneeded.mono hsub)).symm, ?_⟩
      intro hoptional client e' he' hbound
      have hstore : described E priority ds client = some e' ∨
          (Needed (ds ++ [d]) client ∧ e' = implicitEntry E priority client) := by
        by_cases hchain : ∃ bound, d.boundName = some bound ∧ BoundChain bound client
        · cases hM : described E priority ds client with
          | some e'' =>
              rw [withBounds_of_known hM] at he'
              exact Or.inl he'
          | none =>
              obtain ⟨bound, hdbound, hchain⟩ := hchain
              simp only [NameStore.withBounds, hdbound, Option.elim_some, NameStore.addBounds, hM,
                if_pos hchain, Option.none_or] at he'
              exact Or.inr ⟨⟨d, hd, bound, hdbound, hchain⟩, (Option.some.inj he').symm⟩
        · rw [withBounds_of_ne hchain] at he'
          exact Or.inl he'
      have himplicit : Needed (ds ++ [d]) client → computedBoundName client = some d.name → False := by
        intro hclient hcomputed
        exact Bool.noConfusion (hoptional.symm.trans (hsound.bounds client hclient d hd hcomputed))
      rcases hstore with hknown | ⟨hclient, rfl⟩
      · rcases described_cases hdistinct' hknown with ⟨d', hd', rfl, rfl⟩ | ⟨-, hclient, rfl⟩
        · exact hsound.clients d' (hsub hd') d hd hbound hoptional
        · exact (himplicit (hclient.mono hsub) hbound).elim
      · exact (himplicit hclient hbound).elim

theorem OneMore.described_concat (h : OneMore E priority all ds d) :
    (described E priority ds).define E priority d = described E priority (ds ++ [d]) := by
  have hd : d ∈ ds ++ [d] := by simp
  funext x
  unfold NameStore.define NameStore.enroll
  by_cases hx : x = d.name
  · subst hx
    rw [update_self, withBounds_self h.accepted.wellFormed, described_of_mem h.distinct hd]
    cases he : described E priority ds d.name with
    | none => rfl
    | some e =>
        -- a bound that has been made is redefined
        rcases described_cases h.distinct_before he with ⟨d', hd', hname, -⟩ | ⟨-, hneeded, rfl⟩
        · exact absurd hname (h.distinct.ne_last d' hd')
        · have htype := (h.redefines hneeded).type_eq
          have hbound := h.plain.computed d h.mem (hneeded.mono h.before)
          simp only [Option.elim_some, implicitEntry, Definition.entry, hbound] at htype ⊢
          rw [htype]
  · rw [update_of_ne hx]
    by_cases hmem : ∃ d' ∈ ds, d'.name = x
    · obtain ⟨d', hd', rfl⟩ := hmem
      rw [withBounds_of_known (described_of_mem h.distinct_before hd'),
        described_of_mem h.distinct (List.mem_append_left _ hd')]
    · have hnot : ∀ d' ∈ ds, d'.name ≠ x := fun d' hd' heq => hmem ⟨d', hd', heq⟩
      have hnot' : ∀ d' ∈ ds ++ [d], d'.name ≠ x := by
        intro d' hd'
        rcases List.mem_append.mp hd' with hd' | hd'
        · exact hnot d' hd'
        · exact List.mem_singleton.mp hd' ▸ Ne.symm hx
      by_cases hneeded : Needed ds x
      · rw [withBounds_of_known ((described_of_not_mem _ _ hnot).1 hneeded),
          (described_of_not_mem _ _ hnot').1 (hneeded.mono (List.subset_append_left ds [d]))]
      · have hM := (described_of_not_mem E priority hnot).2 hneeded
        by_cases hchain : ∃ bound, d.boundName = some bound ∧ BoundChain bound x
        · rw [(described_of_not_mem _ _ hnot').1 (needed_concat.mpr (Or.inr hchain))]
          obtain ⟨bound, hdbound, hchain⟩ := hchain
          simp only [NameStore.withBounds, hdbound, Option.elim_some, NameStore.addBounds, hM,
            if_pos hchain, Option.none_or]
        · have hnone : ¬ Needed (ds ++ [d]) x := by
            rw [needed_concat]
            exact not_or.mpr ⟨hneeded, hchain⟩
          rw [withBounds_of_ne hchain, hM, (described_of_not_mem _ _ hnot').2 hnone]

/-! ### All definitions -/

theorem defineVars_concat (ds : List Definition) (d : Definition) :
    defineVars E priority (ds ++ [d]) = (defineVars E priority ds).bind fun g => defineVar E priority g d := by
  rw [defineVars, List.foldlM_append, defineVars]
  cases ds.foldlM (defineVar E priority) Graph.empty with
  | none => rfl
  | some g =>
      simp only [Option.bind_eq_bind, Option.bind_some, List.foldlM_cons, List.foldlM_nil]
      cases defineVar E priority g d <;> rfl

/-- Plain definitions are accepted if and only if they fit together, and what they make does not depend on
their order.  By induction on the definitions, the last one first. -/
theorem defineVars_cases (E : GraphEnv) (priority : Priority) (hplain : PlainDefinitions all)
    (ds : List Definition) (hsub : ds ⊆ all)
    (hdistinct : Distinct ds) :
    match defineVars E priority ds with
    | some g => SoundDefinitions E ds ∧ g.Shows E (described E priority ds)
    | none => ¬ SoundDefinitions E ds := by
  induction ds using List.reverseRecOn with
  | nil =>
      have hempty : described E priority [] = fun _ => none := by
        funext x
        have hnot : ¬ Needed [] x := fun ⟨_, hd, _⟩ => nomatch hd
        exact (described_of_not_mem _ _ fun _ hd => absurd hd List.not_mem_nil).2 hnot
      refine ⟨⟨?_, ?_, ?_, ?_, ?_⟩, hempty ▸ Graph.Shows.empty E⟩
      · exact fun _ hd => nomatch hd
      · exact fun _ ⟨_, hd, _⟩ => nomatch hd
      · exact fun _ hd => nomatch hd
      · exact fun _ hd => nomatch hd
      · exact fun _ _ _ hd => nomatch hd
  | append_singleton ds d ih =>
      have hbefore : ds ⊆ ds ++ [d] := List.subset_append_left ds [d]
      have hdistinct' : Distinct ds := by
        have h := hdistinct
        rw [Distinct, List.map_append] at h
        exact h.of_append_left
      have hbeforeAll : ds ⊆ all := fun _ hx => hsub (hbefore hx)
      have hcases := ih hbeforeAll hdistinct'
      rw [defineVars_concat]
      cases hpre : defineVars E priority ds with
      | none =>
          rw [hpre] at hcases
          exact fun hsound => hcases (hsound.mono hbefore)
      | some g =>
          rw [hpre] at hcases
          obtain ⟨hsound, hshows⟩ := hcases
          have hd : d ∈ all := hsub (by simp)
          have hupper : ∀ name, d.arrayBound = some name → PlainName name := fun name hname =>
            ⟨d.bound_line name hname, hplain.upper d hd name hname⟩
          have hclosed : ∀ name, d.boundName = some name →
              (described E priority ds).ClosedBelow name := fun name hname =>
            described_closedBelow _ _ hplain hbeforeAll hdistinct'
              ⟨d, hd, name, hname, ReflTransGen.refl⟩
          have hstep := defineVar_cases hshows (described_uniform hdistinct') hupper hclosed
          rw [Option.bind_some]
          cases hlast : defineVar E priority g d with
          | none =>
              rw [hlast] at hstep
              exact fun hsound' => hstep (hsound'.accepted hdistinct)
          | some g' =>
              rw [hlast] at hstep
              have hmore : OneMore E priority all ds d := ⟨hplain, hsub, hdistinct, hsound, hstep.1⟩
              exact ⟨hmore.sound_concat, hmore.described_concat ▸ hstep.2⟩

theorem Needed.perm (h : ds.Perm ds') : Needed ds name ↔ Needed ds' name :=
  ⟨fun hneeded => hneeded.mono h.subset, fun hneeded => hneeded.mono h.symm.subset⟩

theorem described_perm (h : ds.Perm ds') (hdistinct : Distinct ds) :
    described E priority ds = described E priority ds' := by
  have hdistinct' : Distinct ds' := (h.map Definition.name).nodup_iff.mp hdistinct
  funext x
  by_cases hmem : ∃ d ∈ ds, d.name = x
  · obtain ⟨d, hd, rfl⟩ := hmem
    rw [described_of_mem hdistinct hd, described_of_mem hdistinct' (h.subset hd)]
  · have hnot : ∀ d ∈ ds, d.name ≠ x := fun d hd heq => hmem ⟨d, hd, heq⟩
    have hnot' : ∀ d ∈ ds', d.name ≠ x := fun d hd => hnot d (h.symm.subset hd)
    by_cases hneeded : Needed ds x
    · rw [(described_of_not_mem _ _ hnot).1 hneeded,
        (described_of_not_mem _ _ hnot').1 ((Needed.perm h).mp hneeded)]
    · rw [(described_of_not_mem _ _ hnot).2 hneeded,
        (described_of_not_mem _ _ hnot').2 fun hneeded' => hneeded ((Needed.perm h).mpr hneeded')]

end order

/-! ### The same variables -/

/-- A variable of a store, with the names of its bound and its clients instead of the objects. -/
structure VarView where
  name : CString
  type : VarTypeId
  level : Nat
  priority : Priority
  props : VarProperties
  bound : Option CString
  clients : Multiset CString

/-- A variable object, seen through names. -/
def Graph.viewOf (g : Graph) (var : Var) : VarView :=
  ⟨var.name, var.type, var.level, var.priority, var.props, var.varN.bind g.nameOf,
    ↑(var.varNClients.filterMap g.nameOf)⟩

/-- The variables of a store, seen through names. -/
def Graph.views (g : Graph) : Set VarView :=
  {view | ∃ v var, g.vars v = some var ∧ g.viewOf var = view}

section views

variable {E : GraphEnv} {g g' : Graph} {M : NameStore}

theorem Graph.Shows.mem_clients (h : g.Shows E M) (hb : g.vars b = some varN)
    (name : CString) : name ∈ varN.varNClients.filterMap g.nameOf ↔
      ∃ e, M name = some e ∧ e.bound = some varN.name := by
  rw [List.mem_filterMap]
  constructor
  · rintro ⟨v, hv, hname⟩
    obtain ⟨var, hvar, hvarN⟩ := h.valid.boundGraph.client hb hv
    rw [Graph.nameOf, hvar, Option.map_some] at hname
    obtain rfl := Option.some.inj hname
    refine ⟨g.entryOf var, (h.entries _ _).mpr ⟨v, var, hvar, rfl, rfl⟩, ?_⟩
    simp only [Graph.entryOf, hvarN, Option.bind_some, Graph.nameOf, hb, Option.map_some]
  · rintro ⟨e, hM, hbound⟩
    obtain ⟨v, var, hvar, rfl, rfl⟩ := (h.entries name e).mp hM
    obtain ⟨b', hvarN, hnameOf⟩ := Option.bind_eq_some_iff.mp hbound
    obtain ⟨w, hw, hname⟩ := Option.map_eq_some_iff.mp hnameOf
    obtain rfl : b' = b := h.valid.same_name hw hb hname
    obtain ⟨w', hw', -, -, -, hcount⟩ := h.valid.boundGraph.bound hvar hvarN
    obtain rfl : w' = varN := Option.some.inj (hw'.symm.trans hb)
    refine ⟨v, List.count_pos_iff.mp (by omega), ?_⟩
    rw [Graph.nameOf, hvar, Option.map_some]

theorem Graph.Shows.clients_nodup (h : g.Shows E M)
    (hb : g.vars b = some varN) : (varN.varNClients.filterMap g.nameOf).Nodup := by
  have hnodup : varN.varNClients.Nodup := by
    rw [List.nodup_iff_count_le_one]
    intro v
    by_cases hv : v ∈ varN.varNClients
    · obtain ⟨var, hvar, hvarN⟩ := h.valid.boundGraph.client hb hv
      obtain ⟨w, hw, -, -, -, hcount⟩ := h.valid.boundGraph.bound hvar hvarN
      obtain rfl : w = varN := Option.some.inj (hw.symm.trans hb)
      exact hcount.le
    · rw [List.count_eq_zero.mpr hv]
      exact Nat.zero_le 1
  refine hnodup.filterMap fun u v name hu hv => ?_
  obtain ⟨w, hw, hwname⟩ := Option.map_eq_some_iff.mp hu
  obtain ⟨w', hw', hwname'⟩ := Option.map_eq_some_iff.mp hv
  exact h.valid.same_name hw hw' (hwname.trans hwname'.symm)

theorem Graph.Shows.views_subset (h : g.Shows E M) (h' : g'.Shows E M) : g.views ⊆ g'.views := by
  rintro _ ⟨v, var, hvar, rfl⟩
  obtain ⟨u, w, hw, hname, hentry⟩ :=
    (h'.entries var.name (g.entryOf var)).mp ((h.entries _ _).mpr ⟨v, var, hvar, rfl, rfl⟩)
  refine ⟨u, w, hw, ?_⟩
  have hclients : (w.varNClients.filterMap g'.nameOf).Perm (var.varNClients.filterMap g.nameOf) := by
    rw [List.perm_ext_iff_of_nodup (h'.clients_nodup hw) (h.clients_nodup hvar)]
    intro name
    rw [h'.mem_clients hw, h.mem_clients hvar, hname]
  have hlevel : w.level = var.level := by
    rw [h'.valid.level_eq u w hw, h.valid.level_eq v var hvar, hname]
  obtain ⟨htype, hpriority, hprops, hbound⟩ := Entry.mk.inj hentry
  rw [Graph.viewOf, Graph.viewOf, hname, htype, hlevel, hpriority, hprops, hbound,
    Multiset.coe_eq_coe.mpr hclients]

theorem Graph.Shows.views_eq (h : g.Shows E M) (h' : g'.Shows E M) : g.views = g'.views :=
  Set.Subset.antisymm (h.views_subset h') (h'.views_subset h)

end views

/-- In any two orders, a call fails in both, or none fails and the variables are the same. -/
def OrderIndependent (E : GraphEnv) (priority : Priority) (ds : List Definition) : Prop :=
  ∀ order order' : List Definition, order.Perm ds → order'.Perm ds →
    (defineVars E priority order = none ∧ defineVars E priority order' = none) ∨
      ∃ g g', defineVars E priority order = some g ∧ defineVars E priority order' = some g' ∧
        g.views = g'.views

theorem PlainDefinitions.orderIndependent {E : GraphEnv} {priority : Priority} {ds : List Definition}
    (hplain : PlainDefinitions ds) (hdistinct : Distinct ds) : OrderIndependent E priority ds := by
  intro order order' hperm hperm'
  have hnames : Distinct order := (hperm.map Definition.name).nodup_iff.mpr hdistinct
  have hnames' : Distinct order' := (hperm'.map Definition.name).nodup_iff.mpr hdistinct
  have hboth : order.Perm order' := hperm.trans hperm'.symm
  have hcases := defineVars_cases E priority hplain order hperm.subset hnames
  have hcases' := defineVars_cases E priority hplain order' hperm'.subset hnames'
  cases hfirst : defineVars E priority order with
  | none =>
      rw [hfirst] at hcases
      cases hsecond : defineVars E priority order' with
      | none => exact Or.inl ⟨rfl, rfl⟩
      | some g' =>
          rw [hsecond] at hcases'
          exact absurd (hcases'.1.mono hboth.subset) hcases
  | some g =>
      rw [hfirst] at hcases
      cases hsecond : defineVars E priority order' with
      | none =>
          rw [hsecond] at hcases'
          exact absurd (hcases.1.mono hboth.symm.subset) hcases'
      | some g' =>
          rw [hsecond] at hcases'
          refine Or.inr ⟨g, g', rfl, rfl, hcases.2.views_eq ?_⟩
          rw [described_perm hboth hnames]
          exact hcases'.2

/-! ### Definitions that depend on their order -/

section dependent

variable {E : GraphEnv} {priority : Priority} {ds rest : List Definition} {g g' : Graph}
variable {d x y : Definition}

/-- Variables keep their names and their bounds. -/
def KeepsBounds (g g' : Graph) : Prop :=
  ∀ v var, g.vars v = some var →
    ∃ var', g'.vars v = some var' ∧ var'.name = var.name ∧ var'.varN = var.varN

theorem KeepsBounds.trans {g'' : Graph} (h : KeepsBounds g g') (h' : KeepsBounds g' g'') :
    KeepsBounds g g'' := by
  intro v var hvar
  obtain ⟨var', hvar', hname, hvarN⟩ := h v var hvar
  obtain ⟨var'', hvar'', hname', hvarN'⟩ := h' v var' hvar'
  exact ⟨var'', hvar'', hname'.trans hname, hvarN'.trans hvarN⟩

theorem Growths.keepsBounds {n : Nat} (h : Growths E n g g') (hvalid : g.Valid E) :
    KeepsBounds g g' := by
  intro v var hvar
  obtain ⟨clients, hvar'⟩ := h.vars_eq hvalid hvar
  exact ⟨_, hvar', rfl, rfl⟩

theorem enrollVar_keepsBounds (var : Var) (hvalid : g.Valid E) (hclients : var.varNClients = [])
    (hlevel : var.level = numPlaceholders var.name) (hbound : BoundFits E g var) :
    KeepsBounds g (enrollVar g var).2 := by
  rcases enrollVar_cases hvalid hclients hlevel hbound with
    ⟨hnew, henroll⟩ | ⟨old, oldVar, -, -, henroll⟩ | ⟨-, -, henroll⟩
  · rw [henroll]
    exact Growths.keepsBounds (n := numPlaceholders var.name) (ReflTransGen.single
      (Growth.create hnew hclients hlevel hbound (Nat.le_refl _))) hvalid
  · rw [henroll]
    intro v w hw
    by_cases hv : v = old
    · subst hv
      exact ⟨_, Graph.updateVar_vars_self hw, rfl, rfl⟩
    · exact ⟨w, (Graph.updateVar_vars_ne hv).trans hw, rfl, rfl⟩
  · rw [henroll]
    exact fun v w hw => ⟨w, hw, rfl, rfl⟩

/-- A definition keeps the bounds of the variables that are there. -/
theorem defineVar_keepsBounds (hvalid : g.Valid E) (h : defineVar E priority g d = some g') :
    KeepsBounds g g' := by
  have hcall : ∃ v, varAddWithArrayBound E ⟨d.name, d.type, priority, d.props⟩ d.arrayBound g =
      (some v, g') := by
    unfold defineVar at h
    split at h
    · next v _ heq => exact ⟨v, heq.trans (congrArg (Prod.mk (some v)) (Option.some.inj h))⟩
    · exact nomatch h
  obtain ⟨v, hcall⟩ := hcall
  cases hname : isVarName d.name with
  | false =>
      rw [varAddWithArrayBound_of_invalid hname] at hcall
      exact nomatch (Prod.mk.inj hcall).1
  | true =>
      cases hcomputed : computedBoundName d.name with
      | none =>
          have hlevel := computedBoundName_eq_none hcomputed
          have henroll : enrollVar g ⟨d.name, d.type, 0, none, [], priority, d.props⟩ = (some v, g') := by
            cases hexplicit : d.arrayBound with
            | none =>
                rw [hexplicit] at hcall
                simpa only [varAddWithArrayBound, hlevel, varAdd, hname, if_true, varCreate, hcomputed]
                  using hcall
            | some name =>
                simp only [hexplicit, varAddWithArrayBound, hname, if_true, varCreate, hcomputed] at hcall
                exact nomatch (Prod.mk.inj hcall).1
          have hkeeps := enrollVar_keepsBounds (E := E)
            ⟨d.name, d.type, 0, none, [], priority, d.props⟩ hvalid rfl hlevel.symm rfl
          rw [henroll] at hkeeps
          exact hkeeps
      | some computed =>
          rw [varAddWithArrayBound_of_array hname hcomputed] at hcall
          obtain ⟨bound, hbound⟩ : ∃ bound, d.arrayBound.getD computed = bound := ⟨_, rfl⟩
          obtain ⟨hgrowths, hsuit⟩ := varGetOrAddArrayBound_spec
            (varAdd_makes E (numPlaceholders bound)) hvalid (Eq.refl (numPlaceholders bound)) d.props
            priority
          simp only [varCreate, hcomputed, hbound] at hcall
          rcases hresult : varGetOrAddArrayBound E (varAdd E (numPlaceholders bound)) bound d.props
            priority g with ⟨_ | ⟨b, created⟩, g₁⟩
          · rw [hresult] at hcall
            exact nomatch (Prod.mk.inj hcall).1
          · rw [hresult] at hcall hgrowths hsuit
            obtain ⟨varN, hvarN, hsuitable⟩ := hsuit b created rfl
            simp only at hcall hgrowths hvarN
            split at hcall
            · exact nomatch (Prod.mk.inj hcall).1
            · next hmatch =>
                have hlevel : varN.level + 1 = numPlaceholders d.name := by
                  cases hexplicit : d.arrayBound with
                  | none =>
                      rw [hexplicit, Option.getD_none] at hbound
                      rw [hsuitable.level_eq, ← hbound, numPlaceholders_computedBoundName hcomputed]
                  | some name =>
                      by_contra hne
                      refine hmatch ⟨hexplicit ▸ Option.some_ne_none name, ?_⟩
                      rw [hvarN, Option.map_some]
                      exact fun heq => hne (Option.some.inj heq)
                have hkeeps := enrollVar_keepsBounds
                  ⟨d.name, d.type, numPlaceholders d.name, some b, [], priority, d.props⟩
                  (hgrowths.valid hvalid) rfl rfl ⟨varN, hvarN, hlevel, hsuitable.type_eq, hsuitable.priority_eq,
                    hsuitable.optional⟩
                rw [hcall] at hkeeps
                exact (hgrowths.keepsBounds hvalid).trans hkeeps

theorem defineVar_valid (hvalid : g.Valid E) (h : defineVar E priority g d = some g') :
    g'.Valid E := by
  have hstep : GraphStep E g g' := by
    refine ⟨.add ⟨d.name, d.type, priority, d.props⟩ d.arrayBound, ?_⟩
    unfold defineVar at h
    split at h
    · next heq => exact congrArg (some ∘ Prod.snd) heq |>.trans h
    · exact nomatch h
  exact GraphRun.valid (ReflTransGen.single hstep) hvalid

theorem defineVars_keepsBounds (rest : List Definition) (hvalid : g.Valid E)
    (h : rest.foldlM (defineVar E priority) g = some g') : g'.Valid E ∧ KeepsBounds g g' := by
  induction rest generalizing g with
  | nil =>
      obtain rfl := Option.some.inj h
      exact ⟨hvalid, fun v var hvar => ⟨var, hvar, rfl, rfl⟩⟩
  | cons d rest ih =>
      obtain ⟨g₁, hfirst, hrest⟩ := Option.bind_eq_some_iff.mp h
      have hkeeps := defineVar_keepsBounds hvalid hfirst
      obtain ⟨hvalid', hkeeps'⟩ := ih (defineVar_valid hvalid hfirst) hrest
      exact ⟨hvalid', hkeeps.trans hkeeps'⟩

/-! #### The first definition -/

/-- The store after a first definition. -/
noncomputable abbrev firstStore (E : GraphEnv) (priority : Priority) (d : Definition) : NameStore :=
  NameStore.define E priority (fun _ => none) d

theorem firstStore_self (h : d.WellFormed) :
    firstStore E priority d d.name = some (d.entry priority) := by
  rw [firstStore, NameStore.define, NameStore.enroll, update_self, withBounds_self h]
  rfl

theorem firstStore_bound (h : d.WellFormed) {name : CString} (hbound : d.boundName = some bound)
    (hchain : BoundChain bound name) :
    firstStore E priority d name = some (implicitEntry E priority name) := by
  have hne : name ≠ d.name := by
    rintro rfl
    exact h.not_chain hbound hchain
  rw [firstStore, NameStore.define, NameStore.enroll, update_of_ne hne, NameStore.withBounds,
    hbound, Option.elim_some, NameStore.addBounds, if_pos hchain, Option.none_or]

theorem firstStore_known {name : CString} (h : firstStore E priority d name = some e) :
    name = d.name ∨ (∃ bound, d.boundName = some bound ∧ BoundChain bound name) ∧
      e = implicitEntry E priority name := by
  by_cases hname : name = d.name
  · exact Or.inl hname
  · rw [firstStore, NameStore.define, NameStore.enroll, update_of_ne hname] at h
    by_cases hchain : ∃ bound, d.boundName = some bound ∧ BoundChain bound name
    · obtain ⟨bound, hbound, hchain⟩ := hchain
      rw [NameStore.withBounds, hbound, Option.elim_some, NameStore.addBounds, if_pos hchain,
        Option.none_or] at h
      exact Or.inr ⟨⟨bound, hbound, hchain⟩, (Option.some.inj h).symm⟩
    · rw [withBounds_of_ne hchain] at h
      contradiction

theorem firstStore_shows (hupper : ∀ name, d.arrayBound = some name → PlainName name)
    (h : defineVar E priority Graph.empty d = some g) :
    d.WellFormed ∧ g.Shows E (firstStore E priority d) := by
  have huniform : NameStore.Uniform (fun _ => none) priority := fun _ _ h => nomatch h
  have hcases := defineVar_cases (Graph.Shows.empty E) huniform hupper
    (fun _ _ _ _ _ h => (nomatch h))
  rw [h] at hcases
  exact ⟨hcases.1.wellFormed, hcases.2⟩

theorem firstStore_views (hupper : ∀ name, d.arrayBound = some name → PlainName name)
    (h : defineVars E priority (d :: rest) = some g) {name : CString}
    (he : firstStore E priority d name = some e) (hbound : e.bound = some bound) :
    (∃ view ∈ g.views, view.name = name) ∧
      ∀ view ∈ g.views, view.name = name → view.bound = some bound := by
  obtain ⟨g₁, hfirst, hrest⟩ := Option.bind_eq_some_iff.mp h
  obtain ⟨-, hshows⟩ := firstStore_shows hupper hfirst
  obtain ⟨hvalid, hkeeps⟩ := defineVars_keepsBounds rest hshows.valid hrest
  obtain ⟨v, var, hvar, rfl, rfl⟩ := (hshows.entries name e).mp he
  obtain ⟨var', hvar', hname, hvarN⟩ := hkeeps v var hvar
  refine ⟨⟨_, ⟨v, var', hvar', rfl⟩, hname⟩, ?_⟩
  rintro _ ⟨u, w, hw, rfl⟩ hview
  obtain rfl : u = v := hvalid.same_name hw hvar' (hview.trans hname.symm)
  obtain rfl : w = var' := Option.some.inj (hw.symm.trans hvar')
  obtain ⟨b, hb, hnameOf⟩ := Option.bind_eq_some_iff.mp hbound
  obtain ⟨varN, hvarN', hboundName⟩ := Option.map_eq_some_iff.mp hnameOf
  obtain ⟨varN'', hkept, hkeptName, -⟩ := hkeeps b varN hvarN'
  rw [Graph.viewOf, hvarN, hb, Option.bind_some, Graph.nameOf, hkept, Option.map_some, hkeptName,
    hboundName]

/-! #### What follows if the order does not matter -/

/-- The definitions are accepted in every order, and they make the same variables. -/
structure AlwaysAccepted (E : GraphEnv) (priority : Priority) (ds : List Definition) : Prop where
  accepted : ∀ order : List Definition, order.Perm ds → ∃ g, defineVars E priority order = some g
  same : ∀ (order order' : List Definition) (g g' : Graph), order.Perm ds → order'.Perm ds →
    defineVars E priority order = some g → defineVars E priority order' = some g' → g.views = g'.views

theorem OrderIndependent.always (h : OrderIndependent E priority ds) {order : List Definition}
    (hperm : order.Perm ds) (haccepted : defineVars E priority order ≠ none) :
    AlwaysAccepted E priority ds := by
  constructor
  · intro order' hperm'
    rcases h order order' hperm hperm' with ⟨hnone, -⟩ | ⟨-, g', -, hsome, -⟩
    · exact absurd hnone haccepted
    · exact ⟨g', hsome⟩
  · intro order₁ order₂ g g' hperm₁ hperm₂ hg hg'
    rcases h order₁ order₂ hperm₁ hperm₂ with ⟨hnone, -⟩ | ⟨g₁, g₂, hsome, hsome', hviews⟩
    · exact nomatch hnone.symm.trans hg
    · obtain rfl := Option.some.inj (hsome.symm.trans hg)
      obtain rfl := Option.some.inj (hsome'.symm.trans hg')
      exact hviews

namespace AlwaysAccepted

variable (h : AlwaysAccepted E priority ds)

include h

theorem first (hd : d ∈ ds) : ∃ g₁ g, defineVar E priority Graph.empty d = some g₁ ∧
    defineVars E priority (d :: ds.erase d) = some g := by
  obtain ⟨g, hg⟩ := h.accepted (d :: ds.erase d) (List.perm_cons_erase hd).symm
  obtain ⟨g₁, hfirst, -⟩ := Option.bind_eq_some_iff.mp hg
  exact ⟨g₁, g, hfirst, hg⟩

theorem upper (hd : d ∈ ds) (hbound : d.arrayBound = some bound) :
    ∀ c ∈ bound, c.isLower = false := by
  obtain ⟨g₁, -, hfirst, -⟩ := h.first hd
  by_contra hlower
  have hinvalid : isVarName bound = false := by
    by_contra hvalid
    rw [Bool.not_eq_false] at hvalid
    exact hlower (ProperName.no_lower ⟨hvalid, d.bound_line bound hbound⟩)
  have hnone : defineVar E priority Graph.empty d = none := by
    have hadd : varAdd E (numPlaceholders bound) ⟨bound, E.arrayBoundType, priority, boundProps⟩
        Graph.empty = (none, Graph.empty) := by
      cases numPlaceholders bound <;> simp only [varAdd, hinvalid, Bool.false_eq_true, if_false]
    have htry : varScopeTryGet E (varAdd E (numPlaceholders bound)) bound Graph.empty =
        (none, Graph.empty) := by
      have hvisit : E.visitOrder [] = [] := (E.visitOrder_perm []).eq_nil
      simp only [varScopeTryGet, Graph.tryGetMember, Graph.empty, List.find?_nil,
        varTemplateInstantiateFromString, Graph.templates, List.filterMap_nil, hvisit]
    cases hname : isVarName d.name with
    | false => rw [defineVar, varAddWithArrayBound_of_invalid hname]
    | true =>
        cases hcomputed : computedBoundName d.name with
        | none =>
            simp only [defineVar, hbound, varAddWithArrayBound, hname, if_true, varCreate, hcomputed]
        | some computed =>
            simp only [defineVar, varAddWithArrayBound, hbound, hname, if_true, varCreate, hcomputed,
              Option.getD_some, varGetOrAddArrayBound, htry, hadd]
  exact Option.some_ne_none g₁ (hfirst.symm.trans hnone)

theorem plainBound (hd : d ∈ ds) : ∀ name, d.arrayBound = some name → PlainName name :=
  fun name hname => ⟨d.bound_line name hname, h.upper hd hname⟩

theorem wellFormed (hd : d ∈ ds) : d.WellFormed := by
  obtain ⟨g₁, -, hfirst, -⟩ := h.first hd
  exact (firstStore_shows (h.plainBound hd) hfirst).1

theorem computed (hd : d ∈ ds) (hneeded : Needed ds d.name) :
    d.boundName = computedBoundName d.name := by
  obtain ⟨x, hx, bound, hbound, hchain⟩ := hneeded
  have hwellFormed := h.wellFormed hd
  obtain ⟨-, g, -, hg⟩ := h.first hd
  obtain ⟨-, g', -, hg'⟩ := h.first hx
  have hviews := h.same _ _ g g' (List.perm_cons_erase hd).symm (List.perm_cons_erase hx).symm hg hg'
  cases hcomputed : computedBoundName d.name with
  | none =>
      have hlevel := computedBoundName_eq_none hcomputed
      cases hown : d.boundName with
      | none => rfl
      | some own =>
          have := hwellFormed.placeholders hown
          omega
  | some computed =>
      cases hown : d.boundName with
      | none =>
          rw [Definition.boundName, hcomputed] at hown
          exact nomatch (Option.or_eq_none_iff.mp hown).2
      | some own =>
          obtain ⟨⟨view, hview, hname⟩, howned⟩ := firstStore_views (h.plainBound hd) hg
            (firstStore_self hwellFormed) hown
          obtain ⟨-, hmade⟩ := firstStore_views (h.plainBound hx) hg'
            (firstStore_bound (h.wellFormed hx) hbound hchain) hcomputed
          rw [← howned view hview hname, hmade view (hviews ▸ hview) hname]

/-- A bound that is made when it is needed is not optional at first, and its own bound must not be
optional then. -/
theorem optional (hd : d ∈ ds) (hneeded : Needed ds d.name) {y : Definition} (hy : y ∈ ds)
    (hbound : d.boundName = some y.name) : y.props.optional = false := by
  obtain ⟨x, hx, first, hfirst, hchain⟩ := hneeded
  have hcomputed : computedBoundName d.name = some y.name :=
    (h.computed hd ⟨x, hx, first, hfirst, hchain⟩).symm.trans hbound
  have hlevel := numPlaceholders_computedBoundName hcomputed
  have hychain := hchain.tail hcomputed
  have hyneeded : Needed ds y.name := ⟨x, hx, first, hfirst, hychain⟩
  have hywell := h.wellFormed hy
  -- `y` comes first, and `x` is the second
  have hne : x ≠ y := by
    rintro rfl
    exact hywell.not_chain hfirst hychain
  have hperm : (y :: x :: (ds.erase y).erase x).Perm ds :=
    ((List.perm_cons_erase ((List.mem_erase_of_ne hne).mpr hx)).symm.cons y).trans
      (List.perm_cons_erase hy).symm
  obtain ⟨g, hg⟩ := h.accepted _ hperm
  obtain ⟨g₁, hdefined, hrest⟩ := Option.bind_eq_some_iff.mp hg
  obtain ⟨g₂, hsecond, -⟩ := Option.bind_eq_some_iff.mp hrest
  obtain ⟨-, hshows⟩ := firstStore_shows (h.plainBound hy) hdefined
  have hclosed : (firstStore E priority y).ClosedBelow first := by
    intro z e hz hknown bound hzbound
    rcases firstStore_known hknown with rfl | ⟨⟨own, hown, hownz⟩, -⟩
    · have hown := (h.computed hy hyneeded).trans hzbound
      rw [firstStore_bound hywell hown ReflTransGen.refl]
      exact Option.some_ne_none _
    · rw [firstStore_bound hywell hown (hownz.tail hzbound)]
      exact Option.some_ne_none _
  have huniform : (firstStore E priority y).Uniform priority := by
    intro z e hknown
    rcases firstStore_known hknown with rfl | ⟨-, rfl⟩
    · rw [firstStore_self hywell] at hknown
      rw [← Option.some.inj hknown]
      rfl
    · rfl
  have hcases := defineVar_cases hshows huniform (h.plainBound hx) fun name hname => by
    obtain rfl := Option.some.inj (hfirst.symm.trans hname)
    exact hclosed
  rw [hsecond] at hcases
  have hunknown : firstStore E priority y d.name = none := by
    cases hknown : firstStore E priority y d.name with
    | none => rfl
    | some e =>
        rcases firstStore_known hknown with heq | ⟨⟨own, hown, hownd⟩, -⟩
        · rw [heq] at hlevel
          omega
        · have hle := hownd.placeholders_le
          have hylevel := hywell.placeholders hown
          omega
  rcases (hcases.1.bound first hfirst).chain hchain with ⟨z, e, hz, hzd, hknown, -⟩ | ⟨-, -, hmade⟩
  · have hbelow : (firstStore E priority y).ClosedBelow z :=
      fun w e' hw => hclosed w e' (hz.trans hw)
    exact absurd hunknown (hbelow.known hknown hzd)
  · by_contra hoptional
    rw [Bool.not_eq_false] at hoptional
    have hsuits := (hmade y.name hcomputed).suits (firstStore_self hywell)
    exact Bool.false_ne_true (hsuits.2 hoptional)

theorem plain : PlainDefinitions ds where
  upper := fun _ hd _ hbound => h.upper hd hbound
  computed := fun _ hd hneeded => h.computed hd hneeded
  optional := fun _ hd hneeded _ hy hbound _ => h.optional hd hneeded hy hbound

end AlwaysAccepted

end dependent

/-! ### When the order does not matter -/

/-- Plain definitions may come in any order, and if some order of the definitions is accepted, only plain
ones may. -/
theorem definitions_orderIndependent (E : GraphEnv) (priority : Priority) (ds : List Definition)
    (hdistinct : Distinct ds) :
    (PlainDefinitions ds → OrderIndependent E priority ds) ∧
      ((∃ order : List Definition, order.Perm ds ∧ defineVars E priority order ≠ none) →
        OrderIndependent E priority ds → PlainDefinitions ds) := by
  refine ⟨fun hplain => hplain.orderIndependent hdistinct, ?_⟩
  rintro ⟨order, hperm, haccepted⟩ hindependent
  exact (hindependent.always hperm haccepted).plain

/-- A definition of the tests, without an explicit bound. -/
def sampleDefinition (name : CString) (optional : Bool) (hname : '\n' ∉ name) : Definition :=
  ⟨name, none, 0, (sampleSpec name optional false).props, hname, fun _ h => nomatch h⟩

/-- An array, and its bound. -/
theorem definitions_orderIndependent_X :
    let ds := [sampleDefinition "X_%".toList false (by decide), sampleDefinition "X_N".toList false (by decide)]
    OrderIndependent sampleEnv .configuration ds ∧ PlainDefinitions ds := by
  intro ds
  have hplain : PlainDefinitions ds := by
    refine ⟨?_, ?_, ?_⟩
    · simp [ds, sampleDefinition]
    · simp [ds, sampleDefinition, Definition.boundName]
    · simp [ds, sampleDefinition, sampleSpec]
  have hnames : Distinct ds := by decide
  have hboth := definitions_orderIndependent sampleEnv .configuration ds hnames
  have hindependent := hboth.1 hplain
  exact ⟨hindependent, hboth.2 ⟨ds, List.Perm.refl ds, Option.isSome_iff_ne_none.mp (by decide)⟩ hindependent⟩

/-- The optional array `A_%_B_%` needs the bound `A_%_B_N`, which is made without being optional.  This
fails if the bound `A_N` of the bound is optional, unless `A_%_B_N` has been defined as optional before. -/
theorem definitions_depend_on_order :
    ¬ ∀ (E : GraphEnv) (priority : Priority) (ds : List Definition), Distinct ds →
      OrderIndependent E priority ds := by
  intro h
  let a := sampleDefinition "A_N".toList true (by decide)
  let b := sampleDefinition "A_%_B_N".toList true (by decide)
  let c := sampleDefinition "A_%_B_%".toList true (by decide)
  have haccepted : (defineVars sampleEnv .configuration [a, b, c]).isSome = true := by decide
  have hrefused : (defineVars sampleEnv .configuration [a, c, b]).isSome = false := by decide
  rcases h sampleEnv .configuration [a, b, c] (by decide) [a, b, c] [a, c, b] (List.Perm.refl _)
    ((List.Perm.swap b c []).cons a) with ⟨hnone, -⟩ | ⟨-, g, -, hsome, -⟩
  · rw [hnone] at haccepted
    exact nomatch haccepted
  · rw [hsome] at hrefused
    exact nomatch hrefused

end Mkfli4l
