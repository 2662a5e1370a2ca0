import Mkfli4l.Var.FailedDefinitions
import Mkfli4l.Var.Names

/-!
# Variables seen through their names

The graph of the variables depends on the order in which they are made, since this order gives them their
identifiers.  Seen through the names it does not: a store of names tells what is known under a name, and
the bound of an array is given by its name too.  This module describes what making a variable or its
bounds does to the store of names, as long as there are no templates.
-/

namespace Mkfli4l

open Lib Function Relation

/-! ### Names without small letters -/

theorem toLower_inj {c d : Char} (hc : c.isLower = false) (hd : d.isLower = false)
    (h : c.toLower = d.toLower) : c = d := by
  have hnot : ∀ {e : Char}, e.isLower = false → ¬ (97 ≤ e.val.toNat ∧ e.val.toNat ≤ 122) := by
    intro e he hrange
    rw [Char.isLower, Bool.and_eq_false_iff] at he
    rcases he with he | he
    · exact of_decide_eq_false he (UInt32.le_iff_toNat_le.mpr hrange.1)
    · exact of_decide_eq_false he (UInt32.le_iff_toNat_le.mpr hrange.2)
  have hclower := hnot hc
  have hdlower := hnot hd
  have h32 : (32 : UInt32).toNat = 32 := rfl
  unfold Char.toLower at h
  split at h
  · next hcup =>
      have hclow : 65 ≤ c.val.toNat := hcup.1
      have hchigh : c.val.toNat ≤ 90 := hcup.2
      split at h
      · next hdup =>
          have hdlow : 65 ≤ d.val.toNat := hdup.1
          have hdhigh : d.val.toNat ≤ 90 := hdup.2
          have hval : c.val + 32 = d.val + 32 := congrArg Char.val h
          have hnat : (c.val + 32).toNat = (d.val + 32).toNat := by rw [hval]
          rw [UInt32.toNat_add, UInt32.toNat_add] at hnat
          exact Char.ext (UInt32.toNat_inj.mp (by omega))
      · have hval : c.val + 32 = d.val := congrArg Char.val h
        have hnat : (c.val + 32).toNat = d.val.toNat := by rw [hval]
        rw [UInt32.toNat_add] at hnat
        omega
  · split at h
    · next hdup =>
        have hdlow : 65 ≤ d.val.toNat := hdup.1
        have hdhigh : d.val.toNat ≤ 90 := hdup.2
        have hval : c.val = d.val + 32 := congrArg Char.val h
        have hnat : c.val.toNat = (d.val + 32).toNat := by rw [hval]
        rw [UInt32.toNat_add] at hnat
        omega
    · exact h

/-- A name in one line without small letters. -/
structure PlainName (name : CString) : Prop where
  line : '\n' ∉ name
  upper : ∀ c ∈ name, c.isLower = false

/-- A name of a variable that takes up the whole line. -/
structure ProperName (name : CString) : Prop where
  valid : isVarName name = true
  line : '\n' ∉ name

theorem ProperName.no_lower {name : CString} (h : ProperName name) :
    ∀ c ∈ name, c.isLower = false := by
  obtain ⟨first, words, hsplit, hfirst, hwords⟩ := isVarName_words h.valid h.line
  have hword : ∀ w, isNameWord w = true → ∀ c ∈ w, c.isLower = false := by
    intro w hw c hc
    have hupper : c.isUpper = true ∨ c.isDigit = true := by
      cases w with
      | nil => exact absurd hc List.not_mem_nil
      | cons d rest =>
          rw [isNameWord, Bool.and_eq_true, List.all_eq_true] at hw
          rcases List.mem_cons.mp hc with rfl | hc
          · exact Or.inl hw.1
          · exact Bool.or_eq_true_iff.mp (hw.2 c hc)
    have h97 : 'a'.val.toNat = 97 := rfl
    rcases hupper with hupper | hdigit
    · have hrange : 65 ≤ c.val.toNat ∧ c.val.toNat ≤ 90 := by
        simpa [Char.isUpper, UInt32.le_iff_toNat_le] using hupper
      simp only [Char.isLower, Bool.and_eq_false_iff, decide_eq_false_iff_not,
        UInt32.le_iff_toNat_le, ge_iff_le]
      omega
    · have hrange : 48 ≤ c.val.toNat ∧ c.val.toNat ≤ 57 := by
        simpa [Char.isDigit, UInt32.le_iff_toNat_le] using hdigit
      simp only [Char.isLower, Bool.and_eq_false_iff, decide_eq_false_iff_not,
        UInt32.le_iff_toNat_le, ge_iff_le]
      omega
  intro c hc
  have hglue : c ∈ glue '_' (name.splitOn '_') := by
    rw [glue_splitOn]
    exact List.mem_cons_of_mem _ hc
  obtain ⟨w, hw, hcw⟩ := List.mem_flatMap.mp hglue
  rcases List.mem_cons.mp hcw with rfl | hcw
  · rfl
  · rw [hsplit] at hw
    rcases List.mem_cons.mp hw with rfl | hw
    · exact hword w hfirst c hcw
    · rcases hwords w hw with hw | rfl
      · exact hword w hw c hcw
      · rw [List.mem_singleton.mp hcw]
        rfl

theorem map_toLower_inj {a b : CString} (ha : ∀ c ∈ a, c.isLower = false)
    (hb : ∀ c ∈ b, c.isLower = false) (h : a.map Char.toLower = b.map Char.toLower) : a = b := by
  induction a generalizing b with
  | nil => exact (List.map_eq_nil_iff.mp h.symm).symm
  | cons c a ih =>
      cases b with
      | nil => exact nomatch h
      | cons d b =>
          obtain ⟨hhead, htail⟩ := List.cons.inj h
          obtain rfl := toLower_inj (ha c List.mem_cons_self) (hb d List.mem_cons_self) hhead
          rw [ih (fun e he => ha e (List.mem_cons_of_mem _ he))
            (fun e he => hb e (List.mem_cons_of_mem _ he)) htail]

theorem ProperName.plain {name : CString} (h : ProperName name) : PlainName name :=
  ⟨h.line, h.no_lower⟩

theorem PlainName.eq_of_same {a b : CString} (ha : PlainName a) (hb : PlainName b)
    (h : sameName a b = true) : a = b :=
  map_toLower_inj ha.upper hb.upper (beq_iff_eq.mp h)

variable {bound : CString}

theorem PlainName.computed {name : CString} (hname : PlainName name)
    (h : computedBoundName name = some bound) : PlainName bound := by
  unfold computedBoundName at h
  split at h
  · exact nomatch h
  · next c front hdrop =>
      obtain rfl := Option.some.inj h
      have hfront : ∀ d ∈ front.reverse, d ∈ name := by
        intro d hd
        have hdropped : d ∈ name.reverse.dropWhile (· ≠ '%') := by
          rw [hdrop]
          exact List.mem_cons_of_mem _ (List.mem_reverse.mp hd)
        exact List.mem_reverse.mp ((List.dropWhile_sublist _).subset hdropped)
      constructor
      · intro hmem
        rcases List.mem_append.mp hmem with hmem | hmem
        · exact hname.line (hfront _ hmem)
        · exact absurd (List.mem_singleton.mp hmem) (by decide)
      · intro d hd
        rcases List.mem_append.mp hd with hd | hd
        · exact hname.upper d (hfront d hd)
        · rw [List.mem_singleton.mp hd]
          rfl

/-! ### Stores of names -/

/-- What is known about a variable: its bound is given by its name. -/
structure Entry where
  type : VarTypeId
  priority : Priority
  props : VarProperties
  bound : Option CString
deriving DecidableEq

/-- What is known under a name. -/
abbrev NameStore := CString → Option Entry

/-- The name of a variable object. -/
def Graph.nameOf (g : Graph) (v : VarId) : Option CString := (g.vars v).map Var.name

/-- A variable object through its name. -/
def Graph.entryOf (g : Graph) (var : Var) : Entry :=
  ⟨var.type, var.priority, var.props, var.varN.bind g.nameOf⟩

/-- The graph has no templates, its variables have proper names, and the store tells what they are. -/
structure Graph.Shows (E : GraphEnv) (g : Graph) (M : NameStore) : Prop where
  valid : g.Valid E
  plain : ∀ member ∈ g.members, ∃ name v, member = .var name v ∧ ProperName name
  entries : ∀ name e, M name = some e ↔
    ∃ v var, g.vars v = some var ∧ var.name = name ∧ g.entryOf var = e

section showing

variable {E : GraphEnv} {g : Graph} {M : NameStore} {name : CString} {e : Entry}

theorem Graph.Shows.empty (E : GraphEnv) : Graph.empty.Shows E fun _ => none where
  valid := Graph.Valid.empty E
  plain := fun _ h => nomatch h
  entries := by
    intro name e
    constructor
    · exact fun h => nomatch h
    · rintro ⟨v, var, hvar, -⟩
      exact nomatch hvar

theorem Graph.Shows.found (h : g.Shows E M) (hM : M name = some e) :
    ∃ v var, g.tryGetMember name = some (.var name v) ∧ g.vars v = some var ∧ var.name = name ∧
      g.entryOf var = e := by
  obtain ⟨v, var, hvar, rfl, hentry⟩ := (h.entries name e).mp hM
  exact ⟨v, var, h.valid.tryGetMember_name hvar, hvar, rfl, hentry⟩

theorem Graph.Shows.missing (h : g.Shows E M) (hname : PlainName name) (hM : M name = none) :
    g.tryGetMember name = none := by
  cases hfound : g.tryGetMember name with
  | none => rfl
  | some member =>
      obtain ⟨hmem, hsame⟩ := Graph.tryGetMember_some hfound
      obtain ⟨key, v, rfl, hkey⟩ := h.plain member hmem
      obtain rfl : key = name := hkey.plain.eq_of_same hname hsame
      obtain ⟨var, hvar, hvarName⟩ := h.valid.member_live key v hmem
      have hknown := (h.entries key _).mpr ⟨v, var, hvar, hvarName, rfl⟩
      exact nomatch hM.symm.trans hknown

variable {v : VarId} {var : Var} {x : CString}

theorem Graph.Shows.proper (h : g.Shows E M) (hvar : g.vars v = some var) :
    ProperName var.name := by
  obtain ⟨name, u, heq, hproper⟩ := h.plain _ (h.valid.live_member v var hvar)
  obtain ⟨rfl, -⟩ := ScopeMember.var.inj heq
  exact hproper

theorem Graph.Shows.templates (h : g.Shows E M) : g.templates = [] := by
  rw [Graph.templates, List.filterMap_eq_nil_iff]
  intro member hmember
  obtain ⟨name, v, rfl, -⟩ := h.plain member hmember
  rfl

theorem Graph.Shows.burn (h : g.Shows E M) (n : VarId) (hn : g.nextId ≤ n) :
    Graph.Shows E { g with nextId := n } M where
  valid := { h.valid with fresh := fun v hv => h.valid.fresh v (hn.trans hv) }
  plain := h.plain
  entries := h.entries

theorem Graph.Valid.same_name (h : g.Valid E) {u : VarId} {w : Var} (hw : g.vars u = some w)
    (hvar : g.vars v = some var) (hname : w.name = var.name) : u = v := by
  have hu := h.tryGetMember_name hw
  rw [hname, h.tryGetMember_name hvar] at hu
  exact (ScopeMember.var.inj (Option.some.inj hu)).2.symm

/-- Making a variable under a new name. -/
theorem Graph.Shows.create (h : g.Shows E M) (hproper : ProperName var.name)
    (hnew : g.tryGetMember var.name = none) (hclients : var.varNClients = [])
    (hlevel : var.level = numPlaceholders var.name) (hbound : BoundFits E g var) :
    Graph.Shows E { allocVar g var with members := g.members ++ [.var var.name g.nextId] }
      (update M var.name (some (g.entryOf var))) := by
  have hb := hbound.ne_nextId h.valid
  have hkept : ∀ {u w}, g.vars u = some w →
      (allocVar g var).vars u = some (w.withClient var.varN u g.nextId) :=
    fun hw => allocVar_vars_old h.valid hb hw
  have hnameOf : ∀ b, b ≠ g.nextId → (allocVar g var).nameOf b = g.nameOf b := by
    intro b hne
    rw [Graph.nameOf, allocVar_vars hb, if_neg hne, Option.map_map]
    exact congrArg (Option.map · (g.vars b)) (funext fun w => Var.withClient_name w _ _ _)
  have hentryOld : ∀ {u w}, g.vars u = some w →
      (allocVar g var).entryOf (w.withClient var.varN u g.nextId) = g.entryOf w := by
    intro u w hw
    have hvarN : w.varN.bind (allocVar g var).nameOf = w.varN.bind g.nameOf := by
      cases hbw : w.varN with
      | none => rfl
      | some b =>
          obtain ⟨varN, hvarN, -⟩ := h.valid.boundGraph.bound hw hbw
          refine hnameOf b ?_
          rintro rfl
          rw [h.valid.fresh _ (Nat.le_refl _)] at hvarN
          exact nomatch hvarN
    simp only [Graph.entryOf, Var.withClient_type, Var.withClient_priority, Var.withClient_props,
      Var.withClient_varN, hvarN]
  have hentryNew : (allocVar g var).entryOf var = g.entryOf var := by
    have hvarN : var.varN.bind (allocVar g var).nameOf = var.varN.bind g.nameOf := by
      cases hbw : var.varN with
      | none => rfl
      | some b => exact hnameOf b fun heq => hb (by rw [hbw, heq])
    simp only [Graph.entryOf, hvarN]
  have hfree : ∀ {u w}, g.vars u = some w → w.name ≠ var.name := by
    intro u w hw heq
    have hfound := h.valid.tryGetMember_name hw
    rw [heq, hnew] at hfound
    exact nomatch hfound
  refine ⟨h.valid.create hnew hclients hlevel hbound, ?_, ?_⟩
  · intro member hmember
    rcases List.mem_append.mp hmember with hmember | hmember
    · exact h.plain member hmember
    · obtain rfl := List.mem_singleton.mp hmember
      exact ⟨var.name, g.nextId, rfl, hproper⟩
  · intro name e
    constructor
    · intro hM
      by_cases hname : name = var.name
      · subst hname
        rw [update_self] at hM
        refine ⟨g.nextId, var, ?_, rfl, hentryNew.trans (Option.some.inj hM)⟩
        exact (allocVar_vars hb g.nextId).trans (if_pos rfl)
      · rw [update_of_ne hname] at hM
        obtain ⟨u, w, hw, rfl, hentry⟩ := (h.entries name e).mp hM
        exact ⟨u, _, hkept hw, Var.withClient_name _ _ _ _, (hentryOld hw).trans hentry⟩
    · rintro ⟨u, w, hw, rfl, hentry⟩
      rcases allocVar_vars_cases hb hw with ⟨rfl, rfl⟩ | ⟨-, old, hold, rfl⟩
      · rw [update_self, ← hentry]
        exact congrArg some hentryNew.symm
      · rw [Var.withClient_name, update_of_ne (hfree hold), h.entries]
        exact ⟨u, old, hold, rfl, (hentryOld hold).symm.trans hentry⟩

theorem Graph.Shows.setProps (h : g.Shows E M) (hv : g.vars v = some var) (props : VarProperties) :
    Graph.Shows E (g.updateVar v fun var => { var with props := props })
      (update M var.name (some { g.entryOf var with props := props })) := by
  have hnameOf : ∀ b, (g.updateVar v fun var => { var with props := props }).nameOf b = g.nameOf b := by
    intro b
    by_cases hb : b = v
    · subst hb
      rw [Graph.nameOf, Graph.updateVar_vars_self hv, Graph.nameOf, hv]
      rfl
    · rw [Graph.nameOf, Graph.updateVar_vars_ne hb, Graph.nameOf]
  have hentry : ∀ w : Var, (g.updateVar v fun var => { var with props := props }).entryOf w =
      g.entryOf w := by
    intro w
    simp only [Graph.entryOf, funext hnameOf]
  refine ⟨h.valid.setProps v props, h.plain, ?_⟩
  intro name e
  constructor
  · intro hM
    by_cases hname : name = var.name
    · subst hname
      rw [update_self] at hM
      refine ⟨v, _, Graph.updateVar_vars_self hv, rfl, ?_⟩
      rw [hentry, ← Option.some.inj hM]
      rfl
    · rw [update_of_ne hname] at hM
      obtain ⟨u, w, hw, rfl, hwe⟩ := (h.entries name e).mp hM
      have hu : u ≠ v := by
        rintro rfl
        exact hname (by rw [Option.some.inj (hw.symm.trans hv)])
      exact ⟨u, w, (Graph.updateVar_vars_ne hu).trans hw, rfl, (hentry w).trans hwe⟩
  · rintro ⟨u, w, hw, rfl, hwe⟩
    rcases Graph.updateVar_vars_cases hw with ⟨rfl, old, hold, rfl⟩ | ⟨hu, hw⟩
    · obtain rfl : old = var := Option.some.inj (hold.symm.trans hv)
      rw [update_self, ← hwe, hentry]
      rfl
    · have hname : w.name ≠ var.name := fun heq => hu (h.valid.same_name hw hv heq)
      rw [update_of_ne hname, h.entries]
      exact ⟨u, w, hw, rfl, (hentry w).symm.trans hwe⟩

/-! ### Bounds -/

/-- The bound of this name is known and suits an array, or it can be made, with its own bound. -/
inductive BoundOk (E : GraphEnv) (M : NameStore) : CString → Bool → Prop
  | found {name : CString} {e : Entry} {optional : Bool} (hknown : M name = some e)
      (htype : e.type = E.arrayBoundType) (hoptional : e.props.optional = true → optional = true) :
      BoundOk E M name optional
  | scalar {name : CString} {optional : Bool} (hnew : M name = none)
      (hvalid : isVarName name = true) (hscalar : computedBoundName name = none) :
      BoundOk E M name optional
  | array {name bound : CString} {optional : Bool} (hnew : M name = none)
      (hvalid : isVarName name = true) (hbound : computedBoundName name = some bound)
      (h : BoundOk E M bound false) : BoundOk E M name optional

/-- A name, its computed bound, the computed bound of this bound, and so on. -/
abbrev BoundChain : CString → CString → Prop :=
  ReflTransGen fun name bound => computedBoundName name = some bound

/-- A bound that is made because an array needs it. -/
def implicitEntry (E : GraphEnv) (priority : Priority) (name : CString) : Entry :=
  ⟨E.arrayBoundType, priority, boundProps, computedBoundName name⟩

open Classical in
/-- The store with the bounds that are needed for this name. -/
noncomputable def NameStore.addBounds (E : GraphEnv) (priority : Priority) (M : NameStore)
    (name : CString) : NameStore := fun x =>
  (M x).or (if BoundChain name x then some (implicitEntry E priority x) else none)

/-- The bounds below a name that are known have known bounds. -/
def NameStore.ClosedBelow (M : NameStore) (name : CString) : Prop :=
  ∀ x e, BoundChain name x → M x = some e → ∀ bound, computedBoundName x = some bound → M bound ≠ none

/-- All variables have the priority. -/
def NameStore.Uniform (M : NameStore) (priority : Priority) : Prop :=
  ∀ name e, M name = some e → e.priority = priority

theorem BoundChain.placeholders_le (h : BoundChain name x) :
    numPlaceholders x ≤ numPlaceholders name := by
  induction h with
  | refl => exact Nat.le_refl _
  | tail _ hstep ih =>
      have := numPlaceholders_computedBoundName hstep
      omega

theorem BoundChain.iff_of_ne (hbound : computedBoundName name = some bound)
    (hne : x ≠ name) : BoundChain name x ↔ BoundChain bound x := by
  constructor
  · intro h
    rcases ReflTransGen.cases_head h with rfl | ⟨c, hc, hrest⟩
    · exact absurd rfl hne
    · obtain rfl := Option.some.inj (hbound.symm.trans hc)
      exact hrest
  · exact fun h => ReflTransGen.head hbound h

theorem NameStore.ClosedBelow.known (h : M.ClosedBelow name) (hM : M name = some e)
    (hx : BoundChain name x) : M x ≠ none := by
  induction hx with
  | refl => exact fun hnone => nomatch hnone.symm.trans hM
  | tail hbefore hstep ih =>
      obtain ⟨e', he'⟩ := Option.ne_none_iff_exists'.mp ih
      exact h _ e' hbefore he' _ hstep

theorem NameStore.ClosedBelow.addBounds_eq (h : M.ClosedBelow name) (hM : M name = some e)
    (priority : Priority) : M.addBounds E priority name = M := by
  funext x
  unfold NameStore.addBounds
  cases hx : M x with
  | some e' => rfl
  | none =>
      have hnot : ¬ BoundChain name x := fun hchain => h.known hM hchain hx
      rw [if_neg hnot]
      rfl

open Classical in
theorem NameStore.update_addBounds {priority : Priority}
    (hbound : computedBoundName name = some bound) (hM : M name = none) :
    update (M.addBounds E priority bound) name (some (implicitEntry E priority name)) =
      M.addBounds E priority name := by
  funext x
  by_cases hx : x = name
  · subst hx
    rw [update_self, NameStore.addBounds, hM, if_pos ReflTransGen.refl]
    rfl
  · rw [update_of_ne hx]
    exact congrArg ((M x).or ·) (if_congr (BoundChain.iff_of_ne hbound hx).symm rfl rfl)

/-! ### Making bounds -/

theorem Graph.Shows.tryGet (h : g.Shows E M) (hname : PlainName name) (add : VarAdder) :
    (M name = none ∧ varScopeTryGet E add name g = (none, g)) ∨
      ∃ e v var, M name = some e ∧ varScopeTryGet E add name g = (some v, g) ∧
        g.vars v = some var ∧ var.name = name ∧ g.entryOf var = e := by
  cases hM : M name with
  | none =>
      left
      have hvisit : E.visitOrder g.templates = [] := by
        rw [h.templates]
        exact (E.visitOrder_perm []).eq_nil
      refine ⟨rfl, ?_⟩
      simp only [varScopeTryGet, h.missing hname hM, varTemplateInstantiateFromString, hvisit,
        List.find?_nil]
  | some e =>
      right
      obtain ⟨v, var, hfound, hvar, hvarName, hentry⟩ := h.found hM
      refine ⟨e, v, var, rfl, ?_, hvar, hvarName, hentry⟩
      simp only [varScopeTryGet, hfound]

/-- A bound that has been found or made: the store has got the bounds, and the object bears the name. -/
structure BoundMade (E : GraphEnv) (priority : Priority) (M : NameStore) (name : CString)
    (b : VarId) (g' : Graph) : Prop where
  shows : g'.Shows E (M.addBounds E priority name)
  named : ∃ varN, g'.vars b = some varN ∧ varN.name = name

/-- `var_get_or_add_array_bound` finds or makes a bound if and only if there is one that suits, or one
can be made. -/
def MakesBound (E : GraphEnv) (priority : Priority) (n : Nat) : Prop :=
  ∀ (g : Graph) (M : NameStore) (name : CString) (props : VarProperties), g.Shows E M →
    M.Uniform priority → M.ClosedBelow name → PlainName name → numPlaceholders name = n →
    match varGetOrAddArrayBound E (varAdd E n) name props priority g with
    | (some (b, _), g') => BoundOk E M name props.optional ∧ BoundMade E priority M name b g'
    | (none, _) => ¬ BoundOk E M name props.optional

theorem Graph.Shows.enroll (h : g.Shows E M) (var : Var) (hproper : ProperName var.name)
    (hnew : M var.name = none) (hclients : var.varNClients = [])
    (hlevel : var.level = numPlaceholders var.name) (hbound : BoundFits E g var) :
    ∃ g', enrollVar g var = (some g.nextId, g') ∧
      g'.Shows E (update M var.name (some (g.entryOf var))) ∧
      g'.vars g.nextId = some var := by
  have hmissing := h.missing hproper.plain hnew
  rcases enrollVar_cases h.valid hclients hlevel hbound with
    ⟨-, henroll⟩ | ⟨old, oldVar, hredef, -⟩ | ⟨hfound, -⟩
  · refine ⟨_, henroll, h.create hproper hmissing hclients hlevel hbound, ?_⟩
    exact (allocVar_vars (hbound.ne_nextId h.valid) g.nextId).trans (if_pos rfl)
  · obtain ⟨key, hkey⟩ := hredef.found
    exact nomatch hmissing.symm.trans hkey
  · exact absurd hmissing hfound

theorem varAdd_scalar_shows (h : g.Shows E M) (priority : Priority) (hproper : ProperName name)
    (hnew : M name = none) (hscalar : computedBoundName name = none) :
    ∃ b g', varAdd E (numPlaceholders name) (boundSpec E name priority) g = (some b, g') ∧
      BoundMade E priority M name b g' := by
  have hlevel := computedBoundName_eq_none hscalar
  let var : Var := ⟨name, E.arrayBoundType, 0, none, [], priority, boundProps⟩
  obtain ⟨g', henroll, hshows, hvar⟩ := h.enroll var hproper hnew rfl hlevel.symm rfl
  refine ⟨g.nextId, g', ?_, ?_, var, hvar, rfl⟩
  · simp only [hlevel, varAdd, boundSpec, hproper.valid, if_true, varCreate, hscalar]
    exact henroll
  · have hstore : update M name (some (g.entryOf var)) = M.addBounds E priority name := by
      funext x
      by_cases hx : x = name
      · subst hx
        rw [update_self, NameStore.addBounds, hnew, if_pos ReflTransGen.refl,
          implicitEntry, hscalar]
        rfl
      · have hnot : ¬ BoundChain name x := by
          intro hchain
          rcases ReflTransGen.cases_head hchain with rfl | ⟨c, hc, -⟩
          · exact hx rfl
          · exact Option.some_ne_none c (hc.symm.trans hscalar)
        rw [update_of_ne hx, NameStore.addBounds, if_neg hnot, Option.or_none]
    rw [← hstore]
    exact hshows

theorem varAdd_array_shows {n : Nat} (ih : MakesBound E priority n) (h : g.Shows E M)
    (huniform : M.Uniform priority) (hclosed : M.ClosedBelow name) (hproper : ProperName name)
    (hnew : M name = none) (hbound : computedBoundName name = some bound)
    (hlevel : numPlaceholders bound = n) :
    match varAdd E (n + 1) (boundSpec E name priority) g with
    | (some b, g') => BoundOk E M bound false ∧ BoundMade E priority M name b g'
    | (none, _) => ¬ BoundOk E M bound false := by
  have hclosed' : M.ClosedBelow bound :=
    fun x e hx => hclosed x e (ReflTransGen.head hbound hx)
  have hcount := numPlaceholders_computedBoundName hbound
  have hget := ih g M bound boundProps h huniform hclosed' (hproper.plain.computed hbound) hlevel
  obtain ⟨hgrowths, hsuit⟩ := varGetOrAddArrayBound_spec (varAdd_makes E n) h.valid hlevel
    boundProps priority
  have hadd : varAdd E (n + 1) (boundSpec E name priority) g =
      varCreate E (varAdd E n) (boundSpec E name priority) none g := by
    simp only [varAdd, boundSpec, hproper.valid, if_true]
  rw [hadd]
  simp only [varCreate, boundSpec, hbound, Option.getD_none, ne_eq, not_true_eq_false, false_and,
    if_false]
  rcases hresult : varGetOrAddArrayBound E (varAdd E n) bound boundProps priority g with
    ⟨_ | ⟨b, created⟩, g₁⟩
  · rw [hresult] at hget
    exact hget
  · rw [hresult] at hget hsuit
    obtain ⟨hok, hmade⟩ := hget
    obtain ⟨varN, hvarN, hsuitable⟩ := hsuit b created rfl
    obtain ⟨varN', hvarN', hname⟩ := hmade.named
    obtain rfl : varN' = varN := Option.some.inj (hvarN'.symm.trans hvarN)
    let var : Var :=
      ⟨name, E.arrayBoundType, numPlaceholders name, some b, [], priority, boundProps⟩
    have hfits : BoundFits E g₁ var :=
      ⟨varN', hvarN, by rw [hsuitable.level_eq, hlevel.symm, hcount], hsuitable.type_eq,
        hsuitable.priority_eq, hsuitable.optional⟩
    have hmissing : M.addBounds E priority bound name = none := by
      have hnot : ¬ BoundChain bound name := fun hchain => by
        have := hchain.placeholders_le
        omega
      rw [NameStore.addBounds, hnew, if_neg hnot]
      rfl
    obtain ⟨g', henroll, hshows, hvar⟩ := hmade.shows.enroll var hproper hmissing rfl rfl hfits
    have hnameOf : g₁.nameOf b = some bound := by rw [Graph.nameOf, hvarN, Option.map_some, hname]
    have hentry : g₁.entryOf var = implicitEntry E priority name := by
      simp only [Graph.entryOf, implicitEntry, var, Option.bind_some, hnameOf, hbound]
    rw [hentry, NameStore.update_addBounds hbound hnew] at hshows
    simp only
    rw [henroll]
    exact ⟨hok, hshows, var, hvar, rfl⟩

/-- If `var_add` makes the bounds that are missing, bounds are found or made. -/
theorem makesBound_of_add {n : Nat}
    (hadd : ∀ (g : Graph) (M : NameStore) (name : CString), g.Shows E M → M.Uniform priority →
      M.ClosedBelow name → ProperName name → numPlaceholders name = n → M name = none →
      match varAdd E n (boundSpec E name priority) g with
      | (some b, g') => (∀ optional, BoundOk E M name optional) ∧ BoundMade E priority M name b g'
      | (none, _) => ∀ optional, ¬ BoundOk E M name optional) :
    MakesBound E priority n := by
  intro g M name props h huniform hclosed hplain hlevel
  rcases h.tryGet hplain (varAdd E n) with ⟨hnew, htry⟩ | ⟨e, v, var, hM, htry, hvar, hname, hentry⟩
  · simp only [varGetOrAddArrayBound, htry]
    cases hvalid : isVarName name with
    | false =>
        have hfails : varAdd E n ⟨name, E.arrayBoundType, priority, boundProps⟩ g = (none, g) := by
          cases n <;> simp [varAdd, hvalid]
        rw [hfails]
        intro hok
        cases hok with
        | found hknown => exact Option.some_ne_none _ (hknown.symm.trans hnew)
        | scalar _ hvalid' => exact Bool.noConfusion (hvalid.symm.trans hvalid')
        | array _ hvalid' => exact Bool.noConfusion (hvalid.symm.trans hvalid')
    | true =>
        have hmade := hadd g M name h huniform hclosed ⟨hvalid, hplain.line⟩ hlevel hnew
        rw [boundSpec] at hmade
        rcases hresult : varAdd E n ⟨name, E.arrayBoundType, priority, boundProps⟩ g with ⟨_ | b, g'⟩
        · rw [hresult] at hmade
          exact hmade _
        · rw [hresult] at hmade
          exact ⟨hmade.1 _, hmade.2⟩
  · simp only [varGetOrAddArrayBound, htry, hvar]
    have htype : var.type = e.type := by rw [← hentry, Graph.entryOf]
    have hpriority : var.priority = priority := by
      rw [← huniform name e hM, ← hentry, Graph.entryOf]
    have hprops : var.props = e.props := by rw [← hentry, Graph.entryOf]
    have hcheck : varCheckArrayBound E var props priority = true ↔
        e.type = E.arrayBoundType ∧ (e.props.optional = true → props.optional = true) := by
      simp only [varCheckArrayBound, htype, hpriority, hprops, beq_self_eq_true, Bool.and_true,
        Bool.and_eq_true, beq_iff_eq, Bool.not_eq_true', Bool.and_eq_false_imp, Bool.not_eq_false']
    split
    · next b g' heq =>
        split at heq
        · next hsuits =>
            obtain ⟨hb, rfl⟩ := Prod.mk.inj heq
            obtain ⟨rfl, -⟩ := Prod.mk.inj (Option.some.inj hb)
            obtain ⟨htypeOk, hoptionalOk⟩ := hcheck.mp hsuits
            refine ⟨.found hM htypeOk hoptionalOk, ?_, var, hvar, hname⟩
            rw [hclosed.addBounds_eq hM]
            exact h
        · cases heq
    · next heq =>
        split at heq
        · cases heq
        · next hrefused =>
            intro hok
            cases hok with
            | found hknown htypeOk hoptionalOk =>
                obtain rfl := Option.some.inj (hM.symm.trans hknown)
                exact hrefused (hcheck.mpr ⟨htypeOk, hoptionalOk⟩)
            | scalar hnew => exact Option.some_ne_none e (hM.symm.trans hnew)
            | array hnew => exact Option.some_ne_none e (hM.symm.trans hnew)

theorem makesBound (E : GraphEnv) (priority : Priority) (n : Nat) : MakesBound E priority n := by
  induction n with
  | zero =>
      refine makesBound_of_add fun g M name h _ _ hproper hlevel hnew => ?_
      have hscalar : computedBoundName name = none := by
        cases hcomputed : computedBoundName name with
        | none => rfl
        | some bound =>
            have := numPlaceholders_computedBoundName hcomputed
            omega
      obtain ⟨b, g', hadd, hmade⟩ := varAdd_scalar_shows h priority hproper hnew hscalar
      rw [hlevel] at hadd
      rw [hadd]
      exact ⟨fun _ => .scalar hnew hproper.valid hscalar, hmade⟩
  | succ n ih =>
      refine makesBound_of_add fun g M name h huniform hclosed hproper hlevel hnew => ?_
      cases hbound : computedBoundName name with
      | none =>
          have := computedBoundName_eq_none hbound
          omega
      | some bound =>
          have hcount := numPlaceholders_computedBoundName hbound
          have hmade := varAdd_array_shows ih h huniform hclosed hproper hnew hbound (by omega)
          rcases hresult : varAdd E (n + 1) (boundSpec E name priority) g with ⟨_ | b, g'⟩
          · rw [hresult] at hmade
            intro optional hok
            cases hok with
            | found hknown => exact nomatch hnew.symm.trans hknown
            | scalar _ _ hscalar => exact nomatch hbound.symm.trans hscalar
            | array _ _ hbound' hok =>
                obtain rfl := Option.some.inj (hbound.symm.trans hbound')
                exact hmade hok
          · rw [hresult] at hmade
            exact ⟨fun _ => .array hnew hproper.valid hbound hmade.1, hmade.2⟩

end showing

end Mkfli4l
