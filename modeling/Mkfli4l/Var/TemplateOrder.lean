import Mkfli4l.Var.FailedDefinitions

/-!
# Templates and the order of a hash map

A variable that does not exist is made from a template whose expression matches the name.  The
templates are visited in the order of a hash map, and the first one that matches is the one that is
tried.  If several match, it is unspecified which one is used, as `var.h` says.

This module tells what does not depend on the order.  For an array, the lookup goes on with the
bound, for which there may be templates, too.
-/

namespace Mkfli4l

open Lib

/-- Two environments that differ in nothing but the order of the templates. -/
structure GraphEnv.SameButOrder (E E' : GraphEnv) : Prop where
  arrayBoundType_eq : E'.arrayBoundType = E.arrayBoundType
  regexec_eq : E'.regexec = E.regexec

/-- Where a variable that has been looked up comes from. -/
inductive VarSource
  | member (v : VarId)
  | template (tmpl : VarTemplate)
deriving DecidableEq, Repr

/-- What `var_scope_try_get` finds, and the template if it makes the variable from one. -/
def varScopeTryGetSource (E : GraphEnv) (name : CString) (g : Graph) : Option VarSource :=
  match g.tryGetMember name with
  | some (.var _ v) => some (.member v)
  | some (.tmpl _) => none
  | none =>
      match (E.visitOrder g.templates).find? fun tmpl => E.regexec tmpl.name name with
      | none => none
      | some tmpl =>
          (varAdd E (numPlaceholders name) ⟨name, tmpl.type, tmpl.priority, tmpl.props⟩ g).1.map
            fun _ => .template tmpl

theorem varScopeTryGetSource_isSome (E : GraphEnv) (name : CString) (g : Graph) :
    (varScopeTryGetSource E name g).isSome = (varTryGet E name g).1.isSome := by
  unfold varScopeTryGetSource varTryGet varScopeTryGet varTemplateInstantiateFromString
  cases g.tryGetMember name with
  | some member =>
      cases member with
      | var key v => rfl
      | tmpl template => rfl
  | none =>
      cases (E.visitOrder g.templates).find? fun tmpl => E.regexec tmpl.name name with
      | none => rfl
      | some tmpl => exact Option.isSome_map

/-- The bounds of an array, from the array down to the bound that is not an array. -/
def boundNames : Nat → CString → List CString
  | 0, _ => []
  | placeholders + 1, name =>
      (computedBoundName name).elim [] fun bound => bound :: boundNames placeholders bound

/-- The templates of the store that match a name, provided that the name has to be made. -/
def MatchingTemplate (E : GraphEnv) (g : Graph) (name : CString) (tmpl : VarTemplate) : Prop :=
  g.tryGetMember name = none ∧ tmpl ∈ g.templates ∧ E.regexec tmpl.name name = true

/-- Templates of which the one can be instantiated for a name if and only if the other can. -/
def VarTemplate.Alike (tmpl tmpl' : VarTemplate) : Prop :=
  tmpl.priority = tmpl'.priority ∧ tmpl.props.optional = tmpl'.props.optional

/-- All templates that match a name have the same priority and are optional alike. -/
def TemplatesAlike (E : GraphEnv) (g : Graph) (name : CString) : Prop :=
  ∀ tmpl tmpl', MatchingTemplate E g name tmpl → MatchingTemplate E g name tmpl' → tmpl.Alike tmpl'

/-- The templates that match the name of a bound agree, besides, in whether they make numbers. -/
def TemplatesAgree (E : GraphEnv) (g : Graph) (name : CString) : Prop :=
  TemplatesAlike E g name ∧
    ∀ tmpl tmpl', MatchingTemplate E g name tmpl → MatchingTemplate E g name tmpl' →
      (tmpl.type = E.arrayBoundType ↔ tmpl'.type = E.arrayBoundType)

/-- At most one template matches a name. -/
def TemplateUnique (E : GraphEnv) (g : Graph) (name : CString) : Prop :=
  ∀ tmpl tmpl', MatchingTemplate E g name tmpl → MatchingTemplate E g name tmpl' → tmpl = tmpl'

section order

variable {E E' : GraphEnv} {g : Graph} {name : CString}

theorem SameButOrder.valid (hE : E.SameButOrder E') (hvalid : g.Valid E) : g.Valid E' where
  boundGraph := by
    rw [hE.arrayBoundType_eq]
    exact hvalid.boundGraph
  fresh := hvalid.fresh
  level_eq := hvalid.level_eq
  member_live := hvalid.member_live
  live_member := hvalid.live_member
  names := hvalid.names

theorem matchingTemplate_of_find {tmpl : VarTemplate} (hfree : g.tryGetMember name = none)
    (h : (E.visitOrder g.templates).find? (fun tmpl => E.regexec tmpl.name name) = some tmpl) :
    MatchingTemplate E g name tmpl := by
  have hmem := List.mem_of_find?_eq_some h
  exact ⟨hfree, (E.visitOrder_perm _).mem_iff.mp hmem, by simpa using List.find?_some h⟩

theorem find_eq_none_iff :
    (E.visitOrder g.templates).find? (fun tmpl => E.regexec tmpl.name name) = none ↔
      ∀ tmpl ∈ g.templates, ¬ E.regexec tmpl.name name = true := by
  simp only [List.find?_eq_none, (E.visitOrder_perm _).mem_iff]

theorem find_cases (hE : E.SameButOrder E') (hfree : g.tryGetMember name = none) :
    ((E.visitOrder g.templates).find? (fun tmpl => E.regexec tmpl.name name) = none ∧
      (E'.visitOrder g.templates).find? (fun tmpl => E'.regexec tmpl.name name) = none) ∨
    ∃ tmpl tmpl', MatchingTemplate E g name tmpl ∧ MatchingTemplate E g name tmpl' ∧
      (E.visitOrder g.templates).find? (fun tmpl => E.regexec tmpl.name name) = some tmpl ∧
      (E'.visitOrder g.templates).find? (fun tmpl => E'.regexec tmpl.name name) = some tmpl' := by
  have hnone : (E.visitOrder g.templates).find? (fun tmpl => E.regexec tmpl.name name) = none ↔
      (E'.visitOrder g.templates).find? (fun tmpl => E'.regexec tmpl.name name) = none := by
    rw [find_eq_none_iff, find_eq_none_iff, hE.regexec_eq]
  cases hfind : (E.visitOrder g.templates).find? fun tmpl => E.regexec tmpl.name name with
  | none => exact .inl ⟨rfl, hnone.mp hfind⟩
  | some tmpl =>
      cases hfind' : (E'.visitOrder g.templates).find? fun tmpl => E'.regexec tmpl.name name with
      | none => exact nomatch hfind.symm.trans (hnone.mpr hfind')
      | some tmpl' =>
          have hmatch := matchingTemplate_of_find hfree hfind'
          unfold MatchingTemplate at hmatch
          rw [hE.regexec_eq] at hmatch
          exact .inr ⟨tmpl, tmpl', matchingTemplate_of_find hfree hfind, hmatch, rfl, rfl⟩

/-- Specifications of which the one can be made if and only if the other can. -/
def VarSpec.Alike (spec spec' : VarSpec) : Prop :=
  spec.name = spec'.name ∧ spec.priority = spec'.priority ∧
    spec.props.optional = spec'.props.optional

theorem varCheckArrayBound_alike (hE : E.SameButOrder E') {varN varN' : Var}
    {props props' : VarProperties} {priority : Priority}
    (htype : varN.type = E.arrayBoundType ↔ varN'.type = E.arrayBoundType)
    (hpriority : varN.priority = varN'.priority)
    (hvarN : varN.props.optional = varN'.props.optional) (hprops : props.optional = props'.optional) :
    varCheckArrayBound E varN props priority = varCheckArrayBound E' varN' props' priority := by
  have htypes : (varN.type == E.arrayBoundType) = (varN'.type == E'.arrayBoundType) := by
    rw [hE.arrayBoundType_eq, Bool.eq_iff_iff, beq_iff_eq, beq_iff_eq]
    exact htype
  unfold varCheckArrayBound
  rw [htypes, hpriority, hvarN, hprops]

theorem boundAvailable_alike (hE : E.SameButOrder E') {n : Nat} {bound : CString}
    {props props' : VarProperties} {priority : Priority} (hprops : props.optional = props'.optional)
    (hagree : TemplatesAgree E g bound)
    (ih : ∀ spec spec' : VarSpec, spec.Alike spec' → spec.name = bound →
      canMake E g n spec = canMake E' g n spec') :
    boundAvailable E g (canMake E g n) bound props priority =
      boundAvailable E' g (canMake E' g n) bound props' priority := by
  have hplain : canMake E g n (boundSpec E bound priority) =
      canMake E' g n (boundSpec E' bound priority) := ih _ _ ⟨rfl, rfl, rfl⟩ rfl
  unfold boundAvailable
  cases hmember : g.tryGetMember bound with
  | some member =>
      cases member with
      | var key b =>
          have hcheck : ∀ varN : Var, varCheckArrayBound E varN props priority =
              varCheckArrayBound E' varN props' priority :=
            fun varN => varCheckArrayBound_alike hE Iff.rfl rfl rfl hprops
          simp only [hcheck]
      | tmpl template => rfl
  | none =>
      unfold templateSpec
      rcases find_cases hE hmember with ⟨hfind, hfind'⟩ | ⟨tmpl, tmpl', htmpl, htmpl', hfind, hfind'⟩
      · simp only [hfind, hfind', Option.map_none, hplain]
      · obtain ⟨hpriority, hoptional⟩ := hagree.1 tmpl tmpl' htmpl htmpl'
        have hspec := ih ⟨bound, tmpl.type, tmpl.priority, tmpl.props⟩
          ⟨bound, tmpl'.type, tmpl'.priority, tmpl'.props⟩ ⟨rfl, hpriority, hoptional⟩ rfl
        have hcheck : varCheckArrayBound E (VarSpec.bare ⟨bound, tmpl.type, tmpl.priority,
            tmpl.props⟩) props priority = varCheckArrayBound E' (VarSpec.bare ⟨bound, tmpl'.type,
              tmpl'.priority, tmpl'.props⟩) props' priority :=
          varCheckArrayBound_alike hE (hagree.2 tmpl tmpl' htmpl htmpl') hpriority hoptional hprops
        simp only [hfind, hfind', Option.map_some, hspec, hcheck, hplain]

theorem canMake_alike (hE : E.SameButOrder E') {n : Nat} {spec spec' : VarSpec}
    (halike : spec.Alike spec') (hbounds : ∀ b ∈ boundNames n spec.name, TemplatesAgree E g b) :
    canMake E g n spec = canMake E' g n spec' := by
  induction n generalizing spec spec' with
  | zero => simp only [canMake, halike.1]
  | succ n ih =>
      obtain ⟨hname, hpriority, hoptional⟩ := halike
      cases hcomputed : computedBoundName spec.name with
      | none => simp only [canMake, ← hname, hcomputed, Option.any_none, Bool.and_false]
      | some bound =>
          have hnames : boundNames (n + 1) spec.name = bound :: boundNames n bound := by
            simp only [boundNames, hcomputed, Option.elim_some]
          rw [hnames] at hbounds
          have havailable : boundAvailable E g (canMake E g n) bound spec.props spec.priority =
              boundAvailable E' g (canMake E' g n) bound spec'.props spec.priority :=
            boundAvailable_alike hE hoptional (hbounds bound List.mem_cons_self)
              fun s s' hs hbound => ih hs fun b hb =>
                hbounds b (List.mem_cons_of_mem _ (hbound ▸ hb))
          simp only [canMake, ← hname, hcomputed, Option.any_some, ← hpriority, havailable]

theorem varAdd_isSome (tmpl : VarTemplate) (hvalid : g.Valid E)
    (hfree : g.tryGetMember name = none) :
    (varAdd E (numPlaceholders name) ⟨name, tmpl.type, tmpl.priority, tmpl.props⟩ g).1.isSome =
      canMake E g (numPlaceholders name) ⟨name, tmpl.type, tmpl.priority, tmpl.props⟩ := by
  refine (varAdd_predicts E _ ⟨name, _, _, _⟩ g hvalid rfl fun key v h => ?_).isSome_eq
  exact nomatch hfree.symm.trans h

theorem map_const_eq {α β : Type} {a b : Option α} (h : a.isSome = b.isSome) (c : β) :
    (a.map fun _ => c) = b.map fun _ => c := by
  cases a with
  | none =>
      cases b with
      | none => rfl
      | some _ => exact nomatch h
  | some _ =>
      cases b with
      | none => exact nomatch h
      | some _ => rfl

end order

/-- What does not depend on the order in which the templates are visited, given that the templates
for the bounds of the array agree: whether a variable is found, if the name has no placeholder or the
templates for it are alike; and which template the variable comes from, if only one matches the name. -/
theorem varScopeTryGet_order {E E' : GraphEnv} {g : Graph} (hE : E.SameButOrder E')
    (hrun : GraphRun E Graph.empty g) (name : CString)
    (hbounds : g.tryGetMember name = none →
      ∀ b ∈ boundNames (numPlaceholders name) name, TemplatesAgree E g b) :
    ((numPlaceholders name = 0 ∨ TemplatesAlike E g name) →
        (varTryGet E name g).1.isSome = (varTryGet E' name g).1.isSome) ∧
      (TemplateUnique E g name →
        varScopeTryGetSource E name g = varScopeTryGetSource E' name g) := by
  have hvalid := hrun.valid (Graph.Valid.empty E)
  have hvalid' := SameButOrder.valid hE hvalid
  rw [← varScopeTryGetSource_isSome, ← varScopeTryGetSource_isSome]
  unfold varScopeTryGetSource
  cases hmember : g.tryGetMember name with
  | some member =>
      cases member with
      | var key v => exact ⟨fun _ => rfl, fun _ => rfl⟩
      | tmpl template => exact ⟨fun _ => rfl, fun _ => rfl⟩
  | none =>
      rcases find_cases hE hmember with ⟨hfind, hfind'⟩ | ⟨tmpl, tmpl', htmpl, htmpl', hfind, hfind'⟩
      · simp only [hfind, hfind']
        exact ⟨fun _ => trivial, fun _ => trivial⟩
      · have hsome := varAdd_isSome tmpl hvalid hmember
        have hsome' := varAdd_isSome tmpl' hvalid' hmember
        simp only [hfind, hfind', Option.isSome_map, hsome, hsome']
        refine ⟨fun hname => ?_, fun hunique => ?_⟩
        · rcases hname with hscalar | hagree
          · rw [hscalar]
            rfl
          · obtain ⟨hpriority, hoptional⟩ := hagree tmpl tmpl' htmpl htmpl'
            exact canMake_alike hE ⟨rfl, hpriority, hoptional⟩ (hbounds hmember)
        · obtain rfl := hunique tmpl tmpl' htmpl htmpl'
          have hcan : canMake E g (numPlaceholders name) ⟨name, tmpl.type, tmpl.priority, tmpl.props⟩ =
              canMake E' g (numPlaceholders name) ⟨name, tmpl.type, tmpl.priority, tmpl.props⟩ :=
            canMake_alike hE ⟨rfl, rfl, rfl⟩ (hbounds hmember)
          rw [hcan, ← hsome'] at hsome
          exact map_const_eq hsome _

/-- Templates match the names that begin with their expression; they are visited in the order of
their definition. -/
def prefixEnv : GraphEnv where
  arrayBoundType := 0
  regexec := fun tmpl name => tmpl.isPrefixOf name
  visitOrder := id
  visitOrder_perm := List.Perm.refl

/-- The same with the reversed order. -/
def reversedEnv : GraphEnv where
  arrayBoundType := 0
  regexec := fun tmpl name => tmpl.isPrefixOf name
  visitOrder := List.reverse
  visitOrder_perm := List.reverse_perm

/-- A template that is always enabled. -/
def sampleTemplate (name : CString) (type : VarTypeId) : VarTemplate where
  name := name
  type := type
  priority := .configuration
  props := ⟨false, false, .literal (.boolean true), none, none⟩

/-- A store with the templates `A` and `AB`. -/
def twoTemplates : Graph :=
  varTemplateAdd (varTemplateAdd Graph.empty (sampleTemplate "A".toList 0))
    (sampleTemplate "AB".toList 1)

theorem twoTemplates_run (E : GraphEnv) : GraphRun E Graph.empty twoTemplates :=
  (Relation.ReflTransGen.single ⟨.templateAdd (sampleTemplate "A".toList 0), rfl⟩).tail
    ⟨.templateAdd (sampleTemplate "AB".toList 1), rfl⟩

theorem prefixEnv_sameButOrder : prefixEnv.SameButOrder reversedEnv := ⟨rfl, rfl⟩

/-- A name without a placeholder that both templates match, and one that only one of them matches. -/
theorem varScopeTryGet_order_sample :
    (varTryGet prefixEnv "ABC".toList twoTemplates).1.isSome =
        (varTryGet reversedEnv "ABC".toList twoTemplates).1.isSome ∧
      varScopeTryGetSource prefixEnv "AX".toList twoTemplates =
        varScopeTryGetSource reversedEnv "AX".toList twoTemplates := by
  refine ⟨(varScopeTryGet_order prefixEnv_sameButOrder (twoTemplates_run _) _ ?_).1 (.inl (by decide)),
    (varScopeTryGet_order prefixEnv_sameButOrder (twoTemplates_run _) _ ?_).2 ?_⟩
  · rintro - b hb
    exact nomatch hb
  · rintro - b hb
    exact nomatch hb
  · rintro tmpl tmpl' ⟨-, hmem, hmatch⟩ ⟨-, hmem', hmatch'⟩
    have honly : ∀ tmpl ∈ twoTemplates.templates, prefixEnv.regexec tmpl.name "AX".toList = true →
        tmpl = sampleTemplate "A".toList 0 := by decide
    rw [honly tmpl hmem hmatch, honly tmpl' hmem' hmatch']

/-- Both templates match `ABC`, and the order decides which one it comes from. -/
theorem varScopeTryGet_order_matters :
    ¬ ∀ (E E' : GraphEnv) (g : Graph), E.SameButOrder E' → GraphRun E Graph.empty g →
      ∀ name, varScopeTryGetSource E name g = varScopeTryGetSource E' name g := by
  intro h
  exact absurd (h prefixEnv reversedEnv twoTemplates prefixEnv_sameButOrder (twoTemplates_run _)
    "ABC".toList) (by decide)

end Mkfli4l
