import Mkfli4l.Var.Names

/-!
# Nested scopes

A scope may have a parent.  A name that is looked up recursively belongs to the variable or the template in
the nearest scope that has one of this name; if there is none, the first template that matches the name,
again from the nearest scope outwards, is instantiated in its own scope.

Adding a variable touches its own scope only: its bounds are looked up there without the parents.  So every
scope is a graph of its own, and a chain of scopes is a list of graphs, the innermost one first.
-/

namespace Mkfli4l

open Lib

/-- A variable in a chain of scopes, with the number of its scope. -/
structure ScopedVar where
  scope : ℕ
  var : VarId
deriving DecidableEq, Repr

/-- The variable as it is seen from one scope further inside. -/
def ScopedVar.fromInside (v : ScopedVar) : ScopedVar := { v with scope := v.scope + 1 }

/-- `var_scope_try_get_member` with the parents. -/
def tryGetMemberRec (name : CString) : List Graph → Option (ℕ × ScopeMember)
  | [] => none
  | g :: outer =>
      match g.tryGetMember name with
      | some member => some (0, member)
      | none => (tryGetMemberRec name outer).map fun found => (found.1 + 1, found.2)

/-- `var_template_instantiate_from_string` with the parents. -/
def instantiateRec (E : GraphEnv) (name : CString) : List Graph → Option ScopedVar × List Graph
  | [] => (none, [])
  | g :: outer =>
      match (E.visitOrder g.templates).find? fun tmpl => E.regexec tmpl.name name with
      | some tmpl =>
          let made := varAdd E (numPlaceholders name) ⟨name, tmpl.type, tmpl.priority, tmpl.props⟩ g
          (made.1.map fun v => ⟨0, v⟩, made.2 :: outer)
      | none =>
          let made := instantiateRec E name outer
          (made.1.map ScopedVar.fromInside, g :: made.2)

/-- `var_scope_try_get` with the parents. -/
def varScopeTryGetRec (E : GraphEnv) (name : CString) (scopes : List Graph) :
    Option ScopedVar × List Graph :=
  match tryGetMemberRec name scopes with
  | some (k, .var _ v) => (some ⟨k, v⟩, scopes)
  | some (_, .tmpl _) => (none, scopes)
  | none => instantiateRec E name scopes

/-- The object of a variable. -/
def varAt (scopes : List Graph) (v : ScopedVar) : Option Var :=
  scopes[v.scope]?.bind fun g => g.vars v.var

/-- The variable is the one that is found under the name. -/
structure FoundAs (scopes : List Graph) (name : CString) (v : ScopedVar) (var : Var) : Prop where
  member : tryGetMemberRec name scopes = some (v.scope, .var var.name v.var)
  live : varAt scopes v = some var

/-- All scopes of a chain have been built by calls that change the definitions. -/
def ScopesReachable (E : GraphEnv) (scopes : List Graph) : Prop :=
  ∀ g ∈ scopes, GraphRun E Graph.empty g

/-! ### Names that are the same -/

variable {a b : CString}

theorem sameName_congr {c : CString} (h : sameName a b = true) : sameName c a = sameName c b := by
  unfold sameName at h ⊢
  rw [beq_iff_eq.mp h]

theorem tryGetMemberRec_congr (h : sameName a b = true) (scopes : List Graph) :
    tryGetMemberRec a scopes = tryGetMemberRec b scopes := by
  have hone (g : Graph) : g.tryGetMember a = g.tryGetMember b := by
    unfold Graph.tryGetMember
    congr 1
    funext member
    exact sameName_congr h
  induction scopes with
  | nil => rfl
  | cons g outer ih => rw [tryGetMemberRec, tryGetMemberRec, hone, ih]

theorem FoundAs.congr {scopes : List Graph} {v : ScopedVar} {var : Var}
    (h : FoundAs scopes a v var) (hsame : sameName a b = true) : FoundAs scopes b v var :=
  ⟨(tryGetMemberRec_congr hsame scopes).symm.trans h.member, h.live⟩

/-! ### What looking up a name does -/

section lookups

variable {E : GraphEnv} {scopes scopes' : List Graph} {name : CString} {v : ScopedVar} {var : Var}

theorem FoundAs.varScopeTryGetRec (h : FoundAs scopes name v var) (E : GraphEnv) :
    varScopeTryGetRec E name scopes = (some v, scopes) := by
  unfold Mkfli4l.varScopeTryGetRec
  rw [h.member]

variable {g : Graph} {outer : List Graph}

theorem tryGetMemberRec_cons_none (h : tryGetMemberRec name (g :: outer) = none) :
    g.tryGetMember name = none ∧ tryGetMemberRec name outer = none := by
  rw [tryGetMemberRec] at h
  cases hmember : g.tryGetMember name with
  | some member =>
      rw [hmember] at h
      contradiction
  | none =>
      rw [hmember] at h
      exact ⟨rfl, Option.map_eq_none_iff.mp h⟩

theorem FoundAs.fromInside (h : FoundAs scopes name v var) (hg : g.tryGetMember name = none) :
    FoundAs (g :: scopes) name v.fromInside var := by
  constructor
  · rw [tryGetMemberRec, hg, h.member]
    rfl
  · exact h.live

theorem FoundAs.cases (h : FoundAs (g :: outer) name v var) :
    (v.scope = 0 ∧ g.tryGetMember name = some (.var var.name v.var) ∧ g.vars v.var = some var) ∨
      (g.tryGetMember name = none ∧ ∃ w, v = ScopedVar.fromInside w ∧ FoundAs outer name w var) := by
  obtain ⟨hmember, hlive⟩ := h
  obtain ⟨k, v⟩ := v
  rw [tryGetMemberRec] at hmember
  cases hfound : g.tryGetMember name with
  | some member =>
      rw [hfound] at hmember
      simp only [Option.some.injEq, Prod.mk.injEq] at hmember
      obtain ⟨rfl, rfl⟩ := hmember
      exact Or.inl ⟨rfl, rfl, hlive⟩
  | none =>
      rw [hfound] at hmember
      obtain ⟨⟨k', member⟩, hrest, heq⟩ := Option.map_eq_some_iff.mp hmember
      simp only [Prod.mk.injEq] at heq
      obtain ⟨rfl, rfl⟩ := heq
      exact Or.inr ⟨rfl, ⟨k', v⟩, rfl, hrest, hlive⟩

theorem foundAs_of_innermost {v : VarId}
    (hmember : g.tryGetMember name = some (.var var.name v)) (hlive : g.vars v = some var) :
    FoundAs (g :: outer) name ⟨0, v⟩ var := by
  constructor
  · rw [tryGetMemberRec, hmember]
  · exact hlive

theorem tryGetMember_of_live {v : VarId} (hrun : GraphRun E Graph.empty g)
    (hv : g.vars v = some var) : g.tryGetMember var.name = some (.var var.name v) := by
  have hvalid := hrun.valid (Graph.Valid.empty E)
  have hmem := hvalid.live_member v var hv
  cases hfound : g.tryGetMember var.name with
  | none =>
      have hnot := Graph.tryGetMember_eq_none hfound _ hmem
      rw [ScopeMember.name, sameName_refl] at hnot
      contradiction
  | some member =>
      obtain ⟨hmember, hname⟩ := Graph.tryGetMember_some hfound
      rw [hvalid.member_unique hmember hmem hname]

theorem foundAs_of_live {v : VarId} (hrun : GraphRun E Graph.empty g)
    (hv : g.vars v = some var) : FoundAs (g :: outer) var.name ⟨0, v⟩ var :=
  foundAs_of_innermost (tryGetMember_of_live hrun hv) hv

theorem tryGetMemberRec_some (hscopes : ScopesReachable E scopes) {k : ℕ} {key : CString} {v : VarId}
    (h : tryGetMemberRec name scopes = some (k, .var key v)) :
    ∃ var, varAt scopes ⟨k, v⟩ = some var ∧ var.name = key ∧ sameName key name = true := by
  induction scopes generalizing k with
  | nil => contradiction
  | cons g outer ih =>
      have hvalid := (hscopes g List.mem_cons_self).valid (Graph.Valid.empty E)
      rw [tryGetMemberRec] at h
      cases hfound : g.tryGetMember name with
      | some member =>
          rw [hfound] at h
          simp only [Option.some.injEq, Prod.mk.injEq] at h
          obtain ⟨rfl, rfl⟩ := h
          obtain ⟨hmem, hname⟩ := Graph.tryGetMember_some hfound
          obtain ⟨var, hvar, hkey⟩ := hvalid.member_live key v hmem
          exact ⟨var, hvar, hkey, hname⟩
      | none =>
          rw [hfound] at h
          obtain ⟨⟨k', member⟩, hrest, heq⟩ := Option.map_eq_some_iff.mp h
          simp only [Prod.mk.injEq] at heq
          obtain ⟨rfl, rfl⟩ := heq
          exact ih (fun g hg => hscopes g (List.mem_cons_of_mem _ hg)) hrest

/-- What may happen to a chain of scopes when a name is looked up: the variables keep their names, and the
ones with more placeholders than the name stay where they are. -/
structure LookupKeeps (name : CString) (scopes scopes' : List Graph) : Prop where
  named : ∀ v var, varAt scopes v = some var → ∃ var', varAt scopes' v = some var' ∧ var'.name = var.name
  seen : ∀ name' v var, numPlaceholders name < numPlaceholders name' → FoundAs scopes name' v var →
    ∃ var', FoundAs scopes' name' v var' ∧ var'.name = var.name

theorem LookupKeeps.refl (name : CString) (scopes : List Graph) : LookupKeeps name scopes scopes :=
  ⟨fun _ var h => ⟨var, h, rfl⟩, fun _ _ var _ h => ⟨var, h, rfl⟩⟩

theorem LookupKeeps.cons_outer {outer' : List Graph} (h : LookupKeeps name outer outer') (g : Graph) :
    LookupKeeps name (g :: outer) (g :: outer') := by
  constructor
  · intro v var hv
    obtain ⟨k, v⟩ := v
    cases k with
    | zero => exact ⟨var, hv, rfl⟩
    | succ k => exact h.named ⟨k, v⟩ var hv
  · intro name' v var hless hfound
    rcases hfound.cases with ⟨hzero, hmember, hlive⟩ | ⟨hnone, w, rfl, hfound'⟩
    · obtain ⟨k, v⟩ := v
      obtain rfl := hzero
      exact ⟨var, foundAs_of_innermost hmember hlive, rfl⟩
    · obtain ⟨var', hfound'', hname⟩ := h.seen name' w var hless hfound'
      exact ⟨var', hfound''.fromInside hnone, hname⟩

theorem LookupKeeps.cons_grown {g' : Graph} (hvalid : g.Valid E)
    (h : Growths E (numPlaceholders name) g g') (outer : List Graph) :
    LookupKeeps name (g :: outer) (g' :: outer) := by
  constructor
  · intro v var hv
    obtain ⟨k, v⟩ := v
    cases k with
    | zero =>
        obtain ⟨clients, hlive⟩ := h.vars_eq hvalid hv
        exact ⟨{ var with varNClients := clients }, hlive, rfl⟩
    | succ k => exact ⟨var, hv, rfl⟩
  · intro name' v var hless hfound
    have hsame := h.tryGetMember_eq hless
    rcases hfound.cases with ⟨hzero, hmember, hlive⟩ | ⟨hnone, w, rfl, hfound'⟩
    · obtain ⟨k, v⟩ := v
      obtain rfl := hzero
      obtain ⟨clients, hlive'⟩ := h.vars_eq hvalid hlive
      exact ⟨{ var with varNClients := clients }, foundAs_of_innermost (hsame.trans hmember) hlive', rfl⟩
    · exact ⟨var, hfound'.fromInside (hsame.trans hnone), rfl⟩

/-- Instantiating a template makes a variable of the name, if it succeeds. -/
theorem instantiateRec_spec (hscopes : ScopesReachable E scopes)
    (hfree : tryGetMemberRec name scopes = none) :
    ScopesReachable E (instantiateRec E name scopes).2 ∧
      LookupKeeps name scopes (instantiateRec E name scopes).2 ∧
      ∀ v, (instantiateRec E name scopes).1 = some v →
        ∃ var, FoundAs (instantiateRec E name scopes).2 name v var ∧ var.name = name := by
  induction scopes with
  | nil => exact ⟨hscopes, .refl name [], fun v hv => nomatch hv⟩
  | cons g outer ih =>
      obtain ⟨hg, houter⟩ := tryGetMemberRec_cons_none hfree
      have hrun := hscopes g List.mem_cons_self
      have hscopes' : ScopesReachable E outer := fun g hg => hscopes g (List.mem_cons_of_mem _ hg)
      obtain ⟨hreach, hkept, hmade⟩ := ih hscopes' houter
      unfold instantiateRec
      cases hfind : (E.visitOrder g.templates).find? fun tmpl => E.regexec tmpl.name name with
      | none =>
          dsimp only
          refine ⟨?_, hkept.cons_outer g, ?_⟩
          · intro g' hg'
            rcases List.mem_cons.mp hg' with rfl | hg'
            · exact hrun
            · exact hreach g' hg'
          · intro v hv
            obtain ⟨w, hw, rfl⟩ := Option.map_eq_some_iff.mp hv
            obtain ⟨var, hfound, hname⟩ := hmade w hw
            exact ⟨var, hfound.fromInside hg, hname⟩
      | some tmpl =>
          dsimp only
          have hvalid := hrun.valid (Graph.Valid.empty E)
          have hnotVariable : NotVariable g name := by
            intro key v
            rw [hg]
            exact fun h => nomatch h
          obtain ⟨hgrowths, hfresh, -⟩ := varAdd_makes E (numPlaceholders name)
            ⟨name, tmpl.type, tmpl.priority, tmpl.props⟩ g hvalid rfl hnotVariable
          have hrun' : GraphRun E Graph.empty (varAdd E (numPlaceholders name)
              ⟨name, tmpl.type, tmpl.priority, tmpl.props⟩ g).2 := by
            refine Relation.ReflTransGen.tail hrun ⟨.tryGet name, ?_⟩
            show some (varTryGet E name g).2 = _
            unfold varTryGet varScopeTryGet varTemplateInstantiateFromString
            rw [hg]
            dsimp only
            rw [hfind]
          generalize varAdd E (numPlaceholders name) ⟨name, tmpl.type, tmpl.priority, tmpl.props⟩ g =
            made at *
          obtain ⟨found, g'⟩ := made
          refine ⟨?_, .cons_grown hvalid hgrowths outer, ?_⟩
          · intro g'' hg''
            rcases List.mem_cons.mp hg'' with rfl | hg''
            · exact hrun'
            · exact hscopes' g'' hg''
          · intro v hv
            obtain ⟨u, hu, rfl⟩ := Option.map_eq_some_iff.mp hv
            obtain ⟨var, hvar, hname, -⟩ := hfresh u hu
            refine ⟨var, (foundAs_of_live hrun' hvar).congr ?_, hname⟩
            rw [hname]
            exact sameName_refl name

theorem varScopeTryGetRec_spec (hscopes : ScopesReachable E scopes) (name : CString) :
    ScopesReachable E (varScopeTryGetRec E name scopes).2 ∧
      LookupKeeps name scopes (varScopeTryGetRec E name scopes).2 ∧
      ∀ v, (varScopeTryGetRec E name scopes).1 = some v →
        ∃ var, FoundAs (varScopeTryGetRec E name scopes).2 name v var ∧
          sameName var.name name = true := by
  unfold varScopeTryGetRec
  cases hmember : tryGetMemberRec name scopes with
  | none =>
      obtain ⟨hreach, hkept, hmade⟩ := instantiateRec_spec hscopes hmember
      refine ⟨hreach, hkept, fun v hv => ?_⟩
      obtain ⟨var, hfound, hname⟩ := hmade v hv
      exact ⟨var, hfound, by rw [hname, sameName_refl]⟩
  | some found =>
      obtain ⟨k, member⟩ := found
      cases member with
      | tmpl template => exact ⟨hscopes, .refl name scopes, fun v hv => nomatch hv⟩
      | var key v =>
          refine ⟨hscopes, .refl name scopes, fun w hw => ?_⟩
          obtain rfl := Option.some.inj hw
          obtain ⟨var, hlive, rfl, hname⟩ := tryGetMemberRec_some hscopes hmember
          exact ⟨var, ⟨hmember, hlive⟩, hname⟩

theorem varAt_mem (h : varAt scopes v = some var) : ∃ g ∈ scopes, g.vars v.var = some var := by
  obtain ⟨g, hg, hvar⟩ := Option.bind_eq_some_iff.mp h
  exact ⟨g, List.mem_of_getElem? hg, hvar⟩

theorem ScopesReachable.level_eq (hscopes : ScopesReachable E scopes) (h : varAt scopes v = some var) :
    var.level = numPlaceholders var.name := by
  obtain ⟨g, hg, hvar⟩ := varAt_mem h
  exact ((hscopes g hg).valid (Graph.Valid.empty E)).level_eq v.var var hvar

theorem ScopesReachable.isVarName (hscopes : ScopesReachable E scopes) (h : varAt scopes v = some var) :
    isVarName var.name = true := by
  obtain ⟨g, hg, hvar⟩ := varAt_mem h
  exact (hscopes g hg).wellNamed v.var var hvar

theorem instantiateRec_of_no_match
    (h : ∀ g ∈ scopes, ∀ tmpl ∈ g.templates, E.regexec tmpl.name name = false) :
    instantiateRec E name scopes = (none, scopes) := by
  induction scopes with
  | nil => rfl
  | cons g outer ih =>
      have hfind : ((E.visitOrder g.templates).find? fun tmpl => E.regexec tmpl.name name) = none := by
        rw [List.find?_eq_none]
        intro tmpl htmpl
        have hmem := (E.visitOrder_perm g.templates).mem_iff.mp htmpl
        simp [h g List.mem_cons_self tmpl hmem]
      rw [instantiateRec, hfind, ih fun g hg => h g (List.mem_cons_of_mem _ hg)]
      rfl

theorem varScopeTryGetRec_of_numbered (hscopes : ScopesReachable E scopes) (hnumbered : Numbered name)
    (hline : '\n' ∉ name) : (varScopeTryGetRec E name scopes).1 = none := by
  have hinvalid := hnumbered.not_isVarName hline
  have hmake (scopes : List Graph) : (instantiateRec E name scopes).1 = none := by
    induction scopes with
    | nil => rfl
    | cons g outer ih =>
        rw [instantiateRec]
        cases (E.visitOrder g.templates).find? fun tmpl => E.regexec tmpl.name name with
        | none =>
            dsimp only
            rw [ih]
            rfl
        | some tmpl =>
            dsimp only
            rw [varAdd_of_invalid hinvalid]
            rfl
  unfold varScopeTryGetRec
  cases hmember : tryGetMemberRec name scopes with
  | none => exact hmake scopes
  | some found =>
      obtain ⟨k, member⟩ := found
      cases member with
      | tmpl template => rfl
      | var key v =>
          -- the name of a variable has no numbers
          obtain ⟨var, hlive, rfl, hname⟩ := tryGetMemberRec_some hscopes hmember
          have hvalid := hscopes.isVarName hlive
          have hnumbered' : Numbered var.name := hnumbered.of_sameName (sameName_symm hname)
          rw [hnumbered'.not_isVarName (sameName_not_mem rfl hname hline)] at hvalid
          contradiction

end lookups

end Mkfli4l
