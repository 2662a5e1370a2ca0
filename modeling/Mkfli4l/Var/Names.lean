import Mathlib
import Mkfli4l.Lib.Words
import Mkfli4l.Var.GraphRuns

/-!
# Names of variables

`var_add` checks the name of a variable against `VAR_NAME_REGEX`, and every way in which a
variable comes into being leads through this check: definitions, the bounds that are added
for arrays, and the instances of templates.  So no variable has a name in which a number
follows a separator, and looking up such a name finds nothing and changes nothing.
-/

namespace Mkfli4l

open Lib

/-- All variables have valid names. -/
def Graph.WellNamed (g : Graph) : Prop :=
  ∀ v var, g.vars v = some var → isVarName var.name = true

variable {var : Var} {c : Char} {a b name : CString}

namespace Graph.WellNamed

variable {E : GraphEnv} {g : Graph}

theorem of_names {g' : Graph} (h : g.WellNamed)
    (hnames : ∀ v var', g'.vars v = some var' → ∃ u var, g.vars u = some var ∧
      var.name = var'.name) : g'.WellNamed := by
  intro v var' hv
  obtain ⟨u, var, hu, hname⟩ := hnames v var' hv
  rw [← hname]
  exact h u var hu

theorem updateVar (h : g.WellNamed) (v : VarId) {f : Var → Var}
    (hf : ∀ var, (f var).name = var.name) : (g.updateVar v f).WellNamed := by
  refine h.of_names fun u var' hu => ?_
  rcases Graph.updateVar_vars_cases hu with ⟨-, old, hold, rfl⟩ | ⟨-, hold⟩
  · exact ⟨v, old, hold, (hf old).symm⟩
  · exact ⟨u, var', hold, rfl⟩

theorem allocVar (h : g.WellNamed) (hname : isVarName var.name = true) :
    (allocVar g var).WellNamed := by
  have hallocated : ({ g with
      vars := fun u => if u = g.nextId then some var else g.vars u
      nextId := g.nextId + 1 } : Graph).WellNamed := by
    intro u w hu
    by_cases hnew : u = g.nextId
    · obtain rfl : var = w := by simpa [hnew] using hu
      exact hname
    · exact h u w (by simpa [hnew] using hu)
  unfold Mkfli4l.allocVar
  cases hvarN : var.varN with
  | none => exact hallocated
  | some b => exact hallocated.updateVar b fun _ => rfl

theorem orphanClients (h : g.WellNamed) (clients : List VarId) :
    (orphanClients g clients).WellNamed := by
  unfold Mkfli4l.orphanClients
  induction clients generalizing g with
  | nil => exact h
  | cons client clients ih => exact ih (h.updateVar client fun _ => rfl)

theorem varDestroy (h : g.WellNamed) (v : VarId) : (varDestroy g v).WellNamed := by
  unfold Mkfli4l.varDestroy
  cases hv : g.vars v with
  | none => exact h
  | some var =>
      have hunregistered : (var.varN.elim g fun b => varUnregisterClient g b v).WellNamed := by
        cases var.varN with
        | none => exact h
        | some b => exact h.updateVar b fun _ => rfl
      intro u w hu
      have horphaned := hunregistered.orphanClients var.varNClients
      by_cases huv : u = v
      · simp [huv] at hu
      · exact horphaned u w (by simpa [huv] using hu)

theorem varRemove (h : g.WellNamed) (v : VarId) : (varRemove g v).WellNamed := by
  unfold Mkfli4l.varRemove
  cases g.vars v with
  | none => exact h
  | some var =>
      simp only
      cases g.tryGetMember var.name with
      | none => exact h
      | some member =>
          cases member with
          | var key u =>
              have hunlisted : ({ g with members := g.members.erase (.var key u) } :
                  Graph).WellNamed := h
              exact hunlisted.varDestroy u
          | tmpl template => exact h

theorem varSetProperties (h : g.WellNamed) (v : VarId) (props : VarProperties) :
    (varSetProperties g v props).2.WellNamed := by
  unfold Mkfli4l.varSetProperties
  cases g.vars v with
  | none => exact h
  | some var =>
      simp only
      split
      · exact h
      · exact h.updateVar v fun _ => rfl

theorem varRedefine (h : g.WellNamed) (target source : VarId) :
    (varRedefine g target source).2.WellNamed := by
  unfold Mkfli4l.varRedefine
  split
  · next targetVar sourceVar htarget hsource =>
      split
      · have hset := h.varSetProperties target sourceVar.props
        rcases hprops : Mkfli4l.varSetProperties g target sourceVar.props with ⟨ok, g₁⟩
        rw [hprops] at hset
        cases ok with
        | true => exact hset.varDestroy source
        | false => exact hset
      · exact h
  · exact h

theorem enrollVar (h : g.WellNamed) (hname : isVarName var.name = true) :
    (enrollVar g var).2.WellNamed := by
  have halloc := h.allocVar hname
  have hadd : (varScopeAddVar (Mkfli4l.allocVar g var) g.nextId var).2.WellNamed := by
    unfold varScopeAddVar
    cases (Mkfli4l.allocVar g var).tryGetMember var.name with
    | none => exact halloc
    | some member =>
        cases member with
        | tmpl template => exact halloc
        | var key old =>
            have hredefine := halloc.varRedefine old g.nextId
            simp only
            rcases hcase : Mkfli4l.varRedefine (Mkfli4l.allocVar g var) old g.nextId with ⟨ok, g₁⟩
            rw [hcase] at hredefine
            cases ok <;> exact hredefine
  unfold Mkfli4l.enrollVar
  rcases hcase : varScopeAddVar (Mkfli4l.allocVar g var) g.nextId var with ⟨found, g₁⟩
  rw [hcase] at hadd
  cases found with
  | some v => exact hadd
  | none => exact hadd.varDestroy g.nextId

end Graph.WellNamed

/-- The function adds variables with valid names only. -/
def ChecksNames (add : VarAdder) : Prop :=
  ∀ (spec : VarSpec) (g : Graph), g.WellNamed → (add spec g).2.WellNamed

section adding

variable {E : GraphEnv} {add : VarAdder} {g : Graph}

theorem varScopeTryGet_wellNamed (hadd : ChecksNames add) (name : CString) (h : g.WellNamed) :
    (varScopeTryGet E add name g).2.WellNamed := by
  unfold varScopeTryGet
  cases g.tryGetMember name with
  | some member => cases member <;> exact h
  | none =>
      simp only [varTemplateInstantiateFromString]
      cases (E.visitOrder g.templates).find? fun tmpl => E.regexec tmpl.name name with
      | none => exact h
      | some tmpl => exact hadd _ g h

theorem varGetOrAddArrayBound_wellNamed (hadd : ChecksNames add) (name : CString)
    (props : VarProperties) (priority : Priority) (h : g.WellNamed) :
    (varGetOrAddArrayBound E add name props priority g).2.WellNamed := by
  have hget := varScopeTryGet_wellNamed (E := E) hadd name h
  unfold varGetOrAddArrayBound
  rcases hcase : varScopeTryGet E add name g with ⟨found, g₁⟩
  rw [hcase] at hget
  cases found with
  | some b =>
      simp only
      cases g₁.vars b with
      | none => exact hget
      | some varN =>
          simp only
          split <;> exact hget
  | none =>
      have hadded := hadd ⟨name, E.arrayBoundType, priority, boundProps⟩ g₁ hget
      simp only
      rcases hcase' : add ⟨name, E.arrayBoundType, priority, boundProps⟩ g₁ with ⟨added, g₂⟩
      rw [hcase'] at hadded
      cases added <;> exact hadded

theorem varCreate_wellNamed (hadd : ChecksNames add) {spec : VarSpec}
    (hname : isVarName spec.name = true) (arrayBoundName : Option CString) (h : g.WellNamed) :
    (varCreate E add spec arrayBoundName g).2.WellNamed := by
  unfold varCreate
  cases computedBoundName spec.name with
  | none =>
      cases arrayBoundName with
      | some name => exact h
      | none => exact h.enrollVar hname
  | some computed =>
      have hbound := varGetOrAddArrayBound_wellNamed (E := E) hadd (arrayBoundName.getD computed)
        spec.props spec.priority h
      simp only
      rcases hcase : varGetOrAddArrayBound E add (arrayBoundName.getD computed) spec.props
        spec.priority g with ⟨_ | ⟨b, created⟩, g₁⟩
      · rw [hcase] at hbound
        exact hbound
      · rw [hcase] at hbound
        simp only
        split
        · cases created with
          | true => exact hbound.varRemove b
          | false => exact hbound
        · exact hbound.enrollVar hname

theorem varAdd_checksNames (E : GraphEnv) (n : Nat) : ChecksNames (varAdd E n) := by
  induction n with
  | zero =>
      intro spec g h
      unfold varAdd
      split
      · next hname => exact varCreate_wellNamed (fun _ _ hg => hg) hname none h
      · exact h
  | succ n ih =>
      intro spec g h
      unfold varAdd
      split
      · next hname => exact varCreate_wellNamed ih hname none h
      · exact h

theorem varAddWithArrayBound_wellNamed (spec : VarSpec) (arrayBoundName : Option CString)
    (h : g.WellNamed) : (varAddWithArrayBound E spec arrayBoundName g).2.WellNamed := by
  cases arrayBoundName with
  | none => exact varAdd_checksNames E _ spec g h
  | some name =>
      simp only [varAddWithArrayBound]
      split
      · next hname => exact varCreate_wellNamed (varAdd_checksNames E _) hname (some name) h
      · exact h

theorem varTryGet_wellNamed (name : CString) (h : g.WellNamed) :
    (varTryGet E name g).2.WellNamed :=
  varScopeTryGet_wellNamed (varAdd_checksNames E _) name h

theorem GraphOp.exec_wellNamed {op : GraphOp} {g' : Graph} (hexec : op.exec E g = some g')
    (h : g.WellNamed) : g'.WellNamed := by
  cases op with
  | add spec arrayBoundName =>
      obtain rfl := Option.some.inj hexec
      exact varAddWithArrayBound_wellNamed spec arrayBoundName h
  | tryGet name =>
      obtain rfl := Option.some.inj hexec
      exact varTryGet_wellNamed name h
  | templateAdd tmpl =>
      obtain rfl := Option.some.inj hexec
      unfold varTemplateAdd
      cases g.tryGetMember tmpl.name <;> exact h
  | remove v =>
      obtain rfl := Option.some.inj hexec
      exact h.varRemove v
  | setProperties v props =>
      obtain rfl := Option.some.inj hexec
      exact h.varSetProperties v props
  | weakDeclaration name type =>
      have hget := varTryGet_wellNamed (E := E) (name.map Char.toUpper) h
      simp only [GraphOp.exec, varAddWeakDeclaration] at hexec
      have hremoved : ((varTryGet E (name.map Char.toUpper) g).1.elim
          (varTryGet E (name.map Char.toUpper) g).2 fun v =>
            varRemove (varTryGet E (name.map Char.toUpper) g).2 v).WellNamed := by
        cases (varTryGet E (name.map Char.toUpper) g).1 with
        | none => exact hget
        | some v => exact hget.varRemove v
      split at hexec
      · next hadd =>
          obtain rfl := Option.some.inj hexec
          have hadded := varAddWithArrayBound_wellNamed (E := E)
            ⟨name.map Char.toUpper, type, .scriptTransient,
              ⟨false, false, .literal (.boolean true), none, none⟩⟩ none hremoved
          rw [hadd] at hadded
          exact hadded
      · contradiction

theorem GraphRun.wellNamed (hrun : GraphRun E Graph.empty g) : g.WellNamed := by
  induction hrun with
  | refl => exact fun _ _ h => nomatch h
  | tail _ hstep ih =>
      obtain ⟨op, hexec⟩ := hstep
      exact GraphOp.exec_wellNamed hexec ih

end adding

/-! ### Names with numbers -/

theorem toLower_eq_iff {d : Char} (hd : d.isAlpha = false) : c.toLower = d ↔ c = d := by
  have hnot : ¬ ('A' ≤ d ∧ d ≤ 'Z') ∧ ¬ ('a' ≤ d ∧ d ≤ 'z') := by
    simpa [Char.isAlpha, Char.isUpper, Char.isLower, Char.le_def] using hd.symm
  have hupper : ¬ (65 ≤ d.val.toNat ∧ d.val.toNat ≤ 90) := hnot.1
  have hlower : ¬ (97 ≤ d.val.toNat ∧ d.val.toNat ≤ 122) := hnot.2
  constructor
  · intro h
    unfold Char.toLower at h
    split at h
    · next hup =>
        have hval : c.val + 32 = d.val := congrArg Char.val h
        have hlow : 65 ≤ c.val.toNat := hup.1
        have hhigh : c.val.toNat ≤ 90 := hup.2
        have hnat : (c.val + 32).toNat = d.val.toNat := by rw [hval]
        rw [UInt32.toNat_add] at hnat
        have h32 : (32 : UInt32).toNat = 32 := rfl
        omega
    · exact h
  · rintro rfl
    unfold Char.toLower
    split
    · next hup => exact absurd hup hupper
    · rfl

theorem splitOn_map_toLower (name : CString) :
    (name.map Char.toLower).splitOn '_' = (name.splitOn '_').map (List.map Char.toLower) := by
  induction name with
  | nil => rfl
  | cons c name ih =>
      rw [List.map_cons, List.splitOn_cons_eq_if_modifyHead, List.splitOn_cons_eq_if_modifyHead, ih]
      have hc : c.toLower = '_' ↔ c = '_' := toLower_eq_iff rfl
      obtain ⟨w, ws, hws⟩ := List.exists_cons_of_ne_nil (List.splitOn_ne_nil '_' name)
      by_cases hsep : c = '_'
      · simp [hsep]
      · simp [hsep, hc, hws]

theorem sameName_iff_words : sameName a b = true ↔
    (a.splitOn '_').map (List.map Char.toLower) = (b.splitOn '_').map (List.map Char.toLower) := by
  rw [← splitOn_map_toLower, ← splitOn_map_toLower]
  constructor
  · intro h
    rw [beq_iff_eq.mp h]
  · intro h
    have hglue := congrArg (glue '_') h
    rw [glue_splitOn, glue_splitOn] at hglue
    exact beq_iff_eq.mpr (List.cons.inj hglue).2

theorem sameName_not_mem (hc : c.isAlpha = false) (h : sameName a b = true) (hmem : c ∉ b) : c ∉ a := by
  intro ha
  have hlower : c ∈ a.map Char.toLower := List.mem_map.mpr ⟨c, ha, (toLower_eq_iff hc).mpr rfl⟩
  rw [beq_iff_eq.mp h] at hlower
  obtain ⟨d, hd, hdc⟩ := List.mem_map.mp hlower
  exact hmem ((toLower_eq_iff hc).mp hdc ▸ hd)

theorem isVarName_words (h : isVarName name = true) (hline : '\n' ∉ name) :
    ∃ first words, name.splitOn '_' = first :: words ∧ isNameWord first = true ∧
      ∀ w ∈ words, isNameWord w = true ∨ w = ['%'] := by
  have hvalid : isVarNameLine name = true := by
    simpa [isVarName, List.splitOn_eq_singleton hline] using h
  unfold isVarNameLine at hvalid
  cases hwords : name.splitOn '_' with
  | nil => exact absurd hwords (List.splitOn_ne_nil _ _)
  | cons first words =>
      rw [hwords] at hvalid
      simp only [Bool.and_eq_true, List.all_eq_true, Bool.or_eq_true, beq_iff_eq] at hvalid
      exact ⟨first, words, rfl, hvalid.1, hvalid.2⟩

theorem isDigit_isAlpha (h : c.isDigit = true) : c.isAlpha = false := by
  have hc : 48 ≤ c.val.toNat ∧ c.val.toNat ≤ 57 := by
    simpa [Char.isDigit, UInt32.le_iff_toNat_le] using h
  simp only [Char.isAlpha, Char.isUpper, Char.isLower, ge_iff_le, Bool.or_eq_false_iff,
    Bool.and_eq_false_iff, decide_eq_false_iff_not, UInt32.le_iff_toNat_le]
  have h65 : 'A'.val.toNat = 65 := rfl
  have h97 : 'a'.val.toNat = 97 := rfl
  omega

theorem isNameWord_cons {w : CString} (h : isNameWord w = true) :
    ∃ c rest, w = c :: rest ∧ c.isDigit = false ∧ c ≠ '%' ∧ c ≠ '_' := by
  cases w with
  | nil => contradiction
  | cons c rest =>
      have hup : c.isUpper = true := by
        simp only [isNameWord, Bool.and_eq_true] at h
        exact h.1
      have halpha : c.isAlpha = true := by simp [Char.isAlpha, hup]
      refine ⟨c, rest, rfl, ?_, ?_, ?_⟩
      · by_contra hdigit
        rw [isDigit_isAlpha (by simpa using hdigit)] at halpha
        contradiction
      · rintro rfl
        contradiction
      · rintro rfl
        contradiction

/-- A number follows a separator, or the name begins with one. -/
def Numbered (name : CString) : Prop :=
  ∃ w ∈ name.splitOn '_', ∃ c rest, w = c :: rest ∧ c.isDigit = true

theorem Numbered.of_sameName (h : Numbered a) (hsame : sameName a b = true) : Numbered b := by
  obtain ⟨w, hw, c, rest, rfl, hc⟩ := h
  have hlower := List.mem_map_of_mem (f := List.map Char.toLower) hw
  rw [sameName_iff_words.mp hsame] at hlower
  obtain ⟨w', hw', heq⟩ := List.mem_map.mp hlower
  obtain ⟨d, rest', rfl, hd, -⟩ := List.map_eq_cons_iff.mp heq
  refine ⟨_, hw', d, rest', rfl, ?_⟩
  have hcc : c.toLower = c := (toLower_eq_iff (isDigit_isAlpha hc)).mpr rfl
  rw [hcc] at hd
  rw [(toLower_eq_iff (isDigit_isAlpha hc)).mp hd]
  exact hc

theorem Numbered.not_isVarName (h : Numbered name) (hline : '\n' ∉ name) :
    isVarName name = false := by
  rw [Bool.eq_false_iff]
  intro hvalid
  obtain ⟨first, words, hwords, hfirst, hrest⟩ := isVarName_words hvalid hline
  obtain ⟨w, hw, c, rest, rfl, hc⟩ := h
  rw [hwords] at hw
  have hword : isNameWord (c :: rest) = true ∨ c :: rest = ['%'] := by
    rcases List.mem_cons.mp hw with rfl | hw
    · exact Or.inl hfirst
    · exact hrest _ hw
  rcases hword with hword | hword
  · obtain ⟨d, rest', heq, hd, -⟩ := isNameWord_cons hword
    obtain ⟨rfl, -⟩ := List.cons.inj heq
    rw [hc] at hd
    contradiction
  · obtain ⟨rfl, -⟩ := List.cons.inj hword
    contradiction

theorem varAdd_of_invalid {E : GraphEnv} {g : Graph} {spec : VarSpec}
    (h : isVarName spec.name = false) (n : Nat) : varAdd E n spec g = (none, g) := by
  cases n <;> simp [varAdd, h]

theorem varTryGet_of_numbered {E : GraphEnv} {g : Graph}
    (hrun : GraphRun E Graph.empty g) (h : Numbered name) (hline : '\n' ∉ name) :
    varTryGet E name g = (none, g) := by
  unfold varTryGet varScopeTryGet
  cases hfound : g.tryGetMember name with
  | none =>
      simp only [varTemplateInstantiateFromString]
      cases (E.visitOrder g.templates).find? fun tmpl => E.regexec tmpl.name name with
      | none => rfl
      | some tmpl => exact varAdd_of_invalid (h.not_isVarName hline) _
  | some member =>
      cases member with
      | tmpl template => rfl
      | var key v =>
          obtain ⟨hmem, hsame⟩ := Graph.tryGetMember_some hfound
          obtain ⟨var, hvar, rfl⟩ := (hrun.valid (Graph.Valid.empty E)).member_live key v hmem
          have hvalid := hrun.wellNamed v var hvar
          have hnumbered : Numbered var.name := h.of_sameName (sameName_symm hsame)
          rw [hnumbered.not_isVarName (sameName_not_mem rfl hsame hline)] at hvalid
          contradiction

theorem varTryGet_of_sameName {E : GraphEnv} {g : Graph} {v : VarId}
    (hrun : GraphRun E Graph.empty g) (hv : g.vars v = some var)
    (hsame : sameName var.name name = true) : varTryGet E name g = (some v, g) := by
  have hvalid := hrun.valid (Graph.Valid.empty E)
  have hmem := hvalid.live_member v var hv
  have hfound : g.tryGetMember name = some (.var var.name v) := by
    cases hfound : g.tryGetMember name with
    | none =>
        have hnot := Graph.tryGetMember_eq_none hfound _ hmem
        rw [ScopeMember.name, hsame] at hnot
        contradiction
    | some member =>
        obtain ⟨hmember, hname⟩ := Graph.tryGetMember_some hfound
        exact congrArg some
          (hvalid.member_unique hmember hmem (sameName_trans hname (sameName_symm hsame)))
  simp only [varTryGet, varScopeTryGet, hfound]

end Mkfli4l
