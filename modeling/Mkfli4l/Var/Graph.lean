import Mkfli4l.Var.Model

/-!
# Defining variables

The functions of `var/core.c`, `var/scope.c` and `var/template.c` that create,
redefine and remove variables.  The state is the graph of the live variable objects
together with the members of the global scope, which is the only scope the program
uses.  Members are found by their names without regard to case.

Creating an array creates its bound variable, unless there is one, and a bound that
is an array itself has a bound in turn.  The recursion is on the number of
placeholders in the name: the name of a bound has one placeholder less.
-/

namespace Mkfli4l

open Lib

/-- `compare_ci_string_keys`. -/
def sameName (a b : CString) : Bool := a.map Char.toLower == b.map Char.toLower

/-- `[A-Z][A-Z0-9]*` -/
def isNameWord : CString → Bool
  | [] => false
  | c :: rest => c.isUpper && rest.all fun d => d.isUpper || d.isDigit

/-- `VAR_NAME_REGEX`, applied to a line. -/
def isVarNameLine (line : CString) : Bool :=
  match line.splitOn '_' with
  | [] => false
  | first :: words => isNameWord first && words.all fun word => isNameWord word || word == ['%']

/-- `vartype_match(var_varname_type, name)`.  The expression is compiled with `REG_NEWLINE`, so
it is enough that it matches a line. -/
def isVarName (name : CString) : Bool := (name.splitOn '\n').any isVarNameLine

/-- The number of placeholders in a name. -/
def numPlaceholders (name : CString) : Nat := name.count '%'

/-- The name of the array bound that `var_create` computes: the name up to its last placeholder,
which is replaced by `N`. -/
def computedBoundName (name : CString) : Option CString :=
  match name.reverse.dropWhile (· ≠ '%') with
  | [] => none
  | _ :: front => some (front.reverse ++ ['N'])

/-- `struct var_template_t` without its instances; the name is the regular expression. -/
structure VarTemplate where
  name : CString
  type : VarTypeId
  priority : Priority
  props : VarProperties
deriving DecidableEq, Repr

/-- `struct var_scope_member_t`. -/
inductive ScopeMember
  | var (name : CString) (id : VarId)
  | tmpl (template : VarTemplate)
deriving DecidableEq, Repr

/-- The name of a member. -/
def ScopeMember.name : ScopeMember → CString
  | var name _ => name
  | tmpl template => template.name

/-- The variable objects and the global scope. -/
@[ext]
structure Graph where
  vars : VarId → Option Var
  members : List ScopeMember
  nextId : VarId

namespace Graph

/-- The empty store. -/
def empty : Graph where
  vars := fun _ => none
  members := []
  nextId := 0

/-- `var_scope_try_get_member`. -/
def tryGetMember (g : Graph) (name : CString) : Option ScopeMember :=
  g.members.find? fun member => sameName member.name name

/-- Change a variable object. -/
def updateVar (g : Graph) (v : VarId) (f : Var → Var) : Graph :=
  { g with vars := fun u => if u = v then (g.vars u).map f else g.vars u }

/-- The templates among the members. -/
def templates (g : Graph) : List VarTemplate :=
  g.members.filterMap fun
    | .var _ _ => none
    | .tmpl tmpl => some tmpl

end Graph

/-- What the definitions depend on: the type of array bounds, the matching of template names, and
the order in which `hashmap_foreach` visits templates. -/
structure GraphEnv where
  arrayBoundType : VarTypeId
  regexec : CString → CString → Bool
  visitOrder : List VarTemplate → List VarTemplate
  visitOrder_perm : ∀ tmpls, (visitOrder tmpls).Perm tmpls

def varRegisterClient (g : Graph) (b client : VarId) : Graph :=
  g.updateVar b fun varN => { varN with varNClients := varN.varNClients ++ [client] }

def varUnregisterClient (g : Graph) (b client : VarId) : Graph :=
  g.updateVar b fun varN => { varN with varNClients := varN.varNClients.erase client }

/-- The loop of `var_destroy` over the clients. -/
def orphanClients (g : Graph) (clients : List VarId) : Graph :=
  clients.foldl (fun g client => g.updateVar client fun var => { var with varN := none }) g

def varDestroy (g : Graph) (v : VarId) : Graph :=
  match g.vars v with
  | none => g
  | some var =>
      let unregistered := var.varN.elim g fun b => varUnregisterClient g b v
      let orphaned := orphanClients unregistered var.varNClients
      { orphaned with vars := fun u => if u = v then none else orphaned.vars u }

/-- `hashmap_remove` of a member, which destroys it. -/
def removeMember (g : Graph) (member : ScopeMember) : Graph :=
  let unlisted := { g with members := g.members.erase member }
  match member with
  | .var _ v => varDestroy unlisted v
  | .tmpl _ => unlisted

def varRemove (g : Graph) (v : VarId) : Graph :=
  match g.vars v with
  | none => g
  | some var => (g.tryGetMember var.name).elim g fun member => removeMember g member

def varSetProperties (g : Graph) (v : VarId) (props : VarProperties) : Bool × Graph :=
  match g.vars v with
  | none => (false, g)
  | some var =>
      if props.optional && var.varNClients.any fun client =>
          (g.vars client).any fun clientVar => !clientVar.props.optional
      then (false, g)
      else (true, g.updateVar v fun var => { var with props := props })

def varRedefine (g : Graph) (target source : VarId) : Bool × Graph :=
  match g.vars target, g.vars source with
  | some targetVar, some sourceVar =>
      if targetVar.props.weak = true ∧ targetVar.type = sourceVar.type ∧
          targetVar.priority = sourceVar.priority then
        match varSetProperties g target sourceVar.props with
        | (true, g) => (true, varDestroy g source)
        | (false, g) => (false, g)
      else (false, g)
  | _, _ => (false, g)

def varScopeAddVar (g : Graph) (v : VarId) (var : Var) : Option VarId × Graph :=
  match g.tryGetMember var.name with
  | some (.var _ old) =>
      match varRedefine g old v with
      | (true, g) => (some old, g)
      | (false, g) => (none, g)
  | some (.tmpl _) => (none, g)
  | none => (some v, { g with members := g.members ++ [.var var.name v] })

/-- What `var_add` is told about a variable. -/
structure VarSpec where
  name : CString
  type : VarTypeId
  priority : Priority
  props : VarProperties
deriving DecidableEq, Repr

def varCheckArrayBound (E : GraphEnv) (varN : Var) (props : VarProperties)
    (priority : Priority) : Bool :=
  varN.type == E.arrayBoundType && varN.priority == priority &&
    !(varN.props.optional && !props.optional)

/-- Allocate a variable object and register it at its bound. -/
def allocVar (g : Graph) (var : Var) : Graph :=
  let allocated : Graph :=
    { g with
      vars := fun u => if u = g.nextId then some var else g.vars u
      nextId := g.nextId + 1 }
  var.varN.elim allocated fun b => varRegisterClient allocated b g.nextId

/-- The part of `var_create` behind the search for the bound. -/
def enrollVar (g : Graph) (var : Var) : Option VarId × Graph :=
  match varScopeAddVar (allocVar g var) g.nextId var with
  | (some v, g') => (some v, g')
  | (none, g') => (none, varDestroy g' g.nextId)

/-- A function that adds a variable. -/
abbrev VarAdder := VarSpec → Graph → Option VarId × Graph

def varTemplateInstantiateFromString (E : GraphEnv) (add : VarAdder) (name : CString)
    (g : Graph) : Option VarId × Graph :=
  match (E.visitOrder g.templates).find? fun tmpl => E.regexec tmpl.name name with
  | none => (none, g)
  | some tmpl => add ⟨name, tmpl.type, tmpl.priority, tmpl.props⟩ g

def varScopeTryGet (E : GraphEnv) (add : VarAdder) (name : CString) (g : Graph) :
    Option VarId × Graph :=
  match g.tryGetMember name with
  | some (.var _ v) => (some v, g)
  | some (.tmpl _) => (none, g)
  | none => varTemplateInstantiateFromString E add name g

/-- `var_get_or_add_array_bound`; the flag tells whether the bound has been created. -/
def varGetOrAddArrayBound (E : GraphEnv) (add : VarAdder) (name : CString) (props : VarProperties)
    (priority : Priority) (g : Graph) : Option (VarId × Bool) × Graph :=
  match varScopeTryGet E add name g with
  | (some b, g) =>
      match g.vars b with
      | none => (none, g)
      | some varN =>
          if varCheckArrayBound E varN props priority then (some (b, false), g) else (none, g)
  | (none, g) =>
      match add ⟨name, E.arrayBoundType, priority, boundProps⟩ g with
      | (some b, g) => (some (b, true), g)
      | (none, g) => (none, g)

/-- `var_create`, with the function that adds missing bounds. -/
def varCreate (E : GraphEnv) (add : VarAdder) (spec : VarSpec) (arrayBoundName : Option CString)
    (g : Graph) : Option VarId × Graph :=
  match computedBoundName spec.name, arrayBoundName with
  | none, some _ => (none, g)
  | none, none => enrollVar g ⟨spec.name, spec.type, 0, none, [], spec.priority, spec.props⟩
  | some computed, _ =>
      match varGetOrAddArrayBound E add (arrayBoundName.getD computed) spec.props spec.priority g with
      | (none, g) => (none, g)
      | (some (b, created), g) =>
          if arrayBoundName ≠ none ∧
              (g.vars b).map (fun varN => varN.level + 1) ≠ some (numPlaceholders spec.name) then
            (none, if created then varRemove g b else g)
          else
            enrollVar g ⟨spec.name, spec.type, numPlaceholders spec.name, some b, [],
              spec.priority, spec.props⟩

/-- `var_add`, by recursion on the number of placeholders in the name. -/
def varAdd (E : GraphEnv) : Nat → VarAdder
  | 0, spec, g =>
      if isVarName spec.name then varCreate E (fun _ g => (none, g)) spec none g else (none, g)
  | placeholders + 1, spec, g =>
      if isVarName spec.name then varCreate E (varAdd E placeholders) spec none g else (none, g)

def varAddWithArrayBound (E : GraphEnv) (spec : VarSpec) (arrayBoundName : Option CString)
    (g : Graph) : Option VarId × Graph :=
  match arrayBoundName with
  | none => varAdd E (numPlaceholders spec.name) spec g
  | some name =>
      if isVarName spec.name then varCreate E (varAdd E (numPlaceholders name)) spec (some name) g
      else (none, g)

def varTemplateAdd (g : Graph) (tmpl : VarTemplate) : Graph :=
  match g.tryGetMember tmpl.name with
  | some _ => g
  | none => { g with members := g.members ++ [.tmpl tmpl] }

def varTryGet (E : GraphEnv) (name : CString) (g : Graph) : Option VarId × Graph :=
  varScopeTryGet E (varAdd E (numPlaceholders name)) name g

/-- The definition made by `var_add_weak_declaration`; `none` is the fatal exit. -/
def varAddWeakDeclaration (E : GraphEnv) (name : CString) (type : VarTypeId) (g : Graph) :
    Option Graph :=
  let upperName := name.map Char.toUpper
  let found := varTryGet E upperName g
  let removed := found.1.elim found.2 fun v => varRemove found.2 v
  let props : VarProperties := ⟨false, false, .literal (.boolean true), none, none⟩
  match varAddWithArrayBound E ⟨upperName, type, .scriptTransient, props⟩ none removed with
  | (some _, g) => some g
  | (none, _) => none

end Mkfli4l
