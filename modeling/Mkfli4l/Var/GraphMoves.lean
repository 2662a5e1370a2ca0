import Mkfli4l.Var.Graph

/-!
# The effects of defining variables

Whatever a call of `var_add`, `var_remove` and so on does to the graph of variables,
it is made of a few elementary moves: a variable is created and linked to its bound,
the properties of a variable are replaced, a variable is removed, a template is
added, or an object has been allocated in vain.  This module shows that the moves
keep the graph valid and that the functions of `Var/Graph.lean` make moves only.
-/

namespace Mkfli4l

open Lib

/-! ### Names -/

variable {a b name : CString}

theorem sameName_symm (h : sameName a b = true) : sameName b a = true := by
  simp only [sameName, beq_iff_eq] at h ⊢
  exact h.symm

theorem sameName_trans {c : CString} (h : sameName a b = true) (h' : sameName b c = true) :
    sameName a c = true := by
  simp only [sameName, beq_iff_eq] at h h' ⊢
  exact h.trans h'

@[simp] theorem sameName_refl (a : CString) : sameName a a = true := by
  simp [sameName]

theorem toLower_eq_percent {c : Char} : c.toLower = '%' ↔ c = '%' := by
  constructor
  · intro h
    unfold Char.toLower at h
    split at h
    · next hup =>
        have hval : c.val + 32 = '%'.val := congrArg Char.val h
        have hlow : 65 ≤ c.val.toNat := hup.1
        have hhigh : c.val.toNat ≤ 90 := hup.2
        have hnat : (c.val + 32).toNat = 37 := by rw [hval]; rfl
        rw [UInt32.toNat_add] at hnat
        have h32 : (32 : UInt32).toNat = 32 := rfl
        omega
    · exact h
  · rintro rfl
    rfl

theorem numPlaceholders_map_toLower (name : CString) :
    numPlaceholders (name.map Char.toLower) = numPlaceholders name := by
  induction name with
  | nil => rfl
  | cons c name ih =>
      simp only [numPlaceholders, List.map_cons, List.count_cons] at ih ⊢
      rw [ih]
      simp [toLower_eq_percent]

theorem numPlaceholders_of_sameName (h : sameName a b = true) :
    numPlaceholders a = numPlaceholders b := by
  simp only [sameName, beq_iff_eq] at h
  rw [← numPlaceholders_map_toLower a, h, numPlaceholders_map_toLower]

theorem computedBoundName_eq_none (h : computedBoundName name = none) :
    numPlaceholders name = 0 := by
  unfold computedBoundName at h
  split at h
  · next hdrop =>
      rw [List.dropWhile_eq_nil_iff] at hdrop
      rw [numPlaceholders, List.count_eq_zero]
      intro hmem
      simpa using hdrop '%' (List.mem_reverse.mpr hmem)
  · contradiction

theorem numPlaceholders_computedBoundName {bound : CString} (h : computedBoundName name = some bound) :
    numPlaceholders bound + 1 = numPlaceholders name := by
  unfold computedBoundName at h
  split at h
  · contradiction
  · next c front hdrop =>
      obtain rfl := Option.some.inj h
      have hhead : c = '%' := by
        have hne : name.reverse.dropWhile (· ≠ '%') ≠ [] := by rw [hdrop]; simp
        have hnot := List.head_dropWhile_not _ hne
        simp only [hdrop, List.head_cons] at hnot
        simpa using hnot
      have hsplit := List.takeWhile_append_dropWhile (p := fun c => decide (c ≠ '%'))
        (l := name.reverse)
      have htake : (name.reverse.takeWhile (· ≠ '%')).count '%' = 0 := by
        rw [List.count_eq_zero]
        intro hmem
        simpa using List.mem_takeWhile_imp hmem
      have hcount : name.reverse.count '%' = front.count '%' + 1 := by
        rw [← hsplit, List.count_append, htake, hdrop, hhead]
        simp
      simp only [numPlaceholders, List.count_append, List.count_reverse] at hcount ⊢
      rw [hcount]
      simp

/-! ### Valid graphs -/

/-- The bound of a variable suits it. -/
def BoundFits (E : GraphEnv) (g : Graph) (var : Var) : Prop :=
  match var.varN with
  | none => var.level = 0
  | some b => ∃ varN, g.vars b = some varN ∧ varN.level + 1 = var.level ∧
      varN.type = E.arrayBoundType ∧ varN.priority = var.priority ∧
      (varN.props.optional = true → var.props.optional = true)

/-- The invariant of the graph: the links between arrays and bounds are consistent, identifiers
are fresh, and the variables are the members of the scope. -/
structure Graph.Valid (E : GraphEnv) (g : Graph) : Prop where
  boundGraph : BoundGraph E.arrayBoundType g.vars
  fresh : ∀ v, g.nextId ≤ v → g.vars v = none
  level_eq : ∀ v var, g.vars v = some var → var.level = numPlaceholders var.name
  member_live : ∀ name v, ScopeMember.var name v ∈ g.members →
    ∃ var, g.vars v = some var ∧ var.name = name
  live_member : ∀ v var, g.vars v = some var → ScopeMember.var var.name v ∈ g.members
  names : g.members.Pairwise fun a b => sameName a.name b.name = false

theorem Graph.Valid.empty (E : GraphEnv) : Graph.empty.Valid E where
  boundGraph := ⟨fun h => (nomatch h), fun h => (nomatch h)⟩
  fresh := fun _ _ => rfl
  level_eq := fun _ _ h => nomatch h
  member_live := fun _ _ h => nomatch h
  live_member := fun _ _ h => nomatch h
  names := List.Pairwise.nil

/-- One elementary change of the graph.  Removals satisfy `R`, replacements of properties `P`. -/
inductive GraphMove (E : GraphEnv) (R : Graph → VarId → Prop)
    (P : Graph → VarId → VarProperties → Prop) : Graph → Graph → Prop
  | burn {g : Graph} : GraphMove E R P g { g with nextId := g.nextId + 1 }
  | create {g : Graph} {var : Var} (hnew : g.tryGetMember var.name = none)
      (hclients : var.varNClients = []) (hlevel : var.level = numPlaceholders var.name)
      (hbound : BoundFits E g var) :
      GraphMove E R P g
        { allocVar g var with members := g.members ++ [.var var.name g.nextId] }
  | replaceProps {g : Graph} {v : VarId} {var : Var} {props : VarProperties}
      (hvar : g.vars v = some var) (hallowed : P g v props)
      (hclients : props.optional = true → ∀ client ∈ var.varNClients, ∀ clientVar,
        g.vars client = some clientVar → clientVar.props.optional = true) :
      GraphMove E R P g (g.updateVar v fun var => { var with props := props })
  | remove {g : Graph} {v : VarId} (hallowed : R g v) : GraphMove E R P g (varRemove g v)
  | addTemplate {g : Graph} (tmpl : VarTemplate) (hnew : g.tryGetMember tmpl.name = none) :
      GraphMove E R P g { g with members := g.members ++ [.tmpl tmpl] }

section moves

variable {E : GraphEnv} {g g' : Graph}

theorem Graph.tryGetMember_eq_none (h : g.tryGetMember name = none) :
    ∀ member ∈ g.members, sameName member.name name = false := by
  intro member hmember
  have := List.find?_eq_none.mp h member hmember
  simpa using this

theorem Graph.tryGetMember_some {member : ScopeMember} (h : g.tryGetMember name = some member) :
    member ∈ g.members ∧ sameName member.name name = true :=
  ⟨List.mem_of_find?_eq_some h, by simpa using List.find?_some h⟩

theorem pairwise_concat_of_new {member : ScopeMember}
    (hvalid : g.members.Pairwise fun a b => sameName a.name b.name = false)
    (hnew : g.tryGetMember name = none) (hname : member.name = name) :
    (g.members ++ [member]).Pairwise fun a b => sameName a.name b.name = false := by
  rw [List.pairwise_append]
  refine ⟨hvalid, List.pairwise_singleton _ _, ?_⟩
  intro a ha b hb
  obtain rfl := List.mem_singleton.mp hb
  rw [hname]
  exact Graph.tryGetMember_eq_none hnew a ha

variable {v : VarId} {var : Var} {f : Var → Var}

theorem Graph.updateVar_vars_self
    (h : g.vars v = some var) : (g.updateVar v f).vars v = some (f var) := by
  simp [Graph.updateVar, h]

theorem Graph.updateVar_vars_ne {u : VarId} (h : u ≠ v) : (g.updateVar v f).vars u = g.vars u := by
  simp [Graph.updateVar, h]

theorem Graph.updateVar_vars_cases {u : VarId} (h : (g.updateVar v f).vars u = some var) :
    (u = v ∧ ∃ old, g.vars v = some old ∧ var = f old) ∨ (u ≠ v ∧ g.vars u = some var) := by
  by_cases huv : u = v
  · subst huv
    left
    simp only [Graph.updateVar, if_true, Option.map_eq_some_iff] at h
    obtain ⟨old, hold, rfl⟩ := h
    exact ⟨rfl, old, hold, rfl⟩
  · rw [Graph.updateVar_vars_ne huv] at h
    exact Or.inr ⟨huv, h⟩

/-- A variable after `client` has been registered at the bound `varN`, which may be the variable
`u` itself. -/
def Var.withClient (old : Var) (varN : Option VarId) (u client : VarId) : Var :=
  if varN = some u then { old with varNClients := old.varNClients ++ [client] } else old

section withClient

variable (old : Var) (varN : Option VarId) (u client : VarId)

@[simp] theorem Var.withClient_name : (old.withClient varN u client).name = old.name := by
  unfold Var.withClient; split <;> rfl

@[simp] theorem Var.withClient_type : (old.withClient varN u client).type = old.type := by
  unfold Var.withClient; split <;> rfl

@[simp] theorem Var.withClient_level : (old.withClient varN u client).level = old.level := by
  unfold Var.withClient; split <;> rfl

@[simp] theorem Var.withClient_varN : (old.withClient varN u client).varN = old.varN := by
  unfold Var.withClient; split <;> rfl

@[simp] theorem Var.withClient_priority :
    (old.withClient varN u client).priority = old.priority := by
  unfold Var.withClient; split <;> rfl

@[simp] theorem Var.withClient_props : (old.withClient varN u client).props = old.props := by
  unfold Var.withClient; split <;> rfl

theorem Var.withClient_clients : (old.withClient varN u client).varNClients =
    if varN = some u then old.varNClients ++ [client] else old.varNClients := by
  unfold Var.withClient; split <;> rfl

end withClient

theorem allocVar_vars (hb : var.varN ≠ some g.nextId) (u : VarId) :
    (allocVar g var).vars u =
      if u = g.nextId then some var
      else (g.vars u).map fun old => old.withClient var.varN u g.nextId := by
  cases hvarN : var.varN with
  | none => simp [allocVar, hvarN, Var.withClient]
  | some b =>
      have hne : g.nextId ≠ b := fun h => hb (by rw [hvarN, h])
      simp only [allocVar, hvarN, Option.elim_some, varRegisterClient, Graph.updateVar,
        Var.withClient]
      by_cases hub : u = b
      · subst hub
        simp [hne.symm]
      · have hbu : ¬ b = u := fun h => hub h.symm
        simp [hub, hbu]

theorem allocVar_nextId : (allocVar g var).nextId = g.nextId + 1 := by
  cases hvarN : var.varN <;> simp [allocVar, hvarN, varRegisterClient, Graph.updateVar]

theorem allocVar_members : (allocVar g var).members = g.members := by
  cases hvarN : var.varN <;> simp [allocVar, hvarN, varRegisterClient, Graph.updateVar]

theorem BoundFits.ne_nextId (hvalid : g.Valid E) (hbound : BoundFits E g var) :
    var.varN ≠ some g.nextId := by
  intro hvarN
  simp only [BoundFits, hvarN] at hbound
  obtain ⟨varN, hlive, -⟩ := hbound
  rw [hvalid.fresh g.nextId (Nat.le_refl _)] at hlive
  contradiction

theorem allocVar_vars_cases {w : Var} {u : VarId} (hb : var.varN ≠ some g.nextId)
    (h : (allocVar g var).vars u = some w) :
    (u = g.nextId ∧ w = var) ∨
      (u ≠ g.nextId ∧ ∃ old, g.vars u = some old ∧
        w = old.withClient var.varN u g.nextId) := by
  rw [allocVar_vars hb] at h
  split at h
  · next heq => exact Or.inl ⟨heq, (Option.some.inj h).symm⟩
  · next hne =>
      obtain ⟨old, hold, hw⟩ := Option.map_eq_some_iff.mp h
      exact Or.inr ⟨hne, old, hold, hw.symm⟩

theorem allocVar_vars_old {old : Var} {u : VarId} (hvalid : g.Valid E)
    (hb : var.varN ≠ some g.nextId) (h : g.vars u = some old) :
    (allocVar g var).vars u = some (old.withClient var.varN u g.nextId) := by
  have hne : u ≠ g.nextId := by
    rintro rfl
    rw [hvalid.fresh g.nextId (Nat.le_refl _)] at h
    contradiction
  rw [allocVar_vars hb, if_neg hne, h]
  rfl

theorem Graph.Valid.nextId_not_client (hvalid : g.Valid E) {b : VarId} {varN : Var}
    (hb : g.vars b = some varN) : g.nextId ∉ varN.varNClients := by
  intro hmem
  obtain ⟨var, hvar, -⟩ := hvalid.boundGraph.client hb hmem
  rw [hvalid.fresh g.nextId (Nat.le_refl _)] at hvar
  contradiction

theorem BoundGraph.alloc (hvalid : g.Valid E) (hclients : var.varNClients = [])
    (hbound : BoundFits E g var) : BoundGraph E.arrayBoundType (allocVar g var).vars := by
  have hne := hbound.ne_nextId hvalid
  constructor
  · intro v w b hv hb
    rcases allocVar_vars_cases hne hv with ⟨rfl, rfl⟩ | ⟨hvne, old, hold, rfl⟩
    · -- the new variable is registered at its bound
      simp only [BoundFits, hb] at hbound
      obtain ⟨varN, hvarN, hlevel, htype, hprio, -⟩ := hbound
      refine ⟨_, allocVar_vars_old hvalid hne hvarN, by simpa, by simpa, by simpa, ?_⟩
      have hnot := List.count_eq_zero.mpr (hvalid.nextId_not_client hvarN)
      rw [Var.withClient_clients, if_pos hb, List.count_append, hnot, List.count_singleton_self]
    · rw [Var.withClient_varN] at hb
      obtain ⟨varN, hvarN, hlevel, htype, hprio, hcount⟩ := hvalid.boundGraph.bound hold hb
      refine ⟨_, allocVar_vars_old hvalid hne hvarN, by simpa, by simpa, by simpa, ?_⟩
      rw [Var.withClient_clients]
      split
      · have hother : [g.nextId].count v = 0 := List.count_eq_zero.mpr (by simpa using hvne)
        rw [List.count_append, hcount, hother]
      · exact hcount
  · intro b w v hb hv
    rcases allocVar_vars_cases hne hb with ⟨rfl, rfl⟩ | ⟨hbne, old, hold, rfl⟩
    · rw [hclients] at hv
      exact absurd hv List.not_mem_nil
    · rw [Var.withClient_clients] at hv
      by_cases hnew : v = g.nextId
      · subst hnew
        have hreg : var.varN = some b := by
          by_contra hnot
          rw [if_neg hnot] at hv
          exact hvalid.nextId_not_client hold hv
        exact ⟨var, by rw [allocVar_vars hne, if_pos rfl], hreg⟩
      · have hv' : v ∈ old.varNClients := by
          split at hv
          · rcases List.mem_append.mp hv with hv | hv
            · exact hv
            · exact absurd (List.mem_singleton.mp hv) hnew
          · exact hv
        obtain ⟨cvar, hcvar, hcbound⟩ := hvalid.boundGraph.client hold hv'
        exact ⟨_, allocVar_vars_old hvalid hne hcvar, by simpa⟩

theorem Graph.Valid.create (hvalid : g.Valid E)
    (hnew : g.tryGetMember var.name = none) (hclients : var.varNClients = [])
    (hlevel : var.level = numPlaceholders var.name) (hbound : BoundFits E g var) :
    Graph.Valid E { allocVar g var with members := g.members ++ [.var var.name g.nextId] } := by
  have hne := hbound.ne_nextId hvalid
  constructor
  · exact BoundGraph.alloc hvalid hclients hbound
  · intro v hv
    have hle : g.nextId + 1 ≤ v := by
      have hnext : (allocVar g var).nextId = g.nextId + 1 := allocVar_nextId
      exact hnext ▸ hv
    change (allocVar g var).vars v = none
    rw [allocVar_vars hne, if_neg (Nat.ne_of_gt hle), hvalid.fresh v (Nat.le_of_succ_le hle)]
    rfl
  · intro v w hw
    rcases allocVar_vars_cases hne hw with ⟨-, rfl⟩ | ⟨-, old, hold, rfl⟩
    · exact hlevel
    · rw [Var.withClient_level, Var.withClient_name]
      exact hvalid.level_eq v old hold
  · intro name v hmem
    rcases List.mem_append.mp hmem with hmem | hmem
    · obtain ⟨old, hold, hname⟩ := hvalid.member_live name v hmem
      exact ⟨_, allocVar_vars_old hvalid hne hold, by simpa⟩
    · obtain ⟨rfl, rfl⟩ := ScopeMember.var.inj (List.mem_singleton.mp hmem)
      refine ⟨var, ?_, rfl⟩
      change (allocVar g var).vars g.nextId = some var
      rw [allocVar_vars hne, if_pos rfl]
  · intro v w hw
    rcases allocVar_vars_cases hne hw with ⟨rfl, rfl⟩ | ⟨-, old, hold, rfl⟩
    · exact List.mem_append_right _ List.mem_cons_self
    · rw [Var.withClient_name]
      exact List.mem_append_left _ (hvalid.live_member v old hold)
  · exact pairwise_concat_of_new hvalid.names hnew rfl

/-! ### Updates of a single variable -/

theorem Graph.Valid.setProps (hvalid : g.Valid E) (v : VarId) (props : VarProperties) :
    (g.updateVar v fun var => { var with props := props }).Valid E := by
  have hcases : ∀ {u : VarId} {w : Var},
      (g.updateVar v fun var => { var with props := props }).vars u = some w →
      ∃ old, g.vars u = some old ∧ w = { old with props := w.props } := by
    intro u w hw
    rcases Graph.updateVar_vars_cases hw with ⟨rfl, old, hold, rfl⟩ | ⟨-, hold⟩
    · exact ⟨old, hold, rfl⟩
    · exact ⟨w, hold, rfl⟩
  have hlive : ∀ {u : VarId} {old : Var}, g.vars u = some old →
      ∃ newProps, (g.updateVar v fun var => { var with props := props }).vars u =
        some { old with props := newProps } := by
    intro u old hold
    by_cases huv : u = v
    · subst huv
      exact ⟨props, Graph.updateVar_vars_self hold⟩
    · exact ⟨old.props, by rw [Graph.updateVar_vars_ne huv, hold]⟩
  constructor
  · constructor
    · intro u w b hu hb
      obtain ⟨old, hold, hw⟩ := hcases hu
      rw [hw] at hb ⊢
      obtain ⟨varN, hvarN, hlevel, htype, hprio, hcount⟩ := hvalid.boundGraph.bound hold hb
      obtain ⟨newProps, hnew⟩ := hlive hvarN
      exact ⟨_, hnew, hlevel, htype, hprio, hcount⟩
    · intro b w u hb hu
      obtain ⟨old, hold, hw⟩ := hcases hb
      rw [hw] at hu
      obtain ⟨cvar, hcvar, hcbound⟩ := hvalid.boundGraph.client hold hu
      obtain ⟨newProps, hnew⟩ := hlive hcvar
      exact ⟨_, hnew, hcbound⟩
  · intro u hu
    have hnone := hvalid.fresh u hu
    by_cases huv : u = v
    · subst huv
      simp [Graph.updateVar, hnone]
    · rw [Graph.updateVar_vars_ne huv, hnone]
  · intro u w hw
    obtain ⟨old, hold, hw'⟩ := hcases hw
    rw [hw']
    exact hvalid.level_eq u old hold
  · intro name u hmem
    obtain ⟨old, hold, hname⟩ := hvalid.member_live name u hmem
    obtain ⟨newProps, hnew⟩ := hlive hold
    exact ⟨_, hnew, hname⟩
  · intro u w hw
    obtain ⟨old, hold, hw'⟩ := hcases hw
    rw [hw']
    exact hvalid.live_member u old hold
  · exact hvalid.names

/-! ### Removing a variable -/

theorem orphanClients_vars (clients : List VarId) (u : VarId) :
    (orphanClients g clients).vars u =
      if u ∈ clients then (g.vars u).map fun var => { var with varN := none } else g.vars u := by
  induction clients generalizing g with
  | nil => rfl
  | cons client clients ih =>
      rw [orphanClients, List.foldl_cons, ← orphanClients, ih]
      by_cases hclient : u = client
      · subst hclient
        by_cases hmem : u ∈ clients
        · simp [hmem, Graph.updateVar, Function.comp_def]
        · simp [hmem, Graph.updateVar]
      · simp [hclient, Graph.updateVar_vars_ne hclient]

theorem orphanClients_members (clients : List VarId) :
    (orphanClients g clients).members = g.members := by
  induction clients generalizing g with
  | nil => rfl
  | cons client clients ih =>
      rw [orphanClients, List.foldl_cons, ← orphanClients, ih]
      rfl

theorem orphanClients_nextId (clients : List VarId) :
    (orphanClients g clients).nextId = g.nextId := by
  induction clients generalizing g with
  | nil => rfl
  | cons client clients ih =>
      rw [orphanClients, List.foldl_cons, ← orphanClients, ih]
      rfl

/-- A variable `u` after the variable `v` with the given links has been destroyed. -/
def Var.withoutLinksTo (old : Var) (u v : VarId) (var : Var) : Var :=
  { old with
    varN := if u ∈ var.varNClients then none else old.varN
    varNClients :=
      if var.varN = some u then old.varNClients.erase v else old.varNClients }

theorem varDestroy_vars (hv : g.vars v = some var) (u : VarId) :
    (varDestroy g v).vars u =
      if u = v then none else (g.vars u).map fun old => old.withoutLinksTo u v var := by
  simp only [varDestroy, hv]
  by_cases huv : u = v
  · simp [huv]
  · simp only [if_neg huv, orphanClients_vars]
    cases hvarN : var.varN with
    | none =>
        simp only [Option.elim_none, Var.withoutLinksTo, hvarN]
        split <;> cases g.vars u <;> simp
    | some b =>
        simp only [Option.elim_some, Var.withoutLinksTo, hvarN, varUnregisterClient]
        by_cases hub : u = b
        · subst hub
          split <;> simp [Graph.updateVar, Function.comp_def]
        · have hbu : ¬ b = u := fun h => hub h.symm
          rw [Graph.updateVar_vars_ne hub]
          split <;> cases g.vars u <;> simp [hbu]

theorem varDestroy_members (v : VarId) : (varDestroy g v).members = g.members := by
  unfold varDestroy
  split
  · rfl
  · simp only [orphanClients_members]
    cases Var.varN _ <;> rfl

theorem varDestroy_nextId (v : VarId) : (varDestroy g v).nextId = g.nextId := by
  unfold varDestroy
  split
  · rfl
  · simp only [orphanClients_nextId]
    cases Var.varN _ <;> rfl

theorem varDestroy_vars_cases {u : VarId} {w : Var} (hv : g.vars v = some var)
    (hw : (varDestroy g v).vars u = some w) :
    u ≠ v ∧ ∃ old, g.vars u = some old ∧ w = old.withoutLinksTo u v var := by
  rw [varDestroy_vars hv] at hw
  split at hw
  · contradiction
  · next huv =>
      obtain ⟨old, hold, rfl⟩ := Option.map_eq_some_iff.mp hw
      exact ⟨huv, old, hold, rfl⟩

theorem varDestroy_vars_ne {u : VarId} {old : Var} (hv : g.vars v = some var)
    (huv : u ≠ v) (hold : g.vars u = some old) :
    (varDestroy g v).vars u = some (old.withoutLinksTo u v var) := by
  rw [varDestroy_vars hv, if_neg huv, hold]
  rfl

theorem BoundGraph.destroy (hgraph : BoundGraph E.arrayBoundType g.vars) (hv : g.vars v = some var) :
    BoundGraph E.arrayBoundType (varDestroy g v).vars := by
  constructor
  · intro u w b hu hb
    obtain ⟨huv, old, hold, rfl⟩ := varDestroy_vars_cases hv hu
    have hnot : u ∉ var.varNClients := by
      intro hmem
      simp [Var.withoutLinksTo, hmem] at hb
    have hb' : old.varN = some b := by simpa [Var.withoutLinksTo, hnot] using hb
    obtain ⟨varN, hvarN, hlevel, htype, hprio, hcount⟩ := hgraph.bound hold hb'
    have hbv : b ≠ v := by
      -- a client of `v` would be an orphan
      rintro rfl
      obtain rfl : varN = var := Option.some.inj (hvarN.symm.trans hv)
      exact hnot (List.count_pos_iff.mp (by omega))
    refine ⟨_, varDestroy_vars_ne hv hbv hvarN, hlevel, htype, hprio, ?_⟩
    simp only [Var.withoutLinksTo]
    split
    · rw [List.count_erase_of_ne (fun h => huv h), hcount]
    · exact hcount
  · intro b w u hb hu
    obtain ⟨hbv, old, hold, rfl⟩ := varDestroy_vars_cases hv hb
    have hmem : u ∈ old.varNClients := by
      simp only [Var.withoutLinksTo] at hu
      split at hu
      · exact List.mem_of_mem_erase hu
      · exact hu
    obtain ⟨cvar, hcvar, hcbound⟩ := hgraph.client hold hmem
    have huv : u ≠ v := by
      -- `v` has been unregistered at its bound, where it occurred once
      rintro rfl
      obtain rfl : cvar = var := Option.some.inj (hcvar.symm.trans hv)
      obtain ⟨varN, hvarN, -, -, -, hcount⟩ := hgraph.bound hcvar hcbound
      obtain rfl : varN = old := Option.some.inj (hvarN.symm.trans hold)
      simp only [Var.withoutLinksTo, hcbound, if_true] at hu
      have hpos := List.count_pos_iff.mpr hu
      rw [List.count_erase_self] at hpos
      omega
    have hnot : u ∉ var.varNClients := by
      intro hclient
      obtain ⟨cvar', hcvar', hcbound'⟩ := hgraph.client hv hclient
      obtain rfl : cvar' = cvar := Option.some.inj (hcvar'.symm.trans hcvar)
      exact hbv (Option.some.inj (hcbound.symm.trans hcbound'))
    exact ⟨_, varDestroy_vars_ne hv huv hcvar, by simpa [Var.withoutLinksTo, hnot] using hcbound⟩

theorem Graph.Valid.member_unique (hvalid : g.Valid E) {a b : ScopeMember} (ha : a ∈ g.members)
    (hb : b ∈ g.members) (hsame : sameName a.name b.name = true) : a = b := by
  have : Std.Symm fun a b : ScopeMember => sameName a.name b.name = false := by
    constructor
    intro a b h
    rw [Bool.eq_false_iff] at h ⊢
    exact fun h' => h (sameName_symm h')
  by_contra hne
  have hdiffer := hvalid.names.forall ha hb hne
  rw [hsame] at hdiffer
  contradiction

theorem Graph.Valid.tryGetMember_name (hvalid : g.Valid E)
    (hv : g.vars v = some var) : g.tryGetMember var.name = some (.var var.name v) := by
  have hmem := hvalid.live_member v var hv
  cases hfound : g.tryGetMember var.name with
  | none =>
      have hnot := Graph.tryGetMember_eq_none hfound _ hmem
      simp [ScopeMember.name] at hnot
  | some member =>
      obtain ⟨hmember, hsame⟩ := Graph.tryGetMember_some hfound
      exact congrArg some (hvalid.member_unique hmember hmem hsame)

theorem Graph.Valid.varRemove_eq (hvalid : g.Valid E) (hv : g.vars v = some var) :
    varRemove g v = varDestroy { g with members := g.members.erase (.var var.name v) } v := by
  simp only [varRemove, hv, hvalid.tryGetMember_name hv, Option.elim_some, removeMember]

theorem varRemove_of_dead (hv : g.vars v = none) : varRemove g v = g := by
  simp only [varRemove, hv]

theorem Graph.Valid.varRemove_vars (hvalid : g.Valid E) (hv : g.vars v = some var) (u : VarId) :
    (varRemove g v).vars u =
      if u = v then none else (g.vars u).map fun old => old.withoutLinksTo u v var := by
  have hv' : ({ g with members := g.members.erase (.var var.name v) } : Graph).vars v =
      some var := hv
  rw [hvalid.varRemove_eq hv, varDestroy_vars hv']

theorem Graph.Valid.remove (hvalid : g.Valid E) (v : VarId) : (varRemove g v).Valid E := by
  cases hv : g.vars v with
  | none => rwa [varRemove_of_dead hv]
  | some var =>
      have hv' : ({ g with members := g.members.erase (.var var.name v) } : Graph).vars v =
        some var := hv
      have hnodup : g.members.Nodup :=
        hvalid.names.imp fun h heq => by rw [heq, sameName_refl] at h; contradiction
      rw [hvalid.varRemove_eq hv]
      constructor
      · exact BoundGraph.destroy hvalid.boundGraph hv'
      · intro u hu
        rw [varDestroy_nextId] at hu
        rw [varDestroy_vars hv']
        have hnone : g.vars u = none := hvalid.fresh u hu
        simp [hnone]
      · intro u w hw
        obtain ⟨-, old, hold, rfl⟩ := varDestroy_vars_cases hv' hw
        exact hvalid.level_eq u old hold
      · intro name u hmem
        rw [varDestroy_members] at hmem
        obtain ⟨hne, hmem⟩ := (List.Nodup.mem_erase_iff hnodup).mp hmem
        obtain ⟨old, hold, hname⟩ := hvalid.member_live name u hmem
        have huv : u ≠ v := by
          rintro rfl
          obtain rfl : old = var := Option.some.inj (hold.symm.trans hv)
          exact hne (by rw [hname])
        exact ⟨_, varDestroy_vars_ne hv' huv hold, hname⟩
      · intro u w hw
        obtain ⟨huv, old, hold, rfl⟩ := varDestroy_vars_cases hv' hw
        rw [varDestroy_members]
        refine (List.Nodup.mem_erase_iff hnodup).mpr ⟨?_, hvalid.live_member u old hold⟩
        intro heq
        exact huv (ScopeMember.var.inj heq).2
      · rw [varDestroy_members]
        exact hvalid.names.sublist List.erase_sublist

theorem GraphMove.valid {R : Graph → VarId → Prop} {P : Graph → VarId → VarProperties → Prop}
    (h : GraphMove E R P g g') (hvalid : g.Valid E) : g'.Valid E := by
  cases h with
  | burn =>
      exact { hvalid with fresh := fun v hv => hvalid.fresh v (Nat.le_of_succ_le hv) }
  | create hnew hclients hlevel hbound => exact hvalid.create hnew hclients hlevel hbound
  | replaceProps hvar hallowed hclients => exact hvalid.setProps _ _
  | remove hallowed => exact hvalid.remove _
  | addTemplate tmpl hnew =>
      refine { hvalid with
        member_live := ?_
        live_member := fun v var hv => List.mem_append_left _ (hvalid.live_member v var hv)
        names := pairwise_concat_of_new hvalid.names hnew rfl }
      intro name v hmem
      rcases List.mem_append.mp hmem with hmem | hmem
      · exact hvalid.member_live name v hmem
      · exact nomatch List.mem_singleton.mp hmem

end moves

end Mkfli4l
