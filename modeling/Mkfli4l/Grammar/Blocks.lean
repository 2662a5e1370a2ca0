import Mkfli4l.Lib.Lockstep
import Mkfli4l.Grammar.Notation

/-!
# Nested blocks of assignments

What nested blocks mean is said by flattening them.  Every assignment of a tree becomes an
assignment of its own, with the indices of all blocks around it.  An index `[]` of a block is
the same unknown in all assignments of that block.  It becomes known when the first of them
that names a variable is processed, as the next free index of that variable at this time.

The reader works with copies instead: the indices of a block are copied when an assignment
inside is entered, and the part that belongs to the block is copied back when it is left.
`Matches` relates the copies to the unknowns.
-/

namespace Mkfli4l

open Lib

/-! ### Flattening -/

/-- An index `[]`: where the target stands in the tree, and the position among its indices. -/
structure BlockIndex where
  node : List Nat
  position : Nat
deriving DecidableEq, Repr

/-- An index of a flat assignment. -/
inductive FlatIndex
  | absolute (number : UInt32)
  | block (id : BlockIndex)
deriving DecidableEq, Repr

/-- An assignment with the indices of the blocks around it. -/
structure FlatAssignment where
  varName : CString
  indices : List FlatIndex
  value : CString
  priority : Priority
deriving DecidableEq, Repr

/-- The indices of a target at a place of the tree. -/
def flatIndices (node : List Nat) (brackets : List VarassIndex) : List FlatIndex :=
  brackets.mapIdx fun position index =>
    match index with
    | .absolute number => .absolute number
    | .nextFree => .block ⟨node, position⟩

/-- The name and the indices of a target inside a block. -/
def flatTargetPart (node : List Nat) (target : VarassTarget) (name : CString)
    (indices : List FlatIndex) : CString × List FlatIndex :=
  ((configProcessTargetPart target (name, [])).1,
    indices ++ flatIndices node (target.pieces.filterMap TargetPiece.index?))

/-- An assignment without a value is only a block. -/
def flatOwn (part : CString × List FlatIndex) (priority : Priority) :
    Option CString → List FlatAssignment
  | none => []
  | some value => [⟨part.1, part.2, value, priority⟩]

mutual

/-- The assignments of a tree. -/
def flattenAssignment :
    Varass → List Nat → CString → List FlatIndex → List FlatAssignment
  | .mk target value priority nested, node, name, indices =>
      let part := flatTargetPart node target name indices
      flatOwn part priority value ++ flattenBlock nested node 0 part.1 part.2

/-- The assignments of a block, from the given child on. -/
def flattenBlock :
    List Varass → List Nat → Nat → CString → List FlatIndex → List FlatAssignment
  | [], _, _, _, _ => []
  | ass :: rest, node, child, name, indices =>
      flattenAssignment ass (node ++ [child]) name indices ++
        flattenBlock rest node (child + 1) name indices

end

/-! ### Processing flat assignments -/

/-- How an index `[]` became known: the variable and the indices before it, the index, how many
values had been set before, and whether setting the value was successful. -/
structure Resolution where
  var : VarId
  before : List UInt32
  index : UInt32
  time : Nat
  accepted : Bool
deriving DecidableEq, Repr

/-- The indices that are known. -/
abbrev BlockEnv := BlockIndex → Option Resolution

/-- The value of an index, given the indices before it. -/
def FlatIndex.resolve (s : Slots) (var : Var) (v : VarId) (env : BlockEnv) (done : List UInt32) :
    FlatIndex → UInt32
  | absolute number => number - 1
  | block id =>
      match env id with
      | some r => r.index
      | none => varInstanceGetNextFreeIndex s var ⟨v, done⟩

/-- The values of the indices of a flat assignment. -/
def resolveFlat (s : Slots) (var : Var) (v : VarId) (env : BlockEnv) :
    List UInt32 → List FlatIndex → List UInt32
  | done, [] => done
  | done, f :: rest => resolveFlat s var v env (done ++ [f.resolve s var v env done]) rest

/-- The indices that become known when an assignment is processed. -/
def BlockEnv.record (env : BlockEnv) (v : VarId) (indices : List FlatIndex)
    (realIndices : List UInt32) (time : Nat) (accepted : Bool) : BlockEnv := fun id =>
  match env id with
  | some r => some r
  | none =>
      match indices.idxOf? (.block id) with
      | none => none
      | some k => (realIndices[k]?).map fun i => ⟨v, realIndices.take k, i, time, accepted⟩

namespace ConfigReader

variable (R : ConfigReader)

/-- Process a flat assignment. -/
def processFlat (a : FlatAssignment) (env : BlockEnv) : R.ConfigExec (Bool × BlockEnv) := do
  let found ← R.varTryGet a.varName
  match found with
  | none => do
      let inst ← R.varInstanceCreateFromString a.varName
      match inst with
      | none => pure (false, env)
      | some inst => do
          let ok ← R.varInstanceSetValue inst a.value a.priority
          pure (ok, env)
  | some v => do
      let st ← get
      match st.graph.vars v with
      | none => throw .nullPointer
      | some var => do
          let realIndices := resolveFlat st.slots var v env [] a.indices
          let ok ← R.varInstanceSetValue ⟨v, realIndices⟩ a.value a.priority
          pure (ok, env.record v a.indices realIndices st.writes.length ok)

/-- Process flat assignments one after another. -/
def processFlats : List FlatAssignment → BlockEnv → R.ConfigExec (Bool × BlockEnv)
  | [], env => pure (true, env)
  | a :: rest, env => do
      let first ← R.processFlat a env
      let others ← processFlats rest first.2
      pure (first.1 && others.1, others.2)

end ConfigReader

/-! ### Copies and unknowns -/

/-- The copy of an index stands for the index of the flat assignment. -/
def Matches (env : BlockEnv) (e : VarassEvalIndex) : FlatIndex → Prop
  | .absolute number => e.index = .absolute number ∧
      (e.absIndex = none ∨ e.absIndex = some (number - 1))
  | .block id => e.index = .nextFree ∧ e.absIndex = (env id).map Resolution.index

/-- No unknown occurs twice. -/
def BlocksDistinct (indices : List FlatIndex) : Prop :=
  ∀ (i j : Nat) (id : BlockIndex), indices[i]? = some (.block id) →
    indices[j]? = some (.block id) → i = j

variable {indices : List VarassEvalIndex} {flat : List FlatIndex} {id : BlockIndex} {node : List Nat}

section matching

variable {s : Slots} {var : Var} {v : VarId} {env : BlockEnv}

theorem Matches.resolve_eq {e : VarassEvalIndex} {f : FlatIndex} (h : Matches env e f)
    (done : List UInt32) : e.resolve s var v done = f.resolve s var v env done := by
  obtain ⟨index, absIndex⟩ := e
  cases f with
  | absolute number =>
      obtain ⟨rfl, rfl | rfl⟩ := h <;> rfl
  | block id =>
      obtain ⟨rfl, rfl⟩ := h
      cases hid : env id with
      | none => simp [VarassEvalIndex.resolve, FlatIndex.resolve, hid]
      | some r => simp [VarassEvalIndex.resolve, FlatIndex.resolve, hid]

theorem resolveIndices_eq_resolveFlat
    (h : List.Forall₂ (Matches env) indices flat) (done : List UInt32) :
    resolveIndices s var v done indices = resolveFlat s var v env done flat := by
  induction h generalizing done with
  | nil => rfl
  | cons hhead htail ih =>
      rw [resolveIndices, resolveFlat, hhead.resolve_eq]
      exact ih _

theorem resolveFlat_spec (flat : List FlatIndex) (done : List UInt32) :
    ∃ real, resolveFlat s var v env done flat = done ++ real ∧ real.length = flat.length ∧
      ∀ (k : Nat) (f : FlatIndex), flat[k]? = some f →
        real[k]? = some (f.resolve s var v env (done ++ real.take k)) := by
  induction flat generalizing done with
  | nil => exact ⟨[], by simp [resolveFlat], rfl, by simp⟩
  | cons f flat ih =>
      obtain ⟨real, hreal, hlength, hvalue⟩ := ih (done ++ [f.resolve s var v env done])
      refine ⟨f.resolve s var v env done :: real, by simp [resolveFlat, hreal], by simp [hlength],
        ?_⟩
      intro k f' hf'
      cases k with
      | zero =>
          obtain rfl : f = f' := by simpa using hf'
          simp
      | succ k => simpa using hvalue k f' (by simpa using hf')

theorem idxOf?_block (h : BlocksDistinct flat) {k : Nat}
    (hk : flat[k]? = some (.block id)) : flat.idxOf? (.block id) = some k := by
  obtain ⟨hlt, hget⟩ := List.getElem?_eq_some_iff.mp hk
  refine List.idxOf?_eq_some_iff.mpr ⟨hlt, hget, ?_⟩
  intro j hj hsame
  have hjk : flat[j]? = some (.block id) :=
    List.getElem?_eq_some_iff.mpr ⟨hj.trans hlt, hsame⟩
  exact absurd (h j k id hjk hk) hj.ne

theorem forall₂_matches_record
    (h : List.Forall₂ (Matches env) indices flat) (hdistinct : BlocksDistinct flat) (time : Nat)
    (accepted : Bool) :
    List.Forall₂
      (Matches (env.record v flat (resolveFlat s var v env [] flat) time accepted))
      (markResolved indices (resolveFlat s var v env [] flat)) flat := by
  obtain ⟨real, hreal, hlength, hvalue⟩ : ∃ real, resolveFlat s var v env [] flat = [] ++ real ∧
      real.length = flat.length ∧ ∀ (k : Nat) (f : FlatIndex), flat[k]? = some f →
        real[k]? = some (f.resolve s var v env ([] ++ real.take k)) := resolveFlat_spec flat []
  rw [hreal, List.nil_append]
  obtain ⟨hsame, hmatches⟩ := List.forall₂_iff_get.mp h
  refine List.forall₂_iff_get.mpr ⟨by simp [markResolved, hsame, hlength], ?_⟩
  intro k hk hkflat
  have hke : k < indices.length := hsame ▸ hkflat
  have hkreal : k < real.length := hlength ▸ hkflat
  have hmatch := hmatches k hke hkflat
  have hget : flat[k]? = some (flat.get ⟨k, hkflat⟩) := List.getElem?_eq_getElem hkflat
  have hval := hvalue k _ hget
  rw [List.getElem?_eq_getElem hkreal, Option.some.injEq, List.nil_append] at hval
  have hcopy : (markResolved indices real).get ⟨k, hk⟩ =
      ⟨(indices.get ⟨k, hke⟩).index, some real[k]⟩ := by
    simp [markResolved]
  rw [hcopy, hval]
  generalize flat.get ⟨k, hkflat⟩ = f at *
  cases f with
  | absolute number => exact ⟨hmatch.1, Or.inr rfl⟩
  | block id =>
      refine ⟨hmatch.1, ?_⟩
      cases hid : env id with
      | some r => simp [BlockEnv.record, FlatIndex.resolve, hid]
      | none =>
          rw [BlockEnv.record, hid, idxOf?_block hdistinct hget]
          simp [List.getElem?_eq_getElem hkreal, hval]

theorem record_eq_of_not_mem {real : List UInt32} {time : Nat}
    {accepted : Bool} (h : FlatIndex.block id ∉ flat) :
    env.record v flat real time accepted id = env id := by
  unfold BlockEnv.record
  cases env id with
  | some r => rfl
  | none => simp [List.idxOf?_eq_none_iff.mpr h]

end matching

/-! ### The reader and the flat assignments -/

/-- The outcome of the reader, the indices of the block, and the outcome of the flat assignments,
what is known then.  Apart from the unknowns of the block, only those with `inside` may have become
known. -/
structure Agree (flat : List FlatIndex) (env : BlockEnv) (inside : BlockIndex → Prop)
    (a : Bool × List VarassEvalIndex) (b : Bool × BlockEnv) : Prop where
  ok_eq : a.1 = b.1
  matches_env : List.Forall₂ (Matches b.2) a.2 flat
  kept : ∀ id, ¬ inside id → FlatIndex.block id ∉ flat → b.2 id = env id

theorem flatIndices_getElem? {brackets : List VarassIndex} {k : Nat}
    (h : (flatIndices node brackets)[k]? = some (.block id)) : id = ⟨node, k⟩ := by
  unfold flatIndices at h
  rw [List.getElem?_mapIdx] at h
  obtain ⟨index, -, hindex⟩ := Option.map_eq_some_iff.mp h
  cases index with
  | absolute number => contradiction
  | nextFree => exact (FlatIndex.block.inj hindex).symm

theorem mem_flatIndices {brackets : List VarassIndex}
    (h : FlatIndex.block id ∈ flatIndices node brackets) : id.node = node := by
  obtain ⟨k, hk⟩ := List.mem_iff_getElem?.mp h
  rw [flatIndices_getElem? hk]

theorem BlocksDistinct.append {flat' : List FlatIndex} (h : BlocksDistinct flat)
    (h' : BlocksDistinct flat')
    (hdisjoint : ∀ id, FlatIndex.block id ∈ flat → FlatIndex.block id ∉ flat') :
    BlocksDistinct (flat ++ flat') := by
  intro i j id hi hj
  rw [List.getElem?_append] at hi hj
  split at hi
  · split at hj
    · exact h i j id hi hj
    · exact absurd (List.mem_of_getElem? hj) (hdisjoint id (List.mem_of_getElem? hi))
  · split at hj
    · exact absurd (List.mem_of_getElem? hi) (hdisjoint id (List.mem_of_getElem? hj))
    · have := h' _ _ id hi hj
      omega

theorem forall₂_matches_flatIndices {env : BlockEnv}
    (hfresh : ∀ position, env ⟨node, position⟩ = none) (brackets : List VarassIndex) :
    List.Forall₂ (Matches env) (brackets.map fun index => ⟨index, none⟩)
      (flatIndices node brackets) := by
  refine List.forall₂_iff_get.mpr ⟨by simp [flatIndices], ?_⟩
  intro k hk hk'
  have hkb : k < brackets.length := by simpa using hk
  have hindex : (flatIndices node brackets).get ⟨k, hk'⟩ =
      match brackets[k] with
      | .absolute number => .absolute number
      | .nextFree => .block ⟨node, k⟩ := by
    simp [flatIndices]
  rw [hindex]
  have hcopy : (brackets.map fun index => (⟨index, none⟩ : VarassEvalIndex)).get ⟨k, hk⟩ =
      ⟨brackets[k], none⟩ := by simp
  rw [hcopy]
  cases brackets[k] with
  | absolute number => exact ⟨rfl, Or.inl rfl⟩
  | nextFree => exact ⟨rfl, by simp [hfresh k]⟩

theorem configProcessTargetPart_fst (t : VarassTarget) (name : CString)
    (indices : List VarassEvalIndex) :
    (configProcessTargetPart t (name, indices)).1 = (configProcessTargetPart t (name, [])).1 := by
  induction t with
  | topLevel id => cases id <;> rfl
  | structMember parent member ih => simp only [configProcessTargetPart, ih]
  | arrayMember parent index ih => simp only [configProcessTargetPart, ih]

theorem not_child_isPrefix (node : List Nat) (child : Nat) : ¬ node ++ [child] <+: node := by
  intro h
  have := h.length_le
  simp at this

namespace ConfigReader

variable {R : ConfigReader} {env : BlockEnv}

theorem lockstep_single {varName value : CString}
    {priority : Priority} (h : List.Forall₂ (Matches env) indices flat)
    (hdistinct : BlocksDistinct flat) :
    Exec.Lockstep (Agree flat env fun _ => False)
      (R.configProcessSingleAssignment varName indices value priority)
      (R.processFlat ⟨varName, flat, value, priority⟩ env) := by
  unfold configProcessSingleAssignment configCreateVarInstance processFlat
  rw [bind_assoc]
  refine Exec.Lockstep.bind_same _ fun found => ?_
  cases found with
  | none =>
      simp only [bind_assoc, pure_bind]
      refine Exec.Lockstep.bind_same _ fun inst => ?_
      cases inst with
      | none => exact Exec.Lockstep.pure ⟨rfl, h, fun _ _ _ => rfl⟩
      | some inst =>
          refine Exec.Lockstep.bind_same _ fun ok => ?_
          exact Exec.Lockstep.pure ⟨rfl, h, fun _ _ _ => rfl⟩
  | some v =>
      simp only [bind_assoc]
      refine Exec.Lockstep.bind_same _ fun st => ?_
      cases st.graph.vars v with
      | none => exact Exec.Lockstep.throw _
      | some var =>
          simp only [pure_bind, resolveIndices_eq_resolveFlat h]
          refine Exec.Lockstep.bind_same _ fun ok => ?_
          exact Exec.Lockstep.pure ⟨rfl, forall₂_matches_record h hdistinct _ ok,
            fun id _ hid => record_eq_of_not_mem hid⟩

theorem lockstep_own {name : CString}
    {priority : Priority} (h : List.Forall₂ (Matches env) indices flat)
    (hdistinct : BlocksDistinct flat) (value : Option CString) :
    Exec.Lockstep (Agree flat env fun _ => False) (R.processOwnValue name indices priority value)
      (R.processFlats (flatOwn (name, flat) priority value) env) := by
  cases value with
  | none => exact Exec.Lockstep.pure ⟨rfl, h, fun _ _ _ => rfl⟩
  | some value =>
      have hbind : R.processOwnValue name indices priority (some value) =
          (R.configProcessSingleAssignment name indices value priority >>= pure) := by
        rw [bind_pure]
        rfl
      rw [hbind]
      refine (lockstep_single h hdistinct).bind fun a b hab => ?_
      simp only [processFlats, pure_bind, Bool.and_true]
      exact Exec.Lockstep.pure hab

theorem processFlats_append (l l' : List FlatAssignment) (env : BlockEnv) :
    R.processFlats (l ++ l') env = (do
      let first ← R.processFlats l env
      let others ← R.processFlats l' first.2
      pure (first.1 && others.1, others.2)) := by
  induction l generalizing env with
  | nil => simp [processFlats]
  | cons a l ih => simp [processFlats, ih, bind_assoc, Bool.and_assoc]

mutual

/-- Processing an assignment with everything inside. -/
theorem lockstep_assignment (ass : Varass) {node : List Nat} {name : CString}
    {indices : List VarassEvalIndex} {flat : List FlatIndex} {env : BlockEnv}
    (h : List.Forall₂ (Matches env) indices flat) (hdistinct : BlocksDistinct flat)
    (houter : ∀ id, FlatIndex.block id ∈ flat → ¬ node <+: id.node)
    (hfresh : ∀ id : BlockIndex, node <+: id.node → env id = none) :
    Exec.Lockstep (Agree flat env fun id => node <+: id.node)
      (R.configProcessSingleAssignmentAndNestedAssignments ass name indices)
      (R.processFlats (flattenAssignment ass node name flat) env) := by
  match ass with
  | .mk target value priority nested =>
      -- the unknowns of this assignment come on top of those of the block
      let own := flatIndices node (target.pieces.filterMap TargetPiece.index?)
      have hown : BlocksDistinct own := by
        intro i j id hi hj
        have hij := (flatIndices_getElem? hi).symm.trans (flatIndices_getElem? hj)
        exact congrArg BlockIndex.position hij
      have hmatch : List.Forall₂ (Matches env) (configProcessTargetPart target (name, indices)).2
          (flat ++ own) := by
        rw [configProcessTargetPart_indices]
        exact List.rel_append h
          (forall₂_matches_flatIndices (fun _ => hfresh _ List.prefix_rfl) _)
      have hall : BlocksDistinct (flat ++ own) := by
        refine hdistinct.append hown fun id hid hmem => houter id hid ?_
        rw [mem_flatIndices hmem]
      have hinner : ∀ id, FlatIndex.block id ∈ flat ++ own → ∀ child,
          ¬ node ++ [child] <+: id.node := by
        intro id hid child hchild
        rcases List.mem_append.mp hid with hid | hid
        · exact houter id hid ((List.prefix_append node [child]).trans hchild)
        · rw [mem_flatIndices hid] at hchild
          exact not_child_isPrefix node child hchild
      unfold configProcessSingleAssignmentAndNestedAssignments flattenAssignment
      simp only [flatTargetPart, configProcessTargetPart_fst target name indices]
      rw [processFlats_append]
      refine (lockstep_own hmatch hall value).bind fun a b hab => ?_
      refine (lockstep_block nested hab.matches_env hall hinner ?_).bind fun a' b' hab' => ?_
      · intro child _ id hid
        rw [hab.kept id not_false fun hmem => hinner id hmem child hid]
        exact hfresh id ((List.prefix_append node [child]).trans hid)
      · refine Exec.Lockstep.pure ⟨?_, ?_, ?_⟩
        · rw [hab.ok_eq, hab'.ok_eq]
        · rw [h.length_eq]
          exact List.forall₂_take_append _ _ _ hab'.matches_env
        · intro id hid hmem
          have hnot : FlatIndex.block id ∉ flat ++ own := by
            rw [List.mem_append, not_or]
            refine ⟨hmem, fun hown => hid ?_⟩
            rw [mem_flatIndices hown]
          rw [hab'.kept id ?_ hnot, hab.kept id not_false hnot]
          rintro ⟨child, -, hchild⟩
          exact hid ((List.prefix_append node [child]).trans hchild)

theorem lockstep_block (asses : List Varass) {node : List Nat} {child : Nat} {name : CString}
    {indices : List VarassEvalIndex} {flat : List FlatIndex} {env : BlockEnv}
    (h : List.Forall₂ (Matches env) indices flat) (hdistinct : BlocksDistinct flat)
    (houter : ∀ id, FlatIndex.block id ∈ flat → ∀ child, ¬ node ++ [child] <+: id.node)
    (hfresh : ∀ k, child ≤ k → ∀ id : BlockIndex, node ++ [k] <+: id.node → env id = none) :
    Exec.Lockstep (Agree flat env fun id => ∃ k, child ≤ k ∧ node ++ [k] <+: id.node)
      (R.configProcessNestedAssignments asses name indices)
      (R.processFlats (flattenBlock asses node child name flat) env) := by
  match asses with
  | [] =>
      unfold configProcessNestedAssignments flattenBlock
      exact Exec.Lockstep.pure ⟨rfl, h, fun _ _ _ => rfl⟩
  | ass :: rest =>
      unfold configProcessNestedAssignments flattenBlock
      rw [processFlats_append]
      refine (lockstep_assignment ass h hdistinct (fun id hid => houter id hid child)
        (hfresh child (Nat.le_refl child))).bind fun a b hab => ?_
      refine (lockstep_block rest hab.matches_env hdistinct houter ?_).bind fun a' b' hab' => ?_
      · intro k hk id hid
        have hnot : ¬ node ++ [child] <+: id.node := by
          intro hchild
          have heq : node ++ [child] = node ++ [k] :=
            (List.prefix_of_prefix_length_le hchild hid (by simp)).eq_of_length (by simp)
          have hck : child = k := by simpa using heq
          omega
        rw [hab.kept id hnot fun hmem => houter id hmem k hid]
        exact hfresh k (by omega) id hid
      · refine Exec.Lockstep.pure ⟨?_, hab'.matches_env, ?_⟩
        · rw [hab.ok_eq, hab'.ok_eq]
        · intro id hid hmem
          rw [hab'.kept id ?_ hmem, hab.kept id ?_ hmem]
          · exact fun hchild => hid ⟨child, Nat.le_refl child, hchild⟩
          · rintro ⟨k, hk, hchild⟩
            exact hid ⟨k, by omega, hchild⟩

end

theorem configProcessAssignments_eq (tree : VarassParseTree) :
    R.configProcessAssignments tree = (do
      let result ← R.processFlats (flattenBlock tree.assignments [] 0 [] []) fun _ => none
      pure (result.1 && tree.ok)) := by
  refine Exec.Lockstep.eq ?_
  unfold configProcessAssignments
  have hblock : Exec.Lockstep
      (Agree [] (fun _ => none) fun id => ∃ k, 0 ≤ k ∧ [] ++ [k] <+: id.node)
      (R.configProcessNestedAssignments tree.assignments [] [])
      (R.processFlats (flattenBlock tree.assignments [] 0 [] []) fun _ => none) :=
    lockstep_block tree.assignments List.Forall₂.nil (fun _ _ _ h => by simp at h)
      (fun _ h => nomatch h) fun _ _ _ _ => rfl
  refine hblock.bind fun a b hab => ?_
  exact Exec.Lockstep.pure (by rw [hab.ok_eq])

end ConfigReader
end Mkfli4l
