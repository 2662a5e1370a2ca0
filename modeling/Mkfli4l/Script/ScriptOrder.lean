import Mkfli4l.Lib.LinkedList
import Mkfli4l.Script.Services

/-!
# The order of the check scripts

The parse tree is a linked list of scripts behind the header `parse_tree`.  Before they are
executed, `reorder_check_scripts` (`tree.c`) moves the script of the package `base` to the front
and that of the package `circuits` to the end, by relinking the nodes.

The three loops run through the list; the last theorem says that they come to an end, and in which
order they leave the scripts behind.
-/

namespace Mkfli4l
namespace Script

open Lib Function

def pkgBase : CString := "base".toList

def pkgCircuits : CString := "circuits".toList

/-- What the nodes of the parse tree have apart from the field `next`. -/
structure TreeNodes (Node : Type) where
  /-- The header. -/
  parseTree : Node
  isScript : Node → Bool
  package : Node → CString

section Code

variable {Node : Type} [DecidableEq Node] (T : TreeNodes Node)

/-- The test of the first and the last loop. -/
def TreeNodes.isScriptOf (node : Node) (package : CString) : Bool :=
  T.isScript node && T.package node == package

/-- The loop that looks for the script of `base` and moves it to the front. -/
def moveBaseFirst : ℕ → Node → Node → (Node → Option Node) → Option (Node → Option Node)
  | 0, _, _, _ => none
  | rounds + 1, previous, node, next =>
      match next node with
      | none => some next
      | some node =>
          if T.isScriptOf node pkgBase then
            let next := update next previous (next node)
            let next := update next node (next T.parseTree)
            some (update next T.parseTree (some node))
          else moveBaseFirst rounds node node next

/-- The loop that looks for the last script. -/
def findLast : ℕ → Node → Node → (Node → Option Node) → Option Node
  | 0, _, _, _ => none
  | rounds + 1, previous, node, next =>
      match next node with
      | none => some previous
      | some node => findLast rounds node node next

/-- The loop that looks for the script of `circuits` and moves it to the end. -/
def moveCircuitsLast (last : Node) :
    ℕ → Node → Node → (Node → Option Node) → Option (Node → Option Node)
  | 0, _, _, _ => none
  | rounds + 1, previous, node, next =>
      match next node with
      | none => some next
      | some node =>
          if T.isScriptOf node pkgCircuits then
            let next := update next previous (next node)
            let last := if next previous = none then previous else last
            let next := update next node none
            some (update next last (some node))
          else moveCircuitsLast last rounds node node next

/-- `reorder_check_scripts`, with a number of rounds for each of its loops. -/
def reorderCheckScripts (rounds : ℕ) (next : Node → Option Node) : Option (Node → Option Node) := do
  let next ← moveBaseFirst T rounds T.parseTree T.parseTree next
  let last ← findLast rounds T.parseTree T.parseTree next
  moveCircuitsLast T last rounds T.parseTree T.parseTree next

end Code

/-! ## Moving an element of a list -/

/-- The first element with a property is moved to the front. -/
def bringFirst {α : Type} (p : α → Bool) : List α → List α → List α
  | d, [] => d
  | d, a :: rest => if p a then a :: (d ++ rest) else bringFirst p (d ++ [a]) rest

/-- The first element with a property is moved to the end. -/
def bringLast {α : Type} (p : α → Bool) : List α → List α → List α
  | d, [] => d
  | d, a :: rest => if p a then d ++ rest ++ [a] else bringLast p (d ++ [a]) rest

section Moving

variable {α : Type} {p q : α → Bool} {d rest : List α} {a : α}

theorem bringFirst_perm : (bringFirst p d rest).Perm (d ++ rest) := by
  induction rest generalizing d with
  | nil => simp [bringFirst]
  | cons b rest ih =>
      unfold bringFirst
      split
      · exact List.perm_middle.symm
      · simpa using ih (d := d ++ [b])

theorem bringLast_perm : (bringLast p d rest).Perm (d ++ rest) := by
  induction rest generalizing d with
  | nil => simp [bringLast]
  | cons b rest ih =>
      unfold bringLast
      split
      · exact (List.perm_append_singleton b (d ++ rest)).trans List.perm_middle.symm
      · simpa using ih (d := d ++ [b])

theorem filter_bringFirst (hq : ∀ x, p x = true → q x = false) :
    (bringFirst p d rest).filter q = (d ++ rest).filter q := by
  induction rest generalizing d with
  | nil => simp [bringFirst]
  | cons b rest ih =>
      unfold bringFirst
      split
      · next hb => simp [hq b hb]
      · rw [ih]
        simp

theorem filter_bringLast (hq : ∀ x, p x = true → q x = false) :
    (bringLast p d rest).filter q = (d ++ rest).filter q := by
  induction rest generalizing d with
  | nil => simp [bringLast]
  | cons b rest ih =>
      unfold bringLast
      split
      · next hb => simp [hq b hb]
      · rw [ih]
        simp

theorem head?_bringFirst (ha : a ∈ rest) (hp : p a = true) :
    ∃ b ∈ rest, p b = true ∧ (bringFirst p d rest).head? = some b := by
  induction rest generalizing d with
  | nil => exact nomatch ha
  | cons b rest ih =>
      unfold bringFirst
      by_cases hb : p b = true
      · rw [if_pos hb]
        exact ⟨b, List.mem_cons_self, hb, rfl⟩
      · rw [if_neg hb]
        have hrest : a ∈ rest := List.mem_of_ne_of_mem (fun heq : a = b => hb (heq ▸ hp)) ha
        obtain ⟨c, hc, hpc, hhead⟩ := ih (d := d ++ [b]) hrest
        exact ⟨c, List.mem_cons_of_mem _ hc, hpc, hhead⟩

theorem getLast?_bringLast (ha : a ∈ rest) (hp : p a = true) :
    ∃ b ∈ rest, p b = true ∧ (bringLast p d rest).getLast? = some b := by
  induction rest generalizing d with
  | nil => exact nomatch ha
  | cons b rest ih =>
      unfold bringLast
      by_cases hb : p b = true
      · rw [if_pos hb]
        exact ⟨b, List.mem_cons_self, hb, List.getLast?_concat⟩
      · rw [if_neg hb]
        have hrest : a ∈ rest := List.mem_of_ne_of_mem (fun heq : a = b => hb (heq ▸ hp)) ha
        obtain ⟨c, hc, hpc, hlast⟩ := ih (d := d ++ [b]) hrest
        exact ⟨c, List.mem_cons_of_mem _ hc, hpc, hlast⟩

theorem head?_bringLast (ha : (d ++ rest).head? = some a) (hp : p a = false) :
    (bringLast p d rest).head? = some a := by
  induction rest generalizing d with
  | nil => simpa [bringLast] using ha
  | cons b rest ih =>
      unfold bringLast
      split
      · next hb =>
          cases d with
          | nil =>
              obtain rfl : b = a := Option.some.inj ha
              rw [hp] at hb
              contradiction
          | cons c d => exact ha
      · exact ih (by simpa using ha)

end Moving

/-! ## The loops -/

section Loops

variable {Node : Type} [DecidableEq Node] {T : TreeNodes Node} {next : Node → Option Node}
  {d rest : List Node} {node : Node} {rounds : ℕ}

/-- The nodes from the header on. -/
def TreeNodes.Scripts (T : TreeNodes Node) (next : Node → Option Node) (scripts : List Node) :
    Prop := Segment next (some T.parseTree) (T.parseTree :: scripts) none

omit [DecidableEq Node] in
theorem exists_front (hnode : (T.parseTree :: d).getLast? = some node) :
    ∃ front, ∀ rest, T.parseTree :: (d ++ rest) = front ++ node :: rest := by
  obtain ⟨front, hfront⟩ := List.getLast?_eq_some_iff.mp hnode
  refine ⟨front, fun rest => ?_⟩
  rw [← List.cons_append, hfront]
  simp

omit [DecidableEq Node] in
theorem TreeNodes.Scripts.next_last (h : T.Scripts next (d ++ rest))
    (hnode : (T.parseTree :: d).getLast? = some node) : next node = rest.head? := by
  obtain ⟨front, hsplit⟩ := exists_front hnode
  unfold TreeNodes.Scripts at h
  rw [hsplit] at h
  have hrest := h.next_of_append
  cases rest with
  | nil => exact hrest
  | cons a rest => exact hrest.1

theorem TreeNodes.Scripts.unlink {a : Node} (h : T.Scripts next (d ++ a :: rest))
    (hnode : (T.parseTree :: d).getLast? = some node) :
    T.Scripts (update next node (next a)) (d ++ rest) ∧
      a ∉ T.parseTree :: (d ++ rest) := by
  have hnodup := Segment.nodup h
  obtain ⟨front, hsplit⟩ := exists_front hnode
  refine ⟨?_, fun hmem => ?_⟩
  · unfold TreeNodes.Scripts at h ⊢
    rw [hsplit] at h hnodup ⊢
    exact Segment.unlink h hnodup
  · have hperm : (T.parseTree :: (d ++ a :: rest)).Perm (a :: T.parseTree :: (d ++ rest)) := by
      have hmiddle : ((T.parseTree :: d) ++ a :: rest).Perm (a :: ((T.parseTree :: d) ++ rest)) :=
        List.perm_middle
      simpa using hmiddle
    exact (List.nodup_cons.mp (hperm.nodup_iff.mp hnodup)).1 hmem

theorem moveBaseFirst_spec (h : T.Scripts next (d ++ rest))
    (hnode : (T.parseTree :: d).getLast? = some node) (hrounds : rest.length < rounds) :
    ∃ next', moveBaseFirst T rounds node node next = some next' ∧
      T.Scripts next' (bringFirst (T.isScriptOf · pkgBase) d rest) := by
  induction rest generalizing d node rounds with
  | nil =>
      obtain ⟨rounds, rfl⟩ := Nat.exists_eq_add_one_of_ne_zero (Nat.ne_of_gt hrounds)
      refine ⟨next, ?_, by simpa [bringFirst] using h⟩
      simp [moveBaseFirst, h.next_last hnode]
  | cons a rest ih =>
      obtain ⟨rounds, rfl⟩ := Nat.exists_eq_add_one_of_ne_zero (Nat.ne_zero_of_lt hrounds)
      have hnext : next node = some a := h.next_last hnode
      simp only [moveBaseFirst, hnext, bringFirst]
      by_cases hbase : T.isScriptOf a pkgBase = true
      · rw [if_pos hbase, if_pos hbase]
        obtain ⟨hunlinked, hfresh⟩ := h.unlink hnode
        exact ⟨_, rfl, Segment.insertAfter (l := []) hunlinked (Segment.nodup hunlinked) hfresh⟩
      · rw [if_neg hbase, if_neg hbase]
        refine ih (by simpa using h) ?_ (Nat.lt_of_succ_lt_succ hrounds)
        rw [← List.cons_append, List.getLast?_concat]

omit [DecidableEq Node] in
theorem findLast_spec (h : T.Scripts next (d ++ rest))
    (hnode : (T.parseTree :: d).getLast? = some node) (hrounds : rest.length < rounds) :
    findLast rounds node node next = (T.parseTree :: (d ++ rest)).getLast? := by
  induction rest generalizing d node rounds with
  | nil =>
      obtain ⟨rounds, rfl⟩ := Nat.exists_eq_add_one_of_ne_zero (Nat.ne_of_gt hrounds)
      rw [List.append_nil, hnode]
      simp [findLast, h.next_last hnode]
  | cons a rest ih =>
      obtain ⟨rounds, rfl⟩ := Nat.exists_eq_add_one_of_ne_zero (Nat.ne_zero_of_lt hrounds)
      have hnext : next node = some a := h.next_last hnode
      have hlast : (T.parseTree :: (d ++ [a])).getLast? = some a := by
        rw [← List.cons_append, List.getLast?_concat]
      have hrest := ih (d := d ++ [a]) (by simpa using h) hlast (Nat.lt_of_succ_lt_succ hrounds)
      simpa [findLast, hnext] using hrest

theorem moveCircuitsLast_spec {last : Node} (h : T.Scripts next (d ++ rest))
    (hnode : (T.parseTree :: d).getLast? = some node)
    (hlast : (T.parseTree :: (d ++ rest)).getLast? = some last) (hrounds : rest.length < rounds) :
    ∃ next', moveCircuitsLast T last rounds node node next = some next' ∧
      T.Scripts next' (bringLast (T.isScriptOf · pkgCircuits) d rest) := by
  induction rest generalizing d node rounds with
  | nil =>
      obtain ⟨rounds, rfl⟩ := Nat.exists_eq_add_one_of_ne_zero (Nat.ne_of_gt hrounds)
      refine ⟨next, ?_, by simpa [bringLast] using h⟩
      simp [moveCircuitsLast, h.next_last hnode]
  | cons a rest ih =>
      obtain ⟨rounds, rfl⟩ := Nat.exists_eq_add_one_of_ne_zero (Nat.ne_zero_of_lt hrounds)
      have hnext : next node = some a := h.next_last hnode
      simp only [moveCircuitsLast, hnext, bringLast]
      by_cases hcircuits : T.isScriptOf a pkgCircuits = true
      · rw [if_pos hcircuits, if_pos hcircuits]
        obtain ⟨hunlinked, hfresh⟩ := h.unlink hnode
        refine ⟨_, rfl, ?_⟩
        -- `last` is the last of the other scripts
        generalize hlast' : (if update next node (next a) node = none then node else last) =
          last'
        have hend : (T.parseTree :: (d ++ rest)).getLast? = some last' := by
          rw [update_self] at hlast'
          have hbehind : next a = rest.head? :=
            TreeNodes.Scripts.next_last (d := d ++ [a]) (by simpa using h)
              (by rw [← List.cons_append, List.getLast?_concat])
          cases rest with
          | nil =>
              have hend : next a = none := hbehind
              rw [if_pos hend] at hlast'
              rw [List.append_nil, hnode, hlast']
          | cons b rest =>
              rw [if_neg (by simp [hbehind])] at hlast'
              have hsplit : T.parseTree :: (d ++ a :: b :: rest) =
                  (T.parseTree :: (d ++ [a])) ++ b :: rest := by simp
              rw [← hlast', ← hlast, ← List.cons_append, List.getLast?_append_cons, hsplit,
                List.getLast?_append_cons]
        obtain ⟨front, hfront⟩ := List.getLast?_eq_some_iff.mp hend
        have hstop : update next node (next a) last' = none := by
          unfold TreeNodes.Scripts at hunlinked
          rw [hfront] at hunlinked
          exact hunlinked.next_of_append
        unfold TreeNodes.Scripts at hunlinked ⊢
        have hnodup := Segment.nodup hunlinked
        rw [hfront] at hunlinked hnodup hfresh
        have hinserted := hunlinked.insertAfter hnodup hfresh
        rw [hstop] at hinserted
        rw [← List.cons_append, hfront]
        simpa using hinserted
      · rw [if_neg hcircuits, if_neg hcircuits]
        refine ih (by simpa using h) ?_ (by simpa using hlast) (Nat.lt_of_succ_lt_succ hrounds)
        rw [← List.cons_append, List.getLast?_concat]

end Loops

/-! ## The order -/

/-- The script of `base` is the first one, that of `circuits` the last one, and the others keep
their order. -/
structure Reordered {Node : Type} (T : TreeNodes Node) (scripts scripts' : List Node) : Prop where
  perm : scripts'.Perm scripts
  base : ∀ node ∈ scripts, T.package node = pkgBase → scripts'.head? = some node
  circuits : ∀ node ∈ scripts, T.package node = pkgCircuits → scripts'.getLast? = some node
  others : (scripts'.filter fun node => T.package node != pkgBase && T.package node != pkgCircuits) =
    scripts.filter fun node => T.package node != pkgBase && T.package node != pkgCircuits

section Order

variable {Node : Type} {T : TreeNodes Node} {scripts : List Node}

theorem TreeNodes.isScriptOf_iff {node : Node} (hscript : T.isScript node = true)
    (package : CString) : T.isScriptOf node package = true ↔ T.package node = package := by
  simp [TreeNodes.isScriptOf, hscript]

theorem reordered_bring (hpackages : (scripts.map T.package).Nodup)
    (hscripts : ∀ node ∈ scripts, T.isScript node = true) :
    Reordered T scripts (bringLast (T.isScriptOf · pkgCircuits) []
      (bringFirst (T.isScriptOf · pkgBase) [] scripts)) := by
  have hfirst : (bringFirst (T.isScriptOf · pkgBase) [] scripts).Perm scripts := bringFirst_perm
  have hunique : ∀ a ∈ scripts, ∀ b ∈ scripts, T.package a = T.package b → a = b :=
    fun a ha b hb => List.inj_on_of_nodup_map hpackages ha hb
  refine ⟨bringLast_perm.trans hfirst, fun node hnode hbase => ?_, fun node hnode hcircuits => ?_, ?_⟩
  · have hscript := (T.isScriptOf_iff (hscripts node hnode) pkgBase).mpr hbase
    obtain ⟨b, hb, hpb, hhead⟩ := head?_bringFirst (d := []) (p := (T.isScriptOf · pkgBase))
      hnode hscript
    have hpackage := (T.isScriptOf_iff (hscripts b hb) pkgBase).mp hpb
    obtain rfl := hunique b hb node hnode (hpackage.trans hbase.symm)
    refine head?_bringLast hhead ?_
    have hne : pkgBase ≠ pkgCircuits := by decide
    simp [TreeNodes.isScriptOf, hbase, hne]
  · have hscript := (T.isScriptOf_iff (hscripts node hnode) pkgCircuits).mpr hcircuits
    obtain ⟨b, hb, hpb, hlast⟩ := getLast?_bringLast (d := [])
      (p := (T.isScriptOf · pkgCircuits)) (hfirst.mem_iff.mpr hnode) hscript
    have hb' := hfirst.mem_iff.mp hb
    have hpackage := (T.isScriptOf_iff (hscripts b hb') pkgCircuits).mp hpb
    obtain rfl := hunique b hb' node hnode (hpackage.trans hcircuits.symm)
    exact hlast
  · rw [filter_bringLast, List.nil_append, filter_bringFirst, List.nil_append]
    · intro node hnode
      have hpackage := (Bool.and_eq_true_iff.mp hnode).2
      simp [beq_iff_eq.mp hpackage]
    · intro node hnode
      have hpackage := (Bool.and_eq_true_iff.mp hnode).2
      simp [beq_iff_eq.mp hpackage]

/-- `reorder_check_scripts` comes back, whatever the scripts are, and leaves behind a list in the
right order. -/
theorem reorderCheckScripts_reordered [DecidableEq Node] {next : Node → Option Node} {rounds : ℕ}
    (hlist : T.Scripts next scripts) (hpackages : (scripts.map T.package).Nodup)
    (hscripts : ∀ node ∈ scripts, T.isScript node = true) (hrounds : scripts.length < rounds) :
    ∃ next' scripts', reorderCheckScripts T rounds next = some next' ∧ T.Scripts next' scripts' ∧
      Reordered T scripts scripts' := by
  have hheader : (T.parseTree :: ([] : List Node)).getLast? = some T.parseTree := rfl
  obtain ⟨next₁, hmoved, hlist₁⟩ :=
    moveBaseFirst_spec (d := []) hlist hheader hrounds
  have hlength : (bringFirst (T.isScriptOf · pkgBase) [] scripts).length < rounds := by
    rw [bringFirst_perm.length_eq]
    exact hrounds
  obtain ⟨last, hlast⟩ : ∃ last, (T.parseTree ::
      ([] ++ bringFirst (T.isScriptOf · pkgBase) [] scripts)).getLast? = some last :=
    ⟨_, List.getLast?_cons⟩
  have hfound := findLast_spec (d := []) hlist₁ hheader hlength
  obtain ⟨next', hmoved', hlist'⟩ :=
    moveCircuitsLast_spec (d := []) hlist₁ hheader hlast hlength
  refine ⟨next', _, ?_, hlist', reordered_bring hpackages hscripts⟩
  rw [hlast] at hfound
  simp only [reorderCheckScripts, hmoved, hfound, Option.bind_eq_bind, Option.bind_some]
  exact hmoved'

/-- The header (node 0) and the scripts of `circuits`, `lan` and `base`. -/
def threeScripts : TreeNodes ℕ where
  parseTree := 0
  isScript := fun node => node != 0
  package := fun node => ([[], pkgCircuits, "lan".toList, pkgBase][node]?).getD []

/-- The pointers of a list of three. -/
def threeInARow (node : ℕ) : Option ℕ := if node < 3 then some (node + 1) else none

theorem reorderCheckScripts_reordered_three :
    ∃ next' scripts', reorderCheckScripts threeScripts 4 threeInARow = some next' ∧
      threeScripts.Scripts next' scripts' ∧ Reordered threeScripts [1, 2, 3] scripts' :=
  reorderCheckScripts_reordered ⟨rfl, rfl, rfl, rfl, rfl⟩ (by decide) (by decide) (by decide)

end Order

end Script
end Mkfli4l
