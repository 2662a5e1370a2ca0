import Mkfli4l.Lib.Spread
import Mkfli4l.Ziplist.Opt

/-!
# Kernel modules and their dependencies

The modules of `modules.dep` form a graph, possibly with cycles.  Some of them are selected by the
archive list, each for the archive of its entry.  `compute_modules_used` walks over all modules
again and again and gives every dependency the archive of the module that needs it, if that is
extracted earlier, until a walk changes nothing.  The number of the unknown archive is smaller than
those of the others, so the order in which the archives win is not the order of their numbers.
-/

namespace Mkfli4l
namespace Ziplist

open Lib Relation

/-- `struct module_t` without its target archive; the dependencies are positions in the array. -/
structure KernelModule (n : Nat) where
  name : CString
  path : CString
  deps : List (Fin n)

structure ModuleArray where
  n : Nat
  get : Fin n → KernelModule n

/-- The target archives of all modules. -/
abbrev Targets (n : Nat) := Fin n → ZipTgt

def areModulesEqual : CString → CString → Bool
  | c₁ :: m₁, c₂ :: m₂ =>
      (if c₁ = '-' then '_' else c₁) == (if c₂ = '-' then '_' else c₂) && areModulesEqual m₁ m₂
  | m₁, m₂ => m₁.isEmpty && m₂.isEmpty

def lookupModule (g : ModuleArray) (name : CString) : Option (Fin g.n) :=
  (List.finRange g.n).find? fun m => areModulesEqual (g.get m).name name

/-- The first loop of `compute_modules_used`: the modules selected by the archive list, and whether
all of them are known.  `moduleName` is the name that the regular expression finds in a target. -/
def selectModules (moduleName : CString → Option CString) (g : ModuleArray) :
    List Entry → Targets g.n × Bool → Targets g.n × Bool
  | [], st => st
  | entry :: entries, st =>
      match moduleName entry.target with
      | none => selectModules moduleName g entries st
      | some name =>
          match lookupModule g name with
          | some m => selectModules moduleName g entries (Function.update st.1 m entry.ziptgt, st.2)
          | none => selectModules moduleName g entries (st.1, false)

/-- One dependency `d` of a module `m` in the second loop; the flag says that something changed. -/
def visitDep {n : Nat} (m : Fin n) (st : Targets n × Bool) (d : Fin n) : Targets n × Bool :=
  if st.1 d = .unknown then (Function.update st.1 d (st.1 m), true)
  else if st.1 m < st.1 d then (Function.update st.1 d (st.1 m), true)
  else st

/-- One module in the second loop. -/
def visitModule (g : ModuleArray) (st : Targets g.n × Bool) (m : Fin g.n) : Targets g.n × Bool :=
  if st.1 m ≠ .unknown then (g.get m).deps.foldl (visitDep m) st else st

/-- One walk over all modules. -/
def visitModules (g : ModuleArray) (tgts : Targets g.n) : Targets g.n × Bool :=
  (List.finRange g.n).foldl (visitModule g) (tgts, false)

/-- The second loop of `compute_modules_used`.  `none` means that the fuel does not suffice. -/
def spreadTargets (g : ModuleArray) : Nat → Targets g.n → Option (Targets g.n)
  | 0, _ => none
  | fuel + 1, tgts =>
      let st := visitModules g tgts
      if st.2 then spreadTargets g fuel st.1 else some st.1

/-- `compute_modules_used`: the targets, and whether all selected modules are known. -/
def computeModulesUsed (moduleName : CString → Option CString) (g : ModuleArray)
    (files : List Entry) (fuel : Nat) : Option (Targets g.n × Bool) :=
  let selected := selectModules moduleName g files (fun _ => .unknown, true)
  (spreadTargets g fuel selected.1).map fun tgts => (tgts, selected.2)

/-- The modules that are used, in the order of the array. -/
def usedModules (g : ModuleArray) (tgts : Targets g.n) : List (Fin g.n) :=
  (List.finRange g.n).filter fun m => tgts m ≠ .unknown

/-- A line of the generated `modules.dep`: a module and its dependencies. -/
def dependencyLines (g : ModuleArray) (tgts : Targets g.n) : List (Fin g.n × List (Fin g.n)) :=
  (usedModules g tgts).map fun m => (m, (g.get m).deps)

/-- The text that `dump_module_dependency_file` writes. -/
def dumpModuleDependencyFile (g : ModuleArray) (tgts : Targets g.n) : CString :=
  (dependencyLines g tgts).flatMap fun line =>
    (g.get line.1).path ++ ':' :: (line.2.flatMap fun d => ' ' :: (g.get d).path) ++ ['\n']

/-! ### One walk -/

/-- The place of an archive among the others when a module is needed in both: the unknown archive
comes last. -/
def ZipTgt.rank : ZipTgt → Nat
  | unknown => 3
  | rootfs => 1
  | opt => 2

theorem ZipTgt.rank_injective : Function.Injective ZipTgt.rank := by
  intro a b h
  cases a <;> cases b <;> first | rfl | exact nomatch h

theorem ZipTgt.rank_le_iff {a b : ZipTgt} (ha : a ≠ .unknown) (hb : b ≠ .unknown) :
    a.rank ≤ b.rank ↔ a ≤ b := by
  revert ha hb
  cases a <;> cases b <;> decide

theorem ZipTgt.rank_lt_three_iff {a : ZipTgt} : a.rank < 3 ↔ a ≠ .unknown := by
  cases a <;> decide

theorem ZipTgt.rank_le_three (a : ZipTgt) : a.rank ≤ 3 := by cases a <;> decide

/-- Is `d` a dependency of `m`? -/
def ModuleArray.DependsOn (g : ModuleArray) (m d : Fin g.n) : Prop := d ∈ (g.get m).deps

/-- Can `d` be reached from `m` along dependencies? -/
def ModuleArray.Reaches (g : ModuleArray) : Fin g.n → Fin g.n → Prop := ReflTransGen g.DependsOn

variable {g : ModuleArray}

theorem visitDep_eq {n : Nat} {m d : Fin n} {st : Targets n × Bool} (hm : st.1 m ≠ .unknown) :
    ((st.1 m).rank < (st.1 d).rank ∧
        visitDep m st d = (Function.update st.1 d (st.1 m), true)) ∨
      ((st.1 d).rank ≤ (st.1 m).rank ∧ visitDep m st d = st) := by
  have hmrank := ZipTgt.rank_lt_three_iff.mpr hm
  unfold visitDep
  by_cases hd : st.1 d = .unknown
  · rw [if_pos hd, hd]
    exact .inl ⟨hmrank, rfl⟩
  · rw [if_neg hd]
    by_cases hlt : st.1 m < st.1 d
    · rw [if_pos hlt]
      refine .inl ⟨?_, rfl⟩
      rw [← not_le, ZipTgt.rank_le_iff hd hm, not_le]
      exact hlt
    · rw [if_neg hlt]
      exact .inr ⟨(ZipTgt.rank_le_iff hd hm).mpr (not_lt.mp hlt), rfl⟩

/-- The sum of all ranks, which every change makes smaller. -/
def weight {n : Nat} (tgts : Targets n) : Nat := ∑ m, (tgts m).rank

/-- What a part of a walk does: nothing, or a change that makes the weight smaller; and no archive
comes from anywhere but a module that reaches its place. -/
structure Walks (g : ModuleArray) (st st' : Targets g.n × Bool) : Prop where
  still : st'.2 = false → st' = st
  less : st' = st ∨ st'.2 = true ∧ weight st'.1 < weight st.1
  spreads : ∀ f : Fin g.n → Nat, Spreads g.DependsOn f (fun m => (st.1 m).rank) →
    Spreads g.DependsOn f fun m => (st'.1 m).rank

variable {m : Fin g.n} {tgts : Targets g.n}

namespace Walks

variable {st st' st'' : Targets g.n × Bool}

theorem refl (st : Targets g.n × Bool) : Walks g st st := ⟨fun _ => rfl, .inl rfl, fun _ h => h⟩

theorem trans (h : Walks g st st') (h' : Walks g st' st'') : Walks g st st'' where
  still := by
    intro hfalse
    obtain rfl := h'.still hfalse
    exact h.still hfalse
  less := by
    rcases h'.less with rfl | ⟨htrue', hlt'⟩
    · exact h.less
    · rcases h.less with rfl | ⟨-, hlt⟩
      · exact .inr ⟨htrue', hlt'⟩
      · exact .inr ⟨htrue', hlt'.trans hlt⟩
  spreads := fun f hf => h'.spreads f (h.spreads f hf)

theorem visitDep {d : Fin g.n} (hm : st.1 m ≠ .unknown) (hd : g.DependsOn m d) :
    Walks g st (visitDep m st d) := by
  rcases visitDep_eq (d := d) hm with ⟨hlt, heq⟩ | ⟨-, heq⟩
  · have hrank : (fun v => (Function.update st.1 d (st.1 m) v).rank) =
        lower (fun v => (st.1 v).rank) m d := by
      unfold lower
      rw [if_pos hlt]
      funext v
      by_cases hv : v = d
      · rw [hv, Function.update_self, Function.update_self]
      · rw [Function.update_of_ne hv, Function.update_of_ne hv]
    rw [heq]
    refine ⟨(fun hfalse => nomatch hfalse), .inr ⟨rfl, ?_⟩, ?_⟩
    · have hsum : ∑ v, lower (fun v => (st.1 v).rank) m d v < ∑ v, (st.1 v).rank :=
        sum_lower_lt hlt
      rwa [← hrank] at hsum
    · intro f hf
      rw [hrank]
      exact hf.lower hd
  · rw [heq]
    exact .refl st

end Walks

theorem visitDep_known {n : Nat} {m d v : Fin n} {st : Targets n × Bool} (hm : st.1 m ≠ .unknown)
    (hv : st.1 v ≠ .unknown) : (visitDep m st d).1 v ≠ .unknown := by
  rcases visitDep_eq (d := d) hm with ⟨-, heq⟩ | ⟨-, heq⟩
  · rw [heq]
    by_cases hvd : v = d
    · simpa [hvd] using hm
    · simpa [Function.update_of_ne hvd] using hv
  · rwa [heq]

theorem foldl_visitDep {deps : List (Fin g.n)} {st : Targets g.n × Bool}
    (hm : st.1 m ≠ .unknown) (hdeps : ∀ d ∈ deps, g.DependsOn m d) :
    Walks g st (deps.foldl (visitDep m) st) ∧
      ((deps.foldl (visitDep m) st).2 = false →
        ∀ d ∈ deps, (st.1 d).rank ≤ (st.1 m).rank) := by
  induction deps generalizing st with
  | nil => exact ⟨.refl st, fun _ d hd => nomatch hd⟩
  | cons d deps ih =>
      have hfirst := Walks.visitDep hm (hdeps d List.mem_cons_self)
      obtain ⟨hrest, hclosed⟩ := ih (visitDep_known (d := d) hm hm)
        fun d hd => hdeps d (List.mem_cons_of_mem _ hd)
      refine ⟨hfirst.trans hrest, fun hfalse d' hd' => ?_⟩
      -- nothing changed at all, in particular not at this dependency
      have hsame : visitDep m st d = st := by
        refine hfirst.still ?_
        rw [← hrest.still hfalse]
        exact hfalse
      rcases List.mem_cons.mp hd' with rfl | hd'
      · rcases visitDep_eq (d := d') hm with ⟨hlt, heq⟩ | ⟨hle, -⟩
        · rw [hsame] at heq
          have hvalue : st.1 d' = st.1 m := by
            rw [congrArg (fun st : Targets g.n × Bool => st.1 d') heq]
            simp
          rw [hvalue]
        · exact hle
      · have hle := hclosed hfalse d' hd'
        rwa [hsame] at hle

theorem visitModule_walks (g : ModuleArray) (st : Targets g.n × Bool) (m : Fin g.n) :
    Walks g st (visitModule g st m) ∧
      ((visitModule g st m).2 = false → st.1 m ≠ .unknown →
        ∀ d, g.DependsOn m d → (st.1 d).rank ≤ (st.1 m).rank) := by
  unfold visitModule
  by_cases hm : st.1 m ≠ .unknown
  · rw [if_pos hm]
    obtain ⟨hwalks, hclosed⟩ := foldl_visitDep hm (fun d hd => hd : ∀ d ∈ (g.get m).deps, _)
    exact ⟨hwalks, fun hfalse _ d hd => hclosed hfalse d hd⟩
  · rw [if_neg hm]
    exact ⟨.refl st, fun _ hknown => absurd hknown hm⟩

theorem foldl_visitModule (g : ModuleArray) (ms : List (Fin g.n)) (st : Targets g.n × Bool) :
    Walks g st (ms.foldl (visitModule g) st) ∧
      ((ms.foldl (visitModule g) st).2 = false → ∀ m ∈ ms, st.1 m ≠ .unknown →
        ∀ d, g.DependsOn m d → (st.1 d).rank ≤ (st.1 m).rank) := by
  induction ms generalizing st with
  | nil => exact ⟨.refl st, fun _ m hm => nomatch hm⟩
  | cons m ms ih =>
      obtain ⟨hfirst, hclosed⟩ := visitModule_walks g st m
      obtain ⟨hrest, hclosed'⟩ := ih (visitModule g st m)
      refine ⟨hfirst.trans hrest, fun hfalse m' hm' => ?_⟩
      have hstill : (visitModule g st m).2 = false := by
        rw [← hrest.still hfalse]
        exact hfalse
      rcases List.mem_cons.mp hm' with rfl | hm'
      · exact hclosed hstill
      · have hle := hclosed' hfalse m' hm'
        rwa [hfirst.still hstill] at hle

theorem visitModules_closed (h : (visitModules g tgts).2 = false) (m d : Fin g.n)
    (hd : g.DependsOn m d) : (tgts d).rank ≤ (tgts m).rank := by
  by_cases hm : tgts m = .unknown
  · rw [hm]
    exact (tgts d).rank_le_three
  · exact (foldl_visitModule g (List.finRange g.n) (tgts, false)).2 h m (List.mem_finRange m) hm d hd

/-! ### The whole loop -/

/-- The loop ends, since every walk but the last one makes the weight smaller, and leaves targets
that have spread from the start and that no dependency can lower. -/
theorem spreadTargets_terminates (g : ModuleArray) (f : Fin g.n → Nat) (k : Nat)
    (tgts : Targets g.n) (hweight : weight tgts ≤ k)
    (hspreads : Spreads g.DependsOn f fun m => (tgts m).rank) :
    ∃ result, (∀ fuel > k, spreadTargets g fuel tgts = some result) ∧
      Spreads g.DependsOn f (fun m => (result m).rank) ∧
      ∀ m d, g.DependsOn m d → (result d).rank ≤ (result m).rank := by
  have hwalks : Walks g (tgts, false) (visitModules g tgts) := (foldl_visitModule g _ _).1
  induction k generalizing tgts with
  | zero =>
      have hstill : visitModules g tgts = (tgts, false) := by
        rcases hwalks.less with hsame | ⟨-, hlt⟩
        · exact hsame
        · exact absurd (hlt.trans_le hweight) (Nat.not_lt_zero _)
      refine ⟨tgts, fun fuel hfuel => ?_, hspreads, visitModules_closed (by rw [hstill])⟩
      obtain ⟨fuel, rfl⟩ := Nat.exists_eq_succ_of_ne_zero (Nat.ne_of_gt hfuel)
      simp [spreadTargets, hstill]
  | succ k ih =>
      rcases hwalks.less with hsame | ⟨htrue, hlt⟩
      · refine ⟨tgts, fun fuel hfuel => ?_, hspreads, visitModules_closed (by rw [hsame])⟩
        obtain ⟨fuel, rfl⟩ :=
          Nat.exists_eq_succ_of_ne_zero (Nat.ne_of_gt (Nat.zero_lt_of_lt hfuel))
        simp [spreadTargets, hsame]
      · have hnext := hwalks.spreads f hspreads
        obtain ⟨result, hresult, hrest⟩ := ih (visitModules g tgts).1
          (Nat.lt_succ_iff.mp (hlt.trans_le hweight)) hnext (foldl_visitModule g _ _).1
        refine ⟨result, fun fuel hfuel => ?_, hrest⟩
        obtain ⟨fuel, rfl⟩ :=
          Nat.exists_eq_succ_of_ne_zero (Nat.ne_of_gt (Nat.zero_lt_of_lt hfuel))
        rw [spreadTargets]
        simp only [htrue, if_true]
        exact hresult fuel (by omega)

theorem isLeast_of_rank {init result : Targets g.n}
    (h : IsLeast {x | ∃ s, ReflTransGen g.DependsOn s m ∧ (init s).rank = x} (result m).rank) :
    (result m = .unknown ↔ ∀ s, init s ≠ .unknown → ¬ g.Reaches s m) ∧
      (result m ≠ .unknown →
        IsLeast {t | ∃ s, init s ≠ .unknown ∧ g.Reaches s m ∧ init s = t} (result m)) := by
  obtain ⟨⟨s₀, hs₀, hrank₀⟩, hlower⟩ := h
  have hfrom : init s₀ = result m := ZipTgt.rank_injective hrank₀
  have hle : ∀ s, g.Reaches s m → (result m).rank ≤ (init s).rank :=
    fun s hs => hlower ⟨s, hs, rfl⟩
  constructor
  · constructor
    · intro hunknown s hknown hs
      have hthree := hle s hs
      rw [hunknown] at hthree
      exact absurd (ZipTgt.rank_lt_three_iff.mpr hknown) (not_lt.mpr hthree)
    · intro hnone
      by_contra hknown
      exact hnone s₀ (hfrom ▸ hknown) hs₀
  · intro hknown
    refine ⟨⟨s₀, hfrom ▸ hknown, hs₀, hfrom⟩, ?_⟩
    rintro t ⟨s, hs, hreaches, rfl⟩
    exact (ZipTgt.rank_le_iff hknown hs).mp (hle s hreaches)

end Ziplist
end Mkfli4l
