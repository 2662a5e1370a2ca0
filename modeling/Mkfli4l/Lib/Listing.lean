import Mathlib.Data.List.ReduceOption
import Mathlib.Data.List.Flatten
import Mathlib.Data.List.FinRange
import Mathlib.Data.List.Perm.Basic
import Mathlib.Logic.Function.Basic

/-!
# Partial maps given by a list of their entries

An entry carries its own key, and what a map is indexed by is the class of that key.  `Lists` says
that a list holds the entries of such a map, each of them once.  The rules below follow the three
ways an implementation changes the list: it adds an entry for a class without one, it exchanges
the entry of a class, and it takes an entry away.  They hold up to the order of the list, which an
implementation is free to choose.

The second part is about where the entries are kept: in an array with gaps (`reduceOption`) and in
several arrays one after the other (`flatMap`).
-/

namespace Mkfli4l
namespace Lib

variable {E C : Type}

/-- `L` holds every entry of the map `m` exactly once, where `cls` gives the class of an entry. -/
structure Lists (cls : E → C) (L : List E) (m : C → Option E) : Prop where
  nodup : L.Nodup
  mem_iff : ∀ e c, m c = some e ↔ e ∈ L ∧ cls e = c

namespace Lists

variable {cls : E → C} {L L' : List E} {m : C → Option E} {e old : E}

theorem empty (cls : E → C) : Lists cls [] fun _ => none :=
  ⟨List.nodup_nil, fun _ _ => by simp⟩

theorem perm (h : Lists cls L m) (hperm : L.Perm L') : Lists cls L' m :=
  ⟨hperm.nodup_iff.mp h.nodup, fun e c => by rw [h.mem_iff, hperm.mem_iff]⟩

theorem eq_of_cls_eq (h : Lists cls L m) {e' : E} (he : e ∈ L) (he' : e' ∈ L)
    (hcls : cls e = cls e') : e = e' := by
  have hm : m (cls e) = some e := (h.mem_iff e (cls e)).mpr ⟨he, rfl⟩
  have hm' : m (cls e) = some e' := (h.mem_iff e' (cls e)).mpr ⟨he', hcls.symm⟩
  exact Option.some.inj (hm.symm.trans hm')

/-- Two lists of two maps show the same of their entries, up to the order, exactly if the maps do,
where what is shown of an entry includes its class. -/
theorem map_perm_iff {D : Type} {f : E → D} {m' : C → Option E}
    (hf : ∀ e e', f e = f e' → cls e = cls e') (h : Lists cls L m) (h' : Lists cls L' m') :
    (L.map f).Perm (L'.map f) ↔ ∀ c, (m c).map f = (m' c).map f := by
  have hnodup {L : List E} {m : C → Option E} (h : Lists cls L m) : (L.map f).Nodup := by
    refine h.nodup.map_on ?_
    intro e he e' he' heq
    exact h.eq_of_cls_eq he he' (hf e e' heq)
  constructor
  · intro hperm c
    have hshown {L L' : List E} {m m' : C → Option E} (h : Lists cls L m) (h' : Lists cls L' m')
        (hperm : (L.map f).Perm (L'.map f)) {e : E} (he : m c = some e) :
        (m' c).map f = some (f e) := by
      obtain ⟨hmem, hcls⟩ := (h.mem_iff e c).mp he
      obtain ⟨e', hmem', heq⟩ := List.mem_map.mp (hperm.mem_iff.mp (List.mem_map_of_mem hmem))
      rw [(h'.mem_iff e' c).mpr ⟨hmem', (hf e' e heq).trans hcls⟩, Option.map_some, heq]
    cases he : m c with
    | some e => rw [Option.map_some, hshown h h' hperm he]
    | none =>
        cases he' : m' c with
        | none => rfl
        | some e' =>
            have hsome := hshown h' h hperm.symm he'
            rw [he] at hsome
            exact nomatch hsome
  · intro heq
    rw [List.perm_ext_iff_of_nodup (hnodup h) (hnodup h')]
    have himp {L L' : List E} {m m' : C → Option E} (h : Lists cls L m) (h' : Lists cls L' m')
        (heq : ∀ c, (m c).map f = (m' c).map f) {d : D} (hd : d ∈ L.map f) : d ∈ L'.map f := by
      obtain ⟨e, hmem, rfl⟩ := List.mem_map.mp hd
      have hsome := (h.mem_iff e (cls e)).mpr ⟨hmem, rfl⟩
      have hmap := heq (cls e)
      rw [hsome, Option.map_some] at hmap
      obtain ⟨e', he', hfe⟩ := Option.map_eq_some_iff.mp hmap.symm
      rw [← hfe]
      exact List.mem_map_of_mem ((h'.mem_iff e' (cls e)).mp he').1
    exact fun d => ⟨himp h h' heq, himp h' h fun c => (heq c).symm⟩

variable [DecidableEq C]

theorem insert (h : Lists cls L m) (hnew : m (cls e) = none) :
    Lists cls (e :: L) (Function.update m (cls e) (some e)) := by
  have hfresh : ∀ e' ∈ L, cls e' ≠ cls e := by
    intro e' he' hcls
    have hsome := (h.mem_iff e' (cls e)).mpr ⟨he', hcls⟩
    rw [hnew] at hsome
    exact nomatch hsome
  refine ⟨List.nodup_cons.mpr ⟨fun he => hfresh e he rfl, h.nodup⟩, ?_⟩
  intro e' c
  by_cases hc : c = cls e
  · subst hc
    simp only [Function.update_self, Option.some.injEq, List.mem_cons]
    constructor
    · rintro rfl
      exact ⟨.inl rfl, rfl⟩
    · rintro ⟨rfl | he', hcls⟩
      · rfl
      · exact absurd hcls (hfresh e' he')
  · rw [Function.update_of_ne hc, h.mem_iff]
    constructor
    · rintro ⟨he', hcls⟩
      exact ⟨List.mem_cons_of_mem _ he', hcls⟩
    · rintro ⟨he', rfl⟩
      rcases List.mem_cons.mp he' with rfl | he'
      · exact absurd rfl hc
      · exact ⟨he', rfl⟩

theorem remove (h : Lists cls (old :: L) m) :
    Lists cls L (Function.update m (cls old) none) := by
  obtain ⟨hout, hnodup⟩ := List.nodup_cons.mp h.nodup
  refine ⟨hnodup, ?_⟩
  intro e c
  by_cases hc : c = cls old
  · subst hc
    simp only [Function.update_self, reduceCtorEq, false_iff, not_and]
    intro he hcls
    have := h.eq_of_cls_eq (List.mem_cons_of_mem _ he) List.mem_cons_self hcls
    exact hout (this ▸ he)
  · rw [Function.update_of_ne hc, h.mem_iff, List.mem_cons]
    constructor
    · rintro ⟨rfl | he, rfl⟩
      · exact absurd rfl hc
      · exact ⟨he, rfl⟩
    · rintro ⟨he, hcls⟩
      exact ⟨.inr he, hcls⟩

theorem replace (h : Lists cls (old :: L) m) (hcls : cls old = cls e) :
    Lists cls (e :: L) (Function.update m (cls e) (some e)) := by
  have hremoved : Lists cls L (Function.update m (cls e) none) := hcls ▸ h.remove
  have hinserted := hremoved.insert (Function.update_self (cls e) none m)
  rwa [Function.update_idem] at hinserted

end Lists

/-! ### Arrays with gaps -/

theorem reduceOption_perm {entries : List (Option E)} {i : Nat} {x : Option E}
    (hx : entries[i]? = some x) :
    entries.reduceOption.Perm (x.toList ++ (entries.eraseIdx i).reduceOption) := by
  obtain ⟨hi, rfl⟩ := List.getElem?_eq_some_iff.mp hx
  have hperm := (List.getElem_cons_eraseIdx_perm hi).symm.filterMap id
  cases h : entries[i] with
  | none => simpa [List.reduceOption, h] using hperm
  | some e => simpa [List.reduceOption, h] using hperm

theorem reduceOption_set_perm {entries : List (Option E)} {i : Nat} (x : Option E)
    (hi : i < entries.length) :
    (entries.set i x).reduceOption.Perm (x.toList ++ (entries.eraseIdx i).reduceOption) := by
  have hset : (entries.set i x)[i]? = some x := by simp [hi]
  have hperm := reduceOption_perm hset
  rwa [List.eraseIdx_set_eq] at hperm

/-! ### Several arrays -/

theorem flatMap_finRange_perm {n : Nat} (f : Fin n → List E) (i : Fin n) :
    ((List.finRange n).flatMap f).Perm (f i ++ ((List.finRange n).erase i).flatMap f) :=
  (List.perm_cons_erase (List.mem_finRange i)).flatMap_right f

theorem flatMap_erase_update {n : Nat} (f : Fin n → List E) (i : Fin n) (l : List E) :
    ((List.finRange n).erase i).flatMap (Function.update f i l) =
      ((List.finRange n).erase i).flatMap f := by
  apply List.flatMap_congr
  intro j hj
  have hne : j ≠ i := (List.nodup_finRange n).mem_erase_iff.mp hj |>.1
  rw [Function.update_of_ne hne]

end Lib
end Mkfli4l
