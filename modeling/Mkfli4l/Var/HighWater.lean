import Mkfli4l.Var.Priorities
import Mkfli4l.Var.Atomicity

/-!
# Implicit bounds as high-water marks

Writing an element of an array raises the bound of the array, the bound of the bound
and so on.  If nobody writes the bounds explicitly, the stored value of a bound should
be the largest number, one more than the last index, that a write has asked for.

`var_update_array_bound` decides from what the bound reads, not from what is stored.
The invariant of this module holds along every run in which the bounds that a write
consults come out on the right side of the new number.
-/

namespace Mkfli4l

open Lib Exec

/-! ### What a write asks of a bound -/

/-- The number that writing an element asks of the bound `b` at the leading indices `p`: one more
than the index behind them if `b` is among the bounds of the element, and zero otherwise.  The
indices of the element are given last one first. -/
def boundTouch (D : Defs) (b : VarId) (p : List UInt32) : VarId → List UInt32 → Nat
  | _, [] => 0
  | v, i :: rest =>
      match (D.vars v).bind Var.varN with
      | none => 0
      | some b' => if b' = b ∧ rest.reverse = p then i.toNat + 1 else boundTouch D b p b' rest

/-- The largest number that writes have asked of a bound. -/
def highWater (D : Defs) (hist : List VarInstance) (b : VarId) (p : List UInt32) : Nat :=
  (hist.map fun w => boundTouch D b p w.var w.indices.reverse).foldr max 0

/-- The text that a high-water mark is stored as; zero stands for no write at all. -/
def markText (n : Nat) : Option CString := if n = 0 then none else some (formatInt n)

/-- The variable is the array bound variable of some array. -/
def IsBound (D : Defs) (b : VarId) : Prop := ∃ v var, D.vars v = some var ∧ var.varN = some b

variable {v : VarId} {l : List UInt32} {var : Var} {i : UInt32} {n depth : Nat}

section touches

variable {D : Defs} {b : VarId} {p : List UInt32}

theorem boundTouch_eq_zero (h : l.length ≤ p.length) : boundTouch D b p v l = 0 := by
  induction l generalizing v with
  | nil => rfl
  | cons i rest ih =>
      rw [List.length_cons] at h
      have hne : rest.reverse ≠ p := by
        rintro rfl
        rw [List.length_reverse] at h
        omega
      rw [boundTouch]
      cases (D.vars v).bind Var.varN with
      | none => rfl
      | some b' =>
          simp only [hne, and_false, if_false]
          exact ih (by omega)

theorem boundTouch_cons {b' : VarId} {rest : List UInt32}
    (hvar : D.vars v = some var) (hb : var.varN = some b') :
    boundTouch D b p v (i :: rest) =
      if b' = b ∧ rest.reverse = p then i.toNat + 1 else boundTouch D b p b' rest := by
  rw [boundTouch, hvar, Option.bind_some, hb]

theorem boundTouch_above {varN : Var} {b' : VarId} {j : UInt32} (hvarN : D.vars b = some varN)
    (hb' : varN.varN = some b')
    (h : 0 < boundTouch D b (p ++ [j]) v l) : boundTouch D b' p v l = j.toNat + 1 := by
  induction l generalizing v with
  | nil => exact absurd h (Nat.lt_irrefl 0)
  | cons i rest ih =>
      rw [boundTouch] at h ⊢
      cases hbound : (D.vars v).bind Var.varN with
      | none =>
          rw [hbound] at h
          exact absurd h (Nat.lt_irrefl 0)
      | some b₁ =>
          rw [hbound] at h
          simp only at h ⊢
          by_cases hhere : b₁ = b ∧ rest.reverse = p ++ [j]
          · obtain ⟨rfl, hrest⟩ := hhere
            have hrest' : rest = j :: p.reverse := by
              rw [← List.reverse_reverse rest, hrest]
              simp
            subst hrest'
            rw [if_neg (by simp), boundTouch_cons hvarN hb', if_pos ⟨rfl, List.reverse_reverse p⟩]
          · rw [if_neg hhere] at h
            have habove := ih h
            have hne : ¬ (b₁ = b' ∧ rest.reverse = p) := by
              rintro ⟨-, rfl⟩
              rw [boundTouch_eq_zero (by simp)] at habove
              omega
            rw [if_neg hne]
            exact habove

theorem highWater_cons (w : VarInstance) (hist : List VarInstance) :
    highWater D (w :: hist) b p =
      max (boundTouch D b p w.var w.indices.reverse) (highWater D hist b p) := rfl

end touches

/-! ### Marks -/

/-- Every bound stores its mark, with a priority that bound updates may overwrite. -/
def Marks (D : Defs) (m : VarId → List UInt32 → Nat) (s : Slots) : Prop :=
  ∀ b varN p, D.vars b = some varN → IsBound D b → p.length = varN.level →
    s.storedValue b p = markText (m b p) ∧ s.storedPriority b p ≤ .arrayBound

/-- Marks fit an `int`, and a bound that has a mark has pushed up its own bound. -/
structure ClosedMarks (D : Defs) (m : VarId → List UInt32 → Nat) : Prop where
  range : ∀ b p, m b p < 2147483648
  above : ∀ b varN b' p j, D.vars b = some varN → varN.varN = some b' → 0 < m b (p ++ [j]) →
    j.toNat + 1 ≤ m b' p

section marks

variable {D : Defs} {m : VarId → List UInt32 → Nat} {s s' : Slots}

theorem ReadEffect.storedValue_eq (h : ReadEffect s s') (v : VarId) (p : List UInt32) :
    s'.storedValue v p = s.storedValue v p := by
  rw [Slots.storedValue, Slots.storedValue, h.has_eq, (h.entry v p).value]

theorem ReadEffect.storedPriority_eq (h : ReadEffect s s') (v : VarId) (p : List UInt32) :
    s'.storedPriority v p = s.storedPriority v p := by
  rw [Slots.storedPriority, Slots.storedPriority, h.has_eq, (h.entry v p).priority]

theorem Marks.readEffect (h : Marks D m s) (heff : ReadEffect s s') : Marks D m s' := by
  intro b varN p hb hbound hlen
  rw [heff.storedValue_eq, heff.storedPriority_eq]
  exact h b varN p hb hbound hlen

theorem Marks.grows (h : Marks D m s) (hgrows : s.Grows D s') : Marks D m s' := by
  intro b varN p hb hbound hlen
  rw [hgrows.storedValue_eq hb hlen, hgrows.storedPriority_eq hb hlen]
  exact h b varN p hb hbound hlen

theorem boundNumber_markText (h : n < 2147483648) : boundNumber (markText n) = n := by
  unfold markText
  split
  · next hzero =>
      subst hzero
      rfl
  · have hconv : varValueConvertToInteger (formatInt n) = some n := by
      have hlong : (n : Int) ≤ longMax := by
        unfold longMax
        omega
      simp [varValueConvertToInteger, strtol_formatInt (Int.natCast_nonneg n) hlong,
        toInt32_of_range (by omega : (-2147483648 : Int) ≤ n) (by omega)]
    exact boundNumber_some hconv

theorem ClosedMarks.touch_le (h : ClosedMarks D m) {b : VarId}
    {rest : List UInt32} (hvar : D.vars v = some var) (hb : var.varN = some b)
    (hreached : i.toNat + 1 ≤ m b rest.reverse) (b' : VarId) (p : List UInt32) :
    boundTouch D b' p v (i :: rest) ≤ m b' p := by
  induction rest generalizing v b var i with
  | nil =>
      rw [boundTouch_cons hvar hb]
      split
      · next hhere =>
          obtain ⟨rfl, rfl⟩ := hhere
          exact hreached
      · exact Nat.zero_le _
  | cons j rest ih =>
      rw [boundTouch_cons hvar hb]
      split
      · next hhere =>
          obtain ⟨rfl, rfl⟩ := hhere
          exact hreached
      · obtain ⟨varN, hvarN, -⟩ := D.boundGraph.bound hvar hb
        cases hb' : varN.varN with
        | none =>
            rw [boundTouch, hvarN, Option.bind_some, hb']
            exact Nat.zero_le _
        | some b₁ =>
            refine ih hvarN hb' ?_
            rw [List.reverse_cons] at hreached
            exact h.above b varN b₁ rest.reverse j hvarN hb' (by omega)

end marks

/-! ### Bounds that read true -/

/-- The bounds that writing an element consults come out on the right side of the new number: a
bound whose stored number is too small reads too small, and a bound that reads too small has no
larger number stored.  In the latter case the bound is written and its own bound is consulted,
after it has been read. -/
def BoundsReadTrue (D : Defs) : Nat → Slots → VarInstance → Prop
  | 0, _, _ => True
  | depth + 1, s, inst =>
      ∀ var last b varN bound s₁, D.vars inst.var = some var →
        inst.indices.getLast? = some last → var.varN = some b → D.vars b = some varN →
        readArrayBound (calls D (depth + 1)) ⟨b, inst.indices.take varN.level⟩ s =
          .ok (bound, s₁) →
        (boundNumber (s.storedValue b (inst.indices.take varN.level)) < uint32ToInt (last + 1) →
          ∃ old, bound = some old ∧ old < uint32ToInt (last + 1)) ∧
        ((∃ old, bound = some old ∧ old < uint32ToInt (last + 1)) →
          boundNumber (s.storedValue b (inst.indices.take varN.level)) ≤
              uint32ToInt (last + 1) ∧
            BoundsReadTrue D depth s₁ ⟨b, inst.indices.take varN.level⟩)

section raising

variable {D : Defs} {m : VarId → List UInt32 → Nat} {s s' : Slots}

theorem uint32ToInt_add_one (h : i.toNat + 1 < 2147483648) :
    uint32ToInt (i + 1) = ((i.toNat + 1 : Nat) : Int) := by
  have hsucc : (i + 1).toNat = i.toNat + 1 := by
    rw [UInt32.toNat_add, UInt32.toNat_one]
    omega
  rw [uint32ToInt_of_lt (by omega), hsucc]

theorem indices_split {inst : VarInstance} {last : UInt32} {k : Nat}
    (hlast : inst.indices.getLast? = some last) (hlen : inst.indices.length = k + 1) :
    inst.indices.reverse = last :: (inst.indices.take k).reverse := by
  obtain ⟨init, hinit⟩ := List.getLast?_eq_some_iff.mp hlast
  rw [hinit, List.length_append, List.length_singleton] at hlen
  have hk : k = init.length := by omega
  subst hk
  rw [hinit, List.take_left', List.reverse_append]
  · rfl
  · rfl

theorem Marks.boundUpdate {c : Callees} {instN : VarInstance} {varN : Var}
    {res : WriteResult} {s₁ : Slots} {access : SlotAccess}
    (hmarks : Marks D m s₁) (hvarN : D.vars instN.var = some varN) (hbound : IsBound D instN.var)
    (hlen : instN.indices.length = varN.level) (htype : varN.type = D.types.arrayBoundType)
    (hpos : 0 < n) (hopen : openSlot D c varN instN .tentative .arrayBound s = .ok (access, s₁))
    (hend : (res ≠ .written ∧ ¬ Granted D s₁ (boundRequest instN n) varN ∧ s' = s₁) ∨
      (res = .written ∧ Granted D s₁ (boundRequest instN n) varN ∧
        commit D depth varN (boundRequest instN n) s₁ = .ok ((), s'))) :
    Marks D (fun b p => if b = instN.var ∧ p = instN.indices then n else m b p) s' := by
  obtain ⟨-, -, -, hhas, -⟩ := openSlot_cases hopen
  have hgranted : Granted D s₁ (boundRequest instN n) varN := by
    refine (granted_boundRequest_iff hvarN hlen htype hhas).mpr ⟨?_, Int.natCast_nonneg n⟩
    have hpriority := (hmarks _ varN _ hvarN hbound hlen).2
    rwa [Slots.storedPriority, if_pos hhas] at hpriority
  rcases hend with ⟨-, hnot, -⟩ | ⟨-, -, hcommit⟩
  · exact absurd hgranted hnot
  · have hgrows := commit_grows hgranted.has hcommit
    intro b varB p hb hisBound hplen
    rw [hgrows.storedValue_eq hb hplen, hgrows.storedPriority_eq hb hplen]
    beta_reduce
    by_cases hhere : b = instN.var ∧ p = instN.indices
    · obtain ⟨rfl, rfl⟩ := hhere
      rw [if_pos ⟨rfl, rfl⟩, Slots.storedValue, Slots.storedPriority, Slots.updateEntry_has,
        if_pos hhas, if_pos hhas, Slots.updateEntry_entry]
      simp only [boundRequest, and_self, if_true]
      refine ⟨?_, le_refl _⟩
      rw [markText, if_neg (Nat.ne_of_gt hpos)]
      rfl
    · rw [if_neg hhere]
      have hne : ¬ (b = (boundRequest instN n).inst.var ∧ p = (boundRequest instN n).inst.indices) :=
        hhere
      rw [Slots.storedValue_updateEntry_ne hne, Slots.storedPriority_updateEntry_ne hne]
      exact hmarks b varB p hb hisBound hplen

/-- Raising bounds that read true raises the marks. -/
theorem raiseBound_marks {inst : VarInstance} {u : Unit}
    (hvar : D.vars inst.var = some var) (hlen : inst.indices.length = var.level)
    (hsmall : ∀ i ∈ inst.indices, i.toNat + 1 < 2147483648) (hclosed : ClosedMarks D m)
    (hmarks : Marks D m s) (htrue : BoundsReadTrue D depth s inst)
    (h : raiseBound D (calls D depth) var inst s = .ok (u, s')) (hclears : s'.clears = s.clears) :
    Marks D (fun b p => max (m b p) (boundTouch D b p inst.var inst.indices.reverse)) s' := by
  induction depth generalizing inst var s s' with
  | zero =>
      rcases raiseBound_cases h with
        ⟨hnil, rfl⟩ | ⟨last, b, varN, bound, s₁, -, -, -, -, hread, -⟩
      · simpa [hnil, boundTouch] using hmarks
      · obtain ⟨value, s₂, hget, -⟩ := bind_ok_iff.mp hread
        exact (throw_ok_iff.mp hget).elim
  | succ depth ih =>
      rcases raiseBound_cases h with
        ⟨hnil, rfl⟩ | ⟨last, b, varN, bound, s₁, hlast, hb, hvarN, -, hread, hend⟩
      · simpa [hnil, boundTouch] using hmarks
      · obtain ⟨varN', hvarN', hlevel, htype, -⟩ := D.boundGraph.bound hvar hb
        obtain rfl : varN = varN' := Option.some.inj (hvarN.symm.trans hvarN')
        have hsplit := indices_split hlast (hlen.trans hlevel.symm)
        have hbound : IsBound D b := ⟨inst.var, var, hvar, hb⟩
        have htake : (inst.indices.take varN.level).length = varN.level := by
          rw [List.length_take]
          omega
        have hstored := (hmarks b varN _ hvarN hbound htake).1
        have hlastSmall := hsmall last (List.mem_of_getLast? hlast)
        have hrange := hclosed.range b (inst.indices.take varN.level)
        obtain ⟨hraises, hkeeps⟩ := htrue var last b varN bound s₁ hvar hlast hb hvarN hread
        rw [hstored, boundNumber_markText hrange, uint32ToInt_add_one hlastSmall] at hraises hkeeps
        rcases hend with ⟨hreached, rfl⟩ | ⟨old, res, s₂, value, rfl, hless, hset, hget⟩
        · -- the bound need not be raised, and neither need the bounds above it
          have heff := (readArrayBound_reads (calls_reads D _) _ hread).2 hclears
          have hold : last.toNat + 1 ≤ m b (inst.indices.take varN.level) := by
            by_contra hlow
            obtain ⟨old, hold, hless⟩ := hraises (by omega)
            have hle := hreached old hold
            rw [uint32ToInt_add_one hlastSmall] at hle
            omega
          intro b' varB p hvarB hisBound hplen
          have htouch : boundTouch D b' p inst.var
              (last :: (inst.indices.take varN.level).reverse) ≤ m b' p :=
            hclosed.touch_le hvar hb (by rwa [List.reverse_reverse]) b' p
          beta_reduce
          rw [hsplit, max_eq_left htouch]
          exact hmarks.readEffect heff b' varB p hvarB hisBound hplen
        · rw [uint32ToInt_add_one hlastSmall] at hless hset
          obtain ⟨hle, hbelow⟩ := hkeeps ⟨old, rfl, hless⟩
          obtain ⟨heff, hclears₂, hagain⟩ :=
            raiseBound_clears ⟨inst.var, var, hvar, hb⟩ hread hset hget hclears
          obtain ⟨varN', hvarN', ⟨hrefused, -, -⟩ | ⟨-, -, access, s₃, hopen, hwritten⟩⟩ :=
            varInstanceDoSetValue_cases hset
          · obtain rfl : varN = varN' := Option.some.inj (hvarN.symm.trans hvarN')
            rcases hrefused with hmissing | ⟨hbase, -⟩ | hexcess
            · exact absurd htake (Nat.ne_of_lt hmissing)
            · exact nomatch hbase
            · exact absurd htake (Nat.ne_of_gt hexcess)
          · obtain rfl : varN = varN' := Option.some.inj (hvarN.symm.trans hvarN')
            obtain ⟨s₄, hraise, hcreate, -, -⟩ := openSlot_cases hopen
            have hgrows := varSlotGetOrCreate_creates _ _ hcreate
            have hclears₃ : s₂.clears = s₃.clears := by
              rcases hwritten with ⟨-, -, rfl⟩ | ⟨-, hgranted, hcommit⟩
              · rfl
              · exact (commit_grows hgranted.has hcommit).clears_eq
            have hclears₄ := hgrows.clears_eq
            have hraised := ih hvarN htake
              (fun i hi => hsmall i (List.mem_of_mem_take hi)) (hmarks.readEffect heff) hbelow
              hraise (by omega)
            have hwrittenMarks : Marks D (fun b' p =>
                if b' = b ∧ p = inst.indices.take varN.level then last.toNat + 1
                else max (m b' p) (boundTouch D b' p b (inst.indices.take varN.level).reverse))
                s₂ :=
              (hraised.grows hgrows).boundUpdate hvarN hbound htake htype (Nat.succ_pos _) hopen
                hwritten
            have hfinal := hwrittenMarks.readEffect hagain
            intro b' varB p hvarB hisBound hplen
            have hvalue := hfinal b' varB p hvarB hisBound hplen
            beta_reduce at hvalue ⊢
            rw [hsplit, boundTouch_cons hvar hb, List.reverse_reverse]
            by_cases hhere : b' = b ∧ p = inst.indices.take varN.level
            · obtain ⟨rfl, rfl⟩ := hhere
              simp only [and_self, if_true] at hvalue ⊢
              rwa [max_eq_right (by omega)]
            · rw [if_neg hhere] at hvalue
              rwa [if_neg (fun hsame => hhere ⟨hsame.1.symm, hsame.2.symm⟩)]

end raising

/-! ### Runs -/

/-- No slot has been written yet. -/
def Fresh (D : Defs) (s : Slots) : Prop :=
  ∀ v var p, D.vars v = some var → p.length = var.level → s.has v p = true →
    (s.entry v p).value = none ∧ (s.entry v p).priority = .undefined

/-- Runs of accepted writes to variables that are no array bounds, none of which clears an array
and all of which satisfy `P`, with the list of elements written so far. -/
inductive ElementRun (D : Defs) (P : Nat → Slots → VarInstance → Prop) :
    List VarInstance → Slots → Prop
  | start {s : Slots} (hfresh : Fresh D s) : ElementRun D P [] s
  | write {hist : List VarInstance} {s s' : Slots} {depth : Nat} {call : Call}
      (hrun : ElementRun D P hist s) (helement : ¬ IsBound D call.request.inst.var)
      (hP : P depth s call.request.inst)
      (hexec : call.exec D (calls D depth) s = .ok (.written, s'))
      (hclears : s'.clears = s.clears) : ElementRun D P (call.request.inst :: hist) s'

/-- The condition on a write: its indices count up to the largest `int`, and the bounds it
consults read true. -/
structure TrueWrite (D : Defs) (depth : Nat) (s : Slots) (inst : VarInstance) : Prop where
  small : ∀ i ∈ inst.indices, i.toNat + 1 < 2147483648
  readTrue : BoundsReadTrue D depth s inst

section runs

variable {D : Defs} {hist : List VarInstance} {s s' : Slots} {b : VarId} {p : List UInt32}

theorem boundTouch_lt (hpos : 0 < n) (h : ∀ i ∈ l, i.toNat + 1 < n) : boundTouch D b p v l < n := by
  induction l generalizing v with
  | nil => exact hpos
  | cons i rest ih =>
      rw [boundTouch]
      cases (D.vars v).bind Var.varN with
      | none => exact hpos
      | some b' =>
          simp only
          split
          · exact h i List.mem_cons_self
          · exact ih fun j hj => h j (List.mem_cons_of_mem i hj)

theorem boundTouch_pos (hvar : D.vars v = some var)
    (hlen : l.length = var.level) (h : 0 < boundTouch D b p v l) :
    IsBound D b ∧ ∃ varN, D.vars b = some varN ∧ p.length = varN.level := by
  induction l generalizing v var with
  | nil => exact absurd h (Nat.lt_irrefl 0)
  | cons i rest ih =>
      rw [List.length_cons] at hlen
      cases hb : var.varN with
      | none =>
          rw [boundTouch, hvar, Option.bind_some, hb] at h
          exact absurd h (Nat.lt_irrefl 0)
      | some b' =>
          obtain ⟨varN, hvarN, hlevel, -⟩ := D.boundGraph.bound hvar hb
          rw [boundTouch_cons hvar hb] at h
          split at h
          · next hhere =>
              obtain ⟨rfl, rfl⟩ := hhere
              refine ⟨⟨v, var, hvar, hb⟩, varN, hvarN, ?_⟩
              rw [List.length_reverse]
              omega
          · exact ih hvarN (by omega) h

theorem ClosedMarks.cons (h : ClosedMarks D (highWater D hist)) {w : VarInstance}
    (hsmall : ∀ i ∈ w.indices, i.toNat + 1 < 2147483648) :
    ClosedMarks D (highWater D (w :: hist)) where
  range := by
    intro b p
    rw [highWater_cons]
    refine max_lt (boundTouch_lt (by decide) fun i hi => ?_) (h.range b p)
    exact hsmall i (List.mem_reverse.mp hi)
  above := by
    intro b varN b' p j hvarN hb' hpos
    rw [highWater_cons] at hpos ⊢
    rcases lt_max_iff.mp hpos with htouch | hold
    · rw [boundTouch_above hvarN hb' htouch]
      exact le_max_left _ _
    · exact (h.above b varN b' p j hvarN hb' hold).trans (le_max_right _ _)

theorem Marks.commit {m : VarId → List UInt32 → Nat} {r : SetRequest}
    (h : Marks D m s) (hgranted : Granted D s r var)
    (hcommit : commit D depth var r s = .ok ((), s')) (hnot : ¬ IsBound D r.inst.var) :
    Marks D m s' := by
  refine Marks.grows ?_ (commit_grows hgranted.has hcommit)
  intro b varN p hb hbound hlen
  have hne : ¬ (b = r.inst.var ∧ p = r.inst.indices) := by
    rintro ⟨rfl, -⟩
    exact hnot hbound
  rw [Slots.storedValue_updateEntry_ne hne, Slots.storedPriority_updateEntry_ne hne]
  exact h b varN p hb hbound hlen

/-- The invariant of a run: the writes so far are complete, and the high-water marks are closed
and stored. -/
structure HighWaterInvariant (D : Defs) (hist : List VarInstance) (s : Slots) : Prop where
  complete : ∀ w ∈ hist, ∃ var, D.vars w.var = some var ∧ w.indices.length = var.level
  closed : ClosedMarks D (highWater D hist)
  marks : Marks D (highWater D hist) s

theorem Fresh.highWaterInvariant (h : Fresh D s) : HighWaterInvariant D [] s where
  complete := fun _ hw => absurd hw List.not_mem_nil
  closed :=
    { range := fun _ _ => (by decide : 0 < 2147483648)
      above := fun _ _ _ _ _ _ _ hpos => absurd hpos (Nat.lt_irrefl 0) }
  marks := by
    intro b varN p hb _ hlen
    show s.storedValue b p = none ∧ s.storedPriority b p ≤ .arrayBound
    unfold Slots.storedValue Slots.storedPriority
    by_cases hhas : s.has b p = true
    · obtain ⟨hvalue, hpriority⟩ := h b varN p hb hlen hhas
      rw [if_pos hhas, if_pos hhas, hvalue, hpriority]
      exact ⟨rfl, by decide⟩
    · rw [if_neg hhas, if_neg hhas]
      exact ⟨rfl, by decide⟩

/-- One write keeps the invariant. -/
theorem HighWaterInvariant.write {call : Call} (h : HighWaterInvariant D hist s)
    (hnot : ¬ IsBound D call.request.inst.var) (htrue : TrueWrite D depth s call.request.inst)
    (hexec : call.exec D (calls D depth) s = .ok (.written, s')) (hclears : s'.clears = s.clears) :
    HighWaterInvariant D (call.request.inst :: hist) s' := by
  rcases Call.exec_cases D (calls D depth) call with ⟨res, hres, hpure⟩ | hdo
  · rw [hpure] at hexec
    exact absurd (pure_ok_iff.mp hexec).1 hres
  · rw [hdo] at hexec
    obtain ⟨var, hvar, ⟨-, hne, -⟩ | ⟨hlen, -, access, s₁, hopen, hend⟩⟩ :=
      varInstanceDoSetValue_cases hexec
    · exact absurd rfl hne
    · rcases hend with ⟨hne, -, -⟩ | ⟨-, hgranted, hcommit⟩
      · exact absurd rfl hne
      · obtain ⟨s₂, hraise, hcreate, -, -⟩ := openSlot_cases hopen
        have hgrows := varSlotGetOrCreate_creates _ _ hcreate
        have hclears₁ := (commit_grows hgranted.has hcommit).clears_eq
        have hclears₂ := hgrows.clears_eq
        have hraised := raiseBound_marks hvar hlen htrue.small h.closed h.marks htrue.readTrue
          hraise ((hclears₂.symm.trans hclears₁.symm).trans hclears)
        refine ⟨?_, h.closed.cons htrue.small, ?_⟩
        · intro w hw
          rcases List.mem_cons.mp hw with rfl | hw
          · exact ⟨var, hvar, hlen⟩
          · exact h.complete w hw
        · have hmarks := (hraised.grows hgrows).commit hgranted hcommit hnot
          intro b varN p hb hbound hplen
          rw [highWater_cons, max_comm]
          exact hmarks b varN p hb hbound hplen

theorem highWaterInvariant_of_run (h : ElementRun D (TrueWrite D) hist s) :
    HighWaterInvariant D hist s := by
  induction h with
  | start hfresh => exact hfresh.highWaterInvariant
  | write _ helement hP hexec hclears ih => exact ih.write helement hP hexec hclears

theorem exists_touch_of_highWater_pos (h : 0 < highWater D hist b p) :
    ∃ w ∈ hist, 0 < boundTouch D b p w.var w.indices.reverse := by
  induction hist with
  | nil => exact absurd h (Nat.lt_irrefl 0)
  | cons w hist ih =>
      rw [highWater_cons] at h
      rcases lt_max_iff.mp h with hw | hold
      · exact ⟨w, List.mem_cons_self, hw⟩
      · obtain ⟨w', hw', htouch⟩ := ih hold
        exact ⟨w', List.mem_cons_of_mem w hw', htouch⟩

end runs

/-- In every state of a run of element writes whose consulted bounds read true, every bound that
some write has touched stores the numeral of its high-water mark. -/
theorem storedValue_highWater_of_run {D : Defs} {hist : List VarInstance} {s : Slots}
    (hrun : ElementRun D (TrueWrite D) hist s) {b : VarId} {p : List UInt32}
    (htouched : 0 < highWater D hist b p) :
    s.storedValue b p = some (formatInt (highWater D hist b p)) := by
  have hinv := highWaterInvariant_of_run hrun
  obtain ⟨w, hw, htouch⟩ := exists_touch_of_highWater_pos htouched
  obtain ⟨var, hvar, hlen⟩ := hinv.complete w hw
  obtain ⟨hbound, varN, hvarN, hplen⟩ :=
    boundTouch_pos hvar ((List.length_reverse).trans hlen) htouch
  rw [(hinv.marks b varN p hvarN hbound hplen).1, markText, if_neg (Nat.ne_of_gt htouched)]

/-! ### Writing the fifth and then the third element -/

theorem fresh_init (D : Defs) : Fresh D Slots.init := by
  intro v var p _ _ _
  exact ⟨rfl, rfl⟩

theorem not_isBound_sample (condition : Expr) : ¬ IsBound (sampleDefs condition) 1 := by
  rintro ⟨v, var, hvar, hb⟩
  have hmem := List.mem_of_getElem? (show sampleVars[v]? = some var from hvar)
  simp only [sampleVars, List.mem_cons, List.not_mem_nil, or_false] at hmem
  rcases hmem with rfl | rfl
  · exact nomatch hb
  · exact absurd (Option.some.inj hb) (by decide)

theorem boundsReadTrue_sample {condition : Expr} {s s₁ : Slots} {old : Int}
    (hread : readArrayBound (calls (sampleDefs condition) (depth + 1)) ⟨0, []⟩ s =
      .ok (some old, s₁)) (hstored : boundNumber (s.storedValue 0 []) = old) :
    BoundsReadTrue (sampleDefs condition) (depth + 1) s ⟨1, [i]⟩ := by
  intro var last b varN bound s₂ hvar hlast hb hvarN hbound
  obtain rfl : sampleVars[1] = var := Option.some.inj hvar
  obtain rfl : 0 = b := Option.some.inj hb
  obtain rfl : sampleVars[0] = varN := Option.some.inj hvarN
  obtain ⟨rfl, rfl⟩ := Prod.mk.inj (Except.ok.inj (hread.symm.trans hbound))
  refine ⟨fun hless => ⟨old, rfl, hstored ▸ hless⟩, fun hless => ⟨?_, ?_⟩⟩
  · obtain ⟨old', hold', hless⟩ := hless
    obtain rfl := Option.some.inj hold'
    exact hstored ▸ le_of_lt hless
  · -- the bound has no indices, hence no bound of its own to consult
    cases depth with
    | zero => trivial
    | succ depth =>
        intro _ _ _ _ _ _ _ hlast'
        exact nomatch hlast'

/-- With an enabled array, the bound stays at 5. -/
theorem storedValue_highWater_of_run_X_5_X_3 :
    ∃ s, ElementRun (sampleDefs (.literal (.boolean true)))
        (TrueWrite (sampleDefs (.literal (.boolean true)))) [⟨1, [2]⟩, ⟨1, [4]⟩] s ∧
      s.storedValue 0 [] = some ['5'] := by
  let D := sampleDefs (.literal (.boolean true))
  let first : SlotExec WriteResult := (writeX 4 ['a']).exec D (calls D 8)
  let second : SlotExec WriteResult := (writeX 2 ['b']).exec D (calls D 8)
  let read : SlotExec (Option Int) := readArrayBound (calls D 8) ⟨0, []⟩
  let s := first.stateAfter Slots.init
  have hfirst : first Slots.init = .ok (.written, s) := ok_of_result (by decide)
  have hsecond : second s = .ok (.written, second.stateAfter s) := ok_of_result (by decide)
  have hread₀ : read Slots.init = .ok (some 0, read.stateAfter Slots.init) :=
    ok_of_result (by decide)
  have hread₁ : read s = .ok (some 5, read.stateAfter s) := ok_of_result (by decide)
  have hrun : ElementRun D (TrueWrite D) [⟨1, [2]⟩, ⟨1, [4]⟩] (second.stateAfter s) := by
    refine ElementRun.write (.write (.start (fresh_init D)) (not_isBound_sample _)
      ⟨by simp [writeX, Call.request], boundsReadTrue_sample hread₀ (by decide)⟩ hfirst (by decide))
      (not_isBound_sample _) ⟨by simp [writeX, Call.request], boundsReadTrue_sample hread₁ (by decide)⟩ hsecond
      (by decide)
  have htouched : 0 < highWater D [⟨1, [2]⟩, ⟨1, [4]⟩] 0 [] := by decide
  have hnumeral : formatInt (highWater D [⟨1, [2]⟩, ⟨1, [4]⟩] 0 []) = ['5'] := by decide
  exact ⟨second.stateAfter s, hrun,
    (storedValue_highWater_of_run hrun htouched).trans (congrArg some hnumeral)⟩

/-- With a disabled array, writing the third element lowers the bound from 5 to 3. -/
theorem highWater_lost_by_disabled_bound :
    ∃ s, ElementRun (sampleDefs (.literal (.boolean false))) (fun _ _ _ => True)
        [⟨1, [2]⟩, ⟨1, [4]⟩] s ∧
      highWater (sampleDefs (.literal (.boolean false))) [⟨1, [2]⟩, ⟨1, [4]⟩] 0 [] = 5 ∧
      s.storedValue 0 [] = some ['3'] := by
  let D := sampleDefs (.literal (.boolean false))
  let first : SlotExec WriteResult := (writeX 4 ['a']).exec D (calls D 8)
  let second : SlotExec WriteResult := (writeX 2 ['b']).exec D (calls D 8)
  let s := first.stateAfter Slots.init
  have hfirst : first Slots.init = .ok (.written, s) := ok_of_result (by decide)
  have hsecond : second s = .ok (.written, second.stateAfter s) := ok_of_result (by decide)
  have hrun : ElementRun D (fun _ _ _ => True) [⟨1, [2]⟩, ⟨1, [4]⟩] (second.stateAfter s) :=
    .write (.write (.start (fresh_init D)) (not_isBound_sample _) trivial hfirst (by decide))
      (not_isBound_sample _) trivial hsecond (by decide)
  exact ⟨second.stateAfter s, hrun, by decide, by decide⟩

end Mkfli4l
