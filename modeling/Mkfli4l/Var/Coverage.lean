import Mkfli4l.Var.Runs

/-!
# Array bounds cover their arrays

Writing a bound extends the arrays of its clients and writing an element pushes the
bound up.  The invariant `Covered` says that the arrays never fall behind: whenever
the stored value of a bound converts to `n`, every client array has at least `n`
slots at the same leading indices.  It holds in every state that write calls can
reach, whatever they write and whether or not they succeed.
-/

namespace Mkfli4l

open Lib

/-- The number of slots of the array slot at `(v, p)`; zero if there is no such slot. -/
def Slots.slotCount (s : Slots) (v : VarId) (p : List UInt32) : Nat :=
  if s.has v p then (s.numSlots v p).toNat else 0

/-- Whatever a stored bound converts to, its clients have as many slots. -/
def Covered (D : Defs) (s : Slots) : Prop :=
  ∀ (b : VarId) (varN : Var) (v : VarId) (p : List UInt32) (text : CString) (n : Int),
    D.vars b = some varN → v ∈ varN.varNClients → p.length = varN.level →
    s.has b p = true → (s.entry b p).value = some text →
    varValueConvertToInteger text = some n → n ≤ s.slotCount v p

/-- The same for some of the array slots only: `P v p` selects the array slot of the client `v` at the
leading indices `p`. -/
def CoveredOn (D : Defs) (P : VarId → List UInt32 → Prop) (s : Slots) : Prop :=
  ∀ (b : VarId) (varN : Var) (v : VarId) (p : List UInt32) (text : CString) (n : Int), P v p →
    D.vars b = some varN → v ∈ varN.varNClients → p.length = varN.level →
    s.has b p = true → (s.entry b p).value = some text →
    varValueConvertToInteger text = some n → n ≤ s.slotCount v p

/-- No value has been stored yet. -/
def Unwritten (D : Defs) (s : Slots) : Prop :=
  ∀ v var p, D.vars v = some var → p.length = var.level → s.has v p = true →
    (s.entry v p).value = none

section

variable {D : Defs} {P : VarId → List UInt32 → Prop} {s s' : Slots}

theorem covered_iff : Covered D s ↔ CoveredOn D (fun _ _ => True) s :=
  ⟨fun h b varN v p text n _ => h b varN v p text n,
    fun h b varN v p text n => h b varN v p text n trivial⟩

theorem Unwritten.coveredOn (h : Unwritten D s) (P : VarId → List UInt32 → Prop) :
    CoveredOn D P s := by
  intro b varN v p text n _ hb _ hlen hhas hvalue _
  rw [h b varN p hb hlen hhas] at hvalue
  contradiction

theorem Unwritten.covered (h : Unwritten D s) : Covered D s := covered_iff.mpr (h.coveredOn _)

theorem unwritten_init : Unwritten D Slots.init := by
  intro v var p _ _ _
  rfl

theorem Slots.slotCount_congr (h : s'.numSlots = s.numSlots) (v : VarId) (p : List UInt32) :
    s'.slotCount v p = s.slotCount v p := by
  have hhas : s'.has v p = s.has v p := Slots.has_congr (fun q => by rw [h]) p
  rw [Slots.slotCount, Slots.slotCount, hhas, h]

theorem Slots.Grows.slotCount_le (h : s.Grows D s') (v : VarId) (p : List UInt32) :
    s.slotCount v p ≤ s'.slotCount v p := by
  unfold Slots.slotCount
  by_cases hp : s.has v p = true
  · rw [if_pos hp, if_pos (h.has hp)]
    exact h.numSlots_le v p hp
  · rw [if_neg hp]
    exact Nat.zero_le _

variable {v m : VarId} {p q : List UInt32}

theorem Slots.lt_slotCount_of_has {i : UInt32}
    (h : s.has v (p ++ [i]) = true) : i.toNat < s.slotCount v p := by
  obtain ⟨hp, hlt⟩ := (Slots.has_concat_iff p i).mp h
  rw [Slots.slotCount, if_pos hp]
  exact hlt

theorem CoveredOn.of_same (h : CoveredOn D P s) (hslots : s'.numSlots = s.numSlots)
    (hvalues : ∀ v p, (s'.entry v p).value = (s.entry v p).value) : CoveredOn D P s' := by
  intro b varN v p text n hP hb hv hlen hhas hvalue hn
  have hsame : s'.has b p = s.has b p := Slots.has_congr (fun q => by rw [hslots]) p
  rw [hsame] at hhas
  rw [hvalues] at hvalue
  rw [Slots.slotCount_congr hslots]
  exact h b varN v p text n hP hb hv hlen hhas hvalue hn

theorem CoveredOn.grows (h : CoveredOn D P s) (hgrows : s.Grows D s') : CoveredOn D P s' := by
  intro b varN v p text n hP hb hv hlen hhas hvalue hn
  by_cases hold : s.has b p = true
  · rw [hgrows.entry_eq b p hold] at hvalue
    have hcover := h b varN v p text n hP hb hv hlen hold hvalue hn
    have hle := hgrows.slotCount_le v p
    omega
  · rw [hgrows.entry_new b varN p hb hlen (Bool.eq_false_iff.mpr hold) hhas] at hvalue
    contradiction

/-- Committing a write request keeps the coverage: a larger bound extends its clients, a
smaller one is covered by the old one. -/
theorem CoveredOn.commit (h : CoveredOn D P s) {r : SetRequest} {var : Var} {depth : Nat}
    (hgranted : Granted D s r var) (hcommit : commit D depth var r s = .ok ((), s')) :
    CoveredOn D P s' := by
  have hgrows := commit_grows hgranted.has hcommit
  have hmono : ∀ v p, s.slotCount v p ≤ s'.slotCount v p := by
    intro v p
    have hle := hgrows.slotCount_le v p
    rwa [Slots.slotCount_congr (Slots.updateEntry_numSlots s _ _ _)] at hle
  intro b varN v p text n hP hb hv hlen hhas hvalue hn
  by_cases hself : b = r.inst.var ∧ p = r.inst.indices
  · obtain ⟨rfl, rfl⟩ := hself
    obtain rfl : var = varN := Option.some.inj (hgranted.var_eq.symm.trans hb)
    have hentry := hgrows.entry_eq r.inst.var r.inst.indices
      (by rw [Slots.updateEntry_has]; exact hgranted.has)
    rw [Slots.updateEntry_entry, if_pos ⟨rfl, rfl⟩] at hentry
    rw [hentry] at hvalue
    have hle := hmono v r.inst.indices
    by_cases hpos : n ≤ 0
    · omega
    by_cases hraise : boundNumber (s.entry r.inst.var r.inst.indices).value < n
    · -- the request carries the new bound, so the clients have been extended
      cases hreq : r.value with
      | none =>
          have hold : (s.entry r.inst.var r.inst.indices).value = some text := by
            simpa [SetRequest.applied, hreq] using hvalue
          rw [hold, boundNumber_some hn] at hraise
          omega
      | some value =>
          obtain rfl : value = text := by simpa [SetRequest.applied, hreq] using hvalue
          have hext := commit_extends hgranted hcommit hreq hn hraise (by omega) hv
          have hlt := Slots.lt_slotCount_of_has hext
          have hrange := varValueConvertToInteger_range hn
          have htoNat := toNat_toUInt32 (n := n - 1) (by omega) (by omega)
          omega
    · have hpos : 0 < boundNumber (s.entry r.inst.var r.inst.indices).value := by omega
      obtain ⟨old, hold, hconv⟩ := boundNumber_pos hpos
      have hcover := h _ _ v _ old _ hP hb hv hlen hgranted.has hold hconv
      omega
  · by_cases hold : s.has b p = true
    · rw [hgrows.entry_eq b p (by rwa [Slots.updateEntry_has]), Slots.updateEntry_entry,
        if_neg hself] at hvalue
      have hcover := h b varN v p text n hP hb hv hlen hold hvalue hn
      have hle := hmono v p
      omega
    · have hnot : (s.updateEntry r.inst.var r.inst.indices r.applied).has b p = false := by
        rw [Slots.updateEntry_has]
        exact Bool.eq_false_iff.mpr hold
      rw [hgrows.entry_new b varN p hb hlen hnot hhas] at hvalue
      contradiction

theorem Slots.clearArray_slotCount (hbelow : ¬ (v = m ∧ q <+: p)) :
    (s.clearArray m q).slotCount v p = s.slotCount v p := by
  have hreach : ∀ done rest, ¬ (v = m ∧ q <+: done ++ rest) →
      (s.clearArray m q).reaches v done rest = s.reaches v done rest := by
    intro done rest
    induction rest generalizing done with
    | nil => exact fun _ => rfl
    | cons i rest ih =>
        intro hnot
        have hrest : ¬ (v = m ∧ q <+: (done ++ [i]) ++ rest) := by
          rwa [List.append_assoc]
        have hdone : ¬ (v = m ∧ done = q) := by
          rintro ⟨hv, rfl⟩
          exact hnot ⟨hv, List.prefix_append _ _⟩
        rw [Slots.reaches, Slots.reaches, ih _ hrest]
        simp only [Slots.clearArray, Slots.setNumSlots_numSlots, if_neg hdone]
  have hhas : (s.clearArray m q).has v p = s.has v p := hreach [] p hbelow
  have hhere : ¬ (v = m ∧ p = q) := by
    rintro ⟨hv, rfl⟩
    exact hbelow ⟨hv, List.prefix_refl _⟩
  rw [Slots.slotCount, Slots.slotCount, hhas]
  simp only [Slots.clearArray, Slots.setNumSlots_numSlots, if_neg hhere]

theorem Slots.has_of_clearArray (h : (s.clearArray m q).has v p = true) : s.has v p = true := by
  induction p using List.reverseRecOn with
  | nil => exact Slots.has_nil
  | append_singleton p i ih =>
      rw [Slots.has_concat_iff] at h ⊢
      refine ⟨ih h.1, ?_⟩
      have hlt := h.2
      simp only [Slots.clearArray, Slots.setNumSlots_numSlots] at hlt
      split at hlt
      · exact absurd hlt UInt32.not_lt_zero
      · exact hlt

theorem CoveredOn.clearArray (h : CoveredOn D P s)
    (hP : ∀ p, P m p → ¬ q <+: p) : CoveredOn D P (s.clearArray m q) := by
  intro b varN v p text n hPp hb hv hlen hhas hvalue hn
  have hbelow : ¬ (v = m ∧ q <+: p) := by
    rintro ⟨rfl, hq⟩
    exact hP p hPp hq
  rw [Slots.clearArray_slotCount hbelow]
  exact h b varN v p text n hPp hb hv hlen (Slots.has_of_clearArray hhas) hvalue hn

theorem CoveredOn.move {A : SetRequest → Prop} (hmove : Move D A s s')
    (hclear : ∀ m p, D.matchArray = some m → P m p → s'.clears = s.clears)
    (h : CoveredOn D P s) : CoveredOn D P s' := by
  cases hmove with
  | cacheDefault hhas htext =>
      refine h.of_same rfl fun v p => ?_
      rw [Slots.updateEntry_entry]
      split
      · next heq => rw [heq.1, heq.2]
      · rfl
  | readActive inst active =>
      refine h.of_same rfl fun v p => ?_
      rw [Slots.updateEntry_entry]
      split
      · next heq => rw [heq.1, heq.2]
      · rfl
  | cycle => exact h.of_same rfl fun _ _ => rfl
  | create hgrows => exact h.grows hgrows
  | write hallowed hgranted hcommit => exact h.commit hgranted hcommit
  | @clear m hmatch =>
      have hother : ∀ p, ¬ P m p := fun p hP => Nat.succ_ne_self _ (hclear m p hmatch hP)
      exact h.clearArray fun p hP _ => hother p hP

theorem Covered.move {A : SetRequest → Prop} (hmove : Move D A s s')
    (hclears : s'.clears = s.clears) (h : Covered D s) : Covered D s' :=
  covered_iff.mpr ((covered_iff.mp h).move hmove fun _ _ _ _ => hclears)

/-- In every run of write calls that starts without stored values and clears no array, the
arrays of the clients cover the stored bounds. -/
theorem covered_of_run (hstart : Unwritten D s) (hrun : Run D s s')
    (hclears : s'.clears = s.clears) : Covered D s' :=
  Moves.invariant (fun _ _ hmove hclear h => h.move hmove hclear) hrun.moves hclears
    hstart.covered

end

/-- Writing `X_3` raises `X_N` to `3`, and `X_%` has three slots then. -/
theorem covered_of_run_writeX :
    ∃ s', Run (sampleDefs (.literal (.boolean true))) Slots.init s' ∧
      (s'.entry 0 []).value = some ['3'] ∧ s'.slotCount 1 [] = 3 ∧
      Covered (sampleDefs (.literal (.boolean true))) s' := by
  let D := sampleDefs (.literal (.boolean true))
  let write : SlotExec WriteResult := (writeX 2 ['a']).exec D (calls D 8)
  have hexec : write Slots.init = .ok (.written, write.stateAfter Slots.init) :=
    Exec.ok_of_result (by decide)
  have hrun : Run D Slots.init (write.stateAfter Slots.init) :=
    Relation.ReflTransGen.single ⟨8, writeX 2 ['a'], .written, hexec⟩
  exact ⟨write.stateAfter Slots.init, hrun, by decide, by decide,
    covered_of_run unwritten_init hrun (by decide)⟩

end Mkfli4l
