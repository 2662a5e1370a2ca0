import Mkfli4l.Var.ScopeMembers

/-!
# When the destruction of a scope is safe

The destruction goes from place to place.  A member is destroyed in its place and stays there,
unless it is an instance of a template that has had its turn before: then the template has removed
it.  So it is known at any time which members are still in the map and which of them have been
destroyed, and what the search for an instance reads.
-/

namespace Mkfli4l
namespace Scope

open Lib

variable {s s₀ s' : Members} {i i' : Fin scopeParams.numBuckets} {n j j' k fuel : Nat}
  {e x y : Member}

/-- A place comes before the place `k` of the bucket with the number `n`. -/
def Passed (i : Fin scopeParams.numBuckets) (j : Nat) (n k : Nat) : Prop :=
  i.val < n ∨ i.val = n ∧ j < k

theorem before_iff : Before i j i' j' ↔ Passed i j i'.val j' := by
  simp only [Before, Passed, Fin.lt_def, Fin.ext_iff]

/-- What holds when `hashmap_destroy()` has come to the place `k` of the bucket `n`, where `s₀` is
the scope before. -/
structure Destroying (s₀ s : Members) (n k : Nat) : Prop where
  wellFormed : WellFormed s
  alloc : ∀ i, (s.members i).numAllocEntries = (s₀.members i).numAllocEntries
  stays : ∀ i j e, MemberAt s.members i j e → MemberAt s₀.members i j e
  gone : ∀ i j e, MemberAt s₀.members i j e → MemberAt s.members i j e ∨
    e ∈ s.freed ∧ ∃ i' j' template, MemberAt s₀.members i' j' template ∧
      template.kind = .template ∧ e.kind = .var (some template.id) ∧ Before i' j' i j ∧
      Passed i' j' n k
  passed : ∀ i j e, MemberAt s.members i j e → (e ∈ s.freed ↔ Passed i j n k)
  emptied : ∀ i j template i' j' e, MemberAt s₀.members i j template → template.kind = .template →
    Passed i j n k → MemberAt s₀.members i' j' e → e.kind = .var (some template.id) →
    Before i j i' j' → ¬ MemberAt s.members i' j' e
  freed : ∃ destroyed, s.freed = s₀.freed ++ destroyed ∧ destroyed.Nodup ∧
    ∀ e ∈ destroyed, e ∈ entriesOf s₀.members

theorem Live.destroying (hlive : Live s) : Destroying s s 0 0 := by
  have hnot (i : Fin scopeParams.numBuckets) (j : Nat) : ¬ Passed i j 0 0 := by
    simp [Passed]
  refine ⟨hlive.wellFormed, fun _ => rfl, fun _ _ _ hat => hat, fun _ _ _ hat => .inl hat, ?_, ?_,
    [], by simp, List.nodup_nil, nofun⟩
  · intro i j e hat
    have halive := hlive.alive e (mem_entriesOf_of_place hat)
    exact ⟨fun hfreed => absurd hfreed halive, fun hpassed => absurd hpassed (hnot i j)⟩
  · exact fun i j _ _ _ _ _ _ hpassed => absurd hpassed (hnot i j)

namespace Destroying

theorem template_stays (hd : Destroying s₀ s n k) (hat : MemberAt s₀.members i j e)
    (hkind : e.kind = .template) : MemberAt s.members i j e := by
  rcases hd.gone i j e hat with hat | ⟨-, _, _, _, -, -, hvar, -⟩
  · exact hat
  · exact nomatch hkind.symm.trans hvar

theorem nextBucket (hd : Destroying s₀ s n k) (hsound : Sound s₀.members)
    (hend : ∀ i : Fin scopeParams.numBuckets, i.val = n → (s₀.members i).numAllocEntries ≤ k) :
    Destroying s₀ s (n + 1) 0 := by
  have hpassed {i : Fin scopeParams.numBuckets} {j : Nat} {e : Member}
      (hat : MemberAt s₀.members i j e) : Passed i j (n + 1) 0 ↔ Passed i j n k := by
    have hlength := (List.getElem?_eq_some_iff.mp hat).1
    have hend := hend i
    rw [hsound.alloc i] at hend
    simp only [Passed]
    omega
  refine ⟨hd.wellFormed, hd.alloc, hd.stays, ?_, ?_, ?_, hd.freed⟩
  · intro i j e hat
    refine (hd.gone i j e hat).imp_right ?_
    rintro ⟨hfreed, i', j', template, hat', hkind, hvar, hbefore, hdone⟩
    exact ⟨hfreed, i', j', template, hat', hkind, hvar, hbefore, (hpassed hat').mpr hdone⟩
  · intro i j e hat
    rw [hpassed (hd.stays i j e hat)]
    exact hd.passed i j e hat
  · intro i j template i' j' e hat hkind hdone
    exact hd.emptied i j template i' j' e hat hkind ((hpassed hat).mp hdone)

theorem passed_succ : Passed i j n (k + 1) ↔ Passed i j n k ∨ i.val = n ∧ j = k := by
  simp only [Passed]
  omega

theorem skip (hd : Destroying s₀ s i.val k) (hfree : ∀ e, ¬ MemberAt s.members i k e) :
    Destroying s₀ s i.val (k + 1) := by
  refine ⟨hd.wellFormed, hd.alloc, hd.stays, ?_, ?_, ?_, hd.freed⟩
  · intro i₁ j e hat
    refine (hd.gone i₁ j e hat).imp_right ?_
    rintro ⟨hfreed, i', j', template, hat', hkind, hvar, hbefore, hdone⟩
    exact ⟨hfreed, i', j', template, hat', hkind, hvar, hbefore, passed_succ.mpr (.inl hdone)⟩
  · intro i₁ j e hat
    rw [hd.passed i₁ j e hat, passed_succ, or_iff_left]
    rintro ⟨hi, rfl⟩
    obtain rfl := Fin.ext hi
    exact hfree e hat
  · intro i₁ j template i' j' e hat hkind hdone
    rcases passed_succ.mp hdone with hdone | ⟨hi, rfl⟩
    · exact hd.emptied i₁ j template i' j' e hat hkind hdone
    · obtain rfl := Fin.ext hi
      exact absurd (hd.template_stays hat hkind) (hfree template)

/-- The destruction of a member in its place. -/
theorem destroy (hd : Destroying s₀ s i.val k) (hat : MemberAt s.members i k e)
    (hdestroyed : DestroyedInPlace s e s') : Destroying s₀ s' i.val (k + 1) := by
  have hwf := hd.wellFormed
  have hmem := mem_entriesOf_of_place hat
  have hself : ¬ Passed i k i.val k := by simp [Passed]
  have hefreed : e ∉ s.freed := fun hfreed => hself ((hd.passed i k e hat).mp hfreed)
  have hgone (y : Member) := hwf.mem_goneWith (x := y) hmem
  have hegone : e ∉ s.goneWith e := by
    intro hin
    obtain ⟨-, -, hvar⟩ := (hgone e).mp hin
    exact nomatch hvar.symm.trans (hwf.template e e (.inl hmem) (.inl hmem) hvar)
  have hplace {i₁ : Fin scopeParams.numBuckets} {j : Nat} (hat₁ : MemberAt s.members i₁ j e) :
      i₁.val = i.val ∧ j = k := by
    obtain ⟨rfl, rfl⟩ := hwf.sound.unique hat₁ hat
    exact ⟨rfl, rfl⟩
  refine ⟨hdestroyed.wellFormed, fun i => (hdestroyed.alloc i).trans (hd.alloc i), ?_, ?_, ?_, ?_, ?_⟩
  · exact fun i₁ j y hy => hd.stays i₁ j y ((hdestroyed.at_iff i₁ j y).mp hy).1
  · intro i₁ j y hy
    rcases hd.gone i₁ j y hy with hy' | ⟨hfreed, i', j', template, hat', hkind, hvar, hbefore, hdone⟩
    · by_cases hin : y ∈ s.goneWith e
      · obtain ⟨-, hyfreed, hvar⟩ := (hgone y).mp hin
        have hkind := hwf.template y e (.inl (mem_entriesOf_of_place hy')) (.inl hmem) hvar
        refine .inr ⟨?_, i, k, e, hd.stays i k e hat, hkind, hvar, ?_,
          passed_succ.mpr (.inr ⟨rfl, rfl⟩)⟩
        · rw [hdestroyed.freed]
          exact List.mem_append_left _ (List.mem_append_right _ hin)
        · -- an instance that has not been destroyed comes behind the template
          have hnot : ¬ Passed i₁ j i.val k := fun hpassed =>
            hyfreed ((hd.passed i₁ j y hy').mpr hpassed)
          have hne : ¬ (i₁.val = i.val ∧ j = k) := by
            rintro ⟨hi, rfl⟩
            obtain rfl := Fin.ext hi
            obtain rfl := Option.some.inj (Option.some.inj (hy'.symm.trans hat))
            exact hegone hin
          rw [before_iff]
          simp only [Passed] at hnot ⊢
          omega
      · exact .inl ((hdestroyed.at_iff i₁ j y).mpr ⟨hy', hin⟩)
    · refine .inr ⟨?_, i', j', template, hat', hkind, hvar, hbefore, passed_succ.mpr (.inl hdone)⟩
      rw [hdestroyed.freed, List.append_assoc]
      exact List.mem_append_left _ hfreed
  · intro i₁ j y hy
    obtain ⟨hy, hout⟩ := (hdestroyed.at_iff i₁ j y).mp hy
    rw [hdestroyed.freed, List.mem_append, List.mem_append, List.mem_singleton,
      hd.passed i₁ j y hy, or_iff_left hout, passed_succ]
    refine or_congr_right ⟨?_, ?_⟩
    · rintro rfl
      exact hplace hy
    · rintro ⟨hi, rfl⟩
      obtain rfl := Fin.ext hi
      exact Option.some.inj (Option.some.inj (hy.symm.trans hat))
  · intro i₁ j template i' j' y htemplate hkind hdone hy hvar hbefore hy'
    obtain ⟨hy', hout⟩ := (hdestroyed.at_iff i' j' y).mp hy'
    rcases passed_succ.mp hdone with hdone | ⟨hi, rfl⟩
    · exact hd.emptied i₁ j template i' j' y htemplate hkind hdone hy hvar hbefore hy'
    · obtain rfl := Fin.ext hi
      obtain rfl := Option.some.inj (Option.some.inj ((hd.stays _ _ e hat).symm.trans htemplate))
      have hyfreed : y ∈ s.freed := by
        by_contra hyfreed
        exact hout ((hgone y).mpr ⟨mem_entriesOf_of_place hy', hyfreed, hvar⟩)
      have hpassed := (hd.passed i' j' y hy').mp hyfreed
      rw [before_iff] at hbefore
      simp only [Passed] at hpassed hbefore
      omega
  · obtain ⟨destroyed, hfreed, hnodup, hsub⟩ := hd.freed
    have hin₀ {y : Member} (hy : y ∈ entriesOf s.members) : y ∈ entriesOf s₀.members := by
      obtain ⟨i₁, j, hy⟩ := mem_entriesOf_iff.mp hy
      exact mem_entriesOf_of_place (hd.stays i₁ j y hy)
    have hnew {y : Member} (hy : y ∉ s.freed) : y ∉ destroyed := fun hin =>
      hy (hfreed ▸ List.mem_append_right _ hin)
    have hgoneNodup : (s.goneWith e).Nodup := by
      rw [Members.goneWith]
      split
      · exact List.nodup_nil
      · exact hwf.nodup e.id
    refine ⟨destroyed ++ s.goneWith e ++ [e], ?_, ?_, ?_⟩
    · rw [hdestroyed.freed, hfreed]
      simp only [List.append_assoc]
    · refine List.nodup_append.mpr ⟨List.nodup_append.mpr ⟨hnodup, hgoneNodup, ?_⟩,
        List.nodup_singleton e, ?_⟩
      · rintro y hy z hz rfl
        exact hnew ((hgone y).mp hz).2.1 hy
      · rintro y hy z hz rfl
        rw [List.mem_singleton.mp hz] at hy
        rcases List.mem_append.mp hy with hy | hy
        · exact hnew hefreed hy
        · exact hegone hy
    · intro y hy
      rcases List.mem_append.mp hy with hy | hy
      · rcases List.mem_append.mp hy with hy | hy
        · exact hsub y hy
        · exact hin₀ ((hgone y).mp hy).1
      · rw [List.mem_singleton.mp hy]
        exact hin₀ hmem

theorem behindDestroyed (hd : Destroying s₀ s i.val k) (hat : MemberAt s.members i k e)
    (hx : x ∈ s.goneWith e) (hreads : s.readsFreed x.name = true) :
    InstanceBehindDestroyed s₀.members := by
  have hwf := hd.wellFormed
  have hmem := mem_entriesOf_of_place hat
  obtain ⟨hxmem, hxfreed, hxkind⟩ := (hwf.mem_goneWith hmem).mp hx
  have hkind := hwf.template x e (.inl hxmem) (.inl hmem) hxkind
  obtain ⟨i₁, l, hxat⟩ := mem_entriesOf_iff.mp hxmem
  obtain ⟨j, hj, y, hyat, hyfreed⟩ := (hwf.readsFreed_iff hxat).mp hreads
  have hxnot : ¬ Passed i₁ l i.val k := fun hpassed => hxfreed ((hd.passed i₁ l x hxat).mpr hpassed)
  have hypassed := (hd.passed i₁ j y hyat).mp hyfreed
  obtain rfl : i₁ = i := by
    refine Fin.ext ?_
    simp only [Passed] at hxnot hypassed
    omega
  have hne : l ≠ k := by
    rintro rfl
    obtain rfl := Option.some.inj (Option.some.inj (hxat.symm.trans hat))
    exact nomatch hkind.symm.trans hxkind
  simp only [Passed, lt_self_iff_false, true_and, false_or] at hxnot hypassed
  refine ⟨i₁, j, k, l, y, e, x, hd.stays _ _ y hyat, hd.stays _ _ e hat, hd.stays _ _ x hxat,
    hypassed, by omega, hkind, hxkind, ?_⟩
  -- a template before it would have removed the member
  rintro ⟨i', j', template, htemplate, htkind, hykind, hbefore⟩
  refine hd.emptied i' j' template i₁ j y htemplate htkind ?_ (hd.stays _ _ y hyat) hykind hbefore hyat
  rw [before_iff] at hbefore
  simp only [Passed] at hbefore ⊢
  omega

theorem place (hd : Destroying s₀ s i.val k) (hrun : destroyPlace fuel i s k = some s') :
    Destroying s₀ s' i.val (k + 1) := by
  rw [destroyPlace] at hrun
  split at hrun
  · exact nomatch hrun
  · next hfree =>
      obtain rfl := Option.some.inj hrun
      refine hd.skip fun e hat => ?_
      exact nomatch hfree.symm.trans hat
  · next e hat =>
      split at hrun
      · exact nomatch hrun
      · next hfreed =>
          exact hd.destroy hat
            (destroyAction_destroys hd.wellFormed (mem_entriesOf_of_place hat) hfreed hrun)

theorem place_succeeds (hd : Destroying s₀ s i.val k)
    (hsafe : ¬ InstanceBehindDestroyed s₀.members)
    (hk : k < (s₀.members i).numAllocEntries) (hfuel : (entriesOf s₀.members).length < fuel) :
    ∃ s', destroyPlace fuel i s k = some s' := by
  have hwf := hd.wellFormed
  have hlength : k < (s.members i).entries.length := by
    rw [← hwf.sound.alloc i, hd.alloc i]
    exact hk
  obtain ⟨slot, hslot⟩ : ∃ slot, (s.members i).entries[k]? = some slot :=
    ⟨_, List.getElem?_eq_getElem hlength⟩
  rw [destroyPlace, hslot]
  cases slot with
  | none => exact ⟨s, rfl⟩
  | some e =>
      have hmem : e ∈ entriesOf s.members := mem_entriesOf_of_place hslot
      have hfreed : e ∉ s.freed := by
        rw [hd.passed i k e hslot]
        simp [Passed]
      dsimp only
      rw [if_neg hfreed]
      refine destroyAction_succeeds hwf hmem hfreed ?_ (Nat.lt_of_le_of_lt ?_ hfuel)
      · intro x hx
        rw [Bool.eq_false_iff]
        exact fun hreads => hsafe (hd.behindDestroyed hslot hx hreads)
      · have hnodup : (s.goneWith e).Nodup := by
          rw [Members.goneWith]
          split
          · exact List.nodup_nil
          · exact hwf.nodup e.id
        refine (hnodup.subperm fun x hx => ?_).length_le
        obtain ⟨i₁, l, hxat⟩ := mem_entriesOf_iff.mp ((hwf.mem_goneWith hmem).mp hx).1
        exact mem_entriesOf_of_place (hd.stays i₁ l x hxat)

theorem place_fails {l : Nat} {template : Member} (hwf₀ : WellFormed s₀)
    (hd : Destroying s₀ s i.val k) (hy : MemberAt s₀.members i j y)
    (htemplate : MemberAt s₀.members i k template) (hx : MemberAt s₀.members i l x) (hjk : j < k)
    (hkl : k < l) (hkind : template.kind = .template) (hxkind : x.kind = .var (some template.id))
    (hstays : ¬ RemovedByTemplate s₀.members i j y) : destroyPlace fuel i s k = none := by
  have hwf := hd.wellFormed
  have htemplate' := hd.template_stays htemplate hkind
  have hmem := mem_entriesOf_of_place htemplate'
  have hxat : MemberAt s.members i l x := by
    rcases hd.gone i l x hx with hxat | ⟨-, i', j', template', hat', -, hxkind', -, hdone⟩
    · exact hxat
    · -- the only template that could have removed it is the one that has its turn now
      have hid : template'.id = template.id :=
        Option.some.inj (MemberKind.var.inj (hxkind'.symm.trans hxkind))
      obtain rfl := hwf₀.ids template' template (.inl (mem_entriesOf_of_place hat'))
        (.inl (mem_entriesOf_of_place htemplate)) hid
      obtain ⟨rfl, rfl⟩ := hwf₀.sound.unique hat' htemplate
      simp [Passed] at hdone
  have hyat : MemberAt s.members i j y := by
    rcases hd.gone i j y hy with hyat | ⟨-, i', j', template', hat', hkind', hykind, hbefore, -⟩
    · exact hyat
    · exact absurd ⟨i', j', template', hat', hkind', hykind, hbefore⟩ hstays
  have hxfreed : x ∉ s.freed := by
    rw [hd.passed i l x hxat]
    simp only [Passed, lt_self_iff_false, true_and, false_or]
    omega
  have hyfreed : y ∈ s.freed := by
    rw [hd.passed i j y hyat]
    exact .inr ⟨rfl, hjk⟩
  have hgone : x ∈ s.goneWith template :=
    (hwf.mem_goneWith hmem).mpr ⟨mem_entriesOf_of_place hxat, hxfreed, hxkind⟩
  have hreads : s.readsFreed x.name = true :=
    (hwf.readsFreed_iff hxat).mpr ⟨j, by omega, y, hyat, hyfreed⟩
  rw [destroyPlace, show (s.members i).entries[k]? = some (some template) from htemplate']
  dsimp only
  split
  · rfl
  · exact destroyAction_fails hwf hgone hreads

theorem bucket (hsound : Sound s₀.members) (hd : Destroying s₀ s i.val 0)
    (hrun : destroyBucket fuel s i = some s') : Destroying s₀ s' (i.val + 1) 0 := by
  have hall := foldlM_keeps (I := fun k s => Destroying s₀ s i.val k)
    (fun k hk s s' hd hrun => hd.place (by simpa using hrun)) hd hrun
  rw [List.length_range] at hall
  refine hall.nextBucket hsound fun i' hi' => ?_
  obtain rfl := Fin.ext hi'
  rw [hd.alloc]

theorem bucket_succeeds (hd : Destroying s₀ s i.val 0)
    (hsafe : ¬ InstanceBehindDestroyed s₀.members)
    (hfuel : (entriesOf s₀.members).length < fuel) : ∃ s', destroyBucket fuel s i = some s' := by
  refine foldlM_succeeds (I := fun k s => Destroying s₀ s i.val k) (fun k hk t hd' => ?_) hd
  rw [List.length_range, hd.alloc i] at hk
  rw [List.get_eq_getElem, List.getElem_range]
  obtain ⟨t', hrun⟩ := hd'.place_succeeds hsafe hk hfuel
  exact ⟨t', hrun, hd'.place hrun⟩

theorem perm (hlive : Live s₀) (hd : Destroying s₀ s scopeParams.numBuckets 0) :
    ∃ destroyed, s.freed = s₀.freed ++ destroyed ∧ destroyed.Perm (entriesOf s₀.members) := by
  obtain ⟨destroyed, hfreed, hnodup, hsub⟩ := hd.freed
  obtain ⟨m, hrep⟩ := hlive.wellFormed.sound
  refine ⟨destroyed, hfreed, (List.perm_ext_iff_of_nodup hnodup hrep.lists.nodup).mpr fun e => ?_⟩
  refine ⟨hsub e, fun he => ?_⟩
  obtain ⟨i, j, hat⟩ := mem_entriesOf_iff.mp he
  have hin : e ∈ s.freed := by
    rcases hd.gone i j e hat with hat' | ⟨hin, -⟩
    · exact (hd.passed i j e hat').mpr (.inl i.isLt)
    · exact hin
  rw [hfreed] at hin
  exact (List.mem_append.mp hin).resolve_left (hlive.alive e he)

end Destroying

theorem Live.destroyBucket_keeps (hlive : Live s) (k : Nat)
    (hk : k < (List.finRange scopeParams.numBuckets).length) (t t' : Members)
    (hd : Destroying s t k 0)
    (hrun : destroyBucket fuel t ((List.finRange scopeParams.numBuckets).get ⟨k, hk⟩) = some t') :
    Destroying s t' (k + 1) 0 := by
  rw [List.get_eq_getElem, List.getElem_finRange] at hrun
  exact Destroying.bucket hlive.wellFormed.sound hd hrun

theorem Live.destroys_fails (hlive : Live s) (hbehind : InstanceBehindDestroyed s.members) :
    ¬ DestroysEachOnce s := by
  rintro ⟨fuel, s', -, hrun, -⟩
  obtain ⟨i, j, k, l, y, template, x, hy, htemplate, hx, hjk, hkl, hkind, hxkind, hstays⟩ := hbehind
  rw [hashmapDestroy] at hrun
  have hi : i.val < (List.finRange scopeParams.numBuckets).length := by
    rw [List.length_finRange]
    exact i.isLt
  -- the destruction comes to the bucket, and there to the place of the template
  obtain ⟨t, t', hd, hrun⟩ := foldlM_round (I := fun k t => Destroying s t k 0)
    hlive.destroyBucket_keeps hlive.destroying hrun hi
  rw [List.get_eq_getElem, List.getElem_finRange] at hrun
  have halloc : k < (t.members i).numAllocEntries := by
    rw [hd.alloc, hlive.wellFormed.sound.alloc]
    exact (List.getElem?_eq_some_iff.mp htemplate).1
  obtain ⟨u, u', hd', hplace⟩ := foldlM_round (I := fun k t => Destroying s t i.val k)
    (fun k hk t t' hd hrun => hd.place (by simpa using hrun)) hd hrun
    (k := k) (by simpa using halloc)
  have hfails : destroyPlace fuel i u k = none :=
    Destroying.place_fails hlive.wellFormed hd' hy htemplate hx hjk hkl hkind hxkind hstays
  rw [List.get_eq_getElem, List.getElem_range] at hplace
  exact nomatch hfails.symm.trans hplace

theorem Live.destroys_succeeds (hlive : Live s) (hsafe : ¬ InstanceBehindDestroyed s.members) :
    DestroysEachOnce s := by
  obtain ⟨s', hrun⟩ : ∃ s', hashmapDestroy ((entriesOf s.members).length + 1) s = some s' := by
    refine foldlM_succeeds (I := fun k t => Destroying s t k 0) (fun k hk t hd => ?_)
      hlive.destroying
    have hn : k < scopeParams.numBuckets := by
      rw [List.length_finRange] at hk
      exact hk
    have hd : Destroying s t (⟨k, hn⟩ : Fin scopeParams.numBuckets).val 0 := hd
    obtain ⟨t', hrun⟩ := hd.bucket_succeeds hsafe (Nat.lt_succ_self _)
    refine ⟨t', ?_, Destroying.bucket hlive.wellFormed.sound hd hrun⟩
    rw [List.get_eq_getElem, List.getElem_finRange]
    exact hrun
  have hend : Destroying s s' (List.finRange scopeParams.numBuckets).length 0 := by
    rw [hashmapDestroy] at hrun
    exact foldlM_keeps (I := fun k t => Destroying s t k 0) hlive.destroyBucket_keeps
      hlive.destroying hrun
  rw [List.length_finRange] at hend
  obtain ⟨destroyed, hfreed, hperm⟩ := hend.perm hlive
  exact ⟨_, s', destroyed, hrun, hfreed, hperm⟩

/-- When the destruction of a scope is safe.  It destroys every member once, without reading or
visiting one that has been destroyed, unless in some bucket a template is followed by one of its
instances and a member comes before it which no template removes. -/
theorem scopeDestroy_safe_iff {regexec : CString → CString → Bool}
    (hreach : Reaches regexec s) : DestroysEachOnce s ↔ ¬ InstanceBehindDestroyed s.members :=
  ⟨fun hdestroys hbehind => hreach.live.destroys_fails hbehind hdestroys,
    hreach.live.destroys_succeeds⟩

/-- A template and an instance in another bucket, then a variable that is removed. -/
theorem scopeDestroy_safe_iff_sample :
    ∃ s, scopeRun sampleRegexec 5 varScopeCreate [.addTemplate "A.*".toList, .tryGet "AB".toList,
        .addVar "FK".toList, .remove "fk".toList] = some s ∧ DestroysEachOnce s := by
  have hsome : ((scopeRun sampleRegexec 5 varScopeCreate [.addTemplate "A.*".toList,
      .tryGet "AB".toList, .addVar "FK".toList, .remove "fk".toList]).map fun s =>
        decide ((entriesOf s.members).length < 3)) = some true := by
    decide +kernel
  obtain ⟨s, hrun, hshort⟩ := Option.map_eq_some_iff.mp hsome
  have hreach := Reaches.create.run hrun
  refine ⟨s, hrun, (scopeDestroy_safe_iff hreach).mpr ?_⟩
  rintro ⟨i, j, k, l, y, template, x, hy, htemplate, hx, hjk, hkl, -⟩
  -- three places have three members
  have hsound := hreach.live.wellFormed.sound
  have hne {j k : Nat} {y x : Member} (hy : MemberAt s.members i j y) (hx : MemberAt s.members i k x)
      (hjk : j < k) : y ≠ x := by
    rintro rfl
    exact hjk.ne (hsound.unique hy hx).2
  have hsub : [y, template, x] ⊆ entriesOf s.members := by
    intro e he
    rcases List.mem_cons.mp he with rfl | he
    · exact mem_entriesOf_of_place hy
    rcases List.mem_cons.mp he with rfl | he
    · exact mem_entriesOf_of_place htemplate
    · rw [List.mem_singleton.mp he]
      exact mem_entriesOf_of_place hx
  have hnodup : [y, template, x].Nodup := by
    simp [hne hy htemplate hjk, hne hy hx (hjk.trans hkl), hne htemplate hx hkl]
  have hlength := (hnodup.subperm hsub).length_le
  have hshort := of_decide_eq_true hshort
  simp only [List.length_cons, List.length_nil] at hlength
  omega

/-- The variable `FK`, the template `A.*` and its instance `AIC` are in one bucket.  The template
removes its instance, and the search for it reads the name of `FK`, which has been destroyed. -/
theorem scopeDestroy_readsFreed :
    ∃ s, scopeRun sampleRegexec 5 varScopeCreate
        [.addVar "FK".toList, .addTemplate "A.*".toList, .tryGet "AIC".toList] = some s ∧
      Reaches sampleRegexec s ∧ ¬ DestroysEachOnce s := by
  have hbucket : ((scopeRun sampleRegexec 5 varScopeCreate
      [.addVar "FK".toList, .addTemplate "A.*".toList, .tryGet "AIC".toList]).map fun s =>
        (s.members ⟨617, by decide⟩).entries) =
      some [some ⟨0, "FK".toList, .var none⟩, some ⟨1, "A.*".toList, .template⟩,
        some ⟨2, "AIC".toList, .var (some 1)⟩] := by
    decide +kernel
  obtain ⟨s, hrun, hentries⟩ := Option.map_eq_some_iff.mp hbucket
  have hreach := Reaches.create.run hrun
  refine ⟨s, hrun, hreach, hreach.live.destroys_fails ?_⟩
  refine ⟨⟨617, by decide⟩, 0, 1, 2, ⟨0, "FK".toList, .var none⟩, ⟨1, "A.*".toList, .template⟩,
    ⟨2, "AIC".toList, .var (some 1)⟩, ?_, ?_, ?_, by decide, by decide, rfl, rfl, ?_⟩
  · rw [MemberAt, hentries]
    rfl
  · rw [MemberAt, hentries]
    rfl
  · rw [MemberAt, hentries]
    rfl
  · rintro ⟨_, _, _, -, -, hkind, -⟩
    exact Option.some_ne_none _ (MemberKind.var.inj hkind).symm

end Scope
end Mkfli4l
