import Mathlib.Data.List.Nodup
import Mathlib.Logic.Relation
import Mathlib.Tactic

/-!
# Recursive traversals without a visited set

A walker goes through the keys of a node one after the other.  Following a key changes the state and
may lead to another node, which is then traversed in the same way before the next key.  Nothing
keeps the walker from a node that it is just traversing, so the recursion need not end; it is
modelled with fuel for its depth.

A `Visit` is a point of the traversal: the node, the chain of nodes that led to it, and the keys that
are left.  If edges stay once they have been followed, a traversal ends if and only if no chain of a
visit holds a node twice (`terminates_iff`).
-/

namespace Mkfli4l
namespace Lib

universe u

variable {σ ν κ : Type u}

/-- What a traversal consists of: the keys of a node, and following one of them.  The flag says that
nothing has gone wrong with the keys before. -/
structure Walker (σ ν κ : Type u) where
  keys : σ → ν → List κ
  follow : σ → ν → κ → Bool → σ × Option ν

/-- A point of a traversal. -/
structure Visit (σ ν κ : Type u) where
  state : σ
  chain : List ν
  node : ν
  keys : List κ
  ok : Bool

namespace Walker

variable (W : Walker σ ν κ)

/-- The keys of a node, with a given way to traverse the nodes they lead to. -/
def scan (call : σ → List ν → ν → Option (σ × Bool)) (chain : List ν) (n : ν) :
    List κ → σ → Bool → Option (σ × Bool)
  | [], s, ok => some (s, ok)
  | k :: ks, s, ok =>
      match W.follow s n k ok with
      | (s', none) => scan call chain n ks s' false
      | (s', some c) =>
          match call s' (n :: chain) c with
          | none => none
          | some (s'', ok') => scan call chain n ks s'' (ok && ok')

/-- The traversal of a node at the end of a chain. -/
def traverse : Nat → σ → List ν → ν → Option (σ × Bool)
  | 0, _, _, _ => none
  | fuel + 1, s, chain, n => W.scan (traverse fuel) chain n (W.keys s n) s true

/-- The rest of a visit. -/
def finish (fuel : Nat) (v : Visit σ ν κ) : Option (σ × Bool) :=
  W.scan (W.traverse fuel) v.chain v.node v.keys v.state v.ok

/-- The first point of the traversal of a node. -/
def enter (s : σ) (chain : List ν) (n : ν) : Visit σ ν κ :=
  { state := s, chain, node := n, keys := W.keys s n, ok := true }

/-- From one point of a traversal to the next: past a key that leads nowhere, down to another node,
or past a node whose traversal has ended. -/
inductive Next : Visit σ ν κ → Visit σ ν κ → Prop
  | miss {s s' : σ} {chain : List ν} {n : ν} {k : κ} {ks : List κ} {ok : Bool}
      (hfollow : W.follow s n k ok = (s', none)) :
      Next ⟨s, chain, n, k :: ks, ok⟩ ⟨s', chain, n, ks, false⟩
  | descend {s s' : σ} {chain : List ν} {n c : ν} {k : κ} {ks : List κ} {ok : Bool}
      (hfollow : W.follow s n k ok = (s', some c)) :
      Next ⟨s, chain, n, k :: ks, ok⟩ (W.enter s' (n :: chain) c)
  | ascend {s s' s'' : σ} {chain : List ν} {n c : ν} {k : κ} {ks : List κ} {ok ok' : Bool}
      {fuel : Nat} (hfollow : W.follow s n k ok = (s', some c))
      (hcall : W.traverse fuel s' (n :: chain) c = some (s'', ok')) :
      Next ⟨s, chain, n, k :: ks, ok⟩ ⟨s'', chain, n, ks, ok && ok'⟩

/-- The points of the traversal that starts at a node. -/
def Visits (s : σ) (n : ν) (v : Visit σ ν κ) : Prop :=
  Relation.ReflTransGen W.Next (W.enter s [] n) v

variable {W} {s s' s'' : σ} {n c : ν} {k : κ} {ks : List κ} {ok ok' : Bool} {chain : List ν}
  {fuel fuel' : Nat} {v w : Visit σ ν κ}

theorem scan_miss {call : σ → List ν → ν → Option (σ × Bool)}
    (hfollow : W.follow s n k ok = (s', none)) :
    W.scan call chain n (k :: ks) s ok = W.scan call chain n ks s' false := by
  rw [scan, hfollow]

theorem scan_descend {call : σ → List ν → ν → Option (σ × Bool)}
    (hfollow : W.follow s n k ok = (s', some c)) :
    W.scan call chain n (k :: ks) s ok =
      (call s' (n :: chain) c).bind fun r => W.scan call chain n ks r.1 (ok && r.2) := by
  rw [scan, hfollow]
  dsimp only
  cases call s' (n :: chain) c <;> rfl

theorem scan_mono {call call' : σ → List ν → ν → Option (σ × Bool)}
    (hcall : ∀ s chain n r, call s chain n = some r → call' s chain n = some r) {r : σ × Bool}
    (h : W.scan call chain n ks s ok = some r) : W.scan call' chain n ks s ok = some r := by
  induction ks generalizing s ok with
  | nil => exact h
  | cons k ks ih =>
      obtain ⟨⟨s', c⟩, hfollow⟩ : ∃ r, W.follow s n k ok = r := ⟨_, rfl⟩
      cases c with
      | none =>
          rw [scan_miss hfollow] at h ⊢
          exact ih h
      | some c =>
          rw [scan_descend hfollow] at h ⊢
          obtain ⟨r', hresult, hrest⟩ := Option.bind_eq_some_iff.mp h
          rw [hcall _ _ _ _ hresult, Option.bind_some]
          exact ih hrest

theorem scan_false_ne_true {call : σ → List ν → ν → Option (σ × Bool)} (s' : σ) :
    W.scan call chain n ks s false ≠ some (s', true) := by
  induction ks generalizing s with
  | nil => exact nofun
  | cons k ks ih =>
      obtain ⟨⟨t, c⟩, hfollow⟩ : ∃ r, W.follow s n k false = r := ⟨_, rfl⟩
      cases c with
      | none =>
          rw [scan_miss hfollow]
          exact ih
      | some c =>
          rw [scan_descend hfollow]
          intro hresult
          obtain ⟨r, -, hrest⟩ := Option.bind_eq_some_iff.mp hresult
          exact ih hrest

theorem traverse_mono (hle : fuel ≤ fuel') {r : σ × Bool}
    (h : W.traverse fuel s chain n = some r) : W.traverse fuel' s chain n = some r := by
  induction fuel generalizing fuel' s chain n r with
  | zero => exact nomatch h
  | succ fuel ih =>
      obtain ⟨fuel', rfl⟩ : ∃ m, fuel' = m + 1 := ⟨fuel' - 1, by omega⟩
      exact scan_mono (fun s chain n r => ih (by omega)) h

theorem finish_mono (hle : fuel ≤ fuel') {r : σ × Bool} (h : W.finish fuel v = some r) :
    W.finish fuel' v = some r :=
  scan_mono (fun _ _ _ _ => traverse_mono hle) h

theorem traverse_unique {r r' : σ × Bool} (h : W.traverse fuel s chain n = some r)
    (h' : W.traverse fuel' s chain n = some r') : r = r' := by
  have hmax := traverse_mono (Nat.le_max_left fuel fuel') h
  rw [traverse_mono (Nat.le_max_right fuel fuel') h'] at hmax
  exact (Option.some.inj hmax).symm

/-! ### Invariants -/

/-- A property of states that following a key keeps, relative to a property of nodes that it keeps
as well and that the nodes it leads to have. -/
structure Keeps (W : Walker σ ν κ) (Inv : σ → Prop) (Known : σ → ν → Prop)
    (le : σ → σ → Prop) : Prop where
  refl : ∀ s, le s s
  trans : ∀ {s s' s''}, le s s' → le s' s'' → le s s''
  known : ∀ {s s' n}, le s s' → Known s n → Known s' n
  follow : ∀ {s n k ok s' c}, Inv s → Known s n → k ∈ W.keys s n → W.follow s n k ok = (s', c) →
    Inv s' ∧ le s s' ∧ ∀ m ∈ c, Known s' m
  keys : ∀ {s s' n}, le s s' → Known s n → W.keys s' n = W.keys s n

variable {Inv : σ → Prop} {Known : σ → ν → Prop} {le : σ → σ → Prop}

theorem Keeps.scan (h : W.Keeps Inv Known le) {call : σ → List ν → ν → Option (σ × Bool)}
    (hcall : ∀ {s chain n s' ok}, Inv s → Known s n → call s chain n = some (s', ok) →
      Inv s' ∧ le s s')
    (hinv : Inv s) (hknown : Known s n) (hks : ∀ k ∈ ks, k ∈ W.keys s n)
    (hscan : W.scan call chain n ks s ok = some (s', ok')) : Inv s' ∧ le s s' := by
  induction ks generalizing s ok with
  | nil =>
      obtain ⟨rfl, -⟩ := Prod.mk.inj (Option.some.inj hscan)
      exact ⟨hinv, h.refl s⟩
  | cons k ks ih =>
      have hk := hks k List.mem_cons_self
      -- the remaining keys are keys of the node in every later state
      have hks' {t : σ} (hle : le s t) : ∀ k ∈ ks, k ∈ W.keys t n := by
        intro k hk
        rw [h.keys hle hknown]
        exact hks k (List.mem_cons_of_mem _ hk)
      obtain ⟨⟨t, c⟩, hfollow⟩ : ∃ r, W.follow s n k ok = r := ⟨_, rfl⟩
      obtain ⟨hinv₁, hle₁, hc⟩ := h.follow hinv hknown hk hfollow
      cases c with
      | none =>
          rw [scan_miss hfollow] at hscan
          obtain ⟨hinv₂, hle₂⟩ := ih hinv₁ (h.known hle₁ hknown) (hks' hle₁) hscan
          exact ⟨hinv₂, h.trans hle₁ hle₂⟩
      | some c =>
          rw [scan_descend hfollow] at hscan
          obtain ⟨r, hresult, hrest⟩ := Option.bind_eq_some_iff.mp hscan
          obtain ⟨hinv₂, hle₂⟩ := hcall hinv₁ (hc c rfl) hresult
          have hle := h.trans hle₁ hle₂
          obtain ⟨hinv₃, hle₃⟩ := ih hinv₂ (h.known hle hknown) (hks' hle) hrest
          exact ⟨hinv₃, h.trans hle hle₃⟩

theorem Keeps.traverse (h : W.Keeps Inv Known le) (hinv : Inv s) (hknown : Known s n)
    (htraverse : W.traverse fuel s chain n = some (s', ok)) : Inv s' ∧ le s s' := by
  induction fuel generalizing s chain n s' ok with
  | zero => exact nomatch htraverse
  | succ fuel ih => exact h.scan ih hinv hknown (fun _ hk => hk) htraverse

/-- The invariant at a point of a traversal. -/
structure GoodVisit (W : Walker σ ν κ) (Inv : σ → Prop) (Known : σ → ν → Prop)
    (v : Visit σ ν κ) : Prop where
  inv : Inv v.state
  known : ∀ m ∈ v.node :: v.chain, Known v.state m
  keys : ∀ k ∈ v.keys, k ∈ W.keys v.state v.node

theorem GoodVisit.enter (hinv : Inv s) (hknown : ∀ m ∈ n :: chain, Known s m) :
    GoodVisit W Inv Known (W.enter s chain n) := ⟨hinv, hknown, fun _ hk => hk⟩

/-- A step of a traversal keeps the invariant and leads to a later state. -/
theorem Keeps.next (h : W.Keeps Inv Known le) (hv : GoodVisit W Inv Known v) (hnext : W.Next v w) :
    GoodVisit W Inv Known w ∧ le v.state w.state := by
  obtain ⟨hinv, hknown, hkeys⟩ := hv
  -- the state behind a key that has been dealt with
  have hmove {s s' : σ} {chain : List ν} {n : ν} {k : κ} {ks : List κ} (ok : Bool)
      (hknown : ∀ m ∈ n :: chain, Known s m) (hkeys : ∀ k' ∈ k :: ks, k' ∈ W.keys s n)
      (hinv' : Inv s') (hle : le s s') : GoodVisit W Inv Known ⟨s', chain, n, ks, ok⟩ := by
    refine ⟨hinv', fun m hm => h.known hle (hknown m hm), ?_⟩
    intro k' hk'
    rw [h.keys hle (hknown n List.mem_cons_self)]
    exact hkeys k' (List.mem_cons_of_mem _ hk')
  cases hnext with
  | miss hfollow =>
      have hk := hkeys _ List.mem_cons_self
      obtain ⟨hinv', hle, -⟩ := h.follow hinv (hknown _ List.mem_cons_self) hk hfollow
      exact ⟨hmove _ hknown hkeys hinv' hle, hle⟩
  | descend hfollow =>
      have hk := hkeys _ List.mem_cons_self
      obtain ⟨hinv', hle, hc⟩ := h.follow hinv (hknown _ List.mem_cons_self) hk hfollow
      refine ⟨GoodVisit.enter hinv' ?_, hle⟩
      intro m hm
      rcases List.mem_cons.mp hm with rfl | hm
      · exact hc _ rfl
      · exact h.known hle (hknown m hm)
  | ascend hfollow hcall =>
      have hk := hkeys _ List.mem_cons_self
      obtain ⟨hinv', hle, hc⟩ := h.follow hinv (hknown _ List.mem_cons_self) hk hfollow
      obtain ⟨hinv'', hle'⟩ := h.traverse hinv' (hc _ rfl) hcall
      have hle'' := h.trans hle hle'
      exact ⟨hmove _ hknown hkeys hinv'' hle'', hle''⟩

theorem Keeps.visits (h : W.Keeps Inv Known le) (hinv : Inv s) (hknown : Known s n)
    (hvisits : W.Visits s n v) : GoodVisit W Inv Known v ∧ le s v.state := by
  induction hvisits with
  | refl =>
      refine ⟨GoodVisit.enter hinv ?_, h.refl s⟩
      intro m hm
      rw [List.mem_singleton.mp hm]
      exact hknown
  | tail _ hnext ih =>
      obtain ⟨hgood, hle⟩ := h.next ih.1 hnext
      exact ⟨hgood, h.trans ih.2 hle⟩

/-- A rule for traversals in which nothing goes wrong.  `M s n t` is to hold if the traversal of `n`
leads from `s` to `t`, and `K s n ks t` if going through the keys `ks` does. -/
theorem Keeps.success (h : W.Keeps Inv Known le) {s₀ : σ} {n₀ : ν} {M : σ → ν → σ → Prop}
    {K : σ → ν → List κ → σ → Prop} (hnil : ∀ {s n}, K s n [] s)
    (hcons : ∀ {s s' s'' t chain n c k ks}, W.Visits s₀ n₀ ⟨s, chain, n, k :: ks, true⟩ →
      GoodVisit W Inv Known ⟨s, chain, n, k :: ks, true⟩ → W.follow s n k true = (s', some c) →
      Inv s' → M s' c s'' → K s'' n ks t → K s n (k :: ks) t)
    (hnode : ∀ {s n t}, Inv s → Known s n → K s n (W.keys s n) t → M s n t)
    (hinv₀ : Inv s₀) (hknown₀ : Known s₀ n₀) (hvisits : W.Visits s₀ n₀ (W.enter s chain n))
    (hresult : W.traverse fuel s chain n = some (s', true)) : M s n s' := by
  induction fuel generalizing s chain n s' with
  | zero => exact nomatch hresult
  | succ fuel ih =>
      have hscan {ks : List κ} {t : σ} (hvisits : W.Visits s₀ n₀ ⟨t, chain, n, ks, true⟩)
          (hresult : W.scan (W.traverse fuel) chain n ks t true = some (s', true)) :
          K t n ks s' := by
        induction ks generalizing t with
        | nil =>
            obtain ⟨rfl, -⟩ := Prod.mk.inj (Option.some.inj hresult)
            exact hnil
        | cons k ks ihks =>
            have hgood := (h.visits hinv₀ hknown₀ hvisits).1
            obtain ⟨⟨t', c⟩, hfollow⟩ : ∃ r, W.follow t n k true = r := ⟨_, rfl⟩
            have hinv' := (h.follow hgood.inv (hgood.known n List.mem_cons_self)
              (hgood.keys k List.mem_cons_self) hfollow).1
            cases c with
            | none =>
                rw [scan_miss hfollow] at hresult
                exact absurd hresult (scan_false_ne_true _)
            | some c =>
                rw [scan_descend hfollow] at hresult
                obtain ⟨⟨t'', ok⟩, hcall, hrest⟩ := Option.bind_eq_some_iff.mp hresult
                cases ok with
                | false => exact absurd hrest (scan_false_ne_true _)
                | true =>
                    refine hcons hvisits hgood hfollow hinv' (ih (hvisits.tail (.descend hfollow)) hcall)
                      (ihks ?_ hrest)
                    exact hvisits.tail (.ascend hfollow hcall)
      have hgood := (h.visits hinv₀ hknown₀ hvisits).1
      exact hnode hgood.inv (hgood.known n List.mem_cons_self) (hscan hvisits hresult)

/-! ### Termination -/

/-- A walker that follows a key to the same node again. -/
structure Remembers (W : Walker σ ν κ) (Inv : σ → Prop) (Known : σ → ν → Prop)
    (le : σ → σ → Prop) (Edge : σ → ν → κ → ν → Prop) : Prop extends W.Keeps Inv Known le where
  edge_le : ∀ {s s' n k c}, le s s' → Edge s n k c → Edge s' n k c
  follow_edge : ∀ {s n k ok s' c}, Inv s → Known s n → k ∈ W.keys s n →
    W.follow s n k ok = (s', some c) → Edge s' n k c
  edge_follow : ∀ {s n k c} ok, Edge s n k c → ∃ s', W.follow s n k ok = (s', some c)

/-- One node leads to another. -/
def Leads (W : Walker σ ν κ) (Known : σ → ν → Prop) (Edge : σ → ν → κ → ν → Prop) (s : σ)
    (n c : ν) : Prop :=
  Known s n ∧ ∃ k ∈ W.keys s n, Edge s n k c

/-- A node that leads back to itself. -/
def OnCycle (W : Walker σ ν κ) (Known : σ → ν → Prop) (Edge : σ → ν → κ → ν → Prop) (s : σ)
    (n : ν) : Prop :=
  Relation.TransGen (W.Leads Known Edge s) n n

variable {Edge : σ → ν → κ → ν → Prop}

theorem OnCycle.next (h : W.OnCycle Known Edge s n) :
    ∃ c, W.Leads Known Edge s n c ∧ W.OnCycle Known Edge s c := by
  obtain ⟨c, hleads, hback⟩ := Relation.TransGen.head'_iff.mp h
  exact ⟨c, hleads, Relation.TransGen.tail' hback hleads⟩

theorem Remembers.leads (h : W.Remembers Inv Known le Edge) (hle : le s s')
    (hleads : W.Leads Known Edge s n c) : W.Leads Known Edge s' n c := by
  obtain ⟨hknown, k, hk, hedge⟩ := hleads
  refine ⟨h.known hle hknown, k, ?_, h.edge_le hle hedge⟩
  rw [h.keys hle hknown]
  exact hk

theorem Remembers.onCycle (h : W.Remembers Inv Known le Edge) (hle : le s s')
    (hcycle : W.OnCycle Known Edge s n) : W.OnCycle Known Edge s' n :=
  Relation.TransGen.mono (fun _ _ => h.leads hle) _ _ hcycle

theorem Remembers.scan_eq_none (h : W.Remembers Inv Known le Edge)
    {call : σ → List ν → ν → Option (σ × Bool)}
    (hcall : ∀ {s chain n s' ok}, Inv s → Known s n → call s chain n = some (s', ok) →
      Inv s' ∧ le s s')
    (hnone : ∀ {s chain n}, Inv s → W.OnCycle Known Edge s n → call s chain n = none)
    (hinv : Inv s) (hknown : Known s n) (hks : ∀ k ∈ ks, k ∈ W.keys s n) (hk : k ∈ ks)
    (hedge : Edge s n k c) (hcycle : W.OnCycle Known Edge s c) :
    W.scan call chain n ks s ok = none := by
  induction ks generalizing s ok with
  | nil => exact nomatch hk
  | cons k' ks ih =>
      have hk' := hks k' List.mem_cons_self
      have hks' {t : σ} (hle : le s t) : ∀ k ∈ ks, k ∈ W.keys t n := by
        intro k hk
        rw [h.keys hle hknown]
        exact hks k (List.mem_cons_of_mem _ hk)
      obtain ⟨⟨t, c'⟩, hfollow⟩ : ∃ r, W.follow s n k' ok = r := ⟨_, rfl⟩
      obtain ⟨hinv₁, hle₁, hc'⟩ := h.follow hinv hknown hk' hfollow
      rcases List.mem_cons.mp hk with rfl | hk
      · -- the key that leads to the cycle
        obtain ⟨t', hfollow'⟩ := h.edge_follow ok hedge
        rw [scan_descend hfollow']
        rw [hfollow] at hfollow'
        obtain ⟨rfl, rfl⟩ := Prod.mk.inj hfollow'
        rw [hnone hinv₁ (h.onCycle hle₁ hcycle), Option.bind_none]
      · cases c' with
        | none =>
            rw [scan_miss hfollow]
            exact ih hinv₁ (h.known hle₁ hknown) (hks' hle₁) hk (h.edge_le hle₁ hedge)
              (h.onCycle hle₁ hcycle)
        | some c' =>
            rw [scan_descend hfollow]
            cases hresult : call t (n :: chain) c' with
            | none => rfl
            | some r =>
                obtain ⟨hinv₂, hle₂⟩ := hcall hinv₁ (hc' c' rfl) hresult
                have hle := h.trans hle₁ hle₂
                exact ih hinv₂ (h.known hle hknown) (hks' hle) hk (h.edge_le hle hedge)
                  (h.onCycle hle hcycle)

theorem Remembers.traverse_eq_none (h : W.Remembers Inv Known le Edge) (hinv : Inv s)
    (hcycle : W.OnCycle Known Edge s n) : W.traverse fuel s chain n = none := by
  induction fuel generalizing s chain n with
  | zero => rfl
  | succ fuel ih =>
      obtain ⟨c, ⟨hknown, k, hk, hedge⟩, hcycle'⟩ := hcycle.next
      exact h.scan_eq_none (fun hinv hknown => h.toKeeps.traverse hinv hknown) ih hinv hknown
        (fun _ hk => hk) hk hedge hcycle'

/-- A point that the traversal does not get past. -/
def Diverges (W : Walker σ ν κ) (v : Visit σ ν κ) : Prop := ∀ fuel, W.finish fuel v = none

theorem diverges_enter_iff :
    W.Diverges (W.enter s chain n) ↔ ∀ fuel, W.traverse fuel s chain n = none := by
  constructor
  · intro h fuel
    cases fuel with
    | zero => rfl
    | succ fuel => exact h fuel
  · exact fun h fuel => h (fuel + 1)

theorem Next.diverges (hnext : W.Next v w) (hw : W.Diverges w) : W.Diverges v := by
  intro fuel
  unfold finish
  cases hnext with
  | miss hfollow =>
      rw [scan_miss hfollow]
      exact hw fuel
  | descend hfollow =>
      rw [scan_descend hfollow, diverges_enter_iff.mp hw fuel, Option.bind_none]
  | ascend hfollow hcall =>
      rw [scan_descend hfollow]
      cases hresult : W.traverse fuel _ _ _ with
      | none => rfl
      | some r =>
          rw [traverse_unique hresult hcall, Option.bind_some]
          exact hw fuel

/-- Every node of the chain leads to the one in front of it. -/
def Linked (W : Walker σ ν κ) (Known : σ → ν → Prop) (Edge : σ → ν → κ → ν → Prop)
    (v : Visit σ ν κ) : Prop :=
  List.IsChain (fun c n => W.Leads Known Edge v.state n c) (v.node :: v.chain)

theorem Remembers.linked_next (h : W.Remembers Inv Known le Edge)
    (hgood : GoodVisit W Inv Known v) (hlinked : W.Linked Known Edge v) (hnext : W.Next v w) :
    W.Linked Known Edge w := by
  have hle := (h.next hgood hnext).2
  have hlater : List.IsChain (fun c n => W.Leads Known Edge w.state n c) (v.node :: v.chain) :=
    List.IsChain.imp (fun _ _ => h.leads hle) hlinked
  obtain ⟨hinv, hknown, hkeys⟩ := hgood
  cases hnext with
  | miss hfollow => exact hlater
  | descend hfollow =>
      have hk := hkeys _ List.mem_cons_self
      have hedge := h.follow_edge hinv (hknown _ List.mem_cons_self) hk hfollow
      refine List.IsChain.cons_cons ⟨h.known hle (hknown _ List.mem_cons_self), _, ?_, hedge⟩ hlater
      rw [h.keys hle (hknown _ List.mem_cons_self)]
      exact hk
  | ascend hfollow hcall => exact hlater

theorem Linked.onCycle (h : W.Linked Known Edge v) (hmem : v.node ∈ v.chain) :
    W.OnCycle Known Edge v.state v.node := by
  have hpairwise : List.Pairwise (Relation.TransGen fun c n => W.Leads Known Edge v.state n c)
      (v.node :: v.chain) :=
    List.isChain_iff_pairwise.mp (List.IsChain.imp (fun _ _ => Relation.TransGen.single) h)
  exact Relation.transGen_swap.mp ((List.pairwise_cons.mp hpairwise).1 v.node hmem)

theorem Visits.diverges (hvisits : W.Visits s n v) (hv : W.Diverges v) :
    ∀ fuel, W.traverse fuel s [] n = none := by
  refine diverges_enter_iff.mp ?_
  induction hvisits with
  | refl => exact hv
  | tail _ hnext ih => exact ih (hnext.diverges hv)

theorem Remembers.nodup (h : W.Remembers Inv Known le Edge) (hinv : Inv s) (hknown : Known s n)
    (hends : ∃ fuel, (W.traverse fuel s [] n).isSome) (hvisits : W.Visits s n v) :
    W.Linked Known Edge v ∧ (v.node :: v.chain).Nodup := by
  induction hvisits with
  | refl => exact ⟨List.IsChain.singleton _, List.nodup_singleton _⟩
  | @tail u w hvisits hnext ih =>
      have hlinked := h.linked_next (h.visits hinv hknown hvisits).1 ih.1 hnext
      refine ⟨hlinked, ?_⟩
      have hgood := (h.visits hinv hknown (hvisits.tail hnext)).1
      cases hnext with
      | miss hfollow => exact ih.2
      | descend hfollow =>
          refine List.nodup_cons.mpr ⟨?_, ih.2⟩
          intro hmem
          -- the walker is back at a node that it has not finished
          have hcycle := hlinked.onCycle hmem
          obtain ⟨fuel, hfuel⟩ := hends
          have hstuck := Visits.diverges (hvisits.tail (.descend hfollow))
            (diverges_enter_iff.mpr fun fuel => h.traverse_eq_none hgood.inv hcycle) fuel
          rw [hstuck] at hfuel
          exact nomatch hfuel
      | ascend hfollow hcall => exact ih.2

theorem finish_of_bound {B : Nat}
    (hbound : ∀ v, W.Visits s n v → (v.node :: v.chain).length ≤ B) (d : Nat)
    (hvisits : W.Visits s n v) (hd : B < d + (v.node :: v.chain).length) :
    ∃ fuel, (W.finish fuel v).isSome := by
  induction d generalizing v with
  | zero =>
      have hle := hbound v hvisits
      omega
  | succ d ih =>
      obtain ⟨t, chain, m, ks, ok⟩ := v
      -- the keys of the visit one after the other; the nodes they lead to are one deeper
      induction ks generalizing t ok with
      | nil => exact ⟨0, rfl⟩
      | cons k ks ihks =>
          obtain ⟨⟨t', c⟩, hfollow⟩ : ∃ r, W.follow t m k ok = r := ⟨_, rfl⟩
          cases c with
          | none =>
              obtain ⟨fuel, hfuel⟩ := ihks _ _ (hvisits.tail (.miss hfollow)) hd
              refine ⟨fuel, ?_⟩
              rw [finish, scan_miss hfollow]
              exact hfuel
          | some c =>
              have hlength : B < d + (c :: m :: chain).length := by
                simp only [List.length_cons] at hd ⊢
                omega
              obtain ⟨fuel, hfuel⟩ := ih (hvisits.tail (.descend hfollow)) hlength
              obtain ⟨⟨t'', ok'⟩, hresult⟩ := Option.isSome_iff_exists.mp hfuel
              have hcall : W.traverse (fuel + 1) t' (m :: chain) c = some (t'', ok') := hresult
              obtain ⟨fuel', hfuel'⟩ := ihks _ _ (hvisits.tail (.ascend hfollow hcall)) hd
              obtain ⟨r, hr⟩ := Option.isSome_iff_exists.mp hfuel'
              refine ⟨max (fuel + 1) fuel', ?_⟩
              rw [finish, scan_descend hfollow, traverse_mono (Nat.le_max_left _ _) hcall,
                Option.bind_some]
              have hrest := finish_mono (Nat.le_max_right (fuel + 1) fuel') hr
              exact Option.isSome_iff_exists.mpr ⟨r, hrest⟩

theorem Remembers.terminates_iff (h : W.Remembers Inv Known le Edge) (hinv : Inv s)
    (hknown : Known s n) {B : Nat}
    (hbound : ∀ v, W.Visits s n v → (v.node :: v.chain).Nodup → (v.node :: v.chain).length ≤ B) :
    (∃ fuel, (W.traverse fuel s [] n).isSome) ↔
      ∀ v, W.Visits s n v → (v.node :: v.chain).Nodup := by
  constructor
  · exact fun hends v hvisits => (h.nodup hinv hknown hends hvisits).2
  · intro hnodup
    obtain ⟨fuel, hfuel⟩ := finish_of_bound (fun v hv => hbound v hv (hnodup v hv)) (B + 1)
      (Relation.ReflTransGen.refl : W.Visits s n (W.enter s [] n)) (by omega)
    exact ⟨fuel + 1, hfuel⟩

end Walker

end Lib
end Mkfli4l
