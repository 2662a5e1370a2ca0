import Mkfli4l.Ziplist.Opt

/-!
# Does the order of the requests matter?

The packages are handled in the order of a hash map, so the requests for one name reach
`add_zip_list_entry` in an order nobody chose.  A conflict in the type or in the source of an
entry is reported in every order.  A conflict in the options is not: they are read by the request
that creates the entry and by no other.  This module proves exactly which lists of requests give
the same entries in every order.
-/

namespace Mkfli4l
namespace Ziplist

open Lib Function

variable {cfg : Settings} {R R' R₁ R₂ : List Request} {m : CString → Option Entry} {t : CString}

/-- The requests for one name, in their order. -/
def requestsFor (cfg : Settings) (R : List Request) (t : CString) : List Request :=
  R.filter fun r => r.target cfg = t

variable {r : Request}

@[simp] theorem mem_requestsFor :
    r ∈ requestsFor cfg R t ↔ r ∈ R ∧ r.target cfg = t := by
  simp [requestsFor]

theorem requestsFor_perm (h : R.Perm R') : (requestsFor cfg R t).Perm (requestsFor cfg R' t) :=
  h.filter _

theorem foldl_addNamed_apply (ht : t ≠ []) :
    R.foldl (addNamed cfg) m t = (requestsFor cfg R t).foldl (entryAfter cfg) (m t) := by
  induction R generalizing m with
  | nil => rfl
  | cons r R ih =>
      rw [List.foldl_cons, ih]
      by_cases htarget : r.target cfg = t
      · have hne : r.target cfg ≠ [] := htarget ▸ ht
        have hstep : addNamed cfg m r t = entryAfter cfg (m t) r := by
          unfold addNamed
          rw [if_neg hne, htarget, update_self]
        rw [hstep, requestsFor, requestsFor, List.filter_cons_of_pos (by simpa using htarget),
          List.foldl_cons]
      · have hstep : addNamed cfg m r t = m t := by
          unfold addNamed
          split
          · rfl
          · exact update_of_ne (Ne.symm htarget) _ _
        rw [hstep, requestsFor, requestsFor, List.filter_cons_of_neg (by simpa using htarget)]

/-! ### The entry of one name -/

/-- Two requests for one name that do not contradict each other in type and source. -/
def Request.Compatible (r r' : Request) : Prop :=
  r.entryType = r'.entryType ∧ (r.file = r'.file ∨ r.entryType = .dir)

/-- The options of the request can be read. -/
def Request.Readable (cfg : Settings) (r : Request) : Prop := readAttributes cfg r ≠ none

instance (r : Request) : Decidable (r.Readable cfg) := inferInstanceAs (Decidable (_ ≠ _))

/-- The entry was created by the request; since then it can only have moved to another archive. -/
structure Entry.CreatedBy (cfg : Settings) (e : Entry) (r : Request) : Prop where
  entryType : e.entryType = r.entryType
  filename : e.filename = r.file
  target : e.target = r.target cfg
  attributes : readAttributes cfg r = some e.attributes

theorem Entry.CreatedBy.readable {e : Entry} (h : e.CreatedBy cfg r) : r.Readable cfg := by
  unfold Request.Readable
  rw [h.attributes]
  exact fun hnone => nomatch hnone

theorem Entry.CreatedBy.takes {e : Entry} {r' : Request} (h : e.CreatedBy cfg r)
    (hcompat : r'.Compatible r) : e.Takes r' := by
  unfold Entry.Takes
  rw [h.entryType, h.filename]
  exact hcompat

theorem Entry.CreatedBy.moved {e : Entry} (h : e.CreatedBy cfg r) (tgt : ZipTgt) :
    ({ e with ziptgt := tgt } : Entry).CreatedBy cfg r :=
  ⟨h.entryType, h.filename, h.target, h.attributes⟩

theorem Request.entry_createdBy {a : Attributes} (h : readAttributes cfg r = some a) :
    (r.entry cfg a).CreatedBy cfg r := ⟨rfl, rfl, rfl, h⟩

theorem Entry.absorb_eq (e : Entry) (r : Request) :
    e.absorb r = { e with ziptgt := (e.absorb r).ziptgt } := by
  unfold Entry.absorb
  split <;> rfl

theorem Entry.absorb_ziptgt_of_takes {e : Entry} (h : e.Takes r) :
    (e.absorb r).ziptgt = min e.ziptgt r.ziptgt := by
  rw [Entry.absorb_of_takes h]

theorem Entry.absorb_ziptgt_of_not_takes {e : Entry} (h : ¬ e.Takes r) :
    (e.absorb r).ziptgt = e.ziptgt := by
  unfold Entry.absorb
  rw [if_neg h]

section Group

variable {g : List Request} {e : Entry}

/-- Later requests move an entry that exists to another archive, to the earliest one that is asked
for if the entry takes them all. -/
theorem foldl_entryAfter_some (cfg : Settings) (e : Entry) (g : List Request) :
    ∃ tgt, g.foldl (entryAfter cfg) (some e) = some { e with ziptgt := tgt } ∧
      tgt ≤ e.ziptgt ∧ (tgt = e.ziptgt ∨ ∃ r ∈ g, tgt = r.ziptgt) ∧
      ((∀ r ∈ g, e.Takes r) → ∀ r ∈ g, tgt ≤ r.ziptgt) := by
  induction g generalizing e with
  | nil => exact ⟨e.ziptgt, rfl, le_rfl, .inl rfl, fun _ r hr => nomatch hr⟩
  | cons r g ih =>
      obtain ⟨tgt, hfold, hle, hfrom, hleast⟩ := ih (e.absorb r)
      have hmoved : ({ e.absorb r with ziptgt := tgt } : Entry) = { e with ziptgt := tgt } := by
        rw [e.absorb_eq r]
      refine ⟨tgt, hfold.trans (congrArg some hmoved), ?_⟩
      by_cases htakes : e.Takes r
      · rw [Entry.absorb_ziptgt_of_takes htakes] at hle hfrom
        refine ⟨hle.trans (min_le_left _ _), ?_, ?_⟩
        · rcases hfrom with hfrom | ⟨r', hr', hfrom⟩
          · rcases min_choice e.ziptgt r.ziptgt with heq | heq
            · exact .inl (hfrom.trans heq)
            · exact .inr ⟨r, List.mem_cons_self, hfrom.trans heq⟩
          · exact .inr ⟨r', List.mem_cons_of_mem _ hr', hfrom⟩
        · intro hall r' hr'
          rcases List.mem_cons.mp hr' with rfl | hr'
          · exact hle.trans (min_le_right _ _)
          · refine hleast (fun r' hr' => ?_) r' hr'
            rw [e.absorb_eq r]
            exact hall r' (List.mem_cons_of_mem _ hr')
      · rw [Entry.absorb_ziptgt_of_not_takes htakes] at hle hfrom
        refine ⟨hle, ?_, fun hall => absurd (hall r List.mem_cons_self) htakes⟩
        rcases hfrom with hfrom | ⟨r', hr', hfrom⟩
        · exact .inl hfrom
        · exact .inr ⟨r', List.mem_cons_of_mem _ hr', hfrom⟩

theorem foldl_entryAfter_unreadable (h : ∀ r ∈ g, ¬ r.Readable cfg) :
    g.foldl (entryAfter cfg) none = none := by
  induction g with
  | nil => rfl
  | cons r g ih =>
      have hnone : readAttributes cfg r = none := not_not.mp (h r List.mem_cons_self)
      have hstep : entryAfter cfg none r = none := by simp [entryAfter, hnone]
      rw [List.foldl_cons, hstep]
      exact ih fun r hr => h r (List.mem_cons_of_mem _ hr)

theorem foldl_entryAfter_readable (h : r.Readable cfg) :
    ∃ e, (r :: g).foldl (entryAfter cfg) none = some e ∧ e.CreatedBy cfg r ∧
      (e.ziptgt = r.ziptgt ∨ ∃ r' ∈ g, e.ziptgt = r'.ziptgt) ∧ e.ziptgt ≤ r.ziptgt ∧
      ((∀ r' ∈ g, r'.Compatible r) → ∀ r' ∈ r :: g, e.ziptgt ≤ r'.ziptgt) := by
  obtain ⟨a, ha⟩ := Option.ne_none_iff_exists'.mp h
  have hstep : entryAfter cfg none r = some (r.entry cfg a) := by simp [entryAfter, ha]
  have hnew := Request.entry_createdBy ha
  obtain ⟨tgt, hfold, hle, hfrom, hleast⟩ := foldl_entryAfter_some cfg (r.entry cfg a) g
  refine ⟨{ r.entry cfg a with ziptgt := tgt }, ?_, hnew.moved tgt, hfrom, hle, ?_⟩
  · rw [List.foldl_cons, hstep, hfold]
  · intro hcompat r' hr'
    rcases List.mem_cons.mp hr' with rfl | hr'
    · exact hle
    · exact hleast (fun r' hr' => hnew.takes (hcompat r' hr')) r' hr'

theorem foldl_entryAfter_origin (h : g.foldl (entryAfter cfg) none = some e) :
    (∃ c ∈ g, e.CreatedBy cfg c) ∧ ∃ r ∈ g, e.ziptgt = r.ziptgt := by
  induction g with
  | nil => exact nomatch h
  | cons r g ih =>
      by_cases hreadable : r.Readable cfg
      · obtain ⟨e', hfold, hcreated, hfrom, -, -⟩ := foldl_entryAfter_readable (g := g) hreadable
        obtain rfl : e = e' := Option.some.inj (h.symm.trans hfold)
        refine ⟨⟨r, List.mem_cons_self, hcreated⟩, ?_⟩
        rcases hfrom with hfrom | ⟨r', hr', hfrom⟩
        · exact ⟨r, List.mem_cons_self, hfrom⟩
        · exact ⟨r', List.mem_cons_of_mem _ hr', hfrom⟩
      · have hstep : entryAfter cfg none r = none := by
          simp [entryAfter, not_not.mp hreadable]
        rw [List.foldl_cons, hstep] at h
        obtain ⟨⟨c, hc, hcreated⟩, r', hr', hfrom⟩ := ih h
        exact ⟨⟨c, List.mem_cons_of_mem _ hc, hcreated⟩, r', List.mem_cons_of_mem _ hr', hfrom⟩

theorem foldl_entryAfter_le (hcompat : ∀ r ∈ g, ∀ r' ∈ g, r.Compatible r')
    (hr : r ∈ g) (hreadable : r.Readable cfg) :
    ∃ e, g.foldl (entryAfter cfg) none = some e ∧ e.ziptgt ≤ r.ziptgt := by
  induction g with
  | nil => exact nomatch hr
  | cons r' g ih =>
      by_cases hreadable' : r'.Readable cfg
      · obtain ⟨e, hfold, -, -, -, hleast⟩ := foldl_entryAfter_readable (g := g) hreadable'
        refine ⟨e, hfold, hleast ?_ r hr⟩
        exact fun r'' hr'' => hcompat r'' (List.mem_cons_of_mem _ hr'') r' List.mem_cons_self
      · have hstep : entryAfter cfg none r' = none := by
          simp [entryAfter, not_not.mp hreadable']
        have hmem : r ∈ g := by
          rcases List.mem_cons.mp hr with rfl | hmem
          · exact absurd hreadable hreadable'
          · exact hmem
        rw [List.foldl_cons, hstep]
        refine ih ?_ hmem
        intro r₁ hr₁ r₂ hr₂
        exact hcompat r₁ (List.mem_cons_of_mem _ hr₁) r₂ (List.mem_cons_of_mem _ hr₂)

end Group

/-! ### Runs without a failure -/

theorem addNamed_nil (m : CString → Option Entry) (r : Request) : addNamed cfg m r [] = m [] := by
  unfold addNamed
  split
  · rfl
  · exact update_of_ne (Ne.symm ‹_›) _ _

theorem foldl_addNamed_nil : R.foldl (addNamed cfg) m [] = m [] := by
  induction R generalizing m with
  | nil => rfl
  | cons r R ih => rw [List.foldl_cons, ih, addNamed_nil]

theorem accepted_append :
    Accepted cfg m (R ++ R') ↔ Accepted cfg m R ∧ Accepted cfg (R.foldl (addNamed cfg) m) R' := by
  induction R generalizing m with
  | nil => simp [Accepted]
  | cons r R ih => simp only [List.cons_append, Accepted, List.foldl_cons, ih, and_assoc]

theorem Accepted.readable_of_unnamed (h : Accepted cfg m R) (hm : m [] = none)
    (hr : r ∈ R) (hnil : r.target cfg = []) : r.Readable cfg := by
  induction R generalizing m with
  | nil => exact nomatch hr
  | cons r' R ih =>
      rcases List.mem_cons.mp hr with rfl | hr
      · have hnot := h.1
        rw [hnil, hm] at hnot
        exact hnot
      · exact ih h.2 (by rw [addNamed_nil, hm]) hr

theorem Accepted.takes (h : Accepted cfg m R) (hr : r ∈ R) (hne : r.target cfg ≠ []) :
    ∃ e, R.foldl (addNamed cfg) m (r.target cfg) = some e ∧ e.Takes r := by
  induction R generalizing m with
  | nil => exact nomatch hr
  | cons r' R ih =>
      rcases List.mem_cons.mp hr with rfl | hr
      · have hstep : ∃ p, addNamed cfg m r (r.target cfg) = some p ∧ p.Takes r := by
          have hnot := h.1
          have hupdate : addNamed cfg m r (r.target cfg) = entryAfter cfg (m (r.target cfg)) r := by
            unfold addNamed
            rw [if_neg hne, update_self]
          rw [hupdate]
          cases hm : m (r.target cfg) with
          | none =>
              rw [hm] at hnot
              obtain ⟨a, ha⟩ := Option.ne_none_iff_exists'.mp hnot
              exact ⟨r.entry cfg a, by simp [entryAfter, ha], rfl, .inl rfl⟩
          | some p =>
              rw [hm] at hnot
              have htakes : p.Takes r := not_not.mp hnot
              refine ⟨p.absorb r, rfl, ?_⟩
              rw [p.absorb_eq r]
              exact htakes
        obtain ⟨p, hp, htakes⟩ := hstep
        obtain ⟨tgt, hfold, -, -, -⟩ := foldl_entryAfter_some cfg p (requestsFor cfg R (r.target cfg))
        refine ⟨{ p with ziptgt := tgt }, ?_, htakes⟩
        rw [List.foldl_cons, foldl_addNamed_apply hne, hp, hfold]
      · exact ih h.2 hr

/-- Requests that do not contradict each other cannot fail once each name has an entry or each
request has readable options. -/
theorem accepted_of_compatible {S : List Request}
    (hcompat : ∀ r ∈ S, ∀ r' ∈ S, r.target cfg = r'.target cfg → r.target cfg ≠ [] →
      r.Compatible r')
    (hm : ∀ t e, m t = some e → t ≠ [] ∧ ∃ c ∈ S, c.target cfg = t ∧ e.CreatedBy cfg c)
    (hsub : ∀ r ∈ R, r ∈ S) (hready : ∀ r ∈ R, r.Readable cfg ∨ m (r.target cfg) ≠ none) :
    Accepted cfg m R := by
  induction R generalizing m with
  | nil => trivial
  | cons r R ih =>
      have hrS := hsub r List.mem_cons_self
      constructor
      · cases hslot : m (r.target cfg) with
        | none =>
            rcases hready r List.mem_cons_self with hreadable | hsome
            · exact hreadable
            · exact absurd hslot hsome
        | some e =>
            obtain ⟨hne, c, hc, htarget, hcreated⟩ := hm _ e hslot
            exact not_not_intro (hcreated.takes (hcompat r hrS c hc htarget.symm hne))
      · refine ih ?_ (fun r hr => hsub r (List.mem_cons_of_mem _ hr)) ?_
        · intro t e he
          unfold addNamed at he
          split at he
          · exact hm t e he
          · next hne =>
              by_cases ht : t = r.target cfg
              · subst ht
                rw [update_self] at he
                refine ⟨hne, ?_⟩
                cases hslot : m (r.target cfg) with
                | none =>
                    rw [hslot] at he
                    obtain ⟨a, ha, rfl⟩ := Option.map_eq_some_iff.mp he
                    exact ⟨r, hrS, rfl, Request.entry_createdBy ha⟩
                | some p =>
                    rw [hslot] at he
                    obtain ⟨-, c, hc, htarget, hcreated⟩ := hm _ p hslot
                    obtain rfl : p.absorb r = e := Option.some.inj he
                    rw [p.absorb_eq r]
                    exact ⟨c, hc, htarget, hcreated.moved _⟩
              · rw [update_of_ne ht] at he
                exact hm t e he
        · intro r' hr'
          rcases hready r' (List.mem_cons_of_mem _ hr') with hreadable | hsome
          · exact .inl hreadable
          · refine .inr ?_
            unfold addNamed
            split
            · exact hsome
            · by_cases ht : r'.target cfg = r.target cfg
              · obtain ⟨p, hp⟩ := Option.ne_none_iff_exists'.mp hsome
                rw [ht, update_self, ← ht, hp]
                exact fun hnone => nomatch hnone
              · rw [update_of_ne ht]
                exact hsome

/-! ### Two orders of one list of requests -/

/-- What is compared of an entry.  A directory has no source. -/
structure Listed where
  entryType : EntryType
  source : Option CString
  target : CString
  ziptgt : ZipTgt
  attributes : Attributes
deriving DecidableEq, Repr

def Entry.listed (e : Entry) : Listed :=
  { entryType := e.entryType
    source := if e.entryType = .dir then none else some e.filename
    target := e.target
    ziptgt := e.ziptgt
    attributes := e.attributes }

/-- Some request of the list fails. -/
def Fails (cfg : Settings) (R : List Request) : Prop := (addAll cfg [] R).2 = false

/-- The resulting lists contain the same entries. -/
def SameEntries (cfg : Settings) (R R' : List Request) : Prop :=
  ((addAll cfg [] R).1.map Entry.listed).Perm ((addAll cfg [] R').1.map Entry.listed)

/-- In any two orders of the requests, some request fails in both, or the entries are the same. -/
def OrderIndependent (cfg : Settings) (R : List Request) : Prop :=
  ∀ R₁ R₂, R₁.Perm R → R₂.Perm R → (Fails cfg R₁ ∧ Fails cfg R₂) ∨ SameEntries cfg R₁ R₂

/-- The requests are refused in every order: one has a type or a name that is not allowed, one
without a name has unreadable options, all requests for some name have unreadable options, or two
requests for one name differ in their type or in their source. -/
def RefusedInEveryOrder (cfg : Settings) (R : List Request) : Prop :=
  (∃ r ∈ R, ¬ r.Allowed cfg) ∨
  (∃ r ∈ R, r.target cfg = [] ∧ ¬ r.Readable cfg) ∨
  (∃ r ∈ R, r.target cfg ≠ [] ∧ ∀ r' ∈ R, r'.target cfg = r.target cfg → ¬ r'.Readable cfg) ∨
  (∃ r ∈ R, ∃ r' ∈ R, r.target cfg = r'.target cfg ∧ r.target cfg ≠ [] ∧ ¬ r.Compatible r')

/-- The requests for one name have the same options, as far as they can be read, and none with
unreadable options asks for an earlier archive than all the others. -/
def OptionsAgree (cfg : Settings) (R : List Request) : Prop :=
  ∀ r ∈ R, r.target cfg ≠ [] →
    (∀ r' ∈ R, r'.target cfg = r.target cfg → r.Readable cfg → r'.Readable cfg →
      readAttributes cfg r = readAttributes cfg r') ∧
    (¬ r.Readable cfg → ∃ r' ∈ R, r'.target cfg = r.target cfg ∧ r'.Readable cfg ∧
      r'.ziptgt ≤ r.ziptgt)

/-- The entry of a name after all requests. -/
def entryFor (cfg : Settings) (R : List Request) (t : CString) : Option Entry :=
  (requestsFor cfg R t).foldl (entryAfter cfg) none

theorem addAll_represents (hallowed : ∀ r ∈ R, r.Allowed cfg) :
    Represents (addAll cfg [] R).1 (R.foldl (addNamed cfg) fun _ => none) (unnamedEntries cfg R) :=
  (addAll_spec Represents.nil hallowed).1

theorem fails_iff (hallowed : ∀ r ∈ R, r.Allowed cfg) :
    Fails cfg R ↔ ¬ Accepted cfg (fun _ => none) R := by
  unfold Fails
  rw [← (addAll_spec Represents.nil hallowed).2, Bool.not_eq_true]

/-- The lists of two runs contain the same entries exactly if they do so for each name and for the
entries without a name. -/
theorem sameEntries_iff (h : ∀ r ∈ R, r.Allowed cfg) (h' : ∀ r ∈ R', r.Allowed cfg) :
    SameEntries cfg R R' ↔
      (∀ t ≠ [], (entryFor cfg R t).map Entry.listed = (entryFor cfg R' t).map Entry.listed) ∧
        ((unnamedEntries cfg R).map Entry.listed).Perm
          ((unnamedEntries cfg R').map Entry.listed) := by
  have hrep := addAll_represents h
  have hrep' := addAll_represents h'
  have hlisted : ∀ e e' : Entry, e.listed = e'.listed → e.target = e'.target :=
    fun e e' heq => congrArg Listed.target heq
  have hnames : (∀ t, (R.foldl (addNamed cfg) (fun _ => none) t).map Entry.listed =
        (R'.foldl (addNamed cfg) (fun _ => none) t).map Entry.listed) ↔
      ∀ t ≠ [], (entryFor cfg R t).map Entry.listed = (entryFor cfg R' t).map Entry.listed := by
    constructor
    · intro hall t ht
      have heq := hall t
      rwa [foldl_addNamed_apply ht, foldl_addNamed_apply ht] at heq
    · intro hall t
      by_cases ht : t = []
      · rw [ht, foldl_addNamed_nil, foldl_addNamed_nil]
      · rw [foldl_addNamed_apply ht, foldl_addNamed_apply ht]
        exact hall t ht
  rw [← hnames, ← hrep.named.map_perm_iff hlisted hrep'.named, ← hrep.unnamed, ← hrep'.unnamed]
  unfold SameEntries
  constructor
  · intro hperm
    have hfilter (p : Listed → Bool) := hperm.filter p
    simp only [List.filter_map] at hfilter
    exact ⟨hfilter fun e => e.target ≠ [], hfilter fun e => e.target = []⟩
  · rintro ⟨hnamed, hunnamed⟩
    have hsplit (files : List Entry) : ((files.filter fun p => p.target ≠ []).map Entry.listed ++
        (files.filter fun p => p.target = []).map Entry.listed).Perm
        (files.map Entry.listed) := by
      rw [← List.map_append]
      have hperm := List.filter_append_perm (fun p : Entry => decide (p.target ≠ [])) files
      simpa using hperm.map Entry.listed
    exact ((hsplit _).symm.trans (hnamed.append hunnamed)).trans (hsplit _)

theorem RefusedInEveryOrder.perm (h : RefusedInEveryOrder cfg R) (hperm : R.Perm R') :
    RefusedInEveryOrder cfg R' := by
  unfold RefusedInEveryOrder at h ⊢
  simpa only [hperm.mem_iff] using h

theorem RefusedInEveryOrder.fails (h : RefusedInEveryOrder cfg R) : Fails cfg R := by
  by_cases hallowed : ∀ r ∈ R, r.Allowed cfg
  · rw [fails_iff hallowed]
    intro haccepted
    rcases h with ⟨r, hr, hnot⟩ | ⟨r, hr, hnil, hnot⟩ | ⟨r, hr, hne, hall⟩ |
      ⟨r, hr, r', hr', htarget, hne, hnot⟩
    · exact hnot (hallowed r hr)
    · exact hnot (haccepted.readable_of_unnamed rfl hr hnil)
    · obtain ⟨e, he, -⟩ := haccepted.takes hr hne
      rw [foldl_addNamed_apply hne] at he
      obtain ⟨⟨c, hc, hcreated⟩, -⟩ := foldl_entryAfter_origin he
      rw [mem_requestsFor] at hc
      exact hall c hc.1 hc.2 hcreated.readable
    · obtain ⟨e, he, htakes⟩ := haccepted.takes hr hne
      obtain ⟨e', he', htakes'⟩ := haccepted.takes hr' (htarget ▸ hne)
      rw [← htarget, he] at he'
      obtain rfl : e = e' := Option.some.inj he'
      refine hnot ⟨htakes.1.trans htakes'.1.symm, ?_⟩
      rcases htakes.2 with hfile | hdir
      · rcases htakes'.2 with hfile' | hdir'
        · exact .inl (hfile.trans hfile'.symm)
        · exact .inr (htakes.1.trans (htakes'.1.symm.trans hdir'))
      · exact .inr hdir
  · push Not at hallowed
    obtain ⟨r, hr, hnot⟩ := hallowed
    exact addAll_not_allowed hr hnot

/-- The requests that are not refused in every order. -/
structure Consistent (cfg : Settings) (R : List Request) : Prop where
  allowed : ∀ r ∈ R, r.Allowed cfg
  unnamed : ∀ r ∈ R, r.target cfg = [] → r.Readable cfg
  readable : ∀ r ∈ R, r.target cfg ≠ [] →
    ∃ r' ∈ R, r'.target cfg = r.target cfg ∧ r'.Readable cfg
  compatible : ∀ r ∈ R, ∀ r' ∈ R, r.target cfg = r'.target cfg → r.target cfg ≠ [] →
    r.Compatible r'

theorem consistent_of_not_refused (h : ¬ RefusedInEveryOrder cfg R) : Consistent cfg R := by
  unfold RefusedInEveryOrder at h
  push Not at h
  exact ⟨h.1, h.2.1, h.2.2.1, h.2.2.2⟩

namespace Consistent

theorem perm (h : Consistent cfg R) (hperm : R.Perm R') : Consistent cfg R' := by
  obtain ⟨hallowed, hunnamed, hreadable, hcompat⟩ := h
  simp only [hperm.mem_iff] at hallowed hunnamed hreadable hcompat
  exact ⟨hallowed, hunnamed, hreadable, hcompat⟩

theorem compatible_requestsFor (h : Consistent cfg R) (ht : t ≠ []) :
    ∀ r ∈ requestsFor cfg R t, ∀ r' ∈ requestsFor cfg R t, r.Compatible r' := by
  intro r hr r' hr'
  rw [mem_requestsFor] at hr hr'
  exact h.compatible r hr.1 r' hr'.1 (hr.2.trans hr'.2.symm) (hr.2 ▸ ht)

theorem entryFor_spec (h : Consistent cfg R) (hr : r ∈ R) (ht : r.target cfg ≠ []) :
    ∃ e, entryFor cfg R (r.target cfg) = some e ∧
      (∃ c ∈ R, c.target cfg = r.target cfg ∧ e.CreatedBy cfg c) ∧
      (∃ r' ∈ R, r'.target cfg = r.target cfg ∧ e.ziptgt = r'.ziptgt) ∧
      ∀ r' ∈ R, r'.target cfg = r.target cfg → r'.Readable cfg → e.ziptgt ≤ r'.ziptgt := by
  have hcompat := h.compatible_requestsFor ht
  obtain ⟨c, hc, htarget, hreadable⟩ := h.readable r hr ht
  obtain ⟨e, he, -⟩ := foldl_entryAfter_le hcompat (mem_requestsFor.mpr ⟨hc, htarget⟩) hreadable
  obtain ⟨⟨c', hc', hcreated⟩, r', hr', hfrom⟩ := foldl_entryAfter_origin he
  rw [mem_requestsFor] at hc' hr'
  refine ⟨e, he, ⟨c', hc'.1, hc'.2, hcreated⟩, ⟨r', hr'.1, hr'.2, hfrom⟩, ?_⟩
  intro r'' hr'' htarget'' hreadable''
  obtain ⟨e', he', hle⟩ :=
    foldl_entryAfter_le hcompat (mem_requestsFor.mpr ⟨hr'', htarget''⟩) hreadable''
  obtain rfl : e = e' := Option.some.inj (he.symm.trans he')
  exact hle

/-- With agreeing options the order does not matter. -/
theorem sameEntries (h : Consistent cfg R) (hagree : OptionsAgree cfg R) (hperm : R.Perm R') :
    SameEntries cfg R R' := by
  have h' := h.perm hperm
  rw [sameEntries_iff h.allowed h'.allowed]
  refine ⟨?_, (hperm.filterMap _).map _⟩
  intro t ht
  by_cases hany : ∃ r ∈ R, r.target cfg = t
  · obtain ⟨r, hr, rfl⟩ := hany
    obtain ⟨e, he, ⟨c, hc, hctgt, hcreated⟩, ⟨r₁, hr₁, htgt₁, hfrom₁⟩, hleast⟩ :=
      h.entryFor_spec hr ht
    obtain ⟨e', he', ⟨c', hc', hctgt', hcreated'⟩, ⟨r₂, hr₂, htgt₂, hfrom₂⟩, hleast'⟩ :=
      h'.entryFor_spec (hperm.mem_iff.mp hr) ht
    rw [← hperm.mem_iff] at hc' hr₂
    simp only [← hperm.mem_iff] at hleast'
    -- an archive asked for with unreadable options is asked for with readable ones as well
    have hbound : ∀ q ∈ R, q.target cfg = r.target cfg →
        e.ziptgt ≤ q.ziptgt ∧ e'.ziptgt ≤ q.ziptgt := by
      intro q hq htarget
      by_cases hreadable : q.Readable cfg
      · exact ⟨hleast q hq htarget hreadable, hleast' q hq htarget hreadable⟩
      · obtain ⟨q', hq', htarget', hreadable', hle⟩ := (hagree q hq (htarget ▸ ht)).2 hreadable
        exact ⟨(hleast q' hq' (htarget'.trans htarget) hreadable').trans hle,
          (hleast' q' hq' (htarget'.trans htarget) hreadable').trans hle⟩
    have hziptgt : e.ziptgt = e'.ziptgt := by
      apply le_antisymm
      · rw [hfrom₂]
        exact (hbound r₂ hr₂ htgt₂).1
      · rw [hfrom₁]
        exact (hbound r₁ hr₁ htgt₁).2
    have hattributes : e.attributes = e'.attributes := by
      have heq := (hagree c hc (hctgt ▸ ht)).1 c' hc' (hctgt'.trans hctgt.symm)
        hcreated.readable hcreated'.readable
      rw [hcreated.attributes, hcreated'.attributes] at heq
      exact Option.some.inj heq
    obtain ⟨htype, hsource⟩ := h.compatible c hc c' hc' (hctgt.trans hctgt'.symm) (hctgt ▸ ht)
    have hsource' : (if c.entryType = .dir then none else some c.file) =
        (if c'.entryType = .dir then none else some c'.file) := by
      rw [← htype]
      rcases hsource with hfile | hdir
      · rw [hfile]
      · rw [if_pos hdir, if_pos hdir]
    rw [he, he', Option.map_some, Option.map_some]
    unfold Entry.listed
    rw [hziptgt, hattributes, hcreated.entryType, hcreated'.entryType, hcreated.filename,
      hcreated'.filename, hcreated.target, hcreated'.target, hsource', htype, hctgt, hctgt']
  · have hempty : requestsFor cfg R t = [] := by
      rw [List.eq_nil_iff_forall_not_mem]
      intro r hr
      exact hany ⟨r, (mem_requestsFor.mp hr).1, (mem_requestsFor.mp hr).2⟩
    have hempty' : requestsFor cfg R' t = [] :=
      List.Perm.eq_nil (hempty ▸ (requestsFor_perm hperm).symm)
    unfold entryFor
    rw [hempty, hempty']

end Consistent

/-! ### Orders that tell requests apart -/

/-- The order in which the requests with readable options come first. -/
def readableFirst (cfg : Settings) (R : List Request) : List Request :=
  (R.filter fun r => r.Readable cfg) ++ R.filter fun r => ¬ r.Readable cfg

/-- The order in which they come last. -/
def readableLast (cfg : Settings) (R : List Request) : List Request :=
  (R.filter fun r => ¬ r.Readable cfg) ++ R.filter fun r => r.Readable cfg

theorem readableFirst_perm (cfg : Settings) (R : List Request) :
    (readableFirst cfg R).Perm R := by
  have hperm := List.filter_append_perm (fun r : Request => decide (r.Readable cfg)) R
  simpa [readableFirst] using hperm

theorem readableLast_perm (cfg : Settings) (R : List Request) : (readableLast cfg R).Perm R :=
  List.perm_append_comm.trans (readableFirst_perm cfg R)

theorem readableFirst_cons (h : r.Readable cfg) : ∃ R', readableFirst cfg (r :: R) = r :: R' := by
  unfold readableFirst
  rw [List.filter_cons_of_pos (by simpa using h)]
  exact ⟨_, rfl⟩

theorem Consistent.not_fails_readableFirst (h : Consistent cfg R) : ¬ Fails cfg (readableFirst cfg R) := by
  have hfirst := h.perm (readableFirst_perm cfg R).symm
  rw [fails_iff hfirst.allowed, not_not]
  unfold readableFirst
  rw [accepted_append]
  constructor
  · refine accepted_of_compatible h.compatible (fun t e he => nomatch he) ?_ ?_
    · exact fun r hr => (List.mem_filter.mp hr).1
    · exact fun r hr => .inl (by simpa using (List.mem_filter.mp hr).2)
  · refine accepted_of_compatible h.compatible ?_ (fun r hr => (List.mem_filter.mp hr).1) ?_
    · intro t e he
      have ht : t ≠ [] := by
        rintro rfl
        rw [foldl_addNamed_nil] at he
        exact nomatch he
      rw [foldl_addNamed_apply ht] at he
      obtain ⟨⟨c, hc, hcreated⟩, -⟩ := foldl_entryAfter_origin he
      rw [mem_requestsFor] at hc
      exact ⟨ht, c, (List.mem_filter.mp hc.1).1, hc.2, hcreated⟩
    · intro r hr
      obtain ⟨hr, hnot⟩ : r ∈ R ∧ ¬ r.Readable cfg := by simpa using List.mem_filter.mp hr
      have ht : r.target cfg ≠ [] := fun hnil => hnot (h.unnamed r hr hnil)
      obtain ⟨c, hc, htarget, hreadable⟩ := h.readable r hr ht
      refine .inr ?_
      have hmem : c ∈ requestsFor cfg (R.filter fun r => r.Readable cfg) (r.target cfg) := by
        simpa using ⟨⟨hc, hreadable⟩, htarget⟩
      have hcompat : ∀ r₁ ∈ requestsFor cfg (R.filter fun r => r.Readable cfg) (r.target cfg),
          ∀ r₂ ∈ requestsFor cfg (R.filter fun r => r.Readable cfg) (r.target cfg),
            r₁.Compatible r₂ := by
        intro r₁ hr₁ r₂ hr₂
        rw [mem_requestsFor] at hr₁ hr₂
        exact h.compatible r₁ (List.mem_filter.mp hr₁.1).1 r₂ (List.mem_filter.mp hr₂.1).1
          (hr₁.2.trans hr₂.2.symm) (hr₁.2 ▸ ht)
      obtain ⟨e, he, -⟩ := foldl_entryAfter_le hcompat hmem hreadable
      rw [foldl_addNamed_apply ht, he]
      exact fun hnone => nomatch hnone

theorem Consistent.readAttributes_eq {r' : Request} (h : Consistent cfg R)
    (hindependent : OrderIndependent cfg R) (hr : r ∈ R) (hr' : r' ∈ R)
    (htarget : r'.target cfg = r.target cfg) (ht : r.target cfg ≠ [])
    (hreadable : r.Readable cfg) (hreadable' : r'.Readable cfg) :
    readAttributes cfg r = readAttributes cfg r' := by
  have hfirst {q : Request} (hq : q ∈ R) (hqt : q.target cfg = r.target cfg)
      (hqr : q.Readable cfg) : ∃ Q, Q.Perm R ∧ ¬ Fails cfg Q ∧
        ∃ e, entryFor cfg Q (r.target cfg) = some e ∧ e.CreatedBy cfg q := by
    have hperm : (q :: R.erase q).Perm R := (List.perm_cons_erase hq).symm
    refine ⟨readableFirst cfg (q :: R.erase q), (readableFirst_perm cfg _).trans hperm,
      (h.perm hperm.symm).not_fails_readableFirst, ?_⟩
    obtain ⟨Q, hQ⟩ := readableFirst_cons (R := R.erase q) hqr
    obtain ⟨e, he, hcreated, -⟩ :=
      foldl_entryAfter_readable (g := requestsFor cfg Q (r.target cfg)) hqr
    refine ⟨e, ?_, hcreated⟩
    unfold entryFor
    rw [hQ, requestsFor, List.filter_cons_of_pos (by simpa using hqt)]
    exact he
  obtain ⟨Q, hQ, hok, e, he, hcreated⟩ := hfirst hr rfl hreadable
  obtain ⟨Q', hQ', hok', e', he', hcreated'⟩ := hfirst hr' htarget hreadable'
  rcases hindependent Q Q' hQ hQ' with hfails | hsame
  · exact absurd hfails.1 hok
  · have hlisted := ((sameEntries_iff (h.perm hQ.symm).allowed (h.perm hQ'.symm).allowed).mp
      hsame).1 (r.target cfg) ht
    rw [he, he'] at hlisted
    have hattributes : e.attributes = e'.attributes :=
      congrArg Listed.attributes (Option.some.inj hlisted)
    rw [hcreated.attributes, hcreated'.attributes, hattributes]

/-- A request with unreadable options counts for the archive if it comes last and does not if it
comes first. -/
theorem Consistent.ziptgt_le_of_unreadable (h : Consistent cfg R)
    (hindependent : OrderIndependent cfg R) (hr : r ∈ R) (ht : r.target cfg ≠ []) :
    ∃ r' ∈ R, r'.target cfg = r.target cfg ∧ r'.Readable cfg ∧ r'.ziptgt ≤ r.ziptgt := by
  have hfirst := h.perm (readableFirst_perm cfg R).symm
  have hlast := h.perm (readableLast_perm cfg R).symm
  have hsame : SameEntries cfg (readableFirst cfg R) (readableLast cfg R) := by
    rcases hindependent _ _ (readableFirst_perm cfg R) (readableLast_perm cfg R) with hfails | hsame
    · exact absurd hfails.1 h.not_fails_readableFirst
    · exact hsame
  obtain ⟨c, hc, hctgt, hreadable⟩ := h.readable r hr ht
  have hr₁ : r ∈ readableFirst cfg R := (readableFirst_perm cfg R).mem_iff.mpr hr
  have hr₂ : r ∈ readableLast cfg R := (readableLast_perm cfg R).mem_iff.mpr hr
  obtain ⟨e, he, -⟩ := hfirst.entryFor_spec hr₁ ht
  obtain ⟨e', he', -⟩ := hlast.entryFor_spec hr₂ ht
  have hziptgt : e.ziptgt = e'.ziptgt := by
    have hlisted := ((sameEntries_iff hfirst.allowed hlast.allowed).mp hsame).1 _ ht
    rw [he, he'] at hlisted
    exact congrArg Listed.ziptgt (Option.some.inj hlisted)
  have hle : e.ziptgt ≤ r.ziptgt := by
    have hmem : c ∈ requestsFor cfg (R.filter fun r => r.Readable cfg) (r.target cfg) := by
      simpa using ⟨⟨hc, hreadable⟩, hctgt⟩
    obtain ⟨q, g, hsplit⟩ := List.exists_cons_of_ne_nil (List.ne_nil_of_mem hmem)
    have hq : q.Readable cfg := by
      have hqmem : q ∈ requestsFor cfg (R.filter fun r => r.Readable cfg) (r.target cfg) := by
        rw [hsplit]
        exact List.mem_cons_self
      simpa using (List.mem_filter.mp (mem_requestsFor.mp hqmem).1).2
    have hgroup : requestsFor cfg (readableFirst cfg R) (r.target cfg) =
        q :: (g ++ requestsFor cfg (R.filter fun r => ¬ r.Readable cfg) (r.target cfg)) := by
      unfold readableFirst
      rw [requestsFor, List.filter_append]
      exact congrArg (· ++ _) hsplit
    have hcompat := hfirst.compatible_requestsFor ht
    rw [hgroup] at hcompat
    obtain ⟨e₁, he₁, -, -, -, hleast⟩ := foldl_entryAfter_readable hq
    unfold entryFor at he
    rw [hgroup] at he
    obtain rfl : e₁ = e := Option.some.inj (he₁.symm.trans he)
    refine hleast (fun q' hq' => hcompat q' (List.mem_cons_of_mem _ hq') q List.mem_cons_self) r ?_
    rw [← hgroup]
    exact mem_requestsFor.mpr ⟨hr₁, rfl⟩
  have hfrom : ∃ r' ∈ R, r'.target cfg = r.target cfg ∧ r'.Readable cfg ∧
      e'.ziptgt = r'.ziptgt := by
    have hgroup : requestsFor cfg (readableLast cfg R) (r.target cfg) =
        requestsFor cfg (R.filter fun r => ¬ r.Readable cfg) (r.target cfg) ++
          requestsFor cfg (R.filter fun r => r.Readable cfg) (r.target cfg) := by
      unfold readableLast
      rw [requestsFor, List.filter_append]
      rfl
    unfold entryFor at he'
    rw [hgroup, List.foldl_append, foldl_entryAfter_unreadable] at he'
    · obtain ⟨-, r', hr', hfrom⟩ := foldl_entryAfter_origin he'
      rw [mem_requestsFor, List.mem_filter] at hr'
      exact ⟨r', hr'.1.1, hr'.2, by simpa using hr'.1.2, hfrom⟩
    · intro q hq
      rw [mem_requestsFor, List.mem_filter] at hq
      simpa using hq.1.2
  obtain ⟨r', hr', htarget, hreadable', hfrom⟩ := hfrom
  refine ⟨r', hr', htarget, hreadable', ?_⟩
  rw [← hfrom, ← hziptgt]
  exact hle

/-- The order of the requests does not matter exactly if they are refused in every order or agree
in their options. -/
theorem orderIndependent_iff (cfg : Settings) (R : List Request) :
    OrderIndependent cfg R ↔ RefusedInEveryOrder cfg R ∨ OptionsAgree cfg R := by
  constructor
  · intro hindependent
    by_cases hrefused : RefusedInEveryOrder cfg R
    · exact .inl hrefused
    · have h := consistent_of_not_refused hrefused
      refine .inr fun r hr ht => ⟨?_, fun _ => h.ziptgt_le_of_unreadable hindependent hr ht⟩
      intro r' hr' htarget hreadable hreadable'
      exact h.readAttributes_eq hindependent hr hr' htarget ht hreadable hreadable'
  · intro hcondition R₁ R₂ hR₁ hR₂
    by_cases hrefused : RefusedInEveryOrder cfg R
    · exact .inl ⟨(hrefused.perm hR₁.symm).fails, (hrefused.perm hR₂.symm).fails⟩
    · have hagree := hcondition.resolve_left hrefused
      have h := consistent_of_not_refused hrefused
      have hsame₁ := h.sameEntries hagree hR₁.symm
      have hsame₂ := h.sameEntries hagree hR₂.symm
      exact .inr (hsame₁.symm.trans hsame₂)

/-- Two packages ask for the same file with different modes. -/
def twoModes : List Request :=
  [{ file := "opt/etc/x".toList, zipsrc := .opt, ziptgt := .opt, entryType := .file
     opts := [("mode".toList, "600".toList)] },
   { file := "opt/etc/x".toList, zipsrc := .opt, ziptgt := .opt, entryType := .file
     opts := [("mode".toList, "644".toList)] }]

/-- Both orders succeed, and the file gets the mode of the package that comes first. -/
theorem orderIndependent_fails_for_twoModes :
    ¬ OrderIndependent ⟨"config".toList, [], []⟩ twoModes := by
  intro hindependent
  rcases hindependent twoModes twoModes.reverse (List.Perm.refl _) (List.reverse_perm _) with
    hfails | hsame
  · have hok : (addAll ⟨"config".toList, [], []⟩ [] twoModes).2 = true := by decide
    exact absurd (hok.symm.trans hfails.1) (by decide)
  · have hdiffer : ¬ ((addAll ⟨"config".toList, [], []⟩ [] twoModes).1.map Entry.listed).Perm
        ((addAll ⟨"config".toList, [], []⟩ [] twoModes.reverse).1.map Entry.listed) := by
      decide
    exact hdiffer hsame

end Ziplist
end Mkfli4l
