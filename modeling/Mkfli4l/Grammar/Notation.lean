import Mkfli4l.Grammar.Assignments
import Mkfli4l.Var.Names

/-!
# The notations for array elements

An element of an array can be written in several ways: with its indices in the name, as in
`X_1_Y_2`, with its indices in brackets, as in `X[1].Y[2]`, or as a mixture of both, and the
parts may be spread over nested blocks.  `Spells` says what it means that a target is written
for an element, in terms of the words and brackets of the target.

The reader finds the indices in two places: numbers in the name are cut out by
`var_instance_create_from_string`, numbers in brackets are collected on the way down to the
assignment.  It never uses both: a mixture leads to an instance that has lost the indices in
brackets, and setting a value fails because indices are missing.
-/

namespace Mkfli4l

open Lib Exec

/-! ### What a target is written for -/

/-- A part of a target: a word of an identifier or an index in brackets. -/
inductive TargetPiece
  | word (text : CString)
  | bracket (index : VarassIndex)
deriving DecidableEq, Repr

namespace TargetPiece

/-- What the part adds to the name of the variable. -/
def text : TargetPiece → CString
  | word w => w
  | bracket _ => ['%']

/-- What the part adds to the indices. -/
def index? : TargetPiece → Option VarassIndex
  | word _ => none
  | bracket index => some index

@[simp] theorem filterMap_index?_word (w : CString) (pieces : List TargetPiece) :
    (word w :: pieces).filterMap index? = pieces.filterMap index? := rfl

@[simp] theorem filterMap_index?_bracket (i : VarassIndex) (pieces : List TargetPiece) :
    (bracket i :: pieces).filterMap index? = i :: pieces.filterMap index? := rfl

end TargetPiece

/-- The words of an identifier. -/
def idPieces (id : CString) : List TargetPiece := (id.splitOn '_').map .word

/-- The parts of a target. -/
def VarassTarget.pieces : VarassTarget → List TargetPiece
  | topLevel none => []
  | topLevel (some id) => idPieces id
  | structMember parent member => parent.pieces ++ idPieces member
  | arrayMember parent index => parent.pieces ++ [.bracket index]

/-- The parts of a target are written for the element with the given indices of the variable
whose name consists of the given words.  Every placeholder is written as a number, either in
the name or in brackets. -/
inductive Spells : List TargetPiece → List CString → List Nat → Prop
  | nil : Spells [] [] []
  | member {pieces : List TargetPiece} {words : List CString} {indices : List Nat}
      {w word : CString} (hsame : sameName w word = true) (hword : word ≠ ['%'])
      (hrest : Spells pieces words indices) :
      Spells (.word w :: pieces) (word :: words) indices
  | classic {pieces : List TargetPiece} {words : List CString} {indices : List Nat}
      {digits : CString} (hne : digits ≠ []) (hdigits : ∀ c ∈ digits, c.isDigit = true)
      (hrest : Spells pieces words indices) :
      Spells (.word digits :: pieces) (['%'] :: words) (digitsValue 10 digits :: indices)
  | bracket {pieces : List TargetPiece} {words : List CString} {indices : List Nat}
      {number : UInt32} (hrest : Spells pieces words indices) :
      Spells (.bracket (.absolute number) :: pieces) (['%'] :: words) (number.toNat :: indices)

/-- The zero-based indices of an element. -/
def elementIndices (indices : List Nat) : List UInt32 :=
  indices.map fun n => UInt32.ofNat (n - 1)

/-! ### Identifiers come from the scanner -/

namespace VarassTarget

/-- The name of the outermost part. -/
def base : VarassTarget → Option CString
  | topLevel id => id
  | structMember parent _ => parent.base
  | arrayMember parent _ => parent.base

/-- No word extends over several lines. -/
def OnLine (t : VarassTarget) : Prop := ∀ w, TargetPiece.word w ∈ t.pieces → '\n' ∉ w

end VarassTarget

/-- The identifier of a token, if it has one, extends over one line. -/
def VarassToken.OnLine : VarassToken → Prop
  | .id name => '\n' ∉ name
  | _ => True

/-- The same for a token that is being read. -/
def PendingToken.OnLine : PendingToken → Prop
  | .id text => '\n' ∉ text
  | _ => True

variable {text w digits rest name varName : CString} {t : VarassTarget} {nested : Bool}
  {targets : List VarassTarget} {var : Var}

section scanner

variable {pending : PendingToken}

theorem PendingToken.flush_onLine (h : pending.OnLine) : ∀ token ∈ pending.flush, token.OnLine := by
  cases pending with
  | none => simp [flush]
  | id text => simpa [flush, VarassToken.OnLine, PendingToken.OnLine] using h
  | absoluteIndex text => simp [flush, VarassToken.OnLine]

theorem PendingToken.push_onLine {c : Char} (h : pending.OnLine)
    (hc : pending.continues c = true) : (pending.push c).OnLine := by
  cases pending with
  | none => exact h
  | absoluteIndex text => exact h
  | id text =>
      have hne : c ≠ '\n' := by
        rintro rfl
        contradiction
      simp only [PendingToken.push, PendingToken.OnLine, List.mem_append, List.mem_singleton,
        not_or]
      exact ⟨h, hne.symm⟩

theorem PendingToken.start_onLine (c : Char) :
    (∀ token ∈ (PendingToken.start c).1, token.OnLine) ∧ (PendingToken.start c).2.OnLine := by
  unfold PendingToken.start
  split_ifs with hspace hdot hopen hclose hdigit halpha
  all_goals refine ⟨?_, ?_⟩
  all_goals try exact trivial
  all_goals try simp [VarassToken.OnLine]
  · have hne : c ≠ '\n' := fun h => hspace (by simp [h])
    simpa [PendingToken.OnLine] using hne.symm

theorem scanTarget_onLine (h : pending.OnLine) :
    ∀ token ∈ scanTarget pending text, token.OnLine := by
  induction text generalizing pending with
  | nil => exact PendingToken.flush_onLine h
  | cons c rest ih =>
      unfold scanTarget
      split
      · next hcontinues => exact ih (PendingToken.push_onLine h hcontinues)
      · obtain ⟨htokens, hpending⟩ := PendingToken.start_onLine c
        intro token htoken
        rcases List.mem_append.mp htoken with htoken | htoken
        · rcases List.mem_append.mp htoken with htoken | htoken
          · exact PendingToken.flush_onLine h token htoken
          · exact htokens token htoken
        · exact ih hpending token htoken

theorem idPieces_onLine {id : CString} (h : '\n' ∉ id) (hw : TargetPiece.word w ∈ idPieces id) :
    '\n' ∉ w := by
  obtain ⟨w', hw', heq⟩ := List.mem_map.mp hw
  obtain rfl := TargetPiece.word.inj heq
  exact fun hmem => h (mem_of_mem_splitOn hw' hmem)

theorem VarassTarget.OnLine.structMember {member : CString} (h : t.OnLine)
    (hmember : '\n' ∉ member) : (VarassTarget.structMember t member).OnLine := by
  intro w hw
  rcases List.mem_append.mp hw with hw | hw
  · exact h w hw
  · exact idPieces_onLine hmember hw

theorem VarassTarget.OnLine.arrayMember (h : t.OnLine) (index : VarassIndex) :
    (VarassTarget.arrayMember t index).OnLine := by
  intro w hw
  rcases List.mem_append.mp hw with hw | hw
  · exact h w hw
  · simp at hw

theorem parseTargetTail_spec {tokens : List VarassToken} {t' : VarassTarget}
    (htokens : ∀ token ∈ tokens, token.OnLine) (ht : t.OnLine)
    (h : parseTargetTail t tokens = some t') : t'.base = t.base ∧ t'.OnLine := by
  fun_induction parseTargetTail t tokens with
  | case1 t =>
      obtain rfl := Option.some.inj h
      exact ⟨rfl, ht⟩
  | case2 t member rest ih =>
      have hmember : '\n' ∉ member := htokens (.id member) (by simp)
      exact ih (fun token htoken => htokens token (by simp [htoken])) (ht.structMember hmember) h
  | case3 t number rest ih =>
      exact ih (fun token htoken => htokens token (by simp [htoken])) (ht.arrayMember _) h
  | case4 t rest ih =>
      exact ih (fun token htoken => htokens token (by simp [htoken])) (ht.arrayMember _) h
  | case5 => contradiction

theorem parseTarget_spec (h : parseTarget nested (scanTarget .none text) = some t) :
    (t.base = none ↔ nested = true) ∧ t.OnLine := by
  have htokens : ∀ token ∈ scanTarget .none text, token.OnLine := scanTarget_onLine trivial
  generalize scanTarget .none text = tokens at h htokens
  have hnone : (VarassTarget.topLevel none).OnLine := fun w hw => nomatch hw
  unfold parseTarget at h
  split at h
  · next name rest =>
      have hname : '\n' ∉ name := htokens (.id name) (by simp)
      have hrest : ∀ token ∈ rest, token.OnLine :=
        fun token htoken => htokens token (by simp [htoken])
      cases nested with
      | true =>
          obtain ⟨hbase, hline⟩ := parseTargetTail_spec hrest (hnone.structMember hname) h
          exact ⟨by simp [hbase, VarassTarget.base], hline⟩
      | false =>
          have htop : (VarassTarget.topLevel (some name)).OnLine :=
            fun w hw => idPieces_onLine hname hw
          obtain ⟨hbase, hline⟩ := parseTargetTail_spec hrest htop h
          exact ⟨by simp [hbase, VarassTarget.base], hline⟩
  · next rest =>
      cases nested with
      | true =>
          obtain ⟨hbase, hline⟩ := parseTargetTail_spec htokens hnone h
          exact ⟨by simp [hbase, VarassTarget.base], hline⟩
      | false => contradiction
  · contradiction

end scanner

/-! ### Numbers in a name -/

/-- What follows a word: nothing or a separator. -/
def EndsWord (rest : CString) : Prop := rest = [] ∨ ∃ tail, rest = '_' :: tail

theorem endsWord_glue (words : List CString) : EndsWord (glue '_' words) := by
  cases words with
  | nil => exact Or.inl rfl
  | cons w words => exact Or.inr ⟨_, rfl⟩

theorem atoi_digits (hne : digits ≠ [])
    (hdigits : ∀ c ∈ digits, c.isDigit = true) (hrest : EndsWord rest)
    (hmax : digitsValue 10 digits ≤ 2147483647) :
    atoi (digits ++ rest) = digitsValue 10 digits := by
  have hstop : rest.takeWhile (isDigitOf 10) = [] := by
    rcases hrest with rfl | ⟨tail', rfl⟩
    · rfl
    · rfl
  have hclamp : min longMax (digitsValue 10 digits : Int) = digitsValue 10 digits := by
    unfold longMax
    omega
  rw [atoi, strtol_digits rest hne hdigits hstop]
  dsimp only
  rw [hclamp]
  exact toInt32_of_range (by omega) (by omega)

theorem splitIndices_skip (hdigits : ∀ c ∈ digits, c.isDigit = true) :
    splitIndices true (digits ++ rest) = splitIndices true rest := by
  induction digits with
  | nil => rfl
  | cons c digits ih =>
      rw [List.cons_append, splitIndices, if_pos (by simp [hdigits c List.mem_cons_self])]
      exact ih fun d hd => hdigits d (List.mem_cons_of_mem _ hd)

theorem splitIndices_endsWord (hrest : EndsWord rest) :
    splitIndices true rest = splitIndices false rest := by
  rcases hrest with rfl | ⟨tail, rfl⟩
  · rfl
  · rfl

theorem splitIndices_word (hw : '_' ∉ w) :
    splitIndices false (w ++ rest) =
      (w ++ (splitIndices false rest).1, (splitIndices false rest).2) := by
  induction w with
  | nil => rfl
  | cons c w ih =>
      have hc : c ≠ '_' := fun h => hw (h ▸ List.mem_cons_self)
      rw [List.cons_append, splitIndices, if_neg (by simp), if_neg (by simp [hc]),
        ih fun h => hw (List.mem_cons_of_mem _ h)]
      rfl

theorem splitIndices_separated (hw : '_' ∉ w) (hstart : startsWithDigit (w ++ rest) = false) :
    splitIndices false ('_' :: w ++ rest) =
      ('_' :: w ++ (splitIndices false rest).1, (splitIndices false rest).2) := by
  rw [List.cons_append, splitIndices, if_neg (by simp), if_neg (by simp [hstart]),
    splitIndices_word hw]
  rfl

theorem splitIndices_number (hne : digits ≠ [])
    (hdigits : ∀ c ∈ digits, c.isDigit = true) (hrest : EndsWord rest)
    (hmax : digitsValue 10 digits ≤ 2147483647) :
    splitIndices false ('_' :: digits ++ rest) =
      ('_' :: '%' :: (splitIndices false rest).1,
        toUInt32 ((digitsValue 10 digits : Int) - 1) :: (splitIndices false rest).2) := by
  have hstart : startsWithDigit (digits ++ rest) = true := by
    obtain ⟨c, tail, rfl⟩ := List.exists_cons_of_ne_nil hne
    exact hdigits c List.mem_cons_self
  rw [List.cons_append, splitIndices, if_neg (by simp), if_pos ⟨rfl, hstart⟩,
    splitIndices_skip hdigits, splitIndices_endsWord hrest,
    atoi_digits hne hdigits hrest hmax]

/-! ### Splitting a spelled name -/

theorem toUInt32_sub_one {n : Nat} (hpos : 1 ≤ n) : toUInt32 ((n : Int) - 1) = UInt32.ofNat (n - 1) := by
  apply UInt32.toNat_inj.mp
  unfold toUInt32
  rw [UInt32.toNat_ofNat', UInt32.toNat_ofNat']
  omega

theorem sub_one_eq_ofNat {number : UInt32} (hpos : 1 ≤ number.toNat) :
    number - 1 = UInt32.ofNat (number.toNat - 1) := by
  apply UInt32.toNat_inj.mp
  have hlt : number.toNat < 4294967296 := number.toNat_lt
  have hle : (1 : UInt32) ≤ number := UInt32.le_iff_toNat_le.mpr hpos
  have hone : (1 : UInt32).toNat = 1 := rfl
  rw [UInt32.toNat_sub_of_le _ _ hle, UInt32.toNat_ofNat', hone]
  omega

/-- The parts of a target that is written for an element, after the numbers `numbers` have been
cut out of its name. -/
structure SplitSpelling (pieces : List TargetPiece) (words : List CString) (indices : List Nat)
    (numbers : List UInt32) : Prop where
  split : ∃ words', splitIndices false (glue '_' (pieces.map TargetPiece.text)) =
      (glue '_' words', numbers) ∧ (∀ w ∈ words', '_' ∉ w) ∧
      words'.map (List.map Char.toLower) = words.map (List.map Char.toLower)
  length_eq : numbers.length + (pieces.filterMap TargetPiece.index?).length = indices.length
  allClassic : pieces.filterMap TargetPiece.index? = [] → numbers = elementIndices indices
  numbered : numbers ≠ [] → ∃ w ∈ pieces.map TargetPiece.text, ∃ c rest, w = c :: rest ∧
    c.isDigit = true
  plain : numbers = [] →
    (pieces.map TargetPiece.text).map (List.map Char.toLower) = words.map (List.map Char.toLower) ∧
      ∃ absolutes : List UInt32, pieces.filterMap TargetPiece.index? = absolutes.map .absolute ∧
        indices = absolutes.map UInt32.toNat

section split

variable {pieces : List TargetPiece} {words : List CString} {indices : List Nat} {numbers : List UInt32}

theorem SplitSpelling.member (hsplit : SplitSpelling pieces words indices numbers) {word : CString}
    (hlower : w.map Char.toLower = word.map Char.toLower) (hword : isNameWord word = true)
    (hw : '_' ∉ w) : SplitSpelling (.word w :: pieces) (word :: words) indices numbers := by
  obtain ⟨words', hcut, hclean, hsameWords⟩ := hsplit.split
  -- a word of a name begins with a letter, in either spelling
  have hstart : startsWithDigit (w ++ glue '_' (pieces.map TargetPiece.text)) = false := by
    obtain ⟨c, rest, rfl, hc, -⟩ := isNameWord_cons hword
    obtain ⟨d, rest', rfl, hd, -⟩ := List.map_eq_cons_iff.mp hlower
    rw [List.cons_append, startsWithDigit, Bool.eq_false_iff]
    intro hdigit
    have hdd : d.toLower = d := (toLower_eq_iff (isDigit_isAlpha hdigit)).mpr rfl
    rw [hdd, eq_comm, toLower_eq_iff (isDigit_isAlpha hdigit)] at hd
    rw [hd, hdigit] at hc
    contradiction
  refine ⟨⟨w :: words', ?_, ?_, ?_⟩, ?_, ?_, ?_, ?_⟩
  · simp only [List.map_cons, TargetPiece.text, glue_cons]
    rw [splitIndices_separated hw hstart, hcut]
  · exact List.forall_mem_cons.mpr ⟨hw, hclean⟩
  · simp only [List.map_cons, hlower, hsameWords]
  · simpa using hsplit.length_eq
  · intro hnone
    exact hsplit.allClassic (by simpa using hnone)
  · intro hne
    obtain ⟨u, hu, hdigit⟩ := hsplit.numbered hne
    exact ⟨u, List.mem_cons_of_mem _ hu, hdigit⟩
  · intro hnone
    obtain ⟨htext, absolutes, hindex, hindices⟩ := hsplit.plain hnone
    refine ⟨?_, absolutes, by simpa using hindex, hindices⟩
    simp only [List.map_cons, TargetPiece.text, hlower, htext]

theorem SplitSpelling.classic (hsplit : SplitSpelling pieces words indices numbers)
    (hne : digits ≠ []) (hdigits : ∀ c ∈ digits, c.isDigit = true) (hmin : 1 ≤ digitsValue 10 digits)
    (hmax : digitsValue 10 digits ≤ 2147483647) :
    SplitSpelling (.word digits :: pieces) (['%'] :: words) (digitsValue 10 digits :: indices)
      (UInt32.ofNat (digitsValue 10 digits - 1) :: numbers) := by
  obtain ⟨words', hcut, hclean, hsameWords⟩ := hsplit.split
  refine ⟨⟨['%'] :: words', ?_, ?_, ?_⟩, ?_, ?_, ?_, ?_⟩
  · simp only [List.map_cons, TargetPiece.text, glue_cons]
    rw [splitIndices_number hne hdigits (endsWord_glue _) hmax, hcut, toUInt32_sub_one hmin]
    rfl
  · exact List.forall_mem_cons.mpr ⟨by decide, hclean⟩
  · simp only [List.map_cons, hsameWords]
  · have hlength := hsplit.length_eq
    simp only [List.length_cons, TargetPiece.filterMap_index?_word]
    omega
  · intro hnone
    rw [hsplit.allClassic (by simpa using hnone)]
    rfl
  · intro _
    obtain ⟨c, tail, rfl⟩ := List.exists_cons_of_ne_nil hne
    exact ⟨c :: tail, List.mem_cons_self, c, tail, rfl, hdigits c List.mem_cons_self⟩
  · intro hnone
    contradiction

theorem SplitSpelling.bracket (hsplit : SplitSpelling pieces words indices numbers) (number : UInt32) :
    SplitSpelling (.bracket (.absolute number) :: pieces) (['%'] :: words)
      (number.toNat :: indices) numbers := by
  obtain ⟨words', hcut, hclean, hsameWords⟩ := hsplit.split
  refine ⟨⟨['%'] :: words', ?_, ?_, ?_⟩, ?_, ?_, ?_, ?_⟩
  · simp only [List.map_cons, TargetPiece.text, glue_cons]
    rw [splitIndices_separated (by decide) rfl, hcut]
  · exact List.forall_mem_cons.mpr ⟨by decide, hclean⟩
  · simp only [List.map_cons, hsameWords]
  · have hlength := hsplit.length_eq
    simp only [List.length_cons, TargetPiece.filterMap_index?_bracket]
    omega
  · intro hnone
    simp at hnone
  · intro hne
    obtain ⟨u, hu, hdigit⟩ := hsplit.numbered hne
    exact ⟨u, List.mem_cons_of_mem _ hu, hdigit⟩
  · intro hnone
    obtain ⟨htext, absolutes, hindex, hindices⟩ := hsplit.plain hnone
    refine ⟨?_, number :: absolutes, ?_, ?_⟩
    · simp only [List.map_cons, TargetPiece.text, htext]
    · simp [hindex]
    · simp [hindices]

end split

theorem Spells.split {pieces : List TargetPiece} {words : List CString} {indices : List Nat}
    (h : Spells pieces words indices) (hwords : ∀ w ∈ words, isNameWord w = true ∨ w = ['%'])
    (hpieces : ∀ w, TargetPiece.word w ∈ pieces → '_' ∉ w)
    (hrange : ∀ n ∈ indices, 1 ≤ n ∧ n ≤ 2147483647) :
    ∃ numbers, SplitSpelling pieces words indices numbers := by
  induction h with
  | nil => exact ⟨[], ⟨[], rfl, by simp, rfl⟩, rfl, fun _ => rfl, by simp, fun _ => ⟨rfl, [], rfl, rfl⟩⟩
  | @member pieces words indices w word hsame hword hrest ih =>
      obtain ⟨numbers, hsplit⟩ := ih (fun u hu => hwords u (List.mem_cons_of_mem _ hu))
        (fun u hu => hpieces u (List.mem_cons_of_mem _ hu)) hrange
      exact ⟨numbers, hsplit.member (beq_iff_eq.mp hsame)
        ((hwords word List.mem_cons_self).resolve_right hword) (hpieces w List.mem_cons_self)⟩
  | @classic pieces words indices digits hne hdigits hrest ih =>
      obtain ⟨numbers, hsplit⟩ := ih (fun u hu => hwords u (List.mem_cons_of_mem _ hu))
        (fun u hu => hpieces u (List.mem_cons_of_mem _ hu))
        (fun n hn => hrange n (List.mem_cons_of_mem _ hn))
      obtain ⟨hmin, hmax⟩ := hrange _ List.mem_cons_self
      exact ⟨_, hsplit.classic hne hdigits hmin hmax⟩
  | @bracket pieces words indices number hrest ih =>
      obtain ⟨numbers, hsplit⟩ := ih (fun u hu => hwords u (List.mem_cons_of_mem _ hu))
        (fun u hu => hpieces u (List.mem_cons_of_mem _ hu))
        (fun n hn => hrange n (List.mem_cons_of_mem _ hn))
      exact ⟨numbers, hsplit.bracket number⟩

/-! ### The way down to an assignment -/

/-- If the index of a number has been resolved, then to that number. -/
def VarassEvalIndex.Consistent (e : VarassEvalIndex) : Prop :=
  ∀ number, e.index = .absolute number → e.absIndex = none ∨ e.absIndex = some (number - 1)

/-- The indices are the same as before, apart from what they have been resolved to. -/
def SameBrackets (indices indices' : List VarassEvalIndex) : Prop :=
  indices'.map VarassEvalIndex.index = indices.map VarassEvalIndex.index ∧
    ∀ e ∈ indices', e.Consistent

/-- The assignment has been read from a text. -/
inductive Varass.FromText : Bool → Varass → Prop
  | mk {nested : Bool} {target : VarassTarget} {value : Option CString} {priority : Priority}
      {nestedAssignments : List Varass} (text : CString)
      (htarget : parseTarget nested (scanTarget .none text) = some target)
      (hnested : ∀ ass ∈ nestedAssignments, Varass.FromText true ass) :
      FromText nested (.mk target value priority nestedAssignments)

/-- Name and indices are those of the targets, from the outermost block inwards. -/
structure Located (nested : Bool) (targets : List VarassTarget) (name : CString)
    (indices : List VarassEvalIndex) : Prop where
  outermost : nested = false → targets = [] ∧ name = []
  text : nested = true →
    '_' :: name = glue '_' ((targets.flatMap VarassTarget.pieces).map TargetPiece.text)
  index_eq : indices.map VarassEvalIndex.index =
    (targets.flatMap VarassTarget.pieces).filterMap TargetPiece.index?
  consistent : ∀ e ∈ indices, e.Consistent
  onLine : ∀ t ∈ targets, t.OnLine

section descent

theorem map_text_idPieces (id : CString) : (idPieces id).map TargetPiece.text = id.splitOn '_' := by
  simp [idPieces, Function.comp_def, TargetPiece.text]

theorem filterMap_index?_idPieces (id : CString) :
    (idPieces id).filterMap TargetPiece.index? = [] := by
  simp [idPieces, List.filterMap_map, Function.comp_def, TargetPiece.index?]

theorem configProcessTargetPart_indices (t : VarassTarget) (name : CString)
    (indices : List VarassEvalIndex) :
    (configProcessTargetPart t (name, indices)).2 =
      indices ++ (t.pieces.filterMap TargetPiece.index?).map fun index => ⟨index, none⟩ := by
  induction t with
  | topLevel id =>
      cases id with
      | none => simp [configProcessTargetPart, VarassTarget.pieces]
      | some id => simp [configProcessTargetPart, VarassTarget.pieces, filterMap_index?_idPieces]
  | structMember parent member ih =>
      simp [configProcessTargetPart, VarassTarget.pieces, filterMap_index?_idPieces, ih]
  | arrayMember parent index ih =>
      simp [configProcessTargetPart, VarassTarget.pieces, TargetPiece.index?, ih]

theorem configProcessTargetPart_name (t : VarassTarget) (name : CString)
    (indices : List VarassEvalIndex) :
    (t.base = none → (configProcessTargetPart t (name, indices)).1 =
      name ++ glue '_' (t.pieces.map TargetPiece.text)) ∧
    (t.base ≠ none → ∃ text, (configProcessTargetPart t (name, indices)).1 = name ++ text ∧
      '_' :: text = glue '_' (t.pieces.map TargetPiece.text)) := by
  induction t with
  | topLevel id =>
      cases id with
      | none => simp [configProcessTargetPart, VarassTarget.pieces, VarassTarget.base]
      | some id =>
          refine ⟨fun h => (nomatch h), fun _ => ⟨id, rfl, ?_⟩⟩
          rw [VarassTarget.pieces, map_text_idPieces, glue_splitOn]
  | structMember parent member ih =>
      constructor
      · intro hbase
        simp [configProcessTargetPart, VarassTarget.pieces, ih.1 hbase, map_text_idPieces,
          glue_splitOn]
      · intro hbase
        obtain ⟨text, hname, htext⟩ := ih.2 hbase
        refine ⟨text ++ '_' :: member, by simp [configProcessTargetPart, hname], ?_⟩
        simp [VarassTarget.pieces, map_text_idPieces, glue_splitOn, ← htext]
  | arrayMember parent index ih =>
      constructor
      · intro hbase
        simp [configProcessTargetPart, VarassTarget.pieces, ih.1 hbase, TargetPiece.text]
      · intro hbase
        obtain ⟨text, hname, htext⟩ := ih.2 hbase
        refine ⟨text ++ ['_', '%'], by simp [configProcessTargetPart, hname], ?_⟩
        simp [VarassTarget.pieces, TargetPiece.text, ← htext]

theorem Located.enter {indices : List VarassEvalIndex} {target : VarassTarget}
    (h : Located nested targets name indices)
    (htarget : parseTarget nested (scanTarget .none text) = some target) :
    Located true (targets ++ [target]) (configProcessTargetPart target (name, indices)).1
      (configProcessTargetPart target (name, indices)).2 := by
  obtain ⟨hbase, hline⟩ := parseTarget_spec htarget
  obtain ⟨hanonymous, hnamed⟩ := configProcessTargetPart_name target name indices
  refine ⟨fun hfalse => (nomatch hfalse), fun _ => ?_, ?_, ?_, ?_⟩
  · cases nested with
    | true =>
        rw [hanonymous (hbase.mpr rfl), List.flatMap_append, List.map_append, glue_append,
          ← h.text rfl]
        simp
    | false =>
        obtain ⟨rfl, rfl⟩ := h.outermost rfl
        obtain ⟨text, hname, htext⟩ := hnamed fun hnone => nomatch hbase.mp hnone
        rw [hname]
        simpa using htext
  · rw [configProcessTargetPart_indices, List.map_append, h.index_eq, List.flatMap_append,
      List.filterMap_append]
    simp [Function.comp_def]
  · rw [configProcessTargetPart_indices]
    intro e he
    rcases List.mem_append.mp he with he | he
    · exact h.consistent e he
    · obtain ⟨index, -, rfl⟩ := List.mem_map.mp he
      exact fun _ _ => Or.inl rfl
  · intro t ht
    rcases List.mem_append.mp ht with ht | ht
    · exact h.onLine t ht
    · obtain rfl := List.mem_singleton.mp ht
      exact hline

theorem Located.same {indices indices' : List VarassEvalIndex} (h : Located nested targets name indices)
    (hsame : SameBrackets indices indices') : Located nested targets name indices' :=
  ⟨h.outermost, h.text, hsame.1.trans h.index_eq, hsame.2, h.onLine⟩

end descent

/-! ### What happens to the indices -/

theorem VarassEvalIndex.Consistent.resolve_eq {e : VarassEvalIndex} (h : e.Consistent)
    {number : UInt32} (hnumber : e.index = .absolute number) (s : Slots) (var : Var) (v : VarId)
    (done : List UInt32) : e.resolve s var v done = number - 1 := by
  obtain ⟨index, absIndex⟩ := e
  obtain rfl : index = .absolute number := hnumber
  rcases h number rfl with hnone | hsome
  · obtain rfl : absIndex = none := hnone
    rfl
  · obtain rfl : absIndex = some (number - 1) := hsome
    rfl

theorem resolveIndices_spec {indices : List VarassEvalIndex} (h : ∀ e ∈ indices, e.Consistent)
    (s : Slots) (var : Var) (v : VarId) (done : List UInt32) :
    ∃ real, resolveIndices s var v done indices = done ++ real ∧
      SameBrackets indices (markResolved indices real) ∧
      ∀ absolutes : List UInt32, indices.map VarassEvalIndex.index = absolutes.map .absolute →
        real = absolutes.map fun number => number - 1 := by
  induction indices generalizing done with
  | nil =>
      refine ⟨[], by simp [resolveIndices], ⟨rfl, fun _ he => (nomatch he)⟩, ?_⟩
      intro absolutes habsolutes
      obtain rfl : absolutes = [] := by simpa using habsolutes.symm
      rfl
  | cons e indices ih =>
      have he : e.Consistent := h e List.mem_cons_self
      obtain ⟨real, hreal, ⟨hindex, hconsistent⟩, habsolute⟩ :=
        ih (fun e' he' => h e' (List.mem_cons_of_mem _ he')) (done ++ [e.resolve s var v done])
      refine ⟨e.resolve s var v done :: real, by simp [resolveIndices, hreal], ⟨?_, ?_⟩, ?_⟩
      · simpa [markResolved] using hindex
      · intro e' he' number hnumber
        rcases List.mem_cons.mp he' with rfl | he'
        · exact Or.inr (congrArg some (he.resolve_eq hnumber s var v done))
        · exact hconsistent e' he' number hnumber
      · intro absolutes habsolutes
        cases absolutes with
        | nil => simp at habsolutes
        | cons number absolutes =>
            obtain ⟨hnumber, hrest⟩ := List.cons.inj habsolutes
            rw [he.resolve_eq hnumber, habsolute absolutes hrest]
            rfl

namespace ConfigReader

variable {R : ConfigReader} {st st' : ConfigState R.env}

variable {priority : Priority}

theorem configProcessSingleAssignment_sameBrackets {value : CString}
    {indices : List VarassEvalIndex} {r : Bool × List VarassEvalIndex} (h : ∀ e ∈ indices, e.Consistent)
    (hrun : R.configProcessSingleAssignment varName indices value priority st = .ok (r, st')) :
    SameBrackets indices r.2 := by
  obtain ⟨⟨inst, indices'⟩, st₁, hcreate, hset⟩ := bind_ok_iff.mp hrun
  have hsame : SameBrackets indices indices' := by
    obtain ⟨found, st₂, -, hcreate⟩ := bind_ok_iff.mp hcreate
    cases found with
    | none =>
        obtain ⟨inst', st₃, -, hpure⟩ := bind_ok_iff.mp hcreate
        obtain ⟨heq, -⟩ := pure_ok_iff.mp hpure
        obtain ⟨-, rfl⟩ := Prod.mk.inj heq
        exact ⟨rfl, h⟩
    | some v =>
        obtain ⟨st₃, st₄, hget, hcreate⟩ := bind_ok_iff.mp hcreate
        cases hvar : st₃.graph.vars v with
        | none =>
            simp only [hvar] at hcreate
            exact (throw_ok_iff.mp hcreate).elim
        | some var =>
            simp only [hvar] at hcreate
            obtain ⟨heq, -⟩ := pure_ok_iff.mp hcreate
            obtain ⟨-, rfl⟩ := Prod.mk.inj heq
            obtain ⟨real, hreal, hsame, -⟩ := resolveIndices_spec h st₃.slots var v []
            rw [hreal]
            exact hsame
  cases inst with
  | none =>
      obtain ⟨rfl, -⟩ := pure_ok_iff.mp hset
      exact hsame
  | some inst =>
      obtain ⟨ok, st₂, -, hpure⟩ := bind_ok_iff.mp hset
      obtain ⟨rfl, -⟩ := pure_ok_iff.mp hpure
      exact hsame

theorem processOwnValue_sameBrackets {indices : List VarassEvalIndex}
    {value : Option CString} {r : Bool × List VarassEvalIndex} (h : ∀ e ∈ indices, e.Consistent)
    (hrun : R.processOwnValue varName indices priority value st = .ok (r, st')) :
    SameBrackets indices r.2 := by
  cases value with
  | none =>
      obtain ⟨rfl, -⟩ := pure_ok_iff.mp hrun
      exact ⟨rfl, h⟩
  | some value => exact configProcessSingleAssignment_sameBrackets h hrun

theorem sameBrackets_take {outer own indices' : List VarassEvalIndex}
    (h : SameBrackets (outer ++ own) indices') : SameBrackets outer (indices'.take outer.length) := by
  constructor
  · rw [List.map_take, h.1, List.map_append]
    simp
  · intro e he
    exact h.2 e (List.mem_of_mem_take he)

theorem consistent_targetPart {indices : List VarassEvalIndex} (h : ∀ e ∈ indices, e.Consistent)
    (t : VarassTarget) (name : CString) :
    ∀ e ∈ (configProcessTargetPart t (name, indices)).2, e.Consistent := by
  rw [configProcessTargetPart_indices]
  intro e he
  rcases List.mem_append.mp he with he | he
  · exact h e he
  · obtain ⟨index, -, rfl⟩ := List.mem_map.mp he
    exact fun _ _ => Or.inl rfl

mutual

theorem processAssignment_sameBrackets (ass : Varass) {name : CString}
    {indices : List VarassEvalIndex} {r : Bool × List VarassEvalIndex} {st st' : ConfigState R.env}
    (h : ∀ e ∈ indices, e.Consistent)
    (hrun : R.configProcessSingleAssignmentAndNestedAssignments ass name indices st =
      .ok (r, st')) : SameBrackets indices r.2 := by
  match ass with
  | .mk target value priority nested =>
      unfold configProcessSingleAssignmentAndNestedAssignments at hrun
      obtain ⟨own, st₁, hown, hrun⟩ := bind_ok_iff.mp hrun
      obtain ⟨rest, st₂, hnested, hpure⟩ := bind_ok_iff.mp hrun
      obtain ⟨rfl, -⟩ := pure_ok_iff.mp hpure
      have hsame := processOwnValue_sameBrackets (consistent_targetPart h target name) hown
      have hrest := processAssignments_sameBrackets nested hsame.2 hnested
      have htotal : SameBrackets _ rest.2 := ⟨hrest.1.trans hsame.1, hrest.2⟩
      rw [configProcessTargetPart_indices] at htotal
      exact sameBrackets_take htotal

theorem processAssignments_sameBrackets (asses : List Varass) {name : CString}
    {indices : List VarassEvalIndex} {r : Bool × List VarassEvalIndex} {st st' : ConfigState R.env}
    (h : ∀ e ∈ indices, e.Consistent)
    (hrun : R.configProcessNestedAssignments asses name indices st = .ok (r, st')) :
    SameBrackets indices r.2 := by
  match asses with
  | [] =>
      unfold configProcessNestedAssignments at hrun
      obtain ⟨rfl, -⟩ := pure_ok_iff.mp hrun
      exact ⟨rfl, h⟩
  | ass :: rest =>
      unfold configProcessNestedAssignments at hrun
      obtain ⟨first, st₁, hfirst, hrun⟩ := bind_ok_iff.mp hrun
      obtain ⟨others, st₂, hothers, hpure⟩ := bind_ok_iff.mp hrun
      obtain ⟨rfl, -⟩ := pure_ok_iff.mp hpure
      have hsame := processAssignment_sameBrackets ass h hfirst
      have hrest := processAssignments_sameBrackets rest hsame.2 hothers
      exact ⟨hrest.1.trans hsame.1, hrest.2⟩

end

/-! ### The calls for single assignments -/

/-- A call of `config_process_single_assignment`, with the targets of the assignment and of the
blocks around it. -/
structure SingleCall (E : GraphEnv) where
  targets : List VarassTarget
  varName : CString
  indices : List VarassEvalIndex
  value : CString
  priority : Priority
  state : ConfigState E

/-- While the assignments of a block are processed, this call is made. -/
inductive Makes (R : ConfigReader) : List VarassTarget → CString → List VarassEvalIndex →
    ConfigState R.env → List Varass → SingleCall R.env → Prop
  | own {outer : List VarassTarget} {name value : CString} {indices : List VarassEvalIndex}
      {st : ConfigState R.env} {target : VarassTarget} {priority : Priority}
      {nested rest : List Varass} :
      Makes R outer name indices st (.mk target (some value) priority nested :: rest)
        ⟨outer ++ [target], (configProcessTargetPart target (name, indices)).1,
          (configProcessTargetPart target (name, indices)).2, value, priority, st⟩
  | inside {outer : List VarassTarget} {name : CString} {indices : List VarassEvalIndex}
      {st st₁ : ConfigState R.env} {target : VarassTarget} {value : Option CString}
      {priority : Priority} {nested rest : List Varass} {own : Bool × List VarassEvalIndex}
      {call : SingleCall R.env}
      (hown : R.processOwnValue (configProcessTargetPart target (name, indices)).1
        (configProcessTargetPart target (name, indices)).2 priority value st = .ok (own, st₁))
      (hcall : Makes R (outer ++ [target]) (configProcessTargetPart target (name, indices)).1
        own.2 st₁ nested call) :
      Makes R outer name indices st (.mk target value priority nested :: rest) call
  | behind {outer : List VarassTarget} {name : CString} {indices : List VarassEvalIndex}
      {st st₁ : ConfigState R.env} {ass : Varass} {rest : List Varass}
      {first : Bool × List VarassEvalIndex} {call : SingleCall R.env}
      (hfirst : R.configProcessSingleAssignmentAndNestedAssignments ass name indices st =
        .ok (first, st₁))
      (hcall : Makes R outer name first.2 st₁ rest call) :
      Makes R outer name indices st (ass :: rest) call

/-- The call as the program executes it. -/
def SingleCall.run (R : ConfigReader) (call : SingleCall R.env) :
    Except Fault ((Bool × List VarassEvalIndex) × ConfigState R.env) :=
  R.configProcessSingleAssignment call.varName call.indices call.value call.priority call.state

/-- The call comes down to setting the value of the instance. -/
def SingleCall.Addresses (R : ConfigReader) (call : SingleCall R.env) (inst : VarInstance) :
    Prop :=
  ∃ indices, call.run R = (do
    let ok ← R.varInstanceSetValue inst call.value call.priority
    pure (ok, indices) : R.ConfigExec (Bool × List VarassEvalIndex)) call.state

/-- The call fails and changes neither definitions nor slots. -/
def SingleCall.Rejected (R : ConfigReader) (call : SingleCall R.env) : Prop :=
  ∃ indices st', call.run R = .ok ((false, indices), st') ∧ st'.graph = call.state.graph ∧
    st'.slots = call.state.slots

theorem Makes.located {outer : List VarassTarget}
    {indices : List VarassEvalIndex} {asses : List Varass} {call : SingleCall R.env}
    (h : Makes R outer name indices st asses call) (hasses : ∀ ass ∈ asses, ass.FromText nested)
    (hlocated : Located nested outer name indices) :
    Located true call.targets call.varName call.indices := by
  induction h generalizing nested with
  | own =>
      cases hasses _ List.mem_cons_self with
      | mk text htarget hnested => exact hlocated.enter htarget
  | inside hown hcall ih =>
      cases hasses _ List.mem_cons_self with
      | mk text htarget hnested =>
          have hinner := hlocated.enter htarget
          exact ih hnested (hinner.same (processOwnValue_sameBrackets hinner.consistent hown))
  | behind hfirst hcall ih =>
      exact ih (fun ass hass => hasses ass (List.mem_cons_of_mem _ hass))
        (hlocated.same (processAssignment_sameBrackets _ hlocated.consistent hfirst))

theorem located_nil : Located false [] [] [] :=
  ⟨fun _ => ⟨rfl, rfl⟩, fun h => (nomatch h), rfl, fun _ h => (nomatch h), fun _ h => (nomatch h)⟩

theorem varTryGet_found {v : VarId}
    (hv : st.graph.vars v = some var) (hsame : sameName var.name name = true) :
    R.varTryGet name st = .ok (some v, st) := by
  simp only [varTryGet, varTryGet_of_sameName st.reachable hv hsame, if_true]

theorem varTryGet_numbered (h : Numbered name) (hline : '\n' ∉ name) :
    R.varTryGet name st = .ok (none, st) := by
  simp only [varTryGet, varTryGet_of_numbered st.reachable h hline, if_true]

theorem varInstanceSetValue_missing {inst : VarInstance} {value : CString}
    (hv : st.graph.vars inst.var = some var) (hmissing : inst.indices.length < var.level) :
    R.varInstanceSetValue inst value priority st =
      .ok (false, { st with writes := st.writes ++ [⟨inst, value, priority, .failed⟩] }) := by
  have hderef : (R.defs st).deref inst.var st.slots = .ok (var, st.slots) :=
    Defs.deref_ok_iff.mpr ⟨hv, rfl⟩
  have hset : Mkfli4l.varInstanceSetValue (R.defs st) (calls (R.defs st) R.depth) inst
      (some value) (some ⟨false, false⟩) .strong priority st.slots = .ok (.failed, st.slots) := by
    unfold Mkfli4l.varInstanceSetValue
    rw [if_neg (by simp)]
    unfold varInstanceDoSetValue
    rw [bind_of_ok hderef, if_pos hmissing]
    rfl
  simp only [varInstanceSetValue, hset]
  rfl

end ConfigReader

theorem VarassTarget.not_mem_pieces (h : TargetPiece.word w ∈ t.pieces) : '_' ∉ w := by
  have hid : ∀ id : CString, TargetPiece.word w ∈ idPieces id → '_' ∉ w := by
    intro id hw
    obtain ⟨w', hw', heq⟩ := List.mem_map.mp hw
    obtain rfl := TargetPiece.word.inj heq
    exact not_mem_of_mem_splitOn hw'
  induction t with
  | topLevel id =>
      cases id with
      | none => contradiction
      | some id => exact hid id h
  | structMember parent member ih =>
      rcases List.mem_append.mp h with h | h
      · exact ih h
      · exact hid member h
  | arrayMember parent index ih =>
      rcases List.mem_append.mp h with h | h
      · exact ih h
      · simp at h

theorem Spells.onLine {pieces : List TargetPiece} {words : List CString} {indices : List Nat}
    (h : Spells pieces words indices) (hpieces : ∀ w, TargetPiece.word w ∈ pieces → '\n' ∉ w) :
    ∀ word ∈ words, '\n' ∉ word := by
  induction h with
  | nil => exact fun _ h => nomatch h
  | member hsame hword hrest ih =>
      intro u hu
      rcases List.mem_cons.mp hu with rfl | hu
      · exact sameName_not_mem rfl (sameName_symm hsame) (hpieces _ List.mem_cons_self)
      · exact ih (fun w hw => hpieces w (List.mem_cons_of_mem _ hw)) u hu
  | classic hne hdigits hrest ih =>
      intro u hu
      rcases List.mem_cons.mp hu with rfl | hu
      · decide
      · exact ih (fun w hw => hpieces w (List.mem_cons_of_mem _ hw)) u hu
  | bracket hrest ih =>
      intro u hu
      rcases List.mem_cons.mp hu with rfl | hu
      · decide
      · exact ih (fun w hw => hpieces w (List.mem_cons_of_mem _ hw)) u hu

theorem isNameWord_count (h : isNameWord w = true) : w.count '%' = 0 := by
  cases w with
  | nil => rfl
  | cons c rest =>
      simp only [isNameWord, Bool.and_eq_true, List.all_eq_true, Bool.or_eq_true] at h
      rw [List.count_eq_zero]
      intro hmem
      rcases List.mem_cons.mp hmem with rfl | hmem
      · exact absurd h.1 (by decide)
      · exact absurd (h.2 '%' hmem) (by decide)

theorem Spells.length_eq {pieces : List TargetPiece} {words : List CString} {indices : List Nat}
    (h : Spells pieces words indices) (hwords : ∀ w ∈ words, isNameWord w = true ∨ w = ['%']) :
    (glue '_' words).count '%' = indices.length := by
  induction h with
  | nil => rfl
  | member hsame hword hrest ih =>
      have hname := (hwords _ List.mem_cons_self).resolve_right hword
      rw [glue_cons, List.cons_append, List.count_cons, List.count_append, isNameWord_count hname,
        ih fun w hw => hwords w (List.mem_cons_of_mem _ hw)]
      simp
  | classic hne hdigits hrest ih =>
      rw [glue_cons, List.cons_append, List.count_cons, List.count_append,
        ih fun w hw => hwords w (List.mem_cons_of_mem _ hw)]
      simp [Nat.add_comm]
  | bracket hrest ih =>
      rw [glue_cons, List.cons_append, List.count_cons, List.count_append,
        ih fun w hw => hwords w (List.mem_cons_of_mem _ hw)]
      simp [Nat.add_comm]

/-- What is known about a target that is written for an element of a variable. -/
structure WrittenFor (varName : CString) (brackets : List VarassIndex) (var : Var)
    (indices : List Nat) (numbers : List UInt32) : Prop where
  onLine : '\n' ∉ varName
  splitName : sameName var.name (splitIndices false varName).1 = true
  splitNumbers : (splitIndices false varName).2 = numbers
  length_eq : numbers.length + brackets.length = var.level
  allClassic : brackets = [] → numbers = elementIndices indices
  numbered : numbers ≠ [] → Numbered varName
  plain : numbers = [] → sameName var.name varName = true ∧
    ∃ absolutes : List UInt32, brackets = absolutes.map .absolute ∧
      elementIndices indices = absolutes.map fun number => number - 1

/-- A target that is written for an element, cut into its name and its brackets. -/
theorem Located.writtenFor
    {evalIndices : List VarassEvalIndex} (h : Located true targets varName evalIndices)
    {indices : List Nat} (hname : isVarName var.name = true)
    (hlevel : var.level = numPlaceholders var.name) (hrange : ∀ n ∈ indices, 1 ≤ n ∧ n ≤ 2147483647)
    (hspells : Spells (targets.flatMap VarassTarget.pieces) (var.name.splitOn '_') indices) :
    ∃ numbers, WrittenFor varName (evalIndices.map VarassEvalIndex.index) var indices numbers := by
  have htext := h.text rfl
  have hindex := h.index_eq
  have hclean : ∀ w, TargetPiece.word w ∈ targets.flatMap VarassTarget.pieces → '_' ∉ w := by
    intro w hw
    obtain ⟨t, -, hw⟩ := List.mem_flatMap.mp hw
    exact VarassTarget.not_mem_pieces hw
  have hlines : ∀ w, TargetPiece.word w ∈ targets.flatMap VarassTarget.pieces → '\n' ∉ w := by
    intro w hw
    obtain ⟨t, ht, hw⟩ := List.mem_flatMap.mp hw
    exact h.onLine t ht w hw
  generalize targets.flatMap VarassTarget.pieces = pieces at *
  have hvarLine : '\n' ∉ var.name := by
    intro hmem
    have hglue : '\n' ∈ glue '_' (var.name.splitOn '_') := by simp [glue_splitOn, hmem]
    obtain ⟨word, hword, hmem⟩ := List.mem_flatMap.mp hglue
    exact hspells.onLine hlines word hword (by simpa using hmem)
  obtain ⟨first, words, hsplitName, hfirst, hrest⟩ := isVarName_words hname hvarLine
  have hwords : ∀ w ∈ var.name.splitOn '_', isNameWord w = true ∨ w = ['%'] := by
    rw [hsplitName]
    intro w hw
    rcases List.mem_cons.mp hw with rfl | hw
    · exact Or.inl hfirst
    · exact hrest w hw
  have hcount := hspells.length_eq hwords
  rw [glue_splitOn] at hcount
  obtain ⟨numbers, hsplit⟩ := hspells.split hwords hclean hrange
  have htexts : ∀ u ∈ pieces.map TargetPiece.text, '_' ∉ u ∧ '\n' ∉ u := by
    intro u hu
    obtain ⟨piece, hpiece, rfl⟩ := List.mem_map.mp hu
    cases piece with
    | word w => exact ⟨hclean w hpiece, hlines w hpiece⟩
    | bracket index => simp [TargetPiece.text]
  have hnameWords : varName.splitOn '_' = pieces.map TargetPiece.text :=
    splitOn_of_glue htext fun u hu => (htexts u hu).1
  -- a name that begins with a letter is split like one behind a separator
  have hstart : startsWithDigit varName = false := by
    rw [hsplitName] at hspells
    cases hspells with
    | @member pieces _ _ w _ hsame hword hrest =>
        obtain ⟨c, tail, rfl, hc, -⟩ := isNameWord_cons hfirst
        obtain ⟨d, tail', rfl, hd, -⟩ := List.map_eq_cons_iff.mp (beq_iff_eq.mp hsame)
        have hvar : varName = d :: (tail' ++ glue '_' (pieces.map TargetPiece.text)) := by
          simpa [TargetPiece.text] using htext
        rw [hvar, startsWithDigit, Bool.eq_false_iff]
        intro hdigit
        have hdd : d.toLower = d := (toLower_eq_iff (isDigit_isAlpha hdigit)).mpr rfl
        rw [hdd, eq_comm, toLower_eq_iff (isDigit_isAlpha hdigit)] at hd
        rw [hd, hdigit] at hc
        contradiction
    | classic hne hdigits hrest => exact absurd hfirst (by decide)
    | bracket hrest => exact absurd hfirst (by decide)
  obtain ⟨words', hcut, hclean', hsame⟩ := hsplit.split
  have hcons : splitIndices false ('_' :: varName) =
      ('_' :: (splitIndices false varName).1, (splitIndices false varName).2) := by
    rw [splitIndices, if_neg (by simp), if_neg (by simp [hstart])]
  rw [← htext, hcons] at hcut
  obtain ⟨hcutName, hcutNumbers⟩ := Prod.mk.inj hcut
  refine ⟨numbers, ?_, ?_, hcutNumbers, ?_, ?_, ?_, ?_⟩
  · intro hmem
    have hglue : '\n' ∈ glue '_' (varName.splitOn '_') := by simp [glue_splitOn, hmem]
    rw [hnameWords] at hglue
    obtain ⟨u, hu, hmem⟩ := List.mem_flatMap.mp hglue
    exact (htexts u hu).2 (by simpa using hmem)
  · rw [sameName_iff_words, splitOn_of_glue hcutName hclean', hsame]
  · rw [hlevel, hindex, hsplit.length_eq, ← hcount]
    simp [numPlaceholders]
  · intro hnone
    exact hsplit.allClassic (hindex ▸ hnone)
  · intro hne
    rw [Numbered, hnameWords]
    exact hsplit.numbered hne
  · intro hnone
    obtain ⟨hplain, absolutes, habsolutes, hindices⟩ := hsplit.plain hnone
    refine ⟨?_, absolutes, hindex.trans habsolutes, ?_⟩
    · rw [sameName_iff_words, hnameWords, hplain]
    · subst hindices
      rw [elementIndices, List.map_map]
      refine List.map_congr_left fun number hnumber => ?_
      exact (sub_one_eq_ofNat (hrange _ (List.mem_map_of_mem hnumber)).1).symm

/-- Whatever notation is used for an element of an array, and however it is spread over blocks:
when the assignment is processed, the reader sets the value of exactly that element, or it rejects
the assignment and changes nothing. -/
theorem assignment_addresses_element_or_fails {R : ConfigReader} {st : ConfigState R.env}
    {tree : VarassParseTree} {call : ConfigReader.SingleCall R.env} {v : VarId} {var : Var}
    {indices : List Nat} (htree : ∀ ass ∈ tree.assignments, ass.FromText false)
    (hcall : ConfigReader.Makes R [] [] [] st tree.assignments call)
    (hvar : call.state.graph.vars v = some var)
    (hrange : ∀ n ∈ indices, 1 ≤ n ∧ n ≤ 2147483647)
    (hspells : Spells (call.targets.flatMap VarassTarget.pieces) (var.name.splitOn '_') indices) :
    call.Addresses R ⟨v, elementIndices indices⟩ ∨ call.Rejected R := by
  have hlocated := hcall.located htree ConfigReader.located_nil
  have hname := call.state.reachable.wellNamed v var hvar
  have hlevel := (call.state.reachable.valid (Graph.Valid.empty R.env)).level_eq v var hvar
  obtain ⟨numbers, hwritten⟩ := hlocated.writtenFor hname hlevel hrange hspells
  by_cases hnumbers : numbers = []
  · -- all indices stand in brackets
    obtain ⟨hsame, absolutes, habsolutes, helement⟩ := hwritten.plain hnumbers
    obtain ⟨real, hreal, -, hall⟩ :=
      resolveIndices_spec hlocated.consistent call.state.slots var v []
    rw [List.nil_append, hall absolutes habsolutes, ← helement] at hreal
    left
    refine ⟨markResolved call.indices (elementIndices indices), ?_⟩
    unfold ConfigReader.SingleCall.run ConfigReader.configProcessSingleAssignment
      ConfigReader.configCreateVarInstance
    rw [bind_assoc, bind_of_ok (ConfigReader.varTryGet_found hvar hsame), bind_assoc,
      bind_of_ok (get_ok_iff.mpr ⟨rfl, rfl⟩)]
    simp only [hvar, hreal, pure_bind]
  · -- the numbers in the name are all that is left
    have hmiss : R.varTryGet call.varName call.state = .ok (none, call.state) :=
      ConfigReader.varTryGet_numbered (hwritten.numbered hnumbers) hwritten.onLine
    have hfound := ConfigReader.varTryGet_found (R := R) hvar hwritten.splitName
    have hrun : call.run R = (do
        let ok ← R.varInstanceSetValue ⟨v, numbers⟩ call.value call.priority
        pure (ok, call.indices) : R.ConfigExec (Bool × List VarassEvalIndex)) call.state := by
      unfold ConfigReader.SingleCall.run ConfigReader.configProcessSingleAssignment
        ConfigReader.configCreateVarInstance ConfigReader.varInstanceCreateFromString
      rw [bind_assoc, bind_of_ok hmiss, bind_assoc, bind_assoc, bind_of_ok hmiss,
        bind_assoc, bind_of_ok hfound]
      simp only [hwritten.splitNumbers, Option.map_some, pure_bind]
    by_cases hbrackets : call.indices.map VarassEvalIndex.index = []
    · left
      exact ⟨call.indices, hwritten.allClassic hbrackets ▸ hrun⟩
    · right
      have hlength := hwritten.length_eq
      have hpos := List.length_pos_iff.mpr hbrackets
      have hmissing : numbers.length < var.level := by omega
      let write : ElementWrite := ⟨⟨v, numbers⟩, call.value, call.priority, .failed⟩
      have hfails : R.varInstanceSetValue ⟨v, numbers⟩ call.value call.priority call.state =
          .ok (false, { call.state with writes := call.state.writes ++ [write] }) :=
        ConfigReader.varInstanceSetValue_missing hvar hmissing
      refine ⟨call.indices, { call.state with writes := call.state.writes ++ [write] }, ?_, rfl, rfl⟩
      rw [hrun, bind_of_ok hfails]
      rfl

/-- A reader for variables that are always enabled. -/
def sampleReader : ConfigReader where
  env := sampleEnv
  types := sampleTypes
  types_bound := rfl
  expressions := fun _ _ => ⟨fun _ => .literal (.boolean true), fun _ => none, none⟩
  depth := 20

/-- The store after a variable has been defined. -/
def definedState (name : CString) : ConfigState sampleEnv where
  graph := (varAddWithArrayBound sampleEnv (sampleSpec name false false) none Graph.empty).2
  reachable := Relation.ReflTransGen.single ⟨.add (sampleSpec name false false) none, rfl⟩
  slots := Slots.init
  writes := []

/-- The target `X[1]`. -/
def targetX1 : VarassTarget := .arrayMember (.topLevel (some ['X'])) (.absolute 1)

/-- The target `Y[2]` inside a block. -/
def targetY2 : VarassTarget :=
  .arrayMember (.structMember (.topLevel none) ['Y']) (.absolute 2)

/-- The call for `Y[2]='a'` in the block `X[1]`. -/
def callX1Y2 : ConfigReader.SingleCall sampleEnv where
  targets := [targetX1, targetY2]
  varName := "X_%_Y_%".toList
  indices := [⟨.absolute 1, none⟩, ⟨.absolute 2, none⟩]
  value := ['a']
  priority := .configuration
  state := definedState "X_%_Y_%".toList

/-- With `X_%_Y_%` (variable 2) defined, the assignment `Y[2]='a'` in the block `X[1]` is about
the element `X_1_Y_2`. -/
theorem assignment_addresses_element_or_fails_X_1_Y_2 :
    callX1Y2.Addresses sampleReader ⟨2, [0, 1]⟩ ∨ callX1Y2.Rejected sampleReader := by
  have hname : ((definedState "X_%_Y_%".toList).graph.vars 2).map Var.name =
      some "X_%_Y_%".toList := by decide
  obtain ⟨var, hvar, hvarName⟩ := Option.map_eq_some_iff.mp hname
  let ass : Varass := .mk targetY2 (some ['a']) .configuration []
  let tree : VarassParseTree := ⟨[.mk targetX1 none .configuration [ass]], true⟩
  have htree : ∀ ass ∈ tree.assignments, ass.FromText false := by
    intro block hblock
    obtain rfl := List.mem_singleton.mp hblock
    refine Varass.FromText.mk "X[1]".toList (by decide) fun inner hinner => ?_
    obtain rfl := List.mem_singleton.mp hinner
    exact Varass.FromText.mk "Y[2]".toList (by decide) fun _ h => nomatch h
  have hcall : ConfigReader.Makes sampleReader [] [] [] (definedState "X_%_Y_%".toList)
      tree.assignments callX1Y2 :=
    ConfigReader.Makes.inside rfl ConfigReader.Makes.own
  have hspells : Spells (callX1Y2.targets.flatMap VarassTarget.pieces) (var.name.splitOn '_')
      [1, 2] := by
    rw [hvarName]
    exact Spells.member (w := ['X']) (by decide) (by decide) (Spells.bracket
      (Spells.member (w := ['Y']) (by decide) (by decide) (Spells.bracket Spells.nil)))
  have hrange : ∀ n ∈ [1, 2], 1 ≤ n ∧ n ≤ 2147483647 := by
    simp
  have helement : elementIndices [1, 2] = [0, 1] := rfl
  rw [← helement]
  exact assignment_addresses_element_or_fails htree hcall hvar hrange hspells

end Mkfli4l
