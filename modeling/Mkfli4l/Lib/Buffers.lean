import Mkfli4l.Lib.LineReading

/-!
# Buffers of fixed size

Text that is built in an array of characters: every store says where it begins, and there is no result if
it does not end inside the array.  A string goes up to the first NUL character.
-/

namespace Mkfli4l
namespace Lib

/-- An array of `n` characters. -/
structure Buffer (n : ℕ) where
  chars : List Char
  length_chars : chars.length = n

namespace Buffer

variable {n pos : ℕ} {buf buf' : Buffer n} {s more : CString}

/-- Characters are stored from a position on. -/
def store (buf : Buffer n) (pos : ℕ) (s : CString) : Option (Buffer n) :=
  if h : pos + s.length ≤ n then
    some ⟨buf.chars.take pos ++ s ++ buf.chars.drop (pos + s.length), by
      rw [List.length_append, List.length_append, List.length_take, List.length_drop, buf.length_chars]
      omega⟩
  else none

/-- `memmove` to the beginning of the array. -/
def moveFront (buf : Buffer n) (src len : ℕ) : Option (Buffer n) :=
  if h : src + len ≤ n then
    some ⟨(buf.chars.drop src).take len ++ buf.chars.drop len, by
      rw [List.length_append, List.length_take, List.length_drop, List.length_drop, buf.length_chars]
      omega⟩
  else none

/-- The string at the beginning of the array. -/
def text (buf : Buffer n) : CString := bufferText buf.chars

theorem store_isSome (buf : Buffer n) (pos : ℕ) (s : CString) (h : pos + s.length ≤ n) :
    ∃ buf', buf.store pos s = some buf' := by
  unfold store
  rw [dif_pos h]
  exact ⟨_, rfl⟩

theorem store_eq_none (h : n < pos + s.length) : buf.store pos s = none := dif_neg (Nat.not_le_of_lt h)

theorem le_of_store (h : buf.store pos s = some buf') : pos + s.length ≤ n := by
  by_contra hle
  rw [store_eq_none (Nat.lt_of_not_le hle)] at h
  exact nomatch h

theorem chars_store (h : buf.store pos s = some buf') :
    buf'.chars = buf.chars.take pos ++ s ++ buf.chars.drop (pos + s.length) := by
  have hle := le_of_store h
  unfold store at h
  rw [dif_pos hle] at h
  obtain rfl := Option.some.inj h
  rfl

theorem take_store (h : buf.store pos s = some buf') :
    buf'.chars.take (pos + s.length) = buf.chars.take pos ++ s := by
  have hle := le_of_store h
  have hlength : (buf.chars.take pos ++ s).length = pos + s.length := by
    rw [List.length_append, List.length_take, buf.length_chars]
    omega
  rw [chars_store h, List.take_append_of_le_length hlength.ge, List.take_of_length_le hlength.le]

theorem store_bind_store (buf : Buffer n) (pos : ℕ) (s more : CString) :
    ((buf.store pos s).bind fun buf => buf.store (pos + s.length) more) = buf.store pos (s ++ more) := by
  have hlength : (s ++ more).length = s.length + more.length := List.length_append
  by_cases hall : pos + (s ++ more).length ≤ n
  · obtain ⟨buf', hfirst⟩ := store_isSome buf pos s (by omega)
    have hchars := chars_store hfirst
    have htake := take_store hfirst
    have hdrop : buf'.chars.drop (pos + s.length + more.length) = buf.chars.drop (pos + (s ++ more).length) := by
      have hfront : (buf.chars.take pos ++ s).length = pos + s.length := by
        rw [List.length_append, List.length_take, buf.length_chars]
        omega
      rw [hchars, ← List.drop_drop, ← hfront, List.drop_left, List.drop_drop, hfront, hlength, Nat.add_assoc]
    rw [hfirst, Option.bind_some]
    unfold store
    rw [dif_pos (by omega), dif_pos hall]
    refine congrArg some ?_
    rw [mk.injEq, htake, hdrop, List.append_assoc, List.append_assoc, List.append_assoc, List.append_assoc]
  · rw [store_eq_none (Nat.lt_of_not_le hall)]
    cases hfirst : buf.store pos s with
    | none => rfl
    | some buf' => exact store_eq_none (by omega)

theorem take_store_append (h : buf.store pos (s ++ more) = some buf') :
    buf'.chars.take (pos + s.length) = buf.chars.take pos ++ s := by
  have htake := congrArg (List.take (pos + s.length)) (take_store h)
  have hle := le_of_store h
  rw [List.length_append] at htake hle
  have hlength : (buf.chars.take pos ++ s).length = pos + s.length := by
    rw [List.length_append, List.length_take, buf.length_chars]
    omega
  rw [List.take_take, Nat.min_eq_left (by omega), ← List.append_assoc, ← hlength, List.take_left] at htake
  rw [← hlength]
  exact htake

theorem text_of_prefix {rest : List Char} (hchars : buf.chars = s ++ '\x00' :: rest) (hnoNul : '\x00' ∉ s) :
    buf.text = s := by
  unfold text bufferText
  rw [hchars, List.takeWhile_append_of_pos, List.takeWhile_cons, if_neg (by decide), List.append_nil]
  intro c hc
  have hne : c ≠ '\x00' := fun heq => hnoNul (heq ▸ hc)
  exact decide_eq_true hne

theorem text_store (h : buf.store pos (s ++ ['\x00']) = some buf') (hfront : '\x00' ∉ buf.chars.take pos)
    (hs : '\x00' ∉ s) : buf'.text = buf.chars.take pos ++ s := by
  have hsplit := (List.take_append_drop (pos + (s ++ ['\x00']).length) buf'.chars).symm
  rw [take_store h, List.append_assoc, List.append_assoc, List.singleton_append, ← List.append_assoc] at hsplit
  exact text_of_prefix hsplit fun hmem => (List.mem_append.mp hmem).elim hfront hs

theorem text_of_terminated (h : buf.store pos ['\x00'] = some buf') (hfront : '\x00' ∉ buf.chars.take pos) :
    buf'.text = buf.chars.take pos :=
  (text_store (s := []) h hfront List.not_mem_nil).trans (List.append_nil _)

theorem noNul_text (buf : Buffer n) : '\x00' ∉ buf.text := by
  intro hmem
  exact absurd (List.mem_takeWhile_imp hmem) (by decide)

theorem chars_eq (h : '\x00' ∈ buf.chars) : ∃ rest, buf.chars = buf.text ++ '\x00' :: rest := by
  have happend := (List.takeWhile_append_dropWhile (p := (· ≠ '\x00')) (l := buf.chars)).symm
  cases hrest : buf.chars.dropWhile (· ≠ '\x00') with
  | nil =>
      rw [List.dropWhile_eq_nil_iff] at hrest
      exact absurd (hrest _ h) (by decide)
  | cons c rest =>
      have hc : c = '\x00' := by
        have hhead := List.head?_dropWhile_not (· ≠ '\x00') buf.chars
        rw [hrest] at hhead
        simpa using hhead
      refine ⟨rest, ?_⟩
      rw [hrest, hc] at happend
      exact happend

theorem take_text (buf : Buffer n) : buf.chars.take buf.text.length = buf.text :=
  (List.prefix_iff_eq_take.mp (List.takeWhile_prefix _)).symm

theorem take_of_le_text (h : pos ≤ buf.text.length) : buf.chars.take pos = buf.text.take pos := by
  rw [← take_text, List.take_take, Nat.min_eq_left h]

/-! ### Strings in a buffer -/

/-- `strcpy`, and `sprintf` with its text. -/
def strcpy (buf : Buffer n) (s : CString) : Option (Buffer n) := buf.store 0 (s ++ ['\x00'])

/-- `strcat`, and `sprintf` behind the string. -/
def strcat (buf : Buffer n) (s : CString) : Option (Buffer n) := buf.store buf.text.length (s ++ ['\x00'])

/-- The string ends at a position. -/
def cut (buf : Buffer n) (pos : ℕ) : Option (Buffer n) := buf.store pos ['\x00']

/-- A text in an array with room for `n` characters, and for the NUL behind it. -/
def within (n : ℕ) : CString → Option CString := Option.guard fun s => s.length < n

theorem within_of_lt (h : s.length < n) : within n s = some s := if_pos (decide_eq_true h)

theorem within_of_not_lt (h : ¬ s.length < n) : within n s = none := if_neg (by simpa using h)

theorem within_eq_some {t : CString} : within n s = some t ↔ s = t ∧ s.length < n := by
  unfold within
  rw [Option.guard_eq_some_iff, decide_eq_true_iff]

theorem map_text_store (buf : Buffer n) (hpos : pos ≤ buf.text.length) (hs : '\x00' ∉ s) :
    (buf.store pos (s ++ ['\x00'])).map text = within n (buf.text.take pos ++ s) := by
  have hlength : (buf.text.take pos ++ s).length = pos + s.length := by
    rw [List.length_append, List.length_take_of_le hpos]
  by_cases hlt : pos + s.length < n
  · obtain ⟨buf', hstore⟩ := store_isSome buf pos (s ++ ['\x00']) (by
      rw [List.length_append, List.length_singleton]
      omega)
    have hfront : '\x00' ∉ buf.chars.take pos := by
      rw [take_of_le_text hpos]
      exact fun hmem => noNul_text buf (List.mem_of_mem_take hmem)
    rw [hstore, Option.map_some, text_store hstore hfront hs, take_of_le_text hpos, within_of_lt (by omega)]
  · rw [within_of_not_lt (by omega), store_eq_none, Option.map_none]
    rw [List.length_append, List.length_singleton]
    omega

theorem map_text_strcpy (buf : Buffer n) (hs : '\x00' ∉ s) : (buf.strcpy s).map text = within n s := by
  have hstore := map_text_store buf (Nat.zero_le _) hs
  rw [List.take_zero, List.nil_append] at hstore
  exact hstore

theorem text_of_piece {piece : CString} (h : buf.store 0 (piece ++ ['\x00']) = some buf') :
    buf'.text = bufferText piece := by
  unfold text bufferText
  rw [chars_store h, List.take_zero, List.nil_append, List.append_assoc, List.takeWhile_append]
  split
  · next hlength =>
      have hself : piece.takeWhile (· ≠ '\x00') = piece := (List.takeWhile_prefix _).eq_of_length hlength
      rw [hself]
      simp
  · rfl

/-- A step makes another string of the one in the buffer, or it leaves the array. -/
structure Takes (step : Buffer n → Option (Buffer n)) (t : CString) (result : Option CString) : Prop where
  map_text : ∀ buf, buf.text = t → (step buf).map text = result
  length_lt : ∀ s, result = some s → s.length < n

variable {step step' : Buffer n → Option (Buffer n)} {t : CString} {result : Option CString}

theorem Takes.done (h : Takes step t (some s)) (hbuf : buf.text = t) :
    ∃ buf', step buf = some buf' ∧ buf'.text = s :=
  Option.map_eq_some_iff.mp (h.map_text buf hbuf)

theorem Takes.fault (h : Takes step t none) (hbuf : buf.text = t) : step buf = none :=
  Option.map_eq_none_iff.mp (h.map_text buf hbuf)

theorem Takes.congr (h : Takes step t result) (hsame : ∀ buf, buf.text = t → step' buf = step buf) :
    Takes step' t result where
  map_text buf hbuf := by
    rw [hsame buf hbuf]
    exact h.map_text buf hbuf
  length_lt := h.length_lt

theorem Takes.bind {g : CString → Option CString} (h : Takes step t result)
    (h' : ∀ s, result = some s → Takes step' s (g s)) :
    Takes (fun buf => step buf >>= step') t (result.bind g) := by
  cases result with
  | none =>
      refine ⟨fun buf hbuf => ?_, fun s hs => nomatch hs⟩
      rw [h.fault hbuf]
      rfl
  | some s =>
      refine ⟨fun buf hbuf => ?_, (h' s rfl).length_lt⟩
      obtain ⟨buf', hstep, htext⟩ := h.done hbuf
      rw [hstep]
      exact (h' s rfl).map_text buf' htext

theorem takes_some (ht : t.length < n) : Takes (n := n) some t (some t) where
  map_text _ hbuf := congrArg some hbuf
  length_lt _ hs := Option.some.inj hs ▸ ht

theorem takes_cut (ht : t.length < n) (hpos : pos ≤ t.length) :
    Takes (n := n) (·.cut pos) t (some (t.take pos)) := by
  have hlt := Nat.lt_of_le_of_lt (List.length_take_le' pos t) ht
  refine ⟨fun buf hbuf => ?_, fun s hs => Option.some.inj hs ▸ hlt⟩
  subst hbuf
  have hstore := map_text_store buf hpos (s := []) List.not_mem_nil
  rw [List.append_nil, within_of_lt hlt] at hstore
  exact hstore

theorem takes_strcat (hs : '\x00' ∉ s) (t : CString) : Takes (n := n) (·.strcat s) t (within n (t ++ s)) := by
  refine ⟨fun buf hbuf => ?_, fun s' hs' => ?_⟩
  · subst hbuf
    have hstore := map_text_store buf Nat.le.refl hs
    rw [List.take_length] at hstore
    exact hstore
  · obtain ⟨rfl, hlt⟩ := within_eq_some.mp hs'
    exact hlt

theorem takes_strcpy (hs : '\x00' ∉ s) (t : CString) : Takes (n := n) (·.strcpy s) t (within n s) := by
  refine ⟨fun buf _ => map_text_strcpy buf hs, fun s' hs' => ?_⟩
  obtain ⟨rfl, hlt⟩ := within_eq_some.mp hs'
  exact hlt

/-- A step puts a text behind the string. -/
def Appends (step : Buffer n → Option (Buffer n)) (s : CString) : Prop :=
  ∀ t : CString, t.length < n → Takes step t (within n (t ++ s))

theorem appends_strcat (hs : '\x00' ∉ s) : Appends (n := n) (·.strcat s) s := fun t _ => takes_strcat hs t

theorem appends_nil : Appends (n := n) some [] := by
  intro t ht
  rw [List.append_nil, within_of_lt ht]
  exact takes_some ht

theorem Takes.append {s' : CString} (h : Takes step t (within n s)) (h' : Appends step' s') :
    Takes (fun buf => step buf >>= step') t (within n (s ++ s')) := by
  have hsteps := h.bind fun s₁ hs₁ => h' s₁ (h.length_lt s₁ hs₁)
  by_cases hlt : s.length < n
  · rw [within_of_lt hlt] at hsteps
    exact hsteps
  · rw [within_of_not_lt hlt] at hsteps
    rw [within_of_not_lt]
    · exact hsteps
    · rw [List.length_append]
      omega

theorem Appends.bind {s' : CString} (h : Appends step s) (h' : Appends step' s') :
    Appends (fun buf => step buf >>= step') (s ++ s') := by
  intro t ht
  rw [← List.append_assoc]
  exact (h t ht).append h'

end Buffer

end Lib
end Mkfli4l
