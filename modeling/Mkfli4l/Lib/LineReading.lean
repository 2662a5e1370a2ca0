import Mkfli4l.Lib.CNumber

/-!
# Reading a file through a buffer

`fgets` stores no more characters than its buffer has room for, and none behind a line end.  A line that
is too long is read in several pieces, and what reads it cannot tell them from lines.
-/

namespace Mkfli4l
namespace Lib

/-- The characters that `fgets` stores: no more than `n`, and none behind a line end. -/
def fgetsPiece : ℕ → CString → CString × CString
  | 0, input => ([], input)
  | _ + 1, [] => ([], [])
  | n + 1, c :: input =>
      if c = '\n' then ([c], input)
      else (c :: (fgetsPiece n input).1, (fgetsPiece n input).2)

/-- The string in the buffer. -/
def bufferText (piece : CString) : CString := piece.takeWhile (· ≠ '\x00')

variable {piece line file : CString} {n : ℕ}

theorem bufferText_eq (h : '\x00' ∉ piece) : bufferText piece = piece := by
  unfold bufferText
  rw [List.takeWhile_eq_self_iff]
  intro c hc
  have hne : c ≠ '\x00' := fun heq => h (heq ▸ hc)
  exact decide_eq_true hne

theorem fgetsPiece_append (n : ℕ) (input : CString) :
    (fgetsPiece n input).1 ++ (fgetsPiece n input).2 = input := by
  induction n generalizing input with
  | zero => rfl
  | succ n ih =>
      cases input with
      | nil => rfl
      | cons c input =>
          rw [fgetsPiece]
          split
          · rfl
          · rw [List.cons_append, ih]

theorem fgetsPiece_line (hnoLf : '\n' ∉ line) (hlt : line.length < n) (rest : CString) :
    fgetsPiece n (line ++ '\n' :: rest) = (line ++ ['\n'], rest) := by
  induction line generalizing n with
  | nil =>
      obtain ⟨n, rfl⟩ : ∃ m, n = m + 1 := ⟨n - 1, by omega⟩
      rfl
  | cons c line ih =>
      obtain ⟨n, rfl⟩ : ∃ m, n = m + 1 := ⟨n - 1, by omega⟩
      rw [List.length_cons] at hlt
      have hne : c ≠ '\n' := fun heq => hnoLf (heq ▸ List.mem_cons_self)
      rw [List.cons_append, fgetsPiece, if_neg hne,
        ih (fun hmem => hnoLf (List.mem_cons_of_mem c hmem)) (by omega)]
      rfl

theorem fgetsPiece_full (hnoLf : '\n' ∉ line) (rest : CString) :
    fgetsPiece line.length (line ++ rest) = (line, rest) := by
  induction line with
  | nil => rfl
  | cons c line ih =>
      have hne : c ≠ '\n' := fun heq => hnoLf (heq ▸ List.mem_cons_self)
      rw [List.cons_append, List.length_cons, fgetsPiece, if_neg hne,
        ih (fun hmem => hnoLf (List.mem_cons_of_mem c hmem))]

theorem fgetsPiece_end (hnoLf : '\n' ∉ line) (hle : line.length ≤ n) :
    fgetsPiece n line = (line, []) := by
  induction line generalizing n with
  | nil =>
      cases n with
      | zero => rfl
      | succ n => rfl
  | cons c line ih =>
      rw [List.length_cons] at hle
      obtain ⟨n, rfl⟩ : ∃ m, n = m + 1 := ⟨n - 1, by omega⟩
      have hne : c ≠ '\n' := fun heq => hnoLf (heq ▸ List.mem_cons_self)
      rw [fgetsPiece, if_neg hne, ih (fun hmem => hnoLf (List.mem_cons_of_mem c hmem)) (by omega)]

theorem fgetsPiece_lt (hn : 0 < n) {input : CString} (hinput : input ≠ []) :
    (fgetsPiece n input).2.length < input.length := by
  have hlength := congrArg List.length (fgetsPiece_append n input)
  rw [List.length_append] at hlength
  obtain ⟨m, rfl⟩ : ∃ m, n = m + 1 := ⟨n - 1, by omega⟩
  obtain ⟨c, tail, rfl⟩ := List.exists_cons_of_ne_nil hinput
  have hpos : 0 < (fgetsPiece (m + 1) (c :: tail)).1.length := by
    rw [fgetsPiece]
    split
    · exact Nat.one_pos
    · exact Nat.succ_pos _
  omega

/-! ### All pieces of a file -/

/-- The pieces that a loop over `fgets` reads, if it takes no more rounds than the number given here. -/
def fgetsRounds (n : ℕ) : ℕ → CString → List CString
  | 0, _ => []
  | rounds + 1, file =>
      if file = [] then [] else (fgetsPiece n file).1 :: fgetsRounds n rounds (fgetsPiece n file).2

/-- The pieces that a loop over `fgets` reads, with room for `n` characters in the buffer. -/
def fgetsAll (n : ℕ) (file : CString) : List CString := fgetsRounds n file.length file

theorem fgetsRounds_eq (hn : 0 < n) {rounds : ℕ} (h : file.length ≤ rounds) :
    fgetsRounds n rounds file = fgetsAll n file := by
  unfold fgetsAll
  induction rounds using Nat.strong_induction_on generalizing file with
  | _ rounds ih =>
      by_cases hfile : file = []
      · subst hfile
        cases rounds with
        | zero => rfl
        | succ rounds => rfl
      · have hpos := List.length_pos_of_ne_nil hfile
        have hlt := fgetsPiece_lt hn hfile
        obtain ⟨r, rfl⟩ : ∃ r, rounds = r + 1 := ⟨rounds - 1, by omega⟩
        obtain ⟨k, hk⟩ : ∃ k, file.length = k + 1 := ⟨file.length - 1, by omega⟩
        have hrounds := ih r (by omega) (show (fgetsPiece n file).2.length ≤ r by omega)
        have hown := ih k (by omega) (show (fgetsPiece n file).2.length ≤ k by omega)
        rw [hk, fgetsRounds, fgetsRounds, if_neg hfile, if_neg hfile, hrounds, hown]

@[simp] theorem fgetsAll_nil (n : ℕ) : fgetsAll n [] = [] := rfl

theorem fgetsAll_of_ne_nil (hn : 0 < n) (hfile : file ≠ []) :
    fgetsAll n file = (fgetsPiece n file).1 :: fgetsAll n (fgetsPiece n file).2 := by
  have hlt := fgetsPiece_lt hn hfile
  have hpos := List.length_pos_of_ne_nil hfile
  obtain ⟨k, hk⟩ : ∃ k, file.length = k + 1 := ⟨file.length - 1, by omega⟩
  have hrest : fgetsRounds n k (fgetsPiece n file).2 = fgetsAll n (fgetsPiece n file).2 :=
    fgetsRounds_eq hn (by omega)
  rw [← hrest]
  unfold fgetsAll
  rw [hk, fgetsRounds, if_neg hfile]

theorem fgetsAll_line (hnoLf : '\n' ∉ line) (hlt : line.length < n) (rest : CString) :
    fgetsAll n (line ++ '\n' :: rest) = (line ++ ['\n']) :: fgetsAll n rest := by
  rw [fgetsAll_of_ne_nil (by omega) (by simp), fgetsPiece_line hnoLf hlt]

theorem fgetsAll_full (hline : line ≠ []) (hnoLf : '\n' ∉ line) (rest : CString) :
    fgetsAll line.length (line ++ rest) = line :: fgetsAll line.length rest := by
  have hpos := List.length_pos_of_ne_nil hline
  rw [fgetsAll_of_ne_nil hpos (by simp [hline]), fgetsPiece_full hnoLf]

theorem fgetsAll_cut (hn : 0 < n) (hnoLf : '\n' ∉ line) (rest : CString) :
    ∃ more, fgetsAll n (line ++ '\n' :: rest) = (line ++ ['\n']).take n :: (more ++ fgetsAll n rest) ∧
      ∀ piece ∈ more, ∀ c ∈ piece, c ∈ line.drop n ∨ c = '\n' := by
  induction hlen : line.length using Nat.strong_induction_on generalizing line with
  | _ len ih =>
    by_cases hlt : line.length < n
    · refine ⟨[], ?_, by simp⟩
      rw [fgetsAll_line hnoLf hlt, List.take_of_length_le (by rw [List.length_append]; exact hlt)]
      rfl
    · have hfirst : (line.take n).length = n := List.length_take_of_le (by omega)
      have hne : line.take n ≠ [] := List.ne_nil_of_length_pos (by omega)
      have hnoLf₁ : '\n' ∉ line.take n := fun hmem => hnoLf (List.mem_of_mem_take hmem)
      have hnoLf₂ : '\n' ∉ line.drop n := fun hmem => hnoLf (List.mem_of_mem_drop hmem)
      obtain ⟨more, hmore, hchars⟩ := ih (line.drop n).length (by rw [List.length_drop]; omega) hnoLf₂ rfl
      have hfull := fgetsAll_full hne hnoLf₁ (line.drop n ++ '\n' :: rest)
      rw [hfirst, ← List.append_assoc, List.take_append_drop, hmore] at hfull
      refine ⟨(line.drop n ++ ['\n']).take n :: more, ?_, ?_⟩
      · have htake : (line ++ ['\n']).take n = line.take n := List.take_append_of_le_length (by omega)
        rw [hfull, htake, List.cons_append]
      · intro piece hpiece c hc
        rcases List.mem_cons.mp hpiece with rfl | hpiece
        · rcases List.mem_append.mp (List.mem_of_mem_take hc) with hc | hc
          · exact .inl hc
          · exact .inr (List.mem_singleton.mp hc)
        · exact (hchars piece hpiece c hc).imp_left List.mem_of_mem_drop

theorem fgetsAll_last (hn : 0 < n) (hnoLf : '\n' ∉ line) (hline : line ≠ []) :
    ∃ more, fgetsAll n line = line.take n :: more ∧ ∀ piece ∈ more, ∀ c ∈ piece, c ∈ line.drop n := by
  induction hlen : line.length using Nat.strong_induction_on generalizing line with
  | _ len ih =>
    by_cases hle : line.length ≤ n
    · refine ⟨[], ?_, by simp⟩
      rw [fgetsAll_of_ne_nil hn hline, fgetsPiece_end hnoLf hle, fgetsAll_nil, List.take_of_length_le hle]
    · have hfirst : (line.take n).length = n := List.length_take_of_le (by omega)
      have hne : line.take n ≠ [] := List.ne_nil_of_length_pos (by omega)
      have hnoLf₁ : '\n' ∉ line.take n := fun hmem => hnoLf (List.mem_of_mem_take hmem)
      have hnoLf₂ : '\n' ∉ line.drop n := fun hmem => hnoLf (List.mem_of_mem_drop hmem)
      have hrest : line.drop n ≠ [] := List.ne_nil_of_length_pos (by rw [List.length_drop]; omega)
      obtain ⟨more, hmore, hchars⟩ :=
        ih (line.drop n).length (by rw [List.length_drop]; omega) hnoLf₂ hrest rfl
      have hfull := fgetsAll_full hne hnoLf₁ (line.drop n)
      rw [hfirst, List.take_append_drop, hmore] at hfull
      refine ⟨(line.drop n).take n :: more, hfull, ?_⟩
      intro piece hpiece c hc
      rcases List.mem_cons.mp hpiece with rfl | hpiece
      · exact List.mem_of_mem_take hc
      · exact List.mem_of_mem_drop (hchars piece hpiece c hc)

theorem fgetsPiece_of_le {m : ℕ} (hle : m ≤ n) {input : CString} (hpiece : (fgetsPiece n input).1.length ≤ m) :
    fgetsPiece m input = fgetsPiece n input := by
  induction m generalizing n input with
  | zero =>
      cases n with
      | zero => rfl
      | succ n =>
          cases input with
          | nil => rfl
          | cons c input =>
              rw [fgetsPiece] at hpiece
              split at hpiece
              · exact absurd hpiece (by simp)
              · exact absurd hpiece (by simp)
  | succ m ih =>
      obtain ⟨n, rfl⟩ : ∃ k, n = k + 1 := ⟨n - 1, by omega⟩
      cases input with
      | nil => rfl
      | cons c input =>
          rw [fgetsPiece] at hpiece
          rw [fgetsPiece, fgetsPiece]
          by_cases hc : c = '\n'
          · rw [if_pos hc, if_pos hc]
          · rw [if_neg hc, List.length_cons] at hpiece
            rw [if_neg hc, if_neg hc, ih (Nat.le_of_succ_le_succ hle) (Nat.le_of_succ_le_succ hpiece)]

theorem infix_of_mem_fgetsAll (hn : 0 < n) (h : piece ∈ fgetsAll n file) : piece <:+: file := by
  induction hlen : file.length using Nat.strong_induction_on generalizing file with
  | _ len ih =>
    by_cases hfile : file = []
    · rw [hfile] at h
      exact nomatch h
    · have hlt := fgetsPiece_lt hn hfile
      have happend := fgetsPiece_append n file
      rw [fgetsAll_of_ne_nil hn hfile] at h
      rcases List.mem_cons.mp h with rfl | hrest
      · exact ⟨[], _, happend⟩
      · have hsuffix : (fgetsPiece n file).2 <:+ file := ⟨_, happend⟩
        exact (ih _ (by omega) hrest rfl).trans hsuffix.isInfix

theorem fgetsAll_of_le {m : ℕ} (hm : 0 < m) (hle : m ≤ n)
    (h : ∀ piece ∈ fgetsAll n file, piece.length ≤ m) : fgetsAll m file = fgetsAll n file := by
  induction hlen : file.length using Nat.strong_induction_on generalizing file with
  | _ len ih =>
    by_cases hfile : file = []
    · rw [hfile, fgetsAll_nil, fgetsAll_nil]
    · have hlt := fgetsPiece_lt (show 0 < n by omega) hfile
      rw [fgetsAll_of_ne_nil (by omega) hfile] at h
      obtain ⟨hfirst, hrest⟩ := List.forall_mem_cons.mp h
      rw [fgetsAll_of_ne_nil hm hfile, fgetsAll_of_ne_nil (by omega) hfile, fgetsPiece_of_le hle hfirst,
        ih _ (by omega) hrest rfl]

/-- The lines of a file, with their line ends: a buffer for the whole file cuts none of them. -/
def fileLines (file : CString) : List CString := fgetsAll file.length file

theorem length_fgetsPiece_le (n : ℕ) (input : CString) : (fgetsPiece n input).1.length ≤ n := by
  induction n generalizing input with
  | zero => exact Nat.le.refl
  | succ n ih =>
      cases input with
      | nil => exact Nat.zero_le _
      | cons c input =>
          rw [fgetsPiece]
          split
          · exact Nat.succ_le_succ (Nat.zero_le n)
          · exact Nat.succ_le_succ (ih input)

theorem length_le_of_mem_fgetsAll (hn : 0 < n) (h : piece ∈ fgetsAll n file) :
    piece.length ≤ n := by
  induction hlen : file.length using Nat.strong_induction_on generalizing file with
  | _ len ih =>
    by_cases hfile : file = []
    · rw [hfile] at h
      exact nomatch h
    · have hlt := fgetsPiece_lt hn hfile
      rw [fgetsAll_of_ne_nil hn hfile] at h
      rcases List.mem_cons.mp h with rfl | hrest
      · exact length_fgetsPiece_le n file
      · exact ih _ (by omega) hrest rfl

/-! ### Lines that are read whole -/

theorem flatten_fgetsAll (hn : 0 < n) (file : CString) : (fgetsAll n file).flatten = file := by
  induction hlen : file.length using Nat.strong_induction_on generalizing file with
  | _ len ih =>
    by_cases hfile : file = []
    · rw [hfile, fgetsAll_nil, List.flatten_nil]
    · have hlt := fgetsPiece_lt hn hfile
      rw [fgetsAll_of_ne_nil hn hfile, List.flatten_cons, ih _ (by omega) _ rfl, fgetsPiece_append]

theorem fgetsAll_append (hn : 0 < n) (hnoLf : '\n' ∉ line) (rest : CString) :
    fgetsAll n (line ++ '\n' :: rest) = fgetsAll n (line ++ ['\n']) ++ fgetsAll n rest := by
  induction hlen : line.length using Nat.strong_induction_on generalizing line with
  | _ len ih =>
    by_cases hlt : line.length < n
    · rw [fgetsAll_line hnoLf hlt, fgetsAll_line hnoLf hlt, fgetsAll_nil, List.singleton_append]
    · have hfirst : (line.take n).length = n := List.length_take_of_le (by omega)
      have hne : line.take n ≠ [] := List.ne_nil_of_length_pos (by omega)
      have hnoLf₁ : '\n' ∉ line.take n := fun hmem => hnoLf (List.mem_of_mem_take hmem)
      have hnoLf₂ : '\n' ∉ line.drop n := fun hmem => hnoLf (List.mem_of_mem_drop hmem)
      have hrest := ih (line.drop n).length (by rw [List.length_drop]; omega) hnoLf₂ rfl
      have hfull := fun more => fgetsAll_full hne hnoLf₁ (line.drop n ++ '\n' :: more)
      simp only [hfirst, ← List.append_assoc, List.take_append_drop] at hfull
      rw [hfull, hfull, hrest, List.cons_append]

theorem fileLines_append (hnoLf : '\n' ∉ line) (rest : CString) :
    fileLines (line ++ '\n' :: rest) = (line ++ ['\n']) :: fileLines rest := by
  have hlength : (line ++ '\n' :: rest).length = line.length + (rest.length + 1) := by
    rw [List.length_append, List.length_cons]
  rw [fileLines, fgetsAll_line hnoLf (by omega)]
  by_cases hrest : rest = []
  · rw [hrest]
    rfl
  · have hsame : fgetsAll rest.length rest = fgetsAll (line ++ '\n' :: rest).length rest :=
      fgetsAll_of_le (List.length_pos_of_ne_nil hrest) (by omega) fun piece hpiece =>
        (infix_of_mem_fgetsAll (by omega) hpiece).length_le
    rw [fileLines, hsame]

theorem fileLines_last (hnoLf : '\n' ∉ line) (hline : line ≠ []) : fileLines line = [line] := by
  rw [fileLines, fgetsAll_of_ne_nil (List.length_pos_of_ne_nil hline) hline, fgetsPiece_end hnoLf Nat.le.refl,
    fgetsAll_nil]

theorem fgetsAll_of_fileLines {past rest : List CString}
    (hsplit : fileLines file = past ++ line :: rest) (hlt : (line.takeWhile (· ≠ '\n')).length < n) :
    ∃ before after, fgetsAll n file = before ++ line :: after ∧ before.flatten = past.flatten := by
  have hn : 0 < n := by omega
  induction hlen : file.length using Nat.strong_induction_on generalizing file past with
  | _ len ih =>
    by_cases hlf : '\n' ∈ file
    · obtain ⟨first, more, rfl, hnoLf⟩ := List.eq_append_cons_of_mem hlf
      rw [fileLines_append hnoLf] at hsplit
      rw [List.length_append, List.length_cons] at hlen
      rw [fgetsAll_append hn hnoLf]
      cases past with
      | nil =>
          obtain ⟨rfl, -⟩ := List.cons.inj hsplit
          have hbody : (first ++ ['\n']).takeWhile (· ≠ '\n') = first := by
            rw [List.takeWhile_append_of_pos fun c hc => ?_]
            · simp
            · exact decide_eq_true fun heq => hnoLf (heq ▸ hc)
          rw [hbody] at hlt
          refine ⟨[], fgetsAll n more, ?_, rfl⟩
          rw [fgetsAll_line hnoLf hlt, fgetsAll_nil]
          rfl
      | cons l past =>
          obtain ⟨rfl, hmore⟩ := List.cons.inj hsplit
          obtain ⟨before, after, hafter, hflatten⟩ := ih more.length (by omega) hmore rfl
          refine ⟨fgetsAll n (first ++ ['\n']) ++ before, after, ?_, ?_⟩
          · rw [hafter, List.append_assoc]
          · rw [List.flatten_append, flatten_fgetsAll hn, hflatten, List.flatten_cons]
    · by_cases hfile : file = []
      · rw [hfile] at hsplit
        exact absurd hsplit.symm (by simp [fileLines])
      · rw [fileLines_last hlf hfile, List.singleton_eq_append_iff] at hsplit
        obtain ⟨rfl, hcons⟩ | ⟨-, hcons⟩ := hsplit
        · obtain ⟨rfl, -⟩ := List.cons.inj hcons
          refine ⟨[], [], ?_, rfl⟩
          have hbody : line.takeWhile (· ≠ '\n') = line := by
            rw [List.takeWhile_eq_self_iff]
            exact fun c hc => decide_eq_true fun heq => hlf (heq ▸ hc)
          rw [hbody] at hlt
          rw [fgetsAll_of_ne_nil hn hfile, fgetsPiece_end hlf (by omega), fgetsAll_nil]
          rfl
        · exact nomatch hcons

end Lib
end Mkfli4l
