import Mkfli4l.Lib.HexNumerals
import Mkfli4l.Lib.LineReading

/-!
# Decoding chunks

`decode_chunked` copies an HTTP response and leaves out what its chunked transfer encoding has added.  The
bytes of a chunk are counted, but they are read in pieces, each of which ends with a line end or has 2046
bytes.  The line end behind the chunk is removed if it arrives in the same piece as the last bytes of the
chunk.  It depends on the length of the last line of a chunk whether it does (`decodesExactly_iff`).
-/

namespace Mkfli4l
namespace Httpd

open Lib

/-! ### The program -/

/-- `fgets (buffer, sizeof(buffer)-1, stdin)`, which stores `sizeof(buffer)-2` characters. -/
def fgets (input : CString) : Option (CString × CString) :=
  if input = [] then none else some (fgetsPiece 2046 input)

theorem fgets_append {input piece rest : CString} (h : fgets input = some (piece, rest)) :
    piece ++ rest = input := by
  unfold fgets at h
  split at h
  · contradiction
  · have happend := fgetsPiece_append 2046 input
    rw [Option.some.inj h] at happend
    exact happend

theorem fgets_lt {input piece rest : CString} (h : fgets input = some (piece, rest)) :
    rest.length < input.length := by
  unfold fgets at h
  split at h
  · contradiction
  · next hne =>
      have hlt : (fgetsPiece 2046 input).2.length < input.length := fgetsPiece_lt (by decide) hne
      rw [Option.some.inj h] at hlt
      exact hlt

def isxdigit (c : Char) : Bool := isDigitOf 16 c

def islower (c : Char) : Bool := 'a' ≤ c && c ≤ 'z'

def isalpha (c : Char) : Bool := islower c || ('A' ≤ c && c ≤ 'Z')

/-- The buffer is taken for the size of a chunk. -/
def startsChunk (buffer : CString) : Bool :=
  match buffer with
  | [] => false
  | c :: _ => isxdigit c && (!isalpha c || islower c)

/-- The prefix that `strtol` accepts in base 16. -/
def dropHexPrefix (buffer : CString) : CString :=
  match buffer with
  | '0' :: x :: c :: rest => if (x == 'x' || x == 'X') && isDigitOf 16 c then c :: rest else buffer
  | _ => buffer

/-- `strtol (buffer, &err, 16)`, converted to an `int`.  `none` means that there are no digits. -/
def readSize (buffer : CString) : Option ℤ :=
  if (strtol 16 (dropHexPrefix buffer)).rest = dropHexPrefix buffer then none
  else some (toInt32 (strtol 16 (dropHexPrefix buffer)).value)

/-- What is done with a piece if `num` bytes of the chunk are left. -/
inductive PieceUse
  /-- The piece belongs to the chunk, without the line end that has been removed. -/
  | text (buffer : CString)
  /-- There is no line end where one should be. -/
  | failed
  /-- Characters in front of the buffer are read. -/
  | undefined

def usePiece (num : ℤ) (buffer : CString) : PieceUse :=
  if num < buffer.length then
    if buffer.length < 2 then .undefined
    else if buffer.drop (buffer.length - 2) = ['\r', '\n'] then .text (buffer.take (buffer.length - 2))
    else .failed
  else .text buffer

/-- The result of `read_chunk`. -/
inductive ChunkResult
  | last
  | next
  | failed
deriving DecidableEq

/-- The loop of `read_chunk`: its result, the buffer, the rest of the input and what has been printed.
`none` means that the behaviour is undefined. -/
def readData (num : ℤ) (buffer input : CString) : Option (ChunkResult × CString × CString × CString) :=
  match _h : fgets input with
  | none => some (.failed, buffer, input, [])
  | some (piece, rest) =>
      match usePiece num (bufferText piece) with
      | .undefined => none
      | .failed => some (.failed, bufferText piece, rest, bufferText piece)
      | .text buffer =>
          if num - buffer.length < -2147483648 then none
          else if num - buffer.length ≤ 0 then some (.next, buffer, rest, buffer)
          else (readData (num - buffer.length) buffer rest).map fun (result, buffer', input, output) =>
            (result, buffer', input, buffer ++ output)
termination_by input.length
decreasing_by exact fgets_lt ‹_›

def readChunk (buffer input : CString) : Option (ChunkResult × CString × CString × CString) :=
  match readSize buffer with
  | none => some (.failed, buffer, input, [])
  | some num => if num = 0 then some (.last, buffer, input, []) else readData num buffer input

theorem readData_le {num : ℤ} {buffer input : CString} {result : ChunkResult} {buffer' rest output : CString}
    (h : readData num buffer input = some (result, buffer', rest, output)) : rest.length ≤ input.length := by
  induction hn : input.length using Nat.strong_induction_on generalizing num buffer input output with
  | _ n ih =>
      rw [readData] at h
      split at h
      · simp only [Option.some.injEq, Prod.mk.injEq] at h
        obtain ⟨-, -, rfl, -⟩ := h
        exact hn.le
      · next piece left hgets =>
          have hlt := fgets_lt hgets
          cases huse : usePiece num (bufferText piece) with
          | undefined =>
              rw [huse] at h
              contradiction
          | failed =>
              simp only [huse, Option.some.injEq, Prod.mk.injEq] at h
              obtain ⟨-, -, rfl, -⟩ := h
              omega
          | text text =>
              simp only [huse] at h
              split at h
              · contradiction
              · split at h
                · simp only [Option.some.injEq, Prod.mk.injEq] at h
                  obtain ⟨-, -, rfl, -⟩ := h
                  omega
                · obtain ⟨⟨result', buffer₁, rest', output'⟩, hrest, heq⟩ := Option.map_eq_some_iff.mp h
                  simp only [Prod.mk.injEq] at heq
                  obtain ⟨rfl, rfl, rfl, -⟩ := heq
                  have hle := ih left.length (by omega) hrest rfl
                  omega

theorem readChunk_le {buffer input : CString} {result : ChunkResult} {buffer' rest output : CString}
    (h : readChunk buffer input = some (result, buffer', rest, output)) : rest.length ≤ input.length := by
  unfold readChunk at h
  split at h
  · simp only [Option.some.injEq, Prod.mk.injEq] at h
    obtain ⟨-, -, rfl, -⟩ := h
    exact le_refl _
  · split at h
    · simp only [Option.some.injEq, Prod.mk.injEq] at h
      obtain ⟨-, -, rfl, -⟩ := h
      exact le_refl _
    · exact readData_le h

/-- The loop of `main`: what is printed. -/
def decodeChunked (chunked : Bool) (input : CString) : Option CString :=
  match _h : fgets input with
  | none => some []
  | some (piece, rest) =>
      if chunked && startsChunk (bufferText piece) then
        match _hchunk : readChunk (bufferText piece) rest with
        | none => none
        | some (.last, _, rest', output) => (decodeChunked false rest').map (output ++ ·)
        | some (.next, _, rest', output) => (decodeChunked true rest').map (output ++ ·)
        | some (.failed, buffer, rest', output) => (decodeChunked false rest').map (output ++ buffer ++ ·)
      else (decodeChunked chunked rest).map (bufferText piece ++ ·)
termination_by input.length
decreasing_by
  · exact lt_of_le_of_lt (readChunk_le ‹_›) (fgets_lt ‹_›)
  · exact lt_of_le_of_lt (readChunk_le ‹_›) (fgets_lt ‹_›)
  · exact lt_of_le_of_lt (readChunk_le ‹_›) (fgets_lt ‹_›)
  · exact fgets_lt ‹_›

/-! ### Single steps -/

section steps

variable {chunked : Bool} {input piece rest buffer : CString} {num : ℤ}

theorem decodeChunked_nil : decodeChunked chunked [] = some [] := by
  rw [decodeChunked]
  rfl

theorem decodeChunked_copy (h : fgets input = some (piece, rest))
    (hplain : (chunked && startsChunk (bufferText piece)) = false) :
    decodeChunked chunked input = (decodeChunked chunked rest).map (bufferText piece ++ ·) := by
  rw [decodeChunked]
  split
  · next hnone => exact nomatch h.symm.trans hnone
  · next piece' rest' hsome =>
      obtain ⟨rfl, rfl⟩ := Prod.mk.inj (Option.some.inj (h.symm.trans hsome))
      rw [if_neg (by rw [hplain]; exact Bool.false_ne_true)]

theorem decodeChunked_size (h : fgets input = some (piece, rest))
    (hstart : startsChunk (bufferText piece) = true) :
    decodeChunked true input =
      match readChunk (bufferText piece) rest with
      | none => none
      | some (.last, _, rest', output) => (decodeChunked false rest').map (output ++ ·)
      | some (.next, _, rest', output) => (decodeChunked true rest').map (output ++ ·)
      | some (.failed, buffer, rest', output) => (decodeChunked false rest').map (output ++ buffer ++ ·) := by
  rw [decodeChunked]
  split
  · next hnone => exact nomatch h.symm.trans hnone
  · next piece' rest' hsome =>
      obtain ⟨rfl, rfl⟩ := Prod.mk.inj (Option.some.inj (h.symm.trans hsome))
      rw [if_pos (by rw [hstart]; rfl)]
      split <;> simp_all

theorem readData_text {text : CString} (h : fgets input = some (piece, rest))
    (htext : usePiece num (bufferText piece) = .text text) (hlow : -2147483648 ≤ num - text.length) :
    readData num buffer input =
      if num - text.length ≤ 0 then some (.next, text, rest, text)
      else (readData (num - text.length) text rest).map fun (result, buffer', input, output) =>
        (result, buffer', input, text ++ output) := by
  rw [readData]
  split
  · next hnone => exact nomatch h.symm.trans hnone
  · next piece' rest' hsome =>
      obtain ⟨rfl, rfl⟩ := Prod.mk.inj (Option.some.inj (h.symm.trans hsome))
      rw [htext]
      dsimp only
      rw [if_neg (Int.not_lt.mpr hlow)]

theorem readData_failed (h : fgets input = some (piece, rest))
    (hfailed : usePiece num (bufferText piece) = .failed) :
    readData num buffer input = some (.failed, bufferText piece, rest, bufferText piece) := by
  rw [readData]
  split
  · next hnone => exact nomatch h.symm.trans hnone
  · next piece' rest' hsome =>
      obtain ⟨rfl, rfl⟩ := Prod.mk.inj (Option.some.inj (h.symm.trans hsome))
      rw [hfailed]

/-! ### Pieces -/

theorem fgets_line {line : CString} (hnoLf : '\n' ∉ line) (hlt : line.length < 2046) (rest : CString) :
    fgets (line ++ '\n' :: rest) = some (line ++ ['\n'], rest) := by
  unfold fgets
  rw [if_neg (by simp), fgetsPiece_line hnoLf hlt]

theorem fgets_full {line : CString} (hnoLf : '\n' ∉ line) (hlen : line.length = 2046) (rest : CString) :
    fgets (line ++ rest) = some (line, rest) := by
  have hne : line ++ rest ≠ [] := by
    intro hnil
    have hzero := congrArg List.length hnil
    rw [List.length_append, hlen] at hzero
    simp at hzero
  unfold fgets
  rw [if_neg hne, ← hlen, fgetsPiece_full hnoLf]

end steps

theorem decodeChunked_false {input : CString} (h : '\x00' ∉ input) : decodeChunked false input = some input := by
  induction hn : input.length using Nat.strong_induction_on generalizing input with
  | _ n ih =>
      cases hgets : fgets input with
      | none =>
          have hnil : input = [] := by
            unfold fgets at hgets
            by_contra hne
            rw [if_neg hne] at hgets
            contradiction
          rw [hnil, decodeChunked_nil]
      | some result =>
          obtain ⟨piece, rest⟩ := result
          have happend := fgets_append hgets
          have hlt := fgets_lt hgets
          have hpiece : '\x00' ∉ piece := fun hmem => h (happend ▸ List.mem_append_left rest hmem)
          have hrest : '\x00' ∉ rest := fun hmem => h (happend ▸ List.mem_append_right piece hmem)
          rw [decodeChunked_copy hgets (Bool.false_and _), ih rest.length (by omega) hrest rfl,
            bufferText_eq hpiece, Option.map_some, happend]

/-! ### Responses -/

/-- A line of the header, which does not begin like the size of a chunk. -/
structure HeaderLine where
  text : CString
  noLf : '\n' ∉ text
  noNul : '\x00' ∉ text
  plain : startsChunk (text ++ ['\n']) = false

/-- The data of a chunk. -/
structure Chunk where
  data : CString
  noNul : '\x00' ∉ data
  ne_nil : data ≠ []

/-- An HTTP response: the lines of its header, the chunks of its body, and the trailer behind the last
chunk. -/
structure Response where
  header : List HeaderLine
  chunks : List Chunk
  trailer : CString
  noNul : '\x00' ∉ trailer

/-- A chunk as it is transferred: its size, its data, and a line end behind both. -/
def Chunk.text (c : Chunk) : CString :=
  Nat.toDigits 16 c.data.length ++ '\r' :: '\n' :: (c.data ++ ['\r', '\n'])

/-- The header as it is transferred. -/
def Response.headerText (r : Response) : CString := r.header.flatMap fun line => line.text ++ ['\n']

/-- Chunks with the end of the body behind them. -/
def chunksText (chunks : List Chunk) (trailer : CString) : CString :=
  chunks.flatMap Chunk.text ++ '0' :: '\r' :: '\n' :: trailer

/-- The response as it is transferred. -/
def Response.text (r : Response) : CString := r.headerText ++ chunksText r.chunks r.trailer

/-- The response without its transfer encoding. -/
def Response.decoded (r : Response) : CString := r.headerText ++ (r.chunks.flatMap Chunk.data ++ r.trailer)

/-- The length of what follows the last line end. -/
def tailLength (data : CString) : ℕ := data.foldl (fun n c => if c = '\n' then 0 else n + 1) 0

/-- The line end behind the chunk is read together with the last bytes of its data. -/
def Chunk.Aligned (c : Chunk) : Prop := tailLength c.data % 2046 ≠ 0 ∧ tailLength c.data % 2046 ≠ 2045

/-- No piece of a long line of the header begins like the size of a chunk. -/
def HeaderLine.PiecesPlain (line : HeaderLine) : Prop :=
  ∀ k, startsChunk ((line.text ++ ['\n']).drop (2046 * k)) = false

/-! ### The length of the last line -/

section tails

variable {t d : CString}

theorem tailLength_append_lf (t d : CString) : tailLength (t ++ '\n' :: d) = tailLength d := by
  unfold tailLength
  rw [List.foldl_append]
  rfl

theorem foldl_noLf (h : '\n' ∉ t) (n : ℕ) :
    t.foldl (fun n c => if c = '\n' then 0 else n + 1) n = n + t.length := by
  induction t generalizing n with
  | nil => rfl
  | cons c t ih =>
      have hne : c ≠ '\n' := fun heq => h (heq ▸ List.mem_cons_self)
      rw [List.foldl_cons, if_neg hne, ih (fun hmem => h (List.mem_cons_of_mem c hmem)), List.length_cons]
      omega

theorem foldl_add_mod (d : CString) (n m : ℕ) :
    d.foldl (fun n c => if c = '\n' then 0 else n + 1) (n + m) % m =
      d.foldl (fun n c => if c = '\n' then 0 else n + 1) n % m := by
  induction d generalizing n with
  | nil => exact Nat.add_mod_right n m
  | cons c d ih =>
      rw [List.foldl_cons, List.foldl_cons]
      split
      · rfl
      · rw [Nat.add_right_comm]
        exact ih (n + 1)

theorem tailLength_noLf (h : '\n' ∉ t) : tailLength t = t.length := by
  unfold tailLength
  rw [foldl_noLf h, Nat.zero_add]

theorem tailLength_append_mod (h : '\n' ∉ t) : tailLength (t ++ d) % t.length = tailLength d % t.length := by
  unfold tailLength
  rw [List.foldl_append, foldl_noLf h]
  exact foldl_add_mod d 0 t.length

theorem piece_cases (d : CString) :
    (∃ t d', '\n' ∉ t ∧ t.length < 2046 ∧ d = t ++ '\n' :: d') ∨
      (∃ t d', '\n' ∉ t ∧ t.length = 2046 ∧ d = t ++ d') ∨ ('\n' ∉ d ∧ d.length < 2046) := by
  by_cases hlen : (d.takeWhile (· ≠ '\n')).length < 2046
  · have hnoLf : '\n' ∉ d.takeWhile (· ≠ '\n') := by
      intro hmem
      have htrue := List.mem_takeWhile_imp hmem
      simp at htrue
    have hsplit := List.takeWhile_append_dropWhile (p := (· ≠ '\n')) (l := d)
    cases hrest : d.dropWhile (· ≠ '\n') with
    | nil =>
        rw [hrest, List.append_nil] at hsplit
        rw [hsplit] at hnoLf hlen
        exact .inr (.inr ⟨hnoLf, hlen⟩)
    | cons c d' =>
        have hc : c = '\n' := by
          have hfalse := List.head?_dropWhile_not (· ≠ '\n') d
          rw [hrest] at hfalse
          simpa using hfalse
        rw [hrest, hc] at hsplit
        exact .inl ⟨_, d', hnoLf, hlen, hsplit.symm⟩
  · refine .inr (.inl ⟨d.take 2046, d.drop 2046, ?_, ?_, (List.take_append_drop 2046 d).symm⟩)
    · intro hmem
      have hpre : d.take 2046 = (d.takeWhile (· ≠ '\n')).take 2046 := by
        have hprefix := List.takeWhile_prefix (p := (· ≠ '\n')) (l := d)
        obtain ⟨more, hmore⟩ := hprefix
        conv_lhs => rw [← hmore]
        rw [List.take_append_of_le_length (by omega)]
      rw [hpre] at hmem
      have htrue := List.mem_takeWhile_imp (List.mem_of_mem_take hmem)
      simp at htrue
    · have hle := (List.takeWhile_prefix (p := (· ≠ '\n')) (l := d)).length_le
      rw [List.length_take]
      omega

end tails

/-! ### Reading the data of a chunk -/

theorem readData_piece {piece d tail : CString} (buffer : CString)
    (hgets : fgets (piece ++ d ++ tail) = some (piece, d ++ tail)) (hnul : '\x00' ∉ piece) :
    readData (piece ++ d).length buffer (piece ++ d ++ tail) =
      if d = [] then some (.next, piece, tail, piece)
      else (readData d.length piece (d ++ tail)).map fun (result, buffer', input, output) =>
        (result, buffer', input, piece ++ output) := by
  have hleft : ((piece ++ d).length : ℤ) - piece.length = d.length := by
    rw [List.length_append]
    omega
  have htext : usePiece (piece ++ d).length (bufferText piece) = .text piece := by
    unfold usePiece
    rw [bufferText_eq hnul, if_neg (by rw [List.length_append]; omega)]
  rw [readData_text hgets htext (by omega), hleft]
  by_cases hd : d = []
  · subst hd
    rw [if_pos (by simp), if_pos rfl]
    rfl
  · have hpos := List.length_pos_of_ne_nil hd
    rw [if_neg (by omega), if_neg hd]

/-- What `read_chunk` returns, what is left of the input and what is printed, if `more` follows behind a
chunk. -/
def afterData (d more : CString) : ChunkResult × CString × CString :=
  if tailLength d % 2046 = 0 then (.next, '\r' :: '\n' :: more, d)
  else if tailLength d % 2046 = 2045 then (.failed, '\n' :: more, d ++ ['\r'])
  else (.next, more, d)

theorem afterData_append {piece d : CString} (h : tailLength (piece ++ d) % 2046 = tailLength d % 2046)
    (more : CString) : afterData (piece ++ d) more =
      ((afterData d more).1, (afterData d more).2.1, piece ++ (afterData d more).2.2) := by
  unfold afterData
  rw [h]
  split
  · rfl
  · split
    · simp
    · rfl

theorem readData_end {d : CString} (hnoLf : '\n' ∉ d) (hnul : '\x00' ∉ d) (hne : d ≠ [])
    (hlt : d.length < 2046) (buffer more : CString) :
    ∃ buffer', readData d.length buffer (d ++ '\r' :: '\n' :: more) =
      some ((afterData d more).1, buffer', (afterData d more).2) := by
  have hpos := List.length_pos_of_ne_nil hne
  have htail := tailLength_noLf hnoLf
  have hline : '\n' ∉ d ++ ['\r'] := by
    simpa using hnoLf
  have hmod : tailLength d % 2046 = d.length := by
    rw [htail]
    exact Nat.mod_eq_of_lt hlt
  unfold afterData
  rw [hmod, if_neg hpos.ne']
  by_cases hfull : d.length = 2045
  · -- the buffer ends between the two characters of the line end
    have hgets : fgets (d ++ ['\r'] ++ '\n' :: more) = some (d ++ ['\r'], '\n' :: more) :=
      fgets_full hline (by simp [hfull]) _
    have hbuffer : bufferText (d ++ ['\r']) = d ++ ['\r'] := bufferText_eq (by simpa using hnul)
    have hfailed : usePiece d.length (bufferText (d ++ ['\r'])) = .failed := by
      have hlen : (d ++ ['\r']).length = 2046 := by simp [hfull]
      have hlast : (d ++ ['\r']).drop 2044 ≠ ['\r', '\n'] := by
        intro heq
        have hend := congrArg List.getLast? heq
        rw [List.drop_append_of_le_length (by omega), List.getLast?_concat] at hend
        exact absurd (Option.some.inj hend) (by decide)
      unfold usePiece
      rw [hbuffer, hlen, hfull, if_pos (by decide), if_neg (by decide), if_neg hlast]
    rw [if_pos hfull]
    have hrun : readData d.length buffer _ = _ := readData_failed hgets hfailed
    rw [List.append_assoc, hbuffer] at hrun
    exact ⟨d ++ ['\r'], hrun⟩
  · have hgets : fgets (d ++ ['\r'] ++ '\n' :: more) = some (d ++ ['\r'] ++ ['\n'], more) :=
      fgets_line hline (by rw [List.length_append, List.length_singleton]; omega) _
    have hbuffer : bufferText (d ++ ['\r'] ++ ['\n']) = d ++ ['\r', '\n'] := by
      rw [bufferText_eq (by simpa using hnul), List.append_assoc]
      rfl
    have htext : usePiece d.length (bufferText (d ++ ['\r'] ++ ['\n'])) = .text d := by
      have hlen : (d ++ ['\r', '\n']).length = d.length + 2 := by simp
      unfold usePiece
      rw [hbuffer, hlen, if_pos (by push_cast; omega), if_neg (by omega), Nat.add_sub_cancel,
        List.drop_left, if_pos rfl, List.take_left]
    rw [if_neg hfull]
    have hrun : readData d.length buffer _ = _ := readData_text hgets htext (by omega)
    rw [if_pos (by omega), List.append_assoc] at hrun
    exact ⟨d, hrun⟩

theorem readData_spec {d : CString} (hnul : '\x00' ∉ d) (hne : d ≠ []) (buffer more : CString) :
    ∃ buffer', readData d.length buffer (d ++ '\r' :: '\n' :: more) =
      some ((afterData d more).1, buffer', (afterData d more).2) := by
  induction hn : d.length using Nat.strong_induction_on generalizing d buffer with
  | _ n ih =>
      rw [← hn]
      -- a piece in front of the rest of the data
      have hpiece (piece d' : CString) (hd : d = piece ++ d') (hpos : 0 < piece.length)
          (hgets : fgets (piece ++ d' ++ '\r' :: '\n' :: more) = some (piece, d' ++ '\r' :: '\n' :: more))
          (htail : tailLength (piece ++ d') % 2046 = tailLength d' % 2046) :
          ∃ buffer', readData d.length buffer (d ++ '\r' :: '\n' :: more) =
            some ((afterData d more).1, buffer', (afterData d more).2) := by
        subst hd
        rw [readData_piece buffer hgets fun hmem => hnul (List.mem_append_left d' hmem), afterData_append htail]
        by_cases hd' : d' = []
        · subst hd'
          exact ⟨piece, by simp [afterData, tailLength]⟩
        · rw [List.length_append] at hn
          obtain ⟨buffer', hrest⟩ := ih d'.length (by omega)
            (fun hmem => hnul (List.mem_append_right piece hmem)) hd' piece rfl
          rw [if_neg hd', hrest]
          exact ⟨buffer', rfl⟩
      rcases piece_cases d with ⟨t, d', hnoLf, hlt, hd⟩ | ⟨t, d', hnoLf, hlen, hd⟩ | ⟨hnoLf, hlt⟩
      · apply hpiece (t ++ ['\n']) d'
        · rw [hd, List.append_assoc]
          rfl
        · simp
        · have hgets := fgets_line hnoLf hlt (d' ++ '\r' :: '\n' :: more)
          simpa using hgets
        · rw [List.append_assoc]
          exact congrArg (· % 2046) (tailLength_append_lf t d')
      · apply hpiece t d' hd (by omega)
        · rw [List.append_assoc]
          exact fgets_full hnoLf hlen _
        · have hmod := tailLength_append_mod (d := d') hnoLf
          rwa [hlen] at hmod
      · exact readData_end hnoLf hnul hne hlt buffer more

/-! ### Chunks -/

theorem not_mem_toDigits {c : Char} (hc : ∀ d < 16, c ≠ Nat.digitChar d) (n : ℕ) : c ∉ Nat.toDigits 16 n := by
  intro hmem
  obtain ⟨d, hd, rfl⟩ := exists_of_mem_toDigits hmem
  exact hc d hd rfl

theorem dropHexPrefix_eq {buffer : CString} (h : ∀ c ∈ buffer, (c == 'x' || c == 'X') = false) :
    dropHexPrefix buffer = buffer := by
  unfold dropHexPrefix
  split
  · next x c rest =>
      rw [h x (by simp), Bool.false_and, if_neg Bool.false_ne_true]
  · rfl

theorem readSize_toDigits {n : ℕ} (hn : n ≤ 2147483647) :
    readSize (Nat.toDigits 16 n ++ ['\r', '\n']) = some (n : ℤ) := by
  have hx : ∀ c ∈ Nat.toDigits 16 n ++ ['\r', '\n'], (c == 'x' || c == 'X') = false := by
    intro c hc
    rcases List.mem_append.mp hc with hdigit | hend
    · obtain ⟨d, hd, rfl⟩ := exists_of_mem_toDigits hdigit
      have hall : ∀ d < 16, (Nat.digitChar d == 'x' || Nat.digitChar d == 'X') = false := by decide
      exact hall d hd
    · obtain rfl | rfl : c = '\r' ∨ c = '\n' := by simpa using hend
      · rfl
      · rfl
  have hstrtol : strtol 16 (Nat.toDigits 16 n ++ ['\r', '\n']) = ⟨n, ['\r', '\n'], false⟩ := by
    apply strtol_toDigits_hex
    · unfold longMax
      omega
    · decide
  have hrest : ['\r', '\n'] ≠ Nat.toDigits 16 n ++ ['\r', '\n'] := by
    intro heq
    exact Nat.toDigits_ne_nil (List.self_eq_append_left.mp heq)
  unfold readSize
  have hint : toInt32 (n : ℤ) = n := toInt32_of_range (by omega) (by omega)
  rw [dropHexPrefix_eq hx, hstrtol, if_neg hrest]
  exact congrArg some hint

theorem startsChunk_toDigits (n : ℕ) (rest : CString) : startsChunk (Nat.toDigits 16 n ++ rest) = true := by
  obtain ⟨c, tail, hcons⟩ := List.exists_cons_of_ne_nil (Nat.toDigits_ne_nil (n := n) (b := 16))
  obtain ⟨d, hd, rfl⟩ := exists_of_mem_toDigits (show c ∈ Nat.toDigits 16 n by simp [hcons])
  have hall : ∀ d < 16, (isxdigit (Nat.digitChar d) &&
      (!isalpha (Nat.digitChar d) || islower (Nat.digitChar d))) = true := by decide
  rw [hcons]
  exact hall d hd

theorem decodeChunked_sizeLine {n : ℕ} (hn : n ≤ 2147483647) (rest : CString) :
    decodeChunked true (Nat.toDigits 16 n ++ '\r' :: '\n' :: rest) =
      match readChunk (Nat.toDigits 16 n ++ ['\r', '\n']) rest with
      | none => none
      | some (.last, _, rest', output) => (decodeChunked false rest').map (output ++ ·)
      | some (.next, _, rest', output) => (decodeChunked true rest').map (output ++ ·)
      | some (.failed, buffer, rest', output) => (decodeChunked false rest').map (output ++ buffer ++ ·) := by
  have hlf : '\n' ∉ Nat.toDigits 16 n ++ ['\r'] := by
    have hdigits := not_mem_toDigits (c := '\n') (by decide) n
    simpa using hdigits
  have hlen : (Nat.toDigits 16 n ++ ['\r']).length < 2046 := by
    have hle := (Nat.length_toDigits_le_iff (n := n) (show 1 < 16 by decide) (show 0 < 8 by decide)).mpr
      (by omega)
    rw [List.length_append, List.length_singleton]
    omega
  have hgets : fgets (Nat.toDigits 16 n ++ '\r' :: '\n' :: rest) =
      some (Nat.toDigits 16 n ++ ['\r', '\n'], rest) := by
    have hline := fgets_line hlf hlen rest
    simpa using hline
  have hbuffer : bufferText (Nat.toDigits 16 n ++ ['\r', '\n']) = Nat.toDigits 16 n ++ ['\r', '\n'] := by
    have hnul := not_mem_toDigits (c := '\x00') (by decide) n
    exact bufferText_eq (by simpa using hnul)
  rw [decodeChunked_size hgets (by rw [hbuffer]; exact startsChunk_toDigits n _), hbuffer]

theorem decodeChunked_last {trailer : CString} (h : '\x00' ∉ trailer) :
    decodeChunked true ('0' :: '\r' :: '\n' :: trailer) = some trailer := by
  have hline := decodeChunked_sizeLine (Nat.zero_le 2147483647) trailer
  have hsize := readSize_toDigits (Nat.zero_le 2147483647)
  have hzero : Nat.toDigits 16 0 = ['0'] := rfl
  unfold readChunk at hline
  rw [hsize] at hline
  rw [hzero] at hline
  simp only [Nat.cast_zero, if_true, List.cons_append, List.nil_append] at hline
  rw [hline, decodeChunked_false h]
  rfl

theorem decodeChunked_chunk (c : Chunk) (hsize : c.data.length ≤ 2147483647) (more : CString) :
    ∃ buffer, decodeChunked true (c.text ++ more) =
      match afterData c.data more with
      | (.last, rest, output) => (decodeChunked false rest).map (output ++ ·)
      | (.next, rest, output) => (decodeChunked true rest).map (output ++ ·)
      | (.failed, rest, output) => (decodeChunked false rest).map (output ++ buffer ++ ·) := by
  have hpos := List.length_pos_of_ne_nil c.ne_nil
  obtain ⟨buffer, hdata⟩ := readData_spec c.noNul c.ne_nil
    (Nat.toDigits 16 c.data.length ++ ['\r', '\n']) more
  refine ⟨buffer, ?_⟩
  have htext : c.text ++ more =
      Nat.toDigits 16 c.data.length ++ '\r' :: '\n' :: (c.data ++ '\r' :: '\n' :: more) := by
    simp [Chunk.text]
  rw [htext, decodeChunked_sizeLine hsize]
  unfold readChunk
  rw [readSize_toDigits hsize]
  dsimp only
  rw [if_neg (by omega), hdata]
  obtain ⟨result, rest, output⟩ := afterData c.data more
  cases result <;> rfl

theorem decodeChunked_lineEnd (more : CString) :
    decodeChunked true ('\r' :: '\n' :: more) = (decodeChunked true more).map (['\r', '\n'] ++ ·) := by
  have hgets : fgets ('\r' :: '\n' :: more) = some (['\r', '\n'], more) :=
    fgets_line (by decide : '\n' ∉ ['\r']) (by decide) more
  exact decodeChunked_copy hgets (by decide)

section chunks

variable {c : Chunk} {more : CString}

theorem decodeChunked_aligned (hsize : c.data.length ≤ 2147483647) (h : c.Aligned) :
    decodeChunked true (c.text ++ more) = (decodeChunked true more).map (c.data ++ ·) := by
  obtain ⟨buffer, hrun⟩ := decodeChunked_chunk c hsize more
  unfold afterData at hrun
  rw [if_neg h.1, if_neg h.2] at hrun
  exact hrun

theorem decodeChunked_ownLine (hsize : c.data.length ≤ 2147483647) (h : tailLength c.data % 2046 = 0) :
    decodeChunked true (c.text ++ more) =
      ((decodeChunked true more).map (['\r', '\n'] ++ ·)).map (c.data ++ ·) := by
  obtain ⟨buffer, hrun⟩ := decodeChunked_chunk c hsize more
  unfold afterData at hrun
  rw [if_pos h] at hrun
  rw [hrun, ← decodeChunked_lineEnd]

theorem decodeChunked_cut (hsize : c.data.length ≤ 2147483647) (h : tailLength c.data % 2046 = 2045)
    (hnul : '\x00' ∉ more) :
    ∃ buffer, decodeChunked true (c.text ++ more) = some (c.data ++ ['\r'] ++ buffer ++ '\n' :: more) := by
  obtain ⟨buffer, hrun⟩ := decodeChunked_chunk c hsize more
  unfold afterData at hrun
  rw [if_neg (by omega), if_pos h] at hrun
  refine ⟨buffer, ?_⟩
  rw [hrun]
  show (decodeChunked false ('\n' :: more)).map _ = _
  rw [decodeChunked_false (by simpa using hnul)]
  rfl

end chunks

/-! ### Responses as a whole -/

theorem noNul_chunksText (chunks : List Chunk) {trailer : CString} (h : '\x00' ∉ trailer) :
    '\x00' ∉ chunksText chunks trailer := by
  have hchunk (c : Chunk) : '\x00' ∉ c.text := by
    have hdigits := not_mem_toDigits (c := '\x00') (by decide) c.data.length
    have hdata := c.noNul
    unfold Chunk.text
    simp [hdigits, hdata]
  unfold chunksText
  simp [h, hchunk]

theorem length_chunksText (chunks : List Chunk) (trailer : CString) :
    (chunks.flatMap Chunk.data ++ trailer).length < (chunksText chunks trailer).length := by
  induction chunks with
  | nil =>
      simp [chunksText]
      omega
  | cons c chunks ih =>
      simp only [chunksText, List.flatMap_cons, List.length_append, List.length_cons, Chunk.text] at ih ⊢
      omega

theorem decodeChunked_chunks {chunks : List Chunk} (hsizes : ∀ c ∈ chunks, c.data.length ≤ 2147483647)
    {trailer : CString} (h : '\x00' ∉ trailer) :
    ∃ output, decodeChunked true (chunksText chunks trailer) = some output ∧
      ((∀ c ∈ chunks, c.Aligned) → output = chunks.flatMap Chunk.data ++ trailer) ∧
      (chunks.flatMap Chunk.data ++ trailer).length ≤ output.length ∧
      (¬ (∀ c ∈ chunks, c.Aligned) → (chunks.flatMap Chunk.data ++ trailer).length < output.length) := by
  induction chunks with
  | nil => exact ⟨trailer, decodeChunked_last h, fun _ => rfl, le_refl _, fun hnot => absurd nofun hnot⟩
  | cons c chunks ih =>
      obtain ⟨hsize, hsizes⟩ := List.forall_mem_cons.mp hsizes
      obtain ⟨output, hrun, hright, hle, hlong⟩ := ih hsizes
      have htext : chunksText (c :: chunks) trailer = c.text ++ chunksText chunks trailer := by
        unfold chunksText
        rw [List.flatMap_cons, List.append_assoc]
      rw [htext, List.flatMap_cons, List.append_assoc]
      by_cases hown : tailLength c.data % 2046 = 0
      · have hnot : ¬ ∀ c' ∈ c :: chunks, c'.Aligned := fun hall => (hall c List.mem_cons_self).1 hown
        rw [decodeChunked_ownLine hsize hown, hrun]
        refine ⟨_, rfl, fun hall => absurd hall hnot, ?_, fun _ => ?_⟩
        · simp only [List.length_append] at hle ⊢
          omega
        · simp only [List.length_append, List.length_cons] at hle ⊢
          omega
      · by_cases hcut : tailLength c.data % 2046 = 2045
        · have hnot : ¬ ∀ c' ∈ c :: chunks, c'.Aligned := fun hall => (hall c List.mem_cons_self).2 hcut
          have hmore := length_chunksText chunks trailer
          obtain ⟨buffer, hcopy⟩ := decodeChunked_cut hsize hcut (noNul_chunksText chunks h)
          refine ⟨_, hcopy, fun hall => absurd hall hnot, ?_, fun _ => ?_⟩
          · simp only [List.length_append, List.length_cons] at hmore ⊢
            omega
          · simp only [List.length_append, List.length_cons] at hmore ⊢
            omega
        · rw [decodeChunked_aligned hsize ⟨hown, hcut⟩, hrun]
          refine ⟨_, rfl, ?_, ?_, ?_⟩
          · intro hall
            rw [hright fun c' hc' => hall c' (List.mem_cons_of_mem c hc')]
          · simp only [List.length_append] at hle ⊢
            omega
          · intro hnot
            have hlong := hlong fun hall => hnot (List.forall_mem_cons.mpr ⟨⟨hown, hcut⟩, hall⟩)
            simp only [List.length_append] at hlong ⊢
            omega

theorem decodeChunked_headerLine {t : CString} (hnoLf : '\n' ∉ t) (hnul : '\x00' ∉ t)
    (hplain : ∀ k, startsChunk ((t ++ ['\n']).drop (2046 * k)) = false) (rest : CString) :
    decodeChunked true (t ++ '\n' :: rest) = (decodeChunked true rest).map (t ++ ['\n'] ++ ·) := by
  induction hn : t.length using Nat.strong_induction_on generalizing t with
  | _ n ih =>
      by_cases hlt : t.length < 2046
      · have hbuffer : bufferText (t ++ ['\n']) = t ++ ['\n'] := bufferText_eq (by simpa using hnul)
        have hcopy : decodeChunked true (t ++ '\n' :: rest) = _ :=
          decodeChunked_copy (fgets_line hnoLf hlt rest) (by rw [hbuffer, Bool.true_and]; exact hplain 0)
        rw [hbuffer] at hcopy
        exact hcopy
      · have hlen : (t.take 2046).length = 2046 := by
          rw [List.length_take]
          omega
        have hfirst : '\n' ∉ t.take 2046 := fun hmem => hnoLf (List.mem_of_mem_take hmem)
        have hbuffer : bufferText (t.take 2046) = t.take 2046 :=
          bufferText_eq fun hmem => hnul (List.mem_of_mem_take hmem)
        have hstart : startsChunk (t.take 2046) = false := by
          obtain ⟨c, tail, rfl⟩ := List.exists_cons_of_ne_nil (show t ≠ [] by rintro rfl; simp at hlt)
          exact hplain 0
        have hgets := fgets_full hfirst hlen (t.drop 2046 ++ '\n' :: rest)
        rw [← List.append_assoc, List.take_append_drop] at hgets
        have hrest := ih (t.drop 2046).length (by rw [List.length_drop]; omega)
          (fun hmem => hnoLf (List.mem_of_mem_drop hmem)) (fun hmem => hnul (List.mem_of_mem_drop hmem))
          (fun k => by
            have hnext := hplain (k + 1)
            rw [Nat.mul_succ, Nat.add_comm, ← List.drop_drop, List.drop_append_of_le_length (by omega)] at hnext
            exact hnext) rfl
        rw [decodeChunked_copy hgets (by rw [hbuffer, hstart, Bool.and_false]), hrest, hbuffer, Option.map_map]
        congr 1
        funext output
        show t.take 2046 ++ (t.drop 2046 ++ ['\n'] ++ output) = t ++ ['\n'] ++ output
        rw [← List.append_assoc, ← List.append_assoc, List.take_append_drop]

theorem decodeChunked_header {header : List HeaderLine} (h : ∀ line ∈ header, line.PiecesPlain)
    (rest : CString) :
    decodeChunked true ((header.flatMap fun line => line.text ++ ['\n']) ++ rest) =
      (decodeChunked true rest).map ((header.flatMap fun line => line.text ++ ['\n']) ++ ·) := by
  induction header with
  | nil => simp
  | cons line header ih =>
      obtain ⟨hline, hlines⟩ := List.forall_mem_cons.mp h
      have hcopy := decodeChunked_headerLine line.noLf line.noNul hline
        ((header.flatMap fun line => line.text ++ ['\n']) ++ rest)
      rw [ih hlines, Option.map_map] at hcopy
      rw [List.flatMap_cons]
      simpa [Function.comp_def] using hcopy

/-- If the header is copied and the sizes of the chunks fit into an `int`, the response is decoded if and only
if the last line of each chunk is not empty, does not fill the buffer, and does not fill it up to one
character. -/
theorem decodesExactly_iff (r : Response) (hheader : ∀ line ∈ r.header, line.PiecesPlain)
    (hsizes : ∀ c ∈ r.chunks, c.data.length ≤ 2147483647) :
    decodeChunked true r.text = some r.decoded ↔ ∀ c ∈ r.chunks, c.Aligned := by
  obtain ⟨output, hrun, hright, -, hlong⟩ := decodeChunked_chunks hsizes r.noNul
  have hresponse := decodeChunked_header hheader (chunksText r.chunks r.trailer)
  rw [hrun] at hresponse
  unfold Response.text Response.headerText Response.decoded
  rw [hresponse, Option.map_some, Option.some_inj]
  constructor
  · intro heq
    have hsame := List.append_cancel_left heq
    by_contra hnot
    have hlt := hlong hnot
    rw [hsame] at hlt
    exact absurd hlt (lt_irrefl _)
  · intro hall
    rw [hright hall]
    rfl

/-- The empty line behind a header. -/
def emptyLine : HeaderLine := ⟨['\r'], by decide, by decide, by decide⟩

theorem emptyLine_piecesPlain : emptyLine.PiecesPlain := by
  intro k
  cases k with
  | zero => decide
  | succ k =>
      have hnil : ((emptyLine.text ++ ['\n']).drop (2046 * (k + 1))) = [] := by
        apply List.drop_eq_nil_of_le
        show 2 ≤ 2046 * (k + 1)
        omega
      rw [hnil]
      rfl

/-- A body in two chunks, the first one of which ends in a carriage return. -/
def twoChunks : Response :=
  ⟨[emptyLine], [⟨['a', '\n', 'b', '\r'], by decide, by decide⟩, ⟨['c'], by decide, by decide⟩], ['\r', '\n'],
    by decide⟩

theorem decodesExactly_iff_twoChunks : decodeChunked true twoChunks.text = some twoChunks.decoded := by
  apply (decodesExactly_iff twoChunks _ _).mpr
  · unfold Chunk.Aligned
    decide
  · intro line hline
    rw [List.mem_singleton.mp hline]
    exact emptyLine_piecesPlain
  · decide

/-- A chunk that ends in a line end. -/
def lineChunk : Response :=
  ⟨[emptyLine], [⟨['a', '\n'], by decide, by decide⟩], ['\r', '\n'], by decide⟩

/-- The line end behind it becomes part of the body. -/
theorem decodeChunked_lineChunk :
    decodeChunked true lineChunk.text = some "\r\na\n\r\n\r\n".toList ∧
      lineChunk.decoded = "\r\na\n\r\n".toList := by
  constructor
  · have hheader : ∀ line ∈ [emptyLine], line.PiecesPlain := by
      intro line hline
      rw [List.mem_singleton.mp hline]
      exact emptyLine_piecesPlain
    have hchunk : decodeChunked true (Chunk.text ⟨['a', '\n'], by decide, by decide⟩ ++
        ('0' :: '\r' :: '\n' :: ['\r', '\n'])) = _ :=
      decodeChunked_ownLine (by decide) (by decide)
    rw [decodeChunked_last (by decide)] at hchunk
    have hresponse := decodeChunked_header hheader (chunksText lineChunk.chunks lineChunk.trailer)
    have htext : chunksText lineChunk.chunks lineChunk.trailer =
        Chunk.text ⟨['a', '\n'], by decide, by decide⟩ ++ ('0' :: '\r' :: '\n' :: ['\r', '\n']) := rfl
    rw [htext, hchunk] at hresponse
    exact hresponse
  · decide

end Httpd
end Mkfli4l
