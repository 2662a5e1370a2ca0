import Mkfli4l.Archive.Tar

/-!
# The length in front of a pax record

A record of an extended header begins with its own length, and the digits of that length count, too.
`create_record` prints a length in front of the line, looks how long the record has become and prints that
length instead, until the record is as long as it says.

A longer number never has fewer digits, so the lengths that are printed only grow, and what does not fit in
an `int` cannot be printed at all.  The loop ends, and it ends at the least length that is right.
-/

namespace Mkfli4l
namespace Archive

open Lib

/-! ## The source -/

/-- `asprintf`, where `memory` tells for which strings there is memory. -/
def asprintfIn (memory : Bytes → Bool) (s : Bytes) : Option Bytes :=
  if memory s then asprintf s else none

/-- What `create_record` prints first: the record without its length. -/
def recordLine (key value : Bytes) : Bytes := 32 :: key ++ 61 :: value ++ [10]

/-- The record with a length in front, which is printed as an `unsigned`. -/
def printRecord (line : Bytes) (len : ℕ) : Bytes := printPadded 10 1 (len % 4294967296) ++ line

/-- The loop of `create_record`: what it returns if a round begins with a length; `none` stands for `NULL`. -/
inductive CreateRecordLoop (memory : Bytes → Bool) (line : Bytes) : ℕ → Option Bytes → Prop
  | null {len : ℕ} (h : asprintfIn memory (printRecord line len) = none) :
      CreateRecordLoop memory line len none
  | stable {len : ℕ} {record : Bytes} (h : asprintfIn memory (printRecord line len) = some record)
      (hlen : record.length = len) : CreateRecordLoop memory line len (some record)
  | again {len : ℕ} {record : Bytes} {r : Option Bytes}
      (h : asprintfIn memory (printRecord line len) = some record) (hlen : record.length ≠ len)
      (hrest : CreateRecordLoop memory line record.length r) : CreateRecordLoop memory line len r

/-- `create_record` returns a value. -/
inductive CreateRecord (memory : Bytes → Bool) (key value : Bytes) : Option Bytes → Prop
  | null (h : asprintfIn memory (recordLine key value) = none) : CreateRecord memory key value none
  | loop {line : Bytes} {r : Option Bytes} (h : asprintfIn memory (recordLine key value) = some line)
      (hloop : CreateRecordLoop memory line (line.length + 1) r) : CreateRecord memory key value r

/-- The line and the length that a round of the loop begins with; it prints `printRecord line len`. -/
inductive RoundBegins (memory : Bytes → Bool) (key value : Bytes) : Bytes → ℕ → Prop
  | first {line : Bytes} (h : asprintfIn memory (recordLine key value) = some line) :
      RoundBegins memory key value line (line.length + 1)
  | again {line record : Bytes} {len : ℕ} (hround : RoundBegins memory key value line len)
      (h : asprintfIn memory (printRecord line len) = some record) (hlen : record.length ≠ len) :
      RoundBegins memory key value line record.length

/-- The decimal number at the start of a record. -/
def recordNumber (record : Bytes) : Option ℕ :=
  readDigits 10 (record.takeWhile fun c => 48 ≤ c ∧ c ≤ 57)

/-! ## Lengths and their digits -/

/-- How many digits a length is printed with. -/
def digitCount (n : ℕ) : ℕ := (printPadded 10 1 n).length

/-- The length of a record that begins with a number. -/
def lengthWith (line : Bytes) (n : ℕ) : ℕ := digitCount n + line.length

theorem digitCount_eq (n : ℕ) : digitCount n = max 1 (Nat.digits 10 n).length := by
  rw [digitCount, printPadded, List.length_map, length_paddedDigits]

theorem digitCount_mono : Monotone digitCount := by
  intro m n hle
  rw [digitCount_eq, digitCount_eq]
  exact max_le_max_left 1 (Nat.le_length_digits_le 10 m n hle)

theorem digitCount_pos (n : ℕ) : 1 ≤ digitCount n := by
  rw [digitCount_eq]
  exact le_max_left _ _

theorem digitCount_le {n : ℕ} (h : n < 4294967296) : digitCount n ≤ 10 := by
  have hlength : (Nat.digits 10 n).length ≤ 10 := (Nat.digits_length_le_iff (by decide) n).mpr (by omega)
  rw [digitCount_eq]
  exact max_le (by decide) hlength

theorem lengthWith_mono (line : Bytes) : Monotone (lengthWith line) :=
  fun _ _ hle => Nat.add_le_add_right (digitCount_mono hle) _

section Loop

variable {memory : Bytes → Bool} {line record s : Bytes} {len : ℕ} {r r' : Option Bytes}

theorem asprintfIn_eq_some (h : asprintfIn memory s = some record) :
    record = s ∧ s.length ≤ 2147483647 := by
  unfold asprintfIn asprintf at h
  split_ifs at h with hmemory hfits
  exact ⟨(Option.some.inj h).symm, hfits⟩

theorem length_printRecord (line : Bytes) (hlen : len < 4294967296) :
    (printRecord line len).length = lengthWith line len := by
  rw [printRecord, Nat.mod_eq_of_lt hlen, List.length_append]
  rfl

/-- What holds of the length at the beginning of every round. -/
structure Rising (line : Bytes) (len : ℕ) : Prop where
  le_lengthWith : len ≤ lengthWith line len
  le_intMax : len ≤ 2147483648

theorem rising_start (hline : line.length ≤ 2147483647) : Rising line (line.length + 1) where
  le_lengthWith := by
    have hpos := digitCount_pos (line.length + 1)
    unfold lengthWith
    omega
  le_intMax := by omega

theorem Rising.again (hrising : Rising line len) (h : asprintfIn memory (printRecord line len) = some record)
    (hlen : record.length ≠ len) :
    Rising line record.length ∧ len < record.length ∧ record.length = lengthWith line len := by
  obtain ⟨rfl, hfits⟩ := asprintfIn_eq_some h
  have hbound := hrising.le_intMax
  have hlength : (printRecord line len).length = lengthWith line len := length_printRecord line (by omega)
  have hle : len ≤ (printRecord line len).length := hlength ▸ hrising.le_lengthWith
  refine ⟨⟨?_, by omega⟩, by omega, hlength⟩
  calc
    (printRecord line len).length = lengthWith line len := hlength
    _ ≤ lengthWith line (printRecord line len).length := lengthWith_mono line hle

theorem Rising.returns (memory : Bytes → Bool) (hrising : Rising line len) :
    ∃ r, CreateRecordLoop memory line len r := by
  -- every round that goes on takes the length nearer to the largest one that `asprintf` can return
  induction hrest : 2147483648 - len using Nat.strong_induction_on generalizing len with
  | _ rest ih =>
      cases hprint : asprintfIn memory (printRecord line len) with
      | none => exact ⟨none, .null hprint⟩
      | some record =>
          by_cases hlen : record.length = len
          · exact ⟨some record, .stable hprint hlen⟩
          · obtain ⟨hnext, hlt, -⟩ := hrising.again hprint hlen
            have hle := hnext.le_intMax
            obtain ⟨r, hr⟩ := ih (2147483648 - record.length) (by omega) hnext rfl
            exact ⟨r, .again hprint hlen hr⟩

theorem CreateRecordLoop.right (hloop : CreateRecordLoop memory line len (some record))
    (hrising : Rising line len) :
    record = printPadded 10 1 record.length ++ line ∧
      ∀ n, lengthWith line n = n → len ≤ n → record.length ≤ n := by
  generalize hr : some record = r at hloop
  induction hloop with
  | null h => exact nomatch hr
  | stable h hlen =>
      obtain rfl := Option.some.inj hr
      obtain ⟨hrecord, -⟩ := asprintfIn_eq_some h
      have hbound := hrising.le_intMax
      refine ⟨?_, fun n _ hle => hlen ▸ hle⟩
      rw [printRecord, Nat.mod_eq_of_lt (by omega)] at hrecord
      rw [hlen]
      exact hrecord
  | again h hlen _ ih =>
      obtain ⟨hnext, -, hlength⟩ := hrising.again h hlen
      obtain ⟨hrecord, hleast⟩ := ih hnext hr
      refine ⟨hrecord, ?_⟩
      intro n hfix hle
      -- a length that is right is not below what the round prints, since more digits make it no shorter
      refine hleast n hfix ?_
      rw [hlength, ← hfix]
      exact lengthWith_mono line hle

theorem CreateRecordLoop.unique (h : CreateRecordLoop memory line len r)
    (h' : CreateRecordLoop memory line len r') : r = r' := by
  induction h with
  | null hprint =>
      cases h' with
      | null => rfl
      | stable hprint' => exact nomatch hprint.symm.trans hprint'
      | again hprint' => exact nomatch hprint.symm.trans hprint'
  | stable hprint hlen =>
      cases h' with
      | null hprint' => exact nomatch hprint.symm.trans hprint'
      | stable hprint' => exact hprint.symm.trans hprint'
      | again hprint' hlen' =>
          obtain rfl := Option.some.inj (hprint.symm.trans hprint')
          exact absurd hlen hlen'
  | again hprint hlen _ ih =>
      cases h' with
      | null hprint' => exact nomatch hprint.symm.trans hprint'
      | stable hprint' hlen' =>
          obtain rfl := Option.some.inj (hprint.symm.trans hprint')
          exact absurd hlen' hlen
      | again hprint' _ hrest' =>
          obtain rfl := Option.some.inj (hprint.symm.trans hprint')
          exact ih hrest'

theorem CreateRecordLoop.fails {key value : Bytes} (hloop : CreateRecordLoop memory line len none)
    (hround : RoundBegins memory key value line len) :
    ∃ n, RoundBegins memory key value line n ∧ asprintfIn memory (printRecord line n) = none := by
  generalize hr : none = r at hloop
  induction hloop with
  | null hprint => exact ⟨_, hround, hprint⟩
  | stable => exact nomatch hr
  | again hprint hlen _ ih => exact ih (hround.again hprint hlen) hr

theorem Rising.createRecordLoop {fuel : ℕ} (hrising : Rising line len) (hdigits : len ≤ line.length + 10)
    (hfuel : line.length + 11 ≤ len + fuel) :
    CreateRecordLoop (fun _ => true) line len (createRecordLoop line fuel len) := by
  induction fuel generalizing len with
  | zero => omega
  | succ fuel ih =>
      have hbound := hrising.le_intMax
      rw [Archive.createRecordLoop, Option.bind_eq_bind]
      have hasprintf : asprintf (printPadded 10 1 (len % 4294967296) ++ line) =
          asprintfIn (fun _ => true) (printRecord line len) := rfl
      rw [hasprintf]
      cases hprint : asprintfIn (fun _ => true) (printRecord line len) with
      | none => exact .null hprint
      | some record =>
          rw [Option.bind_some]
          by_cases hlen : record.length = len
          · rw [if_pos hlen]
            exact .stable hprint hlen
          · obtain ⟨hnext, hlt, hlength⟩ := hrising.again hprint hlen
            -- the length is greater after the round, and the number in front has ten digits at most
            have hcount := digitCount_le (n := len) (by omega)
            have hle : record.length ≤ line.length + 10 := by
              rw [hlength]
              unfold lengthWith
              omega
            rw [if_neg hlen]
            exact .again hprint hlen (ih hnext hle (by omega))

end Loop

/-! ## Every key and value -/

variable {memory : Bytes → Bool} {key value record : Bytes} {r r' : Option Bytes}

theorem CreateRecord.returns (memory : Bytes → Bool) (key value : Bytes) :
    ∃ r, CreateRecord memory key value r := by
  cases hprint : asprintfIn memory (recordLine key value) with
  | none => exact ⟨none, .null hprint⟩
  | some line =>
      obtain ⟨rfl, hfits⟩ := asprintfIn_eq_some hprint
      obtain ⟨r, hr⟩ := (rising_start hfits).returns memory
      exact ⟨r, .loop hprint hr⟩

theorem CreateRecord.unique (h : CreateRecord memory key value r) (h' : CreateRecord memory key value r') :
    r = r' := by
  cases h with
  | null hprint =>
      cases h' with
      | null => rfl
      | loop hprint' => exact nomatch hprint.symm.trans hprint'
  | loop hprint hloop =>
      cases h' with
      | null hprint' => exact nomatch hprint.symm.trans hprint'
      | loop hprint' hloop' =>
          obtain rfl := Option.some.inj (hprint.symm.trans hprint')
          exact hloop.unique hloop'

theorem CreateRecord.least (h : CreateRecord memory key value (some record)) :
    record = printPadded 10 1 record.length ++ recordLine key value ∧
      ∀ n, lengthWith (recordLine key value) n = n → record.length ≤ n := by
  cases h with
  | loop hprint hloop =>
      obtain ⟨rfl, hfits⟩ := asprintfIn_eq_some hprint
      obtain ⟨hrecord, hleast⟩ := hloop.right (rising_start hfits)
      refine ⟨hrecord, ?_⟩
      intro n hfix
      have hpos := digitCount_pos n
      exact hleast n hfix (by unfold lengthWith at hfix; omega)

theorem recordNumber_append (n : ℕ) : recordNumber (printPadded 10 1 n ++ recordLine key value) = some n := by
  rw [recordNumber, recordLine, List.cons_append, List.cons_append, takeWhile_decimal]
  exact readDigits_printPadded (by decide) (by decide)

theorem RoundBegins.createRecord {line : Bytes} {len : ℕ} (hround : RoundBegins memory key value line len)
    (hloop : CreateRecordLoop memory line len r) : CreateRecord memory key value r := by
  induction hround with
  | first hprint => exact .loop hprint hloop
  | again _ hprint hlen ih => exact ih (.again hprint hlen hloop)

theorem RoundBegins.bounds {line : Bytes} {len : ℕ} (hround : RoundBegins memory key value line len) :
    line = recordLine key value ∧ Rising line len ∧ line.length < len ∧ len ≤ line.length + 10 := by
  induction hround with
  | first hprint =>
      obtain ⟨rfl, hfits⟩ := asprintfIn_eq_some hprint
      exact ⟨rfl, rising_start hfits, by omega, by omega⟩
  | @again record len _ hprint hlen ih =>
      obtain ⟨hline, hrising, hlt, -⟩ := ih
      obtain ⟨hnext, hgrows, hlength⟩ := hrising.again hprint hlen
      have hbound := hrising.le_intMax
      have hcount := digitCount_le (n := len) (by omega)
      refine ⟨hline, hnext, hlt.trans hgrows, ?_⟩
      rw [hlength]
      unfold lengthWith
      omega

theorem createRecord_null_iff :
    CreateRecord memory key value none ↔ asprintfIn memory (recordLine key value) = none ∨
      ∃ line len, RoundBegins memory key value line len ∧ asprintfIn memory (printRecord line len) = none := by
  constructor
  · intro h
    cases h with
    | null hprint => exact .inl hprint
    | loop hprint hloop =>
        obtain ⟨n, hround, hfails⟩ := hloop.fails (.first hprint)
        exact .inr ⟨_, n, hround, hfails⟩
  · rintro (hprint | ⟨line, len, hround, hfails⟩)
    · exact .null hprint
    · exact hround.createRecord (.null hfails)

/-- The function with its bound on the rounds, which the writer of archives uses, is the loop. -/
theorem createRecord_returns (key value : Bytes) :
    CreateRecord (fun _ => true) key value (createRecord key value) := by
  have hstart : createRecord key value = asprintfIn (fun _ => true) (recordLine key value) >>=
      fun line => createRecordLoop line 11 (line.length + 1) := rfl
  rw [hstart, Option.bind_eq_bind]
  cases hprint : asprintfIn (fun _ => true) (recordLine key value) with
  | none => exact .null hprint
  | some line =>
      obtain ⟨rfl, hfits⟩ := asprintfIn_eq_some hprint
      rw [Option.bind_some]
      exact .loop hprint ((rising_start hfits).createRecordLoop (by omega) (by omega))

/-- `create_record` returns, whatever it is called for.  The number at the start of a record is the length
of the whole record.  There is no record exactly if one of the strings that the loop prints cannot be printed,
so there is one wherever the line can be printed, alone and behind a number of ten digits at most. -/
theorem createRecord_right (memory : Bytes → Bool) (key value : Bytes) :
    (∃! r, CreateRecord memory key value r) ∧
      (∀ record, CreateRecord memory key value (some record) →
        recordNumber record = some record.length ∧
          record = printPadded 10 1 record.length ++ recordLine key value) ∧
      (CreateRecord memory key value none ↔ asprintfIn memory (recordLine key value) = none ∨
        ∃ line len, RoundBegins memory key value line len ∧
          asprintfIn memory (printRecord line len) = none) ∧
      (asprintfIn memory (recordLine key value) ≠ none →
        (∀ len, (recordLine key value).length < len → len ≤ (recordLine key value).length + 10 →
          asprintfIn memory (printRecord (recordLine key value) len) ≠ none) →
        ∃ record, CreateRecord memory key value (some record)) := by
  obtain ⟨r, hr⟩ := CreateRecord.returns memory key value
  refine ⟨⟨r, hr, fun r' hr' => hr'.unique hr⟩, ?_, createRecord_null_iff, ?_⟩
  · intro record hrecord
    obtain ⟨hform, -⟩ := hrecord.least
    refine ⟨?_, hform⟩
    calc
      recordNumber record = recordNumber (printPadded 10 1 record.length ++ recordLine key value) :=
        congrArg recordNumber hform
      _ = some record.length := recordNumber_append record.length
  · intro hline hrounds
    cases r with
    | some record => exact ⟨record, hr⟩
    | none =>
        obtain hfails | ⟨line, len, hround, hfails⟩ := createRecord_null_iff.mp hr
        · exact absurd hfails hline
        · obtain ⟨rfl, -, hlt, hle⟩ := hround.bounds
          exact absurd hfails (hrounds len hlt hle)

end Archive
end Mkfli4l
