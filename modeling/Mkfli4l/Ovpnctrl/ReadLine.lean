import Mathlib.Logic.Relation
import Mkfli4l.Lib.Buffers

/-!
# Lines from the management console

`ovpnctrl` reads what OpenVPN's management console sends in pieces of any size, and takes the lines from
what it has collected.  The first one is skipped, every other one is printed and matched against a regular
expression that tells the end of the answer.

Three things can go wrong when a line is taken: it has exactly as many characters as the buffer of the
caller, it is empty and is mistaken for an error, or the rest that is moved to the front of the buffer is
taken to be two characters longer than it is while there are not so many behind it.  `readsLines_calm` says
that nothing else can.
-/

namespace Mkfli4l
namespace Ovpnctrl

open Lib Relation

/-! ## The program -/

def mybuf : ℕ := 512

/-- How the program ends. -/
inductive Exit
  | matched
  | readlineFailed
  | sendCmdFailed
deriving DecidableEq

/-- Where the program waits for a line: the help line, or a line of the answer. -/
inductive Phase
  | help
  | answer
  | ended (exitcode : Exit)
deriving DecidableEq

/-- Why `read_line` returns -1. -/
inductive Failure
  | read
  | tooLong
deriving DecidableEq

/-- The two buffers, what the console has still to send, the lines that `read_line` has returned and those
that have been printed, and why `read_line` has failed if it has. -/
structure State where
  oldbuff : Buffer (mybuf * 2)
  buff : Buffer mybuf
  rest : CString
  phase : Phase
  delivered : List CString
  printed : List CString
  failure : Option Failure

/-- `strstr` for the end of a line: what is before it, and what is behind it. -/
def cutLine : CString → Option (CString × CString)
  | [] => none
  | '\r' :: '\n' :: s => some ([], s)
  | c :: s => (cutLine s).map fun (line, rest) => (c :: line, rest)

/-- What happens next: `read` returns some characters, it fails, or a line is taken; the command is sent
behind the help line, or that fails. -/
inductive Event
  | read (n : ℕ)
  | failed
  | line (sent : Bool)

namespace State

variable (eoc : CString → Bool) (s : State)

/-- The characters that have been collected. -/
def text : CString := s.oldbuff.text

/-- `strlen (oldbuff)`. -/
def offset : ℕ := s.text.length

/-- The event is possible: there is a line to be taken, or `read` is called, and returns no more characters
than there is room for. -/
def Enabled : Event → Prop
  | .read n => (∀ e, s.phase ≠ .ended e) ∧ cutLine s.text = none ∧
      1 ≤ n ∧ n ≤ mybuf * 2 - s.offset - 1 ∧ n ≤ s.rest.length
  | .failed => (∀ e, s.phase ≠ .ended e) ∧ cutLine s.text = none
  | .line _ => (∀ e, s.phase ≠ .ended e) ∧ cutLine s.text ≠ none

/-- What `main` does with the result of `read_line`.  `eoc` tells the end of the answer. -/
def mainStep (sent : Bool) (bufflen : ℕ) : State :=
  match s.phase with
  | .help =>
      if 0 < bufflen then { s with phase := if sent then .answer else .ended .sendCmdFailed }
      else { s with phase := .ended .readlineFailed }
  | .answer =>
      if 0 < bufflen then
        { s with
          printed := s.printed ++ [s.buff.text]
          phase := if eoc s.buff.text then .ended .matched else .answer }
      else { s with phase := .ended .readlineFailed }
  | .ended _ => s

/-- The part of `read_line` behind the search for the end of a line, which begins after `bufflen`
characters. -/
def takeLine (sent : Bool) (bufflen : ℕ) : Option State :=
  (s.oldbuff.store bufflen ['\x00']).bind fun oldbuff =>
    if mybuf < bufflen then some { s with oldbuff, phase := .ended .readlineFailed, failure := some .tooLong }
    else
      (s.buff.store 0 (oldbuff.text ++ ['\x00'])).bind fun buff =>
        (oldbuff.moveFront (bufflen + 2) (s.offset - bufflen + 1)).map fun oldbuff =>
          mainStep eoc { s with oldbuff, buff, delivered := s.delivered ++ [buff.text] } sent bufflen

/-- A step of the program; there is no state after it if it leaves a buffer. -/
def step : Event → Option State
  | .read n =>
      (s.oldbuff.store s.offset (s.rest.take n ++ ['\x00'])).map fun oldbuff =>
        { s with oldbuff, rest := s.rest.drop n }
  | .failed => some { s with phase := .ended .readlineFailed, failure := some .read }
  | .line sent => (cutLine s.text).bind fun (line, _) => s.takeLine eoc sent line.length

/-- The program before the first call of `read_line`. -/
def start (buff : Buffer mybuf) (stream : CString) : State where
  oldbuff := ⟨List.replicate (mybuf * 2) '\x00', List.length_replicate⟩
  buff := buff
  rest := stream
  phase := .help
  delivered := []
  printed := []
  failure := none

end State

/-! ## What it is for -/

theorem cutLine_lt {s line rest : CString} (h : cutLine s = some (line, rest)) : rest.length < s.length := by
  fun_induction cutLine s generalizing line with
  | case1 => exact nomatch h
  | case2 s =>
      obtain ⟨-, rfl⟩ := Prod.mk.inj (Option.some.inj h)
      simp only [List.length_cons]
      omega
  | case3 c s _ ih =>
      obtain ⟨⟨line', rest'⟩, hcut, hpair⟩ := Option.map_eq_some_iff.mp h
      obtain ⟨-, rfl⟩ := Prod.mk.inj hpair
      exact Nat.lt_succ_of_lt (ih hcut)

/-- The lines of a stream. -/
def lines (s : CString) : List CString :=
  match _h : cutLine s with
  | none => []
  | some (line, rest) => line :: lines rest
termination_by s.length
decreasing_by exact cutLine_lt _h

/-- What is promised for a stream: the lines are delivered in order, up to the end of the stream or to one
that is too long; those behind the help line are printed up to the one that ends the answer; and the program
takes nothing for a failure that is none. -/
structure Law (eoc : CString → Bool) (stream : CString) (s : State) : Prop where
  delivered : ∃ more, lines stream = s.delivered ++ more ∧
    (s.failure = some .read → s.rest = [] → more = []) ∧
    (s.failure = some .tooLong → ∃ line, more.head? = some line ∧ mybuf < line.length)
  printed : s.printed = s.delivered.tail
  ends : s.phase = .ended .matched ↔ ∃ line ∈ s.printed, eoc line = true
  last : ∀ line ∈ s.printed.dropLast, eoc line = false
  fails : s.phase = .ended .readlineFailed ↔ s.failure ≠ none

/-! ## When it is kept -/

/-- A line is taken that is not empty, is shorter than the buffer of the caller unless it is too long for
it, and does not come with so much behind it that the buffer is full but for one character. -/
def State.Calm (s : State) : Event → Prop
  | .line _ => ∀ line rest, cutLine s.text = some (line, rest) → line.length ≤ mybuf →
      line ≠ [] ∧ line.length < mybuf ∧ s.offset + 2 < mybuf * 2
  | _ => True

/-- A step of a calm run. -/
def CalmStep (eoc : CString → Bool) (s s' : State) : Prop := ∃ e, s.Enabled e ∧ s.Calm e ∧ s.step eoc e = some s'

variable {eoc : CString → Bool} {s s' : State} {stream line rest : CString} {e : Event}

/-! ### Lines of a stream -/

theorem lines_of_none (h : cutLine stream = none) : lines stream = [] := by
  rw [lines]
  split
  · rfl
  · next hsome => exact nomatch h.symm.trans hsome

theorem lines_of_some (h : cutLine stream = some (line, rest)) : lines stream = line :: lines rest := by
  rw [lines]
  split
  · next hnone => exact nomatch h.symm.trans hnone
  · next hsome =>
    obtain ⟨rfl, rfl⟩ := Prod.mk.inj (Option.some.inj (h.symm.trans hsome))
    rfl

theorem cutLine_eq {text : CString} (h : cutLine text = some (line, rest)) :
    text = line ++ '\r' :: '\n' :: rest := by
  fun_induction cutLine text generalizing line with
  | case1 => exact nomatch h
  | case2 s =>
      obtain ⟨rfl, rfl⟩ := Prod.mk.inj (Option.some.inj h)
      rfl
  | case3 c s _ ih =>
      obtain ⟨⟨line', rest'⟩, hcut, hpair⟩ := Option.map_eq_some_iff.mp h
      obtain ⟨rfl, rfl⟩ := Prod.mk.inj hpair
      rw [ih hcut, List.cons_append]

theorem cutLine_append {text : CString} (h : cutLine text = some (line, rest)) (more : CString) :
    cutLine (text ++ more) = some (line, rest ++ more) := by
  fun_induction cutLine text generalizing line with
  | case1 => exact nomatch h
  | case2 s =>
      obtain ⟨rfl, rfl⟩ := Prod.mk.inj (Option.some.inj h)
      rfl
  | case3 c s hend ih =>
      obtain ⟨⟨line', rest'⟩, hcut, hpair⟩ := Option.map_eq_some_iff.mp h
      obtain ⟨rfl, rfl⟩ := Prod.mk.inj hpair
      rw [List.cons_append, cutLine, ih hcut, Option.map_some]
      intro s' hc hs'
      -- the second character of a line end would have been there before
      cases s with
      | nil => exact nomatch hcut
      | cons d s =>
          obtain ⟨rfl, -⟩ := List.cons.inj hs'
          exact hend s hc rfl

theorem cutLine_line (hnoCr : '\r' ∉ line) (rest : CString) :
    cutLine (line ++ '\r' :: '\n' :: rest) = some (line, rest) := by
  induction line with
  | nil => rfl
  | cons c line ih =>
      have hc : c ≠ '\r' := fun heq => hnoCr (heq ▸ List.mem_cons_self)
      rw [List.cons_append, cutLine, ih fun hmem => hnoCr (List.mem_cons_of_mem c hmem), Option.map_some]
      exact fun s' hcr => absurd hcr hc

/-! ### The invariant -/

/-- What holds in every state of a calm run. -/
structure Inv (eoc : CString → Bool) (stream : CString) (s : State) : Prop where
  noNul : '\x00' ∉ s.rest
  terminated : '\x00' ∈ s.oldbuff.chars
  lines_eq : s.failure ≠ some .tooLong → lines stream = s.delivered ++ lines (s.text ++ s.rest)
  read : s.failure = some .read → cutLine s.text = none
  tooLong : s.failure = some .tooLong → ∃ more, lines stream = s.delivered ++ more ∧
    ∃ line, more.head? = some line ∧ mybuf < line.length
  printed : s.printed = s.delivered.tail
  ends : s.phase = .ended .matched ↔ ∃ line ∈ s.printed, eoc line = true
  last : ∀ line ∈ s.printed.dropLast, eoc line = false
  fails : s.phase = .ended .readlineFailed ↔ s.failure ≠ none
  help : s.phase = .help → s.delivered = []
  answer : s.phase = .answer → s.delivered ≠ []

theorem Inv.law (h : Inv eoc stream s) : Law eoc stream s := by
  refine ⟨?_, h.printed, h.ends, h.last, h.fails⟩
  by_cases hlong : s.failure = some .tooLong
  · obtain ⟨more, hlines, hhead⟩ := h.tooLong hlong
    refine ⟨more, hlines, ?_, fun _ => hhead⟩
    intro hread
    rw [hlong] at hread
    exact nomatch hread
  · refine ⟨_, h.lines_eq hlong, ?_, fun hfailure => absurd hfailure hlong⟩
    intro hread hrest
    rw [hrest, List.append_nil, lines_of_none (h.read hread)]

theorem start_inv (buff : Buffer mybuf) (hnoNul : '\x00' ∉ stream) :
    Inv eoc stream (State.start buff stream) := by
  have htext : (State.start buff stream).text = [] := rfl
  refine ⟨hnoNul, List.mem_replicate.mpr ⟨by decide, rfl⟩, fun _ => ?_, nofun, nofun, rfl, ?_, nofun, ?_,
    fun _ => rfl, nofun⟩
  · rw [htext]
    rfl
  · simp [State.start]
  · simp [State.start]

theorem Inv.offset_lt (h : Inv eoc stream s) : s.offset < mybuf * 2 := by
  obtain ⟨rest, hchars⟩ := Buffer.chars_eq h.terminated
  have hlength := congrArg List.length hchars
  rw [s.oldbuff.length_chars, List.length_append, List.length_cons] at hlength
  unfold State.offset State.text
  omega

theorem Inv.take_offset (h : Inv eoc stream s) : s.oldbuff.chars.take s.offset = s.text := by
  obtain ⟨rest, hchars⟩ := Buffer.chars_eq h.terminated
  rw [hchars]
  exact List.take_left

/-! ### The steps -/

theorem Inv.running (h : Inv eoc stream s) (hrunning : ∀ e, s.phase ≠ .ended e) :
    s.failure = none ∧ (¬ ∃ line ∈ s.printed, eoc line = true) ∧
      lines stream = s.delivered ++ lines (s.text ++ s.rest) := by
  have hfailure : s.failure = none := by
    by_contra hfailure
    exact hrunning _ (h.fails.mpr hfailure)
  refine ⟨hfailure, fun hex => hrunning _ (h.ends.mpr hex), h.lines_eq ?_⟩
  rw [hfailure]
  nofun

theorem Inv.read_step {n : ℕ} (h : Inv eoc stream s) (henabled : s.Enabled (.read n)) :
    ∃ s', s.step eoc (.read n) = some s' ∧ Inv eoc stream s' := by
  obtain ⟨hrunning, hcut, hpos, hroom, hrest⟩ := henabled
  have hlt := h.offset_lt
  have hlength : (s.rest.take n).length = n := List.length_take_of_le hrest
  have hbytes : '\x00' ∉ s.rest.take n := fun hmem => h.noNul (List.mem_of_mem_take hmem)
  obtain ⟨oldbuff, hstore⟩ := Buffer.store_isSome s.oldbuff s.offset (s.rest.take n ++ ['\x00']) (by
      rw [List.length_append, hlength, List.length_singleton]
      omega)
  have htext : oldbuff.text = s.text ++ s.rest.take n := by
    have hfront := h.take_offset
    rw [← hfront]
    exact Buffer.text_store hstore (hfront ▸ s.oldbuff.noNul_text) hbytes
  obtain ⟨hfailure, -, hlines⟩ := h.running hrunning
  refine ⟨{ s with oldbuff, rest := s.rest.drop n }, by rw [State.step, hstore]; rfl, ?_⟩
  refine ⟨fun hmem => h.noNul (List.mem_of_mem_drop hmem), ?_, ?_, ?_, ?_, h.printed, h.ends, h.last, h.fails,
    h.help, h.answer⟩
  · rw [Buffer.chars_store hstore]
    simp
  · intro _
    show lines stream = s.delivered ++ lines (oldbuff.text ++ s.rest.drop n)
    rw [htext, List.append_assoc, List.take_append_drop]
    exact hlines
  · intro hread
    exact nomatch hfailure.symm.trans hread
  · intro hlong
    exact nomatch hfailure.symm.trans hlong

theorem Inv.failed_step (h : Inv eoc stream s) (henabled : s.Enabled .failed) :
    ∃ s', s.step eoc .failed = some s' ∧ Inv eoc stream s' := by
  obtain ⟨hrunning, hcut⟩ := henabled
  obtain ⟨-, hnone, hlines⟩ := h.running hrunning
  refine ⟨_, rfl, ⟨h.noNul, h.terminated, ?_, fun _ => hcut, nofun, h.printed, ?_, h.last, ?_, nofun, nofun⟩⟩
  · exact fun _ => hlines
  · exact iff_of_false nofun hnone
  · exact iff_of_true rfl nofun

theorem Inv.terminate (h : Inv eoc stream s) (hcut : cutLine s.text = some (line, rest)) :
    ∃ oldbuff after, s.oldbuff.store line.length ['\x00'] = some oldbuff ∧ oldbuff.text = line ∧
      oldbuff.chars.drop (line.length + 2) = rest ++ '\x00' :: after := by
  have heq := cutLine_eq hcut
  have hlt := h.offset_lt
  have hlength : s.offset = line.length + 2 + rest.length := by
    rw [State.offset, heq, List.length_append, List.length_cons, List.length_cons]
    omega
  obtain ⟨after, hchars⟩ := Buffer.chars_eq h.terminated
  change s.oldbuff.chars = s.text ++ '\x00' :: after at hchars
  rw [heq, List.append_assoc] at hchars
  obtain ⟨oldbuff, hstore⟩ := Buffer.store_isSome s.oldbuff line.length ['\x00'] (by
    rw [List.length_singleton]
    omega)
  have hnoNul : '\x00' ∉ line := fun hmem =>
    s.oldbuff.noNul_text (heq ▸ List.mem_append_left _ hmem : '\x00' ∈ s.text)
  have hafter : oldbuff.chars = line ++ '\x00' :: '\n' :: (rest ++ '\x00' :: after) := by
    rw [Buffer.chars_store hstore, hchars, List.take_left, List.length_singleton, List.drop_append]
    simp
  refine ⟨oldbuff, after, hstore, Buffer.text_of_prefix hafter hnoNul, ?_⟩
  rw [hafter, List.drop_append]
  simp

theorem Inv.takeLine_long (h : Inv eoc stream s) (hcut : cutLine s.text = some (line, rest)) (sent : Bool)
    (hlong : mybuf < line.length) :
    ∃ oldbuff, '\x00' ∈ oldbuff.chars ∧ s.takeLine eoc sent line.length =
      some { s with oldbuff, phase := .ended .readlineFailed, failure := some .tooLong } := by
  obtain ⟨oldbuff, after, hstore, -, -⟩ := h.terminate hcut
  refine ⟨oldbuff, ?_, ?_⟩
  · rw [Buffer.chars_store hstore]
    simp
  · rw [State.takeLine, hstore, Option.bind_some, if_pos hlong]

theorem Inv.takeLine_eq (h : Inv eoc stream s) (hcut : cutLine s.text = some (line, rest)) (sent : Bool)
    (hshort : line.length < mybuf) (hroom : s.offset + 2 < mybuf * 2) :
    ∃ oldbuff buff, '\x00' ∈ oldbuff.chars ∧ oldbuff.text = rest ∧ buff.text = line ∧
      s.takeLine eoc sent line.length =
        some (State.mainStep eoc { s with oldbuff, buff, delivered := s.delivered ++ [line] }
          sent line.length) := by
  have heq := cutLine_eq hcut
  have hlength : s.offset = line.length + 2 + rest.length := by
    rw [State.offset, heq, List.length_append, List.length_cons, List.length_cons]
    omega
  obtain ⟨oldbuff, after, hstore, htext, hafter⟩ := h.terminate hcut
  have hline : '\x00' ∉ line := htext ▸ oldbuff.noNul_text
  -- the old length is moved, from behind the line end: two characters more than there are
  have hrest : '\x00' ∉ rest := fun hmem =>
    s.oldbuff.noNul_text (heq ▸ List.mem_append_right _ (by simp [hmem]) : '\x00' ∈ s.text)
  obtain ⟨buff, hcopy⟩ := Buffer.store_isSome s.buff 0 (line ++ ['\x00']) (by
    rw [List.length_append, List.length_singleton]
    omega)
  have hbuff : buff.text = line := Buffer.text_store hcopy List.not_mem_nil hline
  have hmove : ∃ moved, oldbuff.moveFront (line.length + 2) (s.offset - line.length + 1) = some moved ∧
      ∃ more, moved.chars = rest ++ '\x00' :: more := by
    refine ⟨_, dif_pos (by omega), after.take 2 ++ oldbuff.chars.drop (s.offset - line.length + 1), ?_⟩
    have hlen : s.offset - line.length + 1 = rest.length + 3 := by omega
    dsimp only
    rw [hafter, hlen, List.take_length_add_append]
    simp
  obtain ⟨moved, hmoved, more, hchars⟩ := hmove
  refine ⟨moved, buff, ?_, Buffer.text_of_prefix hchars hrest, hbuff, ?_⟩
  · rw [hchars]
    simp
  · rw [State.takeLine, hstore, Option.bind_some, if_neg (by omega), htext, hcopy, Option.bind_some, hmoved,
      Option.map_some, hbuff]

theorem Inv.takeLine_fault (h : Inv eoc stream s) (hcut : cutLine s.text = some (line, rest)) (sent : Bool)
    (hle : line.length ≤ mybuf) (hfault : line.length = mybuf ∨ mybuf * 2 ≤ s.offset + 2) :
    s.takeLine eoc sent line.length = none := by
  have heq := cutLine_eq hcut
  have hlength : s.offset = line.length + 2 + rest.length := by
    rw [State.offset, heq, List.length_append, List.length_cons, List.length_cons]
    omega
  obtain ⟨oldbuff, after, hstore, htext, -⟩ := h.terminate hcut
  rw [State.takeLine, hstore, Option.bind_some, if_neg (by omega), htext]
  by_cases hfull : line.length = mybuf
  · rw [Buffer.store_eq_none (by
      rw [List.length_append, List.length_singleton]
      omega), Option.bind_none]
  · have hroom : mybuf * 2 ≤ s.offset + 2 := hfault.resolve_left hfull
    have hmove : oldbuff.moveFront (line.length + 2) (s.offset - line.length + 1) = none := dif_neg (by omega)
    rw [hmove]
    cases s.buff.store 0 (line ++ ['\x00']) with
    | none => rfl
    | some buff => rfl

/-- `main` with a line that is not empty. -/
theorem Inv.mainStep (h : Inv eoc stream s) (hrunning : ∀ e, s.phase ≠ .ended e)
    (hcut : cutLine s.text = some (line, rest)) (hline : line ≠ []) (sent : Bool) {oldbuff : Buffer (mybuf * 2)}
    {buff : Buffer mybuf} (hterminated : '\x00' ∈ oldbuff.chars) (holdbuff : oldbuff.text = rest)
    (hbuff : buff.text = line) :
    Inv eoc stream
      (State.mainStep eoc { s with oldbuff, buff, delivered := s.delivered ++ [line] } sent line.length) := by
  have hpos : 0 < line.length := List.length_pos_of_ne_nil hline
  obtain ⟨hfailure, hnone, hbefore⟩ := h.running hrunning
  have hlines : lines stream = (s.delivered ++ [line]) ++ lines (rest ++ s.rest) := by
    rw [hbefore, lines_of_some (cutLine_append hcut s.rest), List.append_assoc]
    rfl
  unfold State.mainStep
  -- the first line is the help line, which is not printed; every other one is printed and matched
  cases hphase : s.phase with
  | ended e => exact absurd hphase (hrunning e)
  | help =>
      have hdelivered := h.help hphase
      have hprinted : s.printed = [] := by rw [h.printed, hdelivered]; rfl
      dsimp only
      rw [if_pos hpos]
      refine ⟨h.noNul, hterminated, ?_, ?_, ?_, ?_, ?_, h.last, ?_, ?_, ?_⟩
      · intro _
        rw [State.text]
        exact holdbuff ▸ hlines
      · intro hread
        exact nomatch hfailure.symm.trans hread
      · intro hlong
        exact nomatch hfailure.symm.trans hlong
      · show s.printed = (s.delivered ++ [line]).tail
        rw [hprinted, hdelivered]
        rfl
      · refine iff_of_false ?_ hnone
        cases sent <;> nofun
      · refine iff_of_false ?_ (not_not.mpr hfailure)
        cases sent <;> nofun
      · cases sent <;> nofun
      · intro _
        simp
  | answer =>
      have hdelivered := h.answer hphase
      have hfalse : ∀ line' ∈ s.printed, eoc line' = false := by
        intro line' hmem
        by_contra htrue
        exact hnone ⟨line', hmem, by simpa using htrue⟩
      dsimp only
      rw [if_pos hpos, hbuff]
      refine ⟨h.noNul, hterminated, ?_, ?_, ?_, ?_, ?_, ?_, ?_, ?_, ?_⟩
      · intro _
        rw [State.text]
        exact holdbuff ▸ hlines
      · intro hread
        exact nomatch hfailure.symm.trans hread
      · intro hlong
        exact nomatch hfailure.symm.trans hlong
      · show s.printed ++ [line] = (s.delivered ++ [line]).tail
        rw [h.printed, List.tail_append_of_ne_nil hdelivered]
      · show (if eoc line then Phase.ended .matched else .answer) = .ended .matched ↔
          ∃ line' ∈ s.printed ++ [line], eoc line' = true
        cases hend : eoc line with
        | true => exact iff_of_true rfl ⟨line, by simp, hend⟩
        | false =>
            refine iff_of_false nofun ?_
            rintro ⟨line', hmem, htrue⟩
            rcases List.mem_append.mp hmem with hmem | hmem
            · exact hnone ⟨line', hmem, htrue⟩
            · rw [List.mem_singleton.mp hmem, hend] at htrue
              exact nomatch htrue
      · rw [List.dropLast_concat]
        exact hfalse
      · refine iff_of_false ?_ (not_not.mpr hfailure)
        cases eoc line <;> nofun
      · cases eoc line <;> nofun
      · intro _
        simp

/-- A calm step leaves no buffer, and keeps the invariant. -/
theorem Inv.step (h : Inv eoc stream s) (henabled : s.Enabled e) (hcalm : s.Calm e) :
    ∃ s', s.step eoc e = some s' ∧ Inv eoc stream s' := by
  cases e with
  | read n => exact h.read_step henabled
  | failed => exact h.failed_step henabled
  | line sent =>
      obtain ⟨hrunning, hsome⟩ := henabled
      obtain ⟨⟨line, rest⟩, hcut⟩ := Option.ne_none_iff_exists'.mp hsome
      have hstep : s.step eoc (.line sent) = s.takeLine eoc sent line.length := by
        rw [State.step, hcut, Option.bind_some]
      rw [hstep]
      by_cases hle : line.length ≤ mybuf
      · obtain ⟨hne, hlt, hroom⟩ := hcalm line rest hcut hle
        obtain ⟨oldbuff, buff, hterminated, holdbuff, hbuff, htake⟩ := h.takeLine_eq hcut sent hlt hroom
        exact ⟨_, htake, h.mainStep hrunning hcut hne sent hterminated holdbuff hbuff⟩
      · -- a line that is too long is not delivered, and `main` ends
        have hlong : mybuf < line.length := not_le.mp hle
        obtain ⟨-, hnone, hlines⟩ := h.running hrunning
        obtain ⟨oldbuff, hterminated, htake⟩ := h.takeLine_long hcut sent hlong
        refine ⟨_, htake, ⟨h.noNul, hterminated, ?_, nofun, ?_, h.printed, ?_, h.last, ?_, nofun, nofun⟩⟩
        · exact fun hne => absurd rfl hne
        · intro _
          refine ⟨_, hlines, line, ?_, hlong⟩
          rw [lines_of_some (cutLine_append hcut s.rest)]
          rfl
        · exact iff_of_false nofun hnone
        · exact iff_of_true rfl nofun

theorem calm_line (line rest : CString) (hcut : cutLine s.text = some (line, rest)) (sent : Bool)
    (h : line.length ≤ mybuf → line ≠ [] ∧ line.length < mybuf ∧ s.offset + 2 < mybuf * 2) :
    s.Calm (.line sent) := by
  intro line' rest' hcut'
  obtain ⟨rfl, rfl⟩ := Prod.mk.inj (Option.some.inj (hcut.symm.trans hcut'))
  exact h

theorem mainStep_empty (eoc : CString → Bool) (s : State) (hrunning : ∀ e, s.phase ≠ .ended e) (sent : Bool) :
    (s.mainStep eoc sent 0).phase = .ended .readlineFailed ∧ (s.mainStep eoc sent 0).failure = s.failure := by
  unfold State.mainStep
  cases hphase : s.phase with
  | ended e => exact absurd hphase (hrunning e)
  | help => exact ⟨rfl, rfl⟩
  | answer => exact ⟨rfl, rfl⟩

theorem Inv.wild_step (h : Inv eoc stream s) (henabled : s.Enabled e) (hwild : ¬ s.Calm e) :
    s.step eoc e = none ∨ ∃ s', s.step eoc e = some s' ∧ ¬ Law eoc stream s' := by
  cases e with
  | read n => exact absurd trivial hwild
  | failed => exact absurd trivial hwild
  | line sent =>
      obtain ⟨hrunning, hsome⟩ := henabled
      obtain ⟨⟨line, rest⟩, hcut⟩ := Option.ne_none_iff_exists'.mp hsome
      have hstep : s.step eoc (.line sent) = s.takeLine eoc sent line.length := by
        rw [State.step, hcut, Option.bind_some]
      obtain ⟨hle, hbad⟩ := Classical.not_imp.mp fun hcalm => hwild (calm_line line rest hcut sent hcalm)
      rw [hstep]
      by_cases hfault : line.length = mybuf ∨ mybuf * 2 ≤ s.offset + 2
      · exact .inl (h.takeLine_fault hcut sent hle hfault)
      · obtain ⟨hne, hroom⟩ := not_or.mp hfault
        have hempty : line = [] := by
          by_contra hline
          exact hbad ⟨hline, by omega, by omega⟩
        obtain ⟨oldbuff, buff, -, -, hbuff, htake⟩ := h.takeLine_eq hcut sent (by omega) (by omega)
        refine .inr ⟨_, htake, ?_⟩
        obtain ⟨hfailure, -, -⟩ := h.running hrunning
        -- `main` takes the empty line for a failed read
        rw [hempty]
        intro hlaw
        obtain ⟨hphase, hsame⟩ :=
          mainStep_empty eoc { s with oldbuff, buff, delivered := s.delivered ++ [[]] } hrunning sent
        exact hlaw.fails.mp hphase (hsame.trans hfailure)

/-- In a run without lines that are empty or just as long as the buffer, and without a full buffer when a
line is taken, every promise is kept.  The first step that is not of this kind breaks one. -/
theorem readsLines_calm (buff : Buffer mybuf) (hnoNul : '\x00' ∉ stream)
    (h : ReflTransGen (CalmStep eoc) (State.start buff stream) s) :
    Law eoc stream s ∧ (∀ e, s.Enabled e → s.Calm e → ∃ s', s.step eoc e = some s') ∧
      ∀ e, s.Enabled e → ¬ s.Calm e →
        s.step eoc e = none ∨ ∃ s', s.step eoc e = some s' ∧ ¬ Law eoc stream s' := by
  have hinv : Inv eoc stream s := by
    induction h with
    | refl => exact start_inv buff hnoNul
    | tail _ hstep ih =>
        obtain ⟨e, henabled, hcalm, hstep⟩ := hstep
        obtain ⟨s', hstep', hinv⟩ := ih.step henabled hcalm
        obtain rfl := Option.some.inj (hstep.symm.trans hstep')
        exact hinv
  refine ⟨hinv.law, ?_, fun e henabled hwild => hinv.wild_step henabled hwild⟩
  intro e henabled hcalm
  obtain ⟨s', hstep, -⟩ := hinv.step henabled hcalm
  exact ⟨s', hstep⟩

/-- The caller's buffer before anything is read. -/
def someBuffer : Buffer mybuf := ⟨List.replicate mybuf 'x', List.length_replicate⟩

/-- What tells the end of an answer. -/
def atEnd (line : CString) : Bool := line = ['E']

/-- A help line and the end of an answer. -/
def shortStream : CString := ['h', '\r', '\n', 'E', '\r', '\n']

theorem readsLines_calm_end : '\x00' ∉ shortStream ∧
    ∃ s, ReflTransGen (CalmStep atEnd) (State.start someBuffer shortStream) s ∧
      s.phase = .ended .matched ∧ Law atEnd shortStream s := by
  have hrun : ∃ s, ReflTransGen (CalmStep atEnd) (State.start someBuffer shortStream) s ∧
      s.phase = .ended .matched := by
    refine ⟨_, .tail (.tail (.single ⟨.read 6, ⟨nofun, rfl, by decide, by decide, by decide⟩, trivial, rfl⟩)
      ⟨.line true, ⟨nofun, by decide +kernel⟩, ?_, rfl⟩) ⟨.line true, ⟨nofun, by decide +kernel⟩, ?_, rfl⟩, rfl⟩
    · exact calm_line ['h'] ['E', '\r', '\n'] (by decide +kernel) true (by decide +kernel)
    · exact calm_line ['E'] [] (by decide +kernel) true (by decide +kernel)
  obtain ⟨s, hrun, hend⟩ := hrun
  exact ⟨by decide, s, hrun, hend, (readsLines_calm someBuffer (by decide) hrun).1⟩

/-- A step of any run. -/
def AnyStep (eoc : CString → Bool) (s s' : State) : Prop := ∃ e, s.Enabled e ∧ s.step eoc e = some s'

theorem fullLine_fault (hnoCr : '\r' ∉ line) (hnoNul : '\x00' ∉ line) (hlength : line.length = mybuf) :
    ∃ s, ReflTransGen (AnyStep eoc) (State.start someBuffer (line ++ ['\r', '\n'])) s ∧
      s.Enabled (.line true) ∧ s.step eoc (.line true) = none := by
  have hstream : (line ++ ['\r', '\n']).length = mybuf + 2 := by
    rw [List.length_append, hlength]
    rfl
  have hnoNul' : '\x00' ∉ line ++ ['\r', '\n'] := by simp [hnoNul]
  have hstart : Inv eoc (line ++ ['\r', '\n']) (State.start someBuffer (line ++ ['\r', '\n'])) :=
    start_inv someBuffer hnoNul'
  have henabled : (State.start someBuffer (line ++ ['\r', '\n'])).Enabled (.read (mybuf + 2)) :=
    ⟨nofun, rfl, by decide, show mybuf + 2 ≤ mybuf * 2 - 0 - 1 by decide, hstream.ge⟩
  obtain ⟨s, hread, hinv⟩ := hstart.read_step henabled
  obtain ⟨oldbuff, hstore, hs⟩ := Option.map_eq_some_iff.mp hread
  have htext : s.text = line ++ ['\r', '\n'] := by
    have htake : (line ++ ['\r', '\n']).take (mybuf + 2) = line ++ ['\r', '\n'] :=
      List.take_of_length_le hstream.le
    change Buffer.store _ 0 ((line ++ ['\r', '\n']).take (mybuf + 2) ++ ['\x00']) = some oldbuff at hstore
    rw [htake] at hstore
    rw [← hs]
    exact Buffer.text_store hstore List.not_mem_nil hnoNul'
  have hcut : cutLine s.text = some (line, []) := by
    rw [htext]
    exact cutLine_line hnoCr []
  refine ⟨s, .single ⟨.read (mybuf + 2), henabled, hread⟩, ⟨?_, by rw [hcut]; nofun⟩, ?_⟩
  · rw [← hs]
    exact nofun
  · rw [State.step, hcut, Option.bind_some]
    exact hinv.takeLine_fault hcut true hlength.le (.inl hlength)

/-- An empty line behind the help line ends the program, and a line of 512 characters leaves the buffer of
the caller. -/
theorem readsLines_fails :
    (∃ s, ReflTransGen (AnyStep atEnd) (State.start someBuffer ['h', '\r', '\n', '\r', '\n']) s ∧
      ¬ Law atEnd ['h', '\r', '\n', '\r', '\n'] s) ∧
    ∃ s, ReflTransGen (AnyStep atEnd)
        (State.start someBuffer (List.replicate 512 'x' ++ ['\r', '\n'])) s ∧
      s.Enabled (.line true) ∧ s.step atEnd (.line true) = none := by
  constructor
  · refine ⟨_, .tail (.tail (.single ⟨.read 5, ⟨nofun, rfl, by decide, by decide, by decide⟩, rfl⟩)
      ⟨.line true, ⟨nofun, by decide +kernel⟩, rfl⟩) ⟨.line true, ⟨nofun, by decide +kernel⟩, rfl⟩, ?_⟩
    intro hlaw
    exact hlaw.fails.mp rfl rfl
  · refine fullLine_fault ?_ ?_ List.length_replicate
    · exact fun hmem => absurd (List.eq_of_mem_replicate hmem) (by decide)
    · exact fun hmem => absurd (List.eq_of_mem_replicate hmem) (by decide)

end Ovpnctrl
end Mkfli4l
