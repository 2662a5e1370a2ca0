import Mkfli4l.Script.Relations

/-!
# Rewriting messages in bounds

`parse_rewrite_string` (`parse.c`) with its buffers.  A cursor into the message is the rest of the
message, up to its terminating NUL; a cursor behind the NUL is `none`.  The buffer of the result is
kept as the list of the pieces that have been written to it, from which its text follows.

`parseRewriteString` is the same function as long as it stays in bounds.
-/

namespace Mkfli4l
namespace Script

open Lib

/-! ## The function with its buffers -/

/-- What ends the function early. -/
inductive Halt
  /-- The message is read behind its terminating NUL. -/
  | readBehindEnd
  /-- `var_buf` is written behind its end. -/
  | varBufOverflow
  /-- `msg_buf` is written behind its end. -/
  | msgBufOverflow
  /-- The loop takes more rounds than the caller provides for. -/
  | roundsExhausted
  /-- `fatal_exit`. -/
  | exit (e : Fatal)
deriving DecidableEq

/-- What is written to `msg_buf`: a character of the message, or the value of a name. -/
inductive Piece
  | copied (c : Char)
  | value (mark : Char) (name : CString)
deriving DecidableEq

def msgSize : ℕ := 8192

/-- A character of a name. -/
def isWordChar (c : Char) : Bool := c.isAlphanum || c == '_'

/-- `$`, `%` and `@`. -/
def isMark (c : Char) : Bool := c == '$' || c == '%' || c == '@'

/-- The inner loops, which copy a name to `var_buf`: the name and the cursor behind it. -/
def copyName : CString → CString → Except Halt (CString × CString)
  | var, [] => .ok (var, [])
  | var, c :: msg =>
      if isWordChar c then
        if var.length < varSize + 1 then copyName (var ++ [c]) msg else .error .varBufOverflow
      else .ok (var, c :: msg)

/-- The end of the name in `var_buf`, with the check of its length. -/
def closeName (var : CString) : Except Halt Unit :=
  if varSize + 1 ≤ var.length then .error .varBufOverflow
  else if varSize ≤ var.length then .error (.exit (.nameTooLong var))
  else .ok ()

/-- Does a name follow a mark? -/
def startsName : CString → Bool
  | [] => false
  | c :: _ => c.isAlpha || c == '{'

/-- Get the name behind a mark.  In front of a name in braces and behind it, the cursor is moved
without a look at the character. -/
def getName : CString → Except Halt (CString × Option CString)
  | '{' :: msg => do
      let (var, msg) ← copyName [] msg
      closeName var
      pure (var, msg.tail?)
  | msg => do
      let (var, msg) ← copyName [] msg
      closeName var
      pure (var, some msg)

section Buffers

variable (env : Env)

/-- The text of a piece. -/
def Piece.text : Piece → CString
  | copied c => [c]
  | value mark name => (lookupPrefixed env mark name).getD []

/-- The bytes that are written for a piece.  `strcat` writes a NUL behind the value. -/
def Piece.room : Piece → ℕ
  | copied _ => 1
  | value mark name => ((Piece.value mark name).text env).length + 1

/-- The text in `msg_buf`. -/
def bufferText (pieces : List Piece) : CString := pieces.flatMap (Piece.text env)

/-- Write a piece to `msg_buf`. -/
def writePiece (out : List Piece) (piece : Piece) : Except Halt (List Piece) :=
  if (bufferText env out).length + piece.room env ≤ msgSize then .ok (out ++ [piece])
  else .error .msgBufOverflow

/-- The loop of `parse_rewrite_string`. -/
def rewriteFrom : ℕ → Option CString → List Piece → Except Halt (List Piece)
  | _, none, _ => .error .readBehindEnd
  | _, some [], out => .ok out
  | 0, some (_ :: _), _ => .error .roundsExhausted
  | rounds + 1, some (c :: msg), out =>
      if isMark c then
        if startsName msg then do
          let (name, msg) ← getName msg
          let out ← writePiece env out (.value c name)
          rewriteFrom rounds msg out
        else
          match msg with
          | d :: msg' =>
              if isMark d then do
                -- the first mark is skipped, whichever the second one is
                let out ← writePiece env out (.copied d)
                rewriteFrom rounds (some msg') out
              else do
                let out ← writePiece env out (.copied c)
                rewriteFrom rounds (some msg) out
          | [] => do
              let out ← writePiece env out (.copied c)
              rewriteFrom rounds (some msg) out
      else do
        let out ← writePiece env out (.copied c)
        rewriteFrom rounds (some msg) out

/-- `parse_rewrite_string`. -/
def parseRewriteBuffer (rounds : ℕ) (msg : CString) : Except Halt (List Piece) := do
  let out ← rewriteFrom env rounds (some msg) []
  -- the NUL is written before the length is checked
  if msgSize ≤ (bufferText env out).length then throw .msgBufOverflow
  pure out

end Buffers

/-! ## What a message says -/

/-- The name behind a mark and the text behind the name: `name` or `{name}`. -/
def reference : CString → Option (CString × CString)
  | [] => none
  | c :: msg =>
      if c.isAlpha then some ((c :: msg).takeWhile isWordChar, (c :: msg).dropWhile isWordChar)
      else if c = '{' then
        match msg.dropWhile isWordChar with
        | '}' :: rest => some (msg.takeWhile isWordChar, rest)
        | _ => none
      else none

/-- The pieces of a message: a mark that is doubled stands for itself, a mark with a name for the
value of the name, and every other character for itself. -/
def readMessage : ℕ → CString → List Piece
  | 0, _ => []
  | _ + 1, [] => []
  | rounds + 1, c :: msg =>
      if isMark c then
        match reference msg with
        | some (name, rest) => .value c name :: readMessage rounds rest
        | none =>
            match msg with
            | d :: rest =>
                if d = c then .copied c :: readMessage rounds rest
                else .copied c :: readMessage rounds msg
            | [] => [.copied c]
      else .copied c :: readMessage rounds msg

/-- What a message says it is to be rewritten to. -/
def messagePieces (msg : CString) : List Piece := readMessage msg.length msg

/-! ## Tokens -/

/-- What the loop takes from the message in a round. -/
inductive Token
  /-- A character for itself. -/
  | plain (c : Char)
  /-- Two marks. -/
  | pair (c d : Char)
  /-- A name behind a mark, with both braces or without. -/
  | name (mark : Char) (var : CString)
  /-- A name in braces that is ended by another character. -/
  | misended (mark : Char) (var : CString)
  /-- A name in braces at the end of the message. -/
  | unended (mark : Char) (var : CString)

namespace Token

/-- The token that begins with a character, and the text behind it. -/
def next (c : Char) : CString → Token × CString
  | [] => (.plain c, [])
  | d :: msg =>
      if isMark c then
        if d = '{' then
          match msg.dropWhile isWordChar with
          | [] => (.unended c (msg.takeWhile isWordChar), [])
          | x :: rest =>
              if x = '}' then (.name c (msg.takeWhile isWordChar), rest)
              else (.misended c (msg.takeWhile isWordChar), rest)
        else if d.isAlpha then
          (.name c ((d :: msg).takeWhile isWordChar), (d :: msg).dropWhile isWordChar)
        else if isMark d then (.pair c d, msg)
        else (.plain c, d :: msg)
      else (.plain c, d :: msg)

/-- The name of a token. -/
def var : Token → CString
  | plain _ | pair _ _ => []
  | name _ var | misended _ var | unended _ var => var

/-- What is written for a token. -/
def piece : Token → Piece
  | plain c => .copied c
  | pair _ d => .copied d
  | name mark var | misended mark var | unended mark var => .value mark var

/-- The message goes on behind the token. -/
def Ended : Token → Prop
  | unended _ _ => False
  | _ => True

/-- The token means what the function makes of it. -/
def Proper : Token → Prop
  | plain _ | name _ _ => True
  | pair c d => c = d
  | misended _ _ | unended _ _ => False

instance (t : Token) : Decidable t.Ended := by
  cases t <;> unfold Ended <;> infer_instance

end Token

/-- The tokens of a message. -/
def tokens : ℕ → CString → List Token
  | 0, _ => []
  | _ + 1, [] => []
  | rounds + 1, c :: msg => (Token.next c msg).1 :: tokens rounds (Token.next c msg).2

/-- The loop, token by token. -/
def runTokens (env : Env) (out : List Piece) : List Token → Except Halt (List Piece)
  | [] => .ok out
  | t :: ts => do
      closeName t.var
      let out ← writePiece env out t.piece
      if t.Ended then runTokens env out ts else .error .readBehindEnd

theorem copyName_eq (var msg : CString) (h : var.length ≤ varSize + 1) :
    copyName var msg =
      if (var ++ msg.takeWhile isWordChar).length ≤ varSize + 1 then
        .ok (var ++ msg.takeWhile isWordChar, msg.dropWhile isWordChar)
      else .error .varBufOverflow := by
  induction msg generalizing var with
  | nil => simp [copyName, h]
  | cons c msg ih =>
      by_cases hc : isWordChar c = true
      · simp only [copyName, hc, if_true, List.takeWhile_cons, List.dropWhile_cons]
        split
        · next hlt =>
            rw [ih _ (by simp; omega)]
            simp
        · next hlt =>
            rw [if_neg (by simp; omega)]
      · simp [copyName, hc, h]

theorem copyName_closeName {α : Type} (msg : CString) (f : CString × CString → Except Halt α) :
    (do
      let p ← copyName [] msg
      closeName p.1
      f p) = (do
      closeName (msg.takeWhile isWordChar)
      f (msg.takeWhile isWordChar, msg.dropWhile isWordChar)) := by
  rw [copyName_eq [] msg (Nat.zero_le _), List.nil_append]
  split
  · rfl
  · next hlong =>
      have hclose : closeName (msg.takeWhile isWordChar) = .error .varBufOverflow :=
        if_pos (by omega)
      rw [hclose]
      rfl

/-- Which token is taken when. -/
inductive Token.Takes (c : Char) : CString → Token → CString → Prop
  | other {msg : CString} (hc : isMark c = false) : Takes c msg (.plain c) msg
  | last (hc : isMark c = true) : Takes c [] (.plain c) []
  | single {d : Char} {msg : CString} (hc : isMark c = true) (hbrace : d ≠ '{')
      (halpha : d.isAlpha = false) (hd : isMark d = false) :
      Takes c (d :: msg) (.plain c) (d :: msg)
  | pair {d : Char} {msg : CString} (hc : isMark c = true) (hbrace : d ≠ '{')
      (halpha : d.isAlpha = false) (hd : isMark d = true) : Takes c (d :: msg) (.pair c d) msg
  | word {d : Char} {msg : CString} (hc : isMark c = true) (hbrace : d ≠ '{')
      (halpha : d.isAlpha = true) :
      Takes c (d :: msg) (.name c ((d :: msg).takeWhile isWordChar))
        ((d :: msg).dropWhile isWordChar)
  | braced {msg rest : CString} (hc : isMark c = true)
      (hend : msg.dropWhile isWordChar = '}' :: rest) :
      Takes c ('{' :: msg) (.name c (msg.takeWhile isWordChar)) rest
  | misended {msg rest : CString} {x : Char} (hc : isMark c = true) (hx : x ≠ '}')
      (hend : msg.dropWhile isWordChar = x :: rest) :
      Takes c ('{' :: msg) (.misended c (msg.takeWhile isWordChar)) rest
  | unended {msg : CString} (hc : isMark c = true) (hend : msg.dropWhile isWordChar = []) :
      Takes c ('{' :: msg) (.unended c (msg.takeWhile isWordChar)) []

theorem Token.takes_next (c : Char) (msg : CString) :
    Token.Takes c msg (Token.next c msg).1 (Token.next c msg).2 := by
  cases hc : isMark c with
  | false =>
      have hnext : Token.next c msg = (.plain c, msg) := by
        cases msg <;> simp [Token.next, hc]
      rw [hnext]
      exact .other hc
  | true =>
      cases msg with
      | nil => exact .last hc
      | cons d msg =>
          by_cases hbrace : d = '{'
          · subst hbrace
            cases hend : msg.dropWhile isWordChar with
            | nil =>
                simp only [Token.next, hc, if_true, hend]
                exact .unended hc hend
            | cons x rest =>
                by_cases hx : x = '}'
                · subst hx
                  simp only [Token.next, hc, if_true, hend]
                  exact .braced hc hend
                · simp only [Token.next, hc, if_true, hend, if_neg hx]
                  exact .misended hc hx hend
          · cases halpha : d.isAlpha with
            | true =>
                simp only [Token.next, hc, if_true, if_neg hbrace, halpha]
                exact .word hc hbrace halpha
            | false =>
                cases hd : isMark d with
                | true =>
                    simp only [Token.next, hc, if_true, if_neg hbrace, halpha, hd,
                      Bool.false_eq_true, if_false]
                    exact .pair hc hbrace halpha hd
                | false =>
                    simp only [Token.next, hc, if_true, if_neg hbrace, halpha, hd,
                      Bool.false_eq_true, if_false]
                    exact .single hc hbrace halpha hd

variable {c : Char} {t : Token} {rounds : ℕ}

theorem Token.Takes.length_le {msg rest : CString}
    (h : Token.Takes c msg t rest) : rest.length ≤ msg.length := by
  have hdrop : ∀ text : CString, (text.dropWhile isWordChar).length ≤ text.length :=
    fun text => (List.dropWhile_sublist isWordChar).length_le
  cases h with
  | other hc => exact le_refl _
  | last hc => exact le_refl _
  | single hc hbrace halpha hd => exact le_refl _
  | pair hc hbrace halpha hd => exact Nat.le_succ _
  | word hc hbrace halpha => exact hdrop _
  | @braced msg rest hc hend =>
      have hle := hdrop msg
      rw [hend, List.length_cons] at hle
      rw [List.length_cons]
      omega
  | @misended msg rest x hc hx hend =>
      have hle := hdrop msg
      rw [hend, List.length_cons] at hle
      rw [List.length_cons]
      omega
  | unended hc hend => exact Nat.zero_le _

theorem getName_braces (msg : CString) :
    getName ('{' :: msg) = (do
      closeName (msg.takeWhile isWordChar)
      pure (msg.takeWhile isWordChar, (msg.dropWhile isWordChar).tail?)) :=
  copyName_closeName msg fun p => pure (p.1, p.2.tail?)

theorem getName_word {d : Char} (msg : CString) (h : d ≠ '{') :
    getName (d :: msg) = (do
      closeName ((d :: msg).takeWhile isWordChar)
      pure ((d :: msg).takeWhile isWordChar, some ((d :: msg).dropWhile isWordChar))) := by
  rw [getName]
  · exact copyName_closeName (d :: msg) fun p => pure (p.1, some p.2)
  · exact fun rest heq => h (List.cons.inj heq).1

theorem rewriteFrom_succ (env : Env) (rounds : ℕ) {msg rest : CString}
    (out : List Piece) (h : Token.Takes c msg t rest) :
    rewriteFrom env (rounds + 1) (some (c :: msg)) out = (do
      closeName t.var
      let out ← writePiece env out t.piece
      if t.Ended then rewriteFrom env rounds (some rest) out else .error .readBehindEnd) := by
  have hnil : closeName [] = .ok () := rfl
  cases h with
  | other hc =>
      simp [rewriteFrom, hc, Token.var, Token.piece, Token.Ended, hnil]
      rfl
  | last hc =>
      simp [rewriteFrom, hc, startsName, Token.var, Token.piece, Token.Ended, hnil]
      rfl
  | single hc hbrace halpha hd =>
      simp [rewriteFrom, hc, startsName, halpha, hbrace, hd, Token.var, Token.piece, Token.Ended,
        hnil]
      rfl
  | pair hc hbrace halpha hd =>
      simp [rewriteFrom, hc, startsName, halpha, hbrace, hd, Token.var, Token.piece, Token.Ended,
        hnil]
      rfl
  | @word d msg hc hbrace halpha =>
      simp [rewriteFrom, hc, startsName, halpha, getName_word msg hbrace, Token.var, Token.piece,
        Token.Ended]
  | braced hc hend =>
      simp [rewriteFrom, hc, startsName, getName_braces, hend, Token.var, Token.piece, Token.Ended]
  | misended hc hx hend =>
      simp [rewriteFrom, hc, startsName, getName_braces, hend, Token.var, Token.piece, Token.Ended]
  | unended hc hend =>
      simp [rewriteFrom, hc, startsName, getName_braces, hend, Token.var, Token.piece, Token.Ended]

theorem rewriteFrom_eq (env : Env) {msg : CString} (h : msg.length ≤ rounds) (out : List Piece) :
    rewriteFrom env rounds (some msg) out = runTokens env out (tokens rounds msg) := by
  induction rounds generalizing msg out with
  | zero =>
      obtain rfl := List.length_eq_zero_iff.mp (Nat.le_zero.mp h)
      rfl
  | succ rounds ih =>
      cases msg with
      | nil => rfl
      | cons c msg =>
          have htakes := Token.takes_next c msg
          have hlength := htakes.length_le
          rw [List.length_cons] at h
          rw [rewriteFrom_succ env rounds out htakes, tokens, runTokens]
          simp only [ih (le_trans hlength (Nat.le_of_succ_le_succ h))]

theorem tokens_congr {m n : ℕ} {msg : CString} (hm : msg.length ≤ m) (hn : msg.length ≤ n) :
    tokens m msg = tokens n msg := by
  induction m generalizing n msg with
  | zero =>
      obtain rfl := List.length_eq_zero_iff.mp (Nat.le_zero.mp hm)
      cases n <;> rfl
  | succ m ih =>
      cases msg with
      | nil => cases n <;> rfl
      | cons c msg =>
          have hlength := (Token.takes_next c msg).length_le
          rw [List.length_cons] at hm hn
          obtain ⟨n, rfl⟩ := Nat.exists_eq_add_one_of_ne_zero (Nat.ne_zero_of_lt hn)
          rw [tokens, tokens, ih (n := n) (by omega) (by omega)]

/-! ## What the message says -/

theorem readMessage_eq_iff {msg : CString} :
    (tokens rounds msg).map Token.piece = readMessage rounds msg ↔
      ∀ t ∈ tokens rounds msg, t.Proper := by
  induction rounds generalizing msg with
  | zero => simp [tokens, readMessage]
  | succ rounds ih =>
      cases msg with
      | nil => simp [tokens, readMessage]
      | cons c msg =>
          have htakes := Token.takes_next c msg
          rw [tokens]
          generalize (Token.next c msg).1 = t at htakes ⊢
          generalize (Token.next c msg).2 = rest at htakes ⊢
          simp only [List.map_cons, List.forall_mem_cons, ← ih]
          cases htakes with
          | other hc => simp [readMessage, hc, Token.piece, Token.Proper]
          | last hc =>
              have hrest : readMessage rounds [] = [] := by cases rounds <;> rfl
              simp [readMessage, hc, reference, Token.piece, Token.Proper, hrest]
          | @single d msg hc hbrace halpha hd =>
              have hne : d ≠ c := fun heq => by rw [heq, hc] at hd; exact nomatch hd
              simp [readMessage, hc, reference, halpha, hbrace, hne, Token.piece, Token.Proper]
          | @pair d _ hc hbrace halpha hd =>
              have hnone : reference (d :: rest) = none := by
                simp [reference, halpha, hbrace]
              by_cases hsame : d = c
              · subst hsame
                simp [readMessage, hc, hnone, Token.piece, Token.Proper]
              · simp [readMessage, hc, hnone, hsame, Ne.symm hsame, Token.piece, Token.Proper]
          | @word d msg hc hbrace halpha =>
              simp [readMessage, hc, reference, halpha, Token.piece, Token.Proper]
          | braced hc hend =>
              have hbrace : ('{' : Char).isAlpha = false := rfl
              simp [readMessage, hc, reference, hbrace, hend, Token.piece, Token.Proper]
          | @misended msg rest x hc hx hend =>
              have hnone : reference ('{' :: msg) = none := by
                have hbrace : ('{' : Char).isAlpha = false := rfl
                simp [reference, hbrace, hend, hx]
              simp only [readMessage, hc, if_true, hnone, Token.piece, Token.Proper, false_and,
                iff_false]
              split <;> simp
          | @unended msg hc hend =>
              have hnone : reference ('{' :: msg) = none := by
                have hbrace : ('{' : Char).isAlpha = false := rfl
                simp [reference, hbrace, hend]
              simp only [readMessage, hc, if_true, hnone, Token.piece, Token.Proper, false_and,
                iff_false]
              split <;> simp

/-! ## Staying in bounds -/

section Bounds

variable {env : Env}

/-- All pieces fit into `msg_buf`. -/
def Roomy (env : Env) (out pieces : List Piece) : Prop :=
  ∀ pre piece post, pieces = pre ++ piece :: post →
    (bufferText env (out ++ pre)).length + piece.room env ≤ msgSize

theorem roomy_nil (out : List Piece) : Roomy env out [] :=
  fun _ _ _ h => absurd h (by simp)

variable {out : List Piece} {ts : List Token}

theorem roomy_cons {pieces : List Piece} {piece : Piece} :
    Roomy env out (piece :: pieces) ↔
      (bufferText env out).length + piece.room env ≤ msgSize ∧ Roomy env (out ++ [piece]) pieces := by
  constructor
  · intro h
    refine ⟨by simpa using h [] piece pieces rfl, fun pre p post heq => ?_⟩
    simpa using h (piece :: pre) p post (by rw [heq]; rfl)
  · rintro ⟨hfirst, hrest⟩ pre p post heq
    cases pre with
    | nil =>
        obtain ⟨rfl, -⟩ := List.cons.inj heq
        simpa using hfirst
    | cons q pre =>
        obtain ⟨rfl, hpieces⟩ := List.cons.inj heq
        simpa using hrest pre p post hpieces

theorem roomy_of_lt {pieces : List Piece}
    (h : (bufferText env (out ++ pieces)).length < msgSize) : Roomy env out pieces := by
  rintro pre piece post rfl
  have hroom : piece.room env ≤ (piece.text env).length + 1 := by
    cases piece <;> simp [Piece.room, Piece.text]
  simp only [bufferText, List.flatMap_append, List.flatMap_cons, List.length_append] at h ⊢
  omega

/-- The name of a token fits into `var_buf` and is not rejected. -/
def Token.Short (t : Token) : Prop := t.var.length < varSize

instance (t : Token) : Decidable t.Short := inferInstanceAs (Decidable (_ < _))

theorem runTokens_cons (hshort : t.Short)
    (hroom : (bufferText env out).length + t.piece.room env ≤ msgSize) (hended : t.Ended) :
    runTokens env out (t :: ts) = runTokens env (out ++ [t.piece]) ts := by
  have hclose : closeName t.var = .ok () := by
    unfold Token.Short at hshort
    rw [closeName, if_neg (by omega), if_neg (by omega)]
  have hwrite : writePiece env out t.piece = .ok (out ++ [t.piece]) := if_pos hroom
  rw [runTokens, hclose, hwrite]
  exact if_pos hended

theorem runTokens_halts (ts : List Token)
    (h : ¬ (t.Short ∧ (bufferText env out).length + t.piece.room env ≤ msgSize ∧ t.Ended)) :
    ∃ halt, runTokens env out (t :: ts) = .error halt ∧
      ∀ e, halt = .exit e ↔ t.var.length = varSize ∧ e = .nameTooLong t.var := by
  rw [runTokens]
  by_cases hlong : varSize + 1 ≤ t.var.length
  · have hclose : closeName t.var = .error .varBufOverflow := if_pos hlong
    rw [hclose]
    exact ⟨_, rfl, fun e => ⟨nofun, fun ⟨heq, _⟩ => by omega⟩⟩
  by_cases hexit : varSize ≤ t.var.length
  · have hclose : closeName t.var = .error (.exit (.nameTooLong t.var)) := by
      rw [closeName, if_neg hlong, if_pos hexit]
    rw [hclose]
    refine ⟨_, rfl, fun e => ⟨fun heq => ⟨by omega, (Halt.exit.inj heq).symm⟩, ?_⟩⟩
    rintro ⟨-, rfl⟩
    rfl
  have hclose : closeName t.var = .ok () := by
    rw [closeName, if_neg hlong, if_neg hexit]
  have hne : t.var.length ≠ varSize := by omega
  rw [hclose]
  by_cases hroom : (bufferText env out).length + t.piece.room env ≤ msgSize
  · have hwrite : writePiece env out t.piece = .ok (out ++ [t.piece]) := if_pos hroom
    have hended : ¬ t.Ended := fun hended => h ⟨Nat.not_le.mp hexit, hroom, hended⟩
    rw [hwrite]
    exact ⟨_, if_neg hended, fun e => ⟨nofun, fun ⟨heq, _⟩ => absurd heq hne⟩⟩
  · have hwrite : writePiece env out t.piece = .error .msgBufOverflow := if_neg hroom
    rw [hwrite]
    exact ⟨_, rfl, fun e => ⟨nofun, fun ⟨heq, _⟩ => absurd heq hne⟩⟩

theorem runTokens_ok_iff {out' : List Piece} :
    runTokens env out ts = .ok out' ↔
      (∀ t ∈ ts, t.Short ∧ t.Ended) ∧ Roomy env out (ts.map Token.piece) ∧
        out' = out ++ ts.map Token.piece := by
  induction ts generalizing out with
  | nil => simp [runTokens, roomy_nil, eq_comm]
  | cons t ts ih =>
      rw [List.map_cons, roomy_cons, List.forall_mem_cons]
      by_cases h : t.Short ∧ (bufferText env out).length + t.piece.room env ≤ msgSize ∧ t.Ended
      · obtain ⟨hshort, hroom, hended⟩ := h
        rw [runTokens_cons hshort hroom hended, ih]
        simp [hshort, hroom, hended]
      · obtain ⟨halt, hrun, -⟩ := runTokens_halts ts h
        rw [hrun]
        refine ⟨nofun, fun ⟨⟨⟨hshort, hended⟩, _⟩, ⟨hroom, _⟩, _⟩ => ?_⟩
        exact absurd ⟨hshort, hroom, hended⟩ h

theorem runTokens_exit_iff :
    (∃ e, runTokens env out ts = .error (.exit e)) ↔
      ∃ pre t post, ts = pre ++ t :: post ∧ (∀ u ∈ pre, u.Short ∧ u.Ended) ∧
        t.var.length = varSize ∧ Roomy env out (pre.map Token.piece) := by
  induction ts generalizing out with
  | nil => simp [runTokens]
  | cons t ts ih =>
      by_cases h : t.Short ∧ (bufferText env out).length + t.piece.room env ≤ msgSize ∧ t.Ended
      · obtain ⟨hshort, hroom, hended⟩ := h
        rw [runTokens_cons hshort hroom hended, ih]
        constructor
        · rintro ⟨pre, u, post, rfl, hpre, hlong, hroomy⟩
          refine ⟨t :: pre, u, post, rfl, ?_, hlong, roomy_cons.mpr ⟨hroom, hroomy⟩⟩
          exact List.forall_mem_cons.mpr ⟨⟨hshort, hended⟩, hpre⟩
        · rintro ⟨pre, u, post, heq, hpre, hlong, hroomy⟩
          cases pre with
          | nil =>
              obtain ⟨rfl, rfl⟩ := List.cons.inj heq
              exact absurd hlong (Nat.ne_of_lt hshort)
          | cons v pre =>
              obtain ⟨rfl, rfl⟩ := List.cons.inj heq
              exact ⟨pre, u, post, rfl, (List.forall_mem_cons.mp hpre).2, hlong,
                (roomy_cons.mp hroomy).2⟩
      · obtain ⟨halt, hrun, hexit⟩ := runTokens_halts ts h
        rw [hrun]
        constructor
        · rintro ⟨e, heq⟩
          obtain ⟨hlong, -⟩ := (hexit e).mp (Except.error.inj heq)
          exact ⟨[], t, ts, rfl, by simp, hlong, roomy_nil out⟩
        · rintro ⟨pre, u, post, heq, hpre, hlong, hroomy⟩
          cases pre with
          | nil =>
              obtain ⟨rfl, rfl⟩ := List.cons.inj heq
              exact ⟨_, congrArg Except.error ((hexit _).mpr ⟨hlong, rfl⟩)⟩
          | cons v pre =>
              obtain ⟨rfl, rfl⟩ := List.cons.inj heq
              obtain ⟨hshort, hended⟩ := hpre t List.mem_cons_self
              exact absurd ⟨hshort, (roomy_cons.mp hroomy).1, hended⟩ h

end Bounds

/-! ## Messages that are rewritten right -/

section Messages

variable {env : Env} {msg : CString}

/-- The function stays in bounds, and returns what the message says unless it stops the program. -/
def RewritesRight (env : Env) (rounds : ℕ) (msg : CString) : Prop :=
  match parseRewriteBuffer env rounds msg with
  | .ok out => out = messagePieces msg
  | .error (.exit _) => True
  | .error _ => False

/-- All names are short, no mark is followed by another one, every brace is closed behind the name,
and the result fits into `msg_buf`. -/
structure Fits (env : Env) (msg : CString) : Prop where
  all_proper : ∀ t ∈ tokens msg.length msg, t.Short ∧ t.Proper
  text_length : (bufferText env (messagePieces msg)).length < msgSize

/-- The program is stopped by a name with `VAR_SIZE` characters, and everything in front of it is
written in bounds. -/
def Stops (env : Env) (msg : CString) : Prop :=
  ∃ pre t post, tokens msg.length msg = pre ++ t :: post ∧ (∀ u ∈ pre, u.Short ∧ u.Ended) ∧
    t.var.length = varSize ∧ Roomy env [] (pre.map Token.piece)

theorem Token.Proper.ended (h : t.Proper) : t.Ended := by
  cases t <;> trivial

theorem messagePieces_eq_iff :
    (tokens msg.length msg).map Token.piece = messagePieces msg ↔
      ∀ t ∈ tokens msg.length msg, t.Proper :=
  readMessage_eq_iff

theorem Fits.runTokens (h : Fits env msg) :
    runTokens env [] (tokens msg.length msg) = .ok (messagePieces msg) := by
  have hpieces := messagePieces_eq_iff.mpr fun t ht => (h.all_proper t ht).2
  refine runTokens_ok_iff.mpr ⟨fun t ht => ?_, ?_, hpieces.symm⟩
  · obtain ⟨hshort, hproper⟩ := h.all_proper t ht
    exact ⟨hshort, hproper.ended⟩
  · rw [hpieces]
    exact roomy_of_lt h.text_length

theorem parseRewriteBuffer_eq (h : msg.length ≤ rounds) :
    parseRewriteBuffer env rounds msg = (do
      let out ← runTokens env [] (tokens msg.length msg)
      if msgSize ≤ (bufferText env out).length then throw .msgBufOverflow
      pure out) := by
  rw [parseRewriteBuffer, rewriteFrom_eq env h, tokens_congr h (le_refl _)]

/-- The messages that are rewritten right. -/
theorem rewritesRight_iff {rounds : ℕ} (h : msg.length ≤ rounds) :
    RewritesRight env rounds msg ↔ Fits env msg ∨ Stops env msg := by
  unfold RewritesRight
  rw [parseRewriteBuffer_eq h]
  have hstops : Stops env msg ↔
      ∃ e, runTokens env [] (tokens msg.length msg) = .error (.exit e) :=
    runTokens_exit_iff.symm
  cases hrun : runTokens env [] (tokens msg.length msg) with
  | error halt =>
      have hfits : ¬ Fits env msg := fun hfits => by
        rw [hfits.runTokens] at hrun
        exact nomatch hrun
      rw [hstops, hrun]
      cases halt <;> simp [hfits, bind, Except.bind]
  | ok out =>
      obtain ⟨htokens, -, hout⟩ := runTokens_ok_iff.mp hrun
      rw [List.nil_append] at hout
      have hnot : ¬ Stops env msg := by
        rw [hstops, hrun]
        exact fun ⟨_, heq⟩ => nomatch heq
      by_cases hlong : msgSize ≤ (bufferText env out).length
      · have hfits : ¬ Fits env msg := fun hfits => by
          have heq := messagePieces_eq_iff.mpr fun t ht => (hfits.all_proper t ht).2
          have htext := hfits.text_length
          rw [← heq, ← hout] at htext
          omega
        simp [hlong, hnot, hfits, bind, Except.bind, throw, throwThe, MonadExceptOf.throw]
      · have hright : out = messagePieces msg ↔ Fits env msg := by
          rw [hout, messagePieces_eq_iff]
          constructor
          · intro hproper
            have heq := messagePieces_eq_iff.mpr hproper
            refine ⟨fun t ht => ⟨(htokens t ht).1, hproper t ht⟩, ?_⟩
            rw [← heq, ← hout]
            exact Nat.not_le.mp hlong
          · exact fun hfits t ht => (hfits.all_proper t ht).2
        simp [hlong, hnot, hright, bind, Except.bind, pure, Except.pure]

/-! ### Without the buffers -/

theorem isMark_iff : isMark c = true ↔ c = '$' ∨ c = '%' ∨ c = '@' := by
  simp [isMark, or_assoc]

/-- The loop of `parseRewriteString` takes the same tokens. -/
theorem rewriteLoop_eq {msg : CString}
    (hshort : ∀ t ∈ tokens rounds msg, t.Short) (hlength : msg.length ≤ rounds) :
    rewriteLoop env rounds msg = .ok (bufferText env ((tokens rounds msg).map Token.piece)) := by
  induction rounds generalizing msg with
  | zero => rfl
  | succ rounds ih =>
      cases msg with
      | nil => rfl
      | cons c msg =>
          have htakes := Token.takes_next c msg
          rw [tokens] at hshort ⊢
          generalize (Token.next c msg).1 = t at htakes hshort ⊢
          generalize (Token.next c msg).2 = rest at htakes hshort ⊢
          have hle := htakes.length_le
          rw [List.length_cons] at hlength
          obtain ⟨hvar, hrest⟩ := List.forall_mem_cons.mp hshort
          have htail := ih hrest (by omega)
          rw [List.map_cons, bufferText, List.flatMap_cons, ← bufferText]
          have hword : (fun d : Char => d.isAlphanum || d == '_') = isWordChar := rfl
          cases htakes with
          | other hc =>
              have hmark := mt isMark_iff.mpr (Bool.eq_false_iff.mp hc)
              unfold rewriteLoop
              rw [if_neg hmark, htail]
              rfl
          | last hc =>
              have hnil : tokens rounds [] = [] := by cases rounds <;> rfl
              unfold rewriteLoop
              rw [if_pos (isMark_iff.mp hc), hnil]
              rfl
          | @single d msg hc hbrace halpha hd =>
              have hmark := mt isMark_iff.mpr (Bool.eq_false_iff.mp hd)
              unfold rewriteLoop
              rw [if_pos (isMark_iff.mp hc)]
              simp only [halpha, Bool.false_eq_true, if_false, if_neg hmark, htail]
              rfl
          | pair hc hbrace halpha hd =>
              unfold rewriteLoop
              rw [if_pos (isMark_iff.mp hc)]
              simp only [halpha, Bool.false_eq_true, if_false, if_pos (isMark_iff.mp hd), htail]
              rfl
          | @word d msg hc hbrace halpha =>
              have hvar' : ¬ varSize ≤ ((d :: msg).takeWhile isWordChar).length :=
                Nat.not_le.mpr hvar
              unfold rewriteLoop
              rw [if_pos (isMark_iff.mp hc)]
              simp only [halpha, if_true, hword, if_neg hvar', htail]
              rfl
          | @braced msg rest hc hend =>
              have hvar' : ¬ varSize ≤ (msg.takeWhile isWordChar).length := Nat.not_le.mpr hvar
              unfold rewriteLoop
              rw [if_pos (isMark_iff.mp hc)]
              simp only [hword, if_neg hvar', hend, List.drop_one, List.tail_cons, htail]
              rfl
          | @misended msg rest x hc hx hend =>
              have hvar' : ¬ varSize ≤ (msg.takeWhile isWordChar).length := Nat.not_le.mpr hvar
              unfold rewriteLoop
              rw [if_pos (isMark_iff.mp hc)]
              simp only [hword, if_neg hvar', hend, List.drop_one, List.tail_cons, htail]
              rfl
          | @unended msg hc hend =>
              have hvar' : ¬ varSize ≤ (msg.takeWhile isWordChar).length := Nat.not_le.mpr hvar
              unfold rewriteLoop
              rw [if_pos (isMark_iff.mp hc)]
              simp only [hword, if_neg hvar', hend, List.drop_one, List.tail_nil, htail]
              rfl

/-- What comes back from the function with its buffers is what `parseRewriteString` returns. -/
theorem parseRewriteString_of_buffer {rounds : ℕ} (h : msg.length ≤ rounds) {out : List Piece}
    (hout : parseRewriteBuffer env rounds msg = .ok out) :
    parseRewriteString env msg = .ok (bufferText env out) := by
  rw [parseRewriteBuffer_eq h] at hout
  cases hrun : runTokens env [] (tokens msg.length msg) with
  | error halt =>
      rw [hrun] at hout
      exact nomatch hout
  | ok pieces =>
      obtain ⟨htokens, -, hpieces⟩ := runTokens_ok_iff.mp hrun
      rw [List.nil_append] at hpieces
      rw [hrun] at hout
      by_cases hlong : msgSize ≤ (bufferText env pieces).length
      · simp [hlong, bind, Except.bind, throw, throwThe, MonadExceptOf.throw] at hout
      · simp only [hlong, if_false, bind, Except.bind, pure, Except.pure] at hout
        obtain rfl := Except.ok.inj hout
        have hloop : rewriteLoop env msg.length msg =
            .ok (bufferText env ((tokens msg.length msg).map Token.piece)) :=
          rewriteLoop_eq (fun t ht => (htokens t ht).1) (le_refl _)
        rw [parseRewriteString, hloop, ← hpieces]
        exact if_neg hlong

theorem parseRewriteString_of_buffer_name :
    ∃ out, parseRewriteString oneNumeric ['$', 'a'] = .ok (bufferText oneNumeric out) :=
  ⟨_, parseRewriteString_of_buffer (by decide : ['$', 'a'].length ≤ 2) rfl⟩

/-- `$a` is rewritten right. -/
theorem rewritesRight_iff_name :
    RewritesRight oneNumeric 2 ['$', 'a'] ↔
      Fits oneNumeric ['$', 'a'] ∨ Stops oneNumeric ['$', 'a'] :=
  rewritesRight_iff (by decide)

/-- Behind `${a`, the message is read on. -/
theorem not_rewritesRight_open : ¬ ∀ env msg, RewritesRight env msg.length msg := by
  intro h
  exact h oneNumeric ['$', '{', 'a']

end Messages

end Script
end Mkfli4l
