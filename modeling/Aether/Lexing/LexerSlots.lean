/-
Aether.Lexing.LexerSlots — `src/lexer.c`: the two buffered tokens between the
tokenizer and the parser.

`lexerAdvance`, `lexerPeek`, `lexerPeekNext` and `lexerExpect` are translated
call by call, with their two slots and validity flags. `seen` is a ghost: the
tokens that became `current`, oldest first. Whatever calls are made, `seen`
starts the sequence of `tokenizerNext` and the slots hold what follows it.
`pending_eq_streamAt` reads the parser's list of pending tokens off the same
sequence.
-/
import Aether.Parser.State
import Mathlib.Data.List.Range

namespace Aether.LexerSlots

/-! ## §1 The lexer -/

structure Lexer where
  tok : Tokenizer
  current : Token
  next : Token
  hasCurrent : Bool
  hasNext : Bool
  seen : List Token

def lexerCreate (source : Bytes) : Lexer where
  tok := tokenizerCreate source
  current := .zero
  next := .zero
  hasCurrent := false
  hasNext := false
  seen := []

/-- `l->current = token; l->has_current = true;` -/
def Lexer.setCurrent (l : Lexer) (token : Token) : Lexer :=
  { l with current := token, hasCurrent := true, seen := l.seen ++ [token] }

/-- `tokenizer_next(l->tok)` -/
def Lexer.scan (l : Lexer) : Token × Lexer :=
  ((tokenizerNext l.tok).1, { l with tok := (tokenizerNext l.tok).2 })

def lexerAdvance (l : Lexer) : Token × Lexer :=
  let prev := l.current
  if l.hasNext then (prev, { l.setCurrent l.next with hasNext := false })
  else
    let (token, l) := l.scan
    (prev, l.setCurrent token)

def lexerPeek (l : Lexer) : Token × Lexer :=
  if l.hasCurrent then (l.current, l)
  else
    let (token, l) := l.scan
    (token, l.setCurrent token)

def lexerPeekNext (l : Lexer) : Token × Lexer :=
  let (_, l) := lexerPeek l
  if l.hasNext then (l.next, l)
  else
    let (token, l) := l.scan
    (token, { l with next := token, hasNext := true })

def lexerExpect (l : Lexer) (type : TokenType) : Bool × Lexer :=
  let (tok, l) := lexerPeek l
  if tok.type = type then (true, (lexerAdvance l).2) else (false, l)

inductive Call where
  | peek
  | peekNext
  | advance
  | expect (type : TokenType)
  deriving DecidableEq, Repr

def Call.run (l : Lexer) : Call → Lexer
  | .peek => (lexerPeek l).2
  | .peekNext => (lexerPeekNext l).2
  | .advance => (lexerAdvance l).2
  | .expect type => (lexerExpect l type).2

def runCalls (calls : List Call) (l : Lexer) : Lexer := calls.foldl Call.run l

/-! ## §2 The sequence of the tokenizer -/

/-- The tokenizer after `n` calls. -/
def scanned (t : Tokenizer) (n : Nat) : Tokenizer := (fun t => (tokenizerNext t).2)^[n] t

def streamAt (t : Tokenizer) (n : Nat) : Token := (tokenizerNext (scanned t n)).1

/-- What the first `n` calls give. -/
def firstTokens (t : Tokenizer) (n : Nat) : List Token := (List.range n).map (streamAt t)

theorem scanned_succ (t : Tokenizer) (n : Nat) :
    scanned t (n + 1) = (tokenizerNext (scanned t n)).2 :=
  Function.iterate_succ_apply' _ n t

theorem firstTokens_succ (t : Tokenizer) (n : Nat) :
    firstTokens t (n + 1) = firstTokens t n ++ [streamAt t n] := by
  simp [firstTokens, List.range_succ]

/-! ## §3 What every call keeps -/

/-- The slots hold the tokens that come after the ones seen. -/
structure Invariant (t : Tokenizer) (l : Lexer) : Prop where
  seen : l.seen = firstTokens t l.seen.length
  current : l.hasCurrent = true → l.seen.getLast? = some l.current
  fresh : l.hasCurrent = false → l.hasNext = false ∧ l.seen = []
  next : l.hasNext = true → l.next = streamAt t l.seen.length
  tok : l.tok = scanned t (l.seen.length + if l.hasNext then 1 else 0)

theorem invariant_create (source : Bytes) :
    Invariant (tokenizerCreate source) (lexerCreate source) where
  seen := rfl
  current h := nomatch h
  fresh _ := ⟨rfl, rfl⟩
  next h := nomatch h
  tok := rfl

namespace Invariant

variable {t : Tokenizer} {l : Lexer}

/-- With no second slot, the tokenizer stands right behind the tokens seen. -/
theorem tok_eq (h : Invariant t l) (hnext : l.hasNext = false) : l.tok = scanned t l.seen.length := by
  have htok := h.tok
  simpa [hnext] using htok

/-- A lexer that has seen one token more, its second slot empty. -/
theorem seeNext (h : Invariant t l) {l' : Lexer} (hseen : l'.seen = l.seen ++ [l'.current])
    (hcurrent : l'.current = streamAt t l.seen.length) (hhas : l'.hasCurrent = true)
    (hnext : l'.hasNext = false) (htok : l'.tok = scanned t (l.seen.length + 1)) :
    Invariant t l' := by
  have hlength : l'.seen.length = l.seen.length + 1 := by simp [hseen]
  refine ⟨?_, ?_, ?_, ?_, ?_⟩
  · rw [hlength, firstTokens_succ, ← h.seen, ← hcurrent, hseen]
  · intro _
    simp [hseen]
  · intro hfresh
    rw [hhas] at hfresh
    cases hfresh
  · intro hfull
    rw [hnext] at hfull
    cases hfull
  · simp [hlength, hnext, htok]

/-- `lexer_advance` makes the next token of the sequence current, whatever the flags. -/
theorem advance (h : Invariant t l) :
    Invariant t (lexerAdvance l).2 ∧
      (lexerAdvance l).2.current = streamAt t l.seen.length ∧
      (lexerAdvance l).2.seen = l.seen ++ [streamAt t l.seen.length] := by
  cases hnext : l.hasNext with
  | true =>
    have hshown := h.next hnext
    have htok : l.tok = scanned t (l.seen.length + 1) := by
      have htok := h.tok
      simpa [hnext] using htok
    simp only [lexerAdvance, hnext, if_true]
    refine ⟨h.seeNext rfl hshown rfl rfl htok, hshown, ?_⟩
    simp [Lexer.setCurrent, hshown]
  | false =>
    have hscan : (tokenizerNext l.tok).1 = streamAt t l.seen.length := by
      rw [h.tok_eq hnext]
      rfl
    have htok : (tokenizerNext l.tok).2 = scanned t (l.seen.length + 1) := by
      rw [h.tok_eq hnext, scanned_succ]
    simp only [lexerAdvance, hnext, Lexer.scan]
    refine ⟨h.seeNext rfl hscan rfl rfl htok, hscan, ?_⟩
    simp [Lexer.setCurrent, hscan]

/-- `lexer_peek` fills the first slot and moves nothing once it is full. -/
theorem peek (h : Invariant t l) :
    Invariant t (lexerPeek l).2 ∧ (lexerPeek l).2.hasCurrent = true ∧
      (lexerPeek l).1 = (lexerPeek l).2.current ∧
      (l.hasCurrent = true → (lexerPeek l).2 = l) := by
  cases hcurrent : l.hasCurrent with
  | true => simp [lexerPeek, hcurrent, h]
  | false =>
    -- an empty first slot goes with an empty second one, so peeking is advancing
    have hsame : (lexerPeek l).2 = (lexerAdvance l).2 := by
      simp [lexerPeek, lexerAdvance, hcurrent, (h.fresh hcurrent).1]
    refine ⟨?_, ?_, ?_, nofun⟩
    · rw [hsame]
      exact h.advance.1
    · simp [lexerPeek, hcurrent, Lexer.setCurrent]
    · simp [lexerPeek, hcurrent, Lexer.setCurrent]

/-- `lexer_peek_next` shows the token after the current one. -/
theorem peekNext (h : Invariant t l) :
    Invariant t (lexerPeekNext l).2 ∧
      (lexerPeekNext l).2.seen = (lexerPeek l).2.seen ∧
      (lexerPeekNext l).1 = streamAt t (lexerPeekNext l).2.seen.length := by
  obtain ⟨hpeek, hhas, -, -⟩ := h.peek
  cases hnext : (lexerPeek l).2.hasNext with
  | true =>
    simp only [lexerPeekNext, hnext, if_true]
    exact ⟨hpeek, trivial, hpeek.next hnext⟩
  | false =>
    have hscan : (tokenizerNext (lexerPeek l).2.tok).1 = streamAt t (lexerPeek l).2.seen.length := by
      rw [hpeek.tok_eq hnext]
      rfl
    simp only [lexerPeekNext, hnext, Lexer.scan]
    refine ⟨⟨hpeek.seen, hpeek.current, ?_, fun _ => hscan, ?_⟩, rfl, hscan⟩
    · intro hfresh
      rw [show (lexerPeek l).2.hasCurrent = false from hfresh] at hhas
      cases hhas
    · show (tokenizerNext (lexerPeek l).2.tok).2 = scanned t ((lexerPeek l).2.seen.length + 1)
      rw [hpeek.tok_eq hnext, scanned_succ]

theorem expect (h : Invariant t l) (type : TokenType) :
    Invariant t (lexerExpect l type).2 := by
  obtain ⟨hpeek, -⟩ := h.peek
  by_cases htype : (lexerPeek l).1.type = type
  · simpa [lexerExpect, htype] using hpeek.advance.1
  · simpa [lexerExpect, htype] using hpeek

theorem run (h : Invariant t l) (call : Call) : Invariant t (call.run l) := by
  cases call with
  | peek => exact h.peek.1
  | peekNext => exact h.peekNext.1
  | advance => exact h.advance.1
  | expect type => exact h.expect type

theorem runCalls (h : Invariant t l) (calls : List Call) : Invariant t (runCalls calls l) := by
  induction calls generalizing l with
  | nil => exact h
  | cons call calls ih => exact ih (h.run call)

end Invariant

/-! ## §4 Every run of calls -/

/-- Whatever calls are made, the tokens that became current are those of the tokenizer in order,
and what `lexerPeekNext` shows stays the token the next `lexerAdvance` makes current, until a
token becomes current. -/
theorem lookahead_loses_nothing (source : Bytes) (calls others : List Call) :
    let l := runCalls calls (lexerCreate source)
    let shown := lexerPeekNext l
    let later := runCalls others shown.2
    l.seen = firstTokens (tokenizerCreate source) l.seen.length ∧
      (l.hasCurrent = true → l.seen.getLast? = some l.current) ∧
      (lexerAdvance l).2.seen = firstTokens (tokenizerCreate source) (l.seen.length + 1) ∧
      (lexerAdvance shown.2).2.current = shown.1 ∧
      (later.seen = shown.2.seen → (lexerAdvance later).2.current = shown.1) := by
  intro l shown later
  have hl : Invariant (tokenizerCreate source) l := (invariant_create source).runCalls calls
  obtain ⟨hshown, -, hshows⟩ := hl.peekNext
  have hlater := hshown.runCalls others
  refine ⟨hl.seen, hl.current, ?_, ?_, ?_⟩
  · rw [hl.advance.2.2, firstTokens_succ, ← hl.seen]
  · exact hshown.advance.2.1.trans hshows.symm
  · intro hseen
    rw [hlater.advance.2.1, show (runCalls others (lexerPeekNext l).2).seen.length = _ from
      congrArg List.length hseen]
    exact hshows.symm

/-- The parser's pending tokens are the same sequence, up to the end of the text. -/
theorem pending_eq_streamAt (source : Bytes) (n : Nat) (token : Token)
    (h : (Aether.lexerCreate source).pending[n]? = some token) :
    streamAt (tokenizerCreate source) n = token := by
  have hloop : ∀ fuel t n, (tokensLoop fuel t).1[n]? = some token → streamAt t n = token := by
    intro fuel
    induction fuel with
    | zero =>
      intro t n h
      simp [tokensLoop] at h
    | succ fuel ih =>
      intro t n h
      rw [tokensLoop] at h
      by_cases heof : (tokenizerNext t).1.type = .eof
      · simp [heof] at h
      · cases n with
        | zero => simpa [heof, streamAt, scanned] using h
        | succ n =>
          have hrest : (tokensLoop fuel (tokenizerNext t).2).1[n]? = some token := by
            simpa [heof] using h
          simpa [streamAt, scanned] using ih _ _ hrest
  exact hloop _ _ _ h

end Aether.LexerSlots
