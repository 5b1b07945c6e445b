import Rewind.Json.Basic

/-! JSON tokens: the words of the grammar, and how bytes make them up.

The lexer is a machine that takes one byte at a time. Punctuation is a token by
itself; a word goes on for as long as its bytes could belong to a literal, and is
looked at when it ends; a string goes on to the closing quote. Blanks between
tokens leave no trace. -/

namespace Rewind.Json

inductive Token where
  | openArray
  | closeArray
  | openObject
  | closeObject
  | comma
  | colon
  | null
  | bool (b : Bool)
  | number (n : Numeral)
  | text (t : Text)
deriving DecidableEq, Inhabited

/-! ### Writing -/

namespace Numeral

def exponentBytes : Option (ExponentSign × List Nat) → Bytes
  | none => []
  | some (.unsigned, ds) => ascii 'e' :: ds.map digitByte
  | some (.plus, ds) => ascii 'e' :: ascii '+' :: ds.map digitByte
  | some (.minus, ds) => ascii 'e' :: ascii '-' :: ds.map digitByte

def fractionBytes (ds : List Nat) : Bytes :=
  if ds.isEmpty then [] else ascii '.' :: ds.map digitByte

def bytes (n : Numeral) : Bytes :=
  (if n.negative then [ascii '-'] else []) ++ n.whole.map digitByte ++
    fractionBytes n.fraction ++ exponentBytes n.exponent

end Numeral

namespace Piece

def hexBytes (u : Nat) : Bytes :=
  [hexByte (u / 4096 % 16), hexByte (u / 256 % 16), hexByte (u / 16 % 16), hexByte (u % 16)]

def bytes : Piece → Bytes
  | byte b =>
    match escapeLetter? b with
    | some letter => [92, letter]
    | none => [b]
  | unit u => 92 :: ascii 'u' :: hexBytes u

end Piece

namespace Token

def bytes : Token → Bytes
  | openArray => [ascii '[']
  | closeArray => [ascii ']']
  | openObject => [0x7B]
  | closeObject => [0x7D]
  | comma => [ascii ',']
  | colon => [ascii ':']
  | null => utf8 "null"
  | bool true => utf8 "true"
  | bool false => utf8 "false"
  | number n => n.bytes
  | text t => 34 :: t.flatMap Piece.bytes ++ [34]

end Token

/-! ### Words -/

namespace Numeral

/-- One digit or more, and what follows them. -/
def takeDigits? (bs : Bytes) : Option (List Nat × Bytes) :=
  match bs.takeWhile isDigitByte with
  | [] => none
  | ds => some (ds.map digitOf, bs.dropWhile isDigitByte)

/-- The whole part: a single zero, or digits that do not start with one. -/
def takeWhole? (bs : Bytes) : Option (List Nat × Bytes) :=
  match takeDigits? bs with
  | some (0 :: _ :: _, _) => none
  | other => other

/-- The fraction, if there is a point. -/
def takeFraction? : Bytes → Option (List Nat × Bytes)
  | 46 :: bs => takeDigits? bs
  | bs => some ([], bs)

/-- The exponent, if there is a mark, up to the end of the word. -/
def takeExponent? : Bytes → Option (Option (ExponentSign × List Nat))
  | [] => some none
  | mark :: bs =>
    if mark = ascii 'e' ∨ mark = ascii 'E' then
      let (sign, bs) : ExponentSign × Bytes :=
        match bs with
        | 43 :: bs => (.plus, bs)
        | 45 :: bs => (.minus, bs)
        | bs => (.unsigned, bs)
      match takeDigits? bs with
      | some (ds, []) => some (some (sign, ds))
      | _ => none
    else none

/-- The literal that a word is. -/
def ofBytes? (word : Bytes) : Option Numeral := do
  let (negative, bs) := match word with
    | 45 :: bs => (true, bs)
    | bs => (false, bs)
  let (whole, bs) ← takeWhole? bs
  let (fraction, bs) ← takeFraction? bs
  let exponent ← takeExponent? bs
  some { negative, whole, fraction, exponent }

end Numeral

/-- The token that a word is. -/
def Token.ofWord? (word : Bytes) : Option Token :=
  if word = utf8 "null" then some .null
  else if word = utf8 "true" then some (.bool true)
  else if word = utf8 "false" then some (.bool false)
  else (Numeral.ofBytes? word).map .number

/-! ### The lexer -/

/-- What the lexer is in the middle of; lists stand backwards. -/
inductive Lexing where
  | between
  | word (bs : Bytes)
  | text (ps : List Piece)
  /-- After a backslash. -/
  | escape (ps : List Piece)
  /-- After `\u`, with so many digits to come. -/
  | unit (ps : List Piece) (left value : Nat)

/-- The tokens so far, backwards, and what is going on. -/
structure Lexer where
  tokens : List Token
  doing : Lexing

namespace Lexer

def start : Lexer := ⟨[], .between⟩

def isBlank (b : UInt8) : Bool := b == 32 || b == 9 || b == 10 || b == 13

/-- Bytes that words are made of. -/
def isWordByte (b : UInt8) : Bool :=
  isDigitByte b || (ascii 'a' ≤ b && b ≤ ascii 'z') || (ascii 'A' ≤ b && b ≤ ascii 'Z') ||
    b == ascii '+' || b == ascii '-' || b == ascii '.'

def punctuation? (b : UInt8) : Option Token :=
  if b = ascii '[' then some .openArray
  else if b = ascii ']' then some .closeArray
  else if b = 0x7B then some .openObject
  else if b = 0x7D then some .closeObject
  else if b = ascii ',' then some .comma
  else if b = ascii ':' then some .colon
  else none

/-- A byte that no token is waiting for. -/
def fresh (tokens : List Token) (b : UInt8) : Option Lexer :=
  if isBlank b then some ⟨tokens, .between⟩
  else if b = 34 then some ⟨tokens, .text []⟩
  else if isWordByte b then some ⟨tokens, .word [b]⟩
  else (punctuation? b).map fun t => ⟨t :: tokens, .between⟩

def step (s : Lexer) (b : UInt8) : Option Lexer :=
  match s.doing with
  | .between => fresh s.tokens b
  | .word bs =>
    if isWordByte b then some ⟨s.tokens, .word (b :: bs)⟩
    else
      match Token.ofWord? bs.reverse with
      | some t => fresh (t :: s.tokens) b
      | none => none
  | .text ps =>
    if b = 34 then some ⟨.text ps.reverse :: s.tokens, .between⟩
    else if b = 92 then some ⟨s.tokens, .escape ps⟩
    else if b < 32 then none
    else some ⟨s.tokens, .text (.byte b :: ps)⟩
  | .escape ps =>
    if b = ascii 'u' then some ⟨s.tokens, .unit ps 4 0⟩
    else (escapedByte? b).map fun c => ⟨s.tokens, .text (.byte c :: ps)⟩
  | .unit ps left value =>
    (hexDigit? b).map fun d =>
      if left ≤ 1 then ⟨s.tokens, .text (.unit (16 * value + d) :: ps)⟩
      else ⟨s.tokens, .unit ps (left - 1) (16 * value + d)⟩

def run (s : Lexer) : Bytes → Option Lexer
  | [] => some s
  | b :: bs =>
    match s.step b with
    | some s => run s bs
    | none => none

/-- The tokens, if nothing is left open at the end. -/
def finish (s : Lexer) : Option (List Token) :=
  match s.doing with
  | .between => some s.tokens.reverse
  | .word bs => (Token.ofWord? bs.reverse).map fun t => (t :: s.tokens).reverse
  | _ => none

end Lexer

/-- The tokens of a text. -/
def tokens? (bs : Bytes) : Option (List Token) := do (← Lexer.start.run bs).finish

end Rewind.Json
