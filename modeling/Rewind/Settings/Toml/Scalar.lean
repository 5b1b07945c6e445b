import Rewind.Binary64.Nearest

/-! Scalars of TOML: numbers, dates, and strings.

A scalar without quotes is a word, and a word is looked at as a whole: it is a
boolean, a number in one of four bases, a float or a date, or it is nothing. Strings
come in four kinds, on one line or several, with escapes or without. -/

namespace Rewind.Toml

/-- What a scalar is, as far as settings can tell scalars apart. -/
inductive Scalar where
  | bool (b : Bool)
  | int (i : Int)
  | float
  | date
  | str (s : String)
deriving DecidableEq, Inhabited

/-! ### Digits -/

def digitIn? (base : Nat) (c : Char) : Option Nat :=
  let value :=
    if '0' ≤ c ∧ c ≤ '9' then c.toNat - 48
    else if 'a' ≤ c ∧ c ≤ 'z' then c.toNat - 87
    else if 'A' ≤ c ∧ c ≤ 'Z' then c.toNat - 55
    else base
  if value < base then some value else none

def isDigit (c : Char) : Bool := (digitIn? 10 c).isSome

/-- Digits with single underscores between them. -/
def digits? (base : Nat) : List Char → Option (List Nat)
  | [] => none
  | [c] => (digitIn? base c).map ([·])
  | c :: '_' :: cs => do some ((← digitIn? base c) :: (← digits? base cs))
  | c :: d :: cs => do some ((← digitIn? base c) :: (← digits? base (d :: cs)))

def ofDigits (base : Nat) (ds : List Nat) : Nat := ds.foldl (fun n d => base * n + d) 0

/-- Digits of which the first is not a superfluous zero. -/
def wholeDigits? (cs : List Char) : Option (List Nat) := do
  let ds ← digits? 10 cs
  match ds with
  | 0 :: _ :: _ => none
  | ds => some ds

/-! ### Numbers -/

def signed (cs : List Char) : Bool × List Char :=
  match cs with
  | '-' :: cs => (true, cs)
  | '+' :: cs => (false, cs)
  | cs => (false, cs)

/-- An integer of 64 bits. -/
def inRange? (i : Int) : Option Scalar :=
  if -0x8000000000000000 ≤ i ∧ i < 0x8000000000000000 then some (.int i) else none

def integer? (word : List Char) : Option Scalar :=
  match word with
  | '0' :: 'x' :: cs => do inRange? (ofDigits 16 (← digits? 16 cs))
  | '0' :: 'o' :: cs => do inRange? (ofDigits 8 (← digits? 8 cs))
  | '0' :: 'b' :: cs => do inRange? (ofDigits 2 (← digits? 2 cs))
  | word =>
    let (negative, cs) := signed word
    do
      let n := ofDigits 10 (← wholeDigits? cs)
      inRange? (if negative then -n else n)

/-- Splits at the first character with a property. -/
def cut (p : Char → Bool) (cs : List Char) : List Char × List Char :=
  (cs.takeWhile (!p ·), cs.dropWhile (!p ·))

/-- A float with a point or an exponent, or one of the words for infinity and NaN. Too
large a positive one is refused. -/
def float? (word : List Char) : Option Scalar :=
  let (negative, cs) := signed word
  if cs = ['i', 'n', 'f'] ∨ cs = ['n', 'a', 'n'] then some .float
  else
    let (mantissa, mark) := cut (fun c => c == 'e' || c == 'E') cs
    let (whole, point) := cut (· == '.') mantissa
    if mark.isEmpty ∧ point.isEmpty then none
    else do
      let whole ← wholeDigits? whole
      let fraction ← match point with
        | [] => some []
        | _ :: cs => digits? 10 cs
      let exponent : Int ← match mark with
        | [] => some 0
        | _ :: cs =>
          let (negative, cs) := signed cs
          (digits? 10 cs).map fun ds =>
            if negative then -(ofDigits 10 ds : Int) else (ofDigits 10 ds : Int)
      match Binary64.ofDecimal? negative (whole ++ fraction) (exponent - fraction.length) with
      | some _ => some .float
      | none => if negative then some .float else none

/-! ### Dates and times -/

/-- Exactly `n` digits. -/
def fixed? (n : Nat) (cs : List Char) : Option (Nat × List Char) :=
  let ds := cs.take n
  if ds.length = n ∧ ds.all isDigit then some (ofDigits 10 (ds.filterMap (digitIn? 10)), cs.drop n)
  else none

def expect? (c : Char) : List Char → Option (List Char)
  | d :: cs => if d = c then some cs else none
  | [] => none

def daysIn (year month : Nat) : Nat :=
  if month = 2 then
    (if year % 4 = 0 ∧ (year % 100 ≠ 0 ∨ year % 400 = 0) then 29 else 28)
  else if month = 4 ∨ month = 6 ∨ month = 9 ∨ month = 11 then 30
  else 31

def takeDate? (cs : List Char) : Option (List Char) := do
  let (year, cs) ← fixed? 4 cs
  let cs ← expect? '-' cs
  let (month, cs) ← fixed? 2 cs
  let cs ← expect? '-' cs
  let (day, cs) ← fixed? 2 cs
  if 1 ≤ month ∧ month ≤ 12 ∧ 1 ≤ day ∧ day ≤ daysIn year month then some cs else none

def takeClock? (cs : List Char) : Option (List Char) := do
  let (hour, cs) ← fixed? 2 cs
  let cs ← expect? ':' cs
  let (minute, cs) ← fixed? 2 cs
  if hour ≤ 23 ∧ minute ≤ 59 then some cs else none

def takeTime? (cs : List Char) : Option (List Char) := do
  let cs ← takeClock? cs
  let cs ← expect? ':' cs
  let (second, cs) ← fixed? 2 cs
  if second ≤ 60 then
    match cs with
    | '.' :: d :: cs => if isDigit d then some (cs.dropWhile isDigit) else none
    | ['.'] => none
    | cs => some cs
  else none

/-- The distance from universal time, or nothing. -/
def offsetOk : List Char → Bool
  | [] => true
  | ['Z'] | ['z'] => true
  | '+' :: cs | '-' :: cs => takeClock? cs == some []
  | _ => false

/-- A date, a time, or both. -/
def date? (word : List Char) : Option Scalar :=
  match takeDate? word with
  | some [] => some .date
  | some (c :: cs) =>
    if c = 'T' ∨ c = 't' ∨ c = ' ' then
      match takeTime? cs with
      | some rest => if offsetOk rest then some .date else none
      | none => none
    else none
  | none => if takeTime? word = some [] then some .date else none

/-! ### Words -/

/-- Characters that words are made of. -/
def isWordChar (c : Char) : Bool :=
  c.isAlphanum || c == '+' || c == '-' || c == '_' || c == '.' || c == ':'

def word? (word : List Char) : Option Scalar :=
  if word = ['t', 'r', 'u', 'e'] then some (.bool true)
  else if word = ['f', 'a', 'l', 's', 'e'] then some (.bool false)
  else integer? word <|> float? word <|> date? word

/-- A word at the front. A date may be followed by a blank and a time. -/
def takeWord? (cs : List Char) : Option (Scalar × List Char) := do
  let word := cs.takeWhile isWordChar
  let rest := cs.dropWhile isWordChar
  match takeDate? word, rest with
  | some [], ' ' :: d :: rest' =>
    if isDigit d then
      let time := d :: rest'.takeWhile isWordChar
      some (← date? (word ++ ' ' :: time), rest'.dropWhile isWordChar)
    else some (← word? word, rest)
  | _, _ => some (← word? word, rest)

/-! ### Strings -/

/-- What comments and strings may hold on one line. -/
def isPlain (c : Char) : Bool := c == '\t' || (0x20 ≤ c.toNat && c.toNat != 0x7F)

def quote : Char := Char.ofNat 34

def tick : Char := Char.ofNat 39

def backslash : Char := Char.ofNat 92

/-- The scalar value of so many hexadecimal digits. -/
def hexChar? (n : Nat) (cs : List Char) : Option (Char × List Char) := do
  let ds ← (cs.take n).mapM (digitIn? 16)
  let value := ofDigits 16 ds
  if ds.length = n ∧ value.isValidChar then some (Char.ofNat value, cs.drop n) else none

/-- What follows a backslash. -/
def escape? : List Char → Option (Char × List Char)
  | c :: cs =>
    if c = 'b' then some (Char.ofNat 8, cs)
    else if c = 't' then some ('\t', cs)
    else if c = 'n' then some ('\n', cs)
    else if c = 'f' then some (Char.ofNat 12, cs)
    else if c = 'r' then some ('\r', cs)
    else if c = quote ∨ c = backslash then some (c, cs)
    else if c = 'u' then hexChar? 4 cs
    else if c = 'U' then hexChar? 8 cs
    else none
  | [] => none

/-- A line end at the front. -/
def newline? : List Char → Option (List Char)
  | '\n' :: cs => some cs
  | '\r' :: '\n' :: cs => some cs
  | _ => none

def isBlank (c : Char) : Bool := c == ' ' || c == '\t'

/-- Everything up to the next visible character. -/
def skipBlankLines : Nat → List Char → List Char
  | 0, cs => cs
  | fuel + 1, cs =>
    let cs := cs.dropWhile isBlank
    match newline? cs with
    | some cs => skipBlankLines fuel cs
    | none => cs

/-- The rest of a string on one line, backwards onto `done`. -/
def takeLine? (mark : Char) : Nat → List Char → List Char → Option (List Char × List Char)
  | 0, _, _ => none
  | _, _, [] => none
  | fuel + 1, done, c :: cs =>
    if c = mark then some (done.reverse, cs)
    else if c = backslash ∧ mark = quote then
      match escape? cs with
      | some (e, cs) => takeLine? mark fuel (e :: done) cs
      | none => none
    else if isPlain c then takeLine? mark fuel (c :: done) cs
    else none

/-- The rest of a string over several lines. Up to two marks stand for themselves, also
in front of the three that end it. A line end in it is one line feed, and a backslash
at the end of a line swallows everything up to the next visible character. -/
def takeLines? (mark : Char) : Nat → List Char → List Char → Option (List Char × List Char)
  | 0, _, _ => none
  | _, _, [] => none
  | fuel + 1, done, c :: cs =>
    if c = mark then
      let marks := (c :: cs).takeWhile (· = mark)
      let rest := (c :: cs).dropWhile (· = mark)
      if marks.length < 3 then takeLines? mark fuel (marks ++ done) rest
      else if marks.length ≤ 5 then some ((marks.drop 3 ++ done).reverse, rest)
      else none
    else
      match newline? (c :: cs) with
      | some cs => takeLines? mark fuel ('\n' :: done) cs
      | none =>
        if c = backslash ∧ mark = quote then
          match newline? (cs.dropWhile isBlank) with
          | some cs => takeLines? mark fuel done (skipBlankLines cs.length cs)
          | none =>
            match escape? cs with
            | some (e, cs) => takeLines? mark fuel (e :: done) cs
            | none => none
        else if isPlain c then takeLines? mark fuel (c :: done) cs
        else none

/-- A string of one line at the front. -/
def takeSimpleString? (cs : List Char) : Option (String × List Char) :=
  match cs with
  | c :: cs =>
    if c = quote ∨ c = tick then
      (takeLine? c (cs.length + 1) [] cs).map fun r => (String.ofList r.1, r.2)
    else none
  | [] => none

/-- A string of any kind at the front; a line end right after the opening marks of a
long one does not count. -/
def takeString? (cs : List Char) : Option (String × List Char) :=
  match cs with
  | a :: b :: c :: rest =>
    if a = b ∧ b = c ∧ (a = quote ∨ a = tick) then
      let rest := (newline? rest).getD rest
      (takeLines? a (rest.length + 1) [] rest).map fun r => (String.ofList r.1, r.2)
    else takeSimpleString? cs
  | cs => takeSimpleString? cs

end Rewind.Toml
