import Rewind.Settings.Datum
import Rewind.Settings.Toml.Scalar

/-! Settings in RON.

RON is read with the settings in mind: a record may be named, but then by its own
name; an option is written `None` or `Some(…)`, unless the text switches on that a
plain value stands for itself; a number has to be in the range of its setting when it
is read. Fields that no setting answers to are skipped, whatever value they have. -/

namespace Rewind.Ron

open Toml (quote tick backslash hexChar? digitIn? ofDigits isDigit)

abbrev Text := List Char

/-! ### Blanks and names -/

def isBlank (c : Char) : Bool := c == ' ' || c == '\n' || c == '\t' || c == '\r'

/-- What follows the end of a block comment in which `level` comments are open. -/
def afterBlock? : Nat → Nat → Text → Option Text
  | _, 0, cs => some cs
  | 0, _, _ => none
  | fuel + 1, level + 1, cs =>
    match cs with
    | '/' :: '*' :: cs => afterBlock? fuel (level + 2) cs
    | '*' :: '/' :: cs => afterBlock? fuel level cs
    | _ :: cs => afterBlock? fuel (level + 1) cs
    | [] => none

/-- Skips blanks and comments. -/
def skip : Nat → Text → Text
  | 0, cs => cs
  | fuel + 1, cs =>
    match cs.dropWhile isBlank with
    | '/' :: '/' :: cs => skip fuel (cs.dropWhile (· != '\n'))
    | '/' :: '*' :: cs =>
      match afterBlock? (cs.length + 1) 1 cs with
      | some cs => skip fuel cs
      | none => '/' :: '*' :: cs
    | cs => cs

def skipSpace (cs : Text) : Text := skip (cs.length + 1) cs

/-- A text at the front. -/
def strip? (word : String) (cs : Text) : Option Text :=
  if cs.take word.length = word.toList then some (cs.drop word.length) else none

def isNameStart (c : Char) : Bool := c.isAlpha || c == '_'

def isNameChar (c : Char) : Bool := c.isAlphanum || c == '_'

/-- Names written behind `r#` may hold these as well. -/
def isRawChar (c : Char) : Bool := isNameChar c || c == '.' || c == '+' || c == '-'

/-- A name at the front. What reads on as a raw name has to be written as one. -/
def takeName? (cs : Text) : Option (String × Text) :=
  match cs with
  | 'r' :: '#' :: d :: rest =>
    if isRawChar d then
      some (String.ofList ((d :: rest).takeWhile isRawChar), (d :: rest).dropWhile isRawChar)
    else none
  | c :: d :: _ =>
    if !isNameStart c || (c == 'r' && (d == quote || d == '#')) then none
    else
      let name := cs.takeWhile isNameChar
      if name.length < (cs.takeWhile isRawChar).length then none
      else some (String.ofList name, cs.dropWhile isNameChar)
  | [c] => if isNameStart c && c != 'r' then some (String.ofList [c], []) else none
  | [] => none

/-- A word at the front that does not go on as a name. -/
def takeWord? (word : String) (cs : Text) : Option Text :=
  match strip? word cs with
  | some [] => some []
  | some (c :: cs) => if isNameChar c then none else some (c :: cs)
  | none => none

/-- A comma, if there is one, and the blanks around it. -/
def takeComma (cs : Text) : Bool × Text :=
  match skipSpace cs with
  | ',' :: cs => (true, skipSpace cs)
  | cs => (false, cs)

/-! ### Scalars -/

def isIntChar (c : Char) : Bool := (digitIn? 16 c).isSome || c == '_'

/-- Digits in the base that their first two characters tell, without a sign. -/
def takeDigits? (cs : Text) : Option (Nat × Text) :=
  let (base, cs) : Nat × Text :=
    match cs with
    | '0' :: 'x' :: cs => (16, cs)
    | '0' :: 'b' :: cs => (2, cs)
    | '0' :: 'o' :: cs => (8, cs)
    | cs => (10, cs)
  let word := cs.takeWhile isIntChar
  if word.isEmpty || word.head? = some '_' then none
  else do
    let ds ← (word.filter (· != '_')).mapM (digitIn? base)
    some (ofDigits base ds, cs.dropWhile isIntChar)

/-- An integer with a sign or without. -/
def takeSigned? (cs : Text) : Option (Int × Text) :=
  match cs with
  | '-' :: cs => (takeDigits? cs).map fun r => (-(r.1 : Int), r.2)
  | '+' :: cs => (takeDigits? cs).map fun r => ((r.1 : Int), r.2)
  | cs => (takeDigits? cs).map fun r => ((r.1 : Int), r.2)

/-- The digits of a scalar value between braces, one to six of them. -/
def takeBraced? (cs : Text) : Option (Char × Text) :=
  match cs with
  | c :: cs =>
    let ds := cs.takeWhile fun d => (digitIn? 16 d).isSome
    match hexChar? ds.length cs, cs.drop ds.length with
    | some (value, _), d :: rest =>
      if c.toNat = 123 ∧ d.toNat = 125 ∧ 0 < ds.length ∧ ds.length ≤ 6 then some (value, rest)
      else none
    | _, _ => none
  | [] => none

/-- What follows a backslash. -/
def escape? : Text → Option (Char × Text)
  | c :: cs =>
    if c = tick ∨ c = quote ∨ c = backslash then some (c, cs)
    else if c = 'n' then some ('\n', cs)
    else if c = 'r' then some ('\r', cs)
    else if c = 't' then some ('\t', cs)
    else if c = '0' then some (Char.ofNat 0, cs)
    else if c = 'x' then hexChar? 2 cs
    else if c = 'u' then takeBraced? cs
    else none
  | [] => none

/-- The rest of a string with escapes, backwards onto `done`. -/
def takeEscaped? : Nat → Text → Text → Option (String × Text)
  | 0, _, _ => none
  | _, _, [] => none
  | fuel + 1, done, c :: cs =>
    if c = quote then some (String.ofList done.reverse, cs)
    else if c = backslash then
      match escape? cs with
      | some (e, cs) => takeEscaped? fuel (e :: done) cs
      | none => none
    else takeEscaped? fuel (c :: done) cs

/-- The rest of a string that ends with `ending`, as it stands. -/
def takeRaw? (ending : Text) (done : Text) : Text → Option (String × Text)
  | [] => none
  | c :: cs =>
    if (c :: cs).take ending.length = ending then
      some (String.ofList done.reverse, (c :: cs).drop ending.length)
    else takeRaw? ending (c :: done) cs

def takeString? (cs : Text) : Option (String × Text) :=
  match cs with
  | 'r' :: cs =>
    let hashes := cs.takeWhile (· == '#')
    match cs.dropWhile (· == '#') with
    | c :: cs => if c = quote then takeRaw? (quote :: hashes) [] cs else none
    | [] => none
  | c :: cs => if c = quote then takeEscaped? (cs.length + 1) [] cs else none
  | [] => none

/-- A character between ticks. -/
def takeChar? (cs : Text) : Option Text :=
  let close (cs : Text) : Option Text :=
    match cs with
    | c :: cs => if c = tick then some cs else none
    | [] => none
  match cs with
  | a :: b :: cs =>
    if a ≠ tick ∨ b = tick then none
    else if b = backslash then (escape? cs).bind fun r => close r.2
    else close cs
  | _ => none

def isFloatChar (c : Char) : Bool :=
  isDigit c || c == '.' || c == 'e' || c == 'E' || c == '+' || c == '-' || c == '_'

/-- Digits in which a point may stand, and an exponent. -/
def isFloat (word : Text) : Bool :=
  let (_, cs) := Toml.signed word
  let (mantissa, mark) := Toml.cut (fun c => c == 'e' || c == 'E') cs
  let (whole, point) := Toml.cut (· == '.') mantissa
  let fraction := point.drop 1
  let (_, power) := Toml.signed (mark.drop 1)
  whole.all isDigit && fraction.all isDigit && !(whole.isEmpty && fraction.isEmpty) &&
    (mark.isEmpty || (!power.isEmpty && power.all isDigit))

/-- The words that are floats, with a sign or without. -/
def floatWords : List String := ["inf", "+inf", "-inf", "NaN", "+NaN", "-NaN"]

def takeFloat? (cs : Text) : Option Text :=
  match floatWords.findSome? (takeWord? · cs) with
  | some cs => some cs
  | none => if isFloat (cs.takeWhile isFloatChar) then some (cs.dropWhile isFloatChar) else none

/-- An integer of 64 bits. -/
def takeFitting? (cs : Text) : Option Text :=
  match cs.head?.map fun c => c == '+' || c == '-', takeSigned? cs with
  | some false, some (i, rest) => if i < UInt64.size then some rest else none
  | _, some (i, rest) =>
    if -0x8000000000000000 ≤ i ∧ i < 0x8000000000000000 then some rest else none
  | _, none => none

/-- A number of any kind. What goes on further as a float than as an integer is one,
and so is what turns out to be no integer. -/
def takeNumber? (cs : Text) : Option Text :=
  let unsigned := (Toml.signed cs).2
  if (unsigned.takeWhile isIntChar).length < (unsigned.takeWhile isFloatChar).length then
    takeFloat? cs
  else takeFitting? cs <|> takeFloat? cs

/-! ### Values nobody asks for -/

/-- Elements up to a closing character, with commas between them. -/
def skipElements? (closing : Char) (element? : Text → Option Text) : Nat → Bool → Text → Option Text
  | 0, _, _ => none
  | fuel + 1, hadComma, cs =>
    match skipSpace cs with
    | [] => none
    | c :: rest =>
      if c = closing then some rest
      else if !hadComma then none
      else
        match element? (c :: rest) with
        | none => none
        | some cs =>
          let (comma, cs) := takeComma cs
          skipElements? closing element? fuel comma cs

/-- A key and its value with a colon between them. -/
def skipPair? (key? value? : Text → Option Text) (cs : Text) : Option Text := do
  let cs ← key? cs
  let cs ← Toml.expect? ':' (skipSpace cs)
  value? (skipSpace cs)

/-- A name that is a key. -/
def skipName? (cs : Text) : Option Text := (takeName? cs).map Prod.snd

def startsField (cs : Text) : Bool :=
  match takeName? (skipSpace cs) with
  | some (_, cs) => (skipSpace cs).head? == some ':'
  | none => false

/-- A value of any kind. `payload?` reads what stands in an option, and `element?` what
stands in a container, if containers may be opened at all. -/
def skipWith? (implicitSome canOpen : Bool) (payload? element? : Text → Option Text)
    (cs : Text) : Option Text :=
  let members? (cs : Text) : Option Text :=
    if !canOpen then none
    else if startsField cs then
      skipElements? ')' (skipPair? skipName? element?) (cs.length + 1) true cs
    else skipElements? ')' element? (cs.length + 1) true cs
  let word? := ["true", "false", "None", "()", "inf", "-inf", "NaN"].findSome? fun word =>
    if word = "()" then strip? word cs else takeWord? word cs
  if let some cs := word? then some cs
  else if let some cs := takeWord? "Some" cs then
    match skipSpace cs with
    | '(' :: cs => do Toml.expect? ')' (takeComma (← payload? (skipSpace cs))).2
    | cs => if implicitSome then payload? cs else none
  else if let some (_, cs) := takeName? cs then
    match skipSpace cs with
    | '(' :: cs => members? cs
    | cs => some cs
  else
    match cs with
    | [] => none
    | '(' :: cs => members? cs
    | '[' :: cs => if canOpen then skipElements? ']' element? (cs.length + 1) true cs else none
    | c :: rest =>
      if c.toNat = 123 then
        if canOpen then
          skipElements? (Char.ofNat 125) (skipPair? element? element?) (rest.length + 1) true rest
        else none
      else if c = '.' then takeFloat? cs
      else if isDigit c ∨ c = '+' ∨ c = '-' then takeNumber? cs
      else if c = tick then takeChar? cs
      else (takeString? cs).map Prod.snd

/-- A value of any kind with so many levels to spend. An option costs one level, and a
container two: one to open it, which an empty one spends as well, and one for what it
holds. -/
def skipValue? (implicitSome : Bool) : Nat → Text → Option Text
  | 0 => skipWith? implicitSome false (fun _ => none) (fun _ => none)
  | 1 => skipWith? implicitSome true (skipValue? implicitSome 0) (fun _ => none)
  | levels + 2 =>
    skipWith? implicitSome true (skipValue? implicitSome (levels + 1))
      (skipValue? implicitSome levels)

/-! ### Records -/

/-- The levels that a document may spend. -/
def levelLimit : Nat := 128

/-- The readers of the fields of a record. -/
abbrev Readers := List (String × (Text → Option (Datum × Text)))

/-- The fields of a record after its parenthesis, with so many levels to spend on each. A
known field comes once at most. -/
def takeFields? (implicitSome : Bool) (levels : Nat) (readers : Readers) :
    Nat → Bool → List (String × Datum) → Text → Option (Datum × Text)
  | 0, _, _, _ => none
  | fuel + 1, hadComma, fields, cs =>
    match skipSpace cs with
    | ')' :: cs => some (.record fields, cs)
    | cs =>
      if !hadComma then none
      else do
        let (name, cs) ← takeName? cs
        let cs ← Toml.expect? ':' (skipSpace cs)
        let cs := skipSpace cs
        match readers.find? (·.1 == name) with
        | some (_, read?) =>
          if (fields.find? (·.1 == name)).isSome then none
          else
            let (d, cs) ← read? cs
            let (comma, cs) := takeComma cs
            takeFields? implicitSome levels readers fuel comma (fields ++ [(name, d)]) cs
        | none =>
          let (comma, cs) := takeComma (← skipValue? implicitSome levels cs)
          takeFields? implicitSome levels readers fuel comma fields cs

/-- A record, with its name or without. It costs two levels, as any container. -/
def takeRecord? (implicitSome : Bool) (levels : Nat) (name : String) (readers : Readers)
    (cs : Text) : Option (Datum × Text) := do
  let cs ← match cs.head?.map isNameChar with
    | some true =>
      match takeName? cs with
      | some (found, cs) => if found = name then some cs else none
      | none => none
    | _ => some cs
  let cs ← Toml.expect? '(' (skipSpace cs)
  takeFields? implicitSome (levels - 2) readers (cs.length + 1) true [] cs

/-! ### Settings -/

def takeBool? (cs : Text) : Option (Datum × Text) :=
  match strip? "true" cs, strip? "false" cs with
  | some cs, _ => some (.bool true, cs)
  | none, some cs => some (.bool false, cs)
  | none, none => none

def takeInt? (cs : Text) : Option (Datum × Text) :=
  (takeSigned? cs).map fun r => (.int r.1, r.2)

def takeNat? (cs : Text) : Option (Datum × Text) :=
  (takeDigits? cs).map fun r => (.int r.1, r.2)

def takeStr? (cs : Text) : Option (Datum × Text) :=
  (takeString? cs).map fun r => (.str r.1, r.2)

/-- An optional number. -/
def takeOption? (implicitSome : Bool) (cs : Text) : Option (Datum × Text) :=
  match strip? "None" cs, strip? "Some" cs with
  | some cs, _ => some (.nothing, cs)
  | none, some cs =>
    match skipSpace cs with
    | '(' :: cs => do
      let (d, cs) ← takeNat? (skipSpace cs)
      some (d, ← Toml.expect? ')' (takeComma cs).2)
    | cs => if implicitSome then takeNat? cs else none
  | none, none => if implicitSome then takeNat? cs else none

def takeHistory? (implicitSome : Bool) (cs : Text) : Option (Datum × Text) :=
  takeRecord? implicitSome (levelLimit - 2) "HistoryConfig"
    [("enabled", takeBool?), ("compress", takeBool?), ("compression_level", takeNat?),
      ("max_depth", takeOption? implicitSome)] cs

def takeSettings? (implicitSome : Bool) (cs : Text) : Option (Datum × Text) :=
  takeRecord? implicitSome levelLimit "RuntimeConfig"
    [("concurrency", takeInt?), ("codec", takeStr?), ("history", takeHistory? implicitSome)] cs

/-! ### Documents -/

/-- The names of switches, up to the end of the list; answers whether the one for
options is among them. -/
def takeSwitches? : Nat → Bool → Text → Option (Bool × Text)
  | 0, _, _ => none
  | fuel + 1, on, cs => do
    let (name, cs) ← takeName? cs
    let on ←
      if name = "implicit_some" then some true
      else if name = "unwrap_newtypes" ∨ name = "unwrap_variant_newtypes" then some on
      else none
    match takeComma cs with
    | (true, cs) =>
      if (cs.head?.map isNameChar).getD false then takeSwitches? fuel on cs else some (on, cs)
    | (false, cs) => if (cs.head?.map isNameChar).getD false then none else some (on, cs)

/-- Symbols one after the other, with blanks after each. -/
def takeSymbols? : List String → Text → Option Text
  | [], cs => some cs
  | s :: ss, cs => do takeSymbols? ss (skipSpace (← strip? s cs))

/-- The attributes in front of a document. -/
def takeAttributes? : Nat → Bool → Text → Option (Bool × Text)
  | 0, _, _ => none
  | fuel + 1, on, cs =>
    if cs.head? = some '#' then do
      let cs ← takeSymbols? ["#", "!", "[", "enable", "("] cs
      let (on, cs) ← takeSwitches? (cs.length + 1) on cs
      let cs ← takeSymbols? [")", "]"] (skipSpace cs)
      takeAttributes? fuel on cs
    else some (on, cs)

/-- The data of a document. -/
def parse? (text : String) : Option Datum := do
  let cs := skipSpace text.toList
  let (implicitSome, cs) ← takeAttributes? (cs.length + 1) false cs
  let (d, cs) ← takeSettings? implicitSome cs
  if (skipSpace cs).isEmpty then some d else none

end Rewind.Ron
