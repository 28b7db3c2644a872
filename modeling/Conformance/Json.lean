/-!
# JSON texts

A reader of JSON texts that keeps what a strict consumer may want to tell apart: the order and repetition of members,
whether a number has a sign, a fraction or an exponent, and whether the escapes of a string make up text at all.
-/

namespace Conformance

/-- A JSON value. -/
inductive Json where
  | null
  | bool (b : Bool)
  /-- A number as written: its sign, its whole part, and whether nothing follows the whole part. -/
  | number (negative : Bool) (whole : Nat) (isWhole : Bool)
  /-- A string; `none` when its escapes name half of a surrogate pair only. -/
  | string (s : Option String)
  | array (items : List Json)
  /-- Members in the order written, repeated names included. -/
  | object (members : List (Option String × Json))

namespace Json

/-! ## Leaves: blanks, digits, strings -/

def isBlank (c : Char) : Bool := c = ' ' || c = '\n' || c = '\t' || c = '\r'

/-- Skips blanks. -/
def skip (cs : List Char) : List Char := cs.dropWhile isBlank

/-- Takes the text `word` off the front. -/
def word? (word : String) (cs : List Char) : Option (List Char) :=
  if word.toList.isPrefixOf cs then some (cs.drop word.length) else none

/-- The number that a run of decimal digits denotes. -/
def decimal (digits : List Char) : Nat := digits.foldl (fun n c => 10 * n + (c.toNat - '0'.toNat)) 0

/-- A run of at least one digit. -/
def digits? (cs : List Char) : Option (List Char × List Char) :=
  match cs.takeWhile Char.isDigit with
  | [] => none
  | run => some (run, cs.dropWhile Char.isDigit)

/-- What may follow the whole part of a number: a fraction and an exponent. Answers whether neither was there. -/
def tail? (cs : List Char) : Option (Bool × List Char) := do
  let (noFraction, cs) ← match cs with
    | '.' :: r => (digits? r).map fun p => (false, p.2)
    | _ => some (true, cs)
  match cs with
  | 'e' :: r | 'E' :: r =>
    let (_, rest) ← digits? (match r with | '+' :: r | '-' :: r => r | _ => r)
    some (false, rest)
  | _ => some (noFraction, cs)

/-- A number without its sign; a leading zero stands alone. -/
def unsigned? (negative : Bool) (cs : List Char) : Option (Json × List Char) := do
  let (run, rest) ← digits? cs
  if run.head? = some '0' && run.length ≠ 1 then none
  let (isWhole, rest) ← tail? rest
  some (.number negative (decimal run) isWhole, rest)

def hexDigit? (c : Char) : Option Nat :=
  if c.isDigit then some (c.toNat - '0'.toNat)
  else if 'a' ≤ c && c ≤ 'f' then some (c.toNat - 'a'.toNat + 10)
  else if 'A' ≤ c && c ≤ 'F' then some (c.toNat - 'A'.toNat + 10)
  else none

/-- The UTF-16 unit that four hexadecimal digits denote. -/
def unit? (a b c d : Char) : Option Nat := do
  return ((((← hexDigit? a) * 16 + (← hexDigit? b)) * 16 + (← hexDigit? c)) * 16 + (← hexDigit? d))

/-- What a one-letter escape stands for. -/
def escape? : Char → Option Char
  | '"' => some '"'
  | '\\' => some '\\'
  | '/' => some '/'
  | 'b' => some '\x08'
  | 'f' => some '\x0c'
  | 'n' => some '\n'
  | 'r' => some '\r'
  | 't' => some '\t'
  | _ => none

/-- The rest of a string after its opening quote: code points, and surrogates where escapes name them. -/
def units? : List Char → Option (List Nat × List Char)
  | '"' :: r => some ([], r)
  | '\\' :: 'u' :: a :: b :: c :: d :: r => do
    let u ← unit? a b c d
    let (us, rest) ← units? r
    some (u :: us, rest)
  | '\\' :: c :: r => do
    let x ← escape? c
    let (us, rest) ← units? r
    some (x.toNat :: us, rest)
  | c :: r =>
    if c.toNat < 32 || c = '\\' then none
    else do
      let (us, rest) ← units? r
      some (c.toNat :: us, rest)
  | [] => none

/-- Joins surrogate pairs; half a pair is no text. -/
def text? : List Nat → Option (List Char)
  | [] => some []
  | u :: us =>
    if 0xDC00 ≤ u && u ≤ 0xDFFF then none
    else if 0xD800 ≤ u && u ≤ 0xDBFF then
      match us with
      | v :: vs =>
        if 0xDC00 ≤ v && v ≤ 0xDFFF then
          (text? vs).map (Char.ofNat (0x10000 + (u - 0xD800) * 0x400 + (v - 0xDC00)) :: ·)
        else none
      | [] => none
    else (text? us).map (Char.ofNat u :: ·)

/-- A string after its opening quote. -/
def string? (cs : List Char) : Option (Option String × List Char) :=
  (units? cs).map fun (us, rest) => ((text? us).map String.ofList, rest)

/-! ## Values -/

mutual

/-- A value that starts at the first character. -/
def value? : Nat → List Char → Option (Json × List Char)
  | 0, _ => none
  | n + 1, cs =>
    match cs with
    | '"' :: r => (string? r).map fun (s, rest) => (.string s, rest)
    | '[' :: r =>
      match skip r with
      | ']' :: rest => some (.array [], rest)
      | r => (items? n r).map fun (xs, rest) => (.array xs, rest)
    | '{' :: r =>
      match skip r with
      | '}' :: rest => some (.object [], rest)
      | r => (members? n r).map fun (ms, rest) => (.object ms, rest)
    | '-' :: r => unsigned? true r
    | 't' :: r => (word? "rue" r).map (.bool true, ·)
    | 'f' :: r => (word? "alse" r).map (.bool false, ·)
    | 'n' :: r => (word? "ull" r).map (.null, ·)
    | _ => unsigned? false cs

/-- The items of an array up to its closing bracket; at least one. -/
def items? : Nat → List Char → Option (List Json × List Char)
  | 0, _ => none
  | n + 1, cs => do
    let (x, rest) ← value? n cs
    match skip rest with
    | ']' :: rest => some ([x], rest)
    | ',' :: rest => (items? n (skip rest)).map fun (xs, rest) => (x :: xs, rest)
    | _ => none

/-- The members of an object up to its closing brace; at least one. -/
def members? : Nat → List Char → Option (List (Option String × Json) × List Char)
  | 0, _ => none
  | n + 1, cs =>
    match cs with
    | '"' :: r => do
      let (name, rest) ← string? r
      match skip rest with
      | ':' :: rest =>
        let (x, rest) ← value? n (skip rest)
        match skip rest with
        | '}' :: rest => some ([(name, x)], rest)
        | ',' :: rest => (members? n (skip rest)).map fun (ms, rest) => ((name, x) :: ms, rest)
        | _ => none
      | _ => none
    | _ => none

end

/-- Reads a whole text. Every nested call consumes a character, so the length of the text is allowance enough. -/
def ofText? (text : String) : Option Json :=
  let cs := text.toList
  match value? (2 * cs.length + 2) (skip cs) with
  | some (x, rest) => if (skip rest).isEmpty then some x else none
  | none => none

end Json

end Conformance
