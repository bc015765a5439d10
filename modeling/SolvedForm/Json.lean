/-
JSON documents.

* `Json`: the value of a document. A number is kept only where it is written
  as plain digits, and a text only where its escapes give whole characters.
* `Json.Piece`: the pieces of a text, characters and escaped code units;
  `Json.decode` joins the halves of surrogate pairs.
* `Json.read`: the value of a document, where it is one.
-/

namespace SolvedForm

/-- A JSON value. -/
inductive Json where
  | null
  | bool (b : Bool)
  /-- A number written as digits alone. -/
  | nat (n : Nat)
  /-- Any other number. -/
  | number
  /-- A text; none where an escape gives half of a surrogate pair. -/
  | text (s : Option String)
  | list (items : List Json)
  /-- The members of an object, in the order in which they are written. -/
  | object (members : List (Option String × Json))

namespace Json

/-! ### Texts -/

/-- A piece of a text: a character, or a code unit that is escaped by its
number. -/
inductive Piece where
  | char (c : Char)
  | unit (n : Nat)

/-- The first half of a surrogate pair. -/
def isHigh (n : Nat) : Bool := 0xD800 ≤ n && n < 0xDC00

/-- The second half of a surrogate pair. -/
def isLow (n : Nat) : Bool := 0xDC00 ≤ n && n < 0xE000

/-- The characters of a text, unless it has half of a surrogate pair. -/
def decode : List Piece → Option (List Char)
  | [] => some []
  | .char c :: ps => (decode ps).map (c :: ·)
  | .unit m :: .unit n :: ps =>
    if isHigh m then
      if isLow n then
        (decode ps).map (Char.ofNat (0x10000 + (m - 0xD800) * 0x400 + (n - 0xDC00)) :: ·)
      else none
    else if isLow m then none
    else (decode (.unit n :: ps)).map (Char.ofNat m :: ·)
  | .unit m :: ps =>
    if isHigh m || isLow m then none else (decode ps).map (Char.ofNat m :: ·)

/-- The value of a hexadecimal digit. -/
def hexDigit (c : Char) : Option Nat :=
  if c.isDigit then some (c.toNat - '0'.toNat)
  else if 'a' ≤ c ∧ c ≤ 'f' then some (c.toNat - 'a'.toNat + 10)
  else if 'A' ≤ c ∧ c ≤ 'F' then some (c.toNat - 'A'.toNat + 10)
  else none

/-- The character that a short escape stands for. -/
def shortEscape : Char → Option Char
  | '"' => some '"'
  | '\\' => some '\\'
  | '/' => some '/'
  | 'b' => some '\x08'
  | 'f' => some '\x0c'
  | 'n' => some '\n'
  | 'r' => some '\r'
  | 't' => some '\t'
  | _ => none

/-- The pieces of a text up to its closing quote, and what follows. -/
def readPieces : List Char → Option (List Piece × List Char)
  | [] => none
  | '"' :: cs => some ([], cs)
  | '\\' :: 'u' :: a :: b :: c :: d :: cs => do
    let n := ((← hexDigit a) * 16 + (← hexDigit b)) * 16 + (← hexDigit c)
    let n := n * 16 + (← hexDigit d)
    let (ps, rest) ← readPieces cs
    return (.unit n :: ps, rest)
  | '\\' :: e :: cs => do
    let c ← shortEscape e
    let (ps, rest) ← readPieces cs
    return (.char c :: ps, rest)
  | c :: cs =>
    if c.toNat < 0x20 || c = '\\' then none
    else do
      let (ps, rest) ← readPieces cs
      return (.char c :: ps, rest)

/-- A text after its opening quote, and what follows. -/
def readText (cs : List Char) : Option (Option String × List Char) :=
  (readPieces cs).map fun r => ((decode r.1).map String.ofList, r.2)

/-! ### Numbers -/

/-- The digits at the front, at least one, and what follows. -/
def readDigits (cs : List Char) : Option (List Char × List Char) :=
  match cs.takeWhile Char.isDigit with
  | [] => none
  | ds => some (ds, cs.dropWhile Char.isDigit)

/-- An integer part: digits without a leading zero, or a single zero. -/
def readWhole (cs : List Char) : Option (List Char × List Char) :=
  match cs with
  | '0' :: rest => if (rest.head?.map Char.isDigit) = some true then none else some (['0'], rest)
  | _ => readDigits cs

/-- What follows a fractional part, and whether there was one. -/
def skipFraction : List Char → Option (Bool × List Char)
  | '.' :: cs => (readDigits cs).map fun r => (true, r.2)
  | cs => some (false, cs)

/-- What follows an exponent, and whether there was one. -/
def skipExponent : List Char → Option (Bool × List Char)
  | c :: cs =>
    if c = 'e' || c = 'E' then
      let cs := match cs with
        | '+' :: rest => rest
        | '-' :: rest => rest
        | _ => cs
      (readDigits cs).map fun r => (true, r.2)
    else some (false, c :: cs)
  | [] => some (false, [])

/-- The number at the front, and what follows. -/
def readNumber (cs : List Char) : Option (Json × List Char) := do
  let (negative, cs) := match cs with
    | '-' :: rest => (true, rest)
    | _ => (false, cs)
  let (ds, cs) ← readWhole cs
  let (fraction, cs) ← skipFraction cs
  let (exponent, cs) ← skipExponent cs
  let n := ds.foldl (fun n d => n * 10 + (d.toNat - '0'.toNat)) 0
  return (if negative || fraction || exponent then .number else .nat n, cs)

/-! ### Values -/

/-- The characters after blanks, tabs and line ends. -/
def skipBlank (cs : List Char) : List Char :=
  cs.dropWhile fun c => c = ' ' || c = '\t' || c = '\n' || c = '\r'

/-- What follows a word at the front. -/
def skipWord (word cs : List Char) : Option (List Char) :=
  if word.isPrefixOf cs then some (cs.drop word.length) else none

mutual

/-- The value at the front, and what follows. -/
def readValue : (fuel : Nat) → List Char → Option (Json × List Char)
  | 0, _ => none
  | fuel + 1, cs =>
    match skipBlank cs with
    | 'n' :: cs => (skipWord ['u', 'l', 'l'] cs).map fun cs => (.null, cs)
    | 't' :: cs => (skipWord ['r', 'u', 'e'] cs).map fun cs => (.bool true, cs)
    | 'f' :: cs => (skipWord ['a', 'l', 's', 'e'] cs).map fun cs => (.bool false, cs)
    | '"' :: cs => (readText cs).map fun r => (.text r.1, r.2)
    | '[' :: cs =>
      match skipBlank cs with
      | ']' :: cs => some (.list [], cs)
      | cs => (readItems fuel cs).map fun r => (.list r.1, r.2)
    | '\x7b' :: cs =>
      match skipBlank cs with
      | '\x7d' :: cs => some (.object [], cs)
      | cs => (readMembers fuel cs).map fun r => (.object r.1, r.2)
    | cs => readNumber cs
  termination_by structural fuel => fuel

/-- The items of a list up to its closing bracket, and what follows. -/
def readItems : (fuel : Nat) → List Char → Option (List Json × List Char)
  | 0, _ => none
  | fuel + 1, cs => do
    let (v, cs) ← readValue fuel cs
    match skipBlank cs with
    | ']' :: cs => return ([v], cs)
    | ',' :: cs =>
      let (vs, cs) ← readItems fuel cs
      return (v :: vs, cs)
    | _ => none
  termination_by structural fuel => fuel

/-- The members of an object up to its closing brace, and what follows. -/
def readMembers : (fuel : Nat) → List Char → Option (List (Option String × Json) × List Char)
  | 0, _ => none
  | fuel + 1, cs =>
    match skipBlank cs with
    | '"' :: cs => do
      let (key, cs) ← readText cs
      match skipBlank cs with
      | ':' :: cs =>
        let (v, cs) ← readValue fuel cs
        match skipBlank cs with
        | '\x7d' :: cs => return ([(key, v)], cs)
        | ',' :: cs =>
          let (ms, cs) ← readMembers fuel cs
          return ((key, v) :: ms, cs)
        | _ => none
      | _ => none
    | _ => none
  termination_by structural fuel => fuel

end

/-- The value of a document. Every second step of reading takes a character
away, so the number of steps is bounded by the length. -/
def read (document : String) : Option Json := do
  let cs := document.toList
  let (v, rest) ← readValue (2 * cs.length + 1) cs
  if (skipBlank rest).isEmpty then some v else none

end Json

end SolvedForm
