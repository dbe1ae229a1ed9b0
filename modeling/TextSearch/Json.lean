/-! JSON documents: reading and writing. -/
namespace TextSearch

/-- A number as written: its digits without sign, point and exponent, and the power of ten they are
scaled by. It is an integer only if it was written without point and exponent. -/
structure Numeral where
  negative : Bool
  digits : Nat
  scale : Int
  isInteger : Bool
  deriving DecidableEq, Repr

/-- A document, with the members of objects in order and repeated keys included. A broken value is a string with half of a
character, or an object with such a key; it may only be skipped. -/
inductive Json where
  | null
  | bool (value : Bool)
  | number (value : Numeral)
  | string (value : String)
  | array (items : List Json)
  | object (members : List (String × Json))
  | broken

instance : Inhabited Json := ⟨.null⟩

namespace Json

private def isBlank (c : Char) : Bool := c == ' ' || c == '\t' || c == '\n' || c == '\r'

private def skipBlanks (s : List Char) : List Char := s.dropWhile isBlank

private def hexDigit? (c : Char) : Option Nat :=
  if '0' ≤ c && c ≤ '9' then some (c.toNat - '0'.toNat)
  else if 'a' ≤ c && c ≤ 'f' then some (c.toNat - 'a'.toNat + 10)
  else if 'A' ≤ c && c ≤ 'F' then some (c.toNat - 'A'.toNat + 10)
  else none

private def hexUnit? : List Char → Option (Nat × List Char)
  | a :: b :: c :: d :: rest => do
    let a ← hexDigit? a
    let b ← hexDigit? b
    let c ← hexDigit? c
    let d ← hexDigit? d
    some (((a * 16 + b) * 16 + c) * 16 + d, rest)
  | _ => none

private def simpleEscape? : Char → Option Char
  | '"' => some '"'
  | '\\' => some '\\'
  | '/' => some '/'
  | 'b' => some '\x08'
  | 'f' => some '\x0c'
  | 'n' => some '\n'
  | 'r' => some '\r'
  | 't' => some '\t'
  | _ => none

private def isHighHalf (unit : Nat) : Bool := 0xd800 ≤ unit && unit < 0xdc00

private def isLowHalf (unit : Nat) : Bool := 0xdc00 ≤ unit && unit < 0xe000

/-- The character of an escape with four hexadecimal digits. One above the basic plane takes two escapes,
and a single half of these is none. -/
private def unicodeEscape? (s : List Char) : Option (Option Char × List Char) := do
  let (unit, rest) ← hexUnit? s
  if isHighHalf unit then
    match rest with
    | '\\' :: 'u' :: tail =>
      match hexUnit? tail with
      | some (low, after) =>
        if isLowHalf low then
          some (some (Char.ofNat (0x10000 + (unit - 0xd800) * 0x400 + (low - 0xdc00))), after)
        else some (none, rest)
      | none => none
    | _ => some (none, rest)
  else if isLowHalf unit then some (none, rest)
  else some (some (Char.ofNat unit), rest)

/-- The text of a string behind its opening quote, if all of it is characters. -/
private def stringRest? : Nat → List Char → Option (Option (List Char) × List Char)
  | 0, _ => none
  | fuel + 1, s =>
    match s with
    | [] => none
    | '"' :: rest => some (some [], rest)
    | '\\' :: 'u' :: rest => do
      let (c, rest) ← unicodeEscape? rest
      let (text, rest) ← stringRest? fuel rest
      some (c.bind fun c => text.map (c :: ·), rest)
    | '\\' :: e :: rest => do
      let c ← simpleEscape? e
      let (text, rest) ← stringRest? fuel rest
      some (text.map (c :: ·), rest)
    | c :: rest =>
      if c == '\\' || c.toNat < 0x20 then none
      else do
        let (text, rest) ← stringRest? fuel rest
        some (text.map (c :: ·), rest)

private def natural (digits : List Char) : Nat :=
  digits.foldl (fun n c => n * 10 + (c.toNat - '0'.toNat)) 0

private def digits? (s : List Char) : Option (List Char × List Char) :=
  let run := s.takeWhile Char.isDigit
  if run.isEmpty then none else some (run, s.dropWhile Char.isDigit)

private def fraction? : List Char → Option (List Char × List Char)
  | '.' :: rest => digits? rest
  | s => some ([], s)

private def exponent? : List Char → Option (Option Int × List Char)
  | e :: rest =>
    if e == 'e' || e == 'E' then
      match rest with
      | '-' :: rest => (digits? rest).map fun (d, rest) => (some (-(natural d : Int)), rest)
      | '+' :: rest => (digits? rest).map fun (d, rest) => (some (natural d : Int), rest)
      | rest => (digits? rest).map fun (d, rest) => (some (natural d : Int), rest)
    else some (none, e :: rest)
  | [] => some (none, [])

private def number? (s : List Char) : Option (Numeral × List Char) := do
  let (negative, s) := match s with
    | '-' :: s => (true, s)
    | s => (false, s)
  let (whole, s) ← digits? s
  if whole.length > 1 && whole.head? == some '0' then none
  let (decimals, s) ← fraction? s
  let (exponent, s) ← exponent? s
  some ({ negative, digits := natural (whole ++ decimals),
          scale := exponent.getD 0 - decimals.length,
          isInteger := decimals.isEmpty && exponent.isNone }, s)

mutual

private def value? : Nat → List Char → Option (Json × List Char)
  | 0, _ => none
  | fuel + 1, s =>
    match skipBlanks s with
    | 'n' :: 'u' :: 'l' :: 'l' :: rest => some (null, rest)
    | 't' :: 'r' :: 'u' :: 'e' :: rest => some (bool true, rest)
    | 'f' :: 'a' :: 'l' :: 's' :: 'e' :: rest => some (bool false, rest)
    | '"' :: rest => (stringRest? (rest.length + 1) rest).map fun (text, rest) =>
      (text.elim broken fun text => string (String.ofList text), rest)
    | '[' :: rest =>
      match skipBlanks rest with
      | ']' :: rest => some (array [], rest)
      | rest => (items? fuel rest).map fun (items, rest) => (array items, rest)
    | '\x7b' :: rest =>
      match skipBlanks rest with
      | '\x7d' :: rest => some (object [], rest)
      | rest => (members? fuel rest).map fun (members, rest) => (members.elim broken object, rest)
    | s => (number? s).map fun (n, rest) => (number n, rest)

private def items? : Nat → List Char → Option (List Json × List Char)
  | 0, _ => none
  | fuel + 1, s => do
    let (item, rest) ← value? fuel s
    match skipBlanks rest with
    | ']' :: rest => some ([item], rest)
    | ',' :: rest =>
      let (items, rest) ← items? fuel rest
      some (item :: items, rest)
    | _ => none

private def members? : Nat → List Char → Option (Option (List (String × Json)) × List Char)
  | 0, _ => none
  | fuel + 1, s =>
    match skipBlanks s with
    | '"' :: rest => do
      let (key, rest) ← stringRest? (rest.length + 1) rest
      match skipBlanks rest with
      | ':' :: rest =>
        let (value, rest) ← value? fuel rest
        let member := key.map fun key => (String.ofList key, value)
        match skipBlanks rest with
        | '\x7d' :: rest => some (member.map ([·]), rest)
        | ',' :: rest =>
          let (members, rest) ← members? fuel rest
          some (member.bind fun m => members.map (m :: ·), rest)
        | _ => none
      | _ => none
    | _ => none

end

def read? (text : String) : Option Json := do
  let s := text.toList
  -- every two steps down read at least one character
  let (value, rest) ← value? (2 * s.length + 2) s
  if (skipBlanks rest).isEmpty then some value else none

private def escaped (c : Char) : List Char :=
  if c == '"' then ['\\', '"']
  else if c == '\\' then ['\\', '\\']
  else if c.toNat < 0x20 then
    ['\\', 'u', '0', '0', (c.toNat / 16).digitChar, (c.toNat % 16).digitChar]
  else [c]

def quote (text : String) : String :=
  "\"" ++ String.ofList (text.toList.flatMap escaped) ++ "\""

private def writeNumeral (n : Numeral) : String :=
  (if n.negative then "-" else "") ++ toString n.digits ++
    (if n.isInteger then "" else "e" ++ toString n.scale)

mutual

def write : Json → String
  | null | broken => "null"
  | bool true => "true"
  | bool false => "false"
  | number n => writeNumeral n
  | string text => quote text
  | array items => "[" ++ ",".intercalate (writeItems items) ++ "]"
  | object members => "\x7b" ++ ",".intercalate (writeMembers members) ++ "\x7d"

private def writeItems : List Json → List String
  | [] => []
  | item :: items => item.write :: writeItems items

private def writeMembers : List (String × Json) → List String
  | [] => []
  | (key, value) :: members => (quote key ++ ":" ++ value.write) :: writeMembers members

end

def ofNat (n : Nat) : Json := number ⟨false, n, 0, true⟩

def text? : Json → Option String
  | string text => some text
  | _ => none

def flag? : Json → Option Bool
  | bool b => some b
  | _ => none

def natural? : Json → Option Nat
  | number n => if n.isInteger && !n.negative && n.digits < UInt64.size then some n.digits else none
  | _ => none

def list? {α : Type} (item? : Json → Option α) : Json → Option (List α)
  | array items => items.mapM item?
  | _ => none

/-- A table from keys to values; of a repeated key the last value counts. -/
def table? {α : Type} (value? : Json → Option α) : Json → Option (List (String × α))
  | object members => do
    let entries ← members.mapM fun (key, value) => (value? value).map fun v => (key, v)
    some (entries.foldl (fun t e => t.filter (fun old => old.1 != e.1) ++ [e]) [])
  | _ => none

/-- A choice among names: the name, or an object with it as the key of a null. -/
def choice? {α : Type} (ofName? : String → Option α) : Json → Option α
  | string name => ofName? name
  | object [(name, null)] => ofName? name
  | _ => none

/-- The members of a record. Keys other than `known` are dropped and a repeated known key is refused;
an array gives values to the first keys. -/
def record? (known : List String) : Json → Option (List (String × Json))
  | object members =>
    let members := members.filter fun m => known.contains m.1
    if members.length == ((members.map (·.1)).eraseDups).length then some members else none
  | array items => if items.length ≤ known.length then some (known.zip items) else none
  | _ => none

def member? {α : Type} (record : List (String × Json)) (key : String) (read? : Json → Option α)
    (default : α) : Option α :=
  match record.lookup key with
  | none => some default
  | some value => read? value

end Json

end TextSearch
