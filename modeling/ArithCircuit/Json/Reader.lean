import ArithCircuit.Json.Basic

set_option autoImplicit false

namespace ArithCircuit

namespace Json

def isBlank (c : Char) : Bool := c = ' ' || c = '\t' || c = '\n' || c = '\r'

def skipBlank (text : List Char) : List Char := text.dropWhile isBlank

def hexValue? (c : Char) : Option Nat :=
  if '0' ≤ c ∧ c ≤ '9' then some (c.toNat - '0'.toNat)
  else if 'a' ≤ c ∧ c ≤ 'f' then some (c.toNat - 'a'.toNat + 10)
  else if 'A' ≤ c ∧ c ≤ 'F' then some (c.toNat - 'A'.toNat + 10)
  else none

def fourHex? (a b c d : Char) : Option Nat := do
  let digits ← [a, b, c, d].mapM hexValue?
  return digits.foldl (fun number digit => number * 16 + digit) 0

def shortEscape? : Char → Option Char
  | '"' => some '"'
  | '\\' => some '\\'
  | '/' => some '/'
  | 'b' => some '\x08'
  | 'f' => some '\x0c'
  | 'n' => some '\n'
  | 'r' => some '\r'
  | 't' => some '\t'
  | _ => none

def isHighSurrogate (code : Nat) : Bool := 0xD800 ≤ code && code < 0xDC00

def isLowSurrogate (code : Nat) : Bool := 0xDC00 ≤ code && code < 0xE000

def joinSurrogates (high low : Nat) : Char :=
  Char.ofNat (0x10000 + (high - 0xD800) * 0x400 + (low - 0xDC00))

def readString (read : List Char) : List Char → Option (String × List Char)
  | '"' :: rest => some (String.ofList read.reverse, rest)
  | '\\' :: 'u' :: a :: b :: c :: d :: rest => do
    let code ← fourHex? a b c d
    if isHighSurrogate code then
      match rest with
      | '\\' :: 'u' :: e :: f :: g :: h :: rest =>
        let low ← fourHex? e f g h
        if isLowSurrogate low then readString (joinSurrogates code low :: read) rest else none
      | _ => none
    else if isLowSurrogate code then none
    else readString (Char.ofNat code :: read) rest
  | '\\' :: escape :: rest => do
    let c ← shortEscape? escape
    readString (c :: read) rest
  | c :: rest => if c.toNat < 32 || c = '\\' then none else readString (c :: read) rest
  | [] => none

def isNumberCharacter (c : Char) : Bool :=
  c.isDigit || c = '-' || c = '+' || c = '.' || c = 'e' || c = 'E'

def isNatural : List Char → Bool
  | [] => false
  | [digit] => digit.isDigit
  | digits => digits.all Char.isDigit && digits.head? != some '0'

def isDigits (text : List Char) : Bool := !text.isEmpty && text.all Char.isDigit

def isExponent : List Char → Bool
  | [] => true
  | mark :: rest =>
    (mark = 'e' || mark = 'E') &&
      match rest with
      | '+' :: digits => isDigits digits
      | '-' :: digits => isDigits digits
      | digits => isDigits digits

def isUnsigned (text : List Char) : Bool :=
  isNatural (text.takeWhile Char.isDigit) &&
    match text.dropWhile Char.isDigit with
    | '.' :: rest =>
      isDigits (rest.takeWhile Char.isDigit) && isExponent (rest.dropWhile Char.isDigit)
    | rest => isExponent rest

def ofDigits (digits : List Char) : Nat :=
  digits.foldl (fun number digit => number * 10 + (digit.toNat - '0'.toNat)) 0

def number? (spelling : List Char) : Option Json :=
  if isNatural spelling then some (natural (ofDigits spelling))
  else
    match spelling with
    | '-' :: rest => if isUnsigned rest then some (decimal (String.ofList spelling)) else none
    | _ => if isUnsigned spelling then some (decimal (String.ofList spelling)) else none

mutual

-- Reads a value. The fuel bounds the number of values and separators; the length of the text is
-- always enough.
def readValue : (fuel : Nat) → List Char → Option (Json × List Char)
  | 0, _ => none
  | fuel + 1, text =>
    match skipBlank text with
    | 'n' :: 'u' :: 'l' :: 'l' :: rest => some (null, rest)
    | 't' :: 'r' :: 'u' :: 'e' :: rest => some (bool true, rest)
    | 'f' :: 'a' :: 'l' :: 's' :: 'e' :: rest => some (bool false, rest)
    | '"' :: rest => do
      let (contents, rest) ← readString [] rest
      return (string contents, rest)
    | '[' :: rest =>
      match skipBlank rest with
      | ']' :: rest => some (array [], rest)
      | rest => readItems fuel [] rest
    | '{' :: rest =>
      match skipBlank rest with
      | '}' :: rest => some (object [], rest)
      | rest => readFields fuel [] rest
    | text => do
      let number ← number? (text.takeWhile isNumberCharacter)
      return (number, text.dropWhile isNumberCharacter)

def readItems : (fuel : Nat) → (read : List Json) → List Char → Option (Json × List Char)
  | 0, _, _ => none
  | fuel + 1, read, text => do
    let (item, rest) ← readValue fuel text
    match skipBlank rest with
    | ',' :: rest => readItems fuel (item :: read) rest
    | ']' :: rest => return (array (item :: read).reverse, rest)
    | _ => none

def readFields : (fuel : Nat) → (read : List (String × Json)) → List Char →
    Option (Json × List Char)
  | 0, _, _ => none
  | fuel + 1, read, text => do
    match skipBlank text with
    | '"' :: rest =>
      let (name, rest) ← readString [] rest
      match skipBlank rest with
      | ':' :: rest =>
        let (value, rest) ← readValue fuel rest
        match skipBlank rest with
        | ',' :: rest => readFields fuel (setField read name value) rest
        | '}' :: rest => return (object (setField read name value), rest)
        | _ => none
      | _ => none
    | _ => none

end

def parse? (text : String) : Option Json := do
  let characters := text.toList
  let (value, rest) ← readValue (characters.length + 1) characters
  if (skipBlank rest).isEmpty then return value else none

end Json

end ArithCircuit
