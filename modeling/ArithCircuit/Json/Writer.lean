import ArithCircuit.Json.Basic

set_option autoImplicit false

namespace ArithCircuit

namespace Json

def escaped (c : Char) : List Char :=
  if c = '"' then ['\\', '"']
  else if c = '\\' then ['\\', '\\']
  else if c = '\n' then ['\\', 'n']
  else if c = '\r' then ['\\', 'r']
  else if c = '\t' then ['\\', 't']
  else if c = '\x08' then ['\\', 'b']
  else if c = '\x0c' then ['\\', 'f']
  else if c.toNat < 32 then
    ['\\', 'u', '0', '0', Nat.digitChar (c.toNat / 16), Nat.digitChar (c.toNat % 16)]
  else [c]

def putString (text : String) (rest : List Char) : List Char :=
  '"' :: text.toList.foldr (fun c following => escaped c ++ following) ('"' :: rest)

def putPlain (text : String) (rest : List Char) : List Char := text.toList ++ rest

mutual

def put : Json → List Char → List Char
  | null, rest => putPlain "null" rest
  | bool true, rest => putPlain "true" rest
  | bool false, rest => putPlain "false" rest
  | natural value, rest => Nat.toDigits 10 value ++ rest
  | decimal spelling, rest => putPlain spelling rest
  | string text, rest => putString text rest
  | array [], rest => '[' :: ']' :: rest
  | array (first :: others), rest => '[' :: put first (putItems others rest)
  | object [], rest => '{' :: '}' :: rest
  | object (first :: others), rest => '{' :: putField first (putFields others rest)

def putItems : List Json → List Char → List Char
  | [], rest => ']' :: rest
  | item :: others, rest => ',' :: put item (putItems others rest)

def putField : String × Json → List Char → List Char
  | (name, value), rest => putString name (':' :: put value rest)

def putFields : List (String × Json) → List Char → List Char
  | [], rest => '}' :: rest
  | field :: others, rest => ',' :: putField field (putFields others rest)

end

def text (value : Json) : String := String.ofList (put value [])

end Json

end ArithCircuit
