import Mathlib.Data.List.Basic

/-! # Reading JSON text

The grammar is the strict one: no trailing commas, no control characters in a text, nothing behind the
value. A text that is read is given by its UTF-16 code units. An integer that does not fit in 64 bits
is a floating-point number, which is kept as it is written.
-/

namespace Library.Json

/-- `τ` are the texts, `ν` the numbers. -/
inductive JsonValue (τ ν : Type)
  | null
  | bool (value : Bool)
  | number (value : ν)
  | text (value : τ)
  | array (items : List (JsonValue τ ν))
  | object (fields : List (τ × JsonValue τ ν))

inductive JsonNumber
  | int (value : Int64)
  | double (token : List Char)
  deriving DecidableEq

variable {τ τ' ν ν' α β : Type}

/-- What holds of the items of an array and of the values of an object holds of it. -/
theorem JsonValue.induct {P : JsonValue τ ν → Prop} (null : P .null) (bool : ∀ b, P (.bool b))
    (number : ∀ n, P (.number n)) (text : ∀ t, P (.text t))
    (array : ∀ items, (∀ v ∈ items, P v) → P (.array items))
    (object : ∀ fields, (∀ field ∈ fields, P field.2) → P (.object fields)) (v : JsonValue τ ν) : P v := by
  refine @JsonValue.rec τ ν P (fun items => ∀ v ∈ items, P v) (fun fields => ∀ field ∈ fields, P field.2)
    (fun field => P field.2) null bool number text array object ?_ ?_ ?_ ?_ ?_ v
  · intro v hv
    cases hv
  · intro head tail hHead hTail
    exact List.forall_mem_cons.mpr ⟨hHead, hTail⟩
  · intro field hField
    cases hField
  · intro head tail hHead hTail
    exact List.forall_mem_cons.mpr ⟨hHead, hTail⟩
  · intro key value hValue
    exact hValue

namespace JsonValue

mutual
def map (f : τ → τ') (g : ν → ν') : JsonValue τ ν → JsonValue τ' ν'
  | .null => .null
  | .bool value => .bool value
  | .number value => .number (g value)
  | .text value => .text (f value)
  | .array items => .array (mapItems f g items)
  | .object fields => .object (mapFields f g fields)

def mapItems (f : τ → τ') (g : ν → ν') : List (JsonValue τ ν) → List (JsonValue τ' ν')
  | [] => []
  | item :: items => map f g item :: mapItems f g items

def mapFields (f : τ → τ') (g : ν → ν') : List (τ × JsonValue τ ν) → List (τ' × JsonValue τ' ν')
  | [] => []
  | (name, value) :: fields => (f name, map f g value) :: mapFields f g fields
end

mutual
/-- The texts in it, the names of fields included. -/
def texts : JsonValue τ ν → List τ
  | .null => []
  | .bool _ => []
  | .number _ => []
  | .text value => [value]
  | .array items => textsOfItems items
  | .object fields => textsOfFields fields

def textsOfItems : List (JsonValue τ ν) → List τ
  | [] => []
  | item :: items => texts item ++ textsOfItems items

def textsOfFields : List (τ × JsonValue τ ν) → List τ
  | [] => []
  | (name, value) :: fields => name :: texts value ++ textsOfFields fields
end

theorem mapItems_eq (f : τ → τ') (g : ν → ν') (items : List (JsonValue τ ν)) :
    mapItems f g items = items.map (map f g) := by
  induction items with
  | nil => rfl
  | cons item items ih => rw [mapItems, List.map_cons, ih]

theorem mapFields_eq (f : τ → τ') (g : ν → ν') (fields : List (τ × JsonValue τ ν)) :
    mapFields f g fields = fields.map fun field => (f field.1, map f g field.2) := by
  induction fields with
  | nil => rfl
  | cons field fields ih => rw [mapFields, List.map_cons, ih]

theorem textsOfItems_eq (items : List (JsonValue τ ν)) : textsOfItems items = items.flatMap texts := by
  induction items with
  | nil => rfl
  | cons item items ih => rw [textsOfItems, List.flatMap_cons, ih]

theorem textsOfFields_eq (fields : List (τ × JsonValue τ ν)) :
    textsOfFields fields = fields.flatMap fun field => field.1 :: texts field.2 := by
  induction fields with
  | nil => rfl
  | cons field fields ih => rw [textsOfFields, List.flatMap_cons, ih]

end JsonValue

def utf16 (c : Char) : List UInt16 :=
  if c.toNat < 0x10000 then [c.toNat.toUInt16]
  else [((c.toNat - 0x10000) / 0x400 + 0xD800).toUInt16, ((c.toNat - 0x10000) % 0x400 + 0xDC00).toUInt16]

def isSpace (c : Char) : Bool := c = ' ' || c = '\t' || c = '\n' || c = '\r'

def skip (text : List Char) : List Char := text.dropWhile isSpace

def isDigit (c : Char) : Bool := '0' ≤ c && c ≤ '9'

def hexValue (c : Char) : Option Nat :=
  if isDigit c then some (c.toNat - 48)
  else if 'a' ≤ c ∧ c ≤ 'f' then some (c.toNat - 87)
  else if 'A' ≤ c ∧ c ≤ 'F' then some (c.toNat - 55)
  else none

/-- What `\` and a letter other than `u` stand for. -/
def simpleEscape (c : Char) : Option UInt16 :=
  if c = '"' ∨ c = '\\' ∨ c = '/' then some c.toNat.toUInt16
  else if c = 'b' then some 8
  else if c = 'f' then some 12
  else if c = 'n' then some 10
  else if c = 'r' then some 13
  else if c = 't' then some 9
  else none

/-- Where the reader of a text is: at a character, behind a `\`, or before so many hexadecimal digits. -/
inductive TextPlace
  | plain
  | escaped
  | hex (digits : Nat) (value : Nat)

def parseText : TextPlace → List Char → Option (List UInt16 × List Char)
  | _, [] => none
  | .plain, c :: cs =>
    if c = '"' then some ([], cs)
    else if c = '\\' then parseText .escaped cs
    else if c.toNat < 0x20 then none
    else (parseText .plain cs).map fun (text, rest) => (utf16 c ++ text, rest)
  | .escaped, c :: cs =>
    if c = 'u' then parseText (.hex 3 0) cs
    else (simpleEscape c).bind fun unit => (parseText .plain cs).map fun (text, rest) => (unit :: text, rest)
  | .hex digits value, c :: cs =>
    (hexValue c).bind fun digit =>
      match digits with
      | 0 => (parseText .plain cs).map fun (text, rest) => ((16 * value + digit).toUInt16 :: text, rest)
      | digits + 1 => parseText (.hex digits (16 * value + digit)) cs

/-- The digits behind the point, if there is one. -/
def parseFraction : List Char → Option (List Char × List Char)
  | '.' :: cs => if cs.takeWhile isDigit = [] then none else some ('.' :: cs.takeWhile isDigit, cs.dropWhile isDigit)
  | cs => some ([], cs)

def parseSign : List Char → List Char × List Char
  | '-' :: cs => (['-'], cs)
  | '+' :: cs => (['+'], cs)
  | cs => ([], cs)

def parseExponent : List Char → Option (List Char × List Char)
  | c :: cs =>
    if c = 'e' ∨ c = 'E' then
      let (sign, cs) := parseSign cs
      if cs.takeWhile isDigit = [] then none else some (c :: sign ++ cs.takeWhile isDigit, cs.dropWhile isDigit)
    else some ([], c :: cs)
  | [] => some ([], [])

/-- `-0` is the negative zero, which no integer is. -/
def integer (negative : Bool) (digits : List Char) : JsonNumber :=
  let value : Int := if negative then -(Nat.ofDigitChars 10 digits 0 : Int) else Nat.ofDigitChars 10 digits 0
  let token := if negative then '-' :: digits else digits
  if negative && value == 0 then .double token
  else if Int64.minValue.toInt ≤ value ∧ value ≤ Int64.maxValue.toInt then .int (Int64.ofInt value)
  else .double token

/-- The digits of a number that is not negative, or behind the sign. -/
def parseDigits (negative : Bool) (cs : List Char) : Option (JsonNumber × List Char) :=
  let digits := cs.takeWhile isDigit
  if digits = [] ∨ digits.head? = some '0' ∧ digits.length ≠ 1 then none
  else do
    let (fraction, cs) ← parseFraction (cs.dropWhile isDigit)
    let (exponent, cs) ← parseExponent cs
    if fraction = [] ∧ exponent = [] then some (integer negative digits, cs)
    else some (.double ((if negative then ['-'] else []) ++ digits ++ fraction ++ exponent), cs)

def parseNumber : List Char → Option (JsonNumber × List Char)
  | '-' :: cs => parseDigits true cs
  | cs => parseDigits false cs

def parseLiteral (word : List Char) (value : α) (cs : List Char) : Option (α × List Char) :=
  if word.isPrefixOf cs then some (value, cs.drop word.length) else none

/-- The elements up to the closing bracket, where there is at least one. -/
def parseElements (element : List Char → Option (α × List Char)) (close : Char) :
    Nat → List Char → Option (List α × List Char)
  | 0, _ => none
  | fuel + 1, cs => do
    let (first, cs) ← element cs
    match skip cs with
    | [] => none
    | c :: cs =>
      if c = ',' then do
        let (more, cs) ← parseElements element close fuel cs
        some (first :: more, cs)
      else if c = close then some ([first], cs)
      else none

def parseList (element : List Char → Option (α × List Char)) (close : Char) (fuel : Nat) (cs : List Char) :
    Option (List α × List Char) :=
  match skip cs with
  | [] => none
  | c :: rest => if c = close then some ([], rest) else parseElements element close fuel (c :: rest)

def parseField (value : List Char → Option (α × List Char)) (cs : List Char) :
    Option ((List UInt16 × α) × List Char) :=
  match skip cs with
  | '"' :: cs => do
    let (name, cs) ← parseText .plain cs
    match skip cs with
    | ':' :: cs => (value cs).map fun (a, cs) => ((name, a), cs)
    | _ => none
  | _ => none

def parseValue : Nat → List Char → Option (JsonValue (List UInt16) JsonNumber × List Char)
  | 0, _ => none
  | fuel + 1, cs =>
    match skip cs with
    | [] => none
    | c :: cs =>
      if c = '"' then (parseText .plain cs).map fun (text, rest) => (.text text, rest)
      else if c = '[' then (parseList (parseValue fuel) ']' fuel cs).map fun (items, rest) => (.array items, rest)
      else if c = '{' then
        (parseList (parseField (parseValue fuel)) '}' fuel cs).map fun (fields, rest) => (.object fields, rest)
      else if c = 'n' then parseLiteral ['u', 'l', 'l'] .null cs
      else if c = 't' then parseLiteral ['r', 'u', 'e'] (.bool true) cs
      else if c = 'f' then parseLiteral ['a', 'l', 's', 'e'] (.bool false) cs
      else (parseNumber (c :: cs)).map fun (number, rest) => (.number number, rest)

def parse (text : List Char) : Option (JsonValue (List UInt16) JsonNumber) := do
  let (value, rest) ← parseValue (text.length + 1) text
  if skip rest = [] then some value else none

end Library.Json
