import PathQuery.Binary64.Rounding
import PathQuery.Json.Basic

/-!
# Reading JSON

A strict reader. Each function takes the text that is left and returns what it read with the text
after it.

* Arrays and objects nest at most `maxNesting` deep; reading recurses on what is left of that
  allowance.
* A repeated key keeps its first place and takes its last value.
* A number without fraction and exponent is an integer from `-2 ^ 63` to `2 ^ 64 - 1`. Minus zero,
  and every other number, is a float, and a float that would be infinite is refused.
* An escaped surrogate is read only as half of a pair.
* A float is rounded correctly: to the nearest double, and to even between two of them. A reader
  that scales the leading digits by a power of ten instead, as fast ones do, comes out alike where
  the digits and the power are doubles themselves. It may be a double away for longer numbers
  (`51.248178375505404`) and may refuse some at the upper end (`1.7976931348623158e308`).
-/

namespace PathQuery.Json.Reader

/-- How deep arrays and objects may nest. -/
def maxNesting : Nat := 127

def isBlank (c : Char) : Bool := c == ' ' || c == '\t' || c == '\n' || c == '\r'

def skipBlank (cs : List Char) : List Char := cs.dropWhile isBlank

/-! ## Strings -/

def hexDigit (c : Char) : Option Nat :=
  if '0' ≤ c && c ≤ '9' then some (c.toNat - '0'.toNat)
  else if 'a' ≤ c && c ≤ 'f' then some (c.toNat - 'a'.toNat + 10)
  else if 'A' ≤ c && c ≤ 'F' then some (c.toNat - 'A'.toNat + 10)
  else none

/-- The number that four hexadecimal digits stand for. -/
def hexUnit (a b c d : Char) : Option Nat := do
  let a ← hexDigit a
  let b ← hexDigit b
  let c ← hexDigit c
  let d ← hexDigit d
  return ((a * 16 + b) * 16 + c) * 16 + d

def isHighSurrogate (unit : Nat) : Bool := 0xD800 ≤ unit && unit ≤ 0xDBFF

def isLowSurrogate (unit : Nat) : Bool := 0xDC00 ≤ unit && unit ≤ 0xDFFF

/-- The character of a surrogate pair. -/
def pairedChar (high low : Nat) : Char :=
  Char.ofNat (0x10000 + (high - 0xD800) * 0x400 + (low - 0xDC00))

/-- The character that a one-letter escape stands for. -/
def escapedChar : Char → Option Char
  | '"' => some '"'
  | '\\' => some '\\'
  | '/' => some '/'
  | 'b' => some '\x08'
  | 'f' => some '\x0c'
  | 'n' => some '\n'
  | 'r' => some '\r'
  | 't' => some '\t'
  | _ => none

/-- The rest of a string after its opening quote; `read` holds the characters before, last first.
-/
def text (read : List Char) : List Char → Option (String × List Char)
  | '"' :: rest => some (String.ofList read.reverse, rest)
  | '\\' :: 'u' :: a :: b :: c :: d :: rest =>
    match hexUnit a b c d with
    | none => none
    | some unit =>
      if isHighSurrogate unit then
        match rest with
        | '\\' :: 'u' :: a :: b :: c :: d :: rest =>
          match hexUnit a b c d with
          | none => none
          | some low => if isLowSurrogate low then text (pairedChar unit low :: read) rest else none
        | _ => none
      else if isLowSurrogate unit then none
      else text (Char.ofNat unit :: read) rest
  | '\\' :: c :: rest =>
    match escapedChar c with
    | none => none
    | some e => text (e :: read) rest
  | c :: rest => if c < ' ' || c == '\\' then none else text (c :: read) rest
  | [] => none

/-! ## Numbers -/

def ofDigits (digits : List Char) : Nat :=
  digits.foldl (fun n c => 10 * n + (c.toNat - '0'.toNat)) 0

/-- One digit or more. -/
def digits (cs : List Char) : Option (List Char × List Char) :=
  match cs.takeWhile Char.isDigit with
  | [] => none
  | ds => some (ds, cs.dropWhile Char.isDigit)

/-- The digits before the point: a single zero, or digits that do not start with one. -/
def whole : List Char → Option (List Char × List Char)
  | '0' :: rest => some (['0'], rest)
  | cs => digits cs

/-- The digits after the point, if there is one. -/
def fraction : List Char → Option (Option (List Char) × List Char)
  | '.' :: rest => (digits rest).map fun (ds, rest) => (some ds, rest)
  | cs => some (none, cs)

/-- The exponent, if there is one. -/
def exponent : List Char → Option (Option Int × List Char)
  | c :: rest =>
    if c == 'e' || c == 'E' then
      match rest with
      | '-' :: rest => (digits rest).map fun (ds, rest) => (some (-(ofDigits ds : Int)), rest)
      | '+' :: rest => (digits rest).map fun (ds, rest) => (some (ofDigits ds : Int), rest)
      | rest => (digits rest).map fun (ds, rest) => (some (ofDigits ds : Int), rest)
    else some (none, c :: rest)
  | [] => some (none, [])

/-- A number with a fraction, an exponent, or too large for an integer. -/
def float (negative : Bool) (digits : Nat) (exponent : Int) : Option Json :=
  let x := Binary64.ofDecimal negative digits exponent
  if x.isFinite then some (.float x) else none

/-- A number written without fraction and exponent. -/
def integer (negative : Bool) (n : Nat) : Option Json :=
  if negative then
    if 0 < n && n ≤ 0x8000000000000000 then some (.integer (-n)) else float true n 0
  else if n < 0x10000000000000000 then some (.integer n)
  else float false n 0

/-- A number after its sign. -/
def unsigned (negative : Bool) (cs : List Char) : Option (Json × List Char) := do
  let (ds, cs) ← whole cs
  let (fs, cs) ← fraction cs
  let (e, cs) ← exponent cs
  let number ←
    match fs, e with
    | none, none => integer negative (ofDigits ds)
    | _, _ =>
      let fs := fs.getD []
      float negative (ofDigits (ds ++ fs)) (e.getD 0 - fs.length)
  return (number, cs)

def number : List Char → Option (Json × List Char)
  | '-' :: rest => unsigned true rest
  | cs => unsigned false cs

/-! ## Values -/

/-- What stands between the opening of an array or object and its closing character `close`,
without blanks in front: items divided by commas. `bound` is at least the number of items; `read`
holds the items before, last first. -/
def items {α : Type} (item : List Char → Option (α × List Char)) (close : Char) :
    (bound : Nat) → (read : List α) → List Char → Option (List α × List Char)
  | 0, _, _ => none
  | bound + 1, read, cs =>
    match item cs with
    | none => none
    | some (a, rest) =>
      match skipBlank rest with
      | [] => none
      | c :: rest =>
        if c == ',' then items item close bound (a :: read) rest
        else if c == close then some ((a :: read).reverse, rest)
        else none

/-- Items up to the closing character, or none at all. -/
def enclosed {α : Type} (item : List Char → Option (α × List Char)) (close : Char) (bound : Nat)
    (cs : List Char) : Option (List α × List Char) :=
  match skipBlank cs with
  | [] => none
  | c :: rest => if c == close then some ([], rest) else items item close bound [] (c :: rest)

/-- A key, a colon and a value. -/
def member (value : List Char → Option (Json × List Char)) (cs : List Char) :
    Option ((String × Json) × List Char) :=
  match skipBlank cs with
  | '"' :: rest =>
    match text [] rest with
    | none => none
    | some (key, rest) =>
      match skipBlank rest with
      | ':' :: rest => (value rest).map fun (j, rest) => ((key, j), rest)
      | _ => none
  | _ => none

/-- A value in which arrays and objects nest at most `depth` deep, in a text of at most `bound`
characters. -/
def value (bound : Nat) : (depth : Nat) → List Char → Option (Json × List Char)
  | depth, cs =>
    match skipBlank cs with
    | 'n' :: 'u' :: 'l' :: 'l' :: rest => some (.null, rest)
    | 't' :: 'r' :: 'u' :: 'e' :: rest => some (.bool true, rest)
    | 'f' :: 'a' :: 'l' :: 's' :: 'e' :: rest => some (.bool false, rest)
    | '"' :: rest => (text [] rest).map fun (s, rest) => (.string s, rest)
    | '[' :: rest =>
      match depth with
      | 0 => none
      | depth + 1 =>
        (enclosed (value bound depth) ']' bound rest).map fun (js, rest) => (.array js, rest)
    | '\x7b' :: rest =>
      match depth with
      | 0 => none
      | depth + 1 =>
        (enclosed (member (value bound depth)) '\x7d' bound rest).map fun (ms, rest) =>
          (.object (Entries.ofPairs ms), rest)
    | cs => number cs

end Reader

/-- Reads a text that holds one JSON value and nothing else but blanks. -/
def parse? (s : String) : Option Json :=
  let cs := s.toList
  match Reader.value cs.length Reader.maxNesting cs with
  | some (j, rest) => if (Reader.skipBlank rest).isEmpty then some j else none
  | none => none

end PathQuery.Json
