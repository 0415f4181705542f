import Machining.Json.Basic
import Machining.Text.Digits
import Machining.Text.Munch

/-!
The symbols of a document: brackets, commas and colons, and the values that have no parts, which are the three
literals, numbers and strings. Where no symbol begins, the text is marked as wrong from that character on.
-/

namespace Machining.Json
open Machining.Text

inductive Symbol
  | blank
  | mark (c : Char)
  | scalar (v : Json)
  | wrong

def isBlank (c : Char) : Bool := c == ' ' || c == '\t' || c == '\n' || c == '\r'

def isMark (c : Char) : Bool := ['[', ']', '{', '}', ',', ':'].contains c

/-! ### Strings -/

def hexDigit? (c : Char) : Option Nat :=
  let n := c.toNat
  if 0x30 ≤ n ∧ n ≤ 0x39 then some (n - 0x30)
  else if 0x41 ≤ n ∧ n ≤ 0x46 then some (n - 0x41 + 10)
  else if 0x61 ≤ n ∧ n ≤ 0x66 then some (n - 0x61 + 10)
  else none

def hexUnit? (a b c d : Char) : Option Nat := do
  return (((← hexDigit? a) * 16 + (← hexDigit? b)) * 16 + (← hexDigit? c)) * 16 + (← hexDigit? d)

def unescape? : Char → Option Char
  | '"' => some '"'
  | '\\' => some '\\'
  | '/' => some '/'
  | 'b' => some '\x08'
  | 'f' => some '\x0c'
  | 'n' => some '\n'
  | 'r' => some '\r'
  | 't' => some '\t'
  | _ => none

/-- A string read so far: its text, the first half of a surrogate pair if that stands at the end, and whether every
half has had its partner. -/
structure Draft where
  text : String
  half : Option Nat
  paired : Bool

namespace Draft

def empty : Draft := ⟨"", none, true⟩

def push (d : Draft) (c : Char) : Draft := ⟨d.text.push c, none, d.paired && d.half.isNone⟩

def pushUnit (d : Draft) (n : Nat) : Draft :=
  if 0xD800 ≤ n ∧ n < 0xDC00 then ⟨d.text, some n, d.paired && d.half.isNone⟩
  else if 0xDC00 ≤ n ∧ n < 0xE000 then
    match d.half with
    | some h => ⟨d.text.push (Char.ofNat (0x10000 + (h - 0xD800) * 0x400 + (n - 0xDC00))), none, d.paired⟩
    | none => ⟨d.text, none, false⟩
  else d.push (Char.ofNat n)

def result (d : Draft) : Option String := if d.paired && d.half.isNone then some d.text else none

end Draft

/-- Reads a string from behind its opening quote, `count` characters of which are in the draft, up to the closing
quote; answers with the number of characters read. -/
def stringFrom (d : Draft) (count : Nat) : List Char → Option (Draft × Nat)
  | [] => none
  | '"' :: _ => some (d, count + 1)
  | '\\' :: 'u' :: a :: b :: c :: e :: rest =>
    match hexUnit? a b c e with
    | some n => stringFrom (d.pushUnit n) (count + 6) rest
    | none => none
  | '\\' :: c :: rest =>
    match unescape? c with
    | some x => stringFrom (d.push x) (count + 2) rest
    | none => none
  | c :: rest => if c.toNat < 0x20 then none else stringFrom (d.push c) (count + 1) rest

/-! ### Numbers -/

def wholePart : List Char → List Char
  | [] => []
  | c :: rest => if c = '0' then [c] else (c :: rest).takeWhile Char.isDigit

def fractionPart? : List Char → Option (List Char)
  | '.' :: rest =>
    match rest.takeWhile Char.isDigit with
    | [] => none
    | digits => some ('.' :: digits)
  | _ => some []

def exponentSign : List Char → List Char
  | [] => []
  | c :: _ => if c = '+' ∨ c = '-' then [c] else []

def exponentPart? : List Char → Option (List Char)
  | [] => some []
  | c :: rest =>
    if c = 'e' ∨ c = 'E' then
      let sign := exponentSign rest
      match (rest.drop sign.length).takeWhile Char.isDigit with
      | [] => none
      | digits => some (c :: sign ++ digits)
    else some []

def unsigned? (cs : List Char) : Option (Json × Nat) :=
  match wholePart cs with
  | [] => none
  | whole =>
    match fractionPart? (cs.drop whole.length) with
    | none => none
    | some fraction =>
      match exponentPart? (cs.drop (whole ++ fraction).length) with
      | none => none
      | some exponent =>
        let tail := fraction ++ exponent
        some (if tail = [] then .nat (value whole) else .otherNumber, (whole ++ tail).length)

/-! ### Symbols -/

def literals : List (List Char × Json) :=
  [("null".toList, .null), ("true".toList, .bool true), ("false".toList, .bool false)]

def word (cs : List Char) : Symbol × Nat :=
  match literals.find? (·.1.isPrefixOf cs) with
  | some l => (.scalar l.2, l.1.length - 1)
  | none => (.wrong, 0)

/-- The symbol that begins with `c`, and how many of the characters behind `c` belong to it. -/
def symbol (c : Char) (rest : List Char) : Symbol × Nat :=
  if isBlank c then (.blank, 0)
  else if isMark c then (.mark c, 0)
  else if c = '"' then
    match stringFrom .empty 0 rest with
    | some (d, count) => (.scalar (.str d.result), count)
    | none => (.wrong, 0)
  else if c = '-' then
    match unsigned? rest with
    | some (_, length) => (.scalar .otherNumber, length)
    | none => (.wrong, 0)
  else if c.isDigit then
    match unsigned? (c :: rest) with
    | some (v, length) => (.scalar v, length - 1)
    | none => (.wrong, 0)
  else word (c :: rest)

def symbols (text : String) : List Symbol := munch symbol text.toList

end Machining.Json
