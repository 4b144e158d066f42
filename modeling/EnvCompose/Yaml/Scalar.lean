import EnvCompose.Decimal.Notation
import EnvCompose.Yaml.Value
import EnvCompose.Yaml.Text

/-!
# What plain scalars mean

A plain scalar is null, a truth value, an integer, a float or a string, whichever it can be read as
first. Digits after a leading zero are a string.
-/
namespace EnvCompose.Yaml
open Decimal

def isNullText (s : String) : Bool := s == "~" || s == "null" || s == "Null" || s == "NULL"

def truthOf? : String → Option Bool
  | "true" | "True" | "TRUE" => some true
  | "false" | "False" | "FALSE" => some false
  | _ => none

def dropSign : List Char → List Char
  | '+' :: rest => rest
  | '-' :: rest => rest
  | cs => cs

/-- Two or more digits of which the first is zero, perhaps after a sign. -/
def hasLeadingZero (cs : List Char) : Bool :=
  match dropSign cs with
  | '0' :: d :: rest => (d :: rest).all Char.isDigit
  | _ => false

def readDigits? (base : Nat) (cs : List Char) : Option Nat :=
  if cs.isEmpty || !cs.all (fun c => isHexDigit c && hexDigit c < base) then none
  else some (cs.foldl (fun n c => n * base + hexDigit c) 0)

/-- The value of digits after the mark of their base, or of decimal ones. -/
def readMagnitude? : List Char → Option Nat
  | '0' :: 'x' :: rest => readDigits? 16 rest
  | '0' :: 'o' :: rest => readDigits? 8 rest
  | '0' :: 'b' :: rest => readDigits? 2 rest
  | cs => readDigits? 10 cs

def readInteger? (cs : List Char) : Option Int :=
  if hasLeadingZero cs then none else
  match cs with
  | '-' :: rest => (readMagnitude? rest).map fun n => -(n : Int)
  | '+' :: rest => (readMagnitude? rest).map Int.ofNat
  | rest => (readMagnitude? rest).map Int.ofNat

/-- The integers a document can hold. -/
def fitsInteger (i : Int) : Bool := -(Nat.pow 2 63 : Nat) ≤ i && i < (Nat.pow 2 64 : Nat)

/-- The integers that are recognised as such, though a document cannot hold them all. -/
def fitsWideInteger (i : Int) : Bool := -(Nat.pow 2 127 : Nat) ≤ i && i < (Nat.pow 2 128 : Nat)

/-- The float a text stands for. A number too great for a double is none. -/
def readFloat? (cs : List Char) : Option Binary64 :=
  let unsigned := match cs with
    | '+' :: rest => rest
    | cs => cs
  match String.ofList unsigned with
  | ".inf" | ".Inf" | ".INF" => some (.infinite false)
  | _ => match String.ofList cs with
    | "-.inf" | "-.Inf" | "-.INF" => some (.infinite true)
    | ".nan" | ".NaN" | ".NAN" => some .nan
    | _ => match cs, unsigned with
      | '+' :: _, '+' :: _ => none
      | '+' :: _, '-' :: _ => none
      | _, _ => (read? unsigned).filter Binary64.isFinite

/-- What a plain scalar stands for, or nothing if it is an integer that no document holds. -/
def resolvePlain? (s : String) : Option Value :=
  let cs := s.toList
  if cs.isEmpty || isNullText s then some .null
  else match truthOf? s with
    | some b => some (.bool b)
    | none => match (readInteger? cs).filter fitsWideInteger with
      | some i => if fitsInteger i then some (.int i) else none
      | none =>
        if hasLeadingZero cs then some (.str s)
        else match readFloat? cs with
          | some x => some (.float x)
          | none => some (.str s)

/-- Whether a plain scalar with this text would be read back as the same string. -/
def readsAsString (s : String) : Bool :=
  !hasLeadingZero s.toList && match resolvePlain? s with
    | some (.str _) => true
    | _ => false

end EnvCompose.Yaml
