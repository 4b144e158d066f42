import EnvCompose.Decimal.Notation
import EnvCompose.Toml.Text
import EnvCompose.Toml.Value

/-!
# Numbers, moments and truth values in TOML

All of these are words of letters, digits and a few signs, except that a blank may stand between a
date and a time.
-/
namespace EnvCompose.Toml
open Decimal

def isWordChar (c : Char) : Bool :=
  c.isAlphanum || c == '_' || c == '+' || c == '-' || c == '.' || c == ':'

/-- Digits between which single underscores may stand. -/
def readSpacedDigits (isDigit : Char → Bool) : List Char → Option (List Char)
  | [] => none
  | [c] => if isDigit c then some [c] else none
  | c :: '_' :: rest => if isDigit c then (readSpacedDigits isDigit rest).map (c :: ·) else none
  | c :: rest => if isDigit c then (readSpacedDigits isDigit rest).map (c :: ·) else none

def dropSign : List Char → List Char
  | '+' :: rest => rest
  | '-' :: rest => rest
  | cs => cs

/-- The digits of a whole number without a sign. It has no zero in front of others. -/
def wholeDigits? : List Char → Option (List Char)
  | ['0'] => some ['0']
  | '0' :: _ => none
  | cs => readSpacedDigits Char.isDigit cs

def fitsInteger (i : Int) : Bool := -(Nat.pow 2 63 : Nat) ≤ i && i < (Nat.pow 2 63 : Nat)

/-- An integer with the mark of its base before its digits. -/
def basedInteger? (base : Nat) (cs : List Char) : Option Int := do
  let isDigit (c : Char) := (hexDigit? c).any (· < base)
  let digits ← readSpacedDigits isDigit cs
  let n : Int := digits.foldl (fun n c => n * base + (hexDigit? c).getD 0) 0
  if fitsInteger n then some n else none

def integer? (cs : List Char) : Option Int :=
  match cs with
  | '0' :: 'x' :: rest => basedInteger? 16 rest
  | '0' :: 'o' :: rest => basedInteger? 8 rest
  | '0' :: 'b' :: rest => basedInteger? 2 rest
  | cs => do
    let magnitude := digitsValue (← wholeDigits? (dropSign cs))
    let i : Int := if cs.head? == some '-' then -magnitude else magnitude
    if fitsInteger i then some i else none

/-- Whether digits after a point, or a power of ten, or both follow the whole part of a float. -/
def isFloatTail (cs : List Char) : Bool :=
  match cs with
  | '.' :: rest =>
    let fraction := rest.takeWhile fun c => c.isDigit || c == '_'
    (readSpacedDigits Char.isDigit fraction).isSome &&
      (fraction.length == rest.length || isPower (rest.drop fraction.length))
  | cs => isPower cs
where
  isPower : List Char → Bool
    | c :: rest => (c == 'e' || c == 'E') && (readSpacedDigits Char.isDigit (dropSign rest)).isSome
    | [] => false

/-- Whether a word is a float. One too large for a double is none, unless it is negative. -/
def isFloat (cs : List Char) : Bool :=
  let unsigned := dropSign cs
  if unsigned == "inf".toList || unsigned == "nan".toList then true
  else
    let whole := unsigned.takeWhile fun c => c.isDigit || c == '_'
    (wholeDigits? whole).isSome && isFloatTail (unsigned.drop whole.length) &&
      match read? (cs.filter (· != '_')) with
      | some (.infinite false) => false
      | some _ => true
      | none => false

def twoDigits? (low high : Nat) (a b : Char) : Option Nat :=
  if a.isDigit && b.isDigit then
    let n := digitsValue [a, b]
    if low ≤ n && n ≤ high then some n else none
  else none

def daysIn (year month : Nat) : Nat :=
  if month == 2 then
    if year % 4 == 0 && (year % 100 != 0 || year % 400 == 0) then 29 else 28
  else if month == 4 || month == 6 || month == 9 || month == 11 then 30 else 31

def dropDate? : List Char → Option (List Char)
  | y₁ :: y₂ :: y₃ :: y₄ :: '-' :: m₁ :: m₂ :: '-' :: d₁ :: d₂ :: rest => do
    if [y₁, y₂, y₃, y₄].any (!·.isDigit) then none
    let month ← twoDigits? 1 12 m₁ m₂
    let _ ← twoDigits? 1 (daysIn (digitsValue [y₁, y₂, y₃, y₄]) month) d₁ d₂
    return rest
  | _ => none

def dropTime? : List Char → Option (List Char)
  | h₁ :: h₂ :: ':' :: m₁ :: m₂ :: ':' :: s₁ :: s₂ :: rest => do
    let _ ← twoDigits? 0 23 h₁ h₂
    let _ ← twoDigits? 0 59 m₁ m₂
    let _ ← twoDigits? 0 60 s₁ s₂
    match rest with
    | '.' :: c :: rest => if c.isDigit then return rest.dropWhile Char.isDigit else none
    | rest => return rest
  | _ => none

def isOffset : List Char → Bool
  | ['Z'] | ['z'] => true
  | [sign, h₁, h₂, ':', m₁, m₂] =>
    (sign == '+' || sign == '-') && (twoDigits? 0 23 h₁ h₂).isSome && (twoDigits? 0 59 m₁ m₂).isSome
  | _ => false

def isTimeOfDate (cs : List Char) : Bool :=
  match dropTime? cs with
  | some rest => rest.isEmpty || isOffset rest
  | none => false

def isMoment (cs : List Char) : Bool :=
  dropTime? cs == some [] ||
    match dropDate? cs with
    | some (c :: rest) => (c == 'T' || c == 't') && isTimeOfDate rest
    | some [] => true
    | none => false

def wordValue? (cs : List Char) : Option Value :=
  if cs == "true".toList then some (.boolean true)
  else if cs == "false".toList then some (.boolean false)
  else if isMoment cs then some .moment
  else if isFloat cs then some .float
  else (integer? cs).map .integer

/-- A word, or a date and a time with a blank between. -/
def readWord : Reader Value := fun cs =>
  let word := cs.takeWhile isWordChar
  let rest := cs.drop word.length
  match rest with
  | ' ' :: c :: _ =>
    if dropDate? word == some [] && c.isDigit then
      let time := rest.tail.takeWhile isWordChar
      if isTimeOfDate time then some (.moment, rest.drop (time.length + 1)) else none
    else (wordValue? word).map (·, rest)
  | _ => (wordValue? word).map (·, rest)

end EnvCompose.Toml
