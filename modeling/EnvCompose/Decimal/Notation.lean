import EnvCompose.Decimal.Shortest

/-!
# Decimal notation

Reading and writing numbers as decimal digits with a point and a power of ten. What is read has at
least one digit before the power; what is written has the fewest digits that read back.
-/
namespace EnvCompose.Decimal

def digitsValue (digits : List Char) : Nat :=
  digits.foldl (fun n d => n * 10 + (d.toNat - '0'.toNat)) 0

/-- A signed power of ten as it stands after its letter. -/
def readPower? (cs : List Char) : Option Int :=
  let (negative, digits) := match cs with
    | '-' :: rest => (true, rest)
    | '+' :: rest => (false, rest)
    | rest => (false, rest)
  if digits.isEmpty || !digits.all Char.isDigit then none
  else some (if negative then -(digitsValue digits : Int) else digitsValue digits)

/-- The digits and power of ten of a number without a sign. -/
def readUnsigned? (cs : List Char) : Option Scientific := do
  let whole := cs.takeWhile Char.isDigit
  let rest := cs.drop whole.length
  let fraction := match rest with
    | '.' :: rest => rest.takeWhile Char.isDigit
    | _ => []
  let rest := match rest with
    | '.' :: rest => rest.drop fraction.length
    | rest => rest
  if whole.isEmpty && fraction.isEmpty then none
  let power ← match rest with
    | [] => some 0
    | 'e' :: rest => readPower? rest
    | 'E' :: rest => readPower? rest
    | _ => none
  return ⟨digitsValue (whole ++ fraction), power - fraction.length⟩

def read? (cs : List Char) : Option Binary64 :=
  match cs with
  | '-' :: rest => (readUnsigned? rest).map fun s => .ofDecimal true s.digits s.exponent
  | '+' :: rest => (readUnsigned? rest).map fun s => .ofDecimal false s.digits s.exponent
  | rest => (readUnsigned? rest).map fun s => .ofDecimal false s.digits s.exponent

/-- Where a decimal is written with a point alone and where with an exponent. -/
structure NumberFormat where
  /-- Powers of ten of the leading digit from which an exponent is written. -/
  scientificFrom : Int
  /-- Powers of ten of the leading digit down to which the point notation reaches. -/
  positionalDownTo : Int
  infinity : String
  negativeInfinity : String
  notANumber : String

/-- The digits with a point after `place` of them, or with an exponent. -/
def NumberFormat.unsigned (f : NumberFormat) (s : Scientific) : String :=
  if s.digits = 0 then "0.0" else
  let digits := Nat.toDigits 10 s.digits
  let count := digits.length
  let place : Int := count + s.exponent
  let zeros (n : Nat) := String.ofList (List.replicate n '0')
  if place - 1 < f.scientificFrom ∧ 0 ≤ s.exponent then
    String.ofList digits ++ zeros s.exponent.toNat ++ ".0"
  else if place - 1 < f.scientificFrom ∧ 0 < place then
    String.ofList (digits.take place.toNat) ++ "." ++ String.ofList (digits.drop place.toNat)
  else if f.positionalDownTo ≤ place - 1 ∧ place ≤ 0 then
    "0." ++ zeros place.natAbs ++ String.ofList digits
  else
    let mantissa := if count = 1 then digits else digits.take 1 ++ '.' :: digits.drop 1
    String.ofList mantissa ++ "e" ++ toString (place - 1)

def NumberFormat.text (f : NumberFormat) : Binary64 → String
  | .nan => f.notANumber
  | .infinite false => f.infinity
  | .infinite true => f.negativeInfinity
  | .finite negative m e => (if negative then "-" else "") ++ f.unsigned (shortest m e)

end EnvCompose.Decimal
