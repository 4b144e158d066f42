/-!
# Octets as text

Decoding UTF-8, either strictly or with a replacement character for every run of octets that cannot
be the start of a character any further.
-/
namespace EnvCompose.Text

def decode? (octets : ByteArray) : Option String := String.fromUTF8? octets

def isContinuation (o : UInt8) : Bool := 0x80 ≤ o && o < 0xC0

/-- Whether the second octet may follow the first of a character of three or four octets. -/
def mayFollow (first second : UInt8) : Bool :=
  if first == 0xE0 then 0xA0 ≤ second && second < 0xC0
  else if first == 0xED then 0x80 ≤ second && second < 0xA0
  else if first == 0xF0 then 0x90 ≤ second && second < 0xC0
  else if first == 0xF4 then 0x80 ≤ second && second < 0x90
  else isContinuation second

/-- The octets a character takes that starts with this one, none if no character does. -/
def lengthOf (first : UInt8) : Nat :=
  if first < 0x80 then 1 else if 0xC2 ≤ first && first < 0xE0 then 2
  else if 0xE0 ≤ first && first < 0xF0 then 3 else if 0xF0 ≤ first && first < 0xF5 then 4 else 0

def bits (o : UInt8) : Nat := o.toNat % 64

/-- The characters the octets encode, with U+FFFD for the longest runs that encode none. -/
def decodeLossyList : List UInt8 → List Char
  | [] => []
  | a :: rest =>
    match lengthOf a, rest with
    | 1, rest => Char.ofNat a.toNat :: decodeLossyList rest
    | 2, b :: rest =>
      if isContinuation b then Char.ofNat (a.toNat % 32 * 64 + bits b) :: decodeLossyList rest
      else '\ufffd' :: decodeLossyList (b :: rest)
    | 3, b :: c :: rest =>
      if !mayFollow a b then '\ufffd' :: decodeLossyList (b :: c :: rest)
      else if !isContinuation c then '\ufffd' :: decodeLossyList (c :: rest)
      else Char.ofNat ((a.toNat % 16 * 64 + bits b) * 64 + bits c) :: decodeLossyList rest
    | 3, [b] => if mayFollow a b then ['\ufffd'] else '\ufffd' :: decodeLossyList [b]
    | 4, b :: c :: d :: rest =>
      if !mayFollow a b then '\ufffd' :: decodeLossyList (b :: c :: d :: rest)
      else if !isContinuation c then '\ufffd' :: decodeLossyList (c :: d :: rest)
      else if !isContinuation d then '\ufffd' :: decodeLossyList (d :: rest)
      else Char.ofNat (((a.toNat % 8 * 64 + bits b) * 64 + bits c) * 64 + bits d) ::
        decodeLossyList rest
    | 4, [b, c] =>
      if !mayFollow a b then '\ufffd' :: decodeLossyList [b, c]
      else if !isContinuation c then '\ufffd' :: decodeLossyList [c]
      else ['\ufffd']
    | 4, [b] => if mayFollow a b then ['\ufffd'] else '\ufffd' :: decodeLossyList [b]
    | _, rest => '\ufffd' :: decodeLossyList rest

def decodeLossy (octets : ByteArray) : String := String.ofList (decodeLossyList octets.toList)

end EnvCompose.Text
