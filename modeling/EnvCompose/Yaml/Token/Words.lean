import EnvCompose.Yaml.Token

/-!
# Anchors, tags and directives

The tokens that are single words. A tag is a handle and a suffix, or a whole name in angle brackets;
octets may be written as a percent sign and two hexadecimal digits.
-/
namespace EnvCompose.Yaml

def takeWord (test : Char → Bool) (cs : List Char) (m : Mark) : List Char × Cursor :=
  let word := cs.takeWhile test
  (word, ⟨cs.drop word.length, m.advance word.length⟩)

/-- Whether a name may end before this text. -/
def endsName : List Char → Bool
  | [] => true
  | c :: rest => endsWord (c :: rest) || ['?', ':', ',', ']', '\x7d', '%', '@', '\x60'].contains c

def readName (cs : List Char) (m : Mark) : Except SyntaxError (String × Cursor) :=
  let (word, c) := takeWord isWordChar cs m
  if word.isEmpty || !endsName c.rest then .error (.badAnchor c.mark)
  else .ok (String.ofList word, c)

def isTagChar (bracketed : Bool) (c : Char) : Bool :=
  isWordChar c || ";/?:@&=+$.!~*'()".toList.contains c || (bracketed && [',', '[', ']'].contains c)

/-- How many octets the character takes that starts with this one. -/
def octetCount (o : UInt8) : Nat :=
  if o < 0x80 then 1 else if o &&& 0xE0 == 0xC0 then 2 else if o &&& 0xF0 == 0xE0 then 3
  else if o &&& 0xF8 == 0xF0 then 4 else 0

/-- Reads the characters of a tag. `pending` octets of an escaped character are still to come. -/
def readTagChars (bracketed : Bool) (pending : Nat) (octets : TagOctets) :
    List Char → Mark → Except SyntaxError (TagOctets × Cursor)
  | '%' :: a :: b :: rest, m =>
    match hexValue? [a, b] with
    | none => .error (.badTag m)
    | some n =>
      let o := UInt8.ofNat n
      if pending = 0 then
        let count := octetCount o
        if count = 0 then .error (.badTag m)
        else readTagChars bracketed (count - 1) (o :: octets) rest (m.advance 3)
      else if o &&& 0xC0 != 0x80 then .error (.badTag m)
      else readTagChars bracketed (pending - 1) (o :: octets) rest (m.advance 3)
  | c :: rest, m =>
    if pending ≠ 0 || c == '%' then .error (.badTag m)
    else if isTagChar bracketed c then
      readTagChars bracketed 0 (UInt8.ofNat c.toNat :: octets) rest m.next
    else .ok (octets.reverse, ⟨c :: rest, m⟩)
  | [], m => if pending ≠ 0 then .error (.badTag m) else .ok (octets.reverse, ⟨[], m⟩)

/-- Octets up to the first that is zero. -/
def TagOctets.cut (octets : TagOctets) : TagOctets := octets.takeWhile (· != 0)

def octetsOf (s : List Char) : TagOctets := s.map fun c => UInt8.ofNat c.toNat

/-- Reads a handle: an exclamation mark, a word, and perhaps another exclamation mark, which a
directive requires unless the handle is the mark alone. -/
def readHandle (directive : Bool) : List Char → Mark → Except SyntaxError (List Char × Cursor)
  | '!' :: rest, m =>
    let (word, c) := takeWord isWordChar rest m.next
    match c.rest with
    | '!' :: rest' => .ok ('!' :: (word ++ ['!']), ⟨rest', c.mark.next⟩)
    | _ => if directive && !word.isEmpty then .error (.badTag c.mark) else .ok ('!' :: word, c)
  | _, m => .error (.badTag m)

def readTag (inFlow : Bool) (cs : List Char) (m : Mark) : Except SyntaxError (Token × Cursor) := do
  let (token, c) ← match cs with
    | '!' :: '<' :: rest =>
      let (octets, c) ← readTagChars true 0 [] rest (m.advance 2)
      if octets.isEmpty then throw (.badTag c.mark)
      match c.rest with
      | '>' :: rest' => pure (Token.tag "" octets.cut, ⟨rest', c.mark.next⟩)
      | _ => throw (.badTag c.mark)
    | _ =>
      let (handle, c) ← readHandle false cs m
      if handle.length > 1 && handle.getLast? == some '!' then
        let (octets, c) ← readTagChars false 0 [] c.rest c.mark
        if octets.isEmpty then throw (.badTag c.mark)
        pure (Token.tag (String.ofList handle) octets.cut, c)
      else
        let (octets, c) ← readTagChars false 0 [] c.rest c.mark
        let suffix := (octetsOf (handle.drop 1) ++ octets).cut
        if suffix.isEmpty then pure (Token.tag "" (octetsOf ['!']), c)
        else pure (Token.tag "!" suffix, c)
  match inFlow, c.rest with
  | true, ',' :: _ => return (token, c)
  | _, _ => if endsWord c.rest then return (token, c) else throw (.badTag c.mark)

/-- Reads a number of at most nine digits. -/
def readVersionNumber (cs : List Char) (m : Mark) : Except SyntaxError (Nat × Cursor) :=
  let (digits, c) := takeWord Char.isDigit cs m
  if digits.isEmpty || digits.length > 9 then .error (.badDirective c.mark)
  else .ok (digits.foldl (fun n d => n * 10 + (d.toNat - '0'.toNat)) 0, c)

/-- Reads a directive, after its percent sign, with the rest of its line. -/
def readDirective (cs : List Char) (m : Mark) : Except SyntaxError (Token × Cursor) := do
  let (name, c) := takeWord isWordChar cs m
  if name.isEmpty || !endsWord c.rest then throw (.badDirective c.mark)
  let (token, c) ← match String.ofList name with
    | "YAML" =>
      let c := skipWhile isBlank c.rest c.mark
      let (major, c) ← readVersionNumber c.rest c.mark
      match c.rest with
      | '.' :: rest =>
        let (minor, c) ← readVersionNumber rest c.mark.next
        pure (Token.versionDirective major minor, c)
      | _ => throw (.badDirective c.mark)
    | "TAG" =>
      let c := skipWhile isBlank c.rest c.mark
      let (handle, c) ← readHandle true c.rest c.mark
      if !(c.rest.head?.any isBlank) then throw (.badDirective c.mark)
      let c := skipWhile isBlank c.rest c.mark
      let (octets, c) ← readTagChars true 0 [] c.rest c.mark
      if octets.isEmpty || !endsWord c.rest then throw (.badDirective c.mark)
      pure (Token.tagDirective (String.ofList handle) octets.cut, c)
    | _ => throw (.badDirective c.mark)
  let c := skipWhile isBlank c.rest c.mark
  let c := skipComment c.rest c.mark
  if !endsWord c.rest then throw (.badDirective c.mark)
  return (token, skipBreak c.rest c.mark)

end EnvCompose.Yaml
