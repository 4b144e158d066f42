/-!
# Blank characters and lines

The characters Unicode counts as white space, and the lines of a text.
-/
namespace EnvCompose.Text

/-- White space as Unicode defines it. -/
def isWhite (c : Char) : Bool :=
  let n := c.toNat
  (0x09 ≤ n && n ≤ 0x0D) || n == 0x20 || n == 0x85 || n == 0xA0 || n == 0x1680 ||
    (0x2000 ≤ n && n ≤ 0x200A) || n == 0x2028 || n == 0x2029 || n == 0x202F || n == 0x205F ||
    n == 0x3000

def trim (s : String) : String :=
  String.ofList ((s.toList.dropWhile isWhite).reverse.dropWhile isWhite).reverse

/-- The lines of a text, the first of them continued from what has been read of it in reverse. -/
def linesFrom (line : List Char) : List Char → List (List Char)
  | [] => if line.isEmpty then [] else [line.reverse]
  | '\r' :: '\n' :: rest => line.reverse :: linesFrom [] rest
  | '\n' :: rest => line.reverse :: linesFrom [] rest
  | c :: rest => linesFrom (c :: line) rest

/-- The lines of a text. A line ends with a line feed, before which a carriage return belongs to the
end; the last line may lack its end. -/
def lines (s : String) : List String := (linesFrom [] s.toList).map String.ofList

end EnvCompose.Text
