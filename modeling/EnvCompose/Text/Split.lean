/-!
# Texts in pieces
-/
namespace EnvCompose.Text

/-- The pieces between the separators, one more than there are separators. -/
def split (separator : Char) : List Char → List (List Char)
  | [] => [[]]
  | c :: rest =>
    if c == separator then [] :: split separator rest
    else match split separator rest with
      | [] => [[c]]
      | piece :: others => (c :: piece) :: others

def pieces (separator : Char) (s : String) : List String :=
  ((split separator s.toList).filter (!·.isEmpty)).map String.ofList

end EnvCompose.Text
