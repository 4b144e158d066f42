import EnvCompose.Toml.Scalar

/-!
# Reading settings

A TOML document is read line by line: headers, which open tables, and keys with their values. The
lines are then put together to the table of the document.
-/
namespace EnvCompose.Toml

inductive ReadError where
  | malformed
  /-- A table or value is defined twice, or added to what is complete. -/
  | redefined
  | unexpectedShape (expected : String)
  deriving DecidableEq, Repr

def ReadError.message : ReadError → String
  | .malformed => "invalid document"
  | .redefined => "duplicate key"
  | .unexpectedShape expected => "invalid type, expected " ++ expected

/-- Collections are nested less deep than this, and keys have fewer parts. -/
def depthLimit : Nat := 80

def skipBlanks (cs : List Char) : List Char := cs.dropWhile isBlank

/-- Goes over the rest of a line after a value, which holds nothing but a comment. -/
def readLineEnd (cs : List Char) : Option (List Char) :=
  match skipBlanks cs with
  | [] => some []
  | '#' :: rest => stop (rest.dropWhile isOrdinary)
  | rest => stop rest
where
  stop : List Char → Option (List Char)
    | [] => some []
    | '\n' :: rest => some rest
    | '\r' :: '\n' :: rest => some rest
    | _ => none

/-- Goes over blanks, comments and line ends, as many as the fuel allows. -/
def skipLines : Nat → List Char → Option (List Char)
  | 0, cs => some cs
  | fuel + 1, cs =>
    match skipBlanks cs with
    | '#' :: rest => match rest.dropWhile isOrdinary with
      | '\n' :: rest => skipLines fuel rest
      | '\r' :: '\n' :: rest => skipLines fuel rest
      | _ => none
    | '\n' :: rest => skipLines fuel rest
    | '\r' :: rest => match rest with
      | '\n' :: rest => skipLines fuel rest
      | _ => none
    | rest => some rest

def skipSpace (cs : List Char) : Option (List Char) := skipLines (cs.length + 1) cs

def isBareKeyChar (c : Char) : Bool := c.isAlphanum || c == '_' || c == '-'

def readName : Reader String
  | '"' :: rest => readQuoted [] rest
  | '\'' :: rest => readLiteral [] rest
  | cs =>
    let name := cs.takeWhile isBareKeyChar
    if name.isEmpty then none else some (String.ofList name, cs.drop name.length)

def readNames : Nat → Reader (List String)
  | 0, _ => none
  | fuel + 1, cs => do
    let (name, rest) ← readName (skipBlanks cs)
    match skipBlanks rest with
    | '.' :: rest =>
      let (names, rest) ← readNames fuel rest
      return (name :: names, rest)
    | rest => return ([name], rest)

structure Key where
  path : List String
  name : String
  deriving DecidableEq, Repr

def readKey : Reader Key := fun cs => do
  let (names, rest) ← readNames depthLimit cs
  match names.reverse with
  | [] => none
  | name :: others =>
    if names.length < depthLimit then some (⟨others.reverse, name⟩, rest) else none

def readPair (value : Reader Value) : Reader (Key × Value) := fun cs => do
  let (key, rest) ← readKey cs
  match skipBlanks rest with
  | '=' :: rest =>
    let (v, rest) ← value (skipBlanks rest)
    return ((key, v), rest)
  | _ => none

def readItems (value : Reader Value) : Nat → Reader (List Value)
  | 0, _ => none
  | fuel + 1, cs => do
    match ← skipSpace cs with
    | ']' :: rest => return ([], rest)
    | cs =>
      let (v, rest) ← value cs
      match ← skipSpace rest with
      | ']' :: rest => return ([v], rest)
      | ',' :: rest =>
        let (vs, rest) ← readItems value fuel rest
        return (v :: vs, rest)
      | _ => none

def readPairs (value : Reader Value) : Nat → Reader (List (Key × Value))
  | 0, _ => none
  | fuel + 1, cs => do
    let (p, rest) ← readPair value cs
    match skipBlanks rest with
    | '\x7d' :: rest => return ([p], rest)
    | ',' :: rest =>
      let (ps, rest) ← readPairs value fuel rest
      return (p :: ps, rest)
    | _ => none

def addPairs (ps : List (Key × Value)) (es : Entries) : Option Entries :=
  ps.foldlM (fun es p => es.addDotted p.1.path p.1.name p.2) es

def readInline (value : Reader Value) : Reader Value := fun cs =>
  match skipBlanks cs with
  | '\x7d' :: rest => some (.inline [], rest)
  | _ => do
    let (ps, rest) ← readPairs value (cs.length + 1) cs
    return (.inline (← addPairs ps []), rest)

/-- A value in which collections nest no deeper than given. -/
def readValue : Nat → Reader Value
  | _, '"' :: '"' :: '"' :: rest => text (readLines false [] (dropLineEnd rest))
  | _, '"' :: rest => text (readQuoted [] rest)
  | _, '\'' :: '\'' :: '\'' :: rest => text (readLiteralLines [] (dropLineEnd rest))
  | _, '\'' :: rest => text (readLiteral [] rest)
  | depth + 1, '[' :: rest => do
    let (vs, rest) ← readItems (readValue depth) (rest.length + 1) rest
    return (.array vs, rest)
  | depth + 1, '\x7b' :: rest => readInline (readValue depth) rest
  | _, cs => readWord cs
where
  text (r : Option (String × List Char)) : Option (Value × List Char) :=
    r.map fun p => (.text p.1, p.2)

inductive Line where
  | table (key : Key)
  /-- The header of one of several tables of a name. -/
  | member (key : Key)
  | pair (key : Key) (value : Value)
  deriving Repr

def readHeader (brackets : List Char) (cs : List Char) : Option (Key × List Char) := do
  let (key, rest) ← readKey cs
  if rest.take brackets.length == brackets then
    return (key, ← readLineEnd (rest.drop brackets.length))
  else none

def readLine : Reader Line
  | '[' :: '[' :: rest => do
    let (key, rest) ← readHeader [']', ']'] rest
    return (.member key, rest)
  | '[' :: rest => do
    let (key, rest) ← readHeader [']'] rest
    return (.table key, rest)
  | cs => do
    let (p, rest) ← readPair (readValue (depthLimit - 1)) cs
    return (.pair p.1 p.2, ← readLineEnd rest)

/-- The lines of a document that say something. -/
def readDocument : Nat → List Char → Option (List Line)
  | 0, _ => none
  | fuel + 1, cs =>
    match skipBlanks cs with
    | [] => some []
    | '#' :: rest => do readDocument fuel (← readLineEnd.stop (rest.dropWhile isOrdinary))
    | '\n' :: rest => readDocument fuel rest
    | '\r' :: '\n' :: rest => readDocument fuel rest
    | cs => do
      let (line, rest) ← readLine cs
      return line :: (← readDocument fuel rest)

structure Section where
  header : Line
  pairs : List (Key × Value)

/-- The pairs before the first header, and the sections. -/
def sectionsOf : List Line → List (Key × Value) × List Section
  | [] => ([], [])
  | .pair k v :: lines => let (ps, ss) := sectionsOf lines; ((k, v) :: ps, ss)
  | line :: lines => let (ps, ss) := sectionsOf lines; ([], ⟨line, ps⟩ :: ss)

/-- Puts a section into the table of the document. -/
def Section.addTo (s : Section) (es : Entries) : Option Entries :=
  match s.header with
  | .table key => es.changeAt (Entries.addTable key.name (addPairs s.pairs)) key.path
  | .member key => es.changeAt (Entries.addToTables key.name (addPairs s.pairs)) key.path
  | .pair .. => none

/-- The table of a document, which may start with a byte order mark. -/
def parse (text : String) : Except ReadError Entries :=
  let cs := match text.toList with
    | '\ufeff' :: rest => rest
    | cs => cs
  match readDocument (cs.length + 1) cs with
  | none => .error .malformed
  | some lines =>
    let (ps, ss) := sectionsOf lines
    match (addPairs ps []).bind fun es => ss.foldlM (fun es s => s.addTo es) es with
    | some es => .ok es
    | none => .error .redefined

end EnvCompose.Toml
