import EnvCompose.Yaml.Text

/-!
# Tokens

The marks of structure in a document, with its scalars decoded. Indentation appears as tokens that
open and close blocks.
-/
namespace EnvCompose.Yaml

inductive ScalarStyle where
  | plain
  | singleQuoted
  | doubleQuoted
  | literal
  | folded
  deriving DecidableEq, Repr, Inhabited

/-- The octets of a tag, which need not be the text of anything. -/
abbrev TagOctets := List UInt8

inductive Token where
  | versionDirective (major minor : Nat)
  | tagDirective (handle : String) (expansion : TagOctets)
  | documentStart
  | documentEnd
  | blockSequenceStart
  | blockMappingStart
  | blockEnd
  | flowSequenceStart
  | flowSequenceEnd
  | flowMappingStart
  | flowMappingEnd
  | blockItem
  | flowItem
  | key
  | value
  | alias (name : String)
  | anchor (name : String)
  | tag (handle : String) (suffix : TagOctets)
  | scalar (text : String) (style : ScalarStyle)
  deriving DecidableEq, Repr, Inhabited

inductive SyntaxError where
  | controlCharacter
  | unexpectedCharacter (place : Mark)
  | unexpectedEnd (place : Mark)
  | unexpectedBoundary (place : Mark)
  | tabIndentation (place : Mark)
  | badDirective (place : Mark)
  | badAnchor (place : Mark)
  | badTag (place : Mark)
  | badBlockHeader (place : Mark)
  | badEscape (place : Mark)
  | missingColon (place : Mark)
  | misplacedItem (place : Mark)
  | misplacedKey (place : Mark)
  | misplacedValue (place : Mark)
  | unexpectedToken
  | undefinedHandle (handle : String)
  | repeatedDirective
  | unsupportedVersion
  | unknownAnchor (name : String)
  | secondDocument
  deriving DecidableEq, Repr, Inhabited

namespace SyntaxError

def place (what : String) (m : Mark) : String :=
  what ++ " at line " ++ toString (m.line + 1) ++ " column " ++ toString (m.column + 1)

def message : SyntaxError → String
  | .controlCharacter => "control characters are not allowed"
  | .unexpectedCharacter m => place "found character that cannot start any token" m
  | .unexpectedEnd m => place "found unexpected end of stream" m
  | .unexpectedBoundary m => place "found unexpected document indicator" m
  | .tabIndentation m => place "found a tab character that violates indentation" m
  | .badDirective m => place "malformed directive" m
  | .badAnchor m => place "did not find expected alphabetic or numeric character" m
  | .badTag m => place "malformed tag" m
  | .badBlockHeader m => place "malformed block scalar header" m
  | .badEscape m => place "found unknown escape character" m
  | .missingColon m => place "could not find expected ':'" m
  | .misplacedItem m => place "block sequence entries are not allowed in this context" m
  | .misplacedKey m => place "mapping keys are not allowed in this context" m
  | .misplacedValue m => place "mapping values are not allowed in this context" m
  | .unexpectedToken => "did not find expected node content"
  | .undefinedHandle _ => "found undefined tag handle"
  | .repeatedDirective => "found duplicate directive"
  | .unsupportedVersion => "found incompatible YAML document"
  | .unknownAnchor _ => "unknown anchor"
  | .secondDocument => "deserializing from YAML containing more than one document is not supported"

end SyntaxError
end EnvCompose.Yaml
