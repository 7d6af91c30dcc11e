namespace Slotform.Derive

inductive Delimiter where
  | paren | bracket | brace
  deriving DecidableEq, Repr

def Delimiter.opening : Delimiter → Char
  | paren => '('
  | bracket => '['
  | brace => '\x7b'

def Delimiter.closing : Delimiter → Char
  | paren => ')'
  | bracket => ']'
  | brace => '\x7d'

/-- A token tree. A punctuation character is joint when another one follows it at once; a raw
identifier keeps its mark. -/
inductive Token where
  | ident (name : String)
  | punct (c : Char) (joint : Bool)
  | literal (text : List Char)
  | group (delimiter : Delimiter) (inner : List Token)

namespace Token

mutual

/-- The words of a tree, each bracket being a word of its own. -/
def words : Token → List String
  | ident name => [name]
  | punct c _ => [c.toString]
  | literal text => [String.ofList text]
  | group delimiter inner =>
    delimiter.opening.toString :: (wordsOf inner ++ [delimiter.closing.toString])

def wordsOf : List Token → List String
  | [] => []
  | token :: rest => token.words ++ wordsOf rest

end

def isPunct (expected : Char) : Token → Bool
  | punct c _ => c = expected
  | _ => false

/-- The token is a punctuation character with another one right after it. -/
def isJoint (expected : Char) : Token → Bool
  | punct c joint => c = expected && joint
  | _ => false

def isIdent (expected : String) : Token → Bool
  | ident name => name = expected
  | _ => false

end Token

end Slotform.Derive
