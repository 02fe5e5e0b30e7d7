import TaintScan.Text.Blank

/-! # Words of names

Splits the last segment of a name into lower-case words, at separators and where the letter case
changes, and looks for words and algorithm names on a list.
-/
namespace TaintScan

def closeWord (current : List Char) : List String :=
  if current.isEmpty then [] else [String.ofList current.reverse]

/-- A capital starts a word behind a small letter or a digit, and behind a capital if a small letter
follows. -/
def startsWord (prev : Option Char) (c : Char) (next : Option Char) : Bool :=
  c.isUpper && prev.any fun p => p.isLower || p.isDigit || (p.isUpper && next.any Char.isLower)

def wordsFrom (prev : Option Char) (current : List Char) : List Char → List String
  | [] => closeWord current
  | c :: rest =>
    if !c.isAlphanum then closeWord current ++ wordsFrom (some c) [] rest
    else if startsWord prev c rest.head? then closeWord current ++ wordsFrom (some c) [c.toLower] rest
    else wordsFrom (some c) (c.toLower :: current) rest

def nameWords (name : String) : List String :=
  wordsFrom none [] (Text.afterLast '.' name).toList

def adjacentPairs : List String → List String
  | a :: b :: rest => (a ++ b) :: adjacentPairs (b :: rest)
  | _ => []

/-- One word of the name, or two words side by side taken as one, is listed. -/
def isSecretName (name : String) (listed : List String) : Bool :=
  let words := nameWords name
  (words ++ adjacentPairs words).any fun w => listed.any (Text.eqIgnoreCase · w)

def normalAlgorithm (cs : List Char) : List Char := (cs.filter Char.isAlphanum).map Char.toUpper

/-- The listed algorithm that a text names: one spelled as the text or one of its parts between
slashes, or else the first that agrees with the text or one of its segments up to separators. -/
def weakAlgorithm? (text : String) (algorithms : List String) : Option String :=
  let spelled := algorithms.find? fun a =>
    Text.eqIgnoreCase text a || (Text.splitOn '/' text).any (Text.eqIgnoreCase · a)
  let segments :=
    ((Text.splitChars (fun c => c == '/' || c == '-' || c == '_') text.toList).map
      normalAlgorithm).filter (!·.isEmpty)
  spelled <|> algorithms.find? fun a =>
    let a := normalAlgorithm a.toList
    normalAlgorithm text.toList == a || segments.contains a

end TaintScan
