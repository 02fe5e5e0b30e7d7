/-! # Blank characters, trimming, words and lines

Blank means Unicode `White_Space`. The functions work on character lists; the `String` versions wrap
them. `lines` ends a line at a line feed, drops one carriage return right before it, and counts no
empty line after the last line feed.
-/
namespace TaintScan.Text

def isBlank (c : Char) : Bool :=
  let n := c.toNat
  (9 ≤ n && n ≤ 13) || n == 0x20 || n == 0x85 || n == 0xA0 || n == 0x1680 ||
  (0x2000 ≤ n && n ≤ 0x200A) || n == 0x2028 || n == 0x2029 || n == 0x202F || n == 0x205F ||
  n == 0x3000

def trimStartChars (cs : List Char) : List Char := cs.dropWhile isBlank

def trimEndChars (cs : List Char) : List Char := (cs.reverse.dropWhile isBlank).reverse

def trimChars (cs : List Char) : List Char := trimEndChars (trimStartChars cs)

def trim (s : String) : String := String.ofList (trimChars s.toList)

def trimEnd (s : String) : String := String.ofList (trimEndChars s.toList)

def isBlankText (s : String) : Bool := s.toList.all isBlank

/-- The parts of a list between the elements equal to `sep`; one part more than there are such
elements. -/
def splitChars (sep : Char → Bool) : List Char → List (List Char)
  | [] => [[]]
  | c :: rest =>
    if sep c then [] :: splitChars sep rest
    else
      match splitChars sep rest with
      | [] => [[c]]
      | part :: parts => (c :: part) :: parts

def splitOn (sep : Char) (s : String) : List String :=
  (splitChars (· == sep) s.toList).map String.ofList

def splitLastChars? (sep : Char) (cs : List Char) : Option (List Char × List Char) :=
  let tail := (cs.reverse.takeWhile (· != sep)).reverse
  if tail.length < cs.length then some (cs.take (cs.length - tail.length - 1), tail) else none

def splitLast? (sep : Char) (s : String) : Option (String × String) :=
  (splitLastChars? sep s.toList).map fun p => (String.ofList p.1, String.ofList p.2)

/-- What stands behind the last `sep`; all of `s` if there is none. -/
def afterLast (sep : Char) (s : String) : String :=
  String.ofList (s.toList.reverse.takeWhile (· != sep)).reverse

def words (s : String) : List String :=
  ((splitChars isBlank s.toList).filter (!·.isEmpty)).map String.ofList

/-- One carriage return at the end of a line belongs to the line end. -/
def dropReturn (line : List Char) : List Char :=
  if line.getLast? == some '\r' then line.dropLast else line

/-- Closes every part but the last, which is a line only if it holds a character. -/
def closeLines : List (List Char) → List (List Char)
  | [] => []
  | [last] => if last.isEmpty then [] else [last]
  | line :: rest => dropReturn line :: closeLines rest

def lineChars (cs : List Char) : List (List Char) := closeLines (splitChars (· == '\n') cs)

def lines (s : String) : List String := (lineChars s.toList).map String.ofList

def joinWith (sep : String) (parts : List String) : String := sep.intercalate parts

def lowerAscii (s : String) : String := String.ofList (s.toList.map Char.toLower)

def eqIgnoreCase (a b : String) : Bool := a.toList.map Char.toLower == b.toList.map Char.toLower

def dropHead? (head s : String) : Option String :=
  if head.toList.isPrefixOf s.toList then some (String.ofList (s.toList.drop head.toList.length))
  else none

def dropTail? (tail s : String) : Option String :=
  if tail.toList.isSuffixOf s.toList then
    some (String.ofList (s.toList.take (s.toList.length - tail.toList.length)))
  else none

def startsWith (head s : String) : Bool := head.toList.isPrefixOf s.toList

def endsWith (tail s : String) : Bool := tail.toList.isSuffixOf s.toList

def hasPart (part : List Char) : List Char → Bool
  | [] => part.isEmpty
  | c :: rest => part.isPrefixOf (c :: rest) || hasPart part rest

def contains (s part : String) : Bool := hasPart part.toList s.toList

/-- Replaces each occurrence of `pattern`, from the left, by `value`; `skip` counts the characters of
an occurrence that are still to be passed over. An empty pattern replaces nothing. -/
def replaceChars (pattern value : List Char) : Nat → List Char → List Char
  | _, [] => []
  | skip + 1, _ :: rest => replaceChars pattern value skip rest
  | 0, c :: rest =>
    if !pattern.isEmpty && pattern.isPrefixOf (c :: rest) then
      value ++ replaceChars pattern value (pattern.length - 1) rest
    else c :: replaceChars pattern value 0 rest

def replace (s pattern value : String) : String :=
  String.ofList (replaceChars pattern.toList value.toList 0 s.toList)

end TaintScan.Text
