import TaintScan.Text.Blank

/-! # Source languages

The closed set of languages that have a dialect, their file suffixes, and the lookup of a language
by suffix or by path.
-/
namespace TaintScan

inductive Language where
  | java
  | csharp
  | javascript
  | typescript
  | python
  | go
  | ruby
  | php
  deriving DecidableEq, Repr

namespace Language

def all : List Language := [java, csharp, javascript, typescript, python, go, ruby, php]

def code : Language → String
  | java => "Java"
  | csharp => "CSharp"
  | javascript => "JavaScript"
  | typescript => "TypeScript"
  | python => "Python"
  | go => "Go"
  | ruby => "Ruby"
  | php => "Php"

def ofCode? (text : String) : Option Language := all.find? (·.code == text)

def name : Language → String
  | csharp => "C#"
  | php => "PHP"
  | language => language.code

def suffixes : List (String × Language) :=
  [("java", java), ("cs", csharp), ("js", javascript), ("jsx", javascript), ("mjs", javascript),
    ("cjs", javascript), ("ts", typescript), ("tsx", typescript), ("py", python), ("go", go),
    ("rb", ruby), ("php", php)]

def extensions (language : Language) : List String :=
  (suffixes.filter (·.2 == language)).map (·.1)

def isEcmascript : Language → Bool
  | javascript | typescript => true
  | _ => false

def ofExtension? (ext : String) : Option Language :=
  let ext := (Text.dropHead? "." ext).getD ext
  (suffixes.find? fun s => Text.eqIgnoreCase s.1 ext).map (·.2)

/-- No language has the suffix; it is kept with its leading dot. -/
structure UnsupportedExtension where
  ext : String
  deriving DecidableEq, Repr

def UnsupportedExtension.message (e : UnsupportedExtension) : String :=
  "unsupported file extension: " ++ e.ext

/-- The last component of a path, if it names a file: trailing separators and single dots count for
nothing, and two dots name the parent. -/
def fileName? (path : String) : Option String :=
  match ((Text.splitOn '/' path).filter fun part => part != "" && part != ".").getLast? with
  | some ".." => none
  | last => last

/-- What follows the last dot of the file name; a dot at its front starts no suffix. -/
def pathExtension? (path : String) : Option String :=
  match fileName? path with
  | none => none
  | some file =>
    match (Text.splitOn '.' file).reverse with
    | ext :: stem => if stem == [] || stem == [""] then none else some ext
    | [] => none

def ofPath? (path : String) : Except UnsupportedExtension Language :=
  let ext := (pathExtension? path).getD ""
  match ofExtension? ext with
  | some language => .ok language
  | none => .error ⟨"." ++ ext⟩

end Language
end TaintScan
