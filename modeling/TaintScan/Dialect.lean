import TaintScan.Scope

/-! # Dialects

The lexical and statement-level differences between the languages, as one record per language. The
lexer and the extraction consult nothing else about a language but its dialect and its name.
-/
namespace TaintScan

inductive BlockStyle where
  | braces
  | indentation
  | endKeyword
  deriving DecidableEq, Repr

inductive Interpolation where
  | none
  | dollarBrace
  | hashBrace
  /-- A braced expression; a doubled brace is text. -/
  | brace
  /-- A name after a dollar sign, or a braced expression that starts with one. -/
  | dollarName
  deriving DecidableEq, Repr

structure Dialect where
  language : Language
  blockStyle : BlockStyle := .braces
  /-- A line end outside all brackets ends the statement. -/
  newlineTerminates : Bool
  lineComments : List String := ["//"]
  blockComments : Bool := true
  keywords : List String
  constants : List String
  typeKeywords : List String
  functionKeywords : List String := []
  declarationKeywords : List String := []
  modifiers : List String
  privateModifiers : List String := ["private", "protected"]
  membersPublicByDefault : Bool := true
  memberOperators : List String := [".", "?."]
  concatOperators : List String := ["+"]
  formatOperator : Option String := Option.none
  typedDeclarations : Bool := false
  lambdaArrows : List String := []
  commandKeywords : List String := []
  parenLessCalls : Bool := false
  importKeywords : List String
  nameBeforeType : Bool := true
  sigils : List Char := []
  interpolation : Interpolation := .none

namespace Dialect

def java : Dialect where
  language := .java
  newlineTerminates := false
  keywords :=
    ["abstract", "assert", "break", "case", "catch", "class", "continue", "default", "do", "else",
      "enum", "extends", "final", "finally", "for", "if", "implements", "import", "instanceof",
      "interface", "native", "new", "package", "private", "protected", "public", "record",
      "return", "static", "super", "switch", "synchronized", "this", "throw", "throws",
      "transient", "try", "volatile", "while"]
  constants := ["true", "false", "null"]
  typeKeywords := ["class", "interface", "enum", "record"]
  declarationKeywords := ["var"]
  modifiers :=
    ["public", "private", "protected", "static", "final", "abstract", "native", "synchronized",
      "transient", "volatile", "default", "sealed", "strictfp"]
  typedDeclarations := true
  lambdaArrows := ["->"]
  importKeywords := ["import", "package"]
  nameBeforeType := false

def csharp : Dialect where
  language := .csharp
  newlineTerminates := false
  lineComments := ["//", "#"]
  keywords :=
    ["abstract", "as", "base", "break", "case", "catch", "class", "const", "continue", "default",
      "do", "else", "enum", "finally", "for", "foreach", "if", "in", "interface", "internal", "is",
      "lock", "namespace", "new", "override", "private", "protected", "public", "readonly",
      "record", "return", "sealed", "static", "struct", "switch", "this", "throw", "try", "using",
      "virtual", "while", "async", "await"]
  constants := ["true", "false", "null"]
  typeKeywords := ["class", "interface", "enum", "struct", "record", "namespace"]
  declarationKeywords := ["var"]
  modifiers :=
    ["public", "private", "protected", "internal", "static", "readonly", "sealed", "abstract",
      "virtual", "override", "async", "partial", "extern", "unsafe", "const"]
  membersPublicByDefault := false
  typedDeclarations := true
  lambdaArrows := ["=>"]
  importKeywords := ["using"]
  nameBeforeType := false
  interpolation := .brace

def ecmascript (language : Language) : Dialect where
  language := language
  newlineTerminates := true
  keywords :=
    ["async", "await", "break", "case", "catch", "class", "const", "continue", "default", "delete",
      "do", "else", "export", "extends", "finally", "for", "function", "if", "import", "in",
      "instanceof", "interface", "let", "new", "of", "return", "switch", "this", "throw", "try",
      "typeof", "var", "void", "while", "yield", "enum", "type"]
  constants := ["true", "false", "null", "undefined"]
  typeKeywords := ["class", "interface", "enum"]
  functionKeywords := ["function"]
  declarationKeywords := ["var", "let", "const"]
  modifiers :=
    ["export", "default", "async", "static", "public", "private", "protected", "readonly",
      "abstract", "declare", "override"]
  lambdaArrows := ["=>"]
  importKeywords := ["import"]
  interpolation := .dollarBrace

def python : Dialect where
  language := .python
  blockStyle := .indentation
  newlineTerminates := true
  lineComments := ["#"]
  blockComments := false
  keywords :=
    ["and", "as", "assert", "async", "await", "break", "class", "continue", "def", "del", "elif",
      "else", "except", "finally", "for", "from", "global", "if", "import", "in", "is", "lambda",
      "nonlocal", "not", "or", "pass", "raise", "return", "try", "while", "with", "yield"]
  constants := ["True", "False", "None"]
  typeKeywords := ["class"]
  functionKeywords := ["def"]
  modifiers := ["async"]
  privateModifiers := []
  formatOperator := some "%"
  importKeywords := ["import", "from"]
  interpolation := .brace

def go : Dialect where
  language := .go
  newlineTerminates := true
  keywords :=
    ["break", "case", "chan", "const", "continue", "default", "defer", "else", "fallthrough",
      "for", "func", "go", "goto", "if", "import", "interface", "map", "package", "range",
      "return", "select", "struct", "switch", "type", "var"]
  constants := ["true", "false", "nil", "iota"]
  typeKeywords := ["type"]
  functionKeywords := ["func"]
  declarationKeywords := ["var", "const"]
  modifiers := ["defer", "go"]
  privateModifiers := []
  importKeywords := ["import", "package"]

def ruby : Dialect where
  language := .ruby
  blockStyle := .endKeyword
  newlineTerminates := true
  lineComments := ["#"]
  blockComments := false
  keywords :=
    ["alias", "and", "begin", "break", "case", "class", "def", "do", "else", "elsif", "end",
      "ensure", "for", "if", "in", "module", "next", "not", "or", "redo", "rescue", "retry",
      "return", "self", "super", "then", "undef", "unless", "until", "when", "while", "yield"]
  constants := ["true", "false", "nil"]
  typeKeywords := ["class", "module"]
  functionKeywords := ["def"]
  modifiers := []
  memberOperators := [".", "&.", "::"]
  formatOperator := some "%"
  parenLessCalls := true
  importKeywords :=
    ["require", "require_relative", "include", "extend", "attr_accessor", "attr_reader"]
  sigils := ['@', '$']
  interpolation := .hashBrace

def php : Dialect where
  language := .php
  newlineTerminates := false
  lineComments := ["//", "#"]
  keywords :=
    ["abstract", "as", "break", "case", "catch", "class", "const", "continue", "default", "do",
      "echo", "else", "elseif", "extends", "final", "finally", "for", "foreach", "function",
      "global", "if", "implements", "include", "include_once", "interface", "namespace", "new",
      "print", "private", "protected", "public", "require", "require_once", "return", "static",
      "switch", "throw", "trait", "try", "use", "while"]
  constants := ["true", "false", "null", "TRUE", "FALSE", "NULL"]
  typeKeywords := ["class", "interface", "trait"]
  functionKeywords := ["function"]
  declarationKeywords := ["const"]
  modifiers := ["public", "private", "protected", "static", "final", "abstract"]
  memberOperators := ["->", "?->", "::"]
  concatOperators := ["."]
  lambdaArrows := ["=>"]
  commandKeywords := ["echo", "print"]
  importKeywords := ["use", "namespace", "require", "require_once", "include", "include_once"]
  sigils := ['$']
  interpolation := .dollarName

def of : Language → Dialect
  | .java => java
  | .csharp => csharp
  | .javascript => ecmascript .javascript
  | .typescript => ecmascript .typescript
  | .python => python
  | .go => go
  | .ruby => ruby
  | .php => php

theorem language_of (language : Language) : (of language).language = language := by
  cases language <;> rfl

def control? (d : Dialect) (word : String) : Option ControlKind :=
  match word with
  | "if" | "else" | "elif" | "elsif" | "unless" | "switch" | "case" | "select" => some .branch
  | "for" | "foreach" | "while" | "do" | "until" | "loop" => some .loop
  | "try" | "finally" | "begin" | "ensure" => some .tryBody
  | "catch" | "except" | "rescue" => some .catchBody
  | "with" | "using" | "lock" | "synchronized" => some .withBody
  | "elseif" => if d.language == .php then some .branch else Option.none
  | _ => Option.none

end Dialect
end TaintScan
