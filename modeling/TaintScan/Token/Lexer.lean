import TaintScan.Text.Letter
import TaintScan.Token.Quoted

/-! # Lexing

`Token.scan` reads the token at the front of non-empty bytes and gives its kind and its width; it
never fails. `Token.lex` goes through all bytes: it drops blanks and line continuations and keeps
everything else in some token, so malformed text becomes error tokens and the scan resumes behind
them.
-/
namespace TaintScan

open Text.Utf8 (Bytes)

structure LexContext where
  dialect : Dialect
  /-- The token starts the content or follows a line feed. -/
  lineStart : Bool
  previous : Option Token
  offset : Nat

abbrev Scanned := TokenKind × Nat

namespace Token

def longOperators : List String :=
  [">>>=", "===", "!==", "**=", "<<=", ">>=", ">>>", "...", "<=>", "??=", "?->", "&&=", "||=",
    "::", "->", "=>", "==", "!=", "<=", ">=", "&&", "||", "++", "--", "+=", "-=", "*=", "/=",
    "%=", ".=", "|=", "&=", "^=", "<<", ">>", "**", "?.", "??", ":=", "&."]

def singleOperators : Bytes := Byte.ofAscii "+-*/%=<>!&|^~?:;,.()\x7b\x7d[]@\\#"

def regexPreceders : List String :=
  ["(", ",", "=", ":", "[", "!", "&&", "||", "?", "\x7b", "\x7d", ";", "return", "=>", "==", "==="]

def phpTag? (c : LexContext) (bytes : Bytes) : Option Scanned :=
  if c.dialect.language == .php then
    (["<?php", "<?=", "?>"].find? (Byte.startsWith · bytes)).map fun tag => (.comment, tag.length)
  else none

def blockComment (bytes : Bytes) : Scanned :=
  match Byte.find? "*/" (bytes.drop 2) with
  | some n => (.comment, n + 4)
  | none => (.error .unterminatedComment, bytes.length)

/-- A comment between `=begin` and `=end`, each at the start of a line; the rest of the last line
belongs to it. -/
def sectionComment (bytes : Bytes) : Scanned :=
  match Byte.find? "\n=end" bytes with
  | some n => (.comment, n + 5 + Byte.lineLength (bytes.drop (n + 5)))
  | none => (.comment, bytes.length)

/-- A line comment starts here; a number sign before a bracket starts an attribute instead. -/
def startsLineComment (d : Dialect) (bytes : Bytes) : Bool :=
  d.lineComments.any fun sign =>
    Byte.startsWith sign bytes && !(d.language == .php && Byte.startsWith "#[" bytes)

def comment? (c : LexContext) (bytes : Bytes) : Option Scanned :=
  if c.dialect.blockComments && Byte.startsWith "/*" bytes then some (blockComment bytes)
  else if c.dialect.language == .ruby && c.lineStart && Byte.startsWith "=begin" bytes then
    some (sectionComment bytes)
  else if startsLineComment c.dialect bytes then some (.comment, Byte.lineLength bytes)
  else none

def stringKind (d : Dialect) (o : Opening) (bytes : Bytes) : TokenKind :=
  if o.literal == .command then .literal .command
  else if o.interpolating && d.interpolation.mayEmbed bytes then .literal .interpolatedString
  else .literal o.literal

def string? (c : LexContext) (bytes : Bytes) : Option Scanned :=
  (Opening.scan? c.dialect.language bytes).map fun o =>
    match o.readBody 0 (bytes.drop o.width) with
    | .closed n => (stringKind c.dialect o (bytes.take (o.width + n)), o.width + n)
    | .cut n => (.error .unterminatedString, o.width + n)

def numberTail : Bytes → Nat
  | [] => 0
  | b :: rest =>
    if Byte.isIdentContinue b || (b == Byte.of '.' && rest.head?.any Byte.isDigit) then
      numberTail rest + 1
    else 0

def number? (bytes : Bytes) : Option Scanned :=
  match bytes with
  | b :: rest =>
    if Byte.isDigit b || (b == Byte.of '.' && rest.head?.any Byte.isDigit) then
      some (.literal .number, numberTail rest + 1)
    else none
  | [] => none

def dollarInIdent : Language → Bool
  | .javascript | .typescript | .java => true
  | _ => false

/-- The number of bytes, from the front on, that continue an identifier; `skip` counts those of a
character already read. -/
def identBody (language : Language) (skip : Nat) : Bytes → Nat
  | [] => 0
  | b :: rest =>
    match skip with
    | k + 1 => identBody language k rest + 1
    | 0 =>
      if Byte.isIdentContinue b || (b == Byte.of '$' && dollarInIdent language) then
        identBody language 0 rest + 1
      else if b ≥ 0x80 then
        match Text.Utf8.decodeChar (b :: rest) with
        | some (ch, n) => if Text.isAlphanumeric ch then identBody language (n - 1) rest + 1 else 0
        | none => 0
      else 0

/-- Ruby method names may end in a question or exclamation mark, unless an equals sign follows, or a
colon follows the question mark. -/
def markedEnd (bytes : Bytes) : Nat :=
  match bytes with
  | b :: rest =>
    if (b == Byte.of '?' || b == Byte.of '!') && rest.head? != some (Byte.of '=') &&
        !(b == Byte.of '?' && rest.head? == some (Byte.of ':')) then 1
    else 0
  | [] => 0

def identTail (language : Language) (bytes : Bytes) : Nat :=
  let n := identBody language 0 bytes
  if language == .ruby then n + markedEnd (bytes.drop n) else n

/-- A colon starts a symbol: an identifier follows it, and what stands before cannot end an operand
that the colon belongs to. -/
def symbolAllowed (c : LexContext) (rest : Bytes) : Bool :=
  rest.head?.any Byte.isIdentStart &&
    match c.previous with
    | none => true
    | some t =>
      match t.kind with
      | .identifier | .literal _ => t.span.stop != c.offset
      | .operator => !([")", "]", "::"].contains t.text)
      | _ => true

def symbol? (c : LexContext) (bytes : Bytes) : Option Scanned :=
  match bytes with
  | b :: rest =>
    if c.dialect.language == .ruby && b == Byte.of ':' && symbolAllowed c rest then
      some (.literal .symbol, 1 + identTail c.dialect.language rest)
    else none
  | [] => none

def sigilName? (c : LexContext) (bytes : Bytes) : Option Scanned :=
  let n := (bytes.takeWhile fun b => (c.dialect.sigils.map Byte.of).contains b).length
  if 0 < n && bytes[n]?.any Byte.isIdentStart then
    some (.identifier, n + identTail c.dialect.language (bytes.drop n))
  else none

def wordKind (d : Dialect) (bytes : Bytes) : TokenKind :=
  let word := (Text.Utf8.decode? bytes).getD ""
  if d.constants.contains word then .literal .constant
  else if d.keywords.contains word then .keyword
  else .identifier

def word? (c : LexContext) (bytes : Bytes) : Option Scanned :=
  match bytes with
  | b :: rest =>
    if Byte.isIdentStart b || (b == Byte.of '$' && dollarInIdent c.dialect.language) then
      let n := 1 + identTail c.dialect.language rest
      some (wordKind c.dialect (bytes.take n), n)
    else none
  | [] => none

def malformedRun : Bytes → Nat
  | [] => 0
  | b :: rest =>
    if b ≥ 0x80 && (Text.Utf8.decodeChar (b :: rest)).isNone then malformedRun rest + 1 else 0

def nonAscii? (c : LexContext) (bytes : Bytes) : Option Scanned :=
  match bytes with
  | b :: rest =>
    if b ≥ 0x80 then
      match Text.Utf8.decodeChar (b :: rest) with
      | some (ch, n) =>
        if Text.isAlphabetic ch then
          some (.identifier, n + identTail c.dialect.language (bytes.drop n))
        else some (.error .unexpectedCharacter, n)
      | none => some (.error .invalidUtf8, malformedRun rest + 1)
    else none
  | [] => none

/-- The bytes of a regular expression behind its opening slash, up to and with the closing one.
`first` says that no byte of it has been read, `inClass` that a bracket is open. -/
def regexBody? (first inClass : Bool) : Bytes → Option Nat
  | [] => none
  | [b] => if b == Byte.of '/' && !inClass && !first then some 1 else none
  | b :: c :: rest =>
    if b == newline then none
    else if b == Opening.backslash then (regexBody? false inClass rest).map (· + 2)
    else if b == Byte.of '/' && !inClass && !first then some 1
    else
      let inClass := if b == Byte.of '[' then true else if b == Byte.of ']' then false else inClass
      (regexBody? false inClass (c :: rest)).map (· + 1)

def regexAllowed (c : LexContext) : Bool :=
  match c.previous with
  | none => true
  | some t =>
    match t.kind with
    | .operator | .keyword => regexPreceders.contains t.text
    | _ => false

def regex? (c : LexContext) (bytes : Bytes) : Option Scanned :=
  match bytes with
  | b :: rest =>
    if b == Byte.of '/' && c.dialect.language.isEcmascript && regexAllowed c then
      (regexBody? true false rest).map fun n =>
        (.literal .other, 1 + n + ((rest.drop n).takeWhile Byte.isLetter).length)
    else none
  | [] => none

def longOperator? (c : LexContext) (bytes : Bytes) : Option Scanned :=
  match longOperators.find? (Byte.startsWith · bytes) with
  | some op => some (.operator, op.length)
  | none =>
    if c.dialect.language == .go && Byte.startsWith "<-" bytes then some (.operator, 2) else none

def single (bytes : Bytes) : Scanned :=
  match bytes with
  | b :: _ => if singleOperators.contains b then (.operator, 1) else (.error .unexpectedCharacter, 1)
  | [] => (.error .unexpectedCharacter, 1)

def scan (c : LexContext) (bytes : Bytes) : Scanned :=
  (phpTag? c bytes <|> comment? c bytes <|> string? c bytes <|> number? bytes <|> symbol? c bytes <|>
    sigilName? c bytes <|> word? c bytes <|> nonAscii? c bytes <|> regex? c bytes <|>
    longOperator? c bytes).getD (single bytes)

def newlines (bytes : Bytes) : Nat := bytes.count newline

/-- The token with the given bytes. It never ends on a line feed that terminates it. -/
def ofBytes (kind : TokenKind) (offset line : Nat) (bytes : Bytes) : Token where
  kind := kind
  span := ⟨offset, offset + bytes.length⟩
  text := (Text.Utf8.decode? bytes).getD ""
  line := line
  endLine := line + newlines bytes - if bytes.getLast? == some newline then 1 else 0

def continuation? : Bytes → Option Nat
  | b :: 10 :: _ => if b == Opening.backslash then some 2 else none
  | b :: 13 :: 10 :: _ => if b == Opening.backslash then some 3 else none
  | _ => none

structure LexState where
  /-- The next byte starts the content or follows a line feed. -/
  lineStart : Bool
  previous : Option Token
  offset : Nat
  line : Nat

/-- The tokens of bytes, the first of which stands at the offset of `s`; `skip` counts the bytes that
belong to a token or a continuation already read, and `s` describes the place behind them. -/
def lexFrom (d : Dialect) (s : LexState) (skip : Nat) : Bytes → List Token
  | [] => []
  | b :: rest =>
    match skip with
    | k + 1 => lexFrom d s k rest
    | 0 =>
      if b == newline then
        lexFrom d { s with lineStart := true, offset := s.offset + 1, line := s.line + 1 } 0 rest
      else if Byte.isBlank b then
        lexFrom d { s with lineStart := false, offset := s.offset + 1 } 0 rest
      else
        match continuation? (b :: rest) with
        | some n => lexFrom d { s with lineStart := true, offset := s.offset + n } (n - 1) rest
        | none =>
          let (kind, n) := scan ⟨d, s.lineStart, s.previous, s.offset⟩ (b :: rest)
          let bytes := (b :: rest).take n
          let t := ofBytes kind s.offset s.line bytes
          let next : LexState :=
            { lineStart := bytes.getLast? == some newline
              previous := if kind == .comment then s.previous else some t
              offset := s.offset + bytes.length
              line := s.line + newlines bytes }
          t :: lexFrom d next (n - 1) rest

def lex (language : Language) (content : Bytes) : List Token :=
  lexFrom (.of language) ⟨true, none, 0, 1⟩ 0 content

/-- The tokens of a part of the content, which starts on the given line. Of what stands before the
part only the last byte counts, and only whether it is a line feed. -/
def lexSpan (language : Language) (content : Array UInt8) (span : Span) (line : Nat) : List Token :=
  let stop := min span.stop content.size
  let start := min span.start stop
  let lineStart := start == 0 || content[start - 1]? == some newline
  lexFrom (.of language) ⟨lineStart, none, start, line⟩ 0 (content.extract start stop).toList

end Token
end TaintScan
