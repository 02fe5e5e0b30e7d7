import TaintScan.Token.Basic

/-! # String literals

How a string literal opens, where it ends, which of its parts are embedded expressions, and the text
between its delimiters.
-/
namespace TaintScan

open Text.Utf8 (Bytes)

structure Opening where
  width : Nat
  quote : UInt8
  triple : Bool := false
  escapes : Bool
  verbatim : Bool := false
  multiline : Bool
  literal : LiteralKind := .string
  interpolating : Bool
  deriving DecidableEq, Repr

namespace Opening

structure Lead where
  width : Nat := 0
  raw : Bool := false
  formatted : Bool := false
  verbatim : Bool := false
  deriving DecidableEq, Repr

def doubleQuote : UInt8 := Byte.of '"'
def singleQuote : UInt8 := Byte.of '\''
def backQuote : UInt8 := Byte.of '`'
def backslash : UInt8 := Byte.of '\\'

def pythonLead (bytes : Bytes) : Lead :=
  let lead := (bytes.take 3).takeWhile fun b => (Byte.ofAscii "rRbBuUfF").contains b
  match bytes[lead.length]? with
  | some q =>
    if q == doubleQuote || q == singleQuote then
      { width := lead.length
        raw := lead.any fun b => b == Byte.of 'r' || b == Byte.of 'R'
        formatted := lead.any fun b => b == Byte.of 'f' || b == Byte.of 'F' }
    else {}
  | none => {}

def csharpLead (bytes : Bytes) : Lead :=
  let lead := (bytes.take 2).takeWhile fun b => b == Byte.of '@' || b == Byte.of '$'
  if bytes[lead.length]? == some doubleQuote then
    { width := lead.length
      formatted := lead.contains (Byte.of '$')
      verbatim := lead.contains (Byte.of '@') }
  else {}

def lead (language : Language) (bytes : Bytes) : Lead :=
  match language with
  | .python => pythonLead bytes
  | .csharp => csharpLead bytes
  | _ => {}

/-- Three quotes open a text block in Python, and in Java with double quotes. -/
def tripleAllowed (language : Language) (quote : UInt8) : Bool :=
  match language with
  | .python => quote == doubleQuote || quote == singleQuote
  | .java => quote == doubleQuote
  | _ => false

def quoted (language : Language) (lead : Lead) (quote : UInt8) (triple : Bool) : Opening where
  width := lead.width + if triple then 3 else 1
  quote := quote
  triple := triple
  escapes := !lead.raw && !lead.verbatim && !(language == .php && quote == singleQuote)
  verbatim := lead.verbatim
  multiline := triple || lead.verbatim || language == .ruby || language == .php
  interpolating :=
    match language with
    | .ruby | .php => quote == doubleQuote
    | .python | .csharp => lead.formatted
    | _ => false

def backQuoted? (language : Language) : Option Opening :=
  match language with
  | .javascript | .typescript =>
    some { width := 1, quote := backQuote, escapes := true, multiline := true,
           interpolating := true }
  | .go =>
    some { width := 1, quote := backQuote, escapes := false, multiline := true,
           interpolating := false }
  | .ruby | .php =>
    some { width := 1, quote := backQuote, escapes := true, multiline := true, literal := .command,
           interpolating := true }
  | _ => none

def scan? (language : Language) (bytes : Bytes) : Option Opening :=
  let lead := lead language bytes
  match bytes.drop lead.width with
  | [] => none
  | q :: rest =>
    if q == doubleQuote || q == singleQuote then
      some (quoted language lead q (tripleAllowed language q && [q, q].isPrefixOf rest))
    else if q == backQuote then backQuoted? language
    else none

inductive BodyEnd where
  | closed (width : Nat)
  /-- At a line end, or at the end of the bytes, with no delimiter before it. -/
  | cut (width : Nat)
  deriving DecidableEq, Repr

def readBody (o : Opening) (n : Nat) : Bytes → BodyEnd
  | [] => .cut n
  | [c] =>
    if o.escapes && c == backslash then .cut (n + 1)
    else if !o.triple && c == o.quote then .closed (n + 1)
    else if c == newline && !o.multiline then .cut n
    else .cut (n + 1)
  | c :: d :: rest =>
    if o.escapes && c == backslash then readBody o (n + 2) rest
    else if o.triple && c == o.quote && d == c && rest.head? == some c then .closed (n + 3)
    else if !o.triple && c == o.quote then
      if o.verbatim && d == c then readBody o (n + 2) rest else .closed (n + 1)
    else if c == newline && !o.multiline then .cut n
    else readBody o (n + 1) (d :: rest)

end Opening

namespace Interpolation

def closingBrace? (depth offset : Nat) : Bytes → Option Nat
  | [] => Option.none
  | b :: rest =>
    if b == Byte.of '{' then closingBrace? (depth + 1) (offset + 1) rest
    else if b == Byte.of '}' then
      if depth ≤ 1 then some offset else closingBrace? (depth - 1) (offset + 1) rest
    else closingBrace? depth (offset + 1) rest

inductive Piece where
  | text (width : Nat)
  | embedded (start stop width : Nat)
  deriving DecidableEq, Repr

def braced (brace : Nat) (bytes : Bytes) : Piece :=
  match closingBrace? 0 brace (bytes.drop brace) with
  | some close => .embedded (brace + 1) close (close + 1)
  | Option.none => .text 1

def piece (style : Interpolation) (bytes : Bytes) : Piece :=
  let first := bytes.head?
  let second := bytes[1]?
  match style with
  | .none => .text 1
  | .dollarBrace | .hashBrace =>
    let lead := if style == .dollarBrace then Byte.of '$' else Byte.of '#'
    if first == some Opening.backslash then .text 2
    else if first == some lead && second == some (Byte.of '{') then braced 1 bytes
    else .text 1
  | .brace =>
    if first == some (Byte.of '{') then
      if second == some (Byte.of '{') then .text 2 else braced 0 bytes
    else .text 1
  | .dollarName =>
    if first == some Opening.backslash then .text 2
    else if first == some (Byte.of '{') && second == some (Byte.of '$') then braced 0 bytes
    else if first == some (Byte.of '$') && second.any Byte.isIdentStart then
      let width := 1 + ((bytes.drop 1).takeWhile Byte.isIdentContinue).length
      .embedded 0 width width
    else .text 1

/-- The embedded expressions of a string's bytes, the first of which has offset `base`; `skip` counts
the bytes that belong to a piece already read. -/
def segmentsFrom (style : Interpolation) (base skip : Nat) : Bytes → List Span
  | [] => []
  | b :: rest =>
    match skip with
    | k + 1 => segmentsFrom style (base + 1) k rest
    | 0 =>
      match piece style (b :: rest) with
      | .text width => segmentsFrom style (base + 1) (width - 1) rest
      | .embedded start stop width =>
        .clamped (base + start) (base + stop) :: segmentsFrom style (base + 1) (width - 1) rest

/-- A quick test on the bytes of a terminated string: a sign that may start an expression stands
somewhere in it. -/
def mayEmbed (style : Interpolation) (bytes : Bytes) : Bool :=
  match style with
  | .none => false
  | .dollarBrace => (Byte.find? "$\x7b" bytes).isSome
  | .hashBrace => (Byte.find? "#\x7b" bytes).isSome
  | .brace => bytes.contains (Byte.of '{')
  | .dollarName => (bytes.zip (bytes.drop 1)).any fun p => p.1 == Byte.of '$' && Byte.isIdentStart p.2

end Interpolation

namespace Token

/-- The spans of the expressions embedded in a literal token, whose bytes are given. A command
embeds expressions only where the dialect's strings use a number sign or a dollar sign and a name. -/
def segments (d : Dialect) (t : Token) (bytes : Bytes) : List Span :=
  match d.interpolation, t.kind with
  | .hashBrace, _ => Interpolation.segmentsFrom .hashBrace t.span.start 0 bytes
  | .dollarName, _ => Interpolation.segmentsFrom .dollarName t.span.start 0 bytes
  | _, .literal .command => []
  | style, _ => Interpolation.segmentsFrom style t.span.start 0 bytes

end Token

namespace Literal

def isQuote (c : Char) : Bool := c == '"' || c == '\'' || c == '`'

def dropClosing (quote : Char) (width : Nat) (body : List Char) : List Char :=
  if (List.replicate width quote).isSuffixOf body then body.take (body.length - width) else body

/-- The text between the delimiters of a string literal: what stands before the first quote goes with
it, and three equal quotes count as one delimiter where the text has room for two of them. -/
def valueChars (text : List Char) : List Char :=
  match text.dropWhile (!isQuote ·) with
  | [] => text
  | quote :: rest =>
    if [quote, quote].isPrefixOf rest && 5 ≤ (Text.Utf8.encode (String.ofList rest)).length then
      dropClosing quote 3 (rest.drop 2)
    else dropClosing quote 1 rest

def value (text : String) : String := String.ofList (valueChars text.toList)

end Literal
end TaintScan
