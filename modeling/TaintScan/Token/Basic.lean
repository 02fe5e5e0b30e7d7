import TaintScan.Dialect

/-! # Tokens

A token is a kind, a byte span, its text, and the logical lines of its first and last byte. A
backslash before a line end joins two physical lines into one logical line. The text is empty where
the bytes are not UTF-8.
-/
namespace TaintScan

open Text.Utf8 (Bytes)

inductive LexError where
  | unterminatedString
  | unterminatedComment
  | invalidUtf8
  | unexpectedCharacter
  deriving DecidableEq, Repr

namespace LexError

def code : LexError → String
  | unterminatedString => "unterminated_string"
  | unterminatedComment => "unterminated_comment"
  | invalidUtf8 => "invalid_utf8"
  | unexpectedCharacter => "unexpected_character"

def message : LexError → String
  | unterminatedString => "unterminated string literal"
  | unterminatedComment => "unterminated block comment"
  | invalidUtf8 => "invalid UTF-8 sequence"
  | unexpectedCharacter => "unexpected character"

end LexError

inductive TokenKind where
  | identifier
  | keyword
  | literal (kind : LiteralKind)
  | operator
  | comment
  | error (cause : LexError)
  deriving DecidableEq, Repr

structure Token where
  kind : TokenKind
  span : Span
  text : String
  line : Nat
  endLine : Nat
  deriving DecidableEq, Repr

namespace Token

def isOp (t : Token) (op : String) : Bool := t.kind == .operator && t.text == op

def isKeyword (t : Token) (word : String) : Bool := t.kind == .keyword && t.text == word

end Token

namespace Byte

def of (c : Char) : UInt8 := c.toNat.toUInt8

def isDigit (b : UInt8) : Bool := 48 ≤ b && b ≤ 57

def isLetter (b : UInt8) : Bool := (65 ≤ b && b ≤ 90) || (97 ≤ b && b ≤ 122)

def isIdentStart (b : UInt8) : Bool := isLetter b || b == of '_'

def isIdentContinue (b : UInt8) : Bool := isLetter b || isDigit b || b == of '_'

def isBlank (b : UInt8) : Bool := b == 32 || b == 9 || b == 10 || b == 12 || b == 13

def ofAscii (s : String) : Bytes := s.toList.map of

def startsWith (text : String) (bytes : Bytes) : Bool := (ofAscii text).isPrefixOf bytes

def find? (text : String) : Bytes → Option Nat
  | [] => if text.isEmpty then some 0 else none
  | b :: rest => if startsWith text (b :: rest) then some 0 else (find? text rest).map (· + 1)

def lineLength (bytes : Bytes) : Nat := (bytes.takeWhile (· != newline)).length

end Byte
end TaintScan
