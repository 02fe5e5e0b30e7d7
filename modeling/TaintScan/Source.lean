import TaintScan.Language
import TaintScan.Text.Utf8

/-! # Source units, byte spans and lines

A unit is an identifier, its raw bytes, which need not be UTF-8, and a declared language. Offsets
count bytes from zero; lines and columns count from one, and only a line feed ends a line.
-/
namespace TaintScan

open Text.Utf8 (Bytes)

def newline : UInt8 := 10

structure Span where
  start : Nat
  stop : Nat
  deriving DecidableEq, Repr, Inhabited

namespace Span

def clamped (start stop : Nat) : Span := ⟨start, max start stop⟩

def cover (a b : Span) : Span := clamped (min a.start b.start) (max a.stop b.stop)

def contains (a b : Span) : Bool := a.start ≤ b.start && b.stop ≤ a.stop

def length (a : Span) : Nat := a.stop - a.start

def isEmpty (a : Span) : Bool := a.start == a.stop

def text (a : Span) : String := toString a.start ++ ".." ++ toString a.stop

end Span

structure LineIndex where
  starts : List Nat
  length : Nat
  deriving DecidableEq, Repr

namespace LineIndex

/-- The offsets right after the line feeds of a list whose first byte has the given offset. -/
def startsAfter (offset : Nat) : Bytes → List Nat
  | [] => []
  | b :: rest =>
    if b == newline then (offset + 1) :: startsAfter (offset + 1) rest
    else startsAfter (offset + 1) rest

def ofBytes (content : Bytes) : LineIndex := ⟨0 :: startsAfter 0 content, content.length⟩

/-- Line and column of an offset; an offset past the end stands for the end. -/
def position (index : LineIndex) (offset : Nat) : Nat × Nat :=
  let offset := min offset index.length
  let reached := index.starts.takeWhile (· ≤ offset)
  (reached.length, offset - reached.getLastD 0 + 1)

def lineStart? (index : LineIndex) : Nat → Option Nat
  | 0 => none
  | line + 1 => index.starts[line]?

def lineCount (index : LineIndex) : Nat := index.starts.length

end LineIndex

structure SourceUnit where
  id : String
  content : Array UInt8
  language : Language
  lines : LineIndex := .ofBytes content.toList
  lines_eq : lines = .ofBytes content.toList := by rfl

namespace SourceUnit

def size (u : SourceUnit) : Nat := u.content.size

def isEmpty (u : SourceUnit) : Bool := u.content.isEmpty

def contains (u : SourceUnit) (span : Span) : Bool :=
  span.start ≤ span.stop && span.stop ≤ u.size

def slice (u : SourceUnit) (span : Span) : Bytes :=
  if u.contains span then (u.content.extract span.start span.stop).toList else []

def text (u : SourceUnit) (span : Span) : String := Text.Utf8.decodeLossy (u.slice span)

/-- The full lines that a span touches, at most `maxLines` of them and at least the first, without
trailing blanks. -/
def linesAround (u : SourceUnit) (span : Span) (maxLines : Nat) : String :=
  let first := (u.lines.position span.start).1
  let last := (u.lines.position (max (span.stop - 1) span.start)).1
  let last := min last (first + (maxLines - 1))
  let start := (u.lines.lineStart? first).getD 0
  let stop := ((u.lines.lineStart? (last + 1)).map (· - 1)).getD u.size
  Text.trimEnd (u.text (.clamped start stop))

end SourceUnit

/-- A span with its lines and columns; the stop position is exclusive. -/
structure Location where
  startOffset : Nat
  stopOffset : Nat
  startLine : Nat
  startCol : Nat
  stopLine : Nat
  stopCol : Nat
  deriving DecidableEq, Repr

namespace Location

def resolve (u : SourceUnit) (span : Span) : Location :=
  let start := u.lines.position span.start
  let stop := u.lines.position span.stop
  { startOffset := span.start, stopOffset := span.stop, startLine := start.1, startCol := start.2,
    stopLine := stop.1, stopCol := stop.2 }

def span (l : Location) : Span := .clamped l.startOffset l.stopOffset

def text (l : Location) : String :=
  toString l.startLine ++ ":" ++ toString l.startCol ++ "-" ++ toString l.stopLine ++ ":" ++
    toString l.stopCol

end Location
end TaintScan
