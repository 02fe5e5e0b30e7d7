import TaintScan.Data.Numeral

/-! # Scalars of a YAML document

A cursor stands in front of the rest of a document and knows its place and whether a key may start where
it stands. The readers of this module take one scalar each: plain, in single quotes or in double quotes.
-/
namespace TaintScan.Yaml

def isSpace (c : Char) : Bool := c == ' ' || c == '\t'

/-- A line feed, a line separator or a paragraph separator. Other line breaks are written as line feeds
before a document is read. -/
def isBreak (c : Char) : Bool := c == '\n' || c == '\u2028' || c == '\u2029'

structure Place where
  line : Nat := 0
  column : Nat := 0
  bytes : Nat := 0

def Place.after (p : Place) (c : Char) : Place :=
  if isBreak c then ⟨p.line + 1, 0, 0⟩ else ⟨p.line, p.column + 1, p.bytes + c.utf8Size⟩

structure Cursor where
  rest : List Char
  place : Place := {}
  /-- A key or a list entry may start here. -/
  fresh : Bool := true

def startsBlank : List Char → Bool
  | [] => true
  | c :: _ => isSpace c || isBreak c

/-- Three dashes or dots on their own at the start of a line bound a document. -/
def isMarker (p : Place) : List Char → Bool
  | '-' :: '-' :: '-' :: rest | '.' :: '.' :: '.' :: rest => p.column == 0 && startsBlank rest
  | _ => false

/-- Passes over spaces, comments and line breaks, and over a byte order mark at the start of a line.
Outside of brackets a tab stays where a key may start, so that it is no indentation. -/
def skipFrom (flow comment : Bool) (p : Place) (fresh : Bool) : List Char → Cursor
  | [] => ⟨[], p, fresh⟩
  | c :: rest =>
    let next := p.after c
    if isBreak c then skipFrom flow false next (fresh || !flow) rest
    else if comment then skipFrom flow true next fresh rest
    else if c == ' ' || (c == '\t' && (flow || !fresh)) || (c == '\ufeff' && p.column == 0) then
      skipFrom flow false next fresh rest
    else if c == '#' then skipFrom flow true next fresh rest
    else ⟨c :: rest, p, fresh⟩

def Cursor.skip (flow : Bool) (c : Cursor) : Cursor := skipFrom flow false c.place c.fresh c.rest

structure Gap where
  /-- The blanks before the first line break, last one first. -/
  blanks : List Char := []
  broken : Bool := false
  /-- The first line break; an escaped one counts for nothing. -/
  first : Option Char := none
  /-- The later line breaks, last one first. -/
  later : List Char := []

namespace Gap

def isEmpty (g : Gap) : Bool := g.blanks.isEmpty && !g.broken

def blank (g : Gap) (c : Char) : Gap := if g.broken then g else { g with blanks := c :: g.blanks }

def lineBreak (g : Gap) (c : Char) : Gap :=
  if g.broken then { g with later := c :: g.later } else { broken := true, first := some c }

def folded (g : Gap) : List Char :=
  if !g.broken then g.blanks
  else
    match g.first with
    | none => g.later
    | some c =>
      if c != '\n' then g.later ++ [c]
      else if g.later.isEmpty then [' ']
      else g.later

end Gap

def flowStops : List Char := [',', '[', ']', '{', '}']

/-- Reads a plain scalar. Column `least` is the first one inside the innermost block: behind a line
break no tab may stand before it, and outside of brackets the text ends before it. The text is kept
last character first; the result holds the cursor behind the blanks that follow the text. -/
def plainFrom (flow : Bool) (least : Nat) (p : Place) (text : List Char) (gap : Gap) :
    List Char → Option (List Char × Cursor)
  | [] => some (text, ⟨[], p, gap.broken⟩)
  | c :: rest =>
    let done := some (text, ⟨c :: rest, p, gap.broken⟩)
    let next := p.after c
    if isBreak c then plainFrom flow least next text (gap.lineBreak c) rest
    else if isSpace c then
      if gap.broken && c == '\t' && p.column < least then none
      else plainFrom flow least next text (gap.blank c) rest
    else if isMarker p (c :: rest) then done
    else if c == '#' && !gap.isEmpty then done
    else if !flow && gap.broken && p.column < least then done
    else if c == ':' && startsBlank rest then done
    else if flow && c == ':' && (rest.head?.any fun n => n == '?' || flowStops.contains n) then none
    else if flow && flowStops.contains c then done
    else plainFrom flow least next (c :: (gap.folded ++ text)) {} rest

def plain (flow : Bool) (least : Nat) (c : Cursor) : Option (String × Cursor) :=
  (plainFrom flow least c.place [] {} c.rest).map fun r => (String.ofList r.1.reverse, r.2)

/-- Reads up to the closing quote; a quote inside is written twice. -/
def singleFrom (p : Place) (text : List Char) (gap : Gap) : List Char → Option (List Char × Cursor)
  | [] => none
  | '\'' :: '\'' :: rest =>
    singleFrom ((p.after '\'').after '\'') ('\'' :: (gap.folded ++ text)) {} rest
  | c :: rest =>
    let next := p.after c
    if isMarker p (c :: rest) then none
    else if c == '\'' then some (gap.folded ++ text, ⟨rest, next, false⟩)
    else if isBreak c then singleFrom next text (gap.lineBreak c) rest
    else if isSpace c then singleFrom next text (gap.blank c) rest
    else singleFrom next (c :: (gap.folded ++ text)) {} rest

def escape? : Char → Option Char
  | '0' => some '\x00'
  | 'a' => some '\x07'
  | 'b' => some '\x08'
  | 't' | '\t' => some '\t'
  | 'n' => some '\n'
  | 'v' => some '\x0b'
  | 'f' => some '\x0c'
  | 'r' => some '\r'
  | 'e' => some '\x1b'
  | ' ' => some ' '
  | '"' => some '"'
  | '/' => some '/'
  | '\\' => some '\\'
  | 'N' => some '\u0085'
  | '_' => some '\u00a0'
  | 'L' => some '\u2028'
  | 'P' => some '\u2029'
  | _ => none

def escapeWidth? : Char → Option Nat
  | 'x' => some 2
  | 'u' => some 4
  | 'U' => some 8
  | _ => none

def scalarOf? (n : Nat) : Option Char := if n.isValidChar then some (Char.ofNat n) else none

/-- Reads up to the closing quote. `pending` counts the digits of a character that is written by its
number; `number` is what they have given so far. -/
def doubleFrom (p : Place) (text : List Char) (gap : Gap) (pending number : Nat) (escaped : Bool) :
    List Char → Option (List Char × Cursor)
  | [] => none
  | c :: rest =>
    let next := p.after c
    match pending with
    | left + 1 =>
      match Numeral.digit? 16 c with
      | none => none
      | some d =>
        let number := number * 16 + d
        if left == 0 then
          match scalarOf? number with
          | some ch => doubleFrom next (ch :: text) {} 0 0 false rest
          | none => none
        else doubleFrom next text {} left number false rest
    | 0 =>
      if escaped then
        if isBreak c then doubleFrom next text { broken := true } 0 0 false rest
        else
          match escape? c, escapeWidth? c with
          | some ch, _ => doubleFrom next (ch :: text) {} 0 0 false rest
          | none, some width => doubleFrom next text {} width 0 false rest
          | none, none => none
      else if isMarker p (c :: rest) then none
      else if c == '"' then some (gap.folded ++ text, ⟨rest, next, false⟩)
      else if c == '\\' then doubleFrom next (gap.folded ++ text) {} 0 0 true rest
      else if isBreak c then doubleFrom next text (gap.lineBreak c) 0 0 false rest
      else if isSpace c then doubleFrom next text (gap.blank c) 0 0 false rest
      else doubleFrom next (c :: (gap.folded ++ text)) {} 0 0 false rest

def quoted (c : Cursor) : Option (String × Cursor) :=
  let result :=
    match c.rest with
    | '\'' :: rest => singleFrom (c.place.after '\'') [] {} rest
    | '"' :: rest => doubleFrom (c.place.after '"') [] {} 0 0 false rest
    | _ => none
  result.map fun r => (String.ofList r.1.reverse, r.2)

/-- No plain scalar starts with one of these. -/
def indicators : List Char :=
  ['-', '?', ':', ',', '[', ']', '{', '}', '#', '&', '*', '!', '|', '>', '\'', '"', '%', '@', '\x60']

/-- A plain scalar may start here. A dash, and outside of brackets also a question mark or a colon, may
start one unless a blank follows. -/
def startsPlain (flow : Bool) : List Char → Bool
  | [] => false
  | c :: rest =>
    if isSpace c then false
    else if !indicators.contains c then true
    else if c == '-' then !startsBlank rest
    else !flow && (c == '?' || c == ':') && !startsBlank rest

end TaintScan.Yaml
