import TaintScan.Data.Value
import TaintScan.Data.Yaml.Scalar

/-! # Tokens of a YAML document

A document is a row of tokens: scalars, brackets, commas, dashes, the marks of keys and values, and the
places where a block begins and ends. A block begins with its first entry and ends at the first token
that stands further left. A key is known by the colon behind it, so the place where it may have started
is kept until the colon is read.
-/
namespace TaintScan.Yaml

inductive Token where
  | scalar (v : Value)
  | listOpen
  | listClose
  | mapOpen
  | mapClose
  | comma
  | blockList
  | blockMap
  | blockEnd
  | dash
  | key
  | value
  | documentStart
  | documentEnd

structure KeyStart where
  index : Nat
  place : Place
  /-- It stands in the column of a block, where nothing but a key may start. -/
  required : Bool

def maxKeyBytes : Nat := 1024

def KeyStart.reaches (k : KeyStart) (colon : Place) : Bool :=
  k.place.line == colon.line && colon.bytes ≤ k.place.bytes + maxKeyBytes

structure Layout where
  tokens : Array Token := #[]
  blocks : List Nat := []
  keyStart : Option KeyStart := none
  /-- Where one may have started before each open bracket, innermost first. -/
  outer : List (Option KeyStart) := []

namespace Layout

def flow (l : Layout) : Bool := !l.outer.isEmpty

def least (l : Layout) : Nat := (l.blocks.head?.map (· + 1)).getD 0

def push (l : Layout) (t : Token) : Layout := { l with tokens := l.tokens.push t }

/-- Opens a block at a column unless it is open already; its token goes before token `index`. Inside
brackets there are no blocks. -/
def openBlock (l : Layout) (t : Token) (column index : Nat) : Layout :=
  if l.flow || column < l.least then l
  else { l with blocks := column :: l.blocks, tokens := l.tokens.insertIdxIfInBounds index t }

def closeBlocks (l : Layout) (first : Nat) : Layout :=
  if l.flow then l
  else
    { l with
      tokens := (l.blocks.takeWhile (first ≤ ·)).foldl (fun ts _ => ts.push .blockEnd) l.tokens
      blocks := l.blocks.dropWhile (first ≤ ·) }

def dropKey (l : Layout) : Option Layout :=
  if l.keyStart.any (·.required) then none else some { l with keyStart := none }

def noteKey (l : Layout) (c : Cursor) : Option Layout :=
  if !c.fresh then some l
  else
    l.dropKey.map fun l =>
      let required := !l.flow && l.blocks.head? == some c.place.column
      { l with keyStart := some ⟨l.tokens.size, c.place, required⟩ }

end Layout

def Cursor.drop (c : Cursor) (count : Nat) (fresh : Bool) : Cursor :=
  ⟨c.rest.drop count, (c.rest.take count).foldl Place.after c.place, fresh⟩

namespace Layout

def marker (l : Layout) (c : Cursor) : Option (Layout × Cursor) :=
  let token : Token := if c.rest.head? == some '-' then .documentStart else .documentEnd
  (l.closeBlocks 0).dropKey.map fun l => (l.push token, c.drop 3 false)

def openBracket (l : Layout) (t : Token) (c : Cursor) : Option (Layout × Cursor) :=
  (l.noteKey c).map fun l =>
    (({ l with keyStart := none, outer := l.keyStart :: l.outer } : Layout).push t, c.drop 1 true)

def closeBracket (l : Layout) (t : Token) (c : Cursor) : Option (Layout × Cursor) :=
  match l.outer with
  | [] => none
  | keyStart :: outer => some (({ l with keyStart, outer } : Layout).push t, c.drop 1 false)

def comma (l : Layout) (c : Cursor) : Option (Layout × Cursor) :=
  l.dropKey.map fun l => (l.push .comma, c.drop 1 true)

def dash (l : Layout) (c : Cursor) : Option (Layout × Cursor) :=
  if l.flow || !c.fresh then none
  else
    (l.openBlock .blockList c.place.column l.tokens.size).dropKey.map fun l =>
      (l.push .dash, c.drop 1 true)

def question (l : Layout) (c : Cursor) : Option (Layout × Cursor) :=
  if !l.flow && !c.fresh then none
  else
    (l.openBlock .blockMap c.place.column l.tokens.size).dropKey.map fun l =>
      (l.push .key, c.drop 1 (!l.flow))

/-- A colon that no key on its line leads to belongs to a key that was announced. -/
def lateColon (l : Layout) (c : Cursor) : Option (Layout × Cursor) :=
  if !l.flow && !c.fresh then none
  else
    (l.openBlock .blockMap c.place.column l.tokens.size).dropKey.map fun l =>
      (l.push .value, c.drop 1 (!l.flow))

/-- A colon makes a key of what started before it and opens the key's block. -/
def colon (l : Layout) (c : Cursor) : Option (Layout × Cursor) :=
  match l.keyStart.filter (·.reaches c.place) with
  | none => l.lateColon c
  | some k =>
    let l := { l with tokens := l.tokens.insertIdxIfInBounds k.index .key, keyStart := none }
    some ((l.openBlock .blockMap k.place.column k.index).push .value, c.drop 1 false)

def scalar (l : Layout) (c : Cursor) : Option (Layout × Cursor) :=
  let read :=
    match c.rest with
    | '\'' :: _ | '"' :: _ => (quoted c).map fun r => (Value.text r.1, r.2)
    | rest =>
      if startsPlain l.flow rest then (plain l.flow l.least c).map fun r => (Value.plain r.1, r.2)
      else none
  match l.noteKey c, read with
  | some l, some (v, after) => some (l.push (.scalar v), after)
  | _, _ => none

def token (l : Layout) (c : Cursor) : Option (Layout × Cursor) :=
  if isMarker c.place c.rest then l.marker c
  else
    match c.rest with
    | '[' :: _ => l.openBracket .listOpen c
    | '{' :: _ => l.openBracket .mapOpen c
    | ']' :: _ => l.closeBracket .listClose c
    | '}' :: _ => l.closeBracket .mapClose c
    | ',' :: _ => l.comma c
    | '-' :: rest => if startsBlank rest then l.dash c else l.scalar c
    | '?' :: rest => if l.flow || startsBlank rest then l.question c else l.scalar c
    | ':' :: rest => if l.flow || startsBlank rest then l.colon c else l.scalar c
    | _ => l.scalar c

end Layout

/-- The tokens from the cursor on; every token takes at least one character. -/
def tokensFrom : Nat → Layout → Cursor → Option (List Token)
  | 0, _, _ => none
  | fuel + 1, l, c =>
    let c := c.skip l.flow
    if c.rest.isEmpty then (l.closeBlocks 0).dropKey.map (·.tokens.toList)
    else
      match (l.closeBlocks (c.place.column + 1)).token c with
      | some (l, c) => tokensFrom fuel l c
      | none => none

def isPrintable (c : Char) : Bool :=
  let n := c.toNat
  n == 0x09 || n == 0x0A || n == 0x0D || (0x20 ≤ n && n ≤ 0x7E) || n == 0x85 ||
  (0xA0 ≤ n && n ≤ 0xFFFD) || 0x10000 ≤ n

/-- Writes every line break but the separators of lines and paragraphs as a line feed. -/
def plainBreaks : List Char → List Char
  | '\r' :: '\n' :: rest => '\n' :: plainBreaks rest
  | c :: rest => (if c == '\r' || c == '\u0085' then '\n' else c) :: plainBreaks rest
  | [] => []

def tokens? (s : String) : Option (List Token) :=
  if !s.toList.all isPrintable then none
  else
    let chars := plainBreaks s.toList
    tokensFrom (chars.length + 1) {} ⟨chars, {}, true⟩

end TaintScan.Yaml
