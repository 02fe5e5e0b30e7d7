import TaintScan.Data.Yaml.Token

/-! # YAML documents

Reads one document into a structured value: block lists and maps, lists and maps in brackets, and
scalars. The readers spend one unit of fuel per entry and per level; `document?` gives them more than
any row of tokens can use.
-/
namespace TaintScan.Yaml

def Token.endsNode : Token → Bool
  | key | value | blockEnd | comma | listClose | mapClose => true
  | _ => false

def Token.isDocumentEnd : Token → Bool
  | documentEnd => true
  | _ => false

def mapOf (fields : List (Value × Value)) : Value :=
  match fields.mapM fun f => f.1.text?.map (·, f.2) with
  | some fields => .map fields
  | none => .irregular

mutual

def node : Nat → List Token → Option (Value × List Token)
  | 0, _ => none
  | fuel + 1, tokens =>
    match tokens with
    | .scalar v :: rest => some (v, rest)
    | .listOpen :: rest => flowItems fuel [] rest
    | .mapOpen :: rest => flowFields fuel [] rest
    | .blockList :: rest => blockItems fuel [] rest
    | .blockMap :: rest => blockFields fuel [] rest
    | .dash :: _ => ownItems fuel [] tokens
    | _ => none

def optionalNode : Nat → List Token → Option (Value × List Token)
  | 0, _ => none
  | fuel + 1, tokens =>
    if tokens.head?.any Token.endsNode then some (.plain "", tokens) else node fuel tokens

def valueNode : Nat → List Token → Option (Value × List Token)
  | 0, _ => none
  | fuel + 1, tokens =>
    match tokens with
    | .value :: rest => optionalNode fuel rest
    | _ => some (.plain "", tokens)

def flowItems : Nat → List Value → List Token → Option (Value × List Token)
  | 0, _, _ => none
  | fuel + 1, done, tokens =>
    match tokens with
    | .listClose :: rest => some (.list done.reverse, rest)
    | _ =>
      match flowItem fuel tokens with
      | some (v, .comma :: rest) => flowItems fuel (v :: done) rest
      | some (v, .listClose :: rest) => some (.list (v :: done).reverse, rest)
      | _ => none

/-- An item of a bracketed list; a key and its value are a map of their own. -/
def flowItem : Nat → List Token → Option (Value × List Token)
  | 0, _ => none
  | fuel + 1, tokens =>
    match tokens with
    | .key :: rest =>
      match node fuel rest with
      | some (k, rest) => (valueNode fuel rest).map fun r => (mapOf [(k, r.1)], r.2)
      | none => none
    | _ => node fuel tokens

def flowFields : Nat → List (Value × Value) → List Token → Option (Value × List Token)
  | 0, _, _ => none
  | fuel + 1, done, tokens =>
    match tokens with
    | .mapClose :: rest => some (mapOf done.reverse, rest)
    | _ =>
      match flowField fuel tokens with
      | some (f, .comma :: rest) => flowFields fuel (f :: done) rest
      | some (f, .mapClose :: rest) => some (mapOf (f :: done).reverse, rest)
      | _ => none

/-- A field of a bracketed map; a node on its own is a key without a value. -/
def flowField : Nat → List Token → Option ((Value × Value) × List Token)
  | 0, _ => none
  | fuel + 1, tokens =>
    match tokens with
    | .key :: rest =>
      match optionalNode fuel rest with
      | some (k, rest) => (valueNode fuel rest).map fun r => ((k, r.1), r.2)
      | none => none
    | _ => (node fuel tokens).map fun r => ((r.1, .plain ""), r.2)

def blockItems : Nat → List Value → List Token → Option (Value × List Token)
  | 0, _, _ => none
  | fuel + 1, done, tokens =>
    match tokens with
    | .blockEnd :: rest => some (.list done.reverse, rest)
    | .dash :: .dash :: rest => blockItems fuel (.plain "" :: done) (.dash :: rest)
    | .dash :: rest =>
      match optionalNode fuel rest with
      | some (v, rest) => blockItems fuel (v :: done) rest
      | none => none
    | _ => none

/-- The items of a list in the column of its key, last one first. -/
def ownItems : Nat → List Value → List Token → Option (Value × List Token)
  | 0, _, _ => none
  | fuel + 1, done, tokens =>
    match tokens with
    | .dash :: .dash :: rest => ownItems fuel (.plain "" :: done) (.dash :: rest)
    | .dash :: rest =>
      match optionalNode fuel rest with
      | some (v, rest) => ownItems fuel (v :: done) rest
      | none => none
    | _ => some (.list done.reverse, tokens)

def blockFields : Nat → List (Value × Value) → List Token → Option (Value × List Token)
  | 0, _, _ => none
  | fuel + 1, done, tokens =>
    match tokens with
    | .blockEnd :: rest => some (mapOf done.reverse, rest)
    | .key :: rest =>
      match optionalNode fuel rest with
      | none => none
      | some (k, rest) =>
        match valueNode fuel rest with
        | some (v, rest) => blockFields fuel ((k, v) :: done) rest
        | none => none
    | _ => none

end

/-- The root of a document; behind its mark it may be left out. -/
def root (fuel : Nat) : List Token → Option (Value × List Token)
  | [] | [.documentStart] => some (.plain "", [])
  | .documentStart :: .documentEnd :: rest => some (.plain "", rest)
  | .documentStart :: rest | rest => node fuel rest

/-- Reads the one document of a text; a text without a document gives an empty scalar. -/
def document? (s : String) : Option Value := do
  let tokens ← tokens? s
  let (v, rest) ← root (4 * tokens.length + 8) tokens
  if rest.all Token.isDocumentEnd then some v else none

end TaintScan.Yaml
