/-! # Severity, confidence and category

Severity has four levels and confidence three, each ordered from low upwards. Ranking moves one level
at a time: up to the top, or down to a floor.
-/
namespace TaintScan

inductive Severity where
  | low
  | medium
  | high
  | critical
  deriving DecidableEq, Repr

namespace Severity

def all : List Severity := [low, medium, high, critical]

def code : Severity → String
  | low => "low"
  | medium => "medium"
  | high => "high"
  | critical => "critical"

def ofCode? (text : String) : Option Severity := all.find? (·.code == text)

def level : Severity → Nat
  | low => 0
  | medium => 1
  | high => 2
  | critical => 3

def max (a b : Severity) : Severity := if a.level < b.level then b else a

def min (a b : Severity) : Severity := if b.level < a.level then b else a

def escalated : Severity → Severity
  | low => medium
  | medium => high
  | high | critical => critical

def lowered (s floor : Severity) : Severity :=
  let next :=
    match s with
    | critical => high
    | high => medium
    | medium | low => low
  next.max floor

end Severity

inductive Confidence where
  | low
  | medium
  | high
  deriving DecidableEq, Repr

namespace Confidence

def all : List Confidence := [low, medium, high]

def code : Confidence → String
  | low => "low"
  | medium => "medium"
  | high => "high"

def ofCode? (text : String) : Option Confidence := all.find? (·.code == text)

def lowered : Confidence → Confidence
  | high => medium
  | medium | low => low

end Confidence

inductive Category where
  | sqlInjection
  | commandInjection
  | codeInjection
  | outputInjection
  | weakCrypto
  | insecureRandomness
  | hardcodedSecret
  | unsafeDeserialization
  | pathTraversal
  | informationDisclosure
  deriving DecidableEq, Repr

namespace Category

def all : List Category :=
  [sqlInjection, commandInjection, codeInjection, outputInjection, weakCrypto, insecureRandomness,
    hardcodedSecret, unsafeDeserialization, pathTraversal, informationDisclosure]

def code : Category → String
  | sqlInjection => "sql-injection"
  | commandInjection => "command-injection"
  | codeInjection => "code-injection"
  | outputInjection => "output-injection"
  | weakCrypto => "weak-crypto"
  | insecureRandomness => "insecure-randomness"
  | hardcodedSecret => "hardcoded-secret"
  | unsafeDeserialization => "unsafe-deserialization"
  | pathTraversal => "path-traversal"
  | informationDisclosure => "information-disclosure"

def ofCode? (text : String) : Option Category := all.find? (·.code == text)

end Category
end TaintScan
