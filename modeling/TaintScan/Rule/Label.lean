import TaintScan.Text.Blank

/-! # Labels

A label is a property that a value carries along the data flow. A label set is one truth value per
label, so two sets are equal exactly when they hold the same labels.
-/
namespace TaintScan

inductive Label where
  | untrusted
  | secret
  deriving DecidableEq, Repr

namespace Label

def all : List Label := [untrusted, secret]

def code : Label → String
  | untrusted => "untrusted"
  | secret => "secret"

def ofCode? (text : String) : Option Label := all.find? (·.code == text)

end Label

structure LabelSet where
  untrusted : Bool := false
  secret : Bool := false
  deriving DecidableEq, Repr

namespace LabelSet

def empty : LabelSet := {}

def of : Label → LabelSet
  | .untrusted => { untrusted := true }
  | .secret => { secret := true }

def contains (s : LabelSet) : Label → Bool
  | .untrusted => s.untrusted
  | .secret => s.secret

def isEmpty (s : LabelSet) : Bool := !s.untrusted && !s.secret

def intersects (s t : LabelSet) : Bool := (s.untrusted && t.untrusted) || (s.secret && t.secret)

def union (s t : LabelSet) : LabelSet := ⟨s.untrusted || t.untrusted, s.secret || t.secret⟩

def inter (s t : LabelSet) : LabelSet := ⟨s.untrusted && t.untrusted, s.secret && t.secret⟩

def without (s t : LabelSet) : LabelSet := ⟨s.untrusted && !t.untrusted, s.secret && !t.secret⟩

def insert (s : LabelSet) (l : Label) : LabelSet := s.union (of l)

def toList (s : LabelSet) : List Label := Label.all.filter s.contains

def ofList (labels : List Label) : LabelSet := labels.foldl insert empty

def text (s : LabelSet) : String := Text.joinWith "+" (s.toList.map Label.code)

end LabelSet
end TaintScan
