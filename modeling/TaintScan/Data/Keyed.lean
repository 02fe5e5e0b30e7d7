/-! # Lists ordered by key

Pairs with distinct keys in increasing order. Such a list is determined by what it binds.
-/
namespace TaintScan.Keyed

def insert (key : String) (value : α) : List (String × α) → List (String × α)
  | [] => [(key, value)]
  | b :: rest =>
    if key < b.1 then (key, value) :: b :: rest
    else if key = b.1 then (key, value) :: rest
    else b :: insert key value rest

def extend (base pairs : List (String × α)) : List (String × α) :=
  pairs.foldl (fun done p => insert p.1 p.2 done) base

def ofList (pairs : List (String × α)) : List (String × α) := extend [] pairs

end TaintScan.Keyed
