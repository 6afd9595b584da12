import LRAutomata.Signature

/-!
# The index of states

A `SignatureIndex` files state numbers in buckets by signature. The signatures themselves are not
in the index: every operation is told how to read the signature of a state, the one that is being
filed included. A full index is spread over twice as many buckets before it takes another state.
-/

namespace LRAutomata

/-- State numbers in buckets. -/
structure SignatureIndex where
  buckets : Array (List StateId)
  /-- How many states are filed. -/
  count : Nat
deriving DecidableEq

namespace SignatureIndex

/-- An index with no states. -/
def empty : SignatureIndex := ⟨Array.replicate 64 [], 0⟩

variable [WordHash]

/-- The bucket in which a signature belongs. -/
def bucketOf (x : SignatureIndex) (k : Signature) : List StateId :=
  x.buckets[k.slot x.buckets.size]?.getD []

/-- The filed state with the signature. -/
def find? (signature? : StateId → Option Signature) (x : SignatureIndex) (k : Signature) :
    Option StateId :=
  (x.bucketOf k).find? fun s => signature? s = some k

/-- Files a state at the end of the bucket of its signature. -/
def file (x : SignatureIndex) (k : Signature) (s : StateId) : SignatureIndex :=
  { x with buckets := x.buckets.modify (k.slot x.buckets.size) (· ++ [s]) }

/-- The first `count` states, whatever states there are, in twice as many buckets. -/
def grown (signature? : StateId → Option Signature) (x : SignatureIndex) : SignatureIndex :=
  (List.range x.count).foldl
    (fun y i => match signature? ⟨i⟩ with
      | some k => y.file k ⟨i⟩
      | none => y)
    ⟨Array.replicate (2 * x.buckets.size) [], x.count⟩

/-- The index with a bucket for one more state. -/
def withRoom (signature? : StateId → Option Signature) (x : SignatureIndex) : SignatureIndex :=
  if x.buckets.size ≤ x.count then x.grown signature? else x

/-- Files one more state under its signature, which it must have already. -/
def insert (signature? : StateId → Option Signature) (x : SignatureIndex) (s : StateId) :
    Except Fault SignatureIndex :=
  let y := x.withRoom signature?
  match signature? s with
  | some k => .ok { y.file k s with count := y.count + 1 }
  | none => .error (.unknownState s)

end SignatureIndex

end LRAutomata
