import LRAutomata.Sorting

/-!
# Indexed maps

An `IndexedMap` holds values under distinct keys, in the order in which the keys came in. A value
for a key that is there already takes the place of the old one, and a new key comes last. The
entries may be sorted by their keys.
-/

namespace LRAutomata

/-- Values under keys, in the order in which the keys came in. -/
structure IndexedMap (κ ν : Type) where
  entries : List (κ × ν)
  nodup : (entries.map Prod.fst).Nodup

namespace IndexedMap

variable {κ ν α : Type}

def empty : IndexedMap κ ν := ⟨[], List.nodup_nil⟩

def keys (m : IndexedMap κ ν) : List κ := m.entries.map Prod.fst

def values (m : IndexedMap κ ν) : List ν := m.entries.map Prod.snd

def size (m : IndexedMap κ ν) : Nat := m.entries.length

/-- The same entries in ascending order of their keys. -/
def sortKeys (rank : κ → Nat) (m : IndexedMap κ ν) : IndexedMap κ ν where
  entries := sortByRank (fun e => rank e.1) m.entries
  nodup := ((perm_sortByRank _ m.entries).map Prod.fst).nodup_iff.mpr m.nodup

variable [DecidableEq κ]

/-- The value of a key. -/
def get? (m : IndexedMap κ ν) (k : κ) : Option ν :=
  (m.entries.find? fun e => e.1 = k).map Prod.snd

def contains (m : IndexedMap κ ν) (k : κ) : Bool := (m.get? k).isSome

/-- Gives a key its value where the key stands, or else at the end. -/
def put (k : κ) (v : ν) : List (κ × ν) → List (κ × ν)
  | [] => [(k, v)]
  | e :: es => if e.1 = k then (k, v) :: es else e :: put k v es

theorem map_fst_put (k : κ) (v : ν) (es : List (κ × ν)) : (put k v es).map Prod.fst =
    if k ∈ es.map Prod.fst then es.map Prod.fst else es.map Prod.fst ++ [k] := by
  induction es with
  | nil => rfl
  | cons e es ih =>
    simp only [put]
    split
    next he => simp [he]
    next he =>
      simp only [List.map_cons, ih, List.mem_cons, Ne.symm he, false_or]
      split <;> rfl

/-- Gives a key a value; a new key comes last. -/
def insert (m : IndexedMap κ ν) (k : κ) (v : ν) : IndexedMap κ ν where
  entries := put k v m.entries
  nodup := by
    rw [map_fst_put]
    split
    · exact m.nodup
    next hk =>
      refine List.nodup_append.mpr ⟨m.nodup, by simp, fun x hx y hy e => hk ?_⟩
      exact List.mem_singleton.mp hy ▸ e ▸ hx

/-- Changes the value of a key, which is `default` as long as the key has none. -/
def update (m : IndexedMap κ ν) (k : κ) (default : ν) (f : ν → ν) : IndexedMap κ ν :=
  m.insert k (f ((m.get? k).getD default))

end IndexedMap

end LRAutomata
