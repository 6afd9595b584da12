import LRAutomata.Update

/-!
# Indexed sets

An `IndexedSet` holds values in numbered places, each value once. A new value gets the next place;
where a value is taken out, the one in the last place moves in, so that no place stays empty:

* `changed_insert`, `insert_of_mem`: a value that is there already is refused;
* `mem_ofList`: the values of a list are those that were put in;
* `perm_insert`, `perm_swapRemove`: whatever the order of the entries, the others stay.
-/

namespace LRAutomata

/-- The values in the order of their places. -/
structure IndexedSet (α : Type) where
  entries : List α
  nodup : entries.Nodup

namespace IndexedSet

variable {α : Type}

instance : Membership α (IndexedSet α) := ⟨fun s x => x ∈ s.entries⟩

instance [DecidableEq α] (x : α) (s : IndexedSet α) : Decidable (x ∈ s) :=
  inferInstanceAs (Decidable (x ∈ s.entries))

def empty : IndexedSet α := ⟨[], List.nodup_nil⟩

variable [DecidableEq α]

/-- Gives a value the next place unless it is there already. -/
def insert (s : IndexedSet α) (x : α) : Update (IndexedSet α) :=
  if h : x ∈ s then ⟨s, false⟩
  else
    ⟨⟨s.entries ++ [x], List.nodup_append.mpr ⟨s.nodup, by simp, by
      intro y hy z hz e
      exact h (List.mem_singleton.mp hz ▸ e ▸ hy)⟩⟩, true⟩

/-- The values of a list in the order in which they come up. -/
def ofList (xs : List α) : IndexedSet α := xs.foldl (fun s x => (s.insert x).value) empty

theorem changed_insert (s : IndexedSet α) (x : α) : (s.insert x).changed = decide (x ∉ s) := by
  simp only [insert]; split <;> simp_all

theorem insert_of_mem {s : IndexedSet α} {x : α} (h : x ∈ s) : s.insert x = ⟨s, false⟩ :=
  dif_pos h

theorem mem_insert {s : IndexedSet α} {x y : α} : y ∈ (s.insert x).value ↔ y ∈ s ∨ y = x := by
  simp only [insert]
  split
  next hx => exact ⟨.inl, fun h => h.elim id fun e => e ▸ hx⟩
  next =>
    show y ∈ s.entries ++ [x] ↔ y ∈ s.entries ∨ y = x
    rw [List.mem_append, List.mem_singleton]

theorem mem_ofList {xs : List α} {x : α} : x ∈ ofList xs ↔ x ∈ xs := by
  have key (s : IndexedSet α) :
      x ∈ xs.foldl (fun s x => (s.insert x).value) s ↔ x ∈ s ∨ x ∈ xs := by
    induction xs generalizing s with
    | nil => exact (or_iff_left List.not_mem_nil).symm
    | cons y xs ih => rw [List.foldl_cons, ih, mem_insert, List.mem_cons, or_assoc]
  exact (key empty).trans (or_iff_right List.not_mem_nil)

theorem perm_insert {s : IndexedSet α} {xs : List α} (h : s.entries.Perm xs) (x : α) :
    (s.insert x).value.entries.Perm (if (s.insert x).changed then xs ++ [x] else xs) := by
  simp only [insert]
  split
  · exact h
  · exact h.append_right [x]

/-- The list without `x`, in whose place the last entry moves. -/
def swapOut (x : α) : List α → List α
  | [] => []
  | y :: ys =>
    if y = x then
      match ys.getLast? with
      | none => []
      | some last => last :: ys.dropLast
    else y :: swapOut x ys

theorem perm_swapOut (x : α) (ys : List α) : (swapOut x ys).Perm (ys.erase x) := by
  induction ys with
  | nil => exact .refl _
  | cons y ys ih =>
    simp only [swapOut, List.erase_cons, beq_iff_eq]
    split
    · split
      next hl => rw [List.getLast?_eq_none_iff.mp hl]
      next last hl =>
        obtain ⟨front, rfl⟩ := List.getLast?_eq_some_iff.mp hl
        rw [List.dropLast_concat]
        exact (List.perm_append_singleton last front).symm
    · exact ih.cons y

example : swapOut 2 [1, 2, 3, 4] = [1, 4, 3] := rfl

/-- Takes a value out, if it is there. -/
def swapRemove (s : IndexedSet α) (x : α) : IndexedSet α :=
  ⟨swapOut x s.entries, (perm_swapOut x s.entries).nodup_iff.mpr (s.nodup.erase x)⟩

theorem perm_swapRemove {s : IndexedSet α} {x : α} {xs : List α} (h : s.entries.Perm (x :: xs)) :
    (s.swapRemove x).entries.Perm xs := by
  have h' := h.erase x
  rw [List.erase_cons_head] at h'
  exact (perm_swapOut x s.entries).trans h'

end IndexedSet

end LRAutomata
