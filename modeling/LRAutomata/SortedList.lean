/-!
# Sorted lists

A `SortedList` holds its elements in ascending order of their rank, one element for a rank. It is
a finite map from ranks to elements:

* `SortedList.ext`: the list determines the value;
* `find?_eq_some_iff`: what is found is what is in the list;
* `find?_put`, `find?_filter`, `find?_map`: what each operation does to the map;
* `eq_of_ascending`, `eq_of_mem_iff`, `eq_of_find?_eq`: the elements, and so the map, determine the
  list.
-/

namespace LRAutomata

/-- Elements in strictly ascending order of their rank. -/
structure SortedList (ε : Type) (rank : ε → Nat) where
  toList : List ε
  ascending : toList.Pairwise fun a b => rank a < rank b

namespace SortedList

variable {ε : Type} {rank : ε → Nat}

theorem ext {a b : SortedList ε rank} (h : a.toList = b.toList) : a = b := by
  cases a; cases b; cases h; rfl

instance [DecidableEq ε] : DecidableEq (SortedList ε rank) := fun a b =>
  if h : a.toList = b.toList then isTrue (ext h) else isFalse fun e => h (e ▸ rfl)

def empty : SortedList ε rank := ⟨[], .nil⟩

instance : EmptyCollection (SortedList ε rank) := ⟨empty⟩
instance : Inhabited (SortedList ε rank) := ⟨empty⟩

def size (l : SortedList ε rank) : Nat := l.toList.length

def isEmpty (l : SortedList ε rank) : Bool := l.toList.isEmpty

/-- The element of rank `r`. -/
def find? (l : SortedList ε rank) (r : Nat) : Option ε :=
  l.toList.find? fun a => rank a == r

/-- The place of the element of rank `r`. -/
def position? (l : SortedList ε rank) (r : Nat) : Option Nat :=
  l.toList.findIdx? fun a => rank a == r

/-- The element at a place. -/
def at? (l : SortedList ε rank) (place : Nat) : Option ε := l.toList[place]?

/-- Puts `x` at its place in a sorted list; an element of the same rank gives way. -/
def place (rank : ε → Nat) (x : ε) : List ε → List ε
  | [] => [x]
  | y :: ys =>
    if rank x < rank y then x :: y :: ys
    else if rank x = rank y then x :: ys
    else y :: place rank x ys

theorem rank_of_mem_place {x z : ε} {ys : List ε} (h : z ∈ place rank x ys) : z = x ∨ z ∈ ys := by
  induction ys with
  | nil => exact .inl (by simpa [place] using h)
  | cons y ys ih =>
    simp only [place] at h
    split at h
    · simpa using h
    · split at h
      · rcases List.mem_cons.mp h with h | h
        · exact .inl h
        · exact .inr (List.mem_cons_of_mem _ h)
      · rcases List.mem_cons.mp h with h | h
        · exact .inr (h ▸ List.mem_cons_self)
        · exact (ih h).imp id (List.mem_cons_of_mem _)

theorem ascending_place {x : ε} {ys : List ε} (h : ys.Pairwise fun a b => rank a < rank b) :
    (place rank x ys).Pairwise fun a b => rank a < rank b := by
  induction ys with
  | nil => simp [place]
  | cons y ys ih =>
    obtain ⟨hy, hs⟩ := List.pairwise_cons.mp h
    simp only [place]
    split
    next lt =>
      refine List.pairwise_cons.mpr ⟨fun z hz => ?_, h⟩
      rcases List.mem_cons.mp hz with rfl | hz
      · exact lt
      · exact Nat.lt_trans lt (hy z hz)
    next nlt =>
      split
      next eq => exact List.pairwise_cons.mpr ⟨fun z hz => eq ▸ hy z hz, hs⟩
      next ne =>
        refine List.pairwise_cons.mpr ⟨fun z hz => ?_, ih hs⟩
        rcases rank_of_mem_place hz with rfl | hz
        · omega
        · exact hy z hz

theorem find?_cons_rank (x : ε) (xs : List ε) (r : Nat) :
    (x :: xs).find? (fun a => rank a == r) =
      if rank x = r then some x else xs.find? fun a => rank a == r := by
  by_cases e : rank x = r
  · simp [e]
  · rw [List.find?_cons_of_neg (by simpa using e), if_neg e]

theorem find?_place {x : ε} {ys : List ε} (r : Nat) :
    (place rank x ys).find? (fun a => rank a == r) =
      if rank x = r then some x else ys.find? fun a => rank a == r := by
  induction ys with
  | nil => simp only [place, find?_cons_rank]
  | cons y ys ih =>
    simp only [place]
    split
    · rw [find?_cons_rank]
    · split
      next eq => simp only [find?_cons_rank, eq]; split <;> rfl
      next ne =>
        simp only [find?_cons_rank, ih]
        by_cases e : rank x = r
        · rw [if_neg fun h => ne (e.trans h.symm), if_pos e, if_pos e]
        · rw [if_neg e, if_neg e]

/-- Puts `x` in; an element of the same rank gives way. -/
def put (l : SortedList ε rank) (x : ε) : SortedList ε rank :=
  ⟨place rank x l.toList, ascending_place l.ascending⟩

/-- The elements of a list; of several with the same rank the last one stays. -/
def ofList (xs : List ε) : SortedList ε rank := xs.foldl put empty

/-- The elements that pass a test. -/
def filter (l : SortedList ε rank) (p : ε → Bool) : SortedList ε rank :=
  ⟨l.toList.filter p, l.ascending.filter p⟩

/-- Changes the elements without touching their ranks. -/
def map (l : SortedList ε rank) (f : ε → ε) (h : ∀ a, rank (f a) = rank a) :
    SortedList ε rank :=
  ⟨l.toList.map f, List.pairwise_map.mpr (by simpa only [h] using l.ascending)⟩

theorem find?_eq_some_iff {l : SortedList ε rank} {r : Nat} {a : ε} :
    l.find? r = some a ↔ a ∈ l.toList ∧ rank a = r := by
  constructor
  · intro h
    exact ⟨List.mem_of_find?_eq_some h, by simpa using List.find?_some h⟩
  · rintro ⟨ha, rfl⟩
    obtain ⟨xs, hxs⟩ := l
    simp only [find?] at ha ⊢
    induction xs with
    | nil => cases ha
    | cons x xs ih =>
      obtain ⟨hx, hs⟩ := List.pairwise_cons.mp hxs
      rcases List.mem_cons.mp ha with rfl | ha
      · simp
      · rw [find?_cons_rank, if_neg (Nat.ne_of_lt (hx a ha)), ih hs ha]

theorem find?_eq_none_iff {l : SortedList ε rank} {r : Nat} :
    l.find? r = none ↔ ∀ a ∈ l.toList, rank a ≠ r := by
  simp [find?]

theorem find?_put (l : SortedList ε rank) (x : ε) (r : Nat) :
    (l.put x).find? r = if rank x = r then some x else l.find? r :=
  find?_place r

@[simp] theorem find?_empty (r : Nat) : (empty : SortedList ε rank).find? r = none := rfl

theorem find?_filter (l : SortedList ε rank) (p : ε → Bool) (r : Nat) :
    (l.filter p).find? r = (l.find? r).filter p := by
  refine Option.ext fun a => ?_
  simp only [find?_eq_some_iff, filter, List.mem_filter, Option.filter_eq_some_iff]
  constructor
  · rintro ⟨⟨ha, hp⟩, hr⟩; exact ⟨⟨ha, hr⟩, hp⟩
  · rintro ⟨⟨ha, hr⟩, hp⟩; exact ⟨⟨ha, hp⟩, hr⟩

theorem find?_map (l : SortedList ε rank) (f : ε → ε) (h : ∀ a, rank (f a) = rank a) (r : Nat) :
    (l.map f h).find? r = (l.find? r).map f := by
  simp only [find?, map, List.find?_map, Function.comp_def, h]

theorem nodup_of_ascending {xs : List ε} (h : xs.Pairwise fun a b => rank a < rank b) :
    xs.Nodup := h.imp fun hlt e => by subst e; exact Nat.lt_irrefl _ hlt

/-- Ascending lists with the same elements are equal. -/
theorem eq_of_ascending {xs ys : List ε} (hx : xs.Pairwise fun a b => rank a < rank b)
    (hy : ys.Pairwise fun a b => rank a < rank b) (h : ∀ x, x ∈ xs ↔ x ∈ ys) : xs = ys := by
  refine List.Perm.eq_of_pairwise ?_ hx hy
    ((List.perm_ext_iff_of_nodup (nodup_of_ascending hx) (nodup_of_ascending hy)).mpr h)
  intro x y _ _ hxy hyx
  exact absurd hxy (Nat.not_lt_of_gt hyx)

theorem eq_of_mem_iff {a b : SortedList ε rank} (h : ∀ x, x ∈ a.toList ↔ x ∈ b.toList) :
    a = b :=
  ext (eq_of_ascending a.ascending b.ascending h)

theorem eq_of_find?_eq {a b : SortedList ε rank} (h : ∀ r, a.find? r = b.find? r) : a = b :=
  eq_of_mem_iff fun x => by
    have h₁ : a.find? (rank x) = some x ↔ x ∈ a.toList := by simp [find?_eq_some_iff]
    have h₂ : b.find? (rank x) = some x ↔ x ∈ b.toList := by simp [find?_eq_some_iff]
    rw [← h₁, ← h₂, h]

end SortedList

end LRAutomata
