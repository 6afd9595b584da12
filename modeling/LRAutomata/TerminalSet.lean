import LRAutomata.Fault
import LRAutomata.Update

/-!
# Terminal sets

A `TerminalSet` is a set of terminals with numbers below 256, one bit for a terminal. Its
operations are stated by their members:

* `mem_union`, `mem_single`, `mem_withoutMarker`: the members after each operation;
* `ext`: sets with the same members are equal;
* `value_merge`, `changed_merge`: merging is union, and a change unless nothing is added;
* `insert`, `insertUnmarked`, `merge`, `mergeUnmarked`, `dropMarker` also say whether they changed
  the set; the unmarked ones pass over the propagation marker.
-/

namespace LRAutomata

/-- A set of terminals: bit `i` stands for terminal `i`. -/
structure TerminalSet where
  bits : BitVec 256
deriving DecidableEq

namespace TerminalSet

/-- How many terminals a set can tell apart. -/
def capacity : Nat := 256

def empty : TerminalSet := ⟨0⟩

instance : EmptyCollection TerminalSet := ⟨empty⟩
instance : Inhabited TerminalSet := ⟨empty⟩

def contains (s : TerminalSet) (t : Terminal) : Bool := s.bits.getLsbD t.id.toNat

instance : Membership Terminal TerminalSet := ⟨fun s t => s.contains t = true⟩

instance (t : Terminal) (s : TerminalSet) : Decidable (t ∈ s) :=
  inferInstanceAs (Decidable (s.contains t = true))

/-- The set of `t` alone, empty if `t` is beyond the capacity. -/
def single (t : Terminal) : TerminalSet := ⟨BitVec.twoPow 256 t.id.toNat⟩

instance : Union TerminalSet := ⟨fun s t => ⟨s.bits ||| t.bits⟩⟩

instance : HasSubset TerminalSet := ⟨fun s t => s.bits &&& t.bits = s.bits⟩

instance (s t : TerminalSet) : Decidable (s ⊆ t) :=
  inferInstanceAs (Decidable (s.bits &&& t.bits = s.bits))

def isEmpty (s : TerminalSet) : Bool := s.bits == 0

/-- The members, in ascending order. -/
def toList (s : TerminalSet) : List Terminal :=
  ((List.range capacity).filter s.bits.getLsbD).map fun i => ⟨UInt16.ofNat i⟩

def size (s : TerminalSet) : Nat := s.toList.length

/-- The bits in eight words, the low ones first. -/
def words (s : TerminalSet) : List UInt32 :=
  (List.range 8).map fun k => UInt32.ofBitVec (s.bits.extractLsb' (32 * k) 32)

/-- The set without the propagation marker. -/
def withoutMarker (s : TerminalSet) : TerminalSet :=
  ⟨s.bits &&& ~~~ (single Terminal.marker).bits⟩

/-- Adds a terminal, which must be within the capacity. -/
def insert (s : TerminalSet) (t : Terminal) : Except Fault (Update TerminalSet) :=
  if t.id.toNat < capacity then .ok ⟨s ∪ single t, !s.contains t⟩
  else .error (.capacityExceeded t)

/-- Adds a terminal, unless it is the propagation marker. -/
def insertUnmarked (s : TerminalSet) (t : Terminal) : Except Fault (Update TerminalSet) :=
  if t = Terminal.marker then .ok ⟨s, false⟩ else s.insert t

/-- Adds every member of `other`. -/
def merge (s other : TerminalSet) : Update TerminalSet :=
  if other ⊆ s then ⟨s, false⟩ else ⟨s ∪ other, true⟩

/-- Adds every member of `other` but the propagation marker. -/
def mergeUnmarked (s other : TerminalSet) : Update TerminalSet := s.merge other.withoutMarker

/-- Takes the propagation marker out. -/
def dropMarker (s : TerminalSet) : Update TerminalSet :=
  ⟨s.withoutMarker, s.contains Terminal.marker⟩

/-- The set of the terminals of a list, all of which must be within the capacity. -/
def ofList (ts : List Terminal) : Except Fault TerminalSet :=
  ts.foldlM (fun s t => (s.insert t).map Update.value) empty

/-- The members by their labels. -/
def label (s : TerminalSet) : String :=
  "\x7b" ++ String.intercalate ", " (s.toList.map Terminal.label) ++ "\x7d"

theorem mem_def {t : Terminal} {s : TerminalSet} : t ∈ s ↔ s.bits.getLsbD t.id.toNat = true :=
  Iff.rfl

theorem contains_iff {t : Terminal} {s : TerminalSet} : s.contains t = true ↔ t ∈ s := Iff.rfl

theorem lt_capacity_of_mem {t : Terminal} {s : TerminalSet} (h : t ∈ s) : t.id.toNat < capacity :=
  BitVec.lt_of_getLsbD h

theorem ext {s t : TerminalSet} (h : ∀ a, a ∈ s ↔ a ∈ t) : s = t := by
  obtain ⟨b⟩ := s
  obtain ⟨c⟩ := t
  refine congrArg TerminalSet.mk (BitVec.eq_of_getLsbD_eq fun i hi => ?_)
  have := h ⟨UInt16.ofNat i⟩
  simp only [mem_def, UInt16.toNat_ofNat'] at this
  rw [Nat.mod_eq_of_lt (by omega)] at this
  exact Bool.eq_iff_iff.mpr this

@[simp] theorem not_mem_empty (t : Terminal) : t ∉ (∅ : TerminalSet) := by
  show ¬ (0 : BitVec 256).getLsbD _ = true
  simp

@[simp] theorem mem_union {a : Terminal} {s t : TerminalSet} : a ∈ s ∪ t ↔ a ∈ s ∨ a ∈ t := by
  show (s.bits ||| t.bits).getLsbD _ = true ↔ _
  simp [mem_def]

theorem mem_single {a t : Terminal} : a ∈ single t ↔ a = t ∧ t.id.toNat < capacity := by
  simp only [mem_def, single, BitVec.getLsbD_twoPow, Bool.and_eq_true, decide_eq_true_eq]
  constructor
  · rintro ⟨h, e⟩; exact ⟨Terminal.rank_inj e.symm, h⟩
  · rintro ⟨rfl, h⟩; exact ⟨h, rfl⟩

@[simp] theorem mem_withoutMarker {a : Terminal} {s : TerminalSet} :
    a ∈ s.withoutMarker ↔ a ∈ s ∧ a ≠ Terminal.marker := by
  have hm : a ∈ single Terminal.marker ↔ a = Terminal.marker := by
    rw [mem_single]; exact and_iff_left (by decide)
  constructor
  · intro h
    simp only [mem_def, withoutMarker, BitVec.getLsbD_and, BitVec.getLsbD_not,
      Bool.and_eq_true, Bool.not_eq_true', decide_eq_true_eq] at h
    exact ⟨h.1, fun e => by simpa [mem_def, h.2.2] using hm.mpr e⟩
  · rintro ⟨h, ne⟩
    have : ¬ (single Terminal.marker).bits.getLsbD a.id.toNat = true := fun e => ne (hm.mp e)
    simp only [mem_def, withoutMarker, BitVec.getLsbD_and, BitVec.getLsbD_not,
      Bool.and_eq_true, Bool.not_eq_true', decide_eq_true_eq]
    exact ⟨h, lt_capacity_of_mem h, by simpa using this⟩

theorem subset_iff {s t : TerminalSet} : s ⊆ t ↔ ∀ a ∈ s, a ∈ t := by
  show s.bits &&& t.bits = s.bits ↔ _
  constructor
  · intro h a ha
    simp only [mem_def] at ha ⊢
    rw [← h, BitVec.getLsbD_and, Bool.and_eq_true] at ha
    exact ha.2
  · intro h
    have : (⟨s.bits &&& t.bits⟩ : TerminalSet) = s := ext fun a => by
      simp only [mem_def, BitVec.getLsbD_and, Bool.and_eq_true]
      exact ⟨fun h => h.1, fun ha => ⟨ha, h a ha⟩⟩
    exact congrArg bits this

theorem empty_union (s : TerminalSet) : ∅ ∪ s = s := ext fun a => by simp

theorem union_eq_left {s t : TerminalSet} (h : t ⊆ s) : s ∪ t = s := ext fun a => by
  rw [mem_union]; exact or_iff_left_of_imp (subset_iff.mp h a)

@[simp] theorem value_merge (s t : TerminalSet) : (s.merge t).value = s ∪ t := by
  simp only [merge]
  split
  next h => exact (union_eq_left h).symm
  next => rfl

theorem changed_merge (s t : TerminalSet) : (s.merge t).changed = !decide (t ⊆ s) := by
  simp only [merge]; split <;> simp_all

@[simp] theorem value_mergeUnmarked (s t : TerminalSet) :
    (s.mergeUnmarked t).value = s ∪ t.withoutMarker := value_merge ..

end TerminalSet

end LRAutomata
