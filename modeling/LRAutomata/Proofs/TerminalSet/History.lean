import LRAutomata.Proofs.TerminalSet.Members
import Mathlib.Data.Set.Card
import Mathlib.Logic.Function.Basic

/-!
# Terminal sets after any operations

Any number of sets, empty to begin with, and then operations that change one of them, perhaps by
another or by itself, or make one a copy of another, those that are refused left out: whatever they
were, the bits of each set are the members that it should have.

* `TerminalSet.represents_members`: all that a set shows of its members;
* `Change.members_run`: what an operation does to the members, and `Change.changed_run_iff`: that it
  reports a change just if it makes one;
* `members_after`: the members after some operations;
* `faithful_after`: what is known of all the sets then.
-/

namespace LRAutomata

namespace TerminalSet

variable {s t : TerminalSet} {a : Terminal}

def members (s : TerminalSet) : Set Terminal := {a | a ∈ s}

@[simp] theorem mem_members : a ∈ s.members ↔ a ∈ s := Iff.rfl

theorem members_inj : s.members = t.members ↔ s = t :=
  ⟨fun h => ext fun a => Set.ext_iff.mp h a, congrArg members⟩

@[simp] theorem members_empty : (∅ : TerminalSet).members = ∅ :=
  Set.eq_empty_of_forall_notMem not_mem_empty

theorem members_union (s t : TerminalSet) : (s ∪ t).members = s.members ∪ t.members :=
  Set.ext fun _ => mem_union

theorem members_single (h : a.id.toNat < capacity) : (single a).members = {a} :=
  Set.ext fun _ => mem_single.trans (and_iff_left h)

theorem members_withoutMarker (s : TerminalSet) :
    s.withoutMarker.members = s.members \ {Terminal.marker} :=
  Set.ext fun _ => mem_withoutMarker

theorem isEmpty_iff : s.isEmpty = true ↔ s = ∅ := by
  rw [isEmpty, beq_iff_eq]
  exact ⟨fun h => congrArg TerminalSet.mk h, fun h => congrArg bits h⟩

theorem size_eq_ncard (s : TerminalSet) : s.size = s.members.ncard := by
  have listed : s.members = s.toList.toFinset := by
    ext a
    rw [List.coe_toFinset, Set.mem_ofPred_eq, mem_toList, mem_members]
  rw [listed, Set.ncard_coe_finset, List.toFinset_card_of_nodup s.nodup_toList, size]

/-- What a set shows of the members that it is to have. -/
structure Represents (s : TerminalSet) (S : Set Terminal) : Prop where
  contains_iff (a : Terminal) : s.contains a = true ↔ a ∈ S
  lt_capacity : ∀ a ∈ S, a.id.toNat < 256
  isEmpty_iff : s.isEmpty = true ↔ S = ∅
  mem_toList_iff (a : Terminal) : a ∈ s.toList ↔ a ∈ S
  ascending : s.toList.Pairwise fun a b => a.id < b.id
  size_eq : s.size = S.ncard
  length_words : s.words.length = 8
  /-- A terminal is the bit of its number, in the word given by the quotient by 32 and at the place
  given by the remainder. -/
  testBit_words_iff (a : Terminal) :
    (s.words.getD (a.id.toNat / 32) 0).toNat.testBit (a.id.toNat % 32) = true ↔ a ∈ S

theorem represents_members (s : TerminalSet) : s.Represents s.members where
  contains_iff _ := Iff.rfl
  lt_capacity _ h := lt_capacity_of_mem h
  isEmpty_iff := by rw [isEmpty_iff, ← members_inj, members_empty]
  mem_toList_iff _ := mem_toList
  ascending := s.ascending_toList.imp UInt16.lt_iff_toNat_lt.mpr
  size_eq := s.size_eq_ncard
  length_words := s.length_words
  testBit_words_iff _ := testBit_words_iff

section

variable {u : Update TerminalSet} {f : Fault}

theorem insert_eq_ok_iff : s.insert a = .ok u ↔
    a.id.toNat < capacity ∧ u = ⟨s ∪ single a, !s.contains a⟩ := by
  rw [insert]
  split
  next h => simp [h, eq_comm]
  next h => simp [h]

theorem insert_eq_error_iff : s.insert a = .error f ↔
    capacity ≤ a.id.toNat ∧ f = .capacityExceeded a := by
  rw [insert]
  split
  next h => simp [Nat.not_le.mpr h]
  next h => simp [Nat.not_lt.mp h, eq_comm (b := f)]

theorem changed_insert_iff (h : s.insert a = .ok u) : u.changed = true ↔ u.value ≠ s := by
  obtain ⟨ha, rfl⟩ := insert_eq_ok_iff.mp h
  have added : a ∈ s ∪ single a := mem_union.mpr (.inr (mem_single.mpr ⟨rfl, ha⟩))
  rw [Bool.not_eq_true', Bool.eq_false_iff, ne_eq, contains_iff, not_iff_not]
  constructor
  · exact fun hs => union_eq_left (subset_iff.mpr fun b hb => (mem_single.mp hb).1 ▸ hs)
  · exact fun he => he ▸ added

/-- The subset test finds out whether merging makes a difference. -/
theorem changed_merge_iff : (s.merge t).changed = true ↔ (s.merge t).value ≠ s := by
  rw [changed_merge, value_merge, Bool.not_eq_true', decide_eq_false_iff_not, ne_eq, not_iff_not]
  constructor
  · exact union_eq_left
  · exact fun he => subset_iff.mpr fun a ha => he ▸ mem_union.mpr (.inr ha)

theorem changed_dropMarker_iff : s.dropMarker.changed = true ↔ s.dropMarker.value ≠ s := by
  rw [dropMarker, contains_iff]
  constructor
  · intro hm he
    exact (mem_withoutMarker.mp (he.symm ▸ hm)).2 rfl
  · intro hne
    by_contra hm
    refine hne (ext fun a => ?_)
    rw [mem_withoutMarker, and_iff_left_iff_imp]
    rintro ha rfl
    exact hm ha

end

/-! ## Changing one of several sets -/

/-- An operation that changes a set, perhaps by another one, which is told by its name. -/
inductive Change (ρ : Type) where
  | insert (a : Terminal)
  | insertUnmarked (a : Terminal)
  | merge (other : ρ)
  | mergeUnmarked (other : ρ)
  | dropMarker

namespace Change

variable {ρ : Type} {sets : ρ → TerminalSet} {c : Change ρ} {u : Update TerminalSet} {f : Fault}

/-- The set after the operation, and whether it has changed. -/
def run (sets : ρ → TerminalSet) (s : TerminalSet) : Change ρ → Except Fault (Update TerminalSet)
  | insert a => s.insert a
  | insertUnmarked a => s.insertUnmarked a
  | merge other => .ok (s.merge (sets other))
  | mergeUnmarked other => .ok (s.mergeUnmarked (sets other))
  | dropMarker => .ok s.dropMarker

/-- The members after the operation; a terminal beyond the capacity does not become one. -/
def onMembers (m : ρ → Set Terminal) (S : Set Terminal) : Change ρ → Set Terminal
  | insert a => if a.id.toNat < 256 then S ∪ {a} else S
  | insertUnmarked a => if a.id.toNat < 256 ∧ a ≠ Terminal.marker then S ∪ {a} else S
  | merge other => S ∪ m other
  | mergeUnmarked other => S ∪ (m other \ {Terminal.marker})
  | dropMarker => S \ {Terminal.marker}

/-- The operation passes over the propagation marker. -/
def PassesOver : Change ρ → Prop
  | insertUnmarked _ => True
  | mergeUnmarked _ => True
  | _ => False

/-- Only an insertion is refused, and only that of a terminal beyond the capacity. -/
theorem run_eq_error_iff : c.run sets s = .error f ↔
    ∃ a, (c = .insert a ∨ c = .insertUnmarked a) ∧ 256 ≤ a.id.toNat ∧ f = .capacityExceeded a := by
  cases c with
  | insert a => simp [run, insert_eq_error_iff, capacity]
  | insertUnmarked a =>
    by_cases hm : a = Terminal.marker
    · have within : ¬ 256 ≤ a.id.toNat := by rw [hm]; decide
      simp [run, TerminalSet.insertUnmarked, hm, hm ▸ within]
    · simp [run, TerminalSet.insertUnmarked, hm, insert_eq_error_iff, capacity]
  | merge other => simp [run]
  | mergeUnmarked other => simp [run]
  | dropMarker => simp [run]

theorem members_run (h : c.run sets s = .ok u) :
    u.value.members = c.onMembers (fun r => (sets r).members) s.members := by
  cases c with
  | insert a =>
    obtain ⟨ha, rfl⟩ := insert_eq_ok_iff.mp h
    have within : a.id.toNat < 256 := ha
    rw [onMembers, if_pos within, members_union, members_single ha]
  | insertUnmarked a =>
    rw [run, TerminalSet.insertUnmarked] at h
    split at h
    next hm =>
      cases h
      rw [onMembers, if_neg fun hc => hc.2 hm]
    next hm =>
      obtain ⟨ha, rfl⟩ := insert_eq_ok_iff.mp h
      have within : a.id.toNat < 256 := ha
      rw [onMembers, if_pos ⟨within, hm⟩, members_union, members_single ha]
  | merge other =>
    cases h
    rw [value_merge, members_union, onMembers]
  | mergeUnmarked other =>
    cases h
    rw [value_mergeUnmarked, members_union, members_withoutMarker, onMembers]
  | dropMarker =>
    cases h
    exact members_withoutMarker s

theorem onMembers_of_refused (h : c.run sets s = .error f) (m : ρ → Set Terminal)
    (S : Set Terminal) : c.onMembers m S = S := by
  obtain ⟨a, rfl | rfl, ha, -⟩ := run_eq_error_iff.mp h
  · exact if_neg (Nat.not_lt.mpr ha)
  · exact if_neg fun hc => Nat.not_lt.mpr ha hc.1

theorem changed_run_iff (h : c.run sets s = .ok u) : u.changed = true ↔ u.value ≠ s := by
  cases c with
  | insert a => exact changed_insert_iff h
  | insertUnmarked a =>
    rw [run, TerminalSet.insertUnmarked] at h
    split at h
    next => cases h; simp
    next => exact changed_insert_iff h
  | merge other => cases h; exact changed_merge_iff
  | mergeUnmarked other => cases h; exact changed_merge_iff
  | dropMarker => cases h; exact changed_dropMarker_iff

theorem PassesOver.marker_mem_iff (h : c.PassesOver) (m : ρ → Set Terminal) (S : Set Terminal) :
    Terminal.marker ∈ c.onMembers m S ↔ Terminal.marker ∈ S := by
  cases c with
  | insertUnmarked a =>
    rw [onMembers]
    split
    next hc => exact or_iff_left fun he => hc.2 (Set.mem_singleton_iff.mp he).symm
    next => exact Iff.rfl
  | mergeUnmarked other => exact or_iff_left fun hm => hm.2 rfl
  | insert | merge | dropMarker => exact h.elim

end Change

/-! ## Any operations -/

/-- An operation on several sets: changing one of them, and making one a copy of another. -/
inductive Call (ρ : Type) where
  | change (r : ρ) (c : Change ρ)
  | copy (r other : ρ)

section

variable {ρ : Type} [DecidableEq ρ] {sets : ρ → TerminalSet}

/-- The sets after an operation, which changes nothing if it is refused. -/
def call (sets : ρ → TerminalSet) : Call ρ → ρ → TerminalSet
  | .change r c =>
    Function.update sets r (((c.run sets (sets r)).map Update.value).toOption.getD (sets r))
  | .copy r other => Function.update sets r (sets other)

/-- The sets after some operations. -/
def after (sets : ρ → TerminalSet) (calls : List (Call ρ)) : ρ → TerminalSet := calls.foldl call sets

/-- The members of all sets after an operation. -/
def Call.onMembers (m : ρ → Set Terminal) : Call ρ → ρ → Set Terminal
  | .change r c => Function.update m r (c.onMembers m (m r))
  | .copy r other => Function.update m r (m other)

/-- The members of all sets after some operations. -/
def membersAfter (m : ρ → Set Terminal) (calls : List (Call ρ)) : ρ → Set Terminal :=
  calls.foldl Call.onMembers m

theorem members_call (sets : ρ → TerminalSet) (c : Call ρ) :
    (fun r => (call sets c r).members) = c.onMembers fun r => (sets r).members := by
  cases c with
  | change r c =>
    refine (Function.comp_update members sets r _).trans ?_
    rw [Call.onMembers]
    refine congrArg (Function.update _ r) ?_
    cases h : c.run sets (sets r) with
    | ok u => exact c.members_run h
    | error f => exact (c.onMembers_of_refused h _ _).symm
  | copy r other => exact Function.comp_update members sets r _

/-- After any operations the sets have the members that these make of those at the beginning. -/
theorem members_after (sets : ρ → TerminalSet) (calls : List (Call ρ)) :
    (fun r => (after sets calls r).members) = membersAfter (fun r => (sets r).members) calls :=
  (List.foldl_hom (fun (sets : ρ → TerminalSet) r => (sets r).members)
    fun sets c => (members_call sets c).symm).symm

end

/-- What is known of sets that are to have the members `m`. -/
structure Faithful {ρ : Type} (sets : ρ → TerminalSet) (m : ρ → Set Terminal) : Prop where
  represents (r : ρ) : (sets r).Represents (m r)
  /-- One more operation is refused if it would insert a terminal beyond the capacity. -/
  refuses_iff (r : ρ) (c : Change ρ) (f : Fault) : c.run sets (sets r) = .error f ↔
    ∃ a, (c = .insert a ∨ c = .insertUnmarked a) ∧ 256 ≤ a.id.toNat ∧ f = .capacityExceeded a
  /-- If it is not refused, it changes the members as it should. -/
  represents_run {r : ρ} {c : Change ρ} {u : Update TerminalSet} :
    c.run sets (sets r) = .ok u → u.value.Represents (c.onMembers m (m r))
  /-- It reports a change if the members are others than before. -/
  changed_iff {r : ρ} {c : Change ρ} {u : Update TerminalSet} :
    c.run sets (sets r) = .ok u → (u.changed = true ↔ c.onMembers m (m r) ≠ m r)
  /-- It reports a change if the set is another one than before. -/
  changed_iff_value_ne {r : ρ} {c : Change ρ} {u : Update TerminalSet} :
    c.run sets (sets r) = .ok u → (u.changed = true ↔ u.value ≠ sets r)
  /-- The unmarked operations neither add the propagation marker nor take it out. -/
  marker_mem_iff {r : ρ} {c : Change ρ} {u : Update TerminalSet} : c.PassesOver →
    c.run sets (sets r) = .ok u → (Terminal.marker ∈ u.value ↔ Terminal.marker ∈ sets r)
  eq_iff_members_eq (r r' : ρ) : sets r = sets r' ↔ m r = m r'
  eq_iff_words_eq (r r' : ρ) : sets r = sets r' ↔ (sets r).words = (sets r').words

theorem faithful_members {ρ : Type} (sets : ρ → TerminalSet) :
    Faithful sets fun r => (sets r).members where
  represents r := (sets r).represents_members
  refuses_iff _ _ _ := Change.run_eq_error_iff
  represents_run h := Change.members_run h ▸ represents_members _
  changed_iff h := by rw [← Change.members_run h, ne_eq, members_inj]; exact Change.changed_run_iff h
  changed_iff_value_ne h := Change.changed_run_iff h
  marker_mem_iff hc h := by
    rw [← mem_members, Change.members_run h]
    exact hc.marker_mem_iff _ _
  eq_iff_members_eq _ _ := members_inj.symm
  eq_iff_words_eq _ _ := ⟨congrArg words, words_inj⟩

/-- Whatever was done to any number of sets that were empty, each of them has the members that this
leaves of the empty set, and nothing but these shows. -/
theorem faithful_after {ρ : Type} [DecidableEq ρ] (calls : List (Call ρ)) :
    Faithful (after (fun _ => ∅) calls) (membersAfter (fun _ => ∅) calls) := by
  have none : (fun _ : ρ => (∅ : Set Terminal)) = fun _ => (∅ : TerminalSet).members :=
    funext fun _ => members_empty.symm
  rw [none, ← members_after]
  exact faithful_members _

end TerminalSet

end LRAutomata
