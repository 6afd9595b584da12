import LRAutomata.Item.Items
import LRAutomata.WordHash

/-!
# Signatures

A `Signature` writes the items of a state as a row of 32-bit words, with or without their
lookaheads, so that states can be told apart by it: one word for each core, followed by the eight
words of its lookaheads if these count. `Signature.bucket` spreads signatures over numbered
buckets, by whatever hash of words there is.
-/

namespace LRAutomata

/-- The items of a state as a row of words. -/
structure Signature where
  words : List UInt32
deriving DecidableEq, Inhabited

/-- The production in the upper half, the dot in the lower. -/
def Core.word (c : Core) : UInt32 := c.production.id.toUInt32 <<< 16 ||| c.dot.toUInt32

namespace Signature

/-- The words of one item. -/
def itemWords (withLookaheads : Bool) (i : Item) : List UInt32 :=
  i.core.word :: if withLookaheads then i.lookaheads.words else []

/-- The signature of items, with or without their lookaheads. -/
def ofItems (withLookaheads : Bool) (s : Items) : Signature :=
  ⟨s.toList.flatMap (itemWords withLookaheads)⟩

variable [WordHash]

/-- The place of a signature among `count` places. -/
def slot (k : Signature) (count : Nat) : Nat := (WordHash.hash k.words).toNat % count

/-- The number of the signature's bucket, counted from one; there must be a bucket. -/
def bucket (k : Signature) (count : Nat) : Except Fault Nat :=
  if count = 0 then .error .zeroBuckets else .ok (k.slot count + 1)

end Signature

end LRAutomata
