/-!
# Hashing words

A `WordHash` turns a row of 32-bit words into a number of 64 bits. States are filed by it, and
nothing is asked of it: whatever the hash is, a state is found where it was filed.
`WordHash.rotating` is the one that programs run with.
-/

namespace LRAutomata

/-- A hash of rows of words. -/
class WordHash where
  hash (words : List UInt32) : UInt64

namespace WordHash

/-- The odd factor by which every step spreads the bits. -/
def multiplier : UInt64 := 0x517cc1b727220a95

/-- Takes one more word into the hash. -/
def add (h word : UInt64) : UInt64 := ((h <<< 5 ||| h >>> 59) ^^^ word) * multiplier

/-- Takes a row of 32-bit words in, two at a time with the first one low; a last single one goes
alone. -/
def addRow (h : UInt64) : List UInt32 → UInt64
  | [] => h
  | [a] => add h a.toUInt64
  | a :: b :: rest => addRow (add h (a.toUInt64 ||| b.toUInt64 <<< 32)) rest

/-- The length of the row and then its words, each rotated in and multiplied. -/
instance rotating : WordHash where
  hash words := addRow (add 0 (UInt64.ofNat words.length)) words

end WordHash

end LRAutomata
