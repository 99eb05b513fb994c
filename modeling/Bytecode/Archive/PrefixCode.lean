/-!
# Prefix codes

A prefix code gives words of bits to symbols, none of them the beginning of another.  It is kept as
a tree whose forks are the bits.
-/

namespace Bytecode
namespace Archive

inductive PrefixCode where
  /-- No word starts here. -/
  | gap
  | word (symbol : Nat)
  | fork (zero one : PrefixCode)

namespace PrefixCode

def maxLength : Nat := 15

/-- Symbols that have a word, each with its length, the shortest words first; symbol `i` has the
length `lengths[i]`, where zero means no word. -/
def wordLengths (lengths : List Nat) : List (Nat × Nat) :=
  (List.range maxLength).flatMap fun n => lengths.zipIdx.filter (·.1 = n + 1)

/-- Gives out words from the lowest on, at a depth of the tree and a number of levels below it.
The symbols that find no room are handed back. -/
def grow : Nat → Nat → List (Nat × Nat) → PrefixCode × List (Nat × Nat)
  | _, _, [] => (gap, [])
  | 0, depth, (length, symbol) :: rest =>
      if length = depth then (word symbol, rest) else (gap, (length, symbol) :: rest)
  | levels + 1, depth, (length, symbol) :: rest =>
      if length = depth then
        (word symbol, rest)
      else
        let (zero, rest) := grow levels (depth + 1) ((length, symbol) :: rest)
        let (one, rest) := grow levels (depth + 1) rest
        (fork zero one, rest)

/-- Every long enough sequence of bits starts with a word. -/
def isFull : PrefixCode → Bool
  | gap => false
  | word _ => true
  | fork zero one => zero.isFull && one.isFull

/-- The code of word lengths.  It must be full, unless it has no word but one of a single bit. -/
def ofLengths? (lengths : List Nat) : Option PrefixCode :=
  let words := wordLengths lengths
  let (code, rest) := grow maxLength 0 words
  if rest.isEmpty && (code.isFull || words.all (·.1 = 1)) then some code else none

end PrefixCode
end Archive
end Bytecode
