/-!
# White space

The characters with the Unicode property White_Space, as closed ranges of code
points, and trimming by that property.
-/

namespace TrieCache.Blank

/-- Closed ranges of the white-space code points, ascending and apart. -/
def ranges : List (Nat × Nat) :=
  [(0x09, 0x0D), (0x20, 0x20), (0x85, 0x85), (0xA0, 0xA0), (0x1680, 0x1680),
    (0x2000, 0x200A), (0x2028, 0x2029), (0x202F, 0x202F), (0x205F, 0x205F), (0x3000, 0x3000)]

def isBlank (char : Char) : Bool :=
  ranges.any fun range => decide (range.1 ≤ char.toNat ∧ char.toNat ≤ range.2)

def trimStart (chars : List Char) : List Char :=
  chars.dropWhile isBlank

def trimEnd (chars : List Char) : List Char :=
  (chars.reverse.dropWhile isBlank).reverse

def trim (chars : List Char) : List Char :=
  trimStart (trimEnd chars)

end TrieCache.Blank
