/-!
# The ChaCha block function

Sixteen words are mixed by twelve rounds, six on the columns and six on the diagonals of
a four by four square, and added to what they were.  The square holds four constants,
eight words of key, a block counter of two words and a stream number of two words, the
last of which is always zero here.
-/

namespace TrieCache.ChaCha

abbrev Square := Vector UInt32 16

def rotateLeft (word : UInt32) (amount : Nat) : UInt32 :=
  (word <<< amount.toUInt32) ||| (word >>> (32 - amount).toUInt32)

def quarterRound (square : Square) (a b c d : Fin 16) : Square :=
  let square := square.set a (square[a] + square[b])
  let square := square.set d (rotateLeft (square[d] ^^^ square[a]) 16)
  let square := square.set c (square[c] + square[d])
  let square := square.set b (rotateLeft (square[b] ^^^ square[c]) 12)
  let square := square.set a (square[a] + square[b])
  let square := square.set d (rotateLeft (square[d] ^^^ square[a]) 8)
  let square := square.set c (square[c] + square[d])
  square.set b (rotateLeft (square[b] ^^^ square[c]) 7)

def doubleRound (square : Square) : Square :=
  let square := quarterRound square 0 4 8 12
  let square := quarterRound square 1 5 9 13
  let square := quarterRound square 2 6 10 14
  let square := quarterRound square 3 7 11 15
  let square := quarterRound square 0 5 10 15
  let square := quarterRound square 1 6 11 12
  let square := quarterRound square 2 7 8 13
  quarterRound square 3 4 9 14

def mix : (doubleRounds : Nat) → Square → Square
  | 0, square => square
  | doubleRounds + 1, square => mix doubleRounds (doubleRound square)

/-- The first row of every square before mixing. -/
def constants : Vector UInt32 4 :=
  #v[0x61707865, 0x3320646e, 0x79622d32, 0x6b206574]

/-- The square of a key and a block number. -/
def start (key : Vector UInt32 8) (block : UInt64) : Square :=
  constants ++ key ++ #v[block.toUInt32, (block >>> 32).toUInt32, 0, 0]

def block (key : Vector UInt32 8) (number : UInt64) : Square :=
  let square := start key number
  square.zipWith (· + ·) (mix 6 square)

end TrieCache.ChaCha
