/-!
The ChaCha stream cipher with twelve rounds as a source of words.

A key of eight words and a block number give a block of sixteen words; the words of all blocks in
order, taken in pairs with the low word first, are the stream.
-/

namespace Metropolis.ChaCha

abbrev Block := Vector UInt32 16

abbrev Key := Vector UInt32 8

def rotateLeft (x : UInt32) (n : UInt32) : UInt32 := (x <<< n) ||| (x >>> (32 - n))

/-- The quarter round on four words of a block. -/
def quarterRound (s : Block) (i j k l : Fin 16) : Block :=
  let a := s[i] + s[j]
  let d := rotateLeft (s[l] ^^^ a) 16
  let c := s[k] + d
  let b := rotateLeft (s[j] ^^^ c) 12
  let a := a + b
  let d := rotateLeft (d ^^^ a) 8
  let c := c + d
  let b := rotateLeft (b ^^^ c) 7
  (((s.set i a).set j b).set k c).set l d

/-- A round on the columns and a round on the diagonals. -/
def doubleRound (s : Block) : Block :=
  let s := quarterRound s 0 4 8 12
  let s := quarterRound s 1 5 9 13
  let s := quarterRound s 2 6 10 14
  let s := quarterRound s 3 7 11 15
  let s := quarterRound s 0 5 10 15
  let s := quarterRound s 1 6 11 12
  let s := quarterRound s 2 7 8 13
  quarterRound s 3 4 9 14

def constants : Vector UInt32 4 := #v[0x61707865, 0x3320646e, 0x79622d32, 0x6b206574]

/-- The block number as two words, and an empty nonce. -/
def counter (number : UInt64) : Vector UInt32 4 :=
  let high := (number >>> 32).toUInt32
  Vector.mk #[number.toUInt32, high, 0, 0] rfl

/-- The block before the rounds. -/
def initialBlock (key : Key) (number : UInt64) : Block := constants ++ key ++ counter number

/-- Block `number` of the stream of `key`. -/
def block (key : Key) (number : UInt64) : Block :=
  let start := initialBlock key number
  let mixed := Nat.repeat doubleRound 6 start
  Vector.zipWith (· + ·) mixed start

/-- The `index`-th 64-bit word of the stream of `key`. -/
def word (key : Key) (index : Nat) : UInt64 :=
  let b := block key (UInt64.ofNat (index / 8))
  let low := b.getD (2 * (index % 8)) 0
  let high := b.getD (2 * (index % 8) + 1) 0
  low.toUInt64 ||| (high.toUInt64 <<< 32)

/-- One step of the linear congruence that spreads a seed over a key. -/
def advance (state : UInt64) : UInt64 :=
  state * 6364136223846793005 + 11634580027462260723

/-- The key word read from a state of the congruence: the xor of its high bits, rotated right by
its highest five bits. -/
def permuted (state : UInt64) : UInt32 :=
  let x := (((state >>> 18) ^^^ state) >>> 27).toUInt32
  let r := (state >>> 59).toUInt32
  (x >>> r) ||| (x <<< ((32 - r) % 32))

/-- The key of a seed. -/
def keyOfSeed (seed : UInt64) : Key :=
  Vector.ofFn fun i => permuted (Nat.repeat advance (i.val + 1) seed)

end Metropolis.ChaCha
