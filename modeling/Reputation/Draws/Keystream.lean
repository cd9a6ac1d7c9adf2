/-!
# A deterministic stream of draws

The ChaCha stream cipher with twelve rounds, as a source of random words: `Keystream.seeded` makes
its key from a seed, `Keystream.next` gives the next 64-bit word. Blocks are made one at a time, from
a key and a block counter.
-/

namespace Reputation

/-- **A stream of random words**: the key, the number of the next block and the words left of the
last one. -/
structure Keystream where
  key : List UInt32
  block : UInt64
  rest : List UInt32
deriving Repr, Inhabited

namespace Keystream

/-! ### Seeds -/

/-- One step of the generator that spreads a seed over a key. -/
def spread (state : UInt64) : UInt64 := state * 6364136223846793005 + 11634580027462260723

/-- A word rotated right. -/
def rotateRight (x : UInt32) (n : UInt32) : UInt32 := (x >>> n) ||| (x <<< (32 - n))

/-- The word that a state of the generator gives: its upper bits, permuted by the topmost ones. -/
def permuted (state : UInt64) : UInt32 :=
  rotateRight (((state >>> 18) ^^^ state) >>> 27).toUInt32 (state >>> 59).toUInt32

/-- The key words made from a seed. -/
def keyWords : Nat → UInt64 → List UInt32
  | 0, _ => []
  | n + 1, state => permuted (spread state) :: keyWords n (spread state)

/-- The stream of a seed. -/
def seeded (seed : UInt64) : Keystream := ⟨keyWords 8 seed, 0, []⟩

/-! ### Blocks -/

/-- A word rotated left. -/
def rotateLeft (x : UInt32) (n : UInt32) : UInt32 := (x <<< n) ||| (x >>> (32 - n))

/-- Mixes four words of a block. -/
def quarterRound (s : Vector UInt32 16) (i j k l : Fin 16) : Vector UInt32 16 :=
  let a := s[i] + s[j]
  let d := rotateLeft (s[l] ^^^ a) 16
  let c := s[k] + d
  let b := rotateLeft (s[j] ^^^ c) 12
  let a := a + b
  let d := rotateLeft (d ^^^ a) 8
  let c := c + d
  let b := rotateLeft (b ^^^ c) 7
  (((s.set i a).set j b).set k c).set l d

/-- Mixes the columns of a block and then its diagonals. -/
def doubleRound (s : Vector UInt32 16) : Vector UInt32 16 :=
  let s := quarterRound s 0 4 8 12
  let s := quarterRound s 1 5 9 13
  let s := quarterRound s 2 6 10 14
  let s := quarterRound s 3 7 11 15
  let s := quarterRound s 0 5 10 15
  let s := quarterRound s 1 6 11 12
  let s := quarterRound s 2 7 8 13
  quarterRound s 3 4 9 14

/-- The words `expand 32-byte k` that a block starts with. -/
def constants : List UInt32 := [0x61707865, 0x3320646e, 0x79622d32, 0x6b206574]

/-- The state of a block before mixing: constants, key, counter and two zeros. -/
def blockState (key : List UInt32) (block : UInt64) : Vector UInt32 16 :=
  let words := constants ++ key ++ [block.toUInt32, (block >>> 32).toUInt32, 0, 0]
  Vector.ofFn fun i => words.getD i 0

/-- The words of a block: six double rounds, and the state before them added again. -/
def blockWords (key : List UInt32) (block : UInt64) : List UInt32 :=
  let start := blockState key block
  let mixed := (List.range 6).foldl (fun s _ => doubleRound s) start
  (Vector.zipWith (· + ·) mixed start).toList

/-- The next two words of the stream, the lower one first, as one. -/
def next (s : Keystream) : UInt64 × Keystream :=
  match s.rest with
  | low :: high :: rest => (low.toUInt64 ||| (high.toUInt64 <<< 32), { s with rest })
  | _ =>
    match blockWords s.key s.block with
    | low :: high :: rest =>
      (low.toUInt64 ||| (high.toUInt64 <<< 32), { s with block := s.block + 1, rest })
    | _ => (0, s)

end Keystream

end Reputation
