import BinaryQuadratic.Random.Congruential
import BinaryQuadratic.Random.Generator

set_option autoImplicit false

/-! A generator from the key stream of the ChaCha cipher with eight rounds. A block is a function of
the key and the block number; its sixteen words are used in order and none is skipped. -/

namespace BinaryQuadratic

structure KeyStream where
  key : Vector UInt32 8
  block : UInt64
  pending : List UInt32

namespace KeyStream

def rotateLeft (word count : UInt32) : UInt32 := (word <<< count) ||| (word >>> (32 - count))

def rotateRight (word count : UInt32) : UInt32 := (word >>> count) ||| (word <<< (32 - count))

def quarterRound (a b c d : Fin 16) (s : Vector UInt32 16) : Vector UInt32 16 :=
  let s := s.set a (s[a] + s[b])
  let s := s.set d (rotateLeft (s[d] ^^^ s[a]) 16)
  let s := s.set c (s[c] + s[d])
  let s := s.set b (rotateLeft (s[b] ^^^ s[c]) 12)
  let s := s.set a (s[a] + s[b])
  let s := s.set d (rotateLeft (s[d] ^^^ s[a]) 8)
  let s := s.set c (s[c] + s[d])
  s.set b (rotateLeft (s[b] ^^^ s[c]) 7)

/-- The four columns, then the four diagonals. -/
def doubleRound (s : Vector UInt32 16) : Vector UInt32 16 :=
  s |> quarterRound 0 4 8 12 |> quarterRound 1 5 9 13 |> quarterRound 2 6 10 14
    |> quarterRound 3 7 11 15 |> quarterRound 0 5 10 15 |> quarterRound 1 6 11 12
    |> quarterRound 2 7 8 13 |> quarterRound 3 4 9 14

def initialWords (key : Vector UInt32 8) (block : UInt64) : Vector UInt32 16 :=
  (#v[0x61707865, 0x3320646e, 0x79622d32, 0x6b206574] : Vector UInt32 4) ++ key ++
    (#v[block.toUInt32, (block >>> 32).toUInt32, 0, 0] : Vector UInt32 4)

def blockWords (key : Vector UInt32 8) (block : UInt64) : Vector UInt32 16 :=
  let start := initialWords key block
  (4).repeat doubleRound start |>.zipWith (· + ·) start

def nextWord (g : KeyStream) : UInt32 × KeyStream :=
  match g.pending with
  | word :: rest => (word, { g with pending := rest })
  | [] =>
    let words := blockWords g.key g.block
    (words[0], { g with block := g.block + 1, pending := words.toList.tail })

def nextPair (g : KeyStream) : UInt64 × KeyStream :=
  let (low, g) := nextWord g
  let (high, g) := nextWord g
  (low.toUInt64 ||| (high.toUInt64 <<< 32), g)

instance : Generator KeyStream := ⟨nextWord, nextPair⟩

/-- Key words by a xorshift and a rotation of a congruential state, the rotation from its top bits. -/
def keyWords : (count : Nat) → UInt64 → List UInt32
  | 0, _ => []
  | count + 1, state =>
    let state := Congruential.step 11634580027462260723 state
    let mixed := (((state >>> 18) ^^^ state) >>> 27).toUInt32
    rotateRight mixed (state >>> 59).toUInt32 :: keyWords count state

@[simp] theorem length_keyWords (count : Nat) (state : UInt64) :
    (keyWords count state).length = count := by
  induction count generalizing state with
  | zero => rfl
  | succ count ih => simp [keyWords, ih]

def ofSeed (seed : UInt64) : KeyStream :=
  ⟨⟨(keyWords 8 seed).toArray, by simp [length_keyWords]⟩, 0, []⟩

end KeyStream

end BinaryQuadratic
