/-!
# Random numbers

A stream of numbers without a pattern that is the same every time. The generator has a state of 128 bits, which a step
multiplies and adds to; what it gives is half of the state folded onto the other half and rotated by its highest bits.
The state at the start is a seed that has been hashed into a pool of four words.
-/

namespace Isolate

structure Random where
  state : BitVec 128
  increment : BitVec 128
  deriving DecidableEq, Repr

namespace Random

/-! ## Hashing -/

/-- A hash of words one after the other; every word changes what the next one is hashed with. -/
structure Hash where
  constant : UInt32
  multiplier : UInt32

namespace Hash

/-- Hashes a word. -/
def next (h : Hash) (word : UInt32) : UInt32 × Hash :=
  let constant := h.constant * h.multiplier
  let hashed := (word ^^^ h.constant) * constant
  (hashed ^^^ (hashed >>> 16), { h with constant })

/-- Hashes words in order. -/
def all (h : Hash) : List UInt32 → List UInt32 × Hash
  | [] => ([], h)
  | word :: words =>
    let (hashed, h) := h.next word
    let (rest, h) := h.all words
    (hashed :: rest, h)

/-- What the pool is filled with. -/
def filling : Hash := ⟨0x43b0d7e5, 0x931e8875⟩

/-- What is drawn from the pool. -/
def drawing : Hash := ⟨0x8b51f9dd, 0x58f38ded⟩

end Hash

/-- Mixes a hashed word into another one. -/
def mix (word hashed : UInt32) : UInt32 :=
  let mixed := 0xca01f9dd * word - 0x4973f715 * hashed
  mixed ^^^ (mixed >>> 16)

/-- Mixes the word at a place into all others. -/
def spread (place : Nat) (pool : List UInt32) (h : Hash) : List UInt32 × Hash :=
  (List.range pool.length).foldl (fun (pool, h) i =>
    if i = place then (pool, h)
    else
      let (hashed, h) := h.next (pool.getD place 0)
      (pool.set i (mix (pool.getD i 0) hashed), h)) (pool, h)

/-- The pool of a seed. -/
def pool (seed : UInt32) : List UInt32 :=
  let start := Hash.filling.all [seed, 0, 0, 0]
  ((List.range 4).foldl (fun (pool, h) i => spread i pool h) start).1

/-- Words put together, the lowest first. -/
def joined (words : List UInt32) : BitVec 128 :=
  words.foldr (fun word bits => bits <<< 32 ||| word.toBitVec.zeroExtend 128) 0

/-! ## Steps -/

def multiplier : BitVec 128 := 0x2360ed051fc65da44385df649fccf645

def step (r : Random) : Random := { r with state := r.state * multiplier + r.increment }

/-- The generator of a seed. -/
def ofSeed (seed : UInt32) : Random :=
  match (Hash.drawing.all (pool seed ++ pool seed)).1 with
  | [a, b, c, d, e, f, g, h] =>
    let start := step ⟨0, joined [g, h, e, f] <<< 1 ||| 1⟩
    step { start with state := start.state + joined [c, d, a, b] }
  | _ => ⟨0, 1⟩

/-- The 64 bits that a state gives. -/
def output (r : Random) : BitVec 64 :=
  let high := (r.state >>> 64).truncate 64
  let low := r.state.truncate 64
  (high ^^^ low).rotateRight (r.state >>> 122).toNat

/-- So many numbers from zero to one, without one, each with 53 binary digits. -/
def units : Nat → Random → List Rat
  | 0, _ => []
  | n + 1, r =>
    let r := r.step
    mkRat (r.output >>> 11).toNat (Nat.pow 2 53) :: units n r

end Random

end Isolate
