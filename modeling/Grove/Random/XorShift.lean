import Grove.Random

/-! The xorshift generator with 128 bits of state. The state is never all zero; a seed that would make
it so stands for a fixed other one. -/

namespace Grove

structure XorShift where
  x : UInt32
  y : UInt32
  z : UInt32
  w : UInt32
  deriving DecidableEq

namespace XorShift

def next (s : XorShift) : UInt32 × XorShift :=
  let t := s.x ^^^ (s.x <<< 11)
  let w := s.w ^^^ (s.w >>> 19) ^^^ t ^^^ (t >>> 8)
  (w, ⟨s.y, s.z, s.w, w⟩)

instance : WordSource XorShift := ⟨next⟩

def ofWords (x y z w : UInt32) : XorShift :=
  if x = 0 ∧ y = 0 ∧ z = 0 ∧ w = 0 then ⟨0xBAD5EED, 0xBAD5EED, 0xBAD5EED, 0xBAD5EED⟩ else ⟨x, y, z, w⟩

def rotateRight (v r : UInt32) : UInt32 := (v >>> r) ||| (v <<< (32 - r))

/-- The next number of the sequence that spreads a short seed over the state. -/
def spread (s : UInt64) : UInt64 := s * 6364136223846793005 + 11634580027462260723

def spreadWord (s : UInt64) : UInt32 :=
  rotateRight (((s >>> 18) ^^^ s) >>> 27).toUInt32 (s >>> 59).toUInt32

def ofSeed (seed : UInt64) : XorShift :=
  let a := spread seed
  let b := spread a
  let c := spread b
  let d := spread c
  ofWords (spreadWord a) (spreadWord b) (spreadWord c) (spreadWord d)

/-- A word from its bytes, the lowest first. -/
def wordOfBytes (a b c d : UInt32) : UInt32 := a + (b <<< 8) + (c <<< 16) + (d <<< 24)

/-- A byte is the low one of a word. -/
def byte {σ : Type} [WordSource σ] : Draw σ UInt32 := return (← Draw.word) &&& 0xFF

def drawWord {σ : Type} [WordSource σ] : Draw σ UInt32 := do
  let a ← byte
  let b ← byte
  let c ← byte
  let d ← byte
  return wordOfBytes a b c d

/-- A new generator seeded by another source. -/
def draw {σ : Type} [WordSource σ] : Draw σ XorShift := do
  let x ← drawWord
  let y ← drawWord
  let z ← drawWord
  let w ← drawWord
  return ofWords x y z w

end XorShift
end Grove
