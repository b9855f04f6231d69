
namespace Esoterica

structure SplitMix where
  state : UInt64
  deriving DecidableEq, Repr

namespace SplitMix

def gamma : UInt64 := 0x9E3779B97F4A7C15

def mix (z : UInt64) : UInt64 :=
  let z := (z ^^^ (z >>> 30)) * 0xBF58476D1CE4E5B9
  let z := (z ^^^ (z >>> 27)) * 0x94D049BB133111EB
  z ^^^ (z >>> 31)

def next64 (g : SplitMix) : UInt64 × SplitMix :=
  let state := g.state + gamma
  (mix state, ⟨state⟩)

def next32 (g : SplitMix) : UInt32 × SplitMix :=
  let (word, g) := g.next64
  ((word >>> 32).toUInt32, g)

def bytesOf (count : Nat) (word : Nat) : List UInt8 :=
  (List.range count).map fun i => (word >>> (8 * i)).toUInt8

-- The next `count` bytes. Whole words come first; of what is left, up to four bytes are taken
-- from the upper half of another word, and more from the whole of it.
def fill (count : Nat) (g : SplitMix) : List UInt8 × SplitMix :=
  if 8 ≤ count then
    let (word, g) := g.next64
    let (rest, g) := fill (count - 8) g
    (bytesOf 8 word.toNat ++ rest, g)
  else if 4 < count then
    let (word, g) := g.next64
    (bytesOf count word.toNat, g)
  else if 0 < count then
    let (word, g) := g.next32
    (bytesOf count word.toNat, g)
  else ([], g)
termination_by count

-- The generator whose state is given by bytes, the lowest first.
def ofBytes (bytes : List UInt8) : SplitMix :=
  ⟨(bytes.foldr (fun (b : UInt8) acc => acc * 256 + b.toNat) 0).toUInt64⟩

end SplitMix

end Esoterica
