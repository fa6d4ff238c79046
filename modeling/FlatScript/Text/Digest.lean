/-!
# A 64-bit digest of a text

The digest that short variable names are cut from: the input is read in stripes of 32
bytes into four accumulators, the rest in words of eight, four and one bytes, and the
result is mixed at the end.

Nothing else in the library depends on which function this is; only the texts of the
short names do.
-/

namespace FlatScript.Text.Digest

/-- The five odd constants of the mixing steps. -/
def prime1 : UInt64 := 11400714785074694791

@[inherit_doc prime1]
def prime2 : UInt64 := 14029467366897019727

@[inherit_doc prime1]
def prime3 : UInt64 := 1609587929392839161

@[inherit_doc prime1]
def prime4 : UInt64 := 9650029242287828579

@[inherit_doc prime1]
def prime5 : UInt64 := 2870177450012600261

/-- Rotation to the left. -/
def rotate (x : UInt64) (k : UInt64) : UInt64 := (x <<< k) ||| (x >>> (64 - k))

/-- The word whose bytes, lowest first, are the given ones. -/
def word (bytes : List UInt8) : UInt64 :=
  bytes.foldr (fun b acc => (acc <<< 8) ||| b.toUInt64) 0

/-- One accumulator takes one word. -/
def round (acc lane : UInt64) : UInt64 := rotate (acc + lane * prime2) 31 * prime1

/-- The result takes one accumulator. -/
def mergeRound (acc value : UInt64) : UInt64 :=
  (acc ^^^ round 0 value) * prime1 + prime4

/-- The four accumulators. -/
structure Lanes where
  /-- The accumulators of the words at offsets 0, 8, 16 and 24 of a stripe. -/
  (a b c d : UInt64)

/-- The accumulators before the first stripe. -/
def Lanes.initial : Lanes := ⟨prime1 + prime2, prime2, 0, 0 - prime1⟩

/-- The accumulators take one stripe of 32 bytes. -/
def Lanes.absorb (l : Lanes) (stripe : List UInt8) : Lanes where
  a := round l.a (word (stripe.take 8))
  b := round l.b (word ((stripe.drop 8).take 8))
  c := round l.c (word ((stripe.drop 16).take 8))
  d := round l.d (word ((stripe.drop 24).take 8))

/-- The accumulators take `n` stripes from the front of a text. -/
def Lanes.absorbAll (l : Lanes) : Nat → List UInt8 → Lanes
  | 0, _ => l
  | n + 1, bytes => (l.absorb (bytes.take 32)).absorbAll n (bytes.drop 32)

/-- The accumulators joined into one word. -/
def Lanes.join (l : Lanes) : UInt64 :=
  let sum := rotate l.a 1 + rotate l.b 7 + rotate l.c 12 + rotate l.d 18
  mergeRound (mergeRound (mergeRound (mergeRound sum l.a) l.b) l.c) l.d

/-- The words of eight bytes after the stripes. -/
def absorbWords (h : UInt64) : Nat → List UInt8 → UInt64
  | 0, _ => h
  | n + 1, bytes =>
    absorbWords (rotate (h ^^^ round 0 (word (bytes.take 8))) 27 * prime1 + prime4) n
      (bytes.drop 8)

/-- A half word of four bytes, if it is there. -/
def absorbHalf (h : UInt64) (bytes : List UInt8) : UInt64 :=
  rotate (h ^^^ (word bytes * prime1)) 23 * prime2 + prime3

/-- The single bytes at the end. -/
def absorbBytes (h : UInt64) (bytes : List UInt8) : UInt64 :=
  bytes.foldl (fun acc b => rotate (acc ^^^ (b.toUInt64 * prime5)) 11 * prime1) h

/-- The last mixing. -/
def avalanche (h : UInt64) : UInt64 :=
  let h := (h ^^^ (h >>> 33)) * prime2
  let h := (h ^^^ (h >>> 29)) * prime3
  h ^^^ (h >>> 32)

/-- The digest of a list of bytes. -/
def ofBytes (bytes : List UInt8) : UInt64 :=
  let size := bytes.length
  let stripes := size / 32
  let h := if stripes = 0 then prime5 else (Lanes.initial.absorbAll stripes bytes).join
  let h := h + UInt64.ofNat size
  let tail := bytes.drop (32 * stripes)
  let words := tail.length / 8
  let h := absorbWords h words tail
  let tail := tail.drop (8 * words)
  if 4 ≤ tail.length then avalanche (absorbBytes (absorbHalf h (tail.take 4)) (tail.drop 4))
  else avalanche (absorbBytes h tail)

end Digest

/-- **The digest of a text**, over its encoded bytes. -/
def digest (s : String) : UInt64 := Digest.ofBytes s.toUTF8.toList

end FlatScript.Text
