/-!
# SipHash-2-4

The keyed hash that CPython uses for strings.  The key is drawn for every process.
-/

namespace Lib
namespace SipHash

structure Lanes where
  v0 : UInt64
  v1 : UInt64
  v2 : UInt64
  v3 : UInt64

def rotl (x : UInt64) (k : UInt64) : UInt64 := (x <<< k) ||| (x >>> (64 - k))

def round (s : Lanes) : Lanes :=
  let a0 := s.v0 + s.v1
  let a2 := s.v2 + s.v3
  let a1 := rotl s.v1 13 ^^^ a0
  let a3 := rotl s.v3 16 ^^^ a2
  let b2 := a2 + a1
  let b0 := rotl a0 32 + a3
  ⟨b0, rotl a1 17 ^^^ b2, rotl b2 32, rotl a3 21 ^^^ b0⟩

/-- One message word. -/
def compress (s : Lanes) (m : UInt64) : Lanes :=
  let t := round (round { s with v3 := s.v3 ^^^ m })
  { t with v0 := t.v0 ^^^ m }

/-- A word from its bytes, lowest first. -/
def wordOf (bytes : List Nat) : UInt64 :=
  UInt64.ofNat (bytes.foldr (fun b n => b + 256 * n) 0)

/-- The words of the message; `fuel` bounds their number.  The last word carries the
length of the message. -/
def words (len : Nat) : Nat → List Nat → List UInt64
  | 0, _ => []
  | fuel + 1, bytes =>
    if bytes.length < 8 then [wordOf (bytes ++ List.replicate (7 - bytes.length) 0 ++ [len % 256])]
    else wordOf (bytes.take 8) :: words len fuel (bytes.drop 8)

def start (k0 k1 : UInt64) : Lanes :=
  ⟨k0 ^^^ 0x736f6d6570736575, k1 ^^^ 0x646f72616e646f6d, k0 ^^^ 0x6c7967656e657261,
    k1 ^^^ 0x7465646279746573⟩

def sipHash24 (k0 k1 : UInt64) (bytes : List Nat) : UInt64 :=
  let s := (words bytes.length (bytes.length + 1) bytes).foldl compress (start k0 k1)
  let t := round (round (round (round { s with v2 := s.v2 ^^^ 0xff })))
  t.v0 ^^^ t.v1 ^^^ t.v2 ^^^ t.v3

example : sipHash24 0x0706050403020100 0x0f0e0d0c0b0a0908 (List.range 15) =
    0xa129ca6149be45e5 := by decide +kernel

end SipHash
end Lib
