import Unodb.Key
import Unodb.Util.Endian
import Unodb.Util.Ieee
import Mathlib.Data.Nat.Log

/-!
# `key_encoder` and `key_decoder`

The encoder appends the components of a key to a buffer that it replaces by a larger one when it is
full; the decoder reads them back.  Numbers are the words that hold them.
-/

open Endian

namespace Unodb

/-- The widths of the integer types. -/
inductive IntWidth where
  | b8
  | b16
  | b32
  | b64
deriving DecidableEq, Repr

/-- `sizeof`. -/
def IntWidth.bytes : IntWidth → Nat
  | .b8 => 1
  | .b16 => 2
  | .b32 => 4
  | .b64 => 8

def IntWidth.bits (w : IntWidth) : Nat := 8 * w.bytes

/-- `msb8`, `msb16`, `msb32` and `msb64`, also `msb<U>()`. -/
def IntWidth.msb (w : IntWidth) : BitVec w.bits := 1#w.bits <<< (w.bits - 1)

/-- The numeric types of key components. -/
inductive NumType where
  | unsigned (w : IntWidth)
  | signed (w : IntWidth)
  | float
  | double
deriving DecidableEq, Repr

/-- The integer type that holds a value of the type. -/
def NumType.word : NumType → IntWidth
  | .unsigned w | .signed w => w
  | .float => .b32
  | .double => .b64

/-- A number: its type and the bits of its value, in two's complement for a signed integer. -/
structure Number where
  type : NumType
  bits : BitVec type.word.bits

/-- A component of a key. -/
inductive Component where
  | number (n : Number)
  | text (t : List UInt8)

/-! ## 1. Words -/

section Floating

variable {w : IntWidth} (format : Ieee.Format)

/-- `encode_floating_point`. -/
def encodeFloatingPoint (x : BitVec w.bits) : BitVec w.bits :=
  -- All NaNs become one, above every other pattern.
  if Ieee.isNaN format x.toNat then BitVec.allOnes w.bits
  else if Ieee.isInf format x.toNat then
    -- The infinities have the words next to the ends.
    if Ieee.signBit format x.toNat = false then BitVec.allOnes w.bits - 1 else 0
  -- A positive number goes above the middle; the order of a negative one is turned round.
  else if x &&& w.msb = 0 then x ||| w.msb
  else ~~~x

/-- The pattern of `quiet_NaN()`. -/
def quietNaN : BitVec w.bits :=
  BitVec.ofNat w.bits (format.infinity + 2 ^ (format.fracBits - 1))

/-- `decode_floating_point`. -/
def decodeFloatingPoint (input : BitVec w.bits) : BitVec w.bits :=
  if input = BitVec.allOnes w.bits then quietNaN format
  -- The second highest word is positive infinity, the lowest one negative infinity.
  else if input = BitVec.allOnes w.bits - 1 then BitVec.ofNat w.bits format.infinity
  else if input = 0 then BitVec.ofNat w.bits (format.half + format.infinity)
  else if input &&& w.msb ≠ 0 then input ^^^ w.msb
  else ~~~input

end Floating

/-- `float`. -/
def singleFormat : Ieee.Format := ⟨8, 23, by decide, by decide⟩

/-- `double`. -/
def doubleFormat : Ieee.Format := ⟨11, 52, by decide, by decide⟩

/-- The unsigned integer that `encode` of a signed one passes on. -/
def encodeSigned {w : IntWidth} (v : BitVec w.bits) : BitVec w.bits :=
  if 0 ≤ v.toInt then w.msb + v else w.msb - (-(v + 1)) - 1

/-- The signed integer that `decode` makes of an unsigned one.  The 8- and 16-bit versions
    complement the distance from the middle, the 32- and 64-bit versions negate it and subtract
    one. -/
def decodeSigned {w : IntWidth} (u : BitVec w.bits) : BitVec w.bits :=
  if w.msb ≤ u then u - w.msb
  else if w = .b8 ∨ w = .b16 then ~~~(w.msb - 1 - u)
  else -(w.msb - 1 - u) - 1

/-- The unsigned integer that a number is encoded as. -/
def encodeWord : (type : NumType) → BitVec type.word.bits → BitVec type.word.bits
  | .unsigned _, v => v
  | .signed _, v => encodeSigned v
  | .float, v => encodeFloatingPoint singleFormat v
  | .double, v => encodeFloatingPoint doubleFormat v

/-- The number that an unsigned integer is decoded to. -/
def decodeWord : (type : NumType) → BitVec type.word.bits → BitVec type.word.bits
  | .unsigned _, u => u
  | .signed _, u => decodeSigned u
  | .float, u => decodeFloatingPoint singleFormat u
  | .double, u => decodeFloatingPoint doubleFormat u

/-! ## 2. The encoder -/

/-- The buffer, of which the first `off` bytes hold the key. -/
structure KeyEncoder where
  buf : List UInt8
  off : Nat
  off_le : off ≤ buf.length

namespace KeyEncoder

/-- `INITIAL_BUFFER_CAPACITY`. -/
def initialBufferCapacity : Nat := 256

/-- A new encoder; `ibuf` is what its internal buffer happens to hold. -/
def new (ibuf : List UInt8) : KeyEncoder := ⟨ibuf, 0, Nat.zero_le _⟩

def getKeyView (e : KeyEncoder) : List UInt8 := e.buf.take e.off

def reset (e : KeyEncoder) : KeyEncoder := { e with off := 0, off_le := Nat.zero_le _ }

/-- `std::bit_ceil`. -/
def bitCeil (n : Nat) : Nat := 2 ^ Nat.clog 2 n

/-- `ensure_capacity`: a new buffer, with the key copied over. -/
def ensureCapacity (e : KeyEncoder) (minCapacity : Nat) : KeyEncoder where
  buf := e.buf.take e.off ++ List.replicate (bitCeil minCapacity - e.off) 0
  off := e.off
  off_le := by
    have := e.off_le
    rw [List.length_append, List.length_take]
    omega

def ensureAvailable (e : KeyEncoder) (req : Nat) : KeyEncoder :=
  if e.buf.length < e.off + req then e.ensureCapacity (e.off + req) else e

/-- `std::memcpy` to the end of the key. -/
def write (e : KeyEncoder) (data : List UInt8) : Except Fault KeyEncoder :=
  if e.off + data.length ≤ e.buf.length then
    .ok {
      buf := e.buf.take e.off ++ data ++ e.buf.drop (e.off + data.length)
      off := e.off + data.length
      off_le := by
        have := e.off_le
        simp only [List.length_append, List.length_take, List.length_drop]
        omega }
  else .error .badAccess

def appendBytes (e : KeyEncoder) (data : List UInt8) : Except Fault KeyEncoder :=
  (e.ensureAvailable data.length).write data

/-- `encode` of an unsigned integer. -/
def encodeUnsigned (e : KeyEncoder) (w : IntWidth) (v : BitVec w.bits) : Except Fault KeyEncoder :=
  let e := e.ensureAvailable w.bytes
  if w = .b8 then e.write [UInt8.ofNat v.toNat]
  else e.write (leBytes w.bytes (Endian.bswap w.bytes v.toNat))

/-- `encode` of a number. -/
def encode (e : KeyEncoder) (n : Number) : Except Fault KeyEncoder :=
  e.encodeUnsigned n.type.word (encodeWord n.type n.bits)

def pad : UInt8 := 0x00

/-- `maxlen`. -/
def maxlen : Nat := 2 ^ 16 - 1 - 1 - 2

/-- The loop that finds the end of a text without its trailing pad bytes. -/
def unpadded (text : List UInt8) : Nat → Nat
  | 0 => 0
  | sz + 1 => if text[sz]? ≠ some pad then sz + 1 else unpadded text sz

def encodeText (e : KeyEncoder) (text : List UInt8) : Except Fault KeyEncoder := do
  let text := if maxlen < text.length then text.take maxlen else text
  let sz := unpadded text text.length
  let text := text.take sz
  let e := e.ensureAvailable (sz + 1 + 2)
  let padlen := BitVec.ofNat IntWidth.b16.bits (maxlen - sz)
  let e ← e.appendBytes text
  let e ← e.encodeUnsigned .b8 (BitVec.ofNat IntWidth.b8.bits pad.toNat)
  e.encodeUnsigned .b16 padlen

def encodeComponent (e : KeyEncoder) : Component → Except Fault KeyEncoder
  | .number n => e.encode n
  | .text t => e.encodeText t

/-- The components of a key, one call after the other. -/
def encodeAll (e : KeyEncoder) (cs : List Component) : Except Fault KeyEncoder :=
  cs.foldlM encodeComponent e

end KeyEncoder

/-! ## 3. The decoder -/

/-- The key and the offset up to which it has been read. -/
structure KeyDecoder where
  buf : List UInt8
  off : Nat := 0

namespace KeyDecoder

/-- `std::memcpy` from the offset on. -/
def read (d : KeyDecoder) (n : Nat) : Except Fault (List UInt8 × KeyDecoder) :=
  if d.off + n ≤ d.buf.length then .ok ((d.buf.drop d.off).take n, { d with off := d.off + n })
  else .error .badAccess

/-- `decode` of an unsigned integer. -/
def decodeUnsigned (d : KeyDecoder) (w : IntWidth) : Except Fault (BitVec w.bits × KeyDecoder) := do
  let (bytes, d) ← d.read w.bytes
  let v := if w = .b8 then ofLeBytes bytes else Endian.bswap w.bytes (ofLeBytes bytes)
  return (BitVec.ofNat w.bits v, d)

/-- `decode` of a number. -/
def decode (d : KeyDecoder) (type : NumType) : Except Fault (Number × KeyDecoder) := do
  let (u, d) ← d.decodeUnsigned type.word
  return (⟨type, decodeWord type u⟩, d)

/-- Numbers of the given types, one call after the other. -/
def decodeAll (d : KeyDecoder) : List NumType → Except Fault (List Number × KeyDecoder)
  | [] => return ([], d)
  | type :: types => do
    let (n, d) ← d.decode type
    let (ns, d) ← d.decodeAll types
    return (n :: ns, d)

end KeyDecoder

end Unodb
