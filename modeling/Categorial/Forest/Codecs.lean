import Categorial.Forest.Store
set_option autoImplicit false

/-!
Codecs that make data no shorter, in the formats of zstd and xz: a zstd frame of raw blocks, and an xz stream of one
block with chunks that are not compressed. They read only what they have written.
-/

namespace Categorial

def Codec.framing (frame payload : List UInt8 → List UInt8) : Codec where
  pack := frame
  unpack bytes := if frame (payload bytes) = bytes then some (payload bytes) else none

theorem Codec.unpack_framing {frame payload : List UInt8 → List UInt8} (h : ∀ bytes, payload (frame bytes) = bytes)
    (bytes : List UInt8) : (framing frame payload).unpack ((framing frame payload).pack bytes) = some bytes := by
  simp only [framing, h, if_true]

namespace Zstd

def blockSize : Nat := 131072

/-- The head of a raw block: whether it is the last one, and its size. -/
def blockHead (last : Bool) (size : Nat) : List UInt8 := Wire.writeWord 3 (8 * size + if last then 1 else 0)

def blocks (bytes : List UInt8) : List UInt8 :=
  if bytes.length ≤ blockSize then blockHead true bytes.length ++ bytes
  else blockHead false blockSize ++ bytes.take blockSize ++ blocks (bytes.drop blockSize)
termination_by bytes.length
decreasing_by
  rw [List.length_drop, blockSize]
  omega

def blockPayload (bytes : List UInt8) : List UInt8 :=
  match bytes with
  | a :: b :: c :: rest =>
    let head := a.toNat + 256 * b.toNat + 65536 * c.toNat
    rest.take (head / 8) ++ if head % 2 = 1 then [] else blockPayload (rest.drop (head / 8))
  | _ => []
termination_by bytes.length
decreasing_by
  simp only [List.length_drop, List.length_cons]
  omega

/-- The signature, and a descriptor which says that the size of the contents follows in eight bytes. -/
def frameHead : List UInt8 := [0x28, 0xB5, 0x2F, 0xFD, 0xE0]

def frame (bytes : List UInt8) : List UInt8 := frameHead ++ Wire.word64.write bytes.length ++ blocks bytes

def raw : Codec := .framing frame fun bytes => blockPayload (bytes.drop 13)

end Zstd

namespace Xz

def crcBits : Nat → UInt32 → UInt32
  | 0, crc => crc
  | n + 1, crc => crcBits n (if crc % 2 = 1 then (crc >>> 1) ^^^ 0xEDB88320 else crc >>> 1)

def checksum (bytes : List UInt8) : List UInt8 :=
  let crc := bytes.foldl (fun crc b => crcBits 8 (crc ^^^ b.toUInt32)) 0xFFFFFFFF ^^^ 0xFFFFFFFF
  Wire.word32.write crc.toNat

def padded (bytes : List UInt8) : List UInt8 := bytes ++ List.replicate ((4 - bytes.length % 4) % 4) 0

def sealed (bytes : List UInt8) : List UInt8 := bytes ++ checksum bytes

def chunkSize : Nat := 65536

/-- The head of a chunk that is not compressed; the first one says that there is nothing before it. -/
def chunkHead (first : Bool) (size : Nat) : List UInt8 :=
  [if first then 1 else 2, UInt8.ofNat ((size - 1) / 256), UInt8.ofNat (size - 1)]

def chunks (first : Bool) (bytes : List UInt8) : List UInt8 :=
  if bytes.length = 0 then [0]
  else chunkHead first (min chunkSize bytes.length) ++ bytes.take chunkSize ++ chunks false (bytes.drop chunkSize)
termination_by bytes.length
decreasing_by
  rw [List.length_drop, chunkSize]
  omega

def chunkPayload (bytes : List UInt8) : List UInt8 :=
  match bytes with
  | control :: high :: low :: rest =>
    if control = 0 then []
    else
      let size := 256 * high.toNat + low.toNat + 1
      rest.take size ++ chunkPayload (rest.drop size)
  | _ => []
termination_by bytes.length
decreasing_by
  simp only [List.length_drop, List.length_cons]
  omega

def varint (n : Nat) : List UInt8 :=
  if n < 128 then [UInt8.ofNat n] else UInt8.ofNat (128 + n % 128) :: varint (n / 128)

def flags : List UInt8 := [0, 1]

def streamHead : List UInt8 := [0xFD, 0x37, 0x7A, 0x58, 0x5A, 0x00] ++ sealed flags

/-- A head of twelve bytes for one filter, LZMA2 with a dictionary of 64 KiB. -/
def blockHead : List UInt8 := sealed [2, 0, 0x21, 1, 8, 0, 0, 0]

/-- The sizes of the only block, and where the stream ends. -/
def tail (unpadded size : Nat) : List UInt8 :=
  let index := sealed (padded ([0, 1] ++ varint unpadded ++ varint size))
  let foot := Wire.word32.write (index.length / 4 - 1) ++ flags
  index ++ checksum foot ++ foot ++ [0x59, 0x5A]

def stream (bytes : List UInt8) : List UInt8 :=
  let block := blockHead ++ chunks true bytes
  streamHead ++ padded block ++ checksum bytes ++ tail (block.length + 4) bytes.length

def raw : Codec := .framing stream fun bytes => chunkPayload (bytes.drop 24)

end Xz

def Compressor.raw : Compressor := ⟨Zstd.raw, Xz.raw⟩

end Categorial
