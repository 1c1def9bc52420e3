import Categorial.Config
import Categorial.Files
import Categorial.Forest.Basic
import Categorial.Wire
set_option autoImplicit false

/-!
Files of forests. A header names the format, its version and the compression; every forest is a record
of its own, compressed by itself, behind its length. So a store is read one forest at a time, and what
stands before a damaged place can still be read.
-/

namespace Categorial

/-! The bytes of a forest: its fields in order, numbers with 32 bits, counts of a list's members with 64 bits. -/

namespace ForestEdge

def wire : Wire ForestEdge :=
  (Wire.word32.list.both (Wire.word32.list.both .flag)).mapped
    (fun (children, features, gold) => ⟨children, features, gold⟩)
    (fun e => (e.children, e.features, e.gold))

end ForestEdge

namespace ForestRoot

def wire : Wire ForestRoot :=
  (Wire.word32.both (Wire.word32.list.both .flag)).mapped
    (fun (node, features, gold) => ⟨node, features, gold⟩)
    (fun r => (r.node, r.features, r.gold))

end ForestRoot

namespace Forest

def wire : Wire Forest :=
  (Wire.word32.both (ForestEdge.wire.list.list.both
    (ForestRoot.wire.list.both (Wire.word32.both .word32).list))).mapped
    (fun (sentence, nodes, roots, gold) => ⟨sentence, nodes, roots, gold⟩)
    (fun f => (f.sentence, f.nodes, f.roots, f.gold))

end Forest

/-- A way to compress bytes. -/
structure Codec where
  pack : List UInt8 → List UInt8
  unpack : List UInt8 → Option (List UInt8)

structure Compressor where
  zstd : Codec
  xz : Codec

namespace Compressor

def pack (k : Compressor) : Compression → List UInt8 → List UInt8
  | .none, bytes => bytes
  | .zstd, bytes => k.zstd.pack bytes
  | .xz, bytes => k.xz.pack bytes

def unpack (k : Compressor) : Compression → List UInt8 → Option (List UInt8)
  | .none, bytes => some bytes
  | .zstd, bytes => k.zstd.unpack bytes
  | .xz, bytes => k.xz.unpack bytes

end Compressor

structure ForestStore where
  compression : Compression
  /-- All bytes behind the header. -/
  contents : List UInt8
  /-- Those that have not been read. -/
  unread : List UInt8
  deriving Repr

namespace ForestStore

def magic : List UInt8 := "ccgbender forests\n".toList.map fun c => UInt8.ofNat c.toNat

def version : UInt8 := 1

def header (c : Compression) : List UInt8 := magic ++ [version, c.tag]

def record (k : Compressor) (path : String) (c : Compression) (f : Forest) :
    Except Error (List UInt8) :=
  let bytes := k.pack c (Forest.wire.write f)
  if bytes.length < Nat.pow 2 32 then .ok (Wire.word32.write bytes.length ++ bytes)
  else .error (.badContent path (.recordSize bytes.length))

def write (k : Compressor) (path : String) (c : Compression) (forests : List Forest) :
    Except Error (List UInt8) := do
  let records ← forests.mapM (record k path c)
  pure (header c ++ records.flatten)

def ofBytes (path : String) (bytes : List UInt8) : Except Error ForestStore :=
  if bytes.length < magic.length then .error .unreadable
  else if bytes.take magic.length ≠ magic then .error (.badContent path .noStore)
  else
    match bytes.drop magic.length with
    | v :: tag :: contents =>
      if v ≠ version then .error (.badContent path (.storeVersion v.toNat))
      else
        match Compression.ofTag? tag with
        | some c => .ok ⟨c, contents, contents⟩
        | none => .error (.badContent path (.compressionTag tag.toNat))
    | _ => .error .unreadable

def reset (s : ForestStore) : ForestStore := { s with unread := s.contents }

def forestOf (k : Compressor) (path : String) (c : Compression) (bytes : List UInt8) :
    Except Error Forest := do
  let plain ← (k.unpack c bytes).elim (.error .unreadable) .ok
  match Forest.wire.read plain with
  | none => throw .undecodable
  | some (f, []) => pure f
  | some _ => throw (.badContent path .recordRest)

def nextRecord (path : String) (bytes : List UInt8) :
    Except Error (Option (List UInt8 × List UInt8)) :=
  match bytes with
  | [] => .ok none
  | bytes =>
    match Wire.word32.read bytes with
    | none => .error (.badContent path (.recordHeader bytes.length))
    | some (n, rest) =>
      if rest.length < n then .error (.badContent path .recordBody)
      else .ok (some (rest.take n, rest.drop n))

/-- The next forest and the store behind it; `none` at the end. Only a place between two records is an
end. -/
def next (k : Compressor) (path : String) (s : ForestStore) :
    Except Error (Option (Forest × ForestStore)) := do
  match ← nextRecord path s.unread with
  | none => pure none
  | some (bytes, rest) =>
    let f ← forestOf k path s.compression bytes
    pure (some (f, { s with unread := rest }))

/-- The forests from here on, up to the first fault, and that fault. `fuel` bounds their number. -/
def readUpTo (k : Compressor) (path : String) : Nat → ForestStore → List Forest × Option Error
  | 0, _ => ([], none)
  | fuel + 1, s =>
    match s.next k path with
    | .error e => ([], some e)
    | .ok none => ([], none)
    | .ok (some (f, s)) =>
      let (fs, e) := readUpTo k path fuel s
      (f :: fs, e)

/-- The forests that are still unread, up to the first fault, and that fault. Every record takes bytes,
so there are no more records than bytes. -/
def rest (k : Compressor) (path : String) (s : ForestStore) : List Forest × Option Error :=
  readUpTo k path (s.unread.length + 1) s

/-! Stores on a disk -/

section

variable {m : Type → Type} [Monad m] [Files m]

def create (path : String) (c : Compression) : Filing m Unit := Filing.write path ⟨(header c).toArray⟩

def append (k : Compressor) (path : String) (c : Compression) (f : Forest) : Filing m Unit := do
  let bytes ← Filing.check (record k path c f)
  Filing.append path ⟨bytes.toArray⟩

def openAt (path : String) : Filing m ForestStore := do
  let bytes ← Filing.read path
  Filing.check (ofBytes path bytes.data.toList)

end

end ForestStore

end Categorial
