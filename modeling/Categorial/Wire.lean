set_option autoImplicit false

namespace Categorial

structure Wire (β : Type) where
  write : β → List UInt8
  /-- The value in front, and the bytes after it. -/
  read : List UInt8 → Option (β × List UInt8)

namespace Wire

variable {β γ : Type}

/-- The lowest `width` bytes of a number. -/
def writeWord : Nat → Nat → List UInt8
  | 0, _ => []
  | width + 1, n => UInt8.ofNat n :: writeWord width (n / 256)

def readWord : Nat → List UInt8 → Option (Nat × List UInt8)
  | 0, bytes => some (0, bytes)
  | _ + 1, [] => none
  | width + 1, b :: bytes => do
    let (n, rest) ← readWord width bytes
    pure (b.toNat + 256 * n, rest)

def word (width : Nat) : Wire Nat := ⟨writeWord width, readWord width⟩

def word32 : Wire Nat := word 4

def word64 : Wire Nat := word 8

/-- A byte that is 0 or 1. -/
def flag : Wire Bool where
  write b := [if b then 1 else 0]
  read
    | 0 :: bytes => some (false, bytes)
    | 1 :: bytes => some (true, bytes)
    | _ => none

def both (a : Wire β) (b : Wire γ) : Wire (β × γ) where
  write x := a.write x.1 ++ b.write x.2
  read bytes := do
    let (x, rest) ← a.read bytes
    let (y, rest) ← b.read rest
    pure ((x, y), rest)

def mapped (a : Wire β) (toward : β → γ) (back : γ → β) : Wire γ where
  write y := a.write (back y)
  read bytes := (a.read bytes).map fun (x, rest) => (toward x, rest)

def readMany (a : Wire β) : Nat → List UInt8 → Option (List β × List UInt8)
  | 0, bytes => some ([], bytes)
  | n + 1, bytes => do
    let (x, rest) ← a.read bytes
    let (xs, rest) ← readMany a n rest
    pure (x :: xs, rest)

def list (a : Wire β) : Wire (List β) where
  write xs := word64.write xs.length ++ xs.flatMap a.write
  read bytes := do
    let (n, rest) ← word64.read bytes
    a.readMany n rest

end Wire

end Categorial
