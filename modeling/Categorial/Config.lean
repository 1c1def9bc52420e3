import Categorial.Chart.Fine
import Categorial.Decimal.Written
set_option autoImplicit false

namespace Categorial

structure ParserConfig (α : Type) where
  /-- The beams on the tags, tried in turn. -/
  betas : List α
  maxLength : Nat
  retain : Retain
  /-- How far a refined item may fall below the best one of its cell, as a factor. -/
  fineBeam : Option α
  /-- How many coarse items a sentence may have. -/
  maxItems : Nat
  threads : Nat
  deriving Repr

/-- How stored forests are compressed. -/
inductive Compression where
  | none
  | zstd
  | xz
  deriving DecidableEq, Repr

structure TrainerConfig (α : Type) where
  /-- Where forests are stored. -/
  workDirectory : String
  iterations : Nat
  learningRate : α
  /-- Features seen less often are dropped. -/
  featureCutoff : Nat
  compression : Compression
  /-- Where the weights are kept after every epoch, if they are. -/
  checkpointDirectory : Option String
  deriving Repr

namespace Compression

def name : Compression → String
  | none => "None"
  | zstd => "Zstd"
  | xz => "Xz"

def read (s : String) : Except Error Compression :=
  match s with
  | "none" => .ok none
  | "zstd" => .ok zstd
  | "xz" => .ok xz
  | s => .error (.invalidArgument (.compression s))

def tag : Compression → UInt8
  | none => 0
  | zstd => 1
  | xz => 2

def ofTag? (t : UInt8) : Option Compression :=
  if t = 0 then some none else if t = 1 then some zstd else if t = 2 then some xz else .none

theorem ofTag?_tag (c : Compression) : ofTag? c.tag = some c := by cases c <;> decide

end Compression

namespace ParserConfig

def standard : ParserConfig Double where
  betas := [0.1, 0.05, 0.025, 0.01, 0.005]
  maxLength := 250
  retain := .best
  fineBeam := none
  maxItems := 1000000
  threads := 1

variable {α : Type} [Scalar α] [Written α]

def betasText (betas : List α) : String :=
  "[" ++ ", ".intercalate (betas.map fun b => String.ofList (Written.full b)) ++ "]"

/-- Some beam is not smaller than the one before it. -/
def rises : List α → Bool
  | a :: b :: rest => Scalar.le a b || rises (b :: rest)
  | _ => false

/-- Of several faults the first in this order is reported. -/
def validate (c : ParserConfig α) : Except Error Unit := do
  let refuse (cause : InvalidArgument) : Except Error Unit := throw (.invalidArgument cause)
  if c.betas.isEmpty then refuse .noBetas
  if c.betas.any fun b => !(Scalar.lt Scalar.zero b && Scalar.le b Scalar.one) then
    refuse (.betaRange (betasText c.betas))
  if rises c.betas then refuse (.betaOrder (betasText c.betas))
  if c.maxLength = 0 ∨ c.maxItems = 0 ∨ c.threads = 0 then refuse .notPositive
  if c.retain = .kBest 0 then refuse .noBest
  match c.fineBeam with
  | some beam =>
    if Scalar.lt Scalar.zero beam && Scalar.lt beam Scalar.one then pure ()
    else refuse (.beamRange (String.ofList (Written.plain beam)))
  | none => pure ()

end ParserConfig

namespace TrainerConfig

def standard (workDirectory : String) : TrainerConfig Double where
  workDirectory := workDirectory
  iterations := 10
  learningRate := 1.0
  featureCutoff := 1
  compression := .zstd
  checkpointDirectory := none

def dropsFeatures {α : Type} (c : TrainerConfig α) : Bool := 1 < c.featureCutoff

variable {α : Type} [Scalar α] [Written α]

def validate (c : TrainerConfig α) : Except Error Unit := do
  if c.iterations = 0 then throw (.invalidArgument .noIterations)
  if Scalar.lt Scalar.zero c.learningRate && Scalar.lt c.learningRate Scalar.top then pure ()
  else throw (.invalidArgument (.learningRate (String.ofList (Written.plain c.learningRate))))

end TrainerConfig

end Categorial
