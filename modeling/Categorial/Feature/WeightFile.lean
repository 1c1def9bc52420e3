import Categorial.Decimal.Written
import Categorial.Feature.Description
import Categorial.Scalar
import Categorial.Text.Lines
set_option autoImplicit false

namespace Categorial

namespace WeightFile

variable {α : Type} [Scalar α] [Written α]

def lineOf (t : FeatureTable) (g : Grammar) (index : Nat) (weight : α) (key : Feature) : String :=
  s!"{index}\t" ++ String.ofList (Written.plain weight) ++ "\t" ++ t.describe g key ++ "\n"

def write (g : Grammar) (t : FeatureTable) (name : String) (weights : Option (Array α)) :
    Except Error String :=
  let header := name ++ "\n" ++ (weights.elim "-1" fun w => toString w.size) ++ "\n"
  let body (weight : Nat → α) : String :=
    String.join (t.keys.toList.zipIdx.map fun (key, i) => lineOf t g i (weight i) key)
  match weights with
  | none => .ok (header ++ body fun _ => Scalar.zero)
  | some w =>
    if w.size = t.size then .ok (header ++ body fun i => w[i]?.getD Scalar.zero)
    else .error (.invalidArgument (.weightCount w.size t.size))

def setWeight (weights : Array α) (i : Nat) (x : α) : Array α :=
  if i < weights.size then weights.setIfInBounds i x
  else (weights ++ Array.replicate (i - weights.size) Scalar.zero).push x

/-- The place of a feature in the table. A feature that is there has to have the number that the file
gives; a new one is appended and has to get it. -/
def place (t : FeatureTable) (line index : Nat) (description : String) (key : Feature) :
    FeatureTable × Except Error Unit :=
  match t.get? key with
  | some here =>
    if here = index then (t, .ok ())
    else (t, .error (.misindexed line (.elsewhere description here index)))
  | none =>
    if t.frozen then (t, .error (.misindexed line (.frozen description)))
    else if t.size = index then (t.insert key, .ok ())
    else (t.insert key, .error (.misindexed line (.appended description t.size index)))

def readLine (g : Grammar) (path : String) (t : FeatureTable) (weights : Array α) (line : Nat)
    (s : List Char) : FeatureTable × Except Error (Array α) :=
  match Text.splitThree '\t' s with
  | [index, weight, description] =>
    let bad (cause : BadContent) : FeatureTable × Except Error (Array α) :=
      (t, .error (.badContent path cause))
    match Text.readId index with
    | .error e => bad (.weightIndex line e)
    | .ok index =>
      match (Written.read weight : Except Decimal.ReadError α) with
      | .error e => bad (.weightValue line e)
      | .ok weight =>
        match t.readDescription g description with
        | .error e => (t, .error e)
        | .ok (key, t) =>
          let (t, placed) := place t line index (String.ofList description) key
          (t, placed.map fun _ => setWeight weights index weight)
  | _ => (t, .error (.badContent path (.weightFields line)))

def readLines (g : Grammar) (path : String) (t : FeatureTable) (weights : Array α) (line : Nat) :
    List Text.Line → FeatureTable × Except Error (Array α)
  | [] => (t, .ok weights)
  | none :: _ => (t, .error .unreadable)
  | some s :: rest =>
    if (Text.trim s).isEmpty then readLines g path t weights (line + 1) rest
    else
      match readLine g path t weights line s with
      | (t, .error e) => (t, .error e)
      | (t, .ok weights) => readLines g path t weights (line + 1) rest

def countBound : Nat := Nat.pow 2 63 - 1

def readHeader (path : String) :
    List Text.Line → Except Error (String × Int × List Text.Line)
  | [] => .error (.badContent path .noModelName)
  | none :: _ => .error .unreadable
  | [some _] => .error (.badContent path .noWeightCount)
  | some _ :: none :: _ => .error .unreadable
  | some name :: some count :: rest => do
    let declared ← (Text.readInt countBound (Text.trim count)).mapError fun e =>
      .badContent path (.weightCount e)
    pure (String.ofList name, declared, rest)

/-- The model's name and its weights, `none` for a model that has none yet, and the table with the
features of the file. -/
def read (g : Grammar) (path : String) (t : FeatureTable) (lines : List Text.Line) :
    FeatureTable × Except Error (String × Option (Array α)) :=
  match readHeader path lines with
  | .error e => (t, .error e)
  | .ok (name, declared, rest) =>
    match readLines g path t #[] 3 rest with
    | (t, .error e) => (t, .error e)
    | (t, .ok weights) =>
      let weights : Array α :=
        weights ++ Array.replicate (t.size - weights.size) Scalar.zero
      if 0 ≤ declared ∧ declared ≠ Int.ofNat t.size then
        (t, .error (.badContent path (.weightsListed declared t.size)))
      else (t, .ok (name, if 0 ≤ declared then some weights else none))

end WeightFile

end Categorial
