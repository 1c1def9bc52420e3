import Categorial.Forest.Packing
import Categorial.Forest.Store
import Categorial.Parser
import Categorial.Training.Learner
import Categorial.Treebank.Resolve
set_option autoImplicit false

/-!
Training the linear model. Every sentence is parsed once, with all edges kept, and packed into a forest, which is
stored; rare features are dropped, and the store is written again without them; then each epoch goes through the store,
scores the forests and corrects the weights where the best derivation is not the gold one. In the end the model has the
averaged weights.
-/

namespace Categorial

/-- Extraction goes through the stages once; after that scoring and updating alternate. Up to the forest a sentence can
still turn out to be unusable. -/
def Stage.canAdvance : Stage → Stage → Bool
  | .unprocessed, .multitagged => true
  | .multitagged, .coarseParsed => true
  | .coarseParsed, .featuresExtracted => true
  | .featuresExtracted, .forestBuilt => true
  | .forestBuilt, .scored => true
  | .scored, .weightsUpdated => true
  | .weightsUpdated, .scored => true
  | .unprocessed, .unparseable => true
  | .multitagged, .unparseable => true
  | .coarseParsed, .unparseable => true
  | .featuresExtracted, .unparseable => true
  | _, _ => false

structure Progress where
  sentence : Nat
  stage : Stage
  deriving DecidableEq, Repr

namespace Progress

def start (sentence : Nat) : Progress := ⟨sentence, .unprocessed⟩

def advance (p : Progress) (target : Stage) : Except Error Progress :=
  if p.stage.canAdvance target then .ok { p with stage := target }
  else .error (.invalidTransition p.sentence p.stage target)

end Progress

structure TrainingExample (α : Type) where
  sentence : Sentence
  tags : Supertags α
  /-- Missing if the grammar cannot reproduce it. -/
  gold : Option Derivation

namespace TrainingExample

variable {α : Type}

def ofTree (g : Grammar) (t : BankTree) (tags : Option (Supertags α)) : TrainingExample α :=
  ⟨t.sentence, tags.getD .empty, (g.resolve t).toOption⟩

end TrainingExample

/-- The tags with the gold category of each word, which scores like the word's best, so that no beam
excludes it. -/
def Supertags.withGold {α : Type} [Scalar α] (tags : Supertags α) (gold : Derivation) :
    Supertags α :=
  tags.merge (.ofWords (gold.leaves.zipIdx.map fun ((step, _), i) =>
    [⟨step.cat, (tags.best? i).elim Scalar.one Tag.score⟩]))

structure EpochCount where
  epoch : Nat
  /-- How often the best derivation was the gold one. -/
  correct : Nat
  total : Nat
  deriving DecidableEq, Repr

structure Checkpoint (α : Type) where
  epoch : Nat
  weights : Array α
  averaged : Array α
  deriving Repr

structure TrainingReport (α : Type) where
  progress : List Progress
  /-- The final weights, not averaged. -/
  weights : Array α
  /-- How many forests were stored. -/
  forests : Nat
  features : Nat
  epochs : List EpochCount

def TrainingReport.unparseable {α : Type} (r : TrainingReport α) : Nat :=
  r.progress.countP fun p => p.stage == .unparseable

def checkpointName (epoch : Nat) : String := s!"model.{epoch}"

def averagedName (name : String) : String := name ++ ".averaged"

abbrev Training (m : Type → Type) (α β : Type) := ExceptT Error (StateT (Perceptron α) m) β

namespace Training

variable {m : Type → Type} [Monad m] {α β : Type}

def check (x : Except Error β) : Training m α β := ExceptT.mk (pure x)

def registering (x : Registering α β) : Training m α β := ExceptT.mk fun model => pure (x.run.run model)

def filing (x : Filing m β) : Training m α β := ExceptT.mk fun model => do
  let result ← x.run
  pure (result, model)

end Training

namespace Checkpoint

variable {α : Type} [Scalar α] [Written α]

def files (c : Checkpoint α) (g : Grammar) (t : FeatureTable) :
    Except Error (List (String × String)) := do
  let weights ← WeightFile.write g t Perceptron.modelName (some c.weights)
  let averaged ← WeightFile.write g t Perceptron.modelName (some c.averaged)
  pure [(checkpointName c.epoch, weights), (averagedName (checkpointName c.epoch), averaged)]

def write {m : Type → Type} [Monad m] [Files m] (c : Checkpoint α) (g : Grammar) (t : FeatureTable)
    (directory : String) : Filing m Unit := do
  let files ← Filing.check (c.files g t)
  files.forM fun (name, text) => Filing.write (Files.within directory name) text.toUTF8

end Checkpoint

structure Trainer (α : Type) where
  grammar : Grammar
  parser : ParserConfig α
  config : TrainerConfig α

/-- Weights, how far each sentence is, and the counts of the epoch. -/
structure EpochState (α : Type) where
  learner : Learner α
  progress : Array Progress
  correct : Nat
  total : Nat

namespace Trainer

variable {α : Type} [Scalar α]

def create [Written α] (g : Grammar) (parser : ParserConfig α) (config : TrainerConfig α) :
    Except Error (Trainer α) := do
  parser.validate
  config.validate
  pure ⟨g, parser, config⟩

def storePath (t : Trainer α) : String := Files.within t.config.workDirectory "forests"

def prunedPath (t : Trainer α) : String := Files.within t.config.workDirectory "forests.pruned"

/-- How far an example gets, and its forest if it gets there. Forests have numbers of 32 bits. -/
def extractOne (t : Trainer α) (e : TrainingExample α) (p : Progress) :
    Registering α (Progress × Option Forest) := do
  let advance (p : Progress) (stage : Stage) : Registering α Progress :=
    Registering.check (p.advance stage)
  match e.gold with
  | none => do
    let p ← advance p .unparseable
    pure (p, none)
  | some gold => do
    let p ← advance p .multitagged
    match t.parser.coarseChart t.grammar e.sentence (e.tags.withGold gold) with
    | .error _ => do
      let p ← advance p .unparseable
      pure (p, none)
    | .ok coarse => do
      let p ← advance p .coarseParsed
      let fine ← Registering.check (FineChart.build coarse (← get).toModel .all none)
      match ← Registering.attempt (Forest.pack fine (p.sentence % UInt32.size) gold) with
      | none => do
        let p ← advance p .unparseable
        pure (p, none)
      | some forest => do
        let p ← advance p .featuresExtracted
        pure (p, some forest)

section

variable {m : Type → Type} [Monad m] [Files m]

/-- Stores the forests of a corpus, the first example of which has the given number. The answer is how far the examples
got, and how many forests there are. -/
def extractFrom (t : Trainer α) (k : Compressor) : Nat → List (TrainingExample α) → Training m α (List Progress × Nat)
  | _, [] => pure ([], 0)
  | i, e :: rest => do
    match ← Training.registering (t.extractOne e (.start i)) with
    | (p, none) => do
      let (ps, written) ← extractFrom t k (i + 1) rest
      pure (p :: ps, written)
    | (p, some forest) => do
      Training.filing (ForestStore.append k t.storePath t.config.compression forest)
      let p ← Training.check (p.advance .forestBuilt)
      let (ps, written) ← extractFrom t k (i + 1) rest
      pure (p :: ps, written + 1)

def extract (t : Trainer α) (k : Compressor) (corpus : List (TrainingExample α)) :
    Training m α (List Progress × Nat) := do
  Training.filing (ForestStore.create t.storePath t.config.compression)
  t.extractFrom k 0 corpus

/-- Writes a store with other feature numbers, which then takes the place of the one that is there. -/
def rewriteStore (t : Trainer α) (k : Compressor) (numbers : Array (Option Nat)) : Filing m Unit := do
  let s ← ForestStore.openAt t.storePath
  ForestStore.create t.prunedPath t.config.compression
  let (forests, fault) := s.rest k t.storePath
  forests.forM fun f => ForestStore.append k t.prunedPath t.config.compression (f.renumber numbers)
  fault.forM fun e => throw e
  Filing.move t.prunedPath t.storePath

def resize (weights : Array α) (n : Nat) : Array α :=
  weights.take n ++ Array.replicate (n - weights.size) Scalar.zero

def keptWeights (weights : Array α) (numbers : List (Option Nat)) : Array α :=
  ((weights.toList.zip numbers).filterMap fun (w, new) => new.map fun _ => w).toArray

def prune (t : Trainer α) (k : Compressor) (weights : Array α) : Training m α (Array α) := do
  let model ← get
  let weights := resize weights model.table.size
  if !t.config.dropsFeatures then pure weights
  else do
    let (numbers, table) := model.table.prune t.config.featureCutoff
    set { model with table }
    Training.filing (t.rewriteStore k numbers.toArray)
    pure (keptWeights weights numbers)

end

def learn (t : Trainer α) (s : EpochState α) (f : Forest) : Except Error (EpochState α) :=
  match s.progress[f.sentence]? with
  | none => .error (.invalidArgument (.storedForest f.sentence))
  | some p =>
    match f.best? s.learner.weights with
    | none => .ok s
    | some prediction => do
      let p ← p.advance .scored
      let learner :=
        if prediction.correct then s.learner
        else s.learner.update f.gold prediction.counts t.config.learningRate
      let p ← p.advance .weightsUpdated
      pure ⟨learner.tick, s.progress.setIfInBounds f.sentence p, s.correct + (if prediction.correct then 1 else 0),
        s.total + 1⟩

def epoch (t : Trainer α) (k : Compressor) (s : ForestStore) (learner : Learner α) (progress : Array Progress) :
    Except Error (EpochState α) := do
  let (forests, fault) := s.reset.rest k t.storePath
  let state ← forests.foldlM t.learn ⟨learner, progress, 0, 0⟩
  fault.forM fun e => throw e
  pure state

def makeDirectories {m : Type → Type} [Monad m] [Files m] (t : Trainer α) : Filing m Unit := do
  Filing.makeDirectory t.config.workDirectory
  t.config.checkpointDirectory.forM Filing.makeDirectory

variable [Written α] {m : Type → Type} [Monad m] [Files m]

def keep (t : Trainer α) (table : FeatureTable) (c : Checkpoint α) : Option Error → m (Option Error)
  | some fault => pure (some fault)
  | none =>
    match t.config.checkpointDirectory with
    | none => pure none
    | some directory => do
      match ← (c.write t.grammar table directory : Filing m Unit).run with
      | .ok () => pure none
      | .error fault => pure (some fault)

def epochsFrom (t : Trainer α) (k : Compressor) (table : FeatureTable) (s : ForestStore) (epoch : Nat) :
    Nat → Learner α → Array Progress → Option Error →
      Filing m (Learner α × Array Progress × List EpochCount × Option Error)
  | 0, learner, progress, fault => pure (learner, progress, [], fault)
  | more + 1, learner, progress, fault => do
    let state ← Filing.check (t.epoch k s learner progress)
    let fault ← ExceptT.lift (t.keep table ⟨epoch, state.learner.weights, state.learner.averaged⟩ fault)
    let (learner, progress, rest, fault) ←
      epochsFrom t k table s (epoch + 1) more state.learner state.progress fault
    pure (learner, progress, ⟨epoch, state.correct, state.total⟩ :: rest, fault)

def countBytes : Nat := 24

def epochs (t : Trainer α) (k : Compressor) (table : FeatureTable) (learner : Learner α) (progress : Array Progress) :
    Filing m (Learner α × Array Progress × List EpochCount) := do
  let s ← ForestStore.openAt t.storePath
  if !hasRoom countBytes t.config.iterations then throw .noRoom
  let (learner, progress, counts, fault) ← t.epochsFrom k table s 1 t.config.iterations learner progress none
  fault.forM fun e => throw e
  pure (learner, progress, counts)

/-- Extracts the forests of a corpus and drops the rare features. The answer is how far the sentences got, how many
forests there are, and the weights to begin with. -/
def prepare (t : Trainer α) (k : Compressor) (corpus : List (TrainingExample α)) :
    Training m α (List Progress × Nat × Array α) := do
  let old ← get
  Training.check (t.grammar.check old.grammarId)
  Training.filing t.makeDirectories
  set { old with table := old.table.thaw }
  let (progress, forests) ← t.extract k corpus
  let weights ← t.prune k old.weights
  modify fun model => { model with table := model.table.freeze }
  pure (progress, forests, weights)

def train (t : Trainer α) (k : Compressor) (corpus : List (TrainingExample α)) :
    Training m α (TrainingReport α) := do
  let (progress, forests, weights) ← t.prepare k corpus
  let (learner, progress, counts) ←
    Training.filing (t.epochs k (← get).table (.start weights) progress.toArray)
  let trained ← Training.check ((← get).setWeights learner.averaged)
  set trained
  pure ⟨progress.toList, learner.weights, forests, trained.table.size, counts⟩

end Trainer

end Categorial
