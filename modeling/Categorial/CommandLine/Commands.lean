import Categorial.CommandLine.Manual
import Categorial.Files
import Categorial.Grammar.Builder
import Categorial.Grammar.Files
import Categorial.Model.Generative
import Categorial.Statistics
import Categorial.Training.Trainer
import Categorial.Treebank.Reader
set_option autoImplicit false

namespace Categorial.CommandLine

inductive CommandError where
  | failed (cause : Error)
  | badPair (text : String)
  | badBeta (text : String) (cause : Decimal.ReadError)
  | noWeights
  | noTreebank

def CommandError.message : CommandError → String
  | failed cause => cause.message
  | badPair text => "expected FROM:TO, got '" ++ text ++ "'"
  | badBeta text cause => "bad beta '" ++ text ++ "': " ++ cause.message
  | noWeights => "the perceptron model needs --weights"
  | noTreebank => "generative models need --train-auto"

section Commands

variable {m : Type → Type} [Monad m] [Files m]

abbrev Running (m : Type → Type) (β : Type) := ExceptT CommandError m β

def filing {β : Type} (x : Filing m β) : Running m β := ExceptT.mk do pure ((← x.run).mapError .failed)

def check {β : Type} (x : Except Error β) : Running m β := filing (Filing.check x)

def note (text : String) : Running m Unit := ExceptT.lift (Files.note text)

def readLines? (path : String) : Running m (Option (List Text.Line)) := do
  match ← ExceptT.lift (Files.read path) with
  | .contents bytes => pure (some (Text.linesOfBytes bytes))
  | .nothing => pure none
  | .unreadable => throw (.failed .unreadable)

/-- The lines of a file that has to be there. -/
def readLines (path : String) : Running m (List Text.Line) := do
  (← readLines? path).elim (throw (.failed .unreadable)) pure

def writeText (path text : String) : Running m Unit := filing (Filing.write path text.toUTF8)

def readTreebank (path : String) : Running m (List BankTree) := do
  check (BankTree.readLines (← readLines path))

def readTagged (g : Grammar) (path : String) : Running m (List (Sentence × Supertags Double)) := do
  check (Supertags.read g (← readLines path))

def saveGrammar (g : Grammar) (directory : String) : Running m Unit := do
  let files := g.save
  filing (Filing.makeDirectory directory)
  writeText (Files.within directory "categories") files.categories
  writeText (Files.within directory "rules") files.rules
  writeText (Files.within directory "start") files.start
  writeText (Files.within directory "markedup") files.markedup

def loadGrammar (directory : String) : Running m Grammar := do
  let categories ← readLines? (Files.within directory "categories")
  let rules ← readLines? (Files.within directory "rules")
  let start ← readLines? (Files.within directory "start")
  let markedup ← readLines? (Files.within directory "markedup")
  check (Grammar.load 1 directory ⟨categories, rules, start, markedup⟩)

-- Building a grammar

def splitPair (s : String) : Except CommandError (String × String) :=
  match s.toList.span (· != ':') with
  | (a, _ :: b) => .ok (String.ofList a, String.ofList b)
  | (_, []) => .error (.badPair s)

def addPairs (add : String → String → GrammarBuilder.Building Unit) (b : GrammarBuilder)
    (pairs : List String) : Except CommandError GrammarBuilder :=
  pairs.foldlM (fun b s => do
    let (x, y) ← splitPair s
    match (add x y).run.run b with
    | (.ok (), b) => pure b
    | (.error e, _) => throw (.failed e)) b

/-- Lets the builder see a derivation. One that it rejects is left out. -/
def observeOrSkip (b : GrammarBuilder) (t : BankTree) : GrammarBuilder :=
  ((GrammarBuilder.observe t).run.run b).2

def buildGrammar (a : Arguments) : Running m Unit := do
  let trees ← readTreebank (a.text "auto")
  let b := GrammarBuilder.setMinCount (a.nat "min-rule-count")
    (GrammarBuilder.setEnumerate (!a.has "observed-only") .empty)
  let b ← ExceptT.mk (pure (addPairs GrammarBuilder.typeRaise b (a.all "type-raise")))
  let b ← ExceptT.mk (pure (addPairs GrammarBuilder.typeChange b (a.all "type-change")))
  let g ← check ((trees.foldl observeOrSkip b).build 1)
  saveGrammar g (a.text "out")

-- Parsing

def splitCommas (s : List Char) : List (List Char) := Text.splitOn ',' s

def readBetas (s : String) : Except CommandError (List Double) :=
  (splitCommas s.toList).mapM fun piece =>
    (Decimal.read (Text.trim piece)).mapError (.badBeta (String.ofList piece))

def betas (a : Arguments) : Except CommandError (List Double) :=
  (a.get? "betas").elim (.ok ParserConfig.standard.betas) readBetas

def goldCorpus (g : Grammar) (trees : List BankTree) : List (Sentence × Derivation) :=
  trees.filterMap fun t => ((g.resolve t).toOption).map fun d => (t.sentence, d)

def chooseModel (a : Arguments) (g : Grammar) : Running m (Model Double) := do
  match Conditioning.ofName? (a.text "model") with
  | none =>
    let path ← (a.get? "weights").elim (throw .noWeights) pure
    let lines ← readLines path
    let m : Perceptron Double ← check (Perceptron.load g path lines)
    pure m.toModel
  | some c =>
    let path ← (a.get? "train-auto").elim (throw .noTreebank) pure
    let trees ← readTreebank path
    let m ← check (GenerativeModel.estimate g c (a.has "distance") (goldCorpus g trees))
    pure m.toModel

/-- What is written for a sentence: its lexical categories, then its dependencies or why there are
none, then a blank line. -/
def entry (g : Grammar) (s : Sentence) (outcome : Except ParseFailure Derivation) : String :=
  let tags := (supertags outcome.toOption s.length).map fun t => t.text g
  let below := match outcome with
    | .ok d => (g.dependencies d).render g s
    | .error e => "# " ++ e.message ++ "\n"
  " ".intercalate tags ++ "\n" ++ below ++ "\n"

/-- The statistics of one sentence, for which there may be a gold derivation. -/
def evaluate (g : Grammar) (s : Sentence) (outcome : Except ParseFailure Derivation)
    (gold : Option BankTree) : Statistics :=
  match gold.map g.resolve with
  | some (.error _) => .ofUnparseable
  | some (.ok d) => .ofSentence g s.length outcome (some d)
  | none => .ofSentence g s.length outcome none

def parse (a : Arguments) : Running m Unit := do
  let g ← loadGrammar (a.text "grammar")
  let model ← chooseModel a g
  let input ← readTagged g (a.text "input")
  let gold ← match a.get? "gold" with
    | some path => readTreebank path
    | none => pure []
  let betas ← ExceptT.mk (pure (betas a))
  let config : ParserConfig Double := { ParserConfig.standard with
    betas, maxLength := a.nat "max-len", fineBeam := a.number? "fine-beam"
    threads := a.nat "num-threads" }
  let p ← check (Parser.create g model config)
  let outcomes := input.map fun (s, tags) => (s, (p.parse s tags).map Parse.tree)
  let text := String.join (outcomes.map fun (s, outcome) => entry g s outcome)
  match a.get? "output" with
  | some path => writeText path text
  | none => ExceptT.lift (Files.print text)
  let counts := outcomes.zipIdx.map fun ((s, outcome), i) => evaluate g s outcome gold[i]?
  note (counts.foldl Statistics.add .zero).text

-- Training

/-- The tags of each tree, if the tagged sentences are as many as the trees; tags of a sentence of
another length are left out. -/
def alignTags (trees : List BankTree) (tagged : List (Sentence × Supertags Double)) :
    List (BankTree × Option (Supertags Double)) :=
  if tagged.length ≠ trees.length then trees.map fun t => (t, none)
  else
    (trees.zip tagged).map fun (t, (s, tags)) =>
      (t, if s.length = t.sentence.length then some tags else none)

def initialModel (a : Arguments) (g : Grammar) : Running m (Perceptron Double) := do
  match a.get? "init" with
  | some path =>
    let lines ← readLines path
    check (Perceptron.load g path lines)
  | none => pure (.untrained g)

def train (k : Compressor) (a : Arguments) : Running m Unit := do
  let g ← loadGrammar (a.text "grammar")
  let trees ← readTreebank (a.text "auto")
  let tagged ← match a.get? "multitags" with
    | some path => readTagged g path
    | none => pure []
  let corpus := (alignTags trees tagged).map fun (t, tags) => TrainingExample.ofTree g t tags
  let model ← initialModel a g
  let betas ← ExceptT.mk (pure (betas a))
  let parser : ParserConfig Double := { ParserConfig.standard with
    betas, maxLength := a.nat "max-len" }
  let compression ← check (Compression.read (a.text "compression"))
  let config : TrainerConfig Double := { TrainerConfig.standard (a.text "work-dir") with
    iterations := a.nat "iterations"
    learningRate := (a.number? "learning-rate").getD 1.0
    featureCutoff := a.nat "feature-cutoff"
    compression
    checkpointDirectory := a.get? "checkpoint-dir" }
  let trainer ← check (Trainer.create g parser config)
  let (result, model) ← ExceptT.lift ((trainer.train k corpus).run.run model)
  let report ← check result
  let averaged ← check (model.save g)
  writeText (averagedName (a.text "out")) averaged
  let raw ← check (WeightFile.write g model.table Perceptron.modelName (some report.weights))
  writeText (a.text "out") raw

end Commands

end Categorial.CommandLine
