import Categorial.Text.Numeral
import Categorial.Decimal.Reader
set_option autoImplicit false

namespace Categorial

inductive RuleLineError where
  | fieldCount (found : Nat)
  | number (text : String) (cause : Text.NumeralError)
  | ruleType (text : String)
  | combinator (text : String)
  | rightWithoutLeft
  deriving DecidableEq, Repr

/-- Text that is no category, no derivation, no feature or no grammar. -/
inductive Malformed where
  | noAtom (rest : String)
  | noField (rest : String)
  | noChar (wanted : Char) (rest : String)
  | afterCategory (category rest : String)
  | afterDerivation (rest : String)
  | headIndex (text : String) (cause : Text.NumeralError)
  | childCount (text : String) (cause : Text.NumeralError)
  | childrenDeclared (category : String) (declared found : Nat)
  | nodeKind (text : String)
  | childrenFound (category : String) (found : Nat)
  | combinator (text : String)
  | duplicateCategory (text : String)
  | categoryRange (id : Nat)
  | rulePosition (id position : Nat)
  | ruleShape (id : Nat) (ruleType production : String)
  | noStart
  | categoryLine (path : String) (line : Nat)
  | ruleLine (path : String) (line : Nat) (cause : RuleLineError)
  | markupLine (line : String)
  | markup (head silent : String)
  | startWithoutRule (text : String)
  | feature (text : String)
  deriving DecidableEq, Repr

/-- An expansion that a model cannot score because it does not exist. -/
inductive ScoreError where
  | invalidExpansion (rule : Nat) (parent : String)
  | unknownRule (rule : Nat)
  deriving DecidableEq, Repr

/-- A derivation or a step that the grammar lacks. -/
inductive Unlicensed where
  | unknownCategory (text : String)
  | notLexical (text : String)
  | notStart (text : String)
  | noUnary (child result : String)
  | noBinary (left right result : String)
  | childrenFound (category : String) (found : Nat)
  | feature (text : String)
  | step (cause : ScoreError)
  | rule (id : Nat)
  deriving DecidableEq, Repr

inductive Misindexed where
  | elsewhere (feature : String) (here wanted : Nat)
  | frozen (feature : String)
  | appended (feature : String) (here wanted : Nat)
  deriving DecidableEq, Repr

/-- Contents of a file that are not in its format. -/
inductive BadContent where
  | tagLine (line : Nat)
  | tagScore (line : Nat) (text : String) (cause : Decimal.ReadError)
  | noModelName
  | noWeightCount
  | weightCount (cause : Text.NumeralError)
  | weightFields (line : Nat)
  | weightIndex (line : Nat) (cause : Text.NumeralError)
  | weightValue (line : Nat) (cause : Decimal.ReadError)
  | weightsListed (declared : Int) (listed : Nat)
  | otherModel (wanted found : String)
  | recordSize (bytes : Nat)
  | noStore
  | storeVersion (version : Nat)
  | compressionTag (tag : Nat)
  | recordHeader (found : Nat)
  | recordBody
  | recordRest
  deriving DecidableEq, Repr

inductive InvalidArgument where
  | noGold (word : String)
  | weightCount (weights features : Nat)
  | noBetas
  | betaRange (betas : String)
  | betaOrder (betas : String)
  | notPositive
  | noBest
  | beamRange (beam : String)
  | noIterations
  | learningRate (rate : String)
  | compression (text : String)
  | storedForest (sentence : Nat)
  deriving DecidableEq, Repr

inductive Stage where
  | unprocessed
  | multitagged
  | coarseParsed
  | featuresExtracted
  | forestBuilt
  | scored
  | weightsUpdated
  /-- The sentence cannot be trained on. -/
  | unparseable
  deriving DecidableEq, Repr

def Stage.name : Stage → String
  | .unprocessed => "Unprocessed"
  | .multitagged => "Multitagged"
  | .coarseParsed => "CoarseParsed"
  | .featuresExtracted => "FeaturesExtracted"
  | .forestBuilt => "ForestBuilt"
  | .scored => "Scored"
  | .weightsUpdated => "WeightsUpdated"
  | .unparseable => "Unparseable"

def Stage.all : List Stage :=
  [unprocessed, multitagged, coarseParsed, featuresExtracted, forestBuilt, scored, weightsUpdated,
    unparseable]

def Stage.ofName? (name : String) : Option Stage := all.find? fun s => s.name == name

inductive Error where
  | unknownCategory (text : String)
  | malformed (cause : Malformed)
  | unlicensed (cause : Unlicensed)
  | grammarMismatch (expected found : Nat)
  | misindexed (line : Nat) (cause : Misindexed)
  | badContent (path : String) (cause : BadContent)
  | invalidArgument (cause : InvalidArgument)
  | invalidTransition (sentence : Nat) (source target : Stage)
  /-- A file is missing, ends too early or is no text. -/
  | unreadable
  | unwritable (path : String)
  /-- The bytes of a record are no forest. -/
  | undecodable
  /-- Room for the members of a list cannot be set aside. This is no answer: the run breaks off. -/
  | noRoom
  deriving DecidableEq, Repr

/-- Whether there can be room for `n` members of so many bytes. No allocation has `2 ^ 63` bytes. -/
def hasRoom (bytes n : Nat) : Bool := n * bytes < UInt64.size / 2

def Malformed.text : Malformed → String
  | .noAtom rest =>
    "atom: malformed grammar: couldn't match [A-Za-z]+|[,.;:] at " ++ rest
  | .noField rest => "couldn't match [^\\s<>]+ at " ++ rest
  | .noChar wanted rest => s!"couldn't match {wanted} at {rest}"
  | .afterCategory category rest => s!"trailing input after category {category}: {rest}"
  | .afterDerivation rest => s!"trailing input after derivation: {rest}"
  | .headIndex text cause => s!"head index {text}: {cause.message}"
  | .childCount text cause => s!"child count {text}: {cause.message}"
  | .childrenDeclared category declared found =>
    s!"node {category} declares {declared} children, has {found}"
  | .nodeKind text => s!"unknown AUTO node type {text}"
  | .childrenFound category found => s!"node {category} has {found} children"
  | .combinator text => s!"unknown combinator {text}"
  | .duplicateCategory text => s!"duplicate category {text}"
  | .categoryRange id => s!"category id {id} out of range"
  | .rulePosition id position => s!"rule id {id} at position {position}"
  | .ruleShape id ruleType production =>
    s!"rule {id} has type {ruleType} but production {production}"
  | .noStart => "no start category"
  | .categoryLine path line => s!"{path}:{line}: expected \x60id<TAB>category<TAB>lexical\x60"
  | .ruleLine path line cause =>
    s!"{path}:{line}: " ++ match cause with
      | .fieldCount found => s!"expected 7 fields, got {found}"
      | .number text cause => s!"{text}: {cause.message}"
      | .ruleType text => s!"unknown rule type {text}"
      | .combinator text => s!"malformed grammar: unknown combinator {text}"
      | .rightWithoutLeft => "right child without left child"
  | .markupLine line => s!"bad markup line: {line}"
  | .markup head silent => s!"bad markup: {head} {silent}"
  | .startWithoutRule text => s!"start category {text} has no top rule"
  | .feature text => s!"bad feature description: {text}"

def ScoreError.message : ScoreError → String
  | .invalidExpansion rule parent => s!"rule {rule} cannot produce {parent} from the given children"
  | .unknownRule rule => s!"unknown rule id {rule}"

def Unlicensed.text : Unlicensed → String
  | .unknownCategory text => s!"unknown category {text}"
  | .notLexical text => s!"{text} is not a lexical category"
  | .notStart text => s!"{text} is not a start category"
  | .noUnary child result => s!"no unary rule {child} => {result}"
  | .noBinary left right result => s!"no binary rule {left} {right} => {result}"
  | .childrenFound category found => s!"{category} has {found} children"
  | .feature text => s!"no rule for feature: {text}"
  | .step cause => cause.message
  | .rule id => s!"unknown rule {id}"

def Misindexed.text : Misindexed → String
  | .elsewhere feature here wanted => s!"'{feature}' is feature {here} here, not {wanted}"
  | .frozen feature => s!"'{feature}' is not in the frozen table"
  | .appended feature here wanted => s!"'{feature}' would be feature {here}, not {wanted}"

def BadContent.text : BadContent → String
  | .tagLine line => s!"line {line}: expected \x60word pos (cat score)*\x60"
  | .tagScore line text cause => s!"line {line}: {text}: {cause.message}"
  | .noModelName => "missing model name"
  | .noWeightCount => "missing weight count"
  | .weightCount cause => s!"bad weight count: {cause.message}"
  | .weightFields line => s!"line {line}: expected 3 fields"
  | .weightIndex line cause => s!"line {line}: {cause.message}"
  | .weightValue line cause => s!"line {line}: {cause.message}"
  | .weightsListed declared listed => s!"declares {declared} weights but lists {listed}"
  | .otherModel wanted found => s!"expected a {wanted} model, found {found}"
  | .recordSize bytes => s!"record of {bytes} bytes"
  | .noStore => "not a forest store"
  | .storeVersion version => s!"unsupported store version {version}"
  | .compressionTag tag => s!"unknown compression tag {tag}"
  | .recordHeader found => s!"truncated record header: {found} of 4 bytes"
  | .recordBody => "truncated record: failed to fill whole buffer"
  | .recordRest => "trailing bytes in record"

def InvalidArgument.text : InvalidArgument → String
  | .noGold word => s!"token {word} has no gold category"
  | .weightCount weights features => s!"{weights} weights for {features} features"
  | .noBetas => "beta ladder is empty"
  | .betaRange betas => s!"beta values must be in (0, 1]: {betas}"
  | .betaOrder betas => s!"beta ladder must be strictly descending: {betas}"
  | .notPositive => "max_sentence_len, max_items and num_threads must be positive"
  | .noBest => "k-best retention needs k >= 1"
  | .beamRange beam => s!"fine beam must be in (0, 1): {beam}"
  | .noIterations => "iterations must be at least 1"
  | .learningRate rate => s!"learning rate must be positive: {rate}"
  | .compression text => s!"unknown compression {text} (expected none, zstd or xz)"
  | .storedForest sentence => s!"stored forest for sentence {sentence}"

def Error.message : Error → String
  | .unknownCategory text => s!"unknown category: {text}"
  | .malformed cause => s!"malformed grammar: {cause.text}"
  | .unlicensed cause => s!"derivation not licensed by the grammar: {cause.text}"
  | .grammarMismatch expected found =>
    s!"grammar mismatch: built against grammar #{expected}, used with grammar #{found}"
  | .misindexed line cause => s!"feature index mismatch at line {line}: {cause.text}"
  | .badContent path cause => s!"serialization error in {path}: {cause.text}"
  | .invalidArgument cause => s!"invalid argument: {cause.text}"
  | .invalidTransition sentence source target =>
    s!"invalid stage transition for sentence {sentence}: {source.name} -> {target.name}"
  | .unreadable => "unreadable file"
  | .unwritable path => "cannot write " ++ path
  | .undecodable => "undecodable record"
  | .noRoom => "capacity overflow"

end Categorial
