import Categorial.CommandLine.Option
set_option autoImplicit false

namespace Categorial.CommandLine

inductive Command where
  | buildGrammar
  | parse
  | train
  deriving DecidableEq, Repr

namespace Command

def all : List Command := [buildGrammar, parse, train]

def name : Command → String
  | buildGrammar => "build-grammar"
  | parse => "parse"
  | train => "train"

def ofName? (name : String) : Option Command := all.find? fun c => c.name == name

def about : Command → String
  | buildGrammar => "Builds a grammar from gold AUTO derivations"
  | parse => "Parses multitagged sentences and prints lexical categories and dependencies"
  | train => "Trains perceptron weights on gold AUTO derivations"

def models : List String := ["baseline", "lexcat", "headword", "perceptron"]

def compressions : List String := ["none", "zstd", "xz"]

def options : Command → List OptionSpec
  | buildGrammar => [
    ⟨"auto", some 'a', some .path, .needed, "Gold derivations in CCGbank AUTO format"⟩,
    ⟨"out", some 'o', some .path, .needed, "Directory the grammar is written to"⟩,
    ⟨"observed-only", none, none, .optional,
      "Only keep rules seen in the derivations, instead of every combinator instance over the " ++
        "category set"⟩,
    ⟨"min-rule-count", none, some .id, .default "0", "Drop rules seen fewer times than this"⟩,
    ⟨"type-raise", none, some .text, .repeated,
      "Type-raising rule as \x60X:T\x60, e.g. \x60NP:S\x60. May be repeated"⟩,
    ⟨"type-change", none, some .text, .repeated,
      "Type-changing rule as \x60FROM:TO\x60, e.g. \x60N:NP\x60. May be repeated"⟩]
  | parse => [
    ⟨"grammar", some 'g', some .path, .needed,
      "Grammar directory written by \x60build-grammar\x60"⟩,
    ⟨"input", some 'i', some .path, .needed, "Multitagged sentences to parse"⟩,
    ⟨"output", some 'o', some .path, .optional, "Output file; standard output if absent"⟩,
    ⟨"model", some 'm', some (.choice models), .default "headword", ""⟩,
    ⟨"train-auto", none, some .path, .optional,
      "Gold AUTO derivations to estimate a generative model from"⟩,
    ⟨"distance", none, none, .optional, "Condition generative models on head distance"⟩,
    ⟨"weights", some 'w', some .path, .optional, "Weight file of a trained perceptron model"⟩,
    ⟨"gold", none, some .path, .optional, "Gold AUTO derivations for the input, for evaluation"⟩,
    ⟨"betas", none, some .text, .optional, "Comma-separated supertagger beams, loosest last"⟩,
    ⟨"max-len", none, some .size, .default "250", ""⟩,
    ⟨"fine-beam", none, some .number, .optional,
      "Fine-pass figure-of-merit beam, as a probability ratio"⟩,
    ⟨"num-threads", none, some .size, .default "1", ""⟩]
  | train => [
    ⟨"grammar", some 'g', some .path, .needed,
      "Grammar directory written by \x60build-grammar\x60"⟩,
    ⟨"auto", some 'a', some .path, .needed, "Gold training derivations in AUTO format"⟩,
    ⟨"multitags", some 't', some .path, .optional,
      "Supertagger output for the same sentences. Gold categories are always added to the " ++
        "candidates"⟩,
    ⟨"out", some 'o', some .path, .needed,
      "Weight file to write; averaged weights go to \x60<out>.averaged\x60"⟩,
    ⟨"init", none, some .path, .optional, "Continue from an existing weight file"⟩,
    ⟨"iterations", some 'n', some .size, .default "10", ""⟩,
    ⟨"learning-rate", none, some .number, .default "1.0", ""⟩,
    ⟨"feature-cutoff", none, some .id, .default "1",
      "Drop features seen fewer times than this"⟩,
    ⟨"work-dir", none, some .path, .default "forests", "Where packed forests are cached"⟩,
    ⟨"checkpoint-dir", none, some .path, .optional, "Write weights here after every epoch"⟩,
    ⟨"compression", none, some (.choice compressions), .default "zstd", "Forest compression"⟩,
    ⟨"betas", none, some .text, .optional, "Comma-separated supertagger beams, loosest last"⟩,
    ⟨"max-len", none, some .size, .default "250", ""⟩]

end Command

namespace Manual

def program : String := "ccgbender"

def version : String := program ++ " 0.1.0\n"

/-- The name that stands for an option's value. -/
def placeholder (name : String) : String :=
  String.ofList (name.toList.map fun c => if c = '-' then '_' else c.toUpper)

def form (s : OptionSpec) : String :=
  "--" ++ s.name ++ (if s.value.isSome then " <" ++ placeholder s.name ++ ">" else "")

def heading (s : OptionSpec) : String :=
  (s.short.elim "    " fun c => "-" ++ c.toString ++ ", ") ++ form s

/-- The explanation of an option with its default and its choices. -/
def explanation (s : OptionSpec) : String :=
  let default := match s.presence with
    | .default value => ["[default: " ++ value ++ "]"]
    | _ => []
  let choices := match s.value with
    | some (.choice names) => ["[possible values: " ++ ", ".intercalate names ++ "]"]
    | _ => []
  " ".intercalate ((if s.help = "" then [] else [s.help]) ++ default ++ choices)

def indent (n : Nat) : String := String.ofList (List.replicate n ' ')

def helpOption : OptionSpec := ⟨"help", some 'h', none, .optional, "Print help"⟩

def lineWidth : Nat := 100

/-- The width of the widest option. -/
def columnWidth (specs : List OptionSpec) : Nat :=
  specs.foldl (fun n s => max n (form s).length) 0

/-- Explanations stand on lines of their own if the options take up more than two fifths of a line and
some explanation is longer than what is left. -/
def isCrowded (specs : List OptionSpec) : Bool :=
  let taken := columnWidth specs + 8
  2 * lineWidth < 5 * taken && specs.any fun s => lineWidth - taken < (explanation s).length

def optionRow (crowded : Bool) (width : Nat) (s : OptionSpec) : String :=
  let gap := if crowded then "\n" ++ indent 10 else indent (width + 2 - (form s).length)
  indent 2 ++ heading s ++ gap ++ explanation s ++ "\n"

def optionTable (specs : List OptionSpec) : String :=
  String.join (specs.map (optionRow (isCrowded specs) (columnWidth specs)))

def page (c : Command) : String :=
  let needed := (c.options.filter Arguments.isNeeded).map fun s => " " ++ form s
  c.about ++ "\n\nUsage: " ++ program ++ " " ++ c.name ++ " [OPTIONS]" ++ String.join needed ++
    "\n\nOptions:\n" ++ optionTable (c.options ++ [helpOption])

def commandRow (name about : String) : String :=
  indent 2 ++ name ++ indent (15 - name.length) ++ about ++ "\n"

def helpName : String := "help"

def helpAbout : String := "Print this message or the help of the given subcommand(s)"

/-- The page of the command that shows pages. -/
def helpPage : String :=
  helpAbout ++ "\n\nUsage: " ++ program ++ " " ++ helpName ++ " [COMMAND]...\n\nArguments:\n" ++
    indent 2 ++ "[COMMAND]...  Print help for the subcommand(s)\n"

def overview : String :=
  "Coarse-to-fine CCG chart parser\n\nUsage: " ++ program ++ " <COMMAND>\n\nCommands:\n" ++
    String.join (Command.all.map fun c => commandRow c.name c.about) ++
    commandRow helpName helpAbout ++
    "\nOptions:\n  -h, --help     Print help\n  -V, --version  Print version\n"

end Manual

end Categorial.CommandLine
