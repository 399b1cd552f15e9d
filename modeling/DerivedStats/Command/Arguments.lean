import DerivedStats.Command.Basic

/-!
# Command line arguments

The words of a command line: general options, the name of an action, and behind it the formula with
the options of that action, among which general options may stand too. Options are written long
(`--format json`, `--format=json`) or short (`-f json`, `-fjson`, `-f=json`), and short ones
without a value can share a hyphen. Behind a lone `--` every word is taken as it is. An option that
takes one value may be given once before and once behind the name of the action; the latter counts.
-/

namespace DerivedStats.Command

/-- The options of the command line. -/
inductive Flag where
  | verbose
  | format
  | color
  | category
  | values
  | placeholder
  | help
  | version
deriving DecidableEq, Inhabited

namespace Flag

/-- The long name. -/
def long : Flag → String
  | verbose => "verbose"
  | format => "format"
  | color => "color"
  | category => "category"
  | values => "values"
  | placeholder => "placeholder"
  | help => "help"
  | version => "version"

/-- The short name, if there is one. -/
def short? : Flag → Option Char
  | verbose => some 'v'
  | format => some 'f'
  | category => some 'c'
  | placeholder => some 'p'
  | help => some 'h'
  | version => some 'V'
  | color | values => none

/-- The option is followed by a value. -/
def takesValue : Flag → Bool
  | format | color | category | values | placeholder => true
  | verbose | help | version => false

/-- The option may be given several times. -/
def repeatable : Flag → Bool
  | placeholder => true
  | _ => false

/-- The value is a path, which must not be empty. -/
def takesPath : Flag → Bool
  | values => true
  | _ => false

/-- Options that are understood everywhere. -/
def general : List Flag := [.verbose, .format, .color, .help]

end Flag

/-- Why the words of a command line are not carried out. -/
inductive Stop where
  /-- They are not understood. -/
  | misused
  /-- They ask for help. -/
  | help
  /-- They ask for the version. -/
  | version
deriving DecidableEq, Inhabited

/-- The words of one level: the options with their values, and the words that are not options. -/
structure Level where
  options : List (Flag × String) := []
  words : List String := []

namespace Level

/-- The level with one more option; help and version stop the reading at once. -/
def give (level : Level) (flag : Flag) (value : String) : Except Stop Level :=
  match flag with
  | .help => .error .help
  | .version => .error .version
  | _ =>
    if flag.takesPath && value.isEmpty then .error .misused
    else if !flag.repeatable && level.options.any (fun o => o.1 = flag) then .error .misused
    else .ok { level with options := level.options ++ [(flag, value)] }

/-- The values of an option. -/
def valuesOf (level : Level) (flag : Flag) : List String :=
  (level.options.filter fun o => o.1 = flag).map (·.2)

end Level

/-- The word starts with a hyphen and is not a hyphen alone. -/
def looksLikeOption (word : List Char) : Bool := word.head? = some '-' && word.length > 1

/-- The value of an option from the words behind it. -/
def valueBehind? : List String → Option (String × List String)
  | [] => none
  | word :: words => if looksLikeOption word.toList then none else some (word, words)

/-- A short option, with the rest of its word and the words behind it: what is read, and what is
left of both. -/
def readShort (flags : List Flag) (level : Level) (c : Char) (rest : List Char)
    (words : List String) : Except Stop (Level × List Char × List String) :=
  match flags.find? fun f => f.short? = some c with
  | none => .error .misused
  | some flag =>
    if !flag.takesValue then do return (← level.give flag "", rest, words)
    else
      match rest with
      | [] =>
        match valueBehind? words with
        | none => .error .misused
        | some (value, words) => do return (← level.give flag value, [], words)
      | c :: more => do
        let value := if c = '=' then more else rest
        return (← level.give flag (String.ofList value), [], words)

/-- The short options of one word, at most `budget` of them. -/
def readCluster (flags : List Flag) : Nat → Level → List Char → List String →
    Except Stop (Level × List String)
  | 0, level, _, words => .ok (level, words)
  | _ + 1, level, [], words => .ok (level, words)
  | budget + 1, level, c :: rest, words => do
    let (level, rest, words) ← readShort flags level c rest words
    readCluster flags budget level rest words

/-- A long option, without its hyphens, and the words behind it. -/
def readLong (flags : List Flag) (level : Level) (word : List Char) (words : List String) :
    Except Stop (Level × List String) :=
  let (name, attached) := word.span (· ≠ '=')
  match flags.find? fun f => f.long.toList = name with
  | none => .error .misused
  | some flag =>
    match flag.takesValue, attached with
    | false, [] => do return (← level.give flag "", words)
    | false, _ => .error .misused
    | true, _ :: value => do return (← level.give flag (String.ofList value), words)
    | true, [] =>
      match valueBehind? words with
      | none => .error .misused
      | some (value, words) => do return (← level.give flag value, words)

/-- Reads options, and `room` words that are none; at most `budget` words in all. The reading ends in
front of a word for which there is no room, and the words from there on are answered too. -/
def readWords (flags : List Flag) (room : Nat) : Nat → Level → List String →
    Except Stop (Level × List String)
  | 0, level, words => .ok (level, words)
  | _ + 1, level, [] => .ok (level, [])
  | budget + 1, level, word :: words =>
    if word = "--" then .ok ({ level with words := level.words ++ words }, [])
    else if looksLikeOption word.toList then do
      let (level, words) ←
        match word.toList with
        | '-' :: '-' :: name => readLong flags level name words
        | _ :: cluster => readCluster flags cluster.length level cluster words
        | [] => .error .misused
      readWords flags room budget level words
    else if level.words.length < room then
      readWords flags room budget { level with words := level.words ++ [word] } words
    else .ok (level, word :: words)

/-- A kind of action, as it is named on the command line. -/
inductive Verb where
  | deps
  | eval
  | samples
  | substitute
deriving DecidableEq, Inhabited

namespace Verb

/-- The name of the action. -/
def name : Verb → String
  | deps => "deps"
  | eval => "eval"
  | samples => "samples"
  | substitute => "substitute"

/-- All actions. -/
def all : List Verb := [.deps, .eval, .samples, .substitute]

/-- The options that are understood behind the name of the action. -/
def flags : Verb → List Flag
  | deps => .category :: Flag.general
  | eval => .category :: .values :: .placeholder :: Flag.general
  | samples | substitute => .category :: .values :: Flag.general

/-- The action cannot do without a values file. -/
def needsValues : Verb → Bool
  | samples | substitute => true
  | deps | eval => false

end Verb

/-- A command line that is understood. -/
structure Invocation where
  verb : Verb
  source : String
  category : String
  format : Format
  color : String
  verbose : Bool
  valuesPath : Option String
  placeholders : List String
deriving Inhabited

/-- The value of a general option: the one behind the name of the action, else the one before it,
else the default. -/
def generalValue (outer inner : Level) (flag : Flag) (default : String) : String :=
  ((inner.valuesOf flag).head? <|> (outer.valuesOf flag).head?).getD default

/-- The words behind the name of an action. A second formula is a misuse, whatever stands behind
it. -/
def readAction (outer : Level) (verb : Verb) (words : List String) : Except Stop Invocation := do
  let (inner, rest) ← readWords verb.flags 1 words.length {} words
  match inner.words, rest with
  | [source], [] =>
    let path := (inner.valuesOf .values).head?
    if verb.needsValues && path.isNone then .error .misused
    else
      return {
        verb := verb
        source := source
        category := (inner.valuesOf .category).head?.getD "default"
        format := .ofName (generalValue outer inner .format "text")
        color := generalValue outer inner .color "auto"
        verbose := !(outer.valuesOf .verbose ++ inner.valuesOf .verbose).isEmpty
        valuesPath := path
        placeholders := inner.valuesOf .placeholder }
  | _, _ => .error .misused

/-- The words behind `help`: at most the name of one action. -/
def readHelp (words : List String) : Stop :=
  match words with
  | [] => .help
  | [name] =>
    if name = "help" || Verb.all.any (fun v => v.name = name) then .help else .misused
  | _ => .misused

/-- The words of a command line. -/
def Invocation.ofWords (words : List String) : Except Stop Invocation := do
  let (outer, rest) ← readWords (.version :: Flag.general) 0 words.length {} words
  match rest with
  | [] => .error .misused
  | name :: words =>
    if !outer.words.isEmpty then .error .misused
    else if name = "help" then .error (readHelp words)
    else
      match Verb.all.find? fun v => v.name = name with
      | none => .error .misused
      | some verb => readAction outer verb words

namespace Invocation

/-- The action that is asked for. -/
def action (i : Invocation) : Action :=
  match i.verb with
  | .deps => .dependencies
  | .eval => .evaluate i.placeholders
  | .samples => .evaluateSamples
  | .substitute => .substitute

/-- The command to be carried out, with the content of the values file. -/
def request (i : Invocation) (content : String → Except String String) : Request where
  action := i.action
  source := i.source
  category := i.category
  format := i.format
  verbose := i.verbose
  file := i.valuesPath.map fun path => ⟨path, content path⟩

end Invocation

/-- What a program run shows: its exit code and what it wrote. -/
structure Exit where
  code : Nat
  output : String := ""
  errors : String := ""
deriving DecidableEq, Inhabited

/-- How the program of the given name is called. -/
def usage (program : String) : String :=
  String.join <| List.map (· ++ "\n")
    ["Usage: " ++ program ++ " [OPTIONS] <deps|eval|samples|substitute> <EXPRESSION> [OPTIONS]",
      "",
      "Options:",
      "  -c, --category <CATEGORY>      Category for unqualified statistic names",
      "      --values <VALUES>          Values file (JSON object)",
      "  -p, --placeholder <KEY=VALUE>  Placeholder for eval",
      "  -v, --verbose                  Verbose output",
      "  -f, --format <FORMAT>          Output format (text, json)",
      "      --color <COLOR>            Color output (auto, always, never)",
      "  -h, --help                     Print help",
      "  -V, --version                  Print version"]

/-- The number of this version of the program. -/
def versionNumber : String := "0.1.0"

/-- The exit of a command line that is not carried out, for a program of the given name. -/
def Stop.exit (program : String) : Stop → Exit
  | misused => { code := 2, errors := usage program }
  | help => { code := 0, output := usage program }
  | version => { code := 0, output := program ++ " " ++ versionNumber ++ "\n" }

/-- The exit of a command: a failure is shown behind the remarks. -/
def Transcript.exit (t : Transcript) (palette : Palette) (source : String) : Exit :=
  match t.failure with
  | none => { code := 0, output := t.output, errors := t.remarks }
  | some f =>
    { code := 1, output := t.output, errors := t.remarks ++ f.render palette source ++ "\n" }

/-- Carries out an invocation. -/
def Invocation.exit (i : Invocation) (terminal : Bool) (content : String → Except String String) :
    Exit :=
  (run (i.request content)).exit (paletteOfMode terminal i.color) i.source

end DerivedStats.Command
