import SymbolicAlgebra.Text.Digit
/-!
# Arguments of the command line

`Invocation.ofArguments` reads what is to be done:

* `[-v] eval TEXT`
* `[-v] simplify [--target NAME] [--canonical] [--tree] TEXT`
* `[-v] solve --for NAME [--canonical] [--tree] TEXT`

Options may stand on either side of the text. The beginning of a long option stands for the option
if no other begins so, and its value may follow after `=`. Options of one letter may share a dash,
and then every letter must name one, so `-hx` is neither help nor a text. After `--` nothing is an
option. An argument that begins with a dash and with no option is a word when it is a negative number
or contains a space.

Each command has options of its own. The arguments are sorted into options and words before any
option takes effect, for the program first and for the command then.
-/
namespace SymbolicAlgebra.CommandLine

inductive Switch
  | help
  | version
  | verbose
  /-- Names a variable. -/
  | target
  | canonical
  | tree
deriving DecidableEq, Repr

/-- The spellings of the options that are understood in one place. -/
abbrev Vocabulary := List (List Char × Switch)

def Vocabulary.ofStrings (spellings : List (String × Switch)) : Vocabulary :=
  spellings.map fun (s, o) => (s.toList, o)

/-- The option with exactly the given spelling. -/
def Vocabulary.find? (v : Vocabulary) (spelling : List Char) : Option Switch := v.lookup spelling

/-- What is written together with an option. -/
inductive Attachment
  | nothing
  /-- A value after a long option and `=`. -/
  | value (text : List Char)
  /-- More letters after an option of one letter, with or without `=` between them. -/
  | letters (rest : List Char)
deriving DecidableEq, Repr

/-- What an argument is. -/
inductive Piece
  | word (text : String)
  /-- The argument `--`. -/
  | separator
  | option (o : Switch) (attached : Attachment)
  /-- An argument in the form of an option that names none. -/
  | stray
deriving DecidableEq, Repr

/-- Why there is nothing to do. -/
inductive Stop
  | help
  | version
  | badUsage
deriving DecidableEq, Repr

/-- A text up to its first `=`, and what follows the sign. -/
def splitValue (cs : List Char) : List Char × Option (List Char) :=
  match cs.dropWhile (· != '=') with
  | [] => (cs, none)
  | _ :: value => (cs.takeWhile (· != '='), some value)

/-- What `=` attaches to an option of the given spelling. -/
def Attachment.ofValue (spelling value : List Char) : Attachment :=
  match spelling with
  | '-' :: '-' :: _ => .value value
  | _ => .letters value

/-- The options that an argument may stand for. One with two dashes may be cut short, and one with
one dash may have more letters behind the first. -/
def candidates (v : Vocabulary) (cs : List Char) : List Piece :=
  match cs with
  | '-' :: '-' :: _ =>
    let (beginning, value) := splitValue cs
    let attached := (value.map Attachment.value).getD .nothing
    v.filterMap fun (spelling, o) =>
      if beginning.isPrefixOf spelling then some (.option o attached) else none
  | _ =>
    v.filterMap fun (spelling, o) =>
      if spelling = cs.take 2 then some (.option o (.letters (cs.drop 2)))
      else if cs.isPrefixOf spelling then some (.option o .nothing)
      else none

/-- Whether a text is a dash and a number without an exponent. The point needs a digit behind it,
and a line end may follow. -/
def isNegativeNumber (cs : List Char) : Bool :=
  match cs with
  | '-' :: rest =>
    let body := if rest.getLast? = some '\n' then rest.dropLast else rest
    match body.dropWhile Text.isDecimalDigit with
    | [] => !body.isEmpty
    | '.' :: places => !places.isEmpty && places.all Text.isDecimalDigit
    | _ => false
  | _ => false

/-- Sorts one argument other than `--`. -/
def Piece.ofArgument (v : Vocabulary) (arg : String) : Except Stop Piece :=
  let cs := arg.toList
  if cs.head? != some '-' then .ok (.word arg)
  else match v.find? cs with
    | some o => .ok (.option o .nothing)
    | none =>
      if cs.length = 1 then .ok (.word arg)
      else match splitValue cs with
        | (spelling, some value) =>
          match v.find? spelling with
          | some o => .ok (.option o (.ofValue spelling value))
          | none => ofCandidates cs
        | _ => ofCandidates cs
where
  /-- An argument that is spelled like no option. -/
  ofCandidates (cs : List Char) : Except Stop Piece :=
    match candidates v cs with
    | [piece] => .ok piece
    | _ :: _ :: _ => .error .badUsage
    | [] => if isNegativeNumber cs || cs.contains ' ' then .ok (.word arg) else .ok .stray

/-- Sorts the arguments of one place. All after `--` are words. -/
def Piece.ofArguments (v : Vocabulary) : List String → Except Stop (List Piece)
  | [] => .ok []
  | "--" :: rest => .ok (.separator :: rest.map .word)
  | arg :: rest => do
    let piece ← ofArgument v arg
    let pieces ← ofArguments v rest
    return piece :: pieces

/-- The options that letters behind a dash name. There is at least one letter, and all name one. -/
def lettered (v : Vocabulary) (letters : List Char) : Except Stop (List Switch) :=
  if letters.isEmpty then .error .badUsage
  else letters.mapM fun c =>
    match v.find? ['-', c] with
    | some o => .ok o
    | none => .error .badUsage

/-- The options without value that one argument gives, in order. -/
def flags (v : Vocabulary) (o : Switch) : Attachment → Except Stop (List Switch)
  | .nothing => .ok [o]
  | .value _ => .error .badUsage
  | .letters rest => (lettered v rest).map (o :: ·)

/-- The form in which a tree is printed. -/
inductive Style
  | typeset
  | canonical
  | tree
deriving DecidableEq, Repr

inductive Command
  | eval (text : String)
  | simplify (text target : String) (style : Style)
  | solve (text target : String) (style : Style)
deriving DecidableEq, Repr

/-- What a command line asks for. -/
structure Invocation where
  /-- Whether to log every event. -/
  verbose : Bool
  command : Command
deriving DecidableEq, Repr

/-- What the arguments of a command say. -/
structure Choices where
  text : Option String := none
  target : Option String := none
  canonical : Bool := false
  tree : Bool := false
  /-- Whether an argument was not understood. -/
  stray : Bool := false
deriving DecidableEq, Repr

namespace Choices

/-- A tree is printed rather than a canonical form when both are asked for. -/
def style (c : Choices) : Style :=
  if c.tree then .tree else if c.canonical then .canonical else .typeset

/-- A word is the text, and only one text is understood. -/
def addWord (c : Choices) (word : String) : Choices :=
  if c.text.isNone then { c with text := some word } else { c with stray := true }

/-- An option without value takes effect. -/
def addFlag (c : Choices) : Switch → Except Stop Choices
  | .help => .error .help
  | .version => .error .version
  | .canonical => .ok { c with canonical := true }
  | .tree => .ok { c with tree := true }
  | .verbose | .target => .ok c

/-- Goes through the arguments of a command. The separator must stand directly before or behind the
text. -/
def ofPieces (v : Vocabulary) (c : Choices) : List Piece → Except Stop Choices
  | [] => .ok c
  | .separator :: .word w :: rest =>
    ofPieces v (if c.text.isNone then c.addWord w else { c with stray := true }) rest
  | .word w :: .separator :: rest =>
    ofPieces v (if c.text.isNone then c.addWord w else { c with stray := true }) rest
  | .separator :: rest => ofPieces v { c with stray := true } rest
  | .word w :: rest => ofPieces v (c.addWord w) rest
  | .stray :: rest => ofPieces v { c with stray := true } rest
  | .option .target (.value text) :: rest =>
    ofPieces v { c with target := some (String.ofList text) } rest
  | .option .target .nothing :: .word w :: rest => ofPieces v { c with target := some w } rest
  | .option .target _ :: _ => .error .badUsage
  | .option o attached :: rest => do
    let given ← flags v o attached
    ofPieces v (← given.foldlM addFlag c) rest

end Choices

def helpSpellings : List (String × Switch) := [("-h", .help), ("--help", .help)]

def styleSpellings : List (String × Switch) := [("--canonical", .canonical), ("--tree", .tree)]

/-- Options before a command. -/
def programOptions : Vocabulary := .ofStrings
  (helpSpellings ++ [("--version", .version), ("-v", .verbose), ("--verbose", .verbose)])

/-- Goes through the arguments of one command. -/
def Choices.ofArguments (spellings : List (String × Switch)) (args : List String) :
    Except Stop Choices := do
  let v := Vocabulary.ofStrings (helpSpellings ++ spellings)
  Choices.ofPieces v {} (← Piece.ofArguments v args)

/-- The command with the given name and arguments. What the arguments leave out is supplied or, for
the text and the variable to solve for, demanded. -/
def Command.ofArguments (defaultTarget name : String) (args : List String) :
    Except Stop Command := do
  match name with
  | "eval" => do
    let c ← Choices.ofArguments [] args
    match c.stray, c.text with
    | false, some text => return .eval text
    | _, _ => throw .badUsage
  | "simplify" => do
    let c ← Choices.ofArguments (("--target", .target) :: styleSpellings) args
    match c.stray, c.text with
    | false, some text => return .simplify text (c.target.getD defaultTarget) c.style
    | _, _ => throw .badUsage
  | "solve" => do
    let c ← Choices.ofArguments (("--for", .target) :: styleSpellings) args
    match c.stray, c.text, c.target with
    | false, some text, some target => return .solve text target c.style
    | _, _, _ => throw .badUsage
  | _ => throw .badUsage

/-- What the options before a command say so far. -/
structure Preamble where
  verbose : Bool := false
  /-- Whether an argument was not understood. -/
  stray : Bool := false
deriving DecidableEq, Repr

/-- An option before a command takes effect. -/
def Preamble.addFlag (p : Preamble) : Switch → Except Stop Preamble
  | .help => .error .help
  | .version => .error .version
  | .verbose => .ok { p with verbose := true }
  | .target | .canonical | .tree => .ok p

/-- Goes through the options before a command up to its name. All arguments behind the name belong
to the command. -/
def Invocation.ofPieces (defaultTarget : String) (p : Preamble) :
    List Piece → List String → Except Stop Invocation
  | .word name :: _, _ :: args => do
    let command ← Command.ofArguments defaultTarget name args
    if p.stray then throw .badUsage else return ⟨p.verbose, command⟩
  | .option o attached :: pieces, _ :: args => do
    let given ← flags programOptions o attached
    ofPieces defaultTarget (← given.foldlM Preamble.addFlag p) pieces args
  | .stray :: pieces, _ :: args => ofPieces defaultTarget { p with stray := true } pieces args
  | _, _ => throw .badUsage

/-- What the arguments ask for. -/
def Invocation.ofArguments (defaultTarget : String) (args : List String) :
    Except Stop Invocation := do
  let pieces ← Piece.ofArguments programOptions args
  ofPieces defaultTarget {} pieces args

end SymbolicAlgebra.CommandLine
