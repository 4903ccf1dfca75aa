import PullStream.Markup.Document
import PullStream.Outline
import PullStream.Census

/-!
# The command line

`parse` reads the arguments from left to right; the first one that is out of place, or that asks for
help or the version, settles the matter. `Command.answer` turns the text that a command is given
into what it prints. Reading files and printing are left to the caller.
-/

set_option autoImplicit false

namespace PullStream.CommandLine

structure OutlineOptions where
  infile : Option String
  prune : List String
  maxDepth : Option Nat

structure NamesOptions where
  infile : Option String
  separator : Option String
  count : Bool

inductive Command where
  | outline (o : OutlineOptions)
  | names (o : NamesOptions)

inductive Topic where
  | program
  | outline
  | names
  | help

inductive Invocation where
  | run (c : Command)
  | help (t : Topic)
  | version
  | refused

/-! ## Arguments -/

inductive Argument where
  | escape
  | long (name : String) (attached : Option String)
  | short (letters : List Char)
  | plain (value : String)

/-- The name of a long option ends at the first equals sign, behind which its value is attached. -/
def splitLong (cs : List Char) : Argument :=
  let name := String.ofList (cs.takeWhile (· ≠ '='))
  match cs.dropWhile (· ≠ '=') with
  | [] => .long name none
  | _ :: value => .long name (some (String.ofList value))

/-- A lone hyphen is a value. -/
def Argument.ofString (s : String) : Argument :=
  match s.toList with
  | ['-', '-'] => .escape
  | '-' :: '-' :: cs => splitLong cs
  | ['-'] => .plain s
  | '-' :: cs => .short cs
  | _ => .plain s

/-- Decimal digits, perhaps with a plus sign before them, of a number that fits 64 bits. -/
def size? (s : String) : Option Nat :=
  let digits := match s.toList with
    | '+' :: cs => cs
    | cs => cs
  if digits.isEmpty || !digits.all Char.isDigit then none
  else
    let n := digits.foldl (fun n c => 10 * n + (c.toNat - 48)) 0
    if n < UInt64.size then some n else none

/-- The options of a command while they are read: how a flag and a value is taken, and what the
command is in the end. Nothing is taken twice that can be given only once. -/
class Options (ο : Type) where
  start : ο
  topic : Topic
  takesValue : String → Bool
  flag : ο → String → Option ο
  value : ο → String → String → Option ο
  file : ο → String → Option ο
  command : ο → Command

def onlyOnce {α : Type} (before : Option α) (value : Option α) : Option (Option α) :=
  if before.isSome then none else value.map some

/-- A file has a name. -/
def file? (before : Option String) (path : String) : Option (Option String) :=
  onlyOnce before (if path.isEmpty then none else some path)

instance : Options OutlineOptions where
  start := ⟨none, [], none⟩
  topic := .outline
  takesValue name := name = "prune" || name = "max-depth"
  flag _ _ := none
  value o name v :=
    if name = "prune" then some { o with prune := o.prune ++ [v] }
    else (onlyOnce o.maxDepth (size? v)).map fun d => { o with maxDepth := d }
  file o path := (file? o.infile path).map fun f => { o with infile := f }
  command := .outline

instance : Options NamesOptions where
  start := ⟨none, none, false⟩
  topic := .names
  takesValue name := name = "separator"
  flag o name := if name = "count" && !o.count then some { o with count := true } else none
  value o _ v := (onlyOnce o.separator (some v)).map fun s => { o with separator := s }
  file o path := (file? o.infile path).map fun f => { o with infile := f }
  command := .names

section

variable {ο : Type} [Options ο]

/-- What stands behind an escape is a file, whatever it looks like. -/
def parseFiles : ο → List String → Invocation
  | o, [] => .run (Options.command o)
  | o, path :: rest =>
    match Options.file o path with
    | some o => parseFiles o rest
    | none => .refused

/-- `pending` is the option that the next argument is the value of. -/
def parseOptions : Option String → ο → List String → Invocation
  | none, o, [] => .run (Options.command o)
  | some _, _, [] => .refused
  | some name, o, a :: rest =>
    match Argument.ofString a with
    | .plain v =>
      match Options.value o name v with
      | some o => parseOptions none o rest
      | none => .refused
    | _ => .refused
  | none, o, a :: rest =>
    match Argument.ofString a with
    | .escape => parseFiles o rest
    | .plain path =>
      match Options.file o path with
      | some o => parseOptions none o rest
      | none => .refused
    | .short ('h' :: _) => .help (Options.topic ο)
    | .short _ => .refused
    | .long "help" none => .help (Options.topic ο)
    | .long name attached =>
      if Options.takesValue ο name then
        match attached with
        | none => parseOptions (some name) o rest
        | some v =>
          match Options.value o name v with
          | some o => parseOptions none o rest
          | none => .refused
      else if attached.isSome then .refused
      else
        match Options.flag o name with
        | some o => parseOptions none o rest
        | none => .refused

end

def parseHelp : List String → Invocation
  | [] => .help .program
  | ["outline"] => .help .outline
  | ["names"] => .help .names
  | ["help"] => .help .help
  | _ => .refused

def parse : List String → Invocation
  | [] => .refused
  | a :: rest =>
    match Argument.ofString a with
    | .plain "outline" => parseOptions none (Options.start : OutlineOptions) rest
    | .plain "names" => parseOptions none (Options.start : NamesOptions) rest
    | .plain "help" => parseHelp rest
    | .short ('h' :: _) | .long "help" none => .help .program
    | .short ('V' :: _) | .long "version" none => .version
    | _ => .refused

/-! ## Answers -/

def versionText : String := "grove 0.1.0\n"

def helpText : Topic → String
  | .program =>
    "Grove CLI. Outlines and element listings for XML documents\n\n" ++
    "Usage: grove <COMMAND>\n\n" ++
    "Commands:\n" ++
    "  outline  Print the element outline of an XML document\n" ++
    "  names    List the distinct element names of an XML document, in document order\n" ++
    "  help     Print this message or the help of the given subcommand(s)\n\n" ++
    "Options:\n" ++
    "  -h, --help     Print help\n" ++
    "  -V, --version  Print version\n"
  | .outline =>
    "Print the element outline of an XML document\n\n" ++
    "Usage: grove outline [OPTIONS] [INFILE]\n\n" ++
    "Arguments:\n" ++
    "  [INFILE]  input xml file (default stdin)\n\n" ++
    "Options:\n" ++
    "      --prune <PRUNE>          Element name whose descendants are left out of the outline " ++
    "(can be repeated). The element itself is still shown\n" ++
    "      --max-depth <MAX_DEPTH>  Do not show elements nested deeper than this below the " ++
    "document element\n" ++
    "  -h, --help                   Print help\n"
  | .names =>
    "List the distinct element names of an XML document, in document order\n\n" ++
    "Usage: grove names [OPTIONS] [INFILE]\n\n" ++
    "Arguments:\n" ++
    "  [INFILE]  input xml file (default stdin)\n\n" ++
    "Options:\n" ++
    "      --separator <SEPARATOR>  Separator placed between names [default: \"\\n\"]\n" ++
    "      --count                  Show how often each name occurs\n" ++
    "  -h, --help                   Print help\n"
  | .help =>
    "Print this message or the help of the given subcommand(s)\n\n" ++
    "Usage: grove help [COMMAND]...\n\n" ++
    "Arguments:\n" ++
    "  [COMMAND]...  Print help for the subcommand(s)\n"

/-- Why a command prints nothing. -/
inductive Failure where
  | unreadableFile (path : String)
  | unreadableInput
  | malformed (origin : String)
deriving DecidableEq, Repr

def Failure.message : Failure → String
  | unreadableFile path => "cannot read " ++ path
  | unreadableInput => "cannot read stdin"
  | malformed origin => origin ++ " is not well-formed XML"

def readDocument (xml origin : String) : Except Failure Markup.Node :=
  match Markup.read xml with
  | some root => .ok root
  | none => .error (.malformed origin)

namespace Command

def infile : Command → Option String
  | outline o => o.infile
  | names o => o.infile

def origin (c : Command) : String := c.infile.getD "<stdin>"

def unreadable (c : Command) : Failure :=
  match c.infile with
  | some path => .unreadableFile path
  | none => .unreadableInput

/-- An outline brings its own line ends; a list of names gets one at its end. -/
def write (root : Markup.Node) : Command → String
  | outline o => Outline.write ⟨o.prune, o.maxDepth⟩ root
  | names o => Census.write ⟨o.separator.getD "\n", o.count⟩ root ++ "\n"

/-- What the command prints for the bytes it was given; there are none if they could not be read. -/
def answer (c : Command) (input : Option ByteArray) : Except Failure String :=
  match input.bind String.fromUTF8? with
  | none => .error c.unreadable
  | some xml => (readDocument xml c.origin).map fun root => c.write root

end Command

structure Result where
  code : UInt32
  output : String
  error : Option String

def Command.result (c : Command) (input : Option ByteArray) : Result :=
  match c.answer input with
  | .ok text => ⟨0, text, none⟩
  | .error e => ⟨1, "", some ("Error: " ++ e.message)⟩

/-- The result of all that is settled by the arguments alone. -/
def Invocation.settled : Invocation → Result ⊕ Command
  | run c => .inr c
  | help t => .inl ⟨0, helpText t, none⟩
  | version => .inl ⟨0, versionText, none⟩
  | refused => .inl ⟨2, "", some (helpText .program)⟩

end PullStream.CommandLine
