import PathQuery.Command.Basic

/-!
# The command line

`jmesc compile AST [-n NAME] [-d DISPLAY]` prints a listing, `jmesc run AST [-i INPUT] [-p]` an
answer. Options may stand before or after the syntax tree; a value may be attached to its option,
and short options may be joined. A value that stands apart must not start with a dash. `-v` may be
given anywhere, any number of times.
-/

namespace PathQuery.Command

/-- What the command line asks for. -/
inductive Invocation where
  | version
  | compile (text : String) (options : Procedure.Options)
  | run (text : String) (input : Option String) (pretty : Bool)

/-- An option of a subcommand, by the letter and the word it is given with. -/
structure Flag where
  letter : Char
  word : String
  takesValue : Bool
  /-- The option may be given more than once. -/
  repeatable : Bool := false

def verboseFlag : Flag where
  letter := 'v'
  word := "verbose"
  takesValue := false
  repeatable := true

def compileFlags : List Flag :=
  [⟨'n', "name", true, false⟩, ⟨'d', "display", true, false⟩, verboseFlag]

def runFlags : List Flag :=
  [⟨'i', "input", true, false⟩, ⟨'p', "pretty", false, false⟩, verboseFlag]

/-- The arguments of a subcommand as they were given: options by their letter, and the syntax
tree. -/
structure Given where
  text : Option String := none
  flags : List (Char × String) := []

namespace Given

/-- Adds an option, unless it must not be repeated. -/
def addFlag (given : Given) (flag : Flag) (value : String) : Option Given :=
  if flag.repeatable || (given.flags.lookup flag.letter).isNone then
    some { given with flags := (flag.letter, value) :: given.flags }
  else none

/-- Adds the syntax tree, of which there is only one. -/
def addText (given : Given) (text : String) : Option Given :=
  match given.text with
  | none => some { given with text := some text }
  | some _ => none

end Given

/-- An argument that is read as an option. A lone dash is not. -/
def isOption (arg : String) : Bool :=
  match arg.toList with
  | ['-'] => false
  | '-' :: _ => true
  | _ => false

/-- The value of an option that stands apart from it: the next argument, unless that is an option.
-/
def nextValue : List String → Option (String × List String)
  | arg :: args => if isOption arg then none else some (arg, args)
  | [] => none

/-- A word option, with the value that may follow an equals sign. Returns the arguments that are
left. -/
def readWord (flags : List Flag) (word : List Char) (args : List String) (given : Given) :
    Option (Given × List String) :=
  let name := String.ofList (word.takeWhile (· != '='))
  let attached := word.dropWhile (· != '=')
  match flags.find? fun flag => flag.word == name with
  | none => none
  | some flag =>
    match flag.takesValue, attached with
    | true, _ :: value => (given.addFlag flag (String.ofList value)).map (·, args)
    | true, [] =>
      match nextValue args with
      | some (value, args) => (given.addFlag flag value).map (·, args)
      | none => none
    | false, [] => (given.addFlag flag "").map (·, args)
    | false, _ :: _ => none

/-- Joined letter options. The rest of the letters is the value of the first one that takes a
value, with or without an equals sign. -/
def readLetters (flags : List Flag) (args : List String) :
    List Char → Given → Option (Given × List String)
  | [], given => some (given, args)
  | letter :: letters, given =>
    match flags.find? fun flag => flag.letter == letter with
    | none => none
    | some flag =>
      if flag.takesValue then
        match letters with
        | [] =>
          match nextValue args with
          | some (value, args) => (given.addFlag flag value).map (·, args)
          | none => none
        | '=' :: value => (given.addFlag flag (String.ofList value)).map (·, args)
        | value => (given.addFlag flag (String.ofList value)).map (·, args)
      else
        match given.addFlag flag "" with
        | some given => readLetters flags args letters given
        | none => none

/-- Arguments after a double dash are not options. -/
def readPlain : List String → Given → Option Given
  | [], given => some given
  | arg :: args, given =>
    match given.addText arg with
    | some given => readPlain args given
    | none => none

/-- Reads the arguments of a subcommand; `bound` is at least their number. -/
def readArgs (flags : List Flag) : (bound : Nat) → List String → Given → Option Given
  | _, [], given => some given
  | 0, _ :: _, _ => none
  | bound + 1, arg :: args, given =>
    match arg.toList with
    | ['-', '-'] => readPlain args given
    | '-' :: '-' :: word =>
      match readWord flags word args given with
      | some (given, args) => readArgs flags bound args given
      | none => none
    | '-' :: letter :: letters =>
      match readLetters flags args (letter :: letters) given with
      | some (given, args) => readArgs flags bound args given
      | none => none
    | _ =>
      match given.addText arg with
      | some given => readArgs flags bound args given
      | none => none

/-- Reads the arguments of `compile`. -/
def readCompile (args : List String) : Option Invocation := do
  let given ← readArgs compileFlags args.length args {}
  let text ← given.text
  let name := (given.flags.lookup 'n').getD "compiled"
  let display := (given.flags.lookup 'd').getD ""
  return .compile text ⟨name, display⟩

/-- Reads the arguments of `run`. -/
def readRun (args : List String) : Option Invocation := do
  let given ← readArgs runFlags args.length args {}
  let text ← given.text
  return .run text (given.flags.lookup 'i') (given.flags.lookup 'p').isSome

/-- Letters before the subcommand: `v` any number of times, and `V` for the version. -/
inductive Lead where
  | verbose
  | version
  | unknown

def leadLetters : List Char → Lead
  | [] => .verbose
  | 'v' :: letters => leadLetters letters
  | 'V' :: _ => .version
  | _ => .unknown

/-- Reads a command line. There is none to read where a subcommand or its syntax tree is missing,
an option is unknown, repeated or without its value, or an argument is left over. -/
def Invocation.ofArgs? : List String → Option Invocation
  | [] => none
  | "compile" :: args => readCompile args
  | "run" :: args => readRun args
  | "--verbose" :: args => ofArgs? args
  | "--version" :: _ => some .version
  | arg :: args =>
    match arg.toList with
    | '-' :: '-' :: _ => none
    | '-' :: letter :: letters =>
      match leadLetters (letter :: letters) with
      | .verbose => ofArgs? args
      | .version => some .version
      | .unknown => none
    | _ => none

/-- What the program prints and the code it ends with. -/
structure Report where
  code : Nat
  out : String := ""
  err : String := ""

namespace Report

/-- The report on a command that failed. -/
def ofError (error : CommandError) : Report where
  code := 1
  err := error.message ++ "\n"

/-- The report on arguments that do not form a command line. -/
def usage : Report where
  code := 2

end Report

namespace Invocation

/-- The command reads its input from the standard input. -/
def readsInput : Invocation → Bool
  | .run _ none _ => true
  | _ => false

/-- Carries out a command; `stdin` is the standard input where the command reads it and it is not
a terminal. -/
def report (stdin : Option String) : Invocation → Report
  | .version => { code := 0, out := "jmesc 0.1.0\n" }
  | .compile text options =>
    match Command.compile text options with
    | .ok procedure => { code := 0, out := procedure.source }
    | .error error => .ofError error
  | .run text input pretty =>
    match Command.run text (input.orElse fun _ => stdin) with
    | .ok json => { code := 0, out := (if pretty then json.pretty else json.compact) ++ "\n" }
    | .error error => .ofError error

end Invocation

end PathQuery.Command
