import FsMeta.Text.Numeral

set_option autoImplicit false

/-!
The command line of the inspector. Arguments are taken from the left, and the first that asks for help
or cannot be taken decides. A directory that stands in an argument of its own is looked at only when the
next option is met or the command is run, so a request for help behind a subcommand comes before it.
-/
namespace FsMeta.Cli

inductive Command where
  | stat (id : Int64)
  | list (id : Int64)
  | blocks (id : Int64)
  | verify
  deriving Repr, DecidableEq

inductive Topic where
  | program
  | stat
  | list
  | blocks
  | verify
  | help
  deriving Repr, DecidableEq

inductive Request where
  | help (topic : Topic)
  | version
  | run (directory : Option String) (command : Command)
  deriving Repr, DecidableEq

inductive Argument where
  | escape
  | long (name : String) (value : Option String)
  | short (letter : Char) (tail : List Char)
  | plain (text : String)
  deriving Repr, DecidableEq

-- What an option asks for. A directory may be missing here and stand in the next argument.
inductive Switch where
  | help
  | version
  | directory (value : Option String)
  deriving Repr, DecidableEq

def attached : List Char → String
  | '=' :: value => String.ofList value
  | value => String.ofList value

namespace Argument

def ofString (text : String) : Argument :=
  match text.toList with
  | ['-', '-'] => escape
  | '-' :: '-' :: rest =>
    let name := String.ofList (rest.takeWhile (· ≠ '='))
    match rest.dropWhile (· ≠ '=') with
    | [] => long name none
    | _ :: value => long name (some (String.ofList value))
  | '-' :: letter :: tail => short letter tail
  | _ => plain text

def asksForHelp : Argument → Bool
  | long "help" none => true
  | short 'h' _ => true
  | _ => false

def switch? : Argument → Option Switch
  | long "version" none => some .version
  | short 'V' _ => some .version
  | long "data-dir" value => some (.directory value)
  | short 'd' [] => some (.directory none)
  | short 'd' tail => some (.directory (some (attached tail)))
  | argument => if argument.asksForHelp then some .help else none

end Argument

inductive Place where
  | closed
  | free
  | taken (id : Int64)
  deriving Repr, DecidableEq

def Place.take (text : String) : Place → Option Place
  | free => Place.taken <$> (Numeral.int64 text).toOption
  | _ => none

inductive Operand where
  | help
  | given (place : Place)
  deriving Repr, DecidableEq

def operand : (place : Place) → (escaped : Bool) → List String → Option Operand
  | place, _, [] => some (.given place)
  | place, true, text :: rest => do
    let place ← place.take text
    operand place true rest
  | place, false, text :: rest =>
    match Argument.ofString text with
    | .escape => operand place true rest
    | .plain text => do
      let place ← place.take text
      operand place false rest
    | argument => if argument.asksForHelp then some .help else none

inductive Choice where
  | help (topic : Topic)
  | run (command : Command)
  deriving Repr, DecidableEq

def withId (topic : Topic) (command : Int64 → Command) (arguments : List String) : Option Choice :=
  match operand .free false arguments with
  | some .help => some (.help topic)
  | some (.given (.taken id)) => some (.run (command id))
  | _ => none

def withoutId (topic : Topic) (command : Command) (arguments : List String) : Option Choice :=
  match operand .closed false arguments with
  | some .help => some (.help topic)
  | some (.given _) => some (.run command)
  | none => none

def helpOn : List String → Option Topic
  | [] => some .program
  | ["stat"] => some .stat
  | ["ls"] => some .list
  | ["blocks"] => some .blocks
  | ["verify-wal"] => some .verify
  | ["help"] => some .help
  | _ => none

def subcommand (name : String) (arguments : List String) : Option Choice :=
  match name with
  | "stat" => withId .stat .stat arguments
  | "ls" => withId .list .list arguments
  | "blocks" => withId .blocks .blocks arguments
  | "verify-wal" => withoutId .verify .verify arguments
  | "help" => Choice.help <$> helpOn arguments
  | _ => none

-- The directory can be given once, and not as an empty text.
def takeDirectory (value : String) : Option String → Option String
  | some _ => none
  | none => if value.isEmpty then none else some value

structure Given where
  settled : Option String := none
  pending : Option String := none
  deriving Repr, DecidableEq

def Given.settle (given : Given) : Option (Option String) :=
  match given.pending with
  | none => some given.settled
  | some value => some <$> takeDirectory value given.settled

-- Help needs no directory, so a pending one stays as it is.
def Choice.request (given : Given) : Choice → Option Request
  | help topic => some (.help topic)
  | run command => do
    let directory ← given.settle
    some (.run directory command)

mutual

def parse (given : Given) : List String → Option Request
  | [] => none
  | text :: rest =>
    match Argument.ofString text with
    | .plain name => do
      let choice ← subcommand name rest
      choice.request given
    | argument => do
      let directory ← given.settle
      match argument.switch? with
      | some .help => some (.help .program)
      | some .version => some .version
      | some (.directory none) => parseDirectory directory rest
      | some (.directory (some value)) => do
        let value ← takeDirectory value directory
        parse { settled := some value } rest
      | none => none

def parseDirectory (directory : Option String) : List String → Option Request
  | [] => none
  | text :: rest =>
    match Argument.ofString text with
    | .plain value => parse { settled := directory, pending := some value } rest
    | _ => none

end

end FsMeta.Cli
