import ShaderAlgebra.CommandLine.Terminal

/-!
# Argument lists

A command has options and places.  An option is named by a word after two dashes
or by a letter after one; it is a flag, or it takes a value, which is attached
(`--output=f`, `-of`) or the next argument.  Any other argument goes into the
next free place, and after `--` every argument does.

An argument is read from left to right, but a value that stands on its own is
looked at only when the next known option or place comes up.  So an unknown
option is reported before a bad value in front of it.
-/

namespace ShaderAlgebra
namespace CommandLine

/-- Why an argument list is refused. -/
inductive UsageFault where
  /-- An option that does not exist, or an argument without a place. -/
  | unexpected (arg : String)
  /-- A value that cannot be read. -/
  | invalid (value label reason : String)
  /-- An option without its value, or with an empty one. -/
  | valueMissing (label : String)
  /-- An option that is given twice. -/
  | repeated (label : String)
  /-- A flag with a value. -/
  | surplusValue (value label : String)
  /-- A place that is left free. -/
  | argumentsMissing
  /-- A command that does not exist. -/
  | unknownCommand (name : String)
deriving DecidableEq, Repr

namespace UsageFault

open Terminal (quote)

/-- The words for a fault, set for a terminal. -/
def message : UsageFault → String
  | unexpected arg => "unexpected argument " ++ quote arg ++ " found"
  | invalid value label reason =>
    "invalid value " ++ quote value ++ " for " ++ quote label ++ ": " ++ reason
  | valueMissing label => "a value is required for " ++ quote label ++ " but none was supplied"
  | repeated label => "the argument " ++ quote label ++ " cannot be used multiple times"
  | surplusValue value label =>
    "unexpected value " ++ quote value ++ " for " ++ quote label ++ " found; no more were expected"
  | argumentsMissing => "the following required arguments were not provided:"
  | unknownCommand name => "unrecognized subcommand " ++ quote name

end UsageFault

/-- The topics on which help is given. -/
inductive Topic where
  | program
  | compile
  | header
  | types
deriving DecidableEq, Repr

/-- Why there is no request to carry out. -/
inductive Halt where
  | fault (f : UsageFault)
  /-- Help was asked for. -/
  | help (topic : Topic)
  /-- The version was asked for. -/
  | version
  /-- No command was given. -/
  | noCommand
deriving DecidableEq, Repr

/-- An option or place of a command, which is read into `σ`. -/
structure Argument (σ : Type) where
  /-- How the argument is called in messages. -/
  label : String
  short : Option Char := none
  /-- The name of an option; a place has none. -/
  long : Option String := none
  /-- Whether the argument is or takes a value; a flag does not. -/
  valued : Bool := true
  /-- Whether the argument has been given and may not be given again. -/
  given : σ → Bool
  read : String → σ → Except Halt σ

/-- A text cut at the first `c`, which is dropped. -/
def cut (c : Char) (text : List Char) : String × Option String :=
  match text.span (· != c) with
  | (first, []) => (String.ofList first, none)
  | (first, _ :: rest) => (String.ofList first, some (String.ofList rest))

/-- What has been read of an argument list. -/
structure Reading (σ : Type) where
  acc : σ
  /-- The argument whose value is still to come or to be looked at. -/
  pending : Option (Argument σ × Option String) := none
  /-- The places that are free. -/
  places : List (Argument σ)
  /-- Whether options have ended. -/
  literal : Bool := false

namespace Reading

variable {σ : Type}

/-- Reads the value of an argument. -/
def take (r : Reading σ) (a : Argument σ) (value : String) : Except Halt (Reading σ) := do
  if a.given r.acc then throw (.fault (.repeated a.label))
  let acc ← a.read value r.acc
  return { r with acc }

/-- Looks at the value that is pending. -/
def settle (r : Reading σ) : Except Halt (Reading σ) :=
  match r.pending with
  | none => .ok r
  | some (a, none) => .error (.fault (.valueMissing a.label))
  | some (a, some value) => { r with pending := none }.take a value

/-- Meets an option, with the value that is attached to it. -/
def meet (r : Reading σ) (a : Argument σ) (attached : Option String) : Except Halt (Reading σ) :=
  match a.valued, attached with
  | true, some value => do
    let r ← r.settle
    r.take a value
  | true, none => do
    let r ← r.settle
    return { r with pending := some (a, none) }
  | false, some value => .error (.fault (.surplusValue value a.label))
  | false, none => do
    let r ← r.settle
    r.take a ""

/-- The value after the letter of an option. -/
def attachedTo : List Char → Option String
  | [] => none
  | '=' :: value => some (String.ofList value)
  | value => some (String.ofList value)

/-- Meets options by their letters. -/
def letters (options : List (Argument σ)) (r : Reading σ) : List Char → Except Halt (Reading σ)
  | [] => .ok r
  | c :: rest =>
    match options.find? (·.short == some c) with
    | none => .error (.fault (.unexpected (String.ofList ['-', c])))
    | some a =>
      if a.valued then r.meet a (attachedTo rest)
      else do
        let r ← r.meet a none
        letters options r rest

/-- Meets an option by its name. -/
def long (options : List (Argument σ)) (r : Reading σ) (text : List Char) :
    Except Halt (Reading σ) :=
  let (name, value) := cut '=' text
  match options.find? (·.long == some name) with
  | none => .error (.fault (.unexpected ("--" ++ name)))
  | some a => r.meet a value

/-- Meets a plain argument: the value that is pending, or the next place. -/
def plain (r : Reading σ) (arg : String) : Except Halt (Reading σ) :=
  match r.literal, r.pending, r.places with
  | false, some (a, none), _ => .ok { r with pending := some (a, some arg) }
  | _, _, [] => .error (.fault (.unexpected arg))
  | _, _, a :: places => do
    let r ← r.settle
    return { r with pending := some (a, some arg), places }

/-- Meets the next argument. -/
def step (options : List (Argument σ)) (r : Reading σ) (arg : String) : Except Halt (Reading σ) :=
  match r.literal, arg.toList with
  | false, ['-', '-'] => .ok { r with literal := true }
  | false, '-' :: '-' :: text => r.long options text
  | false, '-' :: c :: text => r.letters options (c :: text)
  | _, _ => r.plain arg

/-- What has been read at the end of the list. -/
def finish (r : Reading σ) : Except Halt σ := do
  let r ← r.settle
  unless r.places.isEmpty do
    throw (.fault .argumentsMissing)
  return r.acc

end Reading

/-- Reads an argument list with options and places, starting from `start`. -/
def readArguments {σ : Type} (options places : List (Argument σ)) (start : σ) (args : List String) :
    Except Halt σ := do
  let r ← args.foldlM (Reading.step options) { acc := start, places }
  r.finish

end CommandLine
end ShaderAlgebra
