import ShaderAlgebra.CommandLine.Argument
import ShaderAlgebra.Image

/-!
# Requests

What the program can be asked to do: compile a program file, print the
definitions it needs, or show how a vector is split.  A request is read off the
argument list before any file is touched.
-/

namespace ShaderAlgebra
namespace CommandLine

/-- What the program is asked to do. -/
inductive Request where
  /-- Compile a program file with extra images, to an expression or a complete fragment shader, and
  print the text or write it to a file. -/
  | compile (input : String) (images : List (String × Image)) (fragment : Bool)
    (output : Option String)
  /-- Print the definitions of a program file. -/
  | header (input : String)
  /-- Show how the vectors of a length are split. -/
  | types (length : Nat)
deriving DecidableEq, Repr

/-! ## Values -/

/-- Why a text is not a natural number below a bound. -/
inductive NatFault where
  | empty
  | digit
  | large
deriving DecidableEq, Repr

namespace NatFault

/-- The words for a fault. -/
def message : NatFault → String
  | empty => "cannot parse integer from empty string"
  | digit => "invalid digit found in string"
  | large => "number too large to fit in target type"

end NatFault

/-- Reads digits after those of `n`, up to the first fault. -/
def readDigits (bound n : Nat) : List Char → Except NatFault Nat
  | [] => .ok n
  | c :: rest =>
    if ¬ c.isDigit then .error .digit
    else
      let n := 10 * n + (c.toNat - '0'.toNat)
      if n < bound then readDigits bound n rest else .error .large

/-- Reads a natural number below a bound.  It may have a plus sign. -/
def readNat (bound : Nat) (text : String) : Except NatFault Nat :=
  match text.toList with
  | [] => .error .empty
  | ['+'] => .error .digit
  | '+' :: digits => readDigits bound 0 digits
  | digits => readDigits bound 0 digits

/-- Reads one side of an image. -/
def readSide (what text : String) : Except String UInt32 :=
  match readNat UInt32.size text with
  | .ok n => .ok (UInt32.ofNat n)
  | .error f => .error ("bad " ++ what ++ " '" ++ text ++ "': " ++ f.message)

/-- Reads an image in the form `NAME=WIDTHxHEIGHT`. -/
def readImage (text : String) : Except String (String × Image) := do
  let (name, some size) := cut '=' text.toList
    | throw ("expected NAME=WIDTHxHEIGHT, got '" ++ text ++ "'")
  let (w, some h) := cut 'x' size.toList
    | throw ("expected WIDTHxHEIGHT, got '" ++ size ++ "'")
  let width ← readSide "width" w
  let height ← readSide "height" h
  if width = 0 ∨ height = 0 then throw ("image '" ++ name ++ "' has zero size")
  return (name, { width, height })

/-- Reads the path of a file, which is not empty. -/
def readPath (label text : String) : Except Halt String :=
  if text.isEmpty then .error (.fault (.valueMissing label)) else .ok text

/-! ## Commands -/

/-- The option that asks for help. -/
def helpFlag {σ : Type} (topic : Topic) : Argument σ where
  label := "--help"
  short := some 'h'
  long := some "help"
  valued := false
  given := fun _ => false
  read := fun _ _ => .error (.help topic)

/-- The option that asks for the version. -/
def versionFlag {σ : Type} : Argument σ where
  label := "--version"
  short := some 'V'
  long := some "version"
  valued := false
  given := fun _ => false
  read := fun _ _ => .error .version

/-- What has been read of a request to compile. -/
structure Draft where
  input : Option String := none
  images : List (String × Image) := []
  fragment : Bool := false
  output : Option String := none

/-- The place for the input file. -/
def inputPlace : Argument Draft where
  label := "<INPUT>"
  given := fun d => d.input.isSome
  read := fun text d => return { d with input := some (← readPath "<INPUT>" text) }

/-- The options of a request to compile. -/
def compileOptions : List (Argument Draft) :=
  [{ label := "--image <IMAGES>"
     long := some "image"
     given := fun _ => false
     read := fun text d =>
      match readImage text with
      | .ok image => .ok { d with images := d.images ++ [image] }
      | .error reason => .error (.fault (.invalid text "--image <IMAGES>" reason)) },
   { label := "--fragment"
     long := some "fragment"
     valued := false
     given := fun d => d.fragment
     read := fun _ d => .ok { d with fragment := true } },
   { label := "--output <OUTPUT>"
     short := some 'o'
     long := some "output"
     given := fun d => d.output.isSome
     read := fun text d => return { d with output := some (← readPath "--output <OUTPUT>" text) } },
   helpFlag .compile]

/-- The place for the length of a vector. -/
def lengthPlace : Argument (Option Nat) where
  label := "<N>"
  given := Option.isSome
  read := fun text _ =>
    match readNat UInt64.size text with
    | .ok n => .ok (some n)
    | .error f => .error (.fault (.invalid text "<N>" f.message))

/-- The commands. -/
inductive Command where
  | compile
  | header
  | types
  | help
deriving DecidableEq, Repr

namespace Command

/-- The commands by name. -/
def names : List (String × Command) :=
  [("compile", compile), ("header", header), ("types", types), ("help", help)]

/-- The topic of a command. -/
def topic : Command → Topic
  | compile => .compile
  | header => .header
  | types => .types
  | help => .program

/-- Reads what help is wanted on: at most one command. -/
def readTopic : List String → Except Halt Topic
  | [] => .ok .program
  | name :: rest =>
    match names.lookup name, rest with
    | none, _ => .error (.fault (.unknownCommand name))
    | some c, [] => .ok c.topic
    | some _, next :: _ => .error (.fault (.unknownCommand next))

/-- A value that is there once every place is filled. -/
def filled {α : Type} : Option α → Except Halt α
  | some a => .ok a
  | none => .error (.fault .argumentsMissing)

/-- Reads the arguments of a command. -/
def read (args : List String) : Command → Except Halt Request
  | compile => do
    let d ← readArguments compileOptions [inputPlace] {} args
    return .compile (← filled d.input) d.images d.fragment d.output
  | header => do
    let d ← readArguments [helpFlag .header] [inputPlace] {} args
    return .header (← filled d.input)
  | types => do
    let n ← readArguments [helpFlag .types] [lengthPlace] none args
    return .types (← filled n)
  | help => do
    let topic ← readTopic args
    throw (.help topic)

end Command

namespace Request

/-- Whether an argument has the form of an option. -/
def isOption (arg : String) : Bool :=
  match arg.toList with
  | '-' :: _ :: _ => true
  | _ => false

/-- Reads the command and its arguments; `literal` tells that options have ended. -/
def readCommand (literal : Bool) : List String → Except Halt Request
  | [] => .error .noCommand
  | arg :: rest =>
    match Command.names.lookup arg with
    | some command =>
      if literal then .error (.fault (.unexpected arg)) else command.read rest
    | none =>
      if literal then .error (.fault (.unknownCommand arg))
      else if arg = "--" then readCommand true rest
      else if isOption arg then do
        let _ ← Reading.step [helpFlag .program, versionFlag] { acc := (), places := [] } arg
        readCommand false rest
      else .error (.fault (.unknownCommand arg))

/-- The request of an argument list. -/
def ofArguments (args : List String) : Except Halt Request :=
  readCommand false args

end Request
end CommandLine
end ShaderAlgebra
