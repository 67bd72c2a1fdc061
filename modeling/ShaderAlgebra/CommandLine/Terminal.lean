/-!
# Terminal text

A message is set for a terminal: control sequences emphasise parts of it.  What
is printed is `plain`, the characters that a terminal would show.  It has none of
these sequences, nor any that an argument brought into the message.

An escape character starts a sequence.  Most sequences end with a letter, and
strings and commands run on until they are closed.  A sequence that is left open
takes what follows with it, but the next escape character ends it.
-/

namespace ShaderAlgebra
namespace CommandLine
namespace Terminal

/-- The escape character. -/
def escape : Char := '\x1b'

/-- Where in a control sequence a text is. -/
inductive Mode where
  /-- Outside of sequences. -/
  | ground
  /-- After an escape character. -/
  | escape
  /-- After the intermediate characters of an escape sequence. -/
  | escapeTail
  /-- In a control sequence, between its bracket and its letter. -/
  | control
  /-- At the start of a device control string. -/
  | deviceStart
  /-- In the parameters of a device control string. -/
  | deviceParameter
  /-- After the intermediate characters of a device control string. -/
  | deviceTail
  /-- In a string, which a string terminator closes. -/
  | string
  /-- In a command for the system, which a bell closes. -/
  | command
deriving DecidableEq, Repr

/-- The characters between a space and a slash, which are intermediate in sequences. -/
def isIntermediate (c : Char) : Bool :=
  ' ' ≤ c && c ≤ '/'

/-- The digits and marks of which the parameters of a sequence consist. -/
def isParameter (c : Char) : Bool :=
  '0' ≤ c && c ≤ '?'

/-- The characters from `@` to a tilde, with which sequences end. -/
def isFinal (c : Char) : Bool :=
  '@' ≤ c && c ≤ '~'

/-- The control characters that set a text, and are shown: tab, line feed, form feed and carriage
return. -/
def isBlank (c : Char) : Bool :=
  c == '\t' || c == '\n' || c == '\x0c' || c == '\r'

/-- The characters that are shown outside of sequences. -/
def isShown (c : Char) : Bool :=
  isBlank c || (' ' ≤ c && c != '\x7f')

/-- Whether the bytes of a character have the one-byte string terminator among them. -/
def hasTerminator (c : Char) : Bool :=
  (String.utf8EncodeChar c).contains 0x9c

namespace Mode

/-- The mode after an escape character and the character that follows it. -/
def ofEscaped (c : Char) : Mode :=
  if c == '[' then control
  else if c == ']' then command
  else if c == 'P' then deviceStart
  else if c == 'X' || c == '^' || c == '_' then string
  else if isIntermediate c then escapeTail
  else if isParameter c || isFinal c then ground
  else escape

/-- The mode after a character.  Two control characters cancel any sequence. -/
def next (m : Mode) (c : Char) : Mode :=
  if c == '\x18' || c == '\x1a' then ground
  else if c == Terminal.escape then escape
  else
    match m with
    | ground => ground
    | escape => ofEscaped c
    | escapeTail => if isParameter c || isFinal c then ground else escapeTail
    | control => if isFinal c then ground else control
    | deviceStart =>
      if isIntermediate c then deviceTail
      else if isParameter c then deviceParameter
      else if isFinal c then string
      else deviceStart
    | deviceParameter =>
      if isIntermediate c then deviceTail
      else if '<' ≤ c && c ≤ '~' then string
      else deviceParameter
    | deviceTail => if isParameter c || isFinal c then string else deviceTail
    | string => if hasTerminator c then ground else string
    | command => if c == '\x07' then ground else command

/-- Whether blanks are shown in a mode.  Strings and commands take them up. -/
def showsBlanks : Mode → Bool
  | ground | escape | escapeTail | control => true
  | deviceStart | deviceParameter | deviceTail | string | command => false

end Mode

/-- What is known in the middle of a text. -/
structure Scan where
  mode : Mode := .ground
  /-- Whether the last character was shown.  Then so is the next one, if it can be. -/
  showing : Bool := false
deriving DecidableEq, Repr

namespace Scan

/-- Meets a character, and tells whether it is shown. -/
def step (s : Scan) (c : Char) : Scan × Bool :=
  if isShown c && (s.showing || s.mode == .ground) then
    ({ mode := if c ≤ '\x7f' then s.mode else .ground, showing := true }, true)
  else
    let shown := isBlank c && s.mode.showsBlanks
    ({ mode := s.mode.next c, showing := shown }, shown)

/-- The characters that are shown. -/
def shown (s : Scan) : List Char → List Char
  | [] => []
  | c :: rest =>
    match s.step c with
    | (s, true) => c :: s.shown rest
    | (s, false) => s.shown rest

end Scan

/-- A text without its control sequences. -/
def plain (text : String) : String :=
  String.ofList (Scan.shown {} text.toList)

/-- A text that stands out. -/
def emphasize (text : String) : String :=
  "\x1b[1m" ++ text ++ "\x1b[0m"

/-- A text that stands out between quotation marks. -/
def quote (text : String) : String :=
  "'" ++ emphasize text ++ "'"

end Terminal
end CommandLine
end ShaderAlgebra
