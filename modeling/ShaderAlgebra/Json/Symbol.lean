/-
# Text as symbols

A text that comes from a file need not be valid UTF-8.  It is read as a list of
symbols: characters, and bytes that belong to no character.  Decoding takes a
byte at a time, so that what follows an undecodable byte is still read.
-/

namespace ShaderAlgebra
namespace Json

/-- A character, or a byte that is part of none. -/
inductive Symbol where
  | char (c : Char)
  | byte (b : UInt8)
deriving DecidableEq, Repr

namespace Symbol

/-- The number of bytes of a symbol. -/
def size : Symbol → Nat
  | char c => c.utf8Size
  | byte _ => 1

/-- A byte in the range of continuation bytes, as its six bits. -/
def continuation? (b : UInt8) : Option Nat :=
  if 0x80 ≤ b ∧ b ≤ 0xBF then some (b.toNat - 0x80) else none

/-- A code point as a character, if it is one and is not below the least code point that needs
this many bytes. -/
def ofCodePoint? (least n : Nat) : Option Char :=
  if least ≤ n ∧ n.isValidChar then some (Char.ofNat n) else none

/-- The character of two bytes. -/
def ofTwo? (a b : UInt8) : Option Char := do
  guard (0xC0 ≤ a ∧ a ≤ 0xDF)
  let y ← continuation? b
  ofCodePoint? 0x80 ((a.toNat - 0xC0) * 64 + y)

/-- The character of three bytes. -/
def ofThree? (a b c : UInt8) : Option Char := do
  guard (0xE0 ≤ a ∧ a ≤ 0xEF)
  let y ← continuation? b
  let z ← continuation? c
  ofCodePoint? 0x800 (((a.toNat - 0xE0) * 64 + y) * 64 + z)

/-- The character of four bytes. -/
def ofFour? (a b c d : UInt8) : Option Char := do
  guard (0xF0 ≤ a ∧ a ≤ 0xF7)
  let y ← continuation? b
  let z ← continuation? c
  let w ← continuation? d
  ofCodePoint? 0x10000 ((((a.toNat - 0xF0) * 64 + y) * 64 + z) * 64 + w)

/-- The first symbol of a nonempty list of bytes, and what is left. -/
def first (a : UInt8) (rest : List UInt8) : Symbol × List UInt8 :=
  if a < 0x80 then (char (Char.ofNat a.toNat), rest)
  else match rest with
    | [] => (byte a, rest)
    | b :: rest₂ => match ofTwo? a b with
      | some c => (char c, rest₂)
      | none => match rest₂ with
        | [] => (byte a, rest)
        | c :: rest₃ => match ofThree? a b c with
          | some c => (char c, rest₃)
          | none => match rest₃ with
            | [] => (byte a, rest)
            | d :: rest₄ => match ofFour? a b c d with
              | some c => (char c, rest₄)
              | none => (byte a, rest)

theorem length_first_le (a : UInt8) (rest : List UInt8) :
    (first a rest).2.length ≤ rest.length := by
  unfold first
  repeat' split
  all_goals simp only [List.length_cons]
  all_goals omega

/-- The symbols of bytes. -/
def ofBytes : List UInt8 → List Symbol
  | [] => []
  | a :: rest => (first a rest).1 :: ofBytes (first a rest).2
termination_by bytes => bytes.length
decreasing_by exact Nat.lt_succ_of_le (length_first_le a rest)

/-- The symbols of a text. -/
def ofString (s : String) : List Symbol :=
  s.toList.map char

end Symbol
end Json
end ShaderAlgebra
