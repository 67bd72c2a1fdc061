import ShaderAlgebra.Failure
import ShaderAlgebra.Json.Number
import ShaderAlgebra.Json.Symbol

/-!
# Tokens of a JSON text

A text is cut into tokens from left to right.  Cutting never fails: where a text
breaks off or goes wrong the last token says so, and the reader that reaches it
fails there.

A value can be *read* or merely *skipped*, and skipping checks less: a number may
be out of range, and a string may hold half a surrogate pair or bytes that are no
UTF-8.  Tokens therefore keep the two outcomes apart.
-/

namespace ShaderAlgebra
namespace Json

/-- Where a string, number or word goes wrong: the fault that reading meets and the fault that
skipping meets. -/
structure Cut where
  quoted : Bool
  read : TextFault
  skipped : TextFault
deriving DecidableEq, Repr

/-- A token. -/
inductive Token where
  | openArray
  | closeArray
  | openObject
  | closeObject
  | comma
  | colon
  | null
  | bool (b : Bool)
  /-- A numeral, with its value unless it is out of range. -/
  | num (value : Except TextFault Number)
  /-- A closed string, with its characters unless it has undecodable parts. -/
  | str (value : Except TextFault String)
  /-- A token that goes wrong; none follows it. -/
  | cut (cut : Cut)
  /-- A symbol that starts no token; none follows it. -/
  | stray
deriving Repr

/-- The white space between tokens. -/
def isBlank (c : Char) : Bool :=
  c == ' ' || c == '\t' || c == '\n' || c == '\r'

/-- The value of a decimal digit. -/
def digit? : Symbol → Option Nat
  | .char c => if c.isDigit then some (c.toNat - '0'.toNat) else none
  | .byte _ => none

/-- The value of a hexadecimal digit. -/
def hexDigit? : Symbol → Option Nat
  | .char c =>
    if c.isDigit then some (c.toNat - '0'.toNat)
    else if 'a' ≤ c ∧ c ≤ 'f' then some (c.toNat - 'a'.toNat + 10)
    else if 'A' ≤ c ∧ c ≤ 'F' then some (c.toNat - 'A'.toNat + 10)
    else none
  | .byte _ => none

/-- The digits at the start of a text, and what follows them. -/
def spanDigits : List Symbol → List Nat × List Symbol
  | [] => ([], [])
  | s :: rest =>
    match digit? s with
    | some d =>
      let (ds, after) := spanDigits rest
      (d :: ds, after)
    | none => ([], s :: rest)

theorem length_spanDigits_le (text : List Symbol) : (spanDigits text).2.length ≤ text.length := by
  induction text with
  | nil => simp [spanDigits]
  | cons s rest ih =>
    unfold spanDigits
    split
    · exact Nat.le_succ_of_le ih
    · exact Nat.le_refl _

/-! ### Strings -/

/-- A string that is being read: its characters so far in reverse, the first half of a surrogate
pair that waits for the second, whether a half stood alone, and whether a byte was undecodable. -/
structure Quoted where
  chars : List Char
  lead : Option Nat
  lone : Bool
  undecodable : Bool

namespace Quoted

/-- The start of a string. -/
def empty : Quoted :=
  ⟨[], none, false, false⟩

/-- Adds a character.  A waiting half of a pair is then alone. -/
def push (q : Quoted) (c : Char) : Quoted :=
  ⟨c :: q.chars, none, q.lone || q.lead.isSome, q.undecodable⟩

/-- Adds an undecodable byte. -/
def pushByte (q : Quoted) : Quoted :=
  ⟨q.chars, none, q.lone || q.lead.isSome, true⟩

/-- Adds an escaped sixteen-bit unit. -/
def pushUnit (q : Quoted) (n : Nat) : Quoted :=
  if 0xD800 ≤ n ∧ n ≤ 0xDBFF then
    ⟨q.chars, some n, q.lone || q.lead.isSome, q.undecodable⟩
  else if 0xDC00 ≤ n ∧ n ≤ 0xDFFF then
    match q.lead with
    | some l => ⟨Char.ofNat ((l - 0xD800) * 0x400 + (n - 0xDC00) + 0x10000) :: q.chars, none, q.lone,
        q.undecodable⟩
    | none => ⟨q.chars, none, true, q.undecodable⟩
  else q.push (Char.ofNat n)

/-- The characters of a closed string. -/
def close (q : Quoted) : Except TextFault String :=
  if q.lone || q.lead.isSome || q.undecodable then .error .malformed
  else .ok (String.ofList q.chars.reverse)

/-- A string that goes wrong.  Reading has stopped before that at a lone half of a pair. -/
def cut (q : Quoted) (fault : TextFault) : Cut :=
  ⟨true, if q.lone then .malformed else fault, fault⟩

end Quoted

/-- The character of a one-letter escape. -/
def escape? : Char → Option Char
  | '"' => some '"'
  | '\\' => some '\\'
  | '/' => some '/'
  | 'b' => some '\x08'
  | 'f' => some '\x0c'
  | 'n' => some '\n'
  | 'r' => some '\r'
  | 't' => some '\t'
  | _ => none

/-- The unit of four hexadecimal digits. -/
def unit? (a b c d : Symbol) : Option Nat := do
  let a ← hexDigit? a
  let b ← hexDigit? b
  let c ← hexDigit? c
  let d ← hexDigit? d
  return ((a * 16 + b) * 16 + c) * 16 + d

/-- What is wrong with an escaped unit at the end of a text: four bytes that are not digits are
malformed, fewer are an early end. -/
def shortUnit (rest : List Symbol) : TextFault :=
  if 4 ≤ rest.foldl (fun n s => n + s.size) 0 then .malformed else .truncated

/-- Reads a string after its opening quote, up to its closing quote; gives what follows. -/
def scanString (q : Quoted) : List Symbol → Except Cut (Except TextFault String × List Symbol)
  | [] => .error (q.cut .truncated)
  | .byte _ :: rest => scanString q.pushByte rest
  | .char '"' :: rest => .ok (q.close, rest)
  | .char '\\' :: .char 'u' :: a :: b :: c :: d :: rest =>
    match unit? a b c d with
    | some n => scanString (q.pushUnit n) rest
    | none => .error (q.cut .malformed)
  | .char '\\' :: .char 'u' :: rest => .error (q.cut (shortUnit rest))
  | [.char '\\'] => .error (q.cut .truncated)
  | .char '\\' :: .byte _ :: _ => .error (q.cut .malformed)
  | .char '\\' :: .char e :: rest =>
    match escape? e with
    | some c => scanString (q.push c) rest
    | none => .error (q.cut .malformed)
  | .char c :: rest =>
    if c.toNat < 0x20 then .error (q.cut .malformed) else scanString (q.push c) rest

theorem length_scanString_le (q : Quoted) (text : List Symbol) {v : Except TextFault String}
    {rest : List Symbol} (h : scanString q text = .ok (v, rest)) : rest.length ≤ text.length := by
  fun_induction scanString q text generalizing v rest <;> simp_all <;> grind

/-! ### Numbers and words -/

/-- A number that goes wrong at the start of `rest`: at the end of the text reading finds it cut
off. -/
def cutNumber (rest : List Symbol) : Cut :=
  ⟨false, if rest.isEmpty then .truncated else .malformed, .malformed⟩

/-- The exponent of a numeral, if there is one. -/
def scanExponent : List Symbol → Except Cut (Option (Bool × List Nat) × List Symbol)
  | .char c :: rest =>
    if c = 'e' ∨ c = 'E' then
      let (down, rest) := match rest with
        | .char '+' :: r => (false, r)
        | .char '-' :: r => (true, r)
        | r => (false, r)
      match spanDigits rest with
      | ([], _) => .error (cutNumber rest)
      | (ds, after) => .ok (some (down, ds), after)
    else .ok (none, .char c :: rest)
  | rest => .ok (none, rest)

/-- The fraction of a numeral, if there is one. -/
def scanFraction : List Symbol → Except Cut (Option (List Nat) × List Symbol)
  | .char '.' :: rest =>
    match spanDigits rest with
    | ([], _) => .error (cutNumber rest)
    | (ds, after) => .ok (some ds, after)
  | rest => .ok (none, rest)

/-- The whole part of a numeral, which has no needless zero in front. -/
def scanWhole (text : List Symbol) : Except Cut (List Nat × List Symbol) :=
  match spanDigits text with
  | ([], _) => .error (cutNumber text)
  | (0 :: _ :: _, _) => .error ⟨false, .malformed, .malformed⟩
  | (ds, after) => .ok (ds, after)

/-- Reads a numeral after its sign; gives what follows. -/
def scanNumeral (negative : Bool) (text : List Symbol) : Except Cut (Numeral × List Symbol) := do
  let (whole, rest) ← scanWhole text
  let (fraction, rest) ← scanFraction rest
  let (exponent, rest) ← scanExponent rest
  return (⟨negative, whole, fraction, exponent⟩, rest)

/-- Reads the rest of a word. -/
def scanWord : List Char → List Symbol → Except Cut (List Symbol)
  | [], rest => .ok rest
  | _ :: _, [] => .error ⟨false, .truncated, .truncated⟩
  | c :: cs, s :: rest =>
    if s = .char c then scanWord cs rest else .error ⟨false, .malformed, .malformed⟩

/-- The value of a numeral as a token has it. -/
def Numeral.token (n : Numeral) : Token :=
  .num (match n.value? with
    | some v => .ok v
    | none => .error .malformed)

/-- Reads the token at the start of a text that is not blank there; gives what follows. -/
def scanToken (c : Char) (rest : List Symbol) : Except Cut (Token × List Symbol) :=
  match c with
  | '[' => .ok (.openArray, rest)
  | ']' => .ok (.closeArray, rest)
  | '\x7b' => .ok (.openObject, rest)
  | '\x7d' => .ok (.closeObject, rest)
  | ',' => .ok (.comma, rest)
  | ':' => .ok (.colon, rest)
  | '"' => (scanString .empty rest).map fun (v, rest) => (.str v, rest)
  | 'n' => (scanWord "ull".toList rest).map fun rest => (.null, rest)
  | 't' => (scanWord "rue".toList rest).map fun rest => (.bool true, rest)
  | 'f' => (scanWord "alse".toList rest).map fun rest => (.bool false, rest)
  | '-' => (scanNumeral true rest).map fun (n, rest) => (n.token, rest)
  | _ =>
    if c.isDigit then (scanNumeral false (.char c :: rest)).map fun (n, rest) => (n.token, rest)
    else .ok (.stray, [])

theorem length_spanDigits_lt {text : List Symbol} {d : Nat} {ds : List Nat} {after : List Symbol}
    (h : spanDigits text = (d :: ds, after)) : after.length < text.length := by
  cases text with
  | nil => simp [spanDigits] at h
  | cons s rest =>
    unfold spanDigits at h
    split at h
    · simp only [Prod.mk.injEq] at h
      rw [← h.2]
      exact Nat.lt_succ_of_le (length_spanDigits_le rest)
    · simp at h

theorem length_scanExponent_le {text after : List Symbol} {e : Option (Bool × List Nat)}
    (h : scanExponent text = .ok (e, after)) : after.length ≤ text.length := by
  unfold scanExponent at h
  split at h
  · split at h
    · rename_i c rest _
      simp only at h
      split at h
      · simp at h
      · rename_i ds r _ hs
        simp only [Except.ok.injEq, Prod.mk.injEq] at h
        have hle := length_spanDigits_le (match rest with
          | .char '+' :: r => (false, r)
          | .char '-' :: r => (true, r)
          | r => (false, r)).2
        rw [hs, h.2] at hle
        refine Nat.le_trans hle ?_
        split <;> simp only [List.length_cons] <;> omega
    · simp_all
  · simp_all

theorem length_scanFraction_le {text after : List Symbol} {f : Option (List Nat)}
    (h : scanFraction text = .ok (f, after)) : after.length ≤ text.length := by
  unfold scanFraction at h
  split at h
  · rename_i rest
    split at h
    · simp at h
    · rename_i ds r _ hs
      simp only [Except.ok.injEq, Prod.mk.injEq] at h
      have hle := length_spanDigits_le rest
      rw [hs, h.2] at hle
      exact Nat.le_succ_of_le hle
  · simp_all

theorem length_scanWhole_lt {text after : List Symbol} {ds : List Nat}
    (h : scanWhole text = .ok (ds, after)) : after.length < text.length := by
  unfold scanWhole at h
  split at h
  · simp at h
  · simp at h
  · rename_i ds' r hne _ hs
    simp only [Except.ok.injEq, Prod.mk.injEq] at h
    cases ds' with
    | nil => exact absurd rfl hne
    | cons d tail => exact h.2 ▸ length_spanDigits_lt hs

theorem length_scanNumeral_lt {negative : Bool} {text after : List Symbol} {n : Numeral}
    (h : scanNumeral negative text = .ok (n, after)) : after.length < text.length := by
  simp only [scanNumeral, bind, Except.bind, pure, Except.pure] at h
  split at h
  · simp at h
  · rename_i w hw
    obtain ⟨ds, rest₁⟩ := w
    split at h
    · simp at h
    · rename_i f hf
      obtain ⟨f, rest₂⟩ := f
      split at h
      · simp at h
      · rename_i e he
        obtain ⟨e, rest₃⟩ := e
        simp only [Except.ok.injEq, Prod.mk.injEq] at h
        have h₁ := length_scanWhole_lt hw
        have h₂ := length_scanFraction_le hf
        have h₃ := length_scanExponent_le he
        rw [← h.2]
        exact Nat.lt_of_le_of_lt h₃ (Nat.lt_of_le_of_lt h₂ h₁)

theorem length_scanWord_le {word : List Char} {text after : List Symbol}
    (h : scanWord word text = .ok after) : after.length ≤ text.length := by
  fun_induction scanWord word text <;> simp_all
  omega

/-- A token takes at least its first symbol. -/
theorem length_scanToken_le {c : Char} {rest after : List Symbol} {t : Token}
    (h : scanToken c rest = .ok (t, after)) : after.length ≤ rest.length := by
  unfold scanToken at h
  split at h
  case h_7 =>
    cases hs : scanString .empty rest with
    | error e => simp [hs, Except.map] at h
    | ok r =>
      obtain ⟨v, after⟩ := r
      simp only [hs, Except.map, Except.ok.injEq, Prod.mk.injEq] at h
      exact h.2 ▸ length_scanString_le .empty rest hs
  case h_8 | h_9 | h_10 =>
    revert h
    generalize hw : scanWord _ rest = r
    cases r with
    | error e => simp [Except.map]
    | ok r =>
      simp only [Except.map, Except.ok.injEq, Prod.mk.injEq]
      exact fun h => h.2 ▸ length_scanWord_le hw
  case h_11 =>
    cases hs : scanNumeral true rest with
    | error e => simp [hs, Except.map] at h
    | ok r =>
      obtain ⟨n, after⟩ := r
      simp only [hs, Except.map, Except.ok.injEq, Prod.mk.injEq] at h
      exact h.2 ▸ Nat.le_of_lt (length_scanNumeral_lt hs)
  case h_12 =>
    split at h
    · cases hs : scanNumeral false (.char c :: rest) with
      | error e => simp [hs, Except.map] at h
      | ok r =>
        obtain ⟨n, after⟩ := r
        simp only [hs, Except.map, Except.ok.injEq, Prod.mk.injEq] at h
        have hlt := length_scanNumeral_lt hs
        rw [← h.2]
        exact Nat.le_of_lt_succ hlt
    · simp only [Except.ok.injEq, Prod.mk.injEq] at h
      rw [← h.2]
      exact Nat.zero_le _
  all_goals simp_all

/-- The tokens of a text. -/
def tokens : List Symbol → List Token
  | [] => []
  | .byte _ :: _ => [.stray]
  | .char c :: rest =>
    if isBlank c then tokens rest
    else match _h : scanToken c rest with
      | .ok (t, after) => t :: tokens after
      | .error cut => [.cut cut]
termination_by text => text.length
decreasing_by
  · exact Nat.lt_succ_self _
  · exact Nat.lt_succ_of_le (length_scanToken_le (by assumption))

end Json
end ShaderAlgebra
