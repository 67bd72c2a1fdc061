import ShaderAlgebra.Failure

/-!
# Splitting a wide vector

A vector wider than four is stored as a row of native chunks.  Fours are peeled
off the end; a remainder of five becomes two and three, so that no chunk of a
wide vector has width one:

| width | chunks |
|---|---|
| 6 | 2, 4 |
| 7 | 3, 4 |
| 9 | 2, 3, 4 |
| 13 | 2, 3, 4, 4 |
-/

namespace ShaderAlgebra

/-- What is left of a width of at least two once fours are peeled off: two, three or four, or
five as two and three. -/
def firstChunks (n : Nat) : List Nat :=
  let rest := (n - 2) % 4 + 2
  if rest = 5 then [2, 3] else [rest]

/-- The widths of the chunks of a vector of length `n`, in order. -/
def chunks (n : Nat) : List Nat :=
  if n < 2 then [n] else firstChunks n ++ List.replicate ((n - 2) / 4) maxNativeWidth

/-- The chunk and the offset in it of the `k`-th place in a row of chunks. -/
def locateIn (k : Nat) : List Nat → Option (Nat × Nat)
  | [] => none
  | w :: rest =>
    if k < w then some (0, k)
    else (locateIn (k - w) rest).map fun (c, o) => (c + 1, o)

/-- The chunk and the offset in it of element `k` of a vector of length `n`. -/
def locate (k n : Nat) : Except Failure (Nat × Nat) :=
  match locateIn k (chunks n) with
  | some place => .ok place
  | none => .error (.chunk k n)

end ShaderAlgebra
