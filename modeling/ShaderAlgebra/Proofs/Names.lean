import ShaderAlgebra.Operation
import ShaderAlgebra.Proofs.Shapes

/-!
# Names tell definitions apart

A struct is named after its shape and a helper after its operation and shape, by
words and decimal numbers run together.  Over the shapes for which a definition is
ever made, the name gives the shape back (`name_injective`), and the name of a
helper gives back its operation and its shape (`helperName_injective`).  None of
these names is one that GLSL has (`Shape.IsRecord.name_not_builtin`).

`Shape.name` as a whole is not injective: `float` and `vec2` each name two native shapes.
-/

namespace ShaderAlgebra

/-- Digits give their number back. -/
theorem toDigits_injective {m n : Nat} (h : Nat.toDigits 10 m = Nat.toDigits 10 n) : m = n := by
  rw [← Nat.ofDigitChars_ten_toDigits (n := m), h, Nat.ofDigitChars_ten_toDigits]

/-- The character after a number that ends at an underscore is found again. -/
theorem toDigits_underscore_injective {m n : Nat} {x y : List Char}
    (h : Nat.toDigits 10 m ++ '_' :: x = Nat.toDigits 10 n ++ '_' :: y) : m = n ∧ x = y := by
  have key : ∀ {a b : List Char}, '_' ∉ a → '_' ∉ b → a ++ '_' :: x = b ++ '_' :: y → a = b ∧ x = y := by
    intro a
    induction a with
    | nil =>
      intro b _ hb he
      cases b with
      | nil => exact ⟨rfl, (List.cons.inj he).2⟩
      | cons c b => exact absurd ((List.cons.inj he).1 ▸ List.mem_cons_self) hb
    | cons d a ih =>
      intro b ha hb he
      cases b with
      | nil => exact absurd ((List.cons.inj he).1 ▸ List.mem_cons_self) ha
      | cons c b =>
        obtain ⟨rfl, ht⟩ := List.cons.inj he
        obtain ⟨rfl, hx⟩ := ih (fun h => ha (List.mem_cons_of_mem _ h))
          (fun h => hb (List.mem_cons_of_mem _ h)) ht
        exact ⟨rfl, hx⟩
  obtain ⟨hd, hx⟩ := key Nat.underscore_not_in_toDigits Nat.underscore_not_in_toDigits h
  exact ⟨toDigits_injective hd, hx⟩

/-- A number is not followed by an underscore inside another number. -/
theorem toDigits_ne_underscore {m n : Nat} {x : List Char} :
    Nat.toDigits 10 m ≠ Nat.toDigits 10 n ++ '_' :: x := by
  intro h
  exact Nat.underscore_not_in_toDigits (n := m) (h ▸ List.mem_append_right _ List.mem_cons_self)

/-- A number starts with a digit. -/
theorem exists_digit_toDigits (n : Nat) : ∃ c cs, Nat.toDigits 10 n = c :: cs ∧ c.isDigit := by
  cases h : Nat.toDigits 10 n with
  | nil => exact absurd h Nat.toDigits_ne_nil
  | cons c cs =>
    exact ⟨c, cs, rfl, Nat.isDigit_of_mem_toDigits (by decide) (by decide) (h ▸ List.mem_cons_self)⟩

namespace Shape

attribute [local simp] name

/-- The characters of the name of a wide real vector. -/
theorem toList_name_realVector {n : Nat} (h : n ≠ 1) :
    (realVector n).name.toList = 'v' :: 'e' :: 'c' :: Nat.toDigits 10 n := by
  simp [h, toString]

/-- The characters of the name of a complex vector. -/
theorem toList_name_complexVector (n : Nat) :
    (vector n .complex).name.toList = 'c' :: 'v' :: 'e' :: 'c' :: Nat.toDigits 10 n := by
  simp [toString]

/-- The characters of the name of a real matrix that is a struct. -/
theorem toList_name_realMatrix {r c : Nat} (h : (matrix r c .real).isNative = false) :
    (matrix r c .real).name.toList =
      'm' :: 'a' :: 't' :: (Nat.toDigits 10 r ++ '_' :: Nat.toDigits 10 c) := by
  simp [h, toString]

/-- The characters of the name of a native matrix. -/
theorem toList_name_nativeMatrix {r c : Nat} (h : (matrix r c .real).isNative) :
    (matrix r c .real).name.toList = 'm' :: 'a' :: 't' :: Nat.toDigits 10 r := by
  simp [h, toString]

/-- The characters of the name of a complex matrix. -/
theorem toList_name_complexMatrix (r c : Nat) :
    (matrix r c .complex).name.toList =
      'c' :: 'm' :: 'a' :: 't' :: (Nat.toDigits 10 r ++ '_' :: Nat.toDigits 10 c) := by
  simp [toString]

/-- A shape with a name of its own: a struct, or a native matrix. -/
def IsTitled (s : Shape) : Prop :=
  s.Valid ∧ (s.isNative = false ∨ s.depth = 2)

instance (s : Shape) : Decidable s.IsTitled :=
  inferInstanceAs (Decidable (s.Valid ∧ (s.isNative = false ∨ s.depth = 2)))

theorem IsRecord.isTitled {s : Shape} (h : s.IsRecord) : s.IsTitled :=
  ⟨h.1, .inl h.2⟩

/-- A titled shape by its dimensions, with the characters of its name. -/
theorem IsTitled.cases {s : Shape} (h : s.IsTitled) :
    (∃ n, s = realVector n ∧ s.name.toList = 'v' :: 'e' :: 'c' :: Nat.toDigits 10 n) ∨
      (∃ n, s = vector n .complex ∧
        s.name.toList = 'c' :: 'v' :: 'e' :: 'c' :: Nat.toDigits 10 n) ∨
      (∃ r c, s = matrix r c .real ∧ s.name.toList =
        'm' :: 'a' :: 't' :: (Nat.toDigits 10 r ++ '_' :: Nat.toDigits 10 c)) ∨
      (∃ r, s = matrix r r .real ∧ s.name.toList = 'm' :: 'a' :: 't' :: Nat.toDigits 10 r) ∨
      ∃ r c, s = matrix r c .complex ∧ s.name.toList =
        'c' :: 'm' :: 'a' :: 't' :: (Nat.toDigits 10 r ++ '_' :: Nat.toDigits 10 c) := by
  obtain ⟨hv, hn⟩ := h
  cases hs : s.isNative with
  | false =>
    rcases IsRecord.cases ⟨hv, hs⟩ with ⟨n, rfl, hw, -⟩ | ⟨n, rfl, -⟩ | ⟨r, c, rfl, -⟩ | ⟨r, c, rfl, -⟩
    · exact .inl ⟨n, rfl, toList_name_realVector (by omega)⟩
    · exact .inr (.inl ⟨n, rfl, toList_name_complexVector n⟩)
    · exact .inr (.inr (.inl ⟨r, c, rfl, toList_name_realMatrix hs⟩))
    · exact .inr (.inr (.inr (.inr ⟨r, c, rfl, toList_name_complexMatrix r c⟩)))
  | true =>
    rw [hs] at hn
    cases s with
    | scalar k | vector n k => simp [depth] at hn
    | matrix r c k =>
      cases k with
      | bool | int | complex => simp [isNative] at hs
      | real =>
        have hsq : r = c := by simp [isNative] at hs; exact hs.1.1
        subst hsq
        exact .inr (.inr (.inr (.inl ⟨r, rfl, toList_name_nativeMatrix hs⟩)))

/-- **A titled shape is known by its name.** -/
theorem name_injective {s t : Shape} (hs : s.IsTitled) (ht : t.IsTitled) (h : s.name = t.name) :
    s = t := by
  have hl : s.name.toList = t.name.toList := by rw [h]
  rcases hs.cases with ⟨n, rfl, h₁⟩ | ⟨n, rfl, h₁⟩ | ⟨r, c, rfl, h₁⟩ | ⟨r, rfl, h₁⟩ | ⟨r, c, rfl, h₁⟩ <;>
    rcases ht.cases with ⟨n', rfl, h₂⟩ | ⟨n', rfl, h₂⟩ | ⟨r', c', rfl, h₂⟩ | ⟨r', rfl, h₂⟩ |
      ⟨r', c', rfl, h₂⟩ <;>
    rw [h₁, h₂] at hl <;> simp only [List.cons.injEq, true_and, Char.reduceEq, false_and, and_false] at hl
  · rw [toDigits_injective hl]
  · rw [toDigits_injective hl]
  · obtain ⟨rfl, hc⟩ := toDigits_underscore_injective hl
    rw [toDigits_injective hc]
  · exact absurd hl.symm toDigits_ne_underscore
  · exact absurd hl toDigits_ne_underscore
  · rw [toDigits_injective hl]
  · obtain ⟨rfl, hc⟩ := toDigits_underscore_injective hl
    rw [toDigits_injective hc]

end Shape

/-- The types and functions of GLSL that generated code calls. -/
def builtinNames : List String :=
  ["float", "vec2", "vec3", "vec4", "mat2", "mat3", "mat4", "dot"]

/-- **A struct is not named like a builtin.** -/
theorem Shape.IsRecord.name_not_builtin {s : Shape} (h : s.IsRecord) : s.name ∉ builtinNames := by
  intro hb
  have hl : s.name.toList ∈ builtinNames.map String.toList := List.mem_map_of_mem hb
  have hd : builtinNames.map String.toList = [['f', 'l', 'o', 'a', 't'], ['v', 'e', 'c', '2'],
    ['v', 'e', 'c', '3'], ['v', 'e', 'c', '4'], ['m', 'a', 't', '2'], ['m', 'a', 't', '3'],
    ['m', 'a', 't', '4'], ['d', 'o', 't']] := by decide
  rw [hd] at hl
  rcases h.cases with ⟨n, rfl, hw, -⟩ | ⟨n, rfl, -⟩ | ⟨r, c, rfl, hn, -⟩ | ⟨r, c, rfl, -⟩
  · -- a wide vector is none of `vec2`, `vec3`, `vec4`
    rw [Shape.toList_name_realVector (by omega)] at hl
    have small : ∀ k < 5, Nat.toDigits 10 n ≠ Nat.toDigits 10 k := fun k hk he => by
      have := toDigits_injective he
      omega
    have h₂ : Nat.toDigits 10 n ≠ ['2'] := small 2 (by decide)
    have h₃ : Nat.toDigits 10 n ≠ ['3'] := small 3 (by decide)
    have h₄ : Nat.toDigits 10 n ≠ ['4'] := small 4 (by decide)
    simp [h₂, h₃, h₄] at hl
  · rw [Shape.toList_name_complexVector] at hl
    simp at hl
  · rw [Shape.toList_name_realMatrix hn] at hl
    have hu : ∀ x : Char, x ≠ '_' → Nat.toDigits 10 r ++ '_' :: Nat.toDigits 10 c ≠ [x] :=
      fun x hx he => by
        have : '_' ∈ [x] := he ▸ List.mem_append_right _ List.mem_cons_self
        exact hx (List.mem_singleton.1 this).symm
    have h₂ := hu '2' (by decide)
    have h₃ := hu '3' (by decide)
    have h₄ := hu '4' (by decide)
    simp [h₂, h₃, h₄] at hl
  · rw [Shape.toList_name_complexMatrix] at hl
    simp at hl

namespace Operation

/-- The shapes for which an operation has a helper. -/
def HasHelper (op : Operation) (s : Shape) : Prop :=
  match op with
  | add | sub | scale => s.IsRecord
  | matVec => s.IsRecord ∧ s.kind = .real ∧ s.depth = 2
  | dot => s.IsRecord ∧ s.kind = .real ∧ s.depth = 1
  | sum => s.IsTitled ∧ s.isRealVector = false
  | complexMul => s = .complex
  | complexScale => s.IsRecord ∧ s.kind = .complex
  | complexMatVec => s.IsRecord ∧ s.kind = .complex ∧ s.depth = 2
  | complexDot => s.IsRecord ∧ s.kind = .complex ∧ s.depth = 1

/-- Scaling by a complex number has a helper at every complex vector and matrix. -/
theorem complexScale_hasHelper {s : Shape} (hd : 1 ≤ s.depth) (hk : s.kind = .complex) (hv : s.Valid) :
    Operation.complexScale.HasHelper s := by
  refine ⟨⟨hv, ?_⟩, hk⟩
  cases s with
  | scalar k => cases hd
  | vector n k | matrix m n k =>
    obtain rfl : k = .complex := hk
    rfl

/-- A matrix product has a helper on the real matrices that are structs. -/
theorem HasHelper.matVec {s : Shape} (h : Operation.matVec.HasHelper s) :
    ∃ r c, s = .matrix r c .real ∧ s.isNative = false ∧ (1 ≤ r ∧ r ≤ maxDimension) ∧
      1 ≤ c ∧ c ≤ maxDimension := by
  obtain ⟨hs, hk, hd⟩ := h
  rcases hs.cases with ⟨n, rfl, -⟩ | ⟨n, rfl, -⟩ | h | ⟨r, c, rfl, -⟩
  · cases hd
  · cases hd
  · exact h
  · cases hk

/-- A dot product has a helper on the wide real vectors. -/
theorem HasHelper.dot {s : Shape} (h : Operation.dot.HasHelper s) :
    ∃ n, s = .realVector n ∧ 5 ≤ n ∧ n ≤ maxDimension := by
  obtain ⟨hs, hk, hd⟩ := h
  rcases hs.cases with h | ⟨n, rfl, -⟩ | ⟨r, c, rfl, -⟩ | ⟨r, c, rfl, -⟩
  · exact h
  · cases hk
  · cases hd
  · cases hd

/-- A sum has a helper on shapes with elements. -/
theorem HasHelper.sum {s : Shape} (h : Operation.sum.HasHelper s) :
    ∃ e n, s.element? = some e ∧ s.length? = some n ∧ e.Valid ∧ 1 ≤ n := by
  obtain ⟨⟨hv, hn⟩, -⟩ := h
  cases s with
  | scalar k => simp [Shape.isNative, Shape.depth] at hn
  | vector n k => exact ⟨.scalar k, n, rfl, rfl, trivial, hv.1.1⟩
  | matrix r c k => exact ⟨.vector c k, r, rfl, rfl, hv.2, hv.1.1⟩

/-- A complex multiple has a helper on the complex vectors and matrices. -/
theorem HasHelper.complexScale {s : Shape} (h : Operation.complexScale.HasHelper s) :
    s.part.Valid ∧ ((∃ n, s = .vector n .complex) ∨ ∃ r c, s = .matrix r c .complex) := by
  obtain ⟨hs, hk⟩ := h
  rcases hs.cases with ⟨n, rfl, -⟩ | ⟨n, rfl, hn⟩ | ⟨r, c, rfl, -⟩ | ⟨r, c, rfl, hr, hc⟩
  · cases hk
  · exact ⟨Shape.realVector_valid hn, .inl ⟨n, rfl⟩⟩
  · cases hk
  · exact ⟨Shape.realMatrix_valid hr hc, .inr ⟨r, c, rfl⟩⟩

/-- A complex matrix product has a helper on every complex matrix. -/
theorem HasHelper.complexMatVec {s : Shape} (h : Operation.complexMatVec.HasHelper s) :
    ∃ r c, s = .matrix r c .complex ∧ (1 ≤ r ∧ r ≤ maxDimension) ∧ 1 ≤ c ∧ c ≤ maxDimension := by
  obtain ⟨hs, hk, hd⟩ := h
  rcases hs.cases with ⟨n, rfl, -⟩ | ⟨n, rfl, -⟩ | ⟨r, c, rfl, -⟩ | h
  · cases hk
  · cases hd
  · cases hk
  · exact h

/-- A complex dot product has a helper on every complex vector. -/
theorem HasHelper.complexDot {s : Shape} (h : Operation.complexDot.HasHelper s) :
    ∃ n, s = .vector n .complex ∧ 1 ≤ n ∧ n ≤ maxDimension := by
  obtain ⟨hs, hk, hd⟩ := h
  rcases hs.cases with ⟨n, rfl, -⟩ | h | ⟨r, c, rfl, -⟩ | ⟨r, c, rfl, -⟩
  · cases hk
  · exact h
  · cases hk
  · cases hd

/-- The operation that a name belongs to, by its first characters. -/
def ofHelperName : List Char → Option Operation
  | 'a' :: _ => some add
  | 's' :: 'u' :: 'b' :: _ => some sub
  | 's' :: 'u' :: 'm' :: _ => some sum
  | 's' :: 'c' :: _ => some scale
  | 'd' :: _ => some dot
  | 'm' :: 'u' :: 'l' :: 't' :: 'c' :: _ => some complexMul
  | 'm' :: 'u' :: _ => some matVec
  | 'c' :: 's' :: _ => some complexScale
  | 'c' :: 'm' :: 'u' :: _ => some complexMatVec
  | 'c' :: 'd' :: _ => some complexDot
  | _ => none

attribute [local simp] ofHelperName

/-- The name of a helper gives its operation. -/
theorem ofHelperName_helperName (op : Operation) (s : Shape) :
    ofHelperName (op.helperName s).toList = some op := by
  cases op with
  | matVec =>
    obtain ⟨c, cs, hd, hc⟩ := exists_digit_toDigits (dimensions s).1
    have hne : c ≠ 'c' := by rintro rfl; simp at hc
    simp [helperName, toString, hd, hne]
  | _ => simp [helperName, toString]

/-- The name of a shape is not that of a helper. -/
theorem ofHelperName_name {s : Shape} (h : s.IsTitled) : ofHelperName s.name.toList = none := by
  rcases h.cases with ⟨n, -, hl⟩ | ⟨n, -, hl⟩ | ⟨r, c, -, hl⟩ | ⟨r, -, hl⟩ | ⟨r, c, -, hl⟩ <;>
    rw [hl] <;> simp

/-- **A helper is known by its name:** its operation and its shape. -/
theorem helperName_injective {op op' : Operation} {s s' : Shape} (h : op.HasHelper s)
    (h' : op'.HasHelper s') (he : op.helperName s = op'.helperName s') : op = op' ∧ s = s' := by
  have hop : op = op' := by
    have := ofHelperName_helperName op s
    rw [he, ofHelperName_helperName] at this
    exact (Option.some.inj this).symm
  subst hop
  refine ⟨rfl, ?_⟩
  have hl : (op.helperName s).toList = (op.helperName s').toList := by rw [he]
  cases op with
  | add | sub | scale =>
    refine Shape.name_injective h.isTitled h'.isTitled (String.toList_inj.1 ?_)
    simpa [helperName] using hl
  | sum =>
    refine Shape.name_injective h.1 h'.1 (String.toList_inj.1 ?_)
    simpa [helperName] using hl
  | complexScale =>
    refine Shape.name_injective h.1.isTitled h'.1.isTitled (String.toList_inj.1 ?_)
    simpa [helperName] using hl
  | complexMul => exact h.trans h'.symm
  | matVec | complexMatVec =>
    obtain ⟨-, hk, hd⟩ := h
    obtain ⟨-, hk', hd'⟩ := h'
    cases s <;> simp [Shape.depth] at hd
    cases s' <;> simp [Shape.depth] at hd'
    simp [Shape.kind] at hk hk'
    subst hk hk'
    simp [helperName, dimensions, toString] at hl
    obtain ⟨rfl, hc⟩ := toDigits_underscore_injective hl
    rw [toDigits_injective hc]
  | dot | complexDot =>
    obtain ⟨-, hk, hd⟩ := h
    obtain ⟨-, hk', hd'⟩ := h'
    cases s <;> simp [Shape.depth] at hd
    cases s' <;> simp [Shape.depth] at hd'
    simp [Shape.kind] at hk hk'
    subst hk hk'
    simp [helperName, dimensions, toString] at hl
    rw [toDigits_injective hl]

/-- **A helper is not named like a builtin.** -/
theorem helperName_not_builtin (op : Operation) (s : Shape) : op.helperName s ∉ builtinNames := by
  intro hb
  have hop := ofHelperName_helperName op s
  simp only [builtinNames, List.mem_cons, List.not_mem_nil, or_false] at hb
  -- only `dot` has an operation, and the helper of a dot product goes on with a number
  rcases hb with h | h | h | h | h | h | h | h <;> rw [h] at hop <;> simp [ofHelperName] at hop
  subst hop
  have hl : (dot.helperName s).toList = ['d', 'o', 't'] := by rw [h]; rfl
  simp [helperName, toString, Nat.toDigits_ne_nil] at hl

end Operation
end ShaderAlgebra
