import Mathlib
import ShaderAlgebra.Storage

/-!
# Valid shapes and their members

A shape is valid when `Shape.validate` accepts it.  A valid shape is native, or
it is stored in a struct whose members are valid shapes again
(`storage_of_record`), closer to the native ones: a complex shape has real parts, a real matrix
has real rows, and a wide real vector has native chunks.  `Shape.inductionOn` is
that descent; definitions, constants and entrywise operations are all proved by it.
-/

namespace ShaderAlgebra

/-- Naming the members of a row commutes with a map on the members. -/
theorem numbered_map {α β : Type} (f : α → β) (parts : List α) :
    numbered (parts.map f) = (numbered parts).map fun m => (m.1, f m.2) := by
  simp [numbered, List.zipIdx_map, Function.comp_def]

/-- A member of a row is one of its parts. -/
theorem mem_of_mem_numbered {α : Type} {parts : List α} {m : String × α}
    (h : m ∈ numbered parts) : m.2 ∈ parts := by
  obtain ⟨⟨part, i⟩, hp, rfl⟩ := List.mem_map.1 h
  exact List.fst_mem_of_mem_zipIdx hp

/-- Fours are peeled off until two, three or four are left, or five as two and three. -/
theorem firstChunks_cases {n : Nat} (h : 2 ≤ n) :
    (firstChunks n = [2] ∧ n = 2 + (n - 2) / 4 * 4) ∨
      (firstChunks n = [3] ∧ n = 3 + (n - 2) / 4 * 4) ∨
      (firstChunks n = [4] ∧ n = 4 + (n - 2) / 4 * 4) ∨
      (firstChunks n = [2, 3] ∧ n = 5 + (n - 2) / 4 * 4) := by
  have hr : (n - 2) % 4 < 4 := Nat.mod_lt _ (by decide)
  have hd : n - 2 = (n - 2) % 4 + (n - 2) / 4 * 4 := by omega
  unfold firstChunks
  generalize hm : (n - 2) % 4 = r at *
  obtain rfl | rfl | rfl | rfl : r = 0 ∨ r = 1 ∨ r = 2 ∨ r = 3 := by omega
  · exact .inl ⟨rfl, by omega⟩
  · exact .inr (.inl ⟨rfl, by omega⟩)
  · exact .inr (.inr (.inl ⟨rfl, by omega⟩))
  · exact .inr (.inr (.inr ⟨rfl, by omega⟩))

/-- **The chunks of a width add up to it.** -/
theorem sum_chunks (n : Nat) : (chunks n).sum = n := by
  unfold chunks
  split
  · simp
  · rename_i h
    rcases firstChunks_cases (n := n) (by omega) with ⟨hc, hn⟩ | ⟨hc, hn⟩ | ⟨hc, hn⟩ | ⟨hc, hn⟩ <;>
      rw [hc] <;> simp [maxNativeWidth] <;> omega

/-- **No chunk of a vector of at least two elements has width one,** and none is too wide. -/
theorem chunk_bounds {n w : Nat} (hn : 2 ≤ n) (h : w ∈ chunks n) : 2 ≤ w ∧ w ≤ maxNativeWidth := by
  unfold chunks at h
  rw [if_neg (by omega), List.mem_append] at h
  rcases h with h | h
  · rcases firstChunks_cases hn with ⟨hc, -⟩ | ⟨hc, -⟩ | ⟨hc, -⟩ | ⟨hc, -⟩ <;>
      simp [hc] at h <;> simp [maxNativeWidth] <;> omega
  · rw [List.eq_of_mem_replicate h]
    decide

namespace Shape

/-- The dimensions are in range, and vectors and matrices are over real or complex numbers. -/
def Valid : Shape → Prop
  | scalar _ => True
  | vector n k => (1 ≤ n ∧ n ≤ maxDimension) ∧ k.isField
  | matrix r c k => (1 ≤ r ∧ r ≤ maxDimension) ∧ (1 ≤ c ∧ c ≤ maxDimension) ∧ k.isField

instance : (s : Shape) → Decidable s.Valid
  | scalar _ => inferInstanceAs (Decidable True)
  | vector n k => inferInstanceAs (Decidable ((1 ≤ n ∧ n ≤ maxDimension) ∧ k.isField))
  | matrix r c k => inferInstanceAs
      (Decidable ((1 ≤ r ∧ r ≤ maxDimension) ∧ (1 ≤ c ∧ c ≤ maxDimension) ∧ k.isField))

theorem checkDimension_eq_ok_iff {n : Nat} {what : String} :
    checkDimension n what = .ok () ↔ 1 ≤ n ∧ n ≤ maxDimension := by
  unfold checkDimension
  split <;> simp_all

/-- **Valid shapes are the accepted ones.** -/
theorem validate_eq_ok_iff {s : Shape} : s.validate = .ok () ↔ s.Valid := by
  have step : ∀ {n what} {next : Except Failure Unit},
      (checkDimension n what >>= fun _ => next) = .ok () ↔
        (1 ≤ n ∧ n ≤ maxDimension) ∧ next = .ok () := by
    intro n what next
    rw [← @checkDimension_eq_ok_iff n what]
    cases checkDimension n what <;> simp [bind, Except.bind]
  cases s with
  | scalar k => simp [validate, Valid]
  | vector n k =>
    simp only [validate, Valid, step]
    cases k <;> simp [Scalar.isField, pure, Except.pure, throw, throwThe, MonadExceptOf.throw]
  | matrix r c k =>
    simp only [validate, Valid, step]
    cases k <;> simp [Scalar.isField, pure, Except.pure, throw, throwThe, MonadExceptOf.throw]

/-- A valid shape with elements is over real or complex numbers. -/
theorem kind_isField {s e : Shape} (h : s.Valid) (he : s.element? = some e) : s.kind.isField := by
  cases s with
  | scalar k => cases he
  | vector n k => exact h.2
  | matrix r c k => exact h.2.2

/-- An element is over the same numbers. -/
theorem kind_of_element? {s e : Shape} (he : s.element? = some e) : e.kind = s.kind := by
  cases s with
  | scalar k => cases he
  | vector n k =>
    obtain rfl : .scalar k = e := by injection he
    rfl
  | matrix r c k =>
    obtain rfl : .vector c k = e := by injection he
    rfl

theorem exists_element? {s : Shape} (hd : 1 ≤ s.depth) : ∃ e, s.element? = some e := by
  cases s with
  | scalar k => cases hd
  | vector n k | matrix m n k => exact ⟨_, rfl⟩

theorem exists_element?_of_length? {s : Shape} {n : Nat} (h : s.length? = some n) :
    ∃ e, s.element? = some e := by
  cases s with
  | scalar k => cases h
  | vector n k | matrix r c k => exact ⟨_, rfl⟩

theorem eq_vector_of_depth {s : Shape} {k : Scalar} (hk : s.kind = k) (hd : s.depth = 1) :
    ∃ n, s = vector n k := by
  subst hk
  cases s with
  | scalar k | matrix r c k => cases hd
  | vector n k => exact ⟨n, rfl⟩

theorem eq_matrix_of_depth {s : Shape} {k : Scalar} (hk : s.kind = k) (hd : s.depth = 2) :
    ∃ r c, s = matrix r c k := by
  subst hk
  cases s with
  | scalar k | vector n k => cases hd
  | matrix r c k => exact ⟨r, c, rfl⟩

theorem length_pos {s : Shape} {n : Nat} (h : s.Valid) (hn : s.length? = some n) : 1 ≤ n := by
  cases s with
  | scalar k => cases hn
  | vector m k =>
    obtain rfl : m = n := by injection hn
    exact h.1.1
  | matrix r c k =>
    obtain rfl : r = n := by injection hn
    exact h.1.1

/-- A shape that GLSL does not have, so that its values are structs. -/
def IsRecord (s : Shape) : Prop :=
  s.Valid ∧ s.isNative = false

instance (s : Shape) : Decidable s.IsRecord :=
  inferInstanceAs (Decidable (s.Valid ∧ s.isNative = false))

/-- **The four kinds of struct.** -/
theorem IsRecord.cases {s : Shape} (h : s.IsRecord) :
    (∃ n, s = realVector n ∧ 5 ≤ n ∧ n ≤ maxDimension) ∨
      (∃ n, s = vector n .complex ∧ 1 ≤ n ∧ n ≤ maxDimension) ∨
      (∃ r c, s = matrix r c .real ∧ s.isNative = false ∧ (1 ≤ r ∧ r ≤ maxDimension) ∧
        1 ≤ c ∧ c ≤ maxDimension) ∨
      ∃ r c, s = matrix r c .complex ∧ (1 ≤ r ∧ r ≤ maxDimension) ∧ 1 ≤ c ∧ c ≤ maxDimension := by
  obtain ⟨hv, hn⟩ := h
  cases s with
  | scalar k => simp [isNative] at hn
  | vector n k =>
    cases k with
    | bool | int => simp [Valid, Scalar.isField] at hv
    | real =>
      refine .inl ⟨n, rfl, ?_, hv.1.2⟩
      have hw : ¬ n ≤ maxNativeWidth := by simpa [isNative] using hn
      exact Nat.not_le.1 hw
    | complex => exact .inr (.inl ⟨n, rfl, hv.1⟩)
  | matrix r c k =>
    cases k with
    | bool | int => simp [Valid, Scalar.isField] at hv
    | real => exact .inr (.inr (.inl ⟨r, c, rfl, hn, hv.1, hv.2.1⟩))
    | complex => exact .inr (.inr (.inr ⟨r, c, rfl, hv.1, hv.2.1⟩))

/-- A native shape is stored as it is. -/
theorem storage_of_native {s : Shape} (h : s.isNative) : s.storage = .native s := by
  cases s with
  | scalar k => rfl
  | vector n k =>
    cases k <;> simp [storage, Storage.ofVector, isNative] at h ⊢
    exact h
  | matrix r c k =>
    cases k <;> simp [storage, Storage.ofMatrix, isNative, and_assoc] at h ⊢
    exact h

theorem realVector_isNative {n : Nat} : (realVector n).isNative ↔ n ≤ maxNativeWidth := by
  simp [isNative]

theorem realVector_valid {n : Nat} (h : 1 ≤ n ∧ n ≤ maxDimension) : (realVector n).Valid :=
  ⟨h, rfl⟩

theorem members_realVector {n : Nat} (h : 5 ≤ n) :
    (realVector n).members = numbered ((chunks n).map realVector) := by
  have hn : (realVector n).isNative = false := by
    rw [Bool.eq_false_iff, ne_eq, realVector_isNative]
    exact Nat.not_le.2 h
  simp only [members, hn, Bool.false_eq_true, if_false]

theorem members_realMatrix {r c : Nat} (h : (matrix r c .real).isNative = false) :
    (matrix r c .real).members = numbered (List.replicate r (realVector c)) := by
  simp only [members, h, Bool.false_eq_true, if_false]

theorem members_complex {s : Shape} (h : s.IsRecord) (hk : s.kind = .complex) :
    s.members = [("real", s.part), ("imag", s.part)] := by
  rcases h.cases with ⟨n, rfl, -⟩ | ⟨n, rfl, -⟩ | ⟨r, c, rfl, -⟩ | ⟨r, c, rfl, -⟩
  · cases hk
  · rfl
  · cases hk
  · rfl

/-- **A shape that is not native is stored as a struct of the storages of its members.** -/
theorem storage_of_record {s : Shape} (h : s.IsRecord) :
    s.storage = .record s (s.members.map fun m => (m.1, m.2.storage)) := by
  have hn := h.2
  rcases h.cases with ⟨n, rfl, hw, -⟩ | ⟨n, rfl, -⟩ | ⟨r, c, rfl, -⟩ | ⟨r, c, rfl, -⟩
  · have hmap : ((chunks n).map fun w => Storage.native (realVector w)) =
        ((chunks n).map realVector).map storage := by
      rw [List.map_map]
      refine List.map_congr_left fun w hwc => (storage_of_native ?_).symm
      exact realVector_isNative.2 (chunk_bounds (by omega) hwc).2
    have hs : (realVector n).storage =
        .record (realVector n) (numbered ((chunks n).map fun w => .native (realVector w))) := by
      simp only [storage, Storage.ofVector, hn, Bool.false_eq_true, if_false]
    rw [members_realVector hw, hs, hmap, numbered_map]
  · rfl
  · have hs : (matrix r c .real).storage =
        .record (matrix r c .real) (numbered (List.replicate r (realVector c).storage)) := by
      simp only [storage, Storage.ofMatrix, hn, Bool.false_eq_true, if_false]
    rw [members_realMatrix hn, hs, ← List.map_replicate, numbered_map]
  · rfl

/-- **A member of a struct** is a chunk of a wide vector, a row of a matrix, or the real or the imaginary
part. -/
theorem IsRecord.mem_members {s : Shape} (h : s.IsRecord) {m : String × Shape} (hm : m ∈ s.members) :
    (∃ n w, s = realVector n ∧ 5 ≤ n ∧ w ∈ chunks n ∧ m.2 = realVector w) ∨
      (∃ n, s = vector n .complex ∧ m.2 = realVector n ∧ 1 ≤ n ∧ n ≤ maxDimension) ∨
      (∃ r c, s = matrix r c .real ∧ m.2 = realVector c ∧ 1 ≤ c ∧ c ≤ maxDimension) ∨
      ∃ r c, s = matrix r c .complex ∧ m.2 = matrix r c .real ∧ (1 ≤ r ∧ r ≤ maxDimension) ∧
        1 ≤ c ∧ c ≤ maxDimension := by
  have hpart (hk : s.kind = .complex) : m.2 = s.part := by
    rw [members_complex h hk] at hm
    rcases List.mem_pair.1 hm with rfl | rfl <;> rfl
  rcases h.cases with ⟨n, rfl, hw, -⟩ | ⟨n, rfl, hb⟩ | ⟨r, c, rfl, hn, -, hc⟩ | ⟨r, c, rfl, hb⟩
  · rw [members_realVector hw] at hm
    obtain ⟨w, hwc, he⟩ := List.mem_map.1 (mem_of_mem_numbered hm)
    exact .inl ⟨n, w, rfl, hw, hwc, he.symm⟩
  · exact .inr (.inl ⟨n, rfl, hpart rfl, hb⟩)
  · rw [members_realMatrix hn] at hm
    exact .inr (.inr (.inl ⟨r, c, rfl, List.eq_of_mem_replicate (mem_of_mem_numbered hm), hc⟩))
  · exact .inr (.inr (.inr ⟨r, c, rfl, hpart rfl, hb⟩))

/-- **The members of a struct are valid.** -/
theorem valid_of_mem_members {s : Shape} (h : s.IsRecord) {m : String × Shape}
    (hm : m ∈ s.members) : m.2.Valid := by
  rcases h.mem_members hm with
    ⟨n, w, -, hw, hwc, he⟩ | ⟨n, -, he, hn⟩ | ⟨r, c, -, he, hc⟩ | ⟨r, c, -, he, hr, hc⟩
  · have := chunk_bounds (by omega) hwc
    rw [he]
    exact realVector_valid ⟨by omega, Nat.le_trans this.2 (by decide)⟩
  · exact he ▸ realVector_valid hn
  · exact he ▸ realVector_valid hc
  · exact he ▸ ⟨hr, hc, rfl⟩

/-- The members of a struct are real. -/
theorem kind_of_mem_members {s : Shape} (h : s.IsRecord) {m : String × Shape}
    (hm : m ∈ s.members) : m.2.kind = .real := by
  rcases h.mem_members hm with
    ⟨n, w, -, -, -, he⟩ | ⟨n, -, he, -⟩ | ⟨r, c, -, he, -⟩ | ⟨r, c, -, he, -⟩ <;> rw [he, kind]

/-- A native matrix is square. -/
theorem isNative_matrix {r c : Nat} (h : (matrix r c .real).isNative) :
    r = c ∧ 2 ≤ r ∧ r ≤ maxNativeWidth := by
  simpa [isNative, and_assoc] using h

/-- **The four kinds of native number.** -/
theorem native_cases {s : Shape} (hv : s.Valid) (hk : s.kind.isField) (hn : s.isNative) :
    s = real ∨ s = complex ∨ (∃ n, s = realVector n ∧ 1 ≤ n ∧ n ≤ maxNativeWidth) ∨
      ∃ n, s = matrix n n .real ∧ 2 ≤ n ∧ n ≤ maxNativeWidth := by
  cases s with
  | scalar k =>
    cases k with
    | bool | int => cases hk
    | real => exact .inl rfl
    | complex => exact .inr (.inl rfl)
  | vector n k =>
    cases k with
    | bool | int => cases hk
    | real => exact .inr (.inr (.inl ⟨n, rfl, hv.1.1, realVector_isNative.1 hn⟩))
    | complex => cases hn
  | matrix r c k =>
    cases k with
    | bool | int => cases hk
    | real =>
      obtain ⟨rfl, h2, h4⟩ := isNative_matrix hn
      exact .inr (.inr (.inr ⟨r, rfl, h2, h4⟩))
    | complex => cases hn

/-- How many structs lie one inside the other. -/
def nesting : Shape → Nat
  | scalar _ => 0
  | vector _ .complex => 2
  | vector n _ => if n ≤ maxNativeWidth then 0 else 1
  | matrix _ _ .complex => 3
  | matrix _ _ _ => 2

/-- **A member is nested less deeply than its struct.** -/
theorem nesting_lt_of_mem_members {s : Shape} (h : s.IsRecord) {m : String × Shape}
    (hm : m ∈ s.members) : m.2.nesting < s.nesting := by
  have hrow (n : Nat) : (realVector n).nesting < 2 := by
    simp only [nesting]
    split <;> decide
  rcases h.mem_members hm with
    ⟨n, w, rfl, hw, hwc, he⟩ | ⟨n, rfl, he, -⟩ | ⟨r, c, rfl, he, -⟩ | ⟨r, c, rfl, he, -⟩ <;> rw [he]
  · have hwide : ¬ n ≤ maxNativeWidth := Nat.not_le.2 hw
    have hchunk := (chunk_bounds (by omega) hwc).2
    simp [nesting, hwide, hchunk]
  · exact hrow n
  · exact hrow c
  · simp [nesting]

/-- **Descent to the native shapes.**  What holds of native shapes, and of a struct when it holds of
the members, holds of every valid shape. -/
theorem inductionOn {motive : (s : Shape) → s.Valid → Prop}
    (native : ∀ s h, s.isNative → motive s h)
    (record : ∀ s (h : s.IsRecord),
      (∀ m (hm : m ∈ s.members), motive m.2 (valid_of_mem_members h hm)) → motive s h.1)
    (s : Shape) (h : s.Valid) : motive s h := by
  induction hk : s.nesting using Nat.strongRecOn generalizing s with
  | ind k ih =>
    cases hn : s.isNative with
    | true => exact native s h hn
    | false =>
      have hr : s.IsRecord := ⟨h, hn⟩
      refine record s hr fun m hm => ?_
      exact ih m.2.nesting (hk ▸ nesting_lt_of_mem_members hr hm) m.2 (valid_of_mem_members hr hm) rfl

theorem complexVector_valid {n : Nat} (h : 1 ≤ n ∧ n ≤ maxDimension) : (vector n .complex).Valid :=
  ⟨h, rfl⟩

theorem realMatrix_valid {r c : Nat} (hr : 1 ≤ r ∧ r ≤ maxDimension)
    (hc : 1 ≤ c ∧ c ≤ maxDimension) : (matrix r c .real).Valid :=
  ⟨hr, hc, rfl⟩

end Shape
end ShaderAlgebra
