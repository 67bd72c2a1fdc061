import ShaderAlgebra.Proofs.Packing
import ShaderAlgebra.Proofs.TypedTerms

/-!
# Generated terms have the right values

Each term that synthesis makes evaluates to the stored value that it is made
for, in every library that *means* the items which synthesis enters for it: a struct is there with
its members, and a call of a helper returns what its operation gives.
-/

namespace ShaderAlgebra

open Glsl (Term Value Library Sampler Env combine callBuiltin)
open Glsl.Library

/-! ## Operators on native values -/

namespace Entrywise

/-- What an operation does with two rationals. -/
def fn : Entrywise → ℚ → ℚ → ℚ
  | add => (· + ·)
  | sub => (· - ·)
  | scale => (· * ·)

/-- The left operands on a shape, each with a rational for every coordinate: a value with its
coordinates, or one factor for all of them. -/
inductive Operand : Entrywise → Shape → Value → List ℚ → Prop where
  | add {s : Shape} {xs : List ℚ} (h : xs.length = s.size) : Operand .add s (s.pack xs) xs
  | sub {s : Shape} {xs : List ℚ} (h : xs.length = s.size) : Operand .sub s (s.pack xs) xs
  | scale {s : Shape} (q : ℚ) : Operand .scale s (.float q) (List.replicate s.size q)

end Entrywise

theorem getD_zipWith (f : ℚ → ℚ → ℚ) {xs ys : List ℚ} {k : Nat} (hx : k < xs.length)
    (hy : k < ys.length) :
    (List.zipWith f xs ys).getD k 0 = f (xs.getD k 0) (ys.getD k 0) := by
  simp [List.getD_eq_getElem?_getD, hx, hy]

theorem index_lt {r c i j : Nat} (hi : i < r) (hj : j < c) : i * c + j < r * c :=
  calc i * c + j < i * c + c := Nat.add_lt_add_left hj _
    _ = (i + 1) * c := (Nat.succ_mul i c).symm
    _ ≤ r * c := Nat.mul_le_mul_right c hi

theorem zipWith_columns (f : ℚ → ℚ → ℚ) {r c : Nat} {xs ys : List ℚ} (hx : xs.length = r * c)
    (hy : ys.length = r * c) :
    List.zipWith (List.zipWith f) (columns r c xs) (columns r c ys) =
      columns r c (List.zipWith f xs ys) := by
  rw [columns, columns, columns, List.zipWith_map, List.zipWith_self]
  refine List.map_congr_left fun j hj => ?_
  rw [List.zipWith_map, List.zipWith_self]
  refine List.map_congr_left fun i hi => ?_
  have hk := index_lt (List.mem_range.1 hi) (List.mem_range.1 hj)
  rw [getD_zipWith f (hx ▸ hk) (hy ▸ hk)]

theorem map_columns (g : ℚ → ℚ) {r c : Nat} {xs : List ℚ} (hx : xs.length = r * c) :
    (columns r c xs).map (·.map g) = columns r c (xs.map g) := by
  rw [columns, columns, List.map_map]
  refine List.map_congr_left fun j hj => ?_
  rw [Function.comp_apply, List.map_map]
  refine List.map_congr_left fun i hi => ?_
  have hk := index_lt (List.mem_range.1 hi) (List.mem_range.1 hj)
  rw [← hx] at hk
  simp [List.getD_eq_getElem?_getD, hk]

theorem lengths_columns (r c : Nat) (xs : List ℚ) :
    (columns r c xs).map List.length = List.replicate c r := by
  refine List.eq_replicate_iff.2 ⟨by simp [columns], fun n hn => ?_⟩
  simp only [columns, List.map_map, List.mem_map, Function.comp_apply, List.length_map,
    List.length_range] at hn
  obtain ⟨_, -, rfl⟩ := hn
  rfl

/-- A sum or difference of native values. -/
theorem combine_native {op : Glsl.Operator} {f : ℚ → ℚ → ℚ} (hf : op.act = some f)
    (hop : op ≠ .times) {s : Shape} (hv : s.Valid) (hk : s.kind.isField) (hn : s.isNative)
    {xs ys : List ℚ} (hx : xs.length = s.size) (hy : ys.length = s.size) :
    combine op (s.pack xs) (s.pack ys) = some (s.pack (List.zipWith f xs ys)) := by
  rw [Shape.size_of_native hn] at hx hy
  rw [Shape.pack_of_native hn, Shape.pack_of_native hn, Shape.pack_of_native hn, combine, hf]
  have hfloat : ∀ {xs ys : List ℚ}, xs.length = 1 → ys.length = 1 →
      f (xs.headD 0) (ys.headD 0) = (List.zipWith f xs ys).headD 0 := by
    intro xs ys hx hy
    obtain ⟨x, rfl⟩ := List.length_eq_one_iff.1 hx
    obtain ⟨y, rfl⟩ := List.length_eq_one_iff.1 hy
    rfl
  rcases Shape.native_cases hv hk hn with rfl | rfl | ⟨n, rfl, h1, h4⟩ | ⟨n, rfl, h2, h4⟩
  · exact congrArg (some <| Value.float ·) (hfloat hx hy)
  · exact if_pos (hx.trans hy.symm)
  · by_cases hn1 : n = 1
    · subst hn1
      exact congrArg (some <| Value.float ·) (hfloat hx hy)
    · simp only [Storage.packNative, if_neg hn1]
      exact if_pos (hx.trans hy.symm)
  · have hlen : (columns n n xs).map List.length = (columns n n ys).map List.length := by
      rw [lengths_columns, lengths_columns]
    simp only [Storage.packNative]
    exact (if_pos ⟨hop, hlen⟩).trans (by rw [zipWith_columns f hx hy])

/-- A multiple of a native value. -/
theorem combine_times {s : Shape} (hv : s.Valid) (hk : s.kind.isField) (hn : s.isNative) (q : ℚ)
    {xs : List ℚ} (hx : xs.length = s.size) :
    combine .times (.float q) (s.pack xs) = some (s.pack (xs.map (q * ·))) := by
  rw [Shape.size_of_native hn] at hx
  rw [Shape.pack_of_native hn, Shape.pack_of_native hn, combine]
  rcases Shape.native_cases hv hk hn with rfl | rfl | ⟨n, rfl, h1, h4⟩ | ⟨n, rfl, h2, h4⟩
  · obtain ⟨x, rfl⟩ := List.length_eq_one_iff.1 hx
    rfl
  · rfl
  · by_cases hn1 : n = 1
    · subst hn1
      obtain ⟨x, rfl⟩ := List.length_eq_one_iff.1 hx
      rfl
    · simp only [Storage.packNative, if_neg hn1]
      rfl
  · simp only [Storage.packNative]
    rw [← map_columns _ hx]
    rfl

theorem zipWith_replicate (f : ℚ → ℚ → ℚ) (q : ℚ) {n : Nat} {xs : List ℚ} (h : xs.length = n) :
    List.zipWith f (List.replicate n q) xs = xs.map (f q) := by
  subst h
  refine List.ext_getElem (by simp) fun i h h' => ?_
  simp

/-- **An operator on native values acts on their coordinates.** -/
theorem combine_operand {op : Entrywise} {s : Shape} (hv : s.Valid) (hk : s.kind.isField)
    (hn : s.isNative) {v : Value} {xs ys : List ℚ} (h : op.Operand s v xs) (hy : ys.length = s.size) :
    combine op.operator v (s.pack ys) = some (s.pack (List.zipWith op.fn xs ys)) := by
  cases h with
  | add hx => exact combine_native rfl (by decide) hv hk hn hx hy
  | sub hx => exact combine_native rfl (by decide) hv hk hn hx hy
  | scale q =>
    rw [zipWith_replicate _ q hy]
    exact combine_times hv hk hn q hy

/-! ## What a library means by its items -/

/-- A call of the helper of an entrywise operation acts on the coordinates. -/
def Acts (L : Library) (σ : Sampler) (op : Entrywise) (s : Shape) : Prop :=
  ∀ (v : Value) (xs ys : List ℚ), op.Operand s v xs → ys.length = s.size →
    L.call σ (op.operation.helperName s) [v, s.pack ys] = some (s.pack (List.zipWith op.fn xs ys))

/-- A library makes the struct of an item, or computes its operation. -/
def Glsl.Library.Means (L : Library) (σ : Sampler) : Item → Prop
  | .struct s => ∀ vs : List Value, vs.length = s.members.length →
      L.call σ s.name vs = some (.struct s.name ((s.members.map (·.1)).zip vs))
  | .helper .add s => Acts L σ .add s
  | .helper .sub s => Acts L σ .sub s
  | .helper .scale s => Acts L σ .scale s
  | .helper .matVec s => ∀ r c, s = .matrix r c .real → ∀ M v,
      L.call σ (Operation.matVec.helperName s) [store (.matrix r c .real) M, store (.realVector c) v] =
        some (store (.realVector r) (M.mulVec v))
  | .helper .dot s => ∀ n, s = .realVector n → ∀ v w,
      L.call σ (Operation.dot.helperName s) [store (.realVector n) v, store (.realVector n) w] =
        some (store .real (dotProduct v w))
  | .helper .sum s => ∀ x y : Quantity, x.shape = s → x.sum = some y →
      L.call σ (Operation.sum.helperName s) [store x.shape x.value] = some (store y.shape y.value)
  | .helper .complexMul s => ∀ z w : Gauss,
      L.call σ (Operation.complexMul.helperName s) [store .complex z, store .complex w] =
        some (store .complex (z * w : Gauss))
  | .helper .complexScale s => ∀ (z : Gauss) (xs ys : List ℚ), xs.length = s.part.size →
      ys.length = s.part.size →
      L.call σ (Operation.complexScale.helperName s) [store .complex z, s.pack (xs ++ ys)] =
        some (s.pack (complexMultiple z xs ys))
  | .helper .complexMatVec s => ∀ r c, s = .matrix r c .complex → ∀ M v,
      L.call σ (Operation.complexMatVec.helperName s)
        [store (.matrix r c .complex) M, store (.vector c .complex) v] =
        some (store (.vector r .complex) (M.mulVec v))
  | .helper .complexDot s => ∀ n, s = .vector n .complex → ∀ v w,
      L.call σ (Operation.complexDot.helperName s)
        [store (.vector n .complex) v, store (.vector n .complex) w] =
        some (store .complex (dotProduct v w))

namespace Glsl.Library

variable {L : Library} {σ : Sampler} {env : Env}

theorem means_item {op : Entrywise} {s : Shape} : L.Means σ (op.item s) ↔ Acts L σ op s := by
  cases op <;> exact Iff.rfl

/-! ## Structs -/

/-- A struct of its members. -/
theorem value_record {s : Shape} (hs : s.IsRecord) (hm : L.Means σ (.struct s)) {args : List Term}
    {xs : List ℚ} (h : L.values σ env args =
      some (s.members.map fun m => m.2.pack (portion s.members m.1 xs))) :
    L.value σ env (.apply s.name args) = some (s.pack xs) := by
  rw [value_call h, hm _ (List.length_map _), zip_packAll (Shape.members_nodup hs),
    Shape.pack_of_record hs]

/-- A member of a struct. -/
theorem value_field {s : Shape} (hs : s.IsRecord) {base : Term} {xs : List ℚ}
    (hb : L.value σ env base = some (s.pack xs)) {field : String} {part : Shape}
    (hm : (field, part) ∈ s.members) :
    L.value σ env (.member base field) = some (part.pack (portion s.members field xs)) := by
  rw [value_member hb, Shape.member_pack hs hm]

/-! ## Builtin constructors -/

theorem mapM_flatten_vecs (cols : List (List ℚ)) :
    (cols.map Value.vec).mapM Value.flatten = some cols := by
  induction cols with
  | nil => rfl
  | cons c cols ih => simp [List.mapM_cons, Value.flatten, ih]

/-- A native vector of its components. -/
theorem call_nativeVector {xs : List ℚ} {n : Nat} (hn : xs.length = n) (h1 : 1 ≤ n)
    (h4 : n ≤ maxNativeWidth) :
    L.call σ (Shape.realVector n).name (xs.map .float) = some ((Shape.realVector n).pack xs) := by
  rw [Shape.pack_of_native (Shape.realVector_isNative.2 h4)]
  obtain rfl | rfl | rfl | rfl : n = 1 ∨ n = 2 ∨ n = 3 ∨ n = 4 := by
    simp only [maxNativeWidth] at h4; omega
  · obtain ⟨x, rfl⟩ := List.length_eq_one_iff.1 hn
    rw [call_builtin (by decide)]
    rfl
  · obtain ⟨x, y, rfl⟩ := List.length_eq_two.1 hn
    rw [call_builtin (by decide)]
    rfl
  · obtain ⟨x, y, z, rfl⟩ := List.length_eq_three.1 hn
    rw [call_builtin (by decide)]
    rfl
  · obtain ⟨x, y, z, w, rfl⟩ := List.length_eq_four.1 hn
    rw [call_builtin (by decide)]
    rfl

/-- A native matrix of its columns. -/
theorem call_nativeMatrix {cols : List (List ℚ)} {n : Nat} (h2 : 2 ≤ n) (h4 : n ≤ maxNativeWidth)
    (hl : cols.map List.length = List.replicate n n) :
    L.call σ (Shape.matrix n n .real).name (cols.map .vec) = some (.mat cols) := by
  have hname : (Shape.matrix n n .real).name ∈ builtinNames ∧ ∀ args,
      callBuiltin (Shape.matrix n n .real).name args = (args.mapM Value.flatten).bind fun columns =>
        if columns.map List.length = List.replicate n n then some (.mat columns) else none := by
    obtain rfl | rfl | rfl : n = 2 ∨ n = 3 ∨ n = 4 := by simp only [maxNativeWidth] at h4; omega
    all_goals exact ⟨by decide, fun _ => rfl⟩
  rw [call_builtin hname.1, hname.2, mapM_flatten_vecs, Option.bind_some, if_pos hl]

theorem values_length {args : List Term} {vs : List Value} (h : L.values σ env args = some vs) :
    args.length = vs.length :=
  (values_iff.1 h).length_eq

theorem values_replicate {t : Term} {v : Value} (h : L.value σ env t = some v) (n : Nat) :
    L.values σ env (List.replicate n t) = some (List.replicate n v) := by
  induction n with
  | zero => exact values_nil
  | succ n ih =>
    rw [List.replicate_succ, List.replicate_succ]
    exact values_cons h ih

/-- Terms that are made from terms have values that are made from their values. -/
theorem values_through {α : Type} {f : Term → Term} {g h : α → Value} {args : List Term} {ys : List α}
    (hv : L.values σ env args = some (ys.map g))
    (hf : ∀ t y, L.value σ env t = some (g y) → L.value σ env (f t) = some (h y)) :
    L.values σ env (args.map f) = some (ys.map h) := by
  rw [values_iff, List.forall₂_map_right_iff] at hv
  rw [values_iff, List.forall₂_map_left_iff, List.forall₂_map_right_iff]
  exact hv.imp hf

theorem value_nativeVector {args : List Term} {xs : List ℚ} {n : Nat} (hn : xs.length = n)
    (h1 : 1 ≤ n) (h4 : n ≤ maxNativeWidth) (h : L.values σ env args = some (xs.map .float)) :
    L.value σ env (Synth.nativeVector args) = some ((Shape.realVector n).pack xs) := by
  have hlen : args.length = n := by rw [values_length h, List.length_map, hn]
  rw [Synth.nativeVector, value_call h, hlen, call_nativeVector hn h1 h4]

/-! ## Constants and entrywise operations -/

theorem columns_replicate (n : Nat) (q : ℚ) :
    columns n n (List.replicate (n * n) q) = List.replicate n (List.replicate n q) := by
  have hinner : ∀ j < n, ((List.range n).map fun i => (List.replicate (n * n) q).getD (i * n + j) 0) =
      List.replicate n q := by
    intro j hj
    refine List.eq_replicate_iff.2 ⟨by simp, fun x hx => ?_⟩
    obtain ⟨i, hi, rfl⟩ := List.mem_map.1 hx
    have hk := index_lt (List.mem_range.1 hi) hj
    simp [List.getD_eq_getElem?_getD, hk]
  refine List.eq_replicate_iff.2 ⟨by simp [columns], fun x hx => ?_⟩
  obtain ⟨j, hj, rfl⟩ := List.mem_map.1 hx
  exact hinner j (List.mem_range.1 hj)

theorem value_fillNative {value : Term} {q : ℚ} (hq : L.value σ env value = some (.float q)) {s : Shape}
    (hv : s.Valid) (hk : s.kind.isField) (hn : s.isNative) :
    L.value σ env (Storage.fillNative value s) = some (s.pack (List.replicate s.size q)) := by
  rw [Shape.size_of_native hn, Shape.pack_of_native hn]
  have hvec : ∀ n, 2 ≤ n → n ≤ maxNativeWidth →
      L.value σ env (.apply s!"vec{n}" [value]) = some (.vec (List.replicate n q)) := by
    intro n h2 h4
    rw [value_call (values_singleton hq)]
    obtain rfl | rfl | rfl : n = 2 ∨ n = 3 ∨ n = 4 := by simp only [maxNativeWidth] at h4; omega
    all_goals
      rw [call_builtin (by decide)]
      rfl
  rcases Shape.native_cases hv hk hn with rfl | rfl | ⟨n, rfl, h1, h4⟩ | ⟨n, rfl, h2, h4⟩
  · exact hq
  · exact hvec 2 (by decide) (by decide)
  · simp only [Storage.fillNative, Storage.packNative, Storage.nativeSize]
    split
    · rename_i h
      subst h
      exact hq
    · exact hvec n (by omega) h4
  · have hcolumn : L.values σ env (List.replicate n (Term.apply s!"vec{n}" [value])) =
        some ((List.replicate n (List.replicate n q)).map .vec) := by
      rw [List.map_replicate]
      exact values_replicate (hvec n h2 h4) n
    have hname : s!"mat{n}" = (Shape.matrix n n .real).name := by
      simp [Shape.name, hn]
    rw [Storage.fillNative, value_call hcolumn, hname, call_nativeMatrix h2 h4 (by simp)]
    simp only [Storage.packNative, Storage.nativeSize, columns_replicate]

/-- A value with one number in every place. -/
theorem value_filled {value : Term} {q : ℚ} (hq : L.value σ env value = some (.float q)) {s : Shape}
    (hv : s.Valid) : s.kind.isField → (∀ x ∈ s.structs, L.Means σ x) →
      L.value σ env (s.filled value) = some (s.pack (List.replicate s.size q)) := by
  induction s, hv using Shape.inductionOn with
  | native s hv hn =>
    intro hk _
    rw [Shape.filled_of_native _ hn]
    exact value_fillNative hq hv hk hn
  | record s hs ih =>
    intro _ ho
    rw [Shape.structs_of_record hs] at ho
    rw [Shape.filled_of_record _ hs]
    refine value_record hs (ho _ (by simp)) (values_map fun m hm => ?_)
    have hkind : m.2.kind.isField := by
      rw [Shape.kind_of_mem_members hs hm]
      rfl
    rw [Shape.size_of_record hs, portion_replicate hm (Shape.members_nodup hs)]
    exact ih m hm hkind fun x hx => ho x (List.mem_append_left _ (List.mem_flatMap.2 ⟨m, hm, hx⟩))

/-- An entrywise operation. -/
theorem value_combined (op : Entrywise) {s : Shape} (hv : s.Valid) (hk : s.kind.isField)
    (ho : ∀ x ∈ s.helpers op, L.Means σ x) {a b : Term} {v : Value} {xs ys : List ℚ}
    (hx : op.Operand s v xs) (hy : ys.length = s.size) (ha : L.value σ env a = some v)
    (hb : L.value σ env b = some (s.pack ys)) :
    L.value σ env (s.combined op a b) = some (s.pack (List.zipWith op.fn xs ys)) := by
  cases hn : s.isNative with
  | true =>
    rw [Shape.combined_of_native op hn, value_grouped ha hb]
    exact combine_operand hv hk hn hx hy
  | false =>
    have hs : s.IsRecord := ⟨hv, hn⟩
    have hmem : op.item s ∈ s.helpers op := by
      rw [Shape.helpers_of_record op hs]
      exact List.mem_append_right _ List.mem_cons_self
    rw [Shape.combined_of_record op hs, value_call (values_pair ha hb)]
    exact means_item.1 (ho _ hmem) v xs ys hx hy

end Glsl.Library
end ShaderAlgebra
