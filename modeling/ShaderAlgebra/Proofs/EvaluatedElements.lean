import ShaderAlgebra.Proofs.EvaluatedTerms

/-!
# Constructors, elements and products have the right values

A value that is put together from its elements stores them, an element that is taken
from a stored value is the element of that value, and products and sums are those of
matrices and vectors over the rationals and the complex numbers.
-/

namespace ShaderAlgebra

open Glsl (Term Value Library Sampler Env combine callBuiltin)
open Glsl.Library

namespace Glsl.Library

variable {L : Library} {σ : Sampler} {env : Env}

/-! ## Constructors -/

theorem getElem?_pieces (ws : List Nat) (xs : List ℚ) (i : Nat) :
    (Synth.pieces ws xs)[i]? = ws[i]?.map fun w => (xs.drop (ws.take i).sum).take w := by
  induction ws generalizing xs i with
  | nil => rfl
  | cons w ws ih =>
    cases i with
    | zero => simp [Synth.pieces]
    | succ i => simp [Synth.pieces, ih, List.drop_drop]

/-- A chunk has as many coordinates as it is wide. -/
theorem sizes_chunks {n : Nat} (h : 5 ≤ n) :
    ((chunks n).map Shape.realVector).map Shape.size = chunks n := by
  rw [List.map_map]
  refine (List.map_congr_left fun w hw => ?_).trans (List.map_id _)
  obtain ⟨h2, h4⟩ := chunk_bounds (by omega) hw
  exact Shape.size_realVector ⟨by omega, Nat.le_trans h4 (by decide)⟩

/-- The portion of a member of a row. -/
theorem portion_numbered {parts : List Shape} {i : Nat} {part : Shape} (h : parts[i]? = some part)
    (xs : List ℚ) : portion (numbered parts) s!"a{i}" xs =
      (xs.drop ((parts.map Shape.size).take i).sum).take part.size := by
  have hm : (numbered parts)[i]? = some (s!"a{i}", part) := by
    rw [getElem?_numbered, h, Option.map_some]
  rw [portion_eq hm (nodup_numbered parts), List.map_take, map_snd_numbered Shape.size]

theorem values_pieces {ws : List Nat} {args : List Term} {xs : List ℚ}
    (hw : ∀ w ∈ ws, 1 ≤ w ∧ w ≤ maxNativeWidth) (hn : xs.length = ws.sum)
    (ha : L.values σ env args = some (xs.map .float)) :
    L.values σ env ((Synth.pieces ws args).map Synth.nativeVector) =
      some (List.zipWith (fun w ys => (Shape.realVector w).pack ys) ws (Synth.pieces ws xs)) := by
  induction ws generalizing args xs with
  | nil => exact values_nil
  | cons w ws ih =>
    rw [List.sum_cons] at hn
    obtain ⟨h1, h4⟩ := hw w List.mem_cons_self
    have htake : L.values σ env (args.take w) = some ((xs.take w).map .float) := by
      rw [List.map_take]
      exact values_iff.2 (List.forall₂_take w (values_iff.1 ha))
    have hdrop : L.values σ env (args.drop w) = some ((xs.drop w).map .float) := by
      rw [List.map_drop]
      exact values_iff.2 (List.forall₂_drop w (values_iff.1 ha))
    refine values_cons (value_nativeVector ?_ h1 h4 htake) (ih ?_ ?_ hdrop)
    · rw [List.length_take]
      omega
    · exact fun w' hw' => hw w' (List.mem_cons_of_mem _ hw')
    · rw [List.length_drop]
      omega

/-- A real vector of its components. -/
theorem value_realVectorTerm {n : Nat} (h : 1 ≤ n ∧ n ≤ maxDimension) {args : List Term}
    {v : Fin n → ℚ} (ha : L.values σ env args = some (List.ofFn fun i => store .real (v i)))
    (ho : ∀ x ∈ (Shape.realVector n).structs, L.Means σ x) :
    L.value σ env (Synth.realVectorTerm n args) = some (store (.realVector n) v) := by
  have ha' : L.values σ env args = some ((List.ofFn v).map .float) := by
    rw [ha, List.map_ofFn]
    rfl
  unfold Synth.realVectorTerm
  split
  · rename_i hw
    exact value_nativeVector List.length_ofFn h.1 hw ha'
  · rename_i hw
    have h5 : 5 ≤ n := Nat.not_le.1 hw
    have hs := realVector_isRecord h hw
    have hchunk : ∀ w ∈ chunks n, 1 ≤ w ∧ w ≤ maxNativeWidth := fun w hwc =>
      (chunk_bounds (by omega) hwc).imp_left (Nat.le_trans (by decide))
    rw [Shape.structs_of_record hs] at ho
    have hpieces := values_pieces hchunk (by rw [sum_chunks, List.length_ofFn]) ha'
    refine value_record hs (ho _ (by simp)) (hpieces.trans ?_)
    -- piece `i` is the portion of member `i`
    refine congrArg some (List.ext_getElem? fun i => ?_)
    rw [Shape.members_realVector h5, List.getElem?_zipWith, List.getElem?_map, getElem?_numbered,
      getElem?_pieces, List.getElem?_map]
    cases hc : (chunks n)[i]? with
    | none => rfl
    | some w =>
      have hw := List.mem_of_getElem? hc
      have hpart : ((chunks n).map Shape.realVector)[i]? = some (Shape.realVector w) := by
        rw [List.getElem?_map, hc, Option.map_some]
      simp only [Option.map_some]
      rw [portion_numbered hpart, sizes_chunks h5,
        Shape.size_realVector ⟨(hchunk w hw).1, Nat.le_trans (hchunk w hw).2 (by decide)⟩]
      rfl

theorem values_ofFn {n : Nat} {f : Fin n → Term} {g : Fin n → Value}
    (h : ∀ i, L.value σ env (f i) = some (g i)) :
    L.values σ env (List.ofFn f) = some (List.ofFn g) := by
  rw [List.ofFn_eq_map, List.ofFn_eq_map]
  exact values_map fun i _ => h i

theorem map_range_eq_ofFn {α : Type} (f : Nat → α) (n : Nat) :
    (List.range n).map f = List.ofFn fun i : Fin n => f i := by
  refine List.ext_getElem (by simp) fun i h h' => ?_
  simp

/-- The column of a matrix, from terms for its rows. -/
theorem values_column {r c : Nat} {rows : List Term} {M : Fin r → Fin c → ℚ} (h2 : 2 ≤ c)
    (h4 : c ≤ maxNativeWidth)
    (ha : L.values σ env rows = some (List.ofFn fun i => store (.realVector c) (M i))) (k : Fin c) :
    L.values σ env (rows.map fun row => .index (.group row) k) =
      some ((List.ofFn fun i => M i k).map .float) := by
  rw [List.ofFn_eq_map] at ha
  rw [List.map_ofFn, List.ofFn_eq_map]
  refine values_through ha fun row i hrow => ?_
  rw [store_nativeVector h2 h4] at hrow
  rw [value_index ((value_group row).trans hrow), Value.index, List.getElem?_ofFn, dif_pos k.2]
  rfl

/-- A row of a matrix is the portion of its member. -/
theorem portion_row {r c i : Nat} (hc : 1 ≤ c ∧ c ≤ maxDimension) (hi : i < r)
    (M : Fin r → Fin c → ℚ) :
    portion (numbered (List.replicate r (Shape.realVector c))) s!"a{i}" (rowMajor M) =
      List.ofFn (M ⟨i, hi⟩) := by
  have hpart : (List.replicate r (Shape.realVector c))[i]? = some (Shape.realVector c) := by
    rw [List.getElem?_replicate, if_pos hi]
  have hskip : (((List.replicate r (Shape.realVector c)).map Shape.size).take i).sum = i * c := by
    rw [List.map_replicate, List.take_replicate, List.sum_replicate, Nat.min_eq_left (Nat.le_of_lt hi),
      Shape.size_realVector hc, smul_eq_mul]
  rw [portion_numbered hpart, hskip, Shape.size_realVector hc]
  exact take_drop_rowMajor M ⟨i, hi⟩

/-- A real matrix of its rows. -/
theorem value_realMatrixTerm {r c : Nat} (hv : (Shape.matrix r c .real).Valid) {rows : List Term}
    {M : Matrix (Fin r) (Fin c) ℚ}
    (ha : L.values σ env rows = some (List.ofFn fun i => store (.realVector c) (M i)))
    (ho : ∀ x ∈ (Shape.matrix r c .real).structs, L.Means σ x) :
    L.value σ env (Synth.realMatrixTerm r c rows) = some (store (.matrix r c .real) M) := by
  unfold Synth.realMatrixTerm
  dsimp only
  cases hnat : (Shape.matrix r c .real).isNative with
  | true =>
    obtain ⟨rfl, h2, h4⟩ := Shape.isNative_matrix hnat
    have hcolumns : L.values σ env ((List.range r).map fun k =>
        Synth.nativeVector (rows.map fun row => .index (.group row) k)) =
        some ((List.ofFn fun j => List.ofFn fun i => M i j).map .vec) := by
      rw [map_range_eq_ofFn, List.map_ofFn]
      refine values_ofFn fun k => ?_
      rw [value_nativeVector List.length_ofFn (by omega) h4 (values_column h2 h4 ha k)]
      exact congrArg some (store_nativeVector h2 h4 fun i => M i k)
    have hlengths : (List.ofFn fun j => List.ofFn fun i => M i j).map List.length =
        List.replicate r r := by
      rw [List.map_ofFn]
      simp [Function.comp_def]
    rw [if_pos rfl, value_call hcolumns, call_nativeMatrix h2 h4 hlengths, store_nativeMatrix hnat]
  | false =>
    have hs : (Shape.matrix r c .real).IsRecord := ⟨hv, hnat⟩
    rw [if_neg (by decide)]
    rw [Shape.structs_of_record hs] at ho
    refine value_record hs (ho _ (by simp)) (ha.trans ?_)
    -- row `i` is the portion of member `i`
    refine congrArg some (List.ext_getElem? fun i => ?_)
    rw [Shape.members_realMatrix hnat, List.getElem?_map, getElem?_numbered, List.getElem?_ofFn,
      List.getElem?_replicate]
    by_cases hi : i < r
    · rw [dif_pos hi, if_pos hi, Option.map_some, Option.map_some]
      exact congrArg (fun xs => some ((Shape.realVector c).pack xs)) (portion_row hv.2.1 hi M).symm
    · rw [dif_neg hi, if_neg hi]
      rfl

/-! ## Complex values -/

theorem means_structs_part {s : Shape} (hs : s.IsRecord) (hk : s.kind = .complex)
    (ho : ∀ x ∈ s.structs, L.Means σ x) : ∀ x ∈ s.part.structs, L.Means σ x :=
  fun x hx => ho x (structs_part_subset hs hk hx)

theorem means_struct {s : Shape} (hs : s.IsRecord) (ho : ∀ x ∈ s.structs, L.Means σ x) :
    L.Means σ (.struct s) :=
  ho _ (by rw [Shape.structs_of_record hs]; simp)

/-- A complex value of the coordinates of its two parts. -/
theorem value_pair {s : Shape} (hs : s.IsRecord) (hk : s.kind = .complex)
    (ho : ∀ x ∈ s.structs, L.Means σ x) {re im : Term} {xs ys : List ℚ} (hx : xs.length = s.part.size)
    (hy : ys.length = s.part.size) (hre : L.value σ env re = some (s.part.pack xs))
    (him : L.value σ env im = some (s.part.pack ys)) :
    L.value σ env (.apply s.name [re, im]) = some (s.pack (xs ++ ys)) := by
  refine value_record hs (means_struct hs ho) ((values_pair hre him).trans ?_)
  have hreal := portion_real hs hk hx ys
  have himag := portion_imag hs hk hx hy
  rw [Shape.members_complex hs hk] at hreal himag ⊢
  rw [List.map_cons, List.map_cons, List.map_nil, hreal, himag]

theorem value_real {s : Shape} (hs : s.IsRecord) (hk : s.kind = .complex) {base : Term}
    {xs ys : List ℚ} (hx : xs.length = s.part.size)
    (hb : L.value σ env base = some (s.pack (xs ++ ys))) :
    L.value σ env (.member base "real") = some (s.part.pack xs) := by
  have hm : ("real", s.part) ∈ s.members := by simp [Shape.members_complex hs hk]
  rw [value_field hs hb hm, portion_real hs hk hx]

theorem value_imag {s : Shape} (hs : s.IsRecord) (hk : s.kind = .complex) {base : Term}
    {xs ys : List ℚ} (hx : xs.length = s.part.size) (hy : ys.length = s.part.size)
    (hb : L.value σ env base = some (s.pack (xs ++ ys))) :
    L.value σ env (.member base "imag") = some (s.part.pack ys) := by
  have hm : ("imag", s.part) ∈ s.members := by simp [Shape.members_complex hs hk]
  rw [value_field hs hb hm, portion_imag hs hk hx hy]

section Parts

variable {s : Shape} (hs : s.IsRecord) (hk : s.kind = .complex)

theorem part_isField {s : Shape} (hk : s.kind = .complex) : s.part.kind.isField := by
  cases s with
  | scalar k | vector n k | matrix r c k =>
    obtain rfl : k = .complex := hk
    rfl

include hs hk in
theorem length_part (v : s.part.Carrier) : (coords s.part v).length = s.part.size :=
  length_coords (Operation.HasHelper.complexScale ⟨hs, hk⟩).1 (part_isField hk) v

include hs hk in
/-- A complex value of its two parts. -/
theorem value_complex (ho : ∀ x ∈ s.structs, L.Means σ x) {v : s.Carrier} {re im : Term}
    (hre : L.value σ env re = some (store s.part (realPart s v)))
    (him : L.value σ env im = some (store s.part (imagPart s v))) :
    L.value σ env (.apply s.name [re, im]) = some (store s v) := by
  rw [store_of_field (part_isField hk)] at hre him
  rw [store_of_field (by rw [hk]; rfl), coords_complex hk]
  exact value_pair hs hk ho (length_part hs hk _) (length_part hs hk _) hre him

include hs hk in
/-- The parts of a complex value. -/
theorem value_parts {base : Term} {v : s.Carrier} (hb : L.value σ env base = some (store s v)) :
    L.value σ env (.member base "real") = some (store s.part (realPart s v)) ∧
      L.value σ env (.member base "imag") = some (store s.part (imagPart s v)) := by
  rw [store_of_field (by rw [hk]; rfl), coords_complex hk] at hb
  rw [store_of_field (part_isField hk), store_of_field (part_isField hk)]
  exact ⟨value_real hs hk (length_part hs hk _) hb,
    value_imag hs hk (length_part hs hk _) (length_part hs hk _) hb⟩

end Parts

/-- The coordinates of a complex number. -/
theorem value_coordinates {base : Term} {z : Gauss} (hb : L.value σ env base = some (store .complex z)) :
    L.value σ env (.member base "x") = some (store .real z.re) ∧
      L.value σ env (.member base "y") = some (store .real z.im) := by
  rw [value_member hb, value_member hb]
  exact ⟨rfl, rfl⟩

/-- A vector of its elements. -/
theorem value_vectorTerm {n : Nat} {k : Scalar} (hv : (Shape.vector n k).Valid) {args : List Term}
    {v : Fin n → k.Carrier}
    (ha : L.values σ env args = some (List.ofFn fun i => store (.scalar k) (v i)))
    (ho : ∀ x ∈ (Shape.vector n k).structs, L.Means σ x) :
    L.value σ env (Synth.constructTerm (.vector n k) args) = some (store (.vector n k) v) := by
  cases k with
  | bool | int => cases hv.2
  | real => exact value_realVectorTerm hv.1 ha ho
  | complex =>
    have hs : (Shape.vector n .complex).IsRecord := ⟨hv, rfl⟩
    have ho' := means_structs_part hs rfl ho
    rw [List.ofFn_eq_map] at ha
    refine value_complex hs rfl ho ?_ ?_
    · refine value_realVectorTerm hv.1 ?_ ho'
      rw [List.ofFn_eq_map]
      exact values_through ha fun t i ht => (value_coordinates ((value_group t).trans ht)).1
    · refine value_realVectorTerm hv.1 ?_ ho'
      rw [List.ofFn_eq_map]
      exact values_through ha fun t i ht => (value_coordinates ((value_group t).trans ht)).2

/-- A matrix of its rows. -/
theorem value_matrixTerm {r c : Nat} {k : Scalar} (hv : (Shape.matrix r c k).Valid) {args : List Term}
    {M : Matrix (Fin r) (Fin c) k.Carrier}
    (ha : L.values σ env args = some (List.ofFn fun i => store (.vector c k) (M i)))
    (ho : ∀ x ∈ (Shape.matrix r c k).structs, L.Means σ x) :
    L.value σ env (Synth.constructTerm (.matrix r c k) args) = some (store (.matrix r c k) M) := by
  cases k with
  | bool | int => cases hv.2.2
  | real => exact value_realMatrixTerm hv ha ho
  | complex =>
    have hs : (Shape.matrix r c .complex).IsRecord := ⟨hv, rfl⟩
    have hrow : (Shape.vector c .complex).IsRecord := ⟨⟨hv.2.1, rfl⟩, rfl⟩
    have hpart := Shape.realMatrix_valid hv.1 hv.2.1
    have ho' := means_structs_part hs rfl ho
    rw [List.ofFn_eq_map] at ha
    refine value_complex hs rfl ho ?_ ?_
    · refine value_realMatrixTerm hpart ?_ ho'
      rw [List.ofFn_eq_map]
      exact values_through ha fun t i ht => (value_parts hrow rfl ((value_group t).trans ht)).1
    · refine value_realMatrixTerm hpart ?_ ho'
      rw [List.ofFn_eq_map]
      exact values_through ha fun t i ht => (value_parts hrow rfl ((value_group t).trans ht)).2

/-! ## Elements -/

/-- An element of a real vector. -/
theorem value_realElement_vector {n i : Nat} (hn : 1 ≤ n ∧ n ≤ maxDimension) (hi : i < n)
    {base : Term} {v : Fin n → ℚ} (hb : L.value σ env base = some (store (.realVector n) v)) :
    L.value σ env (Synth.realElement (.realVector n) i base) = some (store .real (v ⟨i, hi⟩)) := by
  simp only [Synth.realElement]
  by_cases h1 : n = 1
  · subst h1
    obtain rfl : i = 0 := by omega
    rw [if_pos rfl, value_group, hb]
    rfl
  rw [if_neg h1]
  by_cases hw : n ≤ maxNativeWidth
  · rw [store_nativeVector (by omega) hw] at hb
    rw [if_pos hw, value_index ((value_group base).trans hb), Value.index, List.getElem?_ofFn,
      dif_pos hi]
    rfl
  · -- the element is in a chunk that is wide enough to be indexed
    have h5 : 5 ≤ n := Nat.not_le.1 hw
    have hs := realVector_isRecord hn hw
    obtain ⟨c, o, w, hl, hc, ho, hplace⟩ := locateIn_eq_some
      (show i < (chunks n).sum by rwa [sum_chunks])
    obtain ⟨hw2, hw4⟩ := chunk_bounds (by omega) (List.mem_of_getElem? hc)
    have hpart : ((chunks n).map Shape.realVector)[c]? = some (Shape.realVector w) := by
      rw [List.getElem?_map, hc, Option.map_some]
    have hmem : (s!"a{c}", Shape.realVector w) ∈ (Shape.realVector n).members := by
      rw [Shape.members_realVector h5]
      exact mem_numbered hpart
    have hchunk : L.value σ env (base.part s!"a{c}") =
        some (.vec (((List.ofFn v).drop ((chunks n).take c).sum).take w)) := by
      rw [Term.part, value_field hs ((value_group base).trans hb) hmem, Shape.members_realVector h5,
        portion_numbered hpart, sizes_chunks h5,
        Shape.size_realVector ⟨by omega, Nat.le_trans hw4 (by decide)⟩,
        Shape.pack_of_native (Shape.realVector_isNative.2 hw4)]
      exact congrArg some (if_neg (by omega))
    rw [if_neg hw, hl]
    simp only [Option.getD_some]
    rw [value_index hchunk, Value.index, List.getElem?_take_of_lt ho, List.getElem?_drop, hplace,
      List.getElem?_ofFn, dif_pos hi]
    rfl

/-- A row of a real matrix. -/
theorem value_realElement_matrix {r c i : Nat} (hv : (Shape.matrix r c .real).Valid) (hi : i < r)
    {base : Term} {M : Matrix (Fin r) (Fin c) ℚ}
    (hb : L.value σ env base = some (store (.matrix r c .real) M)) :
    L.value σ env (Synth.realElement (.matrix r c .real) i base) =
      some (store (.realVector c) (M ⟨i, hi⟩)) := by
  simp only [Synth.realElement]
  cases hnat : (Shape.matrix r c .real).isNative with
  | true =>
    obtain ⟨rfl, h2, h4⟩ := Shape.isNative_matrix hnat
    rw [store_nativeMatrix hnat] at hb
    have hrow : L.values σ env ((List.range r).map fun k => .index (.index (.group base) k) i) =
        some ((List.ofFn (M ⟨i, hi⟩)).map .float) := by
      rw [map_range_eq_ofFn, List.map_ofFn]
      refine values_ofFn fun k => ?_
      have hcolumn : L.value σ env (.index (.group base) k) =
          some (.vec (List.ofFn fun i => M i k)) := by
        rw [value_index ((value_group base).trans hb), Value.index, List.getElem?_ofFn, dif_pos k.2]
        rfl
      rw [value_index hcolumn, Value.index, List.getElem?_ofFn, dif_pos hi]
      rfl
    rw [if_pos rfl]
    exact value_nativeVector List.length_ofFn (by omega) h4 hrow
  | false =>
    have hs : (Shape.matrix r c .real).IsRecord := ⟨hv, hnat⟩
    have hmem : (s!"a{i}", Shape.realVector c) ∈ (Shape.matrix r c .real).members := by
      rw [Shape.members_realMatrix hnat]
      exact mem_numbered (by rw [List.getElem?_replicate, if_pos hi])
    rw [if_neg (by decide), Term.part, value_field hs ((value_group base).trans hb) hmem,
      Shape.members_realMatrix hnat]
    exact congrArg (fun xs => some ((Shape.realVector c).pack xs)) (portion_row hv.2.1 hi M)

/-- **An element of a value.** -/
theorem value_elementTerm {x y : Quantity} {i : Nat} (hv : x.shape.Valid) (hxy : x.element i = some y)
    (hoe : ∀ z ∈ Synth.elementItems x.shape, L.Means σ z) {base : Term}
    (hb : L.value σ env base = some (store x.shape x.value)) :
    L.value σ env (Synth.elementTerm x.shape i base) = some (store y.shape y.value) := by
  obtain ⟨s, v⟩ := x
  cases s with
  | scalar k => cases hxy
  | vector n k =>
    simp only [Quantity.element] at hxy
    split at hxy
    · rename_i hi
      obtain rfl := Option.some.inj hxy
      cases k with
      | bool | int => cases hv.2
      | real => exact value_realElement_vector hv.1 hi hb
      | complex =>
        have hs : (Shape.vector n .complex).IsRecord := ⟨hv, rfl⟩
        obtain ⟨hre, him⟩ := value_parts hs rfl ((value_group base).trans hb)
        have hx := value_realElement_vector hv.1 hi hre
        have hy := value_realElement_vector hv.1 hi him
        exact (value_call (values_pair hx hy)).trans (call_builtin (by decide) _)
    · cases hxy
  | matrix r c k =>
    simp only [Quantity.element] at hxy
    split at hxy
    · rename_i hi
      obtain rfl := Option.some.inj hxy
      cases k with
      | bool | int => cases hv.2.2
      | real => exact value_realElement_matrix hv hi hb
      | complex =>
        have hs : (Shape.matrix r c .complex).IsRecord := ⟨hv, rfl⟩
        have hrow : (Shape.vector c .complex).IsRecord := ⟨⟨hv.2.1, rfl⟩, rfl⟩
        have hpart := Shape.realMatrix_valid hv.1 hv.2.1
        obtain ⟨hre, him⟩ := value_parts hs rfl ((value_group base).trans hb)
        exact value_complex hrow rfl hoe (value_realElement_matrix hpart hi hre)
          (value_realElement_matrix hpart hi him)
    · cases hxy

/-! ## Entrywise operations -/

/-- A sum or a difference. -/
theorem value_pointwise {op : Entrywise} {f : (s : Shape) → s.Carrier → s.Carrier → s.Carrier}
    (hf : Pointwise f op.fn) (hop : op ≠ .scale) {s : Shape} (hv : s.Valid) (hk : s.kind.isField)
    (ho : ∀ x ∈ s.helpers op, L.Means σ x) {a b : Term} {v w : s.Carrier}
    (ha : L.value σ env a = some (store s v)) (hb : L.value σ env b = some (store s w)) :
    L.value σ env (s.combined op a b) = some (store s (f s v w)) := by
  rw [store_of_field hk] at ha hb ⊢
  rw [hf.coords hk]
  have hleft : op.Operand s (s.pack (coords s v)) (coords s v) := by
    cases op with
    | add => exact .add (length_coords hv hk v)
    | sub => exact .sub (length_coords hv hk v)
    | scale => exact absurd rfl hop
  exact value_combined op hv hk ho hleft (length_coords hv hk w) ha hb

/-- A multiple of coordinates. -/
theorem value_scaled {s : Shape} (hv : s.Valid) (hk : s.kind.isField)
    (ho : ∀ x ∈ s.helpers .scale, L.Means σ x) {a b : Term} {q : ℚ} {xs : List ℚ}
    (hx : xs.length = s.size) (ha : L.value σ env a = some (store .real q))
    (hb : L.value σ env b = some (s.pack xs)) :
    L.value σ env (s.combined .scale a b) = some (s.pack (xs.map (q * ·))) := by
  rw [value_combined .scale hv hk ho (.scale q) hx ha hb, zipWith_replicate _ q hx]
  rfl

/-- A real multiple. -/
theorem value_multiple {s : Shape} (hv : s.Valid) (hk : s.kind.isField)
    (ho : ∀ x ∈ s.helpers .scale, L.Means σ x) {f : ℚ → s.kind.Carrier}
    (hf : s.kind.ofReal? = some f) {a b : Term} {q : ℚ} {v : s.Carrier}
    (ha : L.value σ env a = some (store .real q)) (hb : L.value σ env b = some (store s v)) :
    L.value σ env (s.combined .scale a b) = some (store s (f q • v)) := by
  rw [store_of_field hk] at hb ⊢
  rw [coords_smul hf]
  exact value_scaled hv hk ho (length_coords hv hk v) ha hb

/-! ## Products and sums -/

theorem sum_zipWith_ofFn {n : Nat} (v w : Fin n → ℚ) :
    (List.zipWith (· * ·) (List.ofFn v) (List.ofFn w)).sum = dotProduct v w := by
  rw [zipWith_ofFn, List.sum_ofFn]
  rfl

theorem flatten_nativeVector {n : Nat} (h4 : n ≤ maxNativeWidth) {xs : List ℚ} (hx : xs.length = n) :
    ((Shape.realVector n).pack xs).flatten = some xs := by
  rw [Shape.pack_of_native (Shape.realVector_isNative.2 h4), Storage.packNative]
  split
  · rename_i h1
    obtain ⟨x, rfl⟩ := List.length_eq_one_iff.1 (hx.trans h1)
    rfl
  · rfl

/-- The dot product of native vectors. -/
theorem call_dot {n : Nat} (h4 : n ≤ maxNativeWidth) {xs ys : List ℚ} (hx : xs.length = n)
    (hy : ys.length = n) :
    L.call σ "dot" [(Shape.realVector n).pack xs, (Shape.realVector n).pack ys] =
      some (.float (List.zipWith (· * ·) xs ys).sum) := by
  have hdot : ∀ a b : Value, callBuiltin "dot" [a, b] = a.flatten.bind fun xs => b.flatten.bind fun ys =>
      if "dot" = "dot" ∧ xs.length = ys.length then some (.float (List.zipWith (· * ·) xs ys).sum)
      else none := fun _ _ => rfl
  rw [call_builtin (by decide), hdot, flatten_nativeVector h4 hx, flatten_nativeVector h4 hy]
  exact if_pos ⟨rfl, hx.trans hy.symm⟩

/-- A dot product. -/
theorem value_dotTerm {n : Nat} (ho : ∀ x ∈ Synth.dotItems n, L.Means σ x) {a b : Term}
    {v w : Fin n → ℚ} (ha : L.value σ env a = some (store (.realVector n) v))
    (hb : L.value σ env b = some (store (.realVector n) w)) :
    L.value σ env (Synth.dotTerm n a b) = some (store .real (dotProduct v w)) := by
  unfold Synth.dotTerm
  rw [value_call (values_pair ha hb)]
  by_cases hw : n ≤ maxNativeWidth
  · rw [if_pos hw, ← sum_zipWith_ofFn]
    exact call_dot hw List.length_ofFn List.length_ofFn
  · rw [Synth.dotItems, if_neg hw] at ho
    rw [if_neg hw]
    exact ho (.helper .dot (.realVector n)) (by simp) n rfl v w

/-- A matrix that is given by its columns, times a vector. -/
theorem transform_columns {r c : Nat} (hc : 1 ≤ c) (M : Matrix (Fin r) (Fin c) ℚ) (v : Fin c → ℚ) :
    Glsl.transform (List.ofFn fun j => List.ofFn fun i => M i j) (List.ofFn v) =
      some (.vec (List.ofFn (M.mulVec v))) := by
  obtain ⟨c, rfl⟩ : ∃ c', c = c' + 1 := ⟨c - 1, by omega⟩
  have hcolumns : (List.ofFn fun j => List.ofFn fun i => M i j) =
      (List.ofFn fun i => M i 0) :: List.ofFn fun j : Fin c => List.ofFn fun i => M i j.succ :=
    List.ofFn_succ
  have hall : ((List.ofFn fun j => List.ofFn fun i => M i j).all
      fun column => column.length = (List.ofFn fun i => M i 0).length) = true := by
    rw [List.all_eq_true]
    intro column hcolumn
    obtain ⟨j, rfl⟩ := List.mem_ofFn.1 hcolumn
    simp
  rw [hcolumns] at hall
  rw [hcolumns, Glsl.transform, if_pos ⟨hall, by simp⟩, ← hcolumns, List.length_ofFn, map_range_eq_ofFn]
  refine congrArg (fun xs => some (Value.vec (List.ofFn xs))) (funext fun i => ?_)
  have hentry : ∀ j, (List.ofFn fun i => M i j).getD i 0 = M i j := fun j => by
    simp [List.getD_eq_getElem?_getD]
  rw [zipWith_ofFn, List.sum_ofFn]
  simp only [hentry]
  rfl

/-- A real matrix product. -/
theorem value_matVecTerm {r c : Nat} (ho : ∀ x ∈ Synth.matVecItems r c, L.Means σ x) {m v : Term}
    {M : Matrix (Fin r) (Fin c) ℚ} {w : Fin c → ℚ}
    (hm : L.value σ env m = some (store (.matrix r c .real) M))
    (hw : L.value σ env v = some (store (.realVector c) w)) :
    L.value σ env (Synth.matVecTerm r c m v) = some (store (.realVector r) (M.mulVec w)) := by
  unfold Synth.matVecTerm
  unfold Synth.matVecItems at ho
  dsimp only
  cases hn : (Shape.matrix r c .real).isNative with
  | true =>
    obtain ⟨rfl, h2, h4⟩ := Shape.isNative_matrix hn
    rw [if_pos rfl, value_grouped hm hw, store_nativeMatrix hn, store_nativeVector h2 h4,
      store_nativeVector h2 h4]
    exact transform_columns (by omega) M w
  | false =>
    rw [hn, if_neg (by decide)] at ho
    rw [if_neg (by decide), value_call (values_pair hm hw)]
    exact ho (.helper .matVec (.matrix r c .real)) (by simp) r c rfl M w

theorem value_one : Decimal.one.value = 1 := by
  simp [Decimal.value, Decimal.magnitude, Decimal.one]

/-- A sum of elements. -/
theorem value_sumTerm {x y : Quantity} (hv : x.shape.Valid) (hxy : x.sum = some y)
    (ho : ∀ z ∈ sumItems x.shape, L.Means σ z) {a : Term}
    (ha : L.value σ env a = some (store x.shape x.value)) :
    L.value σ env (sumTerm x.shape a) = some (store y.shape y.value) := by
  obtain ⟨s, v⟩ := x
  cases s with
  | scalar k => cases hxy
  | vector n k =>
    cases k with
    | bool | int => cases hv.2
    | real =>
      obtain rfl := Option.some.inj hxy
      have hone : L.value σ env ((Shape.realVector n).filled (.literal .one)) =
          some (store (.realVector n) fun _ => 1) := by
        rw [value_filled (value_literal _) hv rfl fun x hx => ho x (List.mem_append_left _ hx),
          Shape.size_realVector hv.1, value_one, store_of_field rfl, coords, List.ofFn_const]
      rw [sumTerm, value_dotTerm (fun x hx => ho x (List.mem_append_right _ hx)) ha hone]
      refine congrArg (fun q => some (store .real q)) ?_
      exact dotProduct_one v
    | complex =>
      have hm := ho (.helper .sum (.vector n .complex)) (List.mem_append_right _ List.mem_cons_self)
      exact (value_call (values_singleton ha)).trans (hm _ y rfl hxy)
  | matrix r c k =>
    have hm := ho (.helper .sum (.matrix r c k)) (List.mem_append_right _ List.mem_cons_self)
    exact (value_call (values_singleton ha)).trans (hm _ y rfl hxy)

end Glsl.Library
end ShaderAlgebra
