import ShaderAlgebra.Proofs.EvaluatedElements
import ShaderAlgebra.Proofs.TypedHeader

/-!
# Generated headers compute their operations

A library that means all that an item needs means the item too, once its declaration
is added (`means_declare`).  Since the items of a catalog stand after their needs, a library with
all declarations of a catalog means all of its items (`means_of_closed`).
-/

namespace ShaderAlgebra

open Glsl (Term Value Library Sampler Env Declaration Statement Binder)
open Glsl.Library

/-- The real part of a sum of complex numbers. -/
theorem re_sum {n : Nat} (f : Fin n → Gauss) : (∑ i, f i).re = ∑ i, (f i).re :=
  map_sum (⟨⟨QuadraticAlgebra.re, rfl⟩, fun _ _ => rfl⟩ : Gauss →+ ℚ) f _

/-- The imaginary part of a sum of complex numbers. -/
theorem im_sum {n : Nat} (f : Fin n → Gauss) : (∑ i, f i).im = ∑ i, (f i).im :=
  map_sum (⟨⟨QuadraticAlgebra.im, rfl⟩, fun _ _ => rfl⟩ : Gauss →+ ℚ) f _

/-- The bilinear dot product, by its parts. -/
theorem gauss_dotProduct_eq {n : Nat} (v w : Fin n → Gauss) :
    dotProduct v w =
      (⟨dotProduct (fun i => (v i).re) (fun i => (w i).re) -
          dotProduct (fun i => (v i).im) (fun i => (w i).im),
        dotProduct (fun i => (v i).re) (fun i => (w i).im) +
          dotProduct (fun i => (v i).im) (fun i => (w i).re)⟩ : Gauss) := by
  ext
  · simp only [dotProduct, re_sum, gauss_mul_eq, Finset.sum_sub_distrib]
  · simp only [dotProduct, im_sum, gauss_mul_eq, Finset.sum_add_distrib]

theorem coords_zero {s : Shape} (hv : s.Valid) (hk : s.kind.isField) :
    coords s 0 = List.replicate s.size 0 := by
  have hsub : coords s (0 - 0) = List.zipWith (· - ·) (coords s 0) (coords s 0) :=
    pointwise_sub.coords hk 0 0
  rw [sub_zero, List.zipWith_self] at hsub
  refine List.eq_replicate_iff.2 ⟨length_coords hv hk 0, fun x hx => ?_⟩
  rw [hsub] at hx
  obtain ⟨y, -, rfl⟩ := List.mem_map.1 hx
  exact sub_self y

/-- The elements that a sum adds up. -/
theorem Quantity.sum_eq {x y : Quantity} (h : x.sum = some y) :
    ∃ (n : Nat) (f : Fin n → y.shape.Carrier), x.shape.length? = some n ∧
      x.shape.element? = some y.shape ∧ (∀ i : Fin n, x.element i = some ⟨y.shape, f i⟩) ∧
        y.value = ∑ i, f i := by
  obtain ⟨s, v⟩ := x
  cases s with
  | scalar k => cases h
  | vector n k =>
    obtain rfl := Option.some.inj h
    exact ⟨n, v, rfl, rfl, fun i => dif_pos i.2, rfl⟩
  | matrix r c k =>
    obtain rfl := Option.some.inj h
    exact ⟨r, fun i => v i, rfl, rfl, fun i => dif_pos i.2, rfl⟩

theorem value_zero : Decimal.zero.value = 0 := by
  simp [Decimal.value, Decimal.magnitude, Decimal.zero]

namespace Glsl.Library

variable {L : Library} {σ : Sampler} {env : Env}

/-- A call of a function of one expression. -/
theorem call_expression {result name : String} {parameters : List Binder} {t : Term} {vs : List Value}
    (hn : name ∉ builtinNames) (hl : parameters.length = vs.length) :
    (L.declare (.function result name parameters (.expression t))).call σ name vs =
      L.value σ ((parameters.map (·.name)).zip vs) t := by
  rw [declare, call_cons_self hn, Definition.result, if_pos (by rw [List.length_map, hl])]
  exact run_yield t []

/-- A call of a function with a block of statements. -/
theorem call_block {result name : String} {parameters : List Binder} {lines : List (List Statement)}
    {vs : List Value} (hn : name ∉ builtinNames) (hl : parameters.length = vs.length) :
    (L.declare (.function result name parameters (.block lines))).call σ name vs =
      L.run σ ((parameters.map (·.name)).zip vs) lines.flatten := by
  rw [declare, call_cons_self hn, Definition.result, if_pos (by rw [List.length_map, hl])]
  rfl

theorem value_a (v w : Value) : L.value σ [("a", v), ("b", w)] (.name "a") = some v := by
  rw [value_name]
  rfl

theorem value_b (v w : Value) : L.value σ [("a", v), ("b", w)] (.name "b") = some w := by
  rw [value_name]
  rfl

theorem means_declaredStruct {s : Shape} (hs : s.IsRecord) :
    (L.declare (Item.struct s).body).Means σ (.struct s) := by
  intro vs hl
  rw [Item.body, declare, call_cons_self hs.name_not_builtin, Definition.result, if_pos (by simpa using hl.symm),
    List.map_map]
  rfl

/-! ## Entrywise operations -/

theorem means_entrywise (op : Entrywise) {s : Shape} (hs : s.IsRecord)
    (ho : ∀ y ∈ (op.item s).needs, L.Means σ y) :
    (L.declare (op.item s).body).Means σ (op.item s) := by
  rw [op.item_needs] at ho
  rw [op.item_body]
  have hstructs : ∀ x ∈ s.structs, L.Means σ x := fun x hx => ho x (List.mem_append_left _ hx)
  refine means_item.2 fun v xs ys hx hy => ?_
  refine (call_expression (Operation.helperName_not_builtin _ _) rfl).trans ?_
  refine value_record hs (means_struct hs hstructs) (values_map fun m hm => ?_)
  -- the operation acts on the portion of every member
  have hsum := Shape.size_of_record hs
  have hnd := Shape.members_nodup hs
  have hmk : m.2.kind.isField := by
    rw [Shape.kind_of_mem_members hs hm]
    rfl
  have hmo : ∀ x ∈ m.2.helpers op, L.Means σ x := fun x hx =>
    ho x (List.mem_append_right _ (List.mem_flatMap.2 ⟨m, hm, hx⟩))
  have hleft : ∃ w, L.value σ [("a", v), ("b", s.pack ys)] (op.leftPart m.1) = some w ∧
      op.Operand m.2 w (portion s.members m.1 xs) := by
    cases hx with
    | add hx => exact ⟨_, value_field hs (value_a _ _) hm, .add (portion_length hm hnd (hx.trans hsum))⟩
    | sub hx => exact ⟨_, value_field hs (value_a _ _) hm, .sub (portion_length hm hnd (hx.trans hsum))⟩
    | scale q =>
      rw [hsum, portion_replicate hm hnd]
      exact ⟨_, value_a _ _, .scale q⟩
  obtain ⟨w, hw, hop⟩ := hleft
  rw [portion_zipWith]
  exact value_combined op (Shape.valid_of_mem_members hs hm) hmk hmo hop
    (portion_length hm hnd (hy.trans hsum)) hw (value_field hs (value_b _ _) hm)

/-! ## Real products -/

/-- A sum without parentheses. -/
theorem value_total {ts : List Term} {qs : List ℚ}
    (h : L.values σ env ts = some (qs.map .float)) :
    L.value σ env (Term.total ts) = some (.float qs.sum) := by
  have hfold : ∀ (ts : List Term) (qs : List ℚ) (t : Term) (q : ℚ),
      L.values σ env ts = some (qs.map .float) → L.value σ env t = some (.float q) →
      L.value σ env (ts.foldl (.binary .tight .plus) t) = some (.float (q + qs.sum)) := by
    intro ts
    induction ts with
    | nil =>
      intro qs t q hts ht
      obtain rfl : qs = [] := by
        rw [values_nil] at hts
        exact List.map_eq_nil_iff.1 (Option.some.inj hts).symm
      rw [List.foldl_nil, ht, List.sum_nil, add_zero]
    | cons u ts ih =>
      intro qs t q hts ht
      obtain ⟨v, hu, vs, hvs, he⟩ := values_cons_iff.1 hts
      obtain ⟨q', qs, rfl, rfl, rfl⟩ := List.map_eq_cons_iff.1 he
      have hsum : L.value σ env (.binary .tight .plus t u) = some (.float (q + q')) :=
        value_binary ht hu
      rw [List.foldl_cons, ih qs _ _ hvs hsum, List.sum_cons, add_assoc]
  cases ts with
  | nil =>
    obtain rfl : qs = [] := by
      rw [values_nil] at h
      exact List.map_eq_nil_iff.1 (Option.some.inj h).symm
    rw [Term.total, value_literal, value_zero, List.sum_nil]
  | cons t ts =>
    obtain ⟨v, ht, vs, hvs, he⟩ := values_cons_iff.1 h
    obtain ⟨q, qs, rfl, rfl, rfl⟩ := List.map_eq_cons_iff.1 he
    exact hfold ts qs t q hvs ht

theorem means_dot {n : Nat} (h : 5 ≤ n ∧ n ≤ maxDimension) :
    (L.declare (Item.helper .dot (.realVector n)).body).Means σ (.helper .dot (.realVector n)) := by
  have hs : (Shape.realVector n).IsRecord :=
    realVector_isRecord ⟨by omega, h.2⟩ (Nat.not_le.2 h.1)
  rintro m ⟨⟩ v w
  refine (call_expression (Operation.helperName_not_builtin _ _) rfl).trans ?_
  have hsum := Shape.size_of_record hs
  have hnd := Shape.members_nodup hs
  have hlength : ∀ u : Fin n → ℚ, (List.ofFn u).length = ((Shape.realVector n).members.map (·.2.size)).sum :=
    fun u => by rw [List.length_ofFn, ← hsum, Shape.size_realVector ⟨by omega, h.2⟩]
  -- the dot product of each pair of chunks
  have hchunks : L.values σ
      [("a", store (.realVector n) v), ("b", store (.realVector n) w)]
      ((Shape.realVector n).members.map fun m =>
        .apply "dot" [.member (.name "a") m.1, .member (.name "b") m.1]) =
      some (((Shape.realVector n).members.map fun m => (portion (Shape.realVector n).members m.1
        (List.zipWith (· * ·) (List.ofFn v) (List.ofFn w))).sum).map .float) := by
    rw [List.map_map]
    refine values_map fun m hm => ?_
    obtain ⟨w', hw', he⟩ : ∃ w' ∈ chunks n, Shape.realVector w' = m.2 := by
      rw [Shape.members_realVector h.1] at hm
      exact List.mem_map.1 (mem_of_mem_numbered hm)
    have hw4 := (chunk_bounds (by omega) hw').2
    have hsize : m.2.size = w' := by
      rw [← he, Shape.size_of_native (Shape.realVector_isNative.2 hw4)]
      rfl
    have ha := value_field (L := L) (σ := σ) hs
      (value_a (store (.realVector n) v) (store (.realVector n) w)) hm
    have hb := value_field (L := L) (σ := σ) hs
      (value_b (store (.realVector n) v) (store (.realVector n) w)) hm
    rw [value_call (values_pair ha hb), ← he, Function.comp_apply, portion_zipWith]
    exact call_dot hw4 ((portion_length hm hnd (hlength v)).trans hsize)
      ((portion_length hm hnd (hlength w)).trans hsize)
  refine (value_total hchunks).trans ?_
  rw [sum_portions hnd (by rw [List.length_zipWith, hlength v, hlength w, Nat.min_self]),
    sum_zipWith_ofFn]
  rfl

theorem means_matVec {r c : Nat} (hr : 1 ≤ r ∧ r ≤ maxDimension) (hc : 1 ≤ c ∧ c ≤ maxDimension)
    (hn : (Shape.matrix r c .real).isNative = false)
    (ho : ∀ y ∈ (Item.helper .matVec (.matrix r c .real)).needs, L.Means σ y) :
    (L.declare (Item.helper .matVec (.matrix r c .real)).body).Means σ
      (.helper .matVec (.matrix r c .real)) := by
  have hs : (Shape.matrix r c .real).IsRecord := ⟨Shape.realMatrix_valid hr hc, hn⟩
  simp only [Item.needs, Operation.dimensions, List.mem_append] at ho
  rw [show (Item.helper .matVec (.matrix r c .real)).body = Item.matVecBody r c from rfl]
  rintro r' c' ⟨⟩ M v
  refine (call_expression (Operation.helperName_not_builtin _ _) rfl).trans ?_
  refine value_realVectorTerm hr ?_ fun x hx => ho x (.inl (.inr hx))
  rw [map_range_eq_ofFn]
  refine values_ofFn fun k => ?_
  have hmem : (s!"a{k.val}", Shape.realVector c) ∈ (Shape.matrix r c .real).members := by
    rw [Shape.members_realMatrix hn]
    exact mem_numbered (by rw [List.getElem?_replicate, if_pos k.2])
  have hrow : L.value σ [("a", store (.matrix r c .real) M), ("b", store (.realVector c) v)]
      (.member (.name "a") s!"a{k.val}") = some (store (.realVector c) (M k)) := by
    refine (value_field hs (value_a _ _) hmem).trans ?_
    rw [Shape.members_realMatrix hn]
    exact congrArg (fun xs => some ((Shape.realVector c).pack xs)) (portion_row hc k.2 M)
  exact value_dotTerm (fun x hx => ho x (.inr hx)) hrow (value_b _ _)

/-! ## Sums -/

/-- **Elements are added up one by one.**  The variable `res` holds the sum so far. -/
theorem run_accumulate {x : Quantity} {e : Shape} {n : Nat} {f : Fin n → e.Carrier}
    (hv : x.shape.Valid) (hev : e.Valid) (hek : e.kind.isField)
    (hf : ∀ i : Fin n, x.element i = some ⟨e, f i⟩) (hadd : ∀ y ∈ e.helpers .add, L.Means σ y)
    (hoe : ∀ y ∈ Synth.elementItems x.shape, L.Means σ y) (ks : List (Fin n)) :
    ∀ {env : Env} {acc : e.Carrier}, env.lookup "res" = some (store e acc) →
      env.lookup "a" = some (store x.shape x.value) →
      L.run σ env ((ks.map fun k => .assign "res" (e.combined .add (.name "res")
        (Synth.elementTerm x.shape k (.name "a")))) ++ [.yield (.name "res")]) =
        some (store e (acc + (ks.map f).sum)) := by
  induction ks with
  | nil =>
    intro env acc hres _
    rw [List.map_nil, List.nil_append, run_yield, value_name, hres, List.map_nil, List.sum_nil,
      add_zero]
  | cons k ks ih =>
    intro env acc hres ha
    have helement := value_elementTerm hv (hf k) hoe ((value_name "a").trans ha)
    have htotal : L.value σ env (e.combined .add (.name "res")
        (Synth.elementTerm x.shape k (.name "a"))) = some (store e (acc + f k)) :=
      value_pointwise pointwise_add (by decide) hev hek hadd ((value_name "res").trans hres) helement
    rw [List.map_cons, List.cons_append, run_assign htotal, List.map_cons, List.sum_cons, ← add_assoc]
    exact ih rfl ha

theorem means_sum {s : Shape} (h : Operation.sum.HasHelper s)
    (ho : ∀ y ∈ (Item.helper .sum s).needs, L.Means σ y) :
    (L.declare (Item.helper .sum s).body).Means σ (.helper .sum s) := by
  rintro x y rfl hxy
  obtain ⟨n, f, hn, he, hf, hy⟩ := Quantity.sum_eq hxy
  obtain ⟨e, n', he', hn', hev, -⟩ := Operation.HasHelper.sum h
  obtain rfl : e = y.shape := Option.some.inj (he'.symm.trans he)
  obtain rfl : n' = n := Option.some.inj (hn'.symm.trans hn)
  have hek : y.shape.kind.isField := by
    rw [Shape.kind_of_element? he]
    exact Shape.kind_isField h.1.1 he
  simp only [Item.needs, he, Option.getD_some, List.mem_append] at ho
  have hoe : ∀ z ∈ y.shape.structs, L.Means σ z := fun z hz => ho z (.inl (.inr hz))
  have hbody : (Item.helper .sum x.shape).body = Item.sumBody x.shape y.shape n' := by
    rw [Item.body, he, hn]
    rfl
  have hzero : L.value σ [("a", store x.shape x.value)] (y.shape.filled (.literal .zero)) =
      some (store y.shape 0) := by
    rw [value_filled (value_literal _) hev hek hoe, value_zero, store_of_field hek,
      coords_zero hev hek]
  have hitems : ∀ z ∈ Synth.elementItems x.shape, L.Means σ z := by
    intro z hz
    by_cases hc : x.shape.kind = .complex
    · exact hoe z (by rwa [elementItems_of_complex hc he] at hz)
    · rw [elementItems_of_real hc] at hz
      cases hz
  have hrun := run_accumulate h.1.1 hev hek hf (fun z hz => ho z (.inr hz)) hitems (List.finRange n')
    (show List.lookup "res" [("res", store y.shape 0), ("a", store x.shape x.value)] = _ from rfl) rfl
  have hsum : ((List.finRange n').map f).sum = y.value := by
    rw [← List.ofFn_eq_map, List.sum_ofFn, hy]
  rw [zero_add, hsum] at hrun
  rw [hbody, Item.sumBody, call_block (Operation.helperName_not_builtin _ _) rfl, Item.flatten_sumLines,
    map_range_eq_ofFn, List.ofFn_eq_map, List.map_map]
  exact (run_define hzero _).trans hrun

/-! ## Complex operations -/

/-- A complex number of a difference and a sum. -/
theorem value_complexPair {a b c d : Term} {p q r t : ℚ} (ha : L.value σ env a = some (store .real p))
    (hb : L.value σ env b = some (store .real q)) (hc : L.value σ env c = some (store .real r))
    (hd : L.value σ env d = some (store .real t)) :
    L.value σ env (.call .loose "vec2" [.binary .tight .minus a b, .binary .tight .plus c d]) =
      some (store .complex ⟨p - q, r + t⟩) := by
  have hminus : L.value σ env (.binary .tight .minus a b) = some (.float (p - q)) := value_binary ha hb
  have hplus : L.value σ env (.binary .tight .plus c d) = some (.float (r + t)) := value_binary hc hd
  rw [value_call (values_pair hminus hplus), call_builtin (by decide)]
  rfl

theorem means_complexMul :
    (L.declare (Item.helper .complexMul .complex).body).Means σ (.helper .complexMul .complex) := by
  intro z w
  refine (call_expression (Operation.helperName_not_builtin _ _) rfl).trans ?_
  rw [gauss_mul_eq]
  obtain ⟨hzx, hzy⟩ := value_coordinates (L := L) (σ := σ) (value_a (store .complex z) (store .complex w))
  obtain ⟨hwx, hwy⟩ := value_coordinates (L := L) (σ := σ) (value_b (store .complex z) (store .complex w))
  exact value_complexPair (value_binary hzx hwx) (value_binary hzy hwy) (value_binary hzx hwy)
    (value_binary hzy hwx)

theorem means_complexScale {s : Shape} (h : Operation.complexScale.HasHelper s)
    (ho : ∀ y ∈ (Item.helper .complexScale s).needs, L.Means σ y) :
    (L.declare (Item.helper .complexScale s).body).Means σ (.helper .complexScale s) := by
  obtain ⟨hs, hk⟩ := id h
  have hpv := (Operation.HasHelper.complexScale h).1
  have hpk := part_isField hk
  simp only [Item.needs, List.mem_append] at ho
  intro z xs ys hx hy
  refine (call_expression (Operation.helperName_not_builtin _ _) rfl).trans ?_
  obtain ⟨hzx, hzy⟩ := value_coordinates (L := L) (σ := σ) (value_a (store .complex z) (s.pack (xs ++ ys)))
  have hre := value_real (L := L) (σ := σ) hs hk hx (value_b (store .complex z) (s.pack (xs ++ ys)))
  have him := value_imag (L := L) (σ := σ) hs hk hx hy (value_b (store .complex z) (s.pack (xs ++ ys)))
  have hscale : ∀ y ∈ s.part.helpers .scale, L.Means σ y := fun y hy => ho y (.inl (.inl (.inr hy)))
  have hlength : ∀ {us : List ℚ} (q : ℚ), us.length = s.part.size → (us.map (q * ·)).length = s.part.size :=
    fun q hu => (List.length_map _).trans hu
  have hzip : ∀ (g : ℚ → ℚ → ℚ) {us vs : List ℚ}, us.length = s.part.size → vs.length = s.part.size →
      (List.zipWith g us vs).length = s.part.size := fun g us vs hu hv => by
    rw [List.length_zipWith, hu, hv, Nat.min_self]
  refine value_pair hs hk (fun x hx => ho x (.inl (.inl (.inl hx))))
    (hzip _ (hlength _ hx) (hlength _ hy)) (hzip _ (hlength _ hy) (hlength _ hx)) ?_ ?_
  · exact value_combined .sub hpv hpk (fun y hy => ho y (.inl (.inr hy))) (.sub (hlength _ hx))
      (hlength _ hy) (value_scaled hpv hpk hscale hx hzx hre) (value_scaled hpv hpk hscale hy hzy him)
  · exact value_combined .add hpv hpk (fun y hy => ho y (.inr hy)) (.add (hlength _ hy))
      (hlength _ hx) (value_scaled hpv hpk hscale hy hzx him) (value_scaled hpv hpk hscale hx hzy hre)

theorem means_complexMatVec {r c : Nat} (hr : 1 ≤ r ∧ r ≤ maxDimension) (hc : 1 ≤ c ∧ c ≤ maxDimension)
    (ho : ∀ y ∈ (Item.helper .complexMatVec (.matrix r c .complex)).needs, L.Means σ y) :
    (L.declare (Item.helper .complexMatVec (.matrix r c .complex)).body).Means σ
      (.helper .complexMatVec (.matrix r c .complex)) := by
  have hm : (Shape.matrix r c .complex).IsRecord := ⟨⟨hr, hc, rfl⟩, rfl⟩
  have hv : (Shape.vector c .complex).IsRecord := ⟨Shape.complexVector_valid hc, rfl⟩
  have hout : (Shape.vector r .complex).IsRecord := ⟨Shape.complexVector_valid hr, rfl⟩
  simp only [Item.needs, Operation.dimensions, List.mem_append] at ho
  rw [show (Item.helper .complexMatVec (.matrix r c .complex)).body = Item.complexMatVecBody r c from rfl]
  rintro r' c' ⟨⟩ M v
  refine (call_expression (Operation.helperName_not_builtin _ _) rfl).trans ?_
  have hproduct : ∀ y ∈ Synth.matVecItems r c, L.Means σ y := fun y hy => ho y (.inl (.inl (.inr hy)))
  obtain ⟨hMr, hMi⟩ := value_parts (L := L) (σ := σ) hm rfl
    (value_a (store (.matrix r c .complex) M) (store (.vector c .complex) v))
  obtain ⟨hvr, hvi⟩ := value_parts (L := L) (σ := σ) hv rfl
    (value_b (store (.matrix r c .complex) M) (store (.vector c .complex) v))
  have hre := value_pointwise pointwise_sub (by decide) (Shape.realVector_valid hr) rfl
    (fun y hy => ho y (.inl (.inr hy))) (value_matVecTerm hproduct hMr hvr)
    (value_matVecTerm hproduct hMi hvi)
  have him := value_pointwise pointwise_add (by decide) (Shape.realVector_valid hr) rfl
    (fun y hy => ho y (.inr hy)) (value_matVecTerm hproduct hMr hvi)
    (value_matVecTerm hproduct hMi hvr)
  have hentry : ∀ i, M.mulVec v i = _ := fun i => gauss_dotProduct_eq (fun j => M i j) v
  refine value_complex hout rfl (fun x hx => ho x (.inl (.inl (.inl (.inr hx))))) (hre.trans ?_)
    (him.trans ?_)
  · refine congrArg (fun u => some (store (.realVector r) u)) (funext fun i => ?_)
    exact (congrArg QuadraticAlgebra.re (hentry i)).symm
  · refine congrArg (fun u => some (store (.realVector r) u)) (funext fun i => ?_)
    exact (congrArg QuadraticAlgebra.im (hentry i)).symm

theorem means_complexDot {n : Nat} (h : 1 ≤ n ∧ n ≤ maxDimension)
    (ho : ∀ y ∈ (Item.helper .complexDot (.vector n .complex)).needs, L.Means σ y) :
    (L.declare (Item.helper .complexDot (.vector n .complex)).body).Means σ
      (.helper .complexDot (.vector n .complex)) := by
  have hs : (Shape.vector n .complex).IsRecord := ⟨Shape.complexVector_valid h, rfl⟩
  simp only [Item.needs, Operation.dimensions, List.mem_append] at ho
  rw [show (Item.helper .complexDot (.vector n .complex)).body = Item.complexDotBody n from rfl]
  rintro m ⟨⟩ v w
  refine (call_expression (Operation.helperName_not_builtin _ _) rfl).trans ?_
  have hproduct : ∀ y ∈ Synth.dotItems n, L.Means σ y := fun y hy => ho y (.inr hy)
  obtain ⟨hvr, hvi⟩ := value_parts (L := L) (σ := σ) hs rfl
    (value_a (store (.vector n .complex) v) (store (.vector n .complex) w))
  obtain ⟨hwr, hwi⟩ := value_parts (L := L) (σ := σ) hs rfl
    (value_b (store (.vector n .complex) v) (store (.vector n .complex) w))
  refine (value_complexPair (value_dotTerm hproduct hvr hwr) (value_dotTerm hproduct hvi hwi)
    (value_dotTerm hproduct hvr hwi) (value_dotTerm hproduct hvi hwr)).trans ?_
  exact congrArg (fun z => some (store .complex z)) (gauss_dotProduct_eq v w).symm

/-- **A declared item means what it should** if its needs do. -/
theorem means_declare {x : Item} (hx : x.Admissible) (ho : ∀ y ∈ x.needs, L.Means σ y) :
    (L.declare x.body).Means σ x := by
  cases x with
  | struct s => exact means_declaredStruct hx
  | helper op s =>
    cases op with
    | add => exact means_entrywise .add hx ho
    | sub => exact means_entrywise .sub hx ho
    | scale => exact means_entrywise .scale hx ho
    | matVec =>
      obtain ⟨r, c, rfl, hn, hr, hc⟩ := Operation.HasHelper.matVec hx
      exact means_matVec hr hc hn ho
    | dot =>
      obtain ⟨n, rfl, hn⟩ := Operation.HasHelper.dot hx
      exact means_dot hn
    | sum => exact means_sum hx ho
    | complexMul =>
      obtain rfl : s = .complex := hx
      exact means_complexMul
    | complexScale => exact means_complexScale hx ho
    | complexMatVec =>
      obtain ⟨r, c, rfl, hr, hc⟩ := Operation.HasHelper.complexMatVec hx
      exact means_complexMatVec hr hc ho
    | complexDot =>
      obtain ⟨n, rfl, hn⟩ := Operation.HasHelper.complexDot hx
      exact means_complexDot hn ho

/-! ## Declaring items in order -/

/-- A declaration leaves the calls of other names alone. -/
theorem call_declare_ne {x : Item} (hx : x.Admissible) {f : String} (hne : f ≠ x.name) :
    (L.declare x.body).call σ f = L.call σ f := by
  funext vs
  cases x with
  | struct s => exact call_cons_ne hne _ vs
  | helper op s =>
    obtain ⟨result, parameters, body, hb⟩ := Scope.helper_body hx
    rw [hb]
    exact call_cons_ne hne _ vs

/-- What a library means by an item is what calls of its name return. -/
theorem Means.congr {L' : Library} {x : Item} (h : L.Means σ x) (hcall : L'.call σ x.name = L.call σ x.name) :
    L'.Means σ x := by
  cases x with
  | struct s => exact fun vs hl => (congrFun hcall vs).trans (h vs hl)
  | helper op s =>
    cases op with
    | add | sub | scale => exact fun v xs ys hx hy => (congrFun hcall _).trans (h v xs ys hx hy)
    | matVec | complexMatVec => exact fun r c hs M v => (congrFun hcall _).trans (h r c hs M v)
    | dot | complexDot => exact fun n hs v w => (congrFun hcall _).trans (h n hs v w)
    | sum => exact fun x y hx hy => (congrFun hcall _).trans (h x y hx hy)
    | complexMul => exact fun z w => (congrFun hcall _).trans (h z w)
    | complexScale => exact fun z xs ys hx hy => (congrFun hcall _).trans (h z xs ys hx hy)

/-- **Items in an order in which each stands after its needs are all meant,** and calls of other
names are not touched. -/
theorem means_of_closed {items : List Item} (h : Closed items) :
    (∀ x ∈ items, ((items.map Item.body).foldl declare []).Means σ x) ∧
      ∀ f, (∀ x ∈ items, f ≠ x.name) →
        ((items.map Item.body).foldl declare []).call σ f = Library.call [] σ f := by
  induction h with
  | nil => exact ⟨by simp, fun _ _ => rfl⟩
  | @snoc items x hitems hx hmem hneeds ih =>
    obtain ⟨hmeans, hother⟩ := ih
    rw [List.map_append, List.foldl_append, List.map_cons, List.map_nil, List.foldl_cons,
      List.foldl_nil]
    refine ⟨fun y hy => ?_, fun f hf => ?_⟩
    · rcases List.mem_append.1 hy with hy | hy
      · have hne : y.name ≠ x.name := fun he =>
          hmem (Item.name_injective (hitems.admissible y hy) hx he ▸ hy)
        exact (hmeans y hy).congr (call_declare_ne hx hne)
      · rw [List.mem_singleton.1 hy]
        exact means_declare hx fun z hz => hmeans z (hneeds hz)
    · rw [call_declare_ne hx (hf x (by simp))]
      exact hother f fun y hy => hf y (List.mem_append_left _ hy)

end Glsl.Library
end ShaderAlgebra
