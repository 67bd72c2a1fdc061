import ShaderAlgebra.Proofs.Typing
import ShaderAlgebra.Proofs.Emission

/-!
# Generated terms are well typed

Each term that synthesis makes has the type of its shape, in every scope that
offers the items which synthesis enters for it.
-/

namespace ShaderAlgebra

open Glsl (Term Binder Declaration Scope width? order? typeOfWidth)
open Glsl.Scope

/-! ## Builtin types -/

theorem width?_realVector {n : Nat} (h : 1 ≤ n) (hw : n ≤ maxNativeWidth) :
    width? (Shape.realVector n).name = some n := by
  obtain rfl | rfl | rfl | rfl : n = 1 ∨ n = 2 ∨ n = 3 ∨ n = 4 := by
    simp only [maxNativeWidth] at hw; omega
  all_goals rfl

theorem typeOfWidth_eq {n : Nat} (h : 1 ≤ n) (hw : n ≤ maxNativeWidth) :
    typeOfWidth n = some (Shape.realVector n).name := by
  obtain rfl | rfl | rfl | rfl : n = 1 ∨ n = 2 ∨ n = 3 ∨ n = 4 := by
    simp only [maxNativeWidth] at hw; omega
  all_goals rfl

theorem order?_nativeMatrix {n : Nat} (h : (Shape.matrix n n .real).isNative) :
    order? (Shape.matrix n n .real).name = some n ∧ width? (Shape.matrix n n .real).name = none := by
  obtain ⟨-, h2, h4⟩ := Shape.isNative_matrix h
  obtain rfl | rfl | rfl : n = 2 ∨ n = 3 ∨ n = 4 := by simp only [maxNativeWidth] at h4; omega
  all_goals exact ⟨rfl, rfl⟩

/-- A native shape of numbers is a type that operators act on. -/
theorem isNumeric_native {s : Shape} (hv : s.Valid) (hk : s.kind.isField) (hn : s.isNative) :
    Glsl.isNumeric s.name := by
  rcases Shape.native_cases hv hk hn with rfl | rfl | ⟨n, rfl, h1, h4⟩ | ⟨n, rfl, -⟩
  · rfl
  · rfl
  · simp [Glsl.isNumeric, width?_realVector h1 h4]
  · simp [Glsl.isNumeric, (order?_nativeMatrix hn).1]

/-- A name that is not builtin is no builtin type. -/
theorem width?_of_not_builtin {name : String} (h : name ∉ builtinNames) : width? name = none := by
  unfold width?
  split <;> first | rfl | exact absurd (by decide) h

theorem width?_record {s : Shape} (h : s.IsRecord) : width? s.name = none :=
  width?_of_not_builtin h.name_not_builtin

namespace Glsl.Scope

variable {Δ : Scope} {vars : List Binder}

/-! ## Vectors, structs and calls -/

theorem typeOf_nativeVector {args : List Term} {n : Nat} (hn : args.length = n) (h : 1 ≤ n)
    (hw : n ≤ maxNativeWidth) (ha : ∀ t ∈ args, Δ.typeOf vars t = some "float") :
    Δ.typeOf vars (Synth.nativeVector args) = some (Shape.realVector n).name := by
  rw [Synth.nativeVector, typeOf_call (typesOf_replicate ha), hn]
  obtain rfl | rfl | rfl | rfl : n = 1 ∨ n = 2 ∨ n = 3 ∨ n = 4 := by
    simp only [maxNativeWidth] at hw; omega
  all_goals rfl

/-- A struct of its members. -/
theorem typeOf_record {s : Shape} (hs : s.IsRecord) (ho : Δ.Offers (.struct s)) {args : List Term}
    (h : Δ.typesOf vars args = some (s.members.map (·.2.name))) :
    Δ.typeOf vars (.apply s.name args) = some s.name := by
  rw [typeOf_call h, callType, if_neg hs.name_not_builtin]
  have hl : Δ.structs.lookup s.name = _ := ho
  simp [hl, Function.comp_def]

theorem typeOfVar_of_mem {binders : List Binder} (hnd : (binders.map (·.name)).Nodup) {b : Binder}
    (hb : b ∈ binders) : Glsl.typeOfVar binders b.name = some b.type := by
  induction binders with
  | nil => cases hb
  | cons b' binders ih =>
    rw [List.map_cons, List.nodup_cons] at hnd
    rw [Glsl.typeOfVar, List.find?_cons]
    rcases List.mem_cons.1 hb with rfl | hb
    · simp
    · have hne : (b'.name == b.name) = false := by
        refine beq_eq_false_iff_ne.2 fun h => hnd.1 ?_
        rw [h]
        exact List.mem_map_of_mem hb
      rw [hne]
      exact ih hnd.2 hb

/-- A member of a struct. -/
theorem typeOf_member {s : Shape} (hs : s.IsRecord) (ho : Δ.Offers (.struct s)) {base : Term}
    (hb : Δ.typeOf vars base = some s.name) {field : String} {part : Shape}
    (hm : (field, part) ∈ s.members) : Δ.typeOf vars (.member base field) = some part.name := by
  have hl : Δ.structs.lookup s.name = some (s.members.map fun m => ⟨m.2.name, m.1⟩) := ho
  rw [typeOf, hb, Option.bind_some, memberType, width?_record hs, hl]
  have hnd : ((s.members.map fun m => (⟨m.2.name, m.1⟩ : Binder)).map (·.name)).Nodup := by
    rw [List.map_map]
    exact Shape.members_nodup hs
  exact typeOfVar_of_mem hnd (List.mem_map_of_mem (f := fun m => (⟨m.2.name, m.1⟩ : Binder)) hm)

/-- A call of a helper. -/
theorem typeOf_helper {x : Item} {result name : String} {parameters : List Binder} {body : Glsl.Body}
    (hx : x.body = .function result name parameters body) (hn : name ∉ builtinNames) (ho : Δ.Offers x)
    {args : List Term} (h : Δ.typesOf vars args = some (parameters.map (·.type))) :
    Δ.typeOf vars (.apply name args) = some result := by
  rw [Offers, hx] at ho
  rw [typeOf_call h, callType, if_neg hn, ho.1, ho.2]
  exact if_pos rfl

/-- The part of a complex value. -/
theorem typeOf_part {s : Shape} (hs : s.IsRecord) (hk : s.kind = .complex) (ho : Δ.Offers (.struct s))
    {base : Term} (hb : Δ.typeOf vars base = some s.name) {field : String}
    (hf : field = "real" ∨ field = "imag") :
    Δ.typeOf vars (.member base field) = some s.part.name := by
  have hm := Shape.members_complex hs hk
  rcases hf with rfl | rfl
  · exact typeOf_member hs ho hb (by simp [hm])
  · exact typeOf_member hs ho hb (by simp [hm])

/-! ## Constants and entrywise operations -/

theorem typeOf_fillNative {value : Term} (hx : Δ.typeOf vars value = some "float") {s : Shape}
    (hv : s.Valid) (hk : s.kind.isField) (hn : s.isNative) :
    Δ.typeOf vars (Storage.fillNative value s) = some s.name := by
  have hvec : ∀ n, 2 ≤ n → n ≤ maxNativeWidth →
      Δ.typeOf vars (.apply s!"vec{n}" [value]) = some s!"vec{n}" := by
    intro n h2 h4
    rw [typeOf_call (typesOf_singleton hx)]
    obtain rfl | rfl | rfl : n = 2 ∨ n = 3 ∨ n = 4 := by simp only [maxNativeWidth] at h4; omega
    all_goals rfl
  rcases Shape.native_cases hv hk hn with rfl | rfl | ⟨n, rfl, h1, h4⟩ | ⟨n, rfl, h2, h4⟩
  · exact hx
  · exact hvec 2 (by decide) (by decide)
  · simp only [Storage.fillNative, Shape.name]
    split
    · exact hx
    · exact hvec n (by omega) h4
  · have hcols : ∀ t ∈ List.replicate n (Term.apply s!"vec{n}" [value]),
        Δ.typeOf vars t = some s!"vec{n}" := fun t ht => by
      rw [List.eq_of_mem_replicate ht]
      exact hvec n h2 h4
    rw [Storage.fillNative, typeOf_call (typesOf_replicate hcols)]
    obtain rfl | rfl | rfl : n = 2 ∨ n = 3 ∨ n = 4 := by simp only [maxNativeWidth] at h4; omega
    all_goals rfl

/-- A value with one number in every place. -/
theorem typeOf_filled {value : Term} (hx : Δ.typeOf vars value = some "float") {s : Shape}
    (hv : s.Valid) : s.kind.isField → (∀ x ∈ s.structs, Δ.Offers x) →
      Δ.typeOf vars (s.filled value) = some s.name := by
  induction s, hv using Shape.inductionOn with
  | native s hv hn =>
    intro hk _
    rw [Shape.filled_of_native _ hn]
    exact typeOf_fillNative hx hv hk hn
  | record s hs ih =>
    intro _ ho
    rw [Shape.structs_of_record hs] at ho
    rw [Shape.filled_of_record _ hs]
    refine typeOf_record hs (ho _ (by simp)) (typesOf_map fun m hm => ih m hm ?_ fun x hx => ?_)
    · rw [Shape.kind_of_mem_members hs hm]
      rfl
    · exact ho x (List.mem_append_left _ (List.mem_flatMap.2 ⟨m, hm, hx⟩))

theorem operatorType_native (op : Entrywise) {s : Shape} (hv : s.Valid) (hk : s.kind.isField)
    (hn : s.isNative) : Glsl.operatorType op.operator (op.leftType s) s.name = some s.name := by
  have hnum := isNumeric_native hv hk hn
  cases op with
  | add | sub => simp [Entrywise.operator, Entrywise.leftType, Glsl.operatorType, hnum]
  | scale =>
    have hf : Glsl.isNumeric Shape.real.name := rfl
    simp only [Entrywise.operator, Entrywise.leftType, Glsl.operatorType, hnum, hf, Bool.and_self,
      if_true]
    split
    · rename_i h
      rw [h]
    · rfl

/-- An entrywise operation. -/
theorem typeOf_combined (op : Entrywise) {s : Shape} (hv : s.Valid) (hk : s.kind.isField)
    (ho : ∀ x ∈ s.helpers op, Δ.Offers x) {a b : Term}
    (ha : Δ.typeOf vars a = some (op.leftType s)) (hb : Δ.typeOf vars b = some s.name) :
    Δ.typeOf vars (s.combined op a b) = some s.name := by
  cases hn : s.isNative with
  | true =>
    rw [Shape.combined_of_native op hn]
    exact typeOf_grouped ha hb (operatorType_native op hv hk hn)
  | false =>
    have hs : s.IsRecord := ⟨hv, hn⟩
    rw [Shape.combined_of_record op hs]
    have hmem : op.item s ∈ s.helpers op := by
      rw [Shape.helpers_of_record op hs]
      exact List.mem_append_right _ List.mem_cons_self
    exact typeOf_helper (op.item_body s) (Operation.helperName_not_builtin _ _) (ho _ hmem)
      (typesOf_pair ha hb)

/-! ## Constructors -/

/-- An element of a native vector. -/
theorem typeOf_index {n i : Nat} {base : Term}
    (hb : Δ.typeOf vars base = some (Shape.realVector n).name) (h2 : 2 ≤ n)
    (h4 : n ≤ maxNativeWidth) (hi : i < n) :
    Δ.typeOf vars (.index base i) = some "float" := by
  rw [typeOf, hb, Option.bind_some, Glsl.elementType,
    width?_realVector (by omega) h4]
  exact if_pos ⟨h2, hi⟩

/-- A column of a native matrix. -/
theorem typeOf_column {n i : Nat} {base : Term}
    (hb : Δ.typeOf vars base = some (Shape.matrix n n .real).name) (h2 : 2 ≤ n)
    (h4 : n ≤ maxNativeWidth) (hi : i < n) :
    Δ.typeOf vars (.index base i) = some (Shape.realVector n).name := by
  have hn : (Shape.matrix n n .real).isNative := by simp [Shape.isNative, h2, h4]
  rw [typeOf, hb, Option.bind_some, Glsl.elementType, (order?_nativeMatrix hn).1,
    (order?_nativeMatrix hn).2]
  dsimp only
  rw [if_pos hi, typeOfWidth_eq (by omega) h4]

/-- A native matrix of its columns. -/
theorem callType_nativeMatrix {n : Nat} (h2 : 2 ≤ n) (h4 : n ≤ maxNativeWidth) :
    Δ.callType (Shape.matrix n n .real).name (List.replicate n (Shape.realVector n).name) =
      some (Shape.matrix n n .real).name := by
  obtain rfl | rfl | rfl : n = 2 ∨ n = 3 ∨ n = 4 := by simp only [maxNativeWidth] at h4; omega
  all_goals rfl

theorem typesOf_pieces {ws : List Nat} {args : List Term} (hw : ∀ w ∈ ws, 1 ≤ w ∧ w ≤ maxNativeWidth)
    (hn : args.length = ws.sum) (ha : ∀ t ∈ args, Δ.typeOf vars t = some "float") :
    Δ.typesOf vars ((Synth.pieces ws args).map Synth.nativeVector) =
      some (ws.map fun w => (Shape.realVector w).name) := by
  induction ws generalizing args with
  | nil => rfl
  | cons w ws ih =>
    rw [List.sum_cons] at hn
    obtain ⟨h1, h4⟩ := hw w List.mem_cons_self
    have hfirst : Δ.typeOf vars (Synth.nativeVector (args.take w)) = some (Shape.realVector w).name :=
      typeOf_nativeVector (by rw [List.length_take]; omega) h1 h4
        fun t ht => ha t (List.mem_of_mem_take ht)
    have hrest := ih (fun w' hw' => hw w' (List.mem_cons_of_mem _ hw'))
      (show (args.drop w).length = ws.sum by rw [List.length_drop]; omega)
      fun t ht => ha t (List.mem_of_mem_drop ht)
    rw [Synth.pieces, List.map_cons, typesOf, hfirst, hrest]
    rfl

/-- A real vector of its components. -/
theorem typeOf_realVectorTerm {n : Nat} (h : 1 ≤ n ∧ n ≤ maxDimension) {args : List Term}
    (hn : args.length = n) (ha : ∀ t ∈ args, Δ.typeOf vars t = some "float")
    (ho : ∀ x ∈ (Shape.realVector n).structs, Δ.Offers x) :
    Δ.typeOf vars (Synth.realVectorTerm n args) = some (Shape.realVector n).name := by
  unfold Synth.realVectorTerm
  split
  · rename_i hw
    exact typeOf_nativeVector hn h.1 hw ha
  · rename_i hw
    have h5 : 5 ≤ n := Nat.not_le.1 hw
    have hs := realVector_isRecord h hw
    rw [Shape.structs_of_record hs] at ho
    refine typeOf_record hs (ho _ (by simp)) ?_
    have hchunk : ∀ w ∈ chunks n, 1 ≤ w ∧ w ≤ maxNativeWidth := fun w hwc =>
      (chunk_bounds (by omega) hwc).imp_left (Nat.le_trans (by decide))
    rw [typesOf_pieces hchunk (by rw [sum_chunks, hn]) ha, Shape.members_realVector h5,
      map_snd_numbered Shape.name, List.map_map]
    rfl

/-- A real matrix of its rows. -/
theorem typeOf_realMatrixTerm {r c : Nat} (hv : (Shape.matrix r c .real).Valid) {rows : List Term}
    (hn : rows.length = r) (ha : ∀ t ∈ rows, Δ.typeOf vars t = some (Shape.realVector c).name)
    (ho : ∀ x ∈ (Shape.matrix r c .real).structs, Δ.Offers x) :
    Δ.typeOf vars (Synth.realMatrixTerm r c rows) = some (Shape.matrix r c .real).name := by
  unfold Synth.realMatrixTerm
  dsimp only
  cases hnat : (Shape.matrix r c .real).isNative with
  | true =>
    obtain ⟨rfl, h2, h4⟩ := Shape.isNative_matrix hnat
    rw [if_pos rfl]
    -- column `k` gathers entry `k` of every row
    have hcolumn : ∀ k ∈ List.range r, Δ.typeOf vars (Synth.nativeVector
        (rows.map fun row => .index (.group row) k)) = some (Shape.realVector r).name := by
      intro k hk
      refine typeOf_nativeVector (by rw [List.length_map, hn]) (by omega) h4 fun t ht => ?_
      obtain ⟨row, hrow, rfl⟩ := List.mem_map.1 ht
      exact typeOf_index ((typeOf_group row).trans (ha row hrow)) h2 h4 (List.mem_range.1 hk)
    rw [typeOf_call (typesOf_map hcolumn), List.map_const', List.length_range]
    exact callType_nativeMatrix h2 h4
  | false =>
    have hs : (Shape.matrix r c .real).IsRecord := ⟨hv, hnat⟩
    rw [if_neg (by decide)]
    rw [Shape.structs_of_record hs] at ho
    refine typeOf_record hs (ho _ (by simp)) ?_
    rw [typesOf_replicate ha, hn, Shape.members_realMatrix hnat, map_snd_numbered Shape.name,
      List.map_replicate]

/-- The structs of a shape are offered along with its own. -/
theorem offers_structs_part {s : Shape} (hs : s.IsRecord) (hk : s.kind = .complex)
    (ho : ∀ x ∈ s.structs, Δ.Offers x) : ∀ x ∈ s.part.structs, Δ.Offers x :=
  fun x hx => ho x (structs_part_subset hs hk hx)

theorem offers_struct {s : Shape} (hs : s.IsRecord) (ho : ∀ x ∈ s.structs, Δ.Offers x) :
    Δ.Offers (.struct s) :=
  ho _ (by rw [Shape.structs_of_record hs]; simp)

/-- A complex value of its two parts. -/
theorem typeOf_complex {s : Shape} (hs : s.IsRecord) (hk : s.kind = .complex)
    (ho : ∀ x ∈ s.structs, Δ.Offers x) {re im : Term} (hre : Δ.typeOf vars re = some s.part.name)
    (him : Δ.typeOf vars im = some s.part.name) :
    Δ.typeOf vars (.apply s.name [re, im]) = some s.name := by
  refine typeOf_record hs (offers_struct hs ho) ?_
  rw [Shape.members_complex hs hk, typesOf_pair hre him]
  rfl

/-- A coordinate of a complex number. -/
theorem typeOf_coordinate {base : Term} (hb : Δ.typeOf vars base = some "vec2") {field : String}
    (hf : field = "x" ∨ field = "y") : Δ.typeOf vars (.member base field) = some "float" := by
  rw [typeOf, hb]
  rcases hf with rfl | rfl <;> rfl

/-- A value of its elements. -/
theorem typeOf_constructTerm {s e : Shape} {n : Nat} (hv : s.Valid) (he : s.element? = some e)
    (hn : s.length? = some n) {args : List Term} (hlen : args.length = n)
    (ha : ∀ t ∈ args, Δ.typeOf vars t = some e.name) (hoe : ∀ x ∈ e.structs, Δ.Offers x)
    (ho : ∀ x ∈ s.structs, Δ.Offers x) :
    Δ.typeOf vars (Synth.constructTerm s args) = some s.name := by
  have hmap : ∀ (f : Term → Term) {type : String}, (∀ t ∈ args, Δ.typeOf vars (f t) = some type) →
      ∀ t ∈ args.map f, Δ.typeOf vars t = some type := by
    intro f type h t ht
    obtain ⟨u, hu, rfl⟩ := List.mem_map.1 ht
    exact h u hu
  cases s with
  | scalar k => cases he
  | vector m k =>
    obtain rfl : m = n := by injection hn
    obtain rfl : .scalar k = e := by injection he
    cases k with
    | bool | int => cases hv.2
    | real => exact typeOf_realVectorTerm hv.1 hlen ha ho
    | complex =>
      have hs : (Shape.vector m .complex).IsRecord := ⟨hv, rfl⟩
      have ho' := offers_structs_part hs rfl ho
      have hcoord : ∀ field, field = "x" ∨ field = "y" → Δ.typeOf vars
          (Synth.realVectorTerm m (args.map (Term.part · field))) = some (Shape.realVector m).name :=
        fun field hf => typeOf_realVectorTerm hv.1 (by rw [List.length_map, hlen])
          (hmap _ fun t ht => typeOf_coordinate ((typeOf_group t).trans (ha t ht)) hf) ho'
      exact typeOf_complex hs rfl ho (hcoord "x" (.inl rfl)) (hcoord "y" (.inr rfl))
  | matrix r c k =>
    obtain rfl : r = n := by injection hn
    obtain rfl : .vector c k = e := by injection he
    cases k with
    | bool | int => cases hv.2.2
    | real => exact typeOf_realMatrixTerm hv hlen ha ho
    | complex =>
      have hs : (Shape.matrix r c .complex).IsRecord := ⟨hv, rfl⟩
      have hrow : (Shape.vector c .complex).IsRecord := ⟨⟨hv.2.1, rfl⟩, rfl⟩
      have ho' := offers_structs_part hs rfl ho
      have hpart : ∀ field, field = "real" ∨ field = "imag" → Δ.typeOf vars
          (Synth.realMatrixTerm r c (args.map (Term.part · field))) =
            some (Shape.matrix r c .real).name :=
        fun field hf => typeOf_realMatrixTerm (Shape.realMatrix_valid hv.1 hv.2.1)
          (by rw [List.length_map, hlen])
          (hmap _ fun t ht => typeOf_part hrow rfl (offers_struct hrow hoe)
            ((typeOf_group t).trans (ha t ht)) hf) ho'
      exact typeOf_complex hs rfl ho (hpart "real" (.inl rfl)) (hpart "imag" (.inr rfl))

/-! ## Elements -/

/-- An element of a real vector. -/
theorem typeOf_realElement_vector {n i : Nat} (hn : 1 ≤ n ∧ n ≤ maxDimension) (hi : i < n)
    (ho : ∀ x ∈ (Shape.realVector n).structs, Δ.Offers x) {base : Term}
    (hb : Δ.typeOf vars base = some (Shape.realVector n).name) :
    Δ.typeOf vars (Synth.realElement (.realVector n) i base) = some Shape.real.name := by
  have hg : Δ.typeOf vars (.group base) = some (Shape.realVector n).name := (typeOf_group base).trans hb
  simp only [Synth.realElement]
  by_cases h1 : n = 1
  · subst h1
    rw [if_pos rfl]
    exact hg
  rw [if_neg h1]
  by_cases hw : n ≤ maxNativeWidth
  · rw [if_pos hw]
    exact typeOf_index hg (by omega) hw hi
  · rw [if_neg hw]
    -- the element is in a chunk that is wide enough to be indexed
    have h5 : 5 ≤ n := Nat.not_le.1 hw
    have hs := realVector_isRecord hn hw
    obtain ⟨c, o, w, hl, hc, ho', -⟩ := locateIn_eq_some
      (show i < (chunks n).sum by rwa [sum_chunks])
    obtain ⟨hw2, hw4⟩ := chunk_bounds (by omega) (List.mem_of_getElem? hc)
    have hmem : (s!"a{c}", Shape.realVector w) ∈ (Shape.realVector n).members := by
      rw [Shape.members_realVector h5]
      exact mem_numbered (by rw [List.getElem?_map, hc]; rfl)
    rw [hl]
    exact typeOf_index (typeOf_member hs (offers_struct hs ho) hg hmem) hw2 hw4 ho'

/-- A row of a real matrix. -/
theorem typeOf_realElement_matrix {r c i : Nat} (hv : (Shape.matrix r c .real).Valid) (hi : i < r)
    (ho : ∀ x ∈ (Shape.matrix r c .real).structs, Δ.Offers x) {base : Term}
    (hb : Δ.typeOf vars base = some (Shape.matrix r c .real).name) :
    Δ.typeOf vars (Synth.realElement (.matrix r c .real) i base) = some (Shape.realVector c).name := by
  have hg : Δ.typeOf vars (.group base) = some (Shape.matrix r c .real).name :=
    (typeOf_group base).trans hb
  simp only [Synth.realElement]
  cases hnat : (Shape.matrix r c .real).isNative with
  | true =>
    -- the row is put together from the columns
    obtain ⟨rfl, h2, h4⟩ := Shape.isNative_matrix hnat
    rw [if_pos rfl]
    refine typeOf_nativeVector (by rw [List.length_map, List.length_range]) (by omega) h4 ?_
    intro t ht
    obtain ⟨k, hk, rfl⟩ := List.mem_map.1 ht
    exact typeOf_index (typeOf_column hg h2 h4 (List.mem_range.1 hk)) h2 h4 hi
  | false =>
    have hs : (Shape.matrix r c .real).IsRecord := ⟨hv, hnat⟩
    have hmem : (s!"a{i}", Shape.realVector c) ∈ (Shape.matrix r c .real).members := by
      rw [Shape.members_realMatrix hnat]
      exact mem_numbered (by rw [List.getElem?_replicate, if_pos hi])
    rw [if_neg (by decide)]
    exact typeOf_member hs (offers_struct hs ho) hg hmem

/-- An element of a real value. -/
theorem typeOf_realElement {s e : Shape} {n i : Nat} (hv : s.Valid) (hk : s.kind = .real)
    (he : s.element? = some e) (hn : s.length? = some n) (hi : i < n)
    (ho : ∀ x ∈ s.structs, Δ.Offers x) {base : Term} (hb : Δ.typeOf vars base = some s.name) :
    Δ.typeOf vars (Synth.realElement s i base) = some e.name := by
  cases s with
  | scalar k => cases he
  | vector m k =>
    obtain rfl : k = .real := hk
    obtain rfl : m = n := by injection hn
    obtain rfl : Shape.real = e := by injection he
    exact typeOf_realElement_vector hv.1 hi ho hb
  | matrix r c k =>
    obtain rfl : k = .real := hk
    obtain rfl : r = n := by injection hn
    obtain rfl : Shape.realVector c = e := by injection he
    exact typeOf_realElement_matrix hv hi ho hb

/-- An element of a value. -/
theorem typeOf_elementTerm {s e : Shape} {n i : Nat} (hv : s.Valid) (hk : s.kind.isField)
    (he : s.element? = some e) (hn : s.length? = some n) (hi : i < n)
    (ho : ∀ x ∈ s.structs, Δ.Offers x) (hoe : ∀ x ∈ Synth.elementItems s, Δ.Offers x) {base : Term}
    (hb : Δ.typeOf vars base = some s.name) :
    Δ.typeOf vars (Synth.elementTerm s i base) = some e.name := by
  by_cases hc : s.kind = .complex
  · rw [elementTerm_of_complex hc he]
    rw [elementItems_of_complex hc he] at hoe
    cases s with
    | scalar k => cases he
    | vector m k =>
      obtain rfl : k = .complex := hc
      obtain rfl : Shape.complex = e := by injection he
      have hs : (Shape.vector m .complex).IsRecord := ⟨hv, rfl⟩
      have hpart : ∀ field, field = "real" ∨ field = "imag" →
          Δ.typeOf vars (Synth.realElement (.realVector m) i (base.part field)) = some "float" :=
        fun field hf => typeOf_realElement (Shape.realVector_valid hv.1) rfl rfl hn hi
          (offers_structs_part hs rfl ho) (typeOf_part hs rfl (offers_struct hs ho) ((typeOf_group base).trans hb) hf)
      exact typeOf_call (typesOf_pair (hpart "real" (.inl rfl)) (hpart "imag" (.inr rfl)))
    | matrix r c k =>
      obtain rfl : k = .complex := hc
      obtain rfl : Shape.vector c .complex = e := by injection he
      have hs : (Shape.matrix r c .complex).IsRecord := ⟨hv, rfl⟩
      have hpart : ∀ field, field = "real" ∨ field = "imag" → Δ.typeOf vars
          (Synth.realElement (.matrix r c .real) i (base.part field)) = some (Shape.realVector c).name :=
        fun field hf => typeOf_realElement (Shape.realMatrix_valid hv.1 hv.2.1) rfl rfl hn hi
          (offers_structs_part hs rfl ho)
          (typeOf_part hs rfl (offers_struct hs ho) ((typeOf_group base).trans hb) hf)
      have hrow : (Shape.vector c .complex).IsRecord := ⟨⟨hv.2.1, rfl⟩, rfl⟩
      exact typeOf_complex hrow rfl hoe (hpart "real" (.inl rfl)) (hpart "imag" (.inr rfl))
  · rw [elementTerm_of_real hc]
    have hr : s.kind = .real := by
      cases h : s.kind <;> simp_all [Scalar.isField]
    exact typeOf_realElement hv hr he hn hi ho hb

/-! ## Products and sums -/

/-- A dot product. -/
theorem typeOf_dotTerm {n : Nat} (h : 1 ≤ n ∧ n ≤ maxDimension)
    (ho : ∀ x ∈ Synth.dotItems n, Δ.Offers x) {a b : Term}
    (ha : Δ.typeOf vars a = some (Shape.realVector n).name)
    (hb : Δ.typeOf vars b = some (Shape.realVector n).name) :
    Δ.typeOf vars (Synth.dotTerm n a b) = some "float" := by
  unfold Synth.dotTerm
  by_cases hw : n ≤ maxNativeWidth
  · rw [if_pos hw, typeOf_call (typesOf_pair ha hb)]
    obtain rfl | rfl | rfl | rfl : n = 1 ∨ n = 2 ∨ n = 3 ∨ n = 4 := by
      simp only [maxNativeWidth] at hw; omega
    all_goals rfl
  · rw [if_neg hw]
    rw [Synth.dotItems, if_neg hw] at ho
    exact typeOf_helper (x := .helper .dot (.realVector n)) rfl (Operation.helperName_not_builtin _ _)
      (ho _ (by simp)) (typesOf_pair ha hb)

/-- A real matrix product. -/
theorem typeOf_matVecTerm {r c : Nat} (hv : (Shape.matrix r c .real).Valid)
    (ho : ∀ x ∈ Synth.matVecItems r c, Δ.Offers x) {m v : Term}
    (hm : Δ.typeOf vars m = some (Shape.matrix r c .real).name)
    (hw : Δ.typeOf vars v = some (Shape.realVector c).name) :
    Δ.typeOf vars (Synth.matVecTerm r c m v) = some (Shape.realVector r).name := by
  unfold Synth.matVecTerm
  unfold Synth.matVecItems at ho
  dsimp only
  cases hn : (Shape.matrix r c .real).isNative with
  | true =>
    obtain ⟨rfl, h2, h4⟩ := Shape.isNative_matrix hn
    rw [if_pos rfl]
    refine typeOf_grouped hm hw ?_
    obtain rfl | rfl | rfl : r = 2 ∨ r = 3 ∨ r = 4 := by simp only [maxNativeWidth] at h4; omega
    all_goals rfl
  | false =>
    rw [hn, if_neg (by decide)] at ho
    rw [if_neg (by decide)]
    exact typeOf_helper (x := .helper .matVec (.matrix r c .real)) rfl
      (Operation.helperName_not_builtin _ _) (ho _ (by simp)) (typesOf_pair hm hw)

/-- A sum of elements. -/
theorem typeOf_sumTerm {s e : Shape} (hv : s.Valid) (hk : s.kind.isField) (he : s.element? = some e)
    (ho : ∀ x ∈ sumItems s, Δ.Offers x) {a : Term} (ha : Δ.typeOf vars a = some s.name) :
    Δ.typeOf vars (sumTerm s a) = some e.name := by
  have hhelper : ∀ {s : Shape}, s.element? = some e → Δ.Offers (.helper .sum s) →
      Δ.typeOf vars a = some s.name →
      Δ.typeOf vars (.apply (Operation.sum.helperName s) [a]) = some e.name := by
    intro s he ho ha
    have hbody : (Item.helper .sum s).body = Item.sumBody s e (s.length?.getD 0) := by
      rw [Item.body, he]
      rfl
    exact typeOf_helper hbody (Operation.helperName_not_builtin _ _) ho (typesOf_singleton ha)
  cases s with
  | scalar k => cases he
  | vector n k =>
    cases k with
    | bool | int => cases hk
    | real =>
      obtain rfl : Shape.real = e := by injection he
      have hone : Δ.typeOf vars ((Shape.realVector n).filled (.literal .one)) =
          some (Shape.realVector n).name :=
        typeOf_filled rfl hv rfl fun x hx => ho x (List.mem_append_left _ hx)
      exact typeOf_dotTerm hv.1 (fun x hx => ho x (List.mem_append_right _ hx)) ha hone
    | complex => exact hhelper he (ho _ (List.mem_append_right _ List.mem_cons_self)) ha
  | matrix r c k => exact hhelper he (ho _ (List.mem_append_right _ List.mem_cons_self)) ha

end Glsl.Scope
end ShaderAlgebra
