import ShaderAlgebra.Proofs.TypedTerms

/-!
# Generated headers are well typed

The body of every item is well typed where the needs of the item are offered
(`check_body`).  A header prints all structs before all functions; since structs need structs
only, the order of a catalog survives that, and the header can be declared from top to
bottom (`Catalog.exists_scope`).
-/

namespace ShaderAlgebra

open Glsl (Term Binder Declaration Scope)
open Glsl.Scope

namespace Glsl.Scope

variable {Δ : Scope} {vars : List Binder}

/-- The scope with one more declaration, right or not. -/
def declare (Δ : Scope) : Declaration → Scope
  | .uniform _ => Δ
  | .struct name members => { Δ with structs := Δ.structs ++ [(name, members)] }
  | .function result name parameters _ =>
    { Δ with functions := Δ.functions ++ [(name, ⟨parameters.map (·.type), result⟩)] }

/-- The type of a shape of numbers is there. -/
theorem isType_name {s : Shape} (hv : s.Valid) (hk : s.kind.isField)
    (ho : ∀ x ∈ s.structs, Δ.Offers x) : Δ.isType s.name := by
  cases hn : s.isNative with
  | true => rw [isType, isNumeric_native hv hk hn, Bool.true_or]
  | false =>
    have hl : Δ.structs.lookup s.name = _ := offers_struct ⟨hv, hn⟩ ho
    rw [isType, hl, Option.isSome_some, Bool.or_true]

/-- A function of one expression. -/
theorem check_function {result name : String} {parameters : List Binder} {body : Glsl.Body}
    (hf : Δ.isFree name) (hp : Δ.areBinders parameters) (hr : Δ.isType result)
    (hb : Δ.bodyType parameters body = some result) :
    Δ.check (.function result name parameters body) =
      some (Δ.declare (.function result name parameters body)) :=
  if_pos ⟨hf, hp, hr, hb⟩

theorem areBinders_ab {a b : String} (ha : Δ.isType a) (hb : Δ.isType b) :
    Δ.areBinders [⟨a, "a"⟩, ⟨b, "b"⟩] := by
  simp [areBinders, ha, hb]

/-- The first parameter of a helper. -/
theorem typeOf_a (a b : String) : Δ.typeOf [⟨a, "a"⟩, ⟨b, "b"⟩] (.name "a") = some a := by
  rw [typeOf]
  rfl

/-- The second parameter of a helper. -/
theorem typeOf_b (a b : String) : Δ.typeOf [⟨a, "a"⟩, ⟨b, "b"⟩] (.name "b") = some b := by
  rw [typeOf]
  rfl

theorem check_struct {s : Shape} (hs : s.IsRecord) (ho : ∀ y ∈ (Item.struct s).needs, Δ.Offers y)
    (hf : Δ.isFree s.name) : Δ.check (Item.struct s).body = some (Δ.declare (Item.struct s).body) := by
  refine if_pos ⟨hf, ?_⟩
  rw [areBinders, Bool.and_eq_true, decide_eq_true_eq, List.all_map, List.map_map, List.all_eq_true]
  refine ⟨fun m hm => ?_, Shape.members_nodup hs⟩
  refine isType_name (Shape.valid_of_mem_members hs hm) ?_ fun x hx => ho x ?_
  · rw [Shape.kind_of_mem_members hs hm]
    rfl
  · exact List.mem_flatMap.2 ⟨m, hm, hx⟩

theorem check_entrywise (op : Entrywise) {s : Shape} (hs : s.IsRecord)
    (ho : ∀ y ∈ (op.item s).needs, Δ.Offers y) (hf : Δ.isFree (op.item s).name) :
    Δ.check (op.item s).body = some (Δ.declare (op.item s).body) := by
  rw [op.item_needs] at ho
  have hstructs : ∀ x ∈ s.structs, Δ.Offers x := fun x hx => ho x (List.mem_append_left _ hx)
  have hk : s.kind.isField := by
    rcases hs.cases with ⟨n, rfl, -⟩ | ⟨n, rfl, -⟩ | ⟨r, c, rfl, -⟩ | ⟨r, c, rfl, -⟩ <;> rfl
  have htype := isType_name hs.1 hk hstructs
  have hleft : Δ.isType (op.leftType s) := by
    cases op with
    | add | sub => exact htype
    | scale => rfl
  rw [op.item_body]
  refine check_function hf (areBinders_ab hleft htype) htype ?_
  refine typeOf_record hs (offers_struct hs hstructs) (typesOf_map fun m hm => ?_)
  have hmk : m.2.kind.isField := by
    rw [Shape.kind_of_mem_members hs hm]
    rfl
  have hmo : ∀ x ∈ m.2.helpers op, Δ.Offers x := fun x hx =>
    ho x (List.mem_append_right _ (List.mem_flatMap.2 ⟨m, hm, hx⟩))
  refine typeOf_combined op (Shape.valid_of_mem_members hs hm) hmk hmo ?_ ?_
  · cases op with
    | add | sub => exact typeOf_member hs (offers_struct hs hstructs) (typeOf_a _ _) hm
    | scale => exact typeOf_a _ _
  · exact typeOf_member hs (offers_struct hs hstructs) (typeOf_b _ _) hm

/-- A sum without parentheses. -/
theorem typeOf_total {ts : List Term} (h : ∀ t ∈ ts, Δ.typeOf vars t = some "float") :
    Δ.typeOf vars (Term.total ts) = some "float" := by
  have hfold : ∀ (ts : List Term) (t : Term), Δ.typeOf vars t = some "float" →
      (∀ t ∈ ts, Δ.typeOf vars t = some "float") →
      Δ.typeOf vars (ts.foldl (.binary .tight .plus) t) = some "float" := by
    intro ts
    induction ts with
    | nil => exact fun t ht _ => ht
    | cons u ts ih =>
      intro t ht hts
      refine ih _ ?_ fun x hx => hts x (List.mem_cons_of_mem _ hx)
      rw [typeOf, ht, hts u List.mem_cons_self]
      rfl
  cases ts with
  | nil => rw [Term.total, typeOf]
  | cons t ts => exact hfold ts t (h t List.mem_cons_self) fun x hx => h x (List.mem_cons_of_mem _ hx)

theorem check_dot {n : Nat} (h : 5 ≤ n ∧ n ≤ maxDimension)
    (ho : ∀ y ∈ (Item.helper .dot (.realVector n)).needs, Δ.Offers y)
    (hf : Δ.isFree (Item.helper .dot (.realVector n)).name) :
    Δ.check (Item.helper .dot (.realVector n)).body =
      some (Δ.declare (Item.helper .dot (.realVector n)).body) := by
  have hs : (Shape.realVector n).IsRecord :=
    realVector_isRecord ⟨by omega, h.2⟩ (Nat.not_le.2 h.1)
  have htype := isType_name hs.1 rfl ho
  refine check_function hf (areBinders_ab htype htype) rfl (typeOf_total fun t ht => ?_)
  obtain ⟨⟨field, part⟩, hm, rfl⟩ := List.mem_map.1 ht
  obtain ⟨w, hw, rfl⟩ : ∃ w ∈ chunks n, Shape.realVector w = part := by
    rw [Shape.members_realVector h.1] at hm
    exact List.mem_map.1 (mem_of_mem_numbered hm)
  obtain ⟨hw2, hw4⟩ := chunk_bounds (by omega) hw
  have hdot := typeOf_dotTerm ⟨by omega, Nat.le_trans hw4 (by decide)⟩
    (by rw [Synth.dotItems, if_pos hw4]; simp)
    (typeOf_member hs (offers_struct hs ho) (typeOf_a _ _) hm)
    (typeOf_member hs (offers_struct hs ho) (typeOf_b _ _) hm)
  rwa [Synth.dotTerm, if_pos hw4] at hdot

theorem check_matVec {r c : Nat} (hr : 1 ≤ r ∧ r ≤ maxDimension) (hc : 1 ≤ c ∧ c ≤ maxDimension)
    (hn : (Shape.matrix r c .real).isNative = false)
    (ho : ∀ y ∈ (Item.helper .matVec (.matrix r c .real)).needs, Δ.Offers y)
    (hf : Δ.isFree (Item.helper .matVec (.matrix r c .real)).name) :
    Δ.check (Item.helper .matVec (.matrix r c .real)).body =
      some (Δ.declare (Item.helper .matVec (.matrix r c .real)).body) := by
  have hs : (Shape.matrix r c .real).IsRecord := ⟨Shape.realMatrix_valid hr hc, hn⟩
  simp only [Item.needs, Operation.dimensions, List.mem_append] at ho
  have hom : ∀ x ∈ (Shape.matrix r c .real).structs, Δ.Offers x := fun x hx =>
    ho x (.inl (.inl (.inl hx)))
  have hoc : ∀ x ∈ (Shape.realVector c).structs, Δ.Offers x := fun x hx =>
    ho x (.inl (.inl (.inr hx)))
  have hor : ∀ x ∈ (Shape.realVector r).structs, Δ.Offers x := fun x hx => ho x (.inl (.inr hx))
  have hvec := isType_name (Shape.realVector_valid hc) rfl hoc
  rw [show (Item.helper .matVec (.matrix r c .real)).body = Item.matVecBody r c from rfl]
  refine check_function hf (areBinders_ab (isType_name hs.1 rfl hom) hvec)
    (isType_name (Shape.realVector_valid hr) rfl hor) ?_
  refine typeOf_realVectorTerm hr (by rw [List.length_map, List.length_range]) (fun t ht => ?_) hor
  obtain ⟨k, hk, rfl⟩ := List.mem_map.1 ht
  have hrow : (s!"a{k}", Shape.realVector c) ∈ (Shape.matrix r c .real).members := by
    rw [Shape.members_realMatrix hn]
    exact mem_numbered (by rw [List.getElem?_replicate, if_pos (List.mem_range.1 hk)])
  exact typeOf_dotTerm hc (fun x hx => ho x (.inr hx))
    (typeOf_member hs (offers_struct hs hom) (typeOf_a _ _) hrow) (typeOf_b _ _)

/-- Assignments to a variable that keep its type. -/
theorem statementsType_assigns {x type : String} (hx : Glsl.typeOfVar vars x = some type)
    {values : List Term} (h : ∀ t ∈ values, Δ.typeOf vars t = some type) (rest : List Glsl.Statement) :
    Δ.statementsType vars (values.map (.assign x) ++ rest) = Δ.statementsType vars rest := by
  induction values with
  | nil => rfl
  | cons t values ih =>
    rw [List.map_cons, List.cons_append, statementsType, if_pos, ih]
    · exact fun u hu => h u (List.mem_cons_of_mem _ hu)
    · exact ⟨by rw [hx]; rfl, by rw [hx]; exact h t List.mem_cons_self⟩

theorem check_sum {s : Shape} (h : Operation.sum.HasHelper s)
    (ho : ∀ y ∈ (Item.helper .sum s).needs, Δ.Offers y) (hf : Δ.isFree (Item.helper .sum s).name) :
    Δ.check (Item.helper .sum s).body = some (Δ.declare (Item.helper .sum s).body) := by
  obtain ⟨e, n, he, hn, hev, -⟩ := Operation.HasHelper.sum h
  have hk := Shape.kind_isField h.1.1 he
  have hek : e.kind.isField := by rwa [Shape.kind_of_element? he]
  simp only [Item.needs, he, Option.getD_some, List.mem_append] at ho
  have hos : ∀ x ∈ s.structs, Δ.Offers x := fun x hx => ho x (.inl (.inl hx))
  have hoe : ∀ x ∈ e.structs, Δ.Offers x := fun x hx => ho x (.inl (.inr hx))
  have hbody : (Item.helper .sum s).body = Item.sumBody s e n := by
    rw [Item.body, he, hn]
    rfl
  rw [hbody]
  refine check_function hf ?_ (isType_name hev hek hoe) ?_
  · simp [areBinders, isType_name h.1.1 hk hos]
  -- `res` is defined, each line keeps its type, and it is returned
  rw [bodyType, Item.flatten_sumLines, statementsType, if_pos]
  · rw [statementsType_assigns (show Glsl.typeOfVar _ "res" = some e.name from rfl)]
    · rw [statementsType, typeOf]
      rfl
    · intro t ht
      obtain ⟨k, hk', rfl⟩ := List.mem_map.1 ht
      refine typeOf_combined .add hev hek (fun x hx => ho x (.inr hx)) (by rw [typeOf]; rfl) ?_
      refine typeOf_elementTerm h.1.1 hk he hn (List.mem_range.1 hk') hos ?_ (by rw [typeOf]; rfl)
      intro x hx
      by_cases hc : s.kind = .complex
      · exact hoe x (by rwa [elementItems_of_complex hc he] at hx)
      · rw [elementItems_of_real hc] at hx
        cases hx
  · exact ⟨typeOf_filled rfl hev hek hoe, rfl⟩

theorem check_complexMul (hf : Δ.isFree (Item.helper .complexMul .complex).name) :
    Δ.check (Item.helper .complexMul .complex).body =
      some (Δ.declare (Item.helper .complexMul .complex).body) := by
  exact check_function hf (areBinders_ab rfl rfl) rfl rfl

theorem check_complexScale {s : Shape} (h : Operation.complexScale.HasHelper s)
    (ho : ∀ y ∈ (Item.helper .complexScale s).needs, Δ.Offers y)
    (hf : Δ.isFree (Item.helper .complexScale s).name) :
    Δ.check (Item.helper .complexScale s).body =
      some (Δ.declare (Item.helper .complexScale s).body) := by
  obtain ⟨hs, hk⟩ := id h
  have hpv := (Operation.HasHelper.complexScale h).1
  have hpk : s.part.kind.isField := by
    rcases (Operation.HasHelper.complexScale h).2 with ⟨n, rfl⟩ | ⟨r, c, rfl⟩ <;> rfl
  simp only [Item.needs, List.mem_append] at ho
  have hos : ∀ x ∈ s.structs, Δ.Offers x := fun x hx => ho x (.inl (.inl (.inl hx)))
  have htype : Δ.isType s.name := isType_name hs.1 (by rw [hk]; rfl) hos
  refine check_function hf (areBinders_ab rfl htype) htype ?_
  have hmultiple : ∀ x field, x = "x" ∨ x = "y" → field = "real" ∨ field = "imag" →
      Δ.typeOf [⟨"vec2", "a"⟩, ⟨s.name, "b"⟩]
        (s.part.combined .scale (.member (.name "a") x) (.member (.name "b") field)) =
        some s.part.name := fun x field hx hfield =>
    typeOf_combined .scale hpv hpk (fun y hy => ho y (.inl (.inl (.inr hy))))
      (typeOf_coordinate (typeOf_a _ _) hx)
      (typeOf_part hs hk (offers_struct hs hos) (typeOf_b _ _) hfield)
  refine typeOf_complex hs hk hos ?_ ?_
  · exact typeOf_combined .sub hpv hpk (fun y hy => ho y (.inl (.inr hy)))
      (hmultiple _ _ (.inl rfl) (.inl rfl)) (hmultiple _ _ (.inr rfl) (.inr rfl))
  · exact typeOf_combined .add hpv hpk (fun y hy => ho y (.inr hy))
      (hmultiple _ _ (.inl rfl) (.inr rfl)) (hmultiple _ _ (.inr rfl) (.inl rfl))

theorem check_complexMatVec {r c : Nat} (hr : 1 ≤ r ∧ r ≤ maxDimension) (hc : 1 ≤ c ∧ c ≤ maxDimension)
    (ho : ∀ y ∈ (Item.helper .complexMatVec (.matrix r c .complex)).needs, Δ.Offers y)
    (hf : Δ.isFree (Item.helper .complexMatVec (.matrix r c .complex)).name) :
    Δ.check (Item.helper .complexMatVec (.matrix r c .complex)).body =
      some (Δ.declare (Item.helper .complexMatVec (.matrix r c .complex)).body) := by
  have hm : (Shape.matrix r c .complex).IsRecord := ⟨⟨hr, hc, rfl⟩, rfl⟩
  have hv : (Shape.vector c .complex).IsRecord := ⟨Shape.complexVector_valid hc, rfl⟩
  have hout : (Shape.vector r .complex).IsRecord := ⟨Shape.complexVector_valid hr, rfl⟩
  simp only [Item.needs, Operation.dimensions, List.mem_append] at ho
  have hom : ∀ x ∈ (Shape.matrix r c .complex).structs, Δ.Offers x := fun x hx =>
    ho x (.inl (.inl (.inl (.inl (.inl hx)))))
  have hov : ∀ x ∈ (Shape.vector c .complex).structs, Δ.Offers x := fun x hx =>
    ho x (.inl (.inl (.inl (.inl (.inr hx)))))
  have hor : ∀ x ∈ (Shape.vector r .complex).structs, Δ.Offers x := fun x hx =>
    ho x (.inl (.inl (.inl (.inr hx))))
  rw [show (Item.helper .complexMatVec (.matrix r c .complex)).body = Item.complexMatVecBody r c from rfl]
  refine check_function hf (areBinders_ab (isType_name hm.1 rfl hom) (isType_name hv.1 rfl hov))
    (isType_name hout.1 rfl hor) ?_
  have hproduct : ∀ x y, x = "real" ∨ x = "imag" → y = "real" ∨ y = "imag" →
      Δ.typeOf [⟨(Shape.matrix r c .complex).name, "a"⟩, ⟨(Shape.vector c .complex).name, "b"⟩]
        (Synth.matVecTerm r c (.member (.name "a") x) (.member (.name "b") y)) =
        some (Shape.realVector r).name := fun x y hx hy =>
    typeOf_matVecTerm (Shape.realMatrix_valid hr hc) (fun z hz => ho z (.inl (.inl (.inr hz))))
      (typeOf_part hm rfl (offers_struct hm hom) (typeOf_a _ _) hx)
      (typeOf_part hv rfl (offers_struct hv hov) (typeOf_b _ _) hy)
  refine typeOf_complex hout rfl hor ?_ ?_
  · exact typeOf_combined .sub (Shape.realVector_valid hr) rfl (fun y hy => ho y (.inl (.inr hy)))
      (hproduct _ _ (.inl rfl) (.inl rfl)) (hproduct _ _ (.inr rfl) (.inr rfl))
  · exact typeOf_combined .add (Shape.realVector_valid hr) rfl (fun y hy => ho y (.inr hy))
      (hproduct _ _ (.inl rfl) (.inr rfl)) (hproduct _ _ (.inr rfl) (.inl rfl))

/-- A complex number of a difference and a sum. -/
theorem typeOf_complexPair {a b c d : Term} (ha : Δ.typeOf vars a = some "float")
    (hb : Δ.typeOf vars b = some "float") (hc : Δ.typeOf vars c = some "float")
    (hd : Δ.typeOf vars d = some "float") :
    Δ.typeOf vars (.call .loose "vec2" [.binary .tight .minus a b, .binary .tight .plus c d]) =
      some "vec2" := by
  have hminus : Δ.typeOf vars (.binary .tight .minus a b) = some "float" := by
    rw [typeOf, ha, hb]
    rfl
  have hplus : Δ.typeOf vars (.binary .tight .plus c d) = some "float" := by
    rw [typeOf, hc, hd]
    rfl
  exact typeOf_call (typesOf_pair hminus hplus)

theorem check_complexDot {n : Nat} (h : 1 ≤ n ∧ n ≤ maxDimension)
    (ho : ∀ y ∈ (Item.helper .complexDot (.vector n .complex)).needs, Δ.Offers y)
    (hf : Δ.isFree (Item.helper .complexDot (.vector n .complex)).name) :
    Δ.check (Item.helper .complexDot (.vector n .complex)).body =
      some (Δ.declare (Item.helper .complexDot (.vector n .complex)).body) := by
  have hs : (Shape.vector n .complex).IsRecord := ⟨Shape.complexVector_valid h, rfl⟩
  simp only [Item.needs, Operation.dimensions, List.mem_append] at ho
  have hos : ∀ x ∈ (Shape.vector n .complex).structs, Δ.Offers x := fun x hx => ho x (.inl hx)
  have htype := isType_name hs.1 rfl hos
  rw [show (Item.helper .complexDot (.vector n .complex)).body = Item.complexDotBody n from rfl]
  refine check_function hf (areBinders_ab htype htype) rfl ?_
  have hproduct : ∀ x y, x = "real" ∨ x = "imag" → y = "real" ∨ y = "imag" →
      Δ.typeOf [⟨(Shape.vector n .complex).name, "a"⟩, ⟨(Shape.vector n .complex).name, "b"⟩]
        (Synth.dotTerm n (.member (.name "a") x) (.member (.name "b") y)) = some "float" :=
    fun x y hx hy => typeOf_dotTerm h (fun z hz => ho z (.inr hz))
      (typeOf_part hs rfl (offers_struct hs hos) (typeOf_a _ _) hx)
      (typeOf_part hs rfl (offers_struct hs hos) (typeOf_b _ _) hy)
  exact typeOf_complexPair (hproduct _ _ (.inl rfl) (.inl rfl)) (hproduct _ _ (.inr rfl) (.inr rfl))
    (hproduct _ _ (.inl rfl) (.inr rfl)) (hproduct _ _ (.inr rfl) (.inl rfl))

/-- **The body of an item is well typed** where its needs are offered. -/
theorem check_body {x : Item} (hx : x.Admissible) (ho : ∀ y ∈ x.needs, Δ.Offers y)
    (hf : Δ.isFree x.name) : Δ.check x.body = some (Δ.declare x.body) := by
  cases x with
  | struct s => exact check_struct hx ho hf
  | helper op s =>
    cases op with
    | add => exact check_entrywise .add hx ho hf
    | sub => exact check_entrywise .sub hx ho hf
    | scale => exact check_entrywise .scale hx ho hf
    | matVec =>
      obtain ⟨r, c, rfl, hn, hr, hc⟩ := Operation.HasHelper.matVec hx
      exact check_matVec hr hc hn ho hf
    | dot =>
      obtain ⟨n, rfl, hn⟩ := Operation.HasHelper.dot hx
      exact check_dot hn ho hf
    | sum => exact check_sum hx ho hf
    | complexMul =>
      obtain rfl : s = .complex := hx
      exact check_complexMul hf
    | complexScale => exact check_complexScale hx ho hf
    | complexMatVec =>
      obtain ⟨r, c, rfl, hr, hc⟩ := Operation.HasHelper.complexMatVec hx
      exact check_complexMatVec hr hc ho hf
    | complexDot =>
      obtain ⟨n, rfl, hn⟩ := Operation.HasHelper.complexDot hx
      exact check_complexDot hn ho hf

/-! ## Declaring items in order -/

/-- A helper is declared as a function of its name. -/
theorem helper_body {op : Operation} {s : Shape} (h : op.HasHelper s) : ∃ result parameters body,
    (Item.helper op s).body = .function result (op.helperName s) parameters body := by
  cases op with
  | matVec =>
    obtain ⟨r, c, rfl, -⟩ := Operation.HasHelper.matVec h
    exact ⟨_, _, _, rfl⟩
  | complexMul =>
    obtain rfl : s = .complex := h
    exact ⟨_, _, _, rfl⟩
  | complexMatVec =>
    obtain ⟨r, c, rfl, -⟩ := Operation.HasHelper.complexMatVec h
    exact ⟨_, _, _, rfl⟩
  | complexDot =>
    obtain ⟨n, rfl, -⟩ := Operation.HasHelper.complexDot h
    exact ⟨_, _, _, rfl⟩
  | add | sub | scale | dot | sum | complexScale => exact ⟨_, _, _, rfl⟩

theorem lookup_append_ne {α : Type} {l : List (String × α)} {name name' : String} {a : α}
    (h : name ≠ name') : (l ++ [(name', a)]).lookup name = l.lookup name := by
  rw [List.lookup_append, List.lookup_cons, beq_eq_false_iff_ne.2 h]
  simp

theorem lookup_append_self {α : Type} {l : List (String × α)} {name : String} {a : α}
    (h : l.lookup name = none) : (l ++ [(name, a)]).lookup name = some a := by
  rw [List.lookup_append, h, List.lookup_cons_self, Option.none_or]

/-- A declaration leaves the other names alone. -/
theorem lookup_declare {x : Item} (hx : x.Admissible) {name : String} (hne : name ≠ x.name) :
    (Δ.declare x.body).structs.lookup name = Δ.structs.lookup name ∧
      (Δ.declare x.body).functions.lookup name = Δ.functions.lookup name := by
  cases x with
  | struct s => exact ⟨lookup_append_ne hne, rfl⟩
  | helper op s =>
    obtain ⟨result, parameters, body, hb⟩ := helper_body hx
    rw [hb]
    exact ⟨rfl, lookup_append_ne hne⟩

/-- What is offered stays offered. -/
theorem Offers.declare {x y : Item} (hx : x.Admissible) (hy : y.Admissible) (h : Δ.Offers y)
    (hne : y.name ≠ x.name) : (Δ.declare x.body).Offers y := by
  have hl := lookup_declare (Δ := Δ) hx hne
  cases y with
  | struct s => exact hl.1.trans h
  | helper op s =>
    obtain ⟨result, parameters, body, hb⟩ := helper_body hy
    rw [Offers, hb] at h ⊢
    exact ⟨hl.1.trans h.1, hl.2.trans h.2⟩

/-- What is declared under a free name is offered. -/
theorem offers_declare {x : Item} (hx : x.Admissible) (hs : Δ.structs.lookup x.name = none)
    (hf : Δ.functions.lookup x.name = none) : (Δ.declare x.body).Offers x := by
  cases x with
  | struct s => exact lookup_append_self hs
  | helper op s =>
    obtain ⟨result, parameters, body, hb⟩ := helper_body hx
    rw [Offers, hb]
    exact ⟨hs, lookup_append_self hf⟩

theorem name_not_builtin {x : Item} (hx : x.Admissible) : x.name ∉ builtinNames := by
  cases x with
  | struct s => exact Shape.IsRecord.name_not_builtin hx
  | helper op s => exact Operation.helperName_not_builtin op s

/-- **Items in an order in which each stands after its needs can be declared one by one.** -/
theorem exists_scope {items : List Item} (h : Closed items) :
    ∃ Δ, Scope.empty.checkAll (items.map Item.body) = some Δ ∧ (∀ y ∈ items, Δ.Offers y) ∧
      ∀ name, (∀ y ∈ items, y.name ≠ name) →
        Δ.structs.lookup name = none ∧ Δ.functions.lookup name = none := by
  induction h with
  | nil => exact ⟨.empty, rfl, by simp, fun _ _ => ⟨rfl, rfl⟩⟩
  | @snoc items x hitems hx hmem hneeds ih =>
    obtain ⟨Δ, hcheck, hoffers, hfree⟩ := ih
    have hne : ∀ y ∈ items, y.name ≠ x.name := fun y hy he =>
      hmem (Item.name_injective (hitems.admissible y hy) hx he ▸ hy)
    obtain ⟨hs, hf⟩ := hfree x.name hne
    have hok : Δ.isFree x.name := by
      simp [isFree, hs, hf, name_not_builtin hx]
    refine ⟨Δ.declare x.body, ?_, fun y hy => ?_, fun name hname => ?_⟩
    · rw [checkAll, List.map_append, List.foldlM_append, ← checkAll, hcheck]
      change Δ.check x.body >>= pure = _
      rw [check_body hx (fun y hy => hoffers y (hneeds hy)) hok]
      rfl
    · rcases List.mem_append.1 hy with hy | hy
      · exact (hoffers y hy).declare hx (hitems.admissible y hy) (hne y hy)
      · rw [List.mem_singleton.1 hy]
        exact offers_declare hx hs hf
    · have := lookup_declare (Δ := Δ) hx (Ne.symm (hname x (by simp)))
      rw [this.1, this.2]
      exact hfree name fun y hy => hname y (List.mem_append_left _ hy)

end Glsl.Scope

/-! ## Structs before functions -/

theorem category_of_mem_structs {s : Shape} (h : s.Valid) : ∀ y ∈ s.structs, y.category = .struct := by
  induction s, h using Shape.inductionOn with
  | native s hv hn =>
    intro y hy
    rw [Shape.structs_of_native hn] at hy
    cases hy
  | record s hs ih =>
    intro y hy
    rw [Shape.structs_of_record hs, List.mem_append, List.mem_flatMap, List.mem_singleton] at hy
    rcases hy with ⟨m, hm, hy⟩ | rfl
    · exact ih m hm y hy
    · rfl

/-- Items in the order in which a header prints them. -/
def printed (items : List Item) : List Item :=
  items.filter (·.category = .struct) ++ items.filter (·.category = .function)

theorem mem_printed {items : List Item} {x : Item} : x ∈ printed items ↔ x ∈ items := by
  simp only [printed, List.mem_append, List.mem_filter, decide_eq_true_eq]
  cases x <;> simp [Item.category]

/-- Structs need structs only, so they are in order by themselves. -/
theorem Closed.filter_structs {items : List Item} (h : Closed items) :
    Closed (items.filter (·.category = .struct)) := by
  induction h with
  | nil => exact .nil
  | @snoc items x hitems hx hmem hneeds ih =>
    rw [List.filter_append]
    cases x with
    | helper op s => simpa [Item.category] using ih
    | struct s =>
      refine .snoc ih hx (fun h => hmem (List.mem_filter.1 h).1) fun y hy => ?_
      refine List.mem_filter.2 ⟨hneeds hy, ?_⟩
      obtain ⟨m, hm, hy⟩ := List.mem_flatMap.1 hy
      simp [category_of_mem_structs (Shape.valid_of_mem_members hx hm) y hy]

/-- **The order of a header is an order in which each item stands after its needs.** -/
theorem Closed.printed {items : List Item} (h : Closed items) : Closed (printed items) := by
  have key : ∀ {structs : List Item}, Closed structs → (∀ x ∈ structs, x.category = .struct) →
      items.filter (·.category = .struct) ⊆ structs →
      Closed (structs ++ items.filter (·.category = .function)) := by
    intro structs hstructs hcat
    induction h with
    | nil => exact fun _ => (List.append_nil structs).symm ▸ hstructs
    | @snoc items x hitems hx hmem hneeds ih =>
      intro hsub
      rw [List.filter_append] at hsub
      have hclosed := ih fun y hy => hsub (List.mem_append_left _ hy)
      rw [List.filter_append]
      cases x with
      | struct s => simpa [Item.category] using hclosed
      | helper op s =>
        rw [← List.append_assoc]
        refine .snoc hclosed hx (fun h => ?_) fun y hy => ?_
        · rcases List.mem_append.1 h with h | h
          · cases hcat _ h
          · exact hmem (List.mem_filter.1 h).1
        · have hy := hneeds hy
          cases y with
          | struct t =>
            refine List.mem_append_left _ (hsub (List.mem_append_left _ ?_))
            exact List.mem_filter.2 ⟨hy, rfl⟩
          | helper op' t => exact List.mem_append_right _ (List.mem_filter.2 ⟨hy, rfl⟩)
  exact key h.filter_structs (by simp) fun _ hx => hx

/-- The declarations of a header, in order. -/
def Definitions.declarations (d : Definitions) : List Declaration :=
  d.bodies .struct ++ d.bodies .function

theorem Catalog.declarations_eq (c : Catalog) :
    c.definitions.declarations = (ShaderAlgebra.printed c.items).map Item.body := by
  have hbodies : ∀ k, c.definitions.bodies k = (c.items.filter (·.category = k)).map Item.body := by
    intro k
    rw [Registry.bodies, Catalog.definitions, List.filter_map, List.map_map]
    rfl
  rw [Definitions.declarations, hbodies, hbodies, ← List.map_append]
  rfl

/-- **The header of a catalog is well typed,** and its scope offers all of its items. -/
theorem Catalog.exists_scope (c : Catalog) :
    ∃ Δ, Scope.empty.checkAll c.definitions.declarations = some Δ ∧ (∀ x ∈ c.items, Δ.Offers x) ∧
      ∀ name, (∀ x ∈ c.items, x.name ≠ name) →
        Δ.structs.lookup name = none ∧ Δ.functions.lookup name = none := by
  obtain ⟨Δ, hcheck, hoffers, hfree⟩ := Glsl.Scope.exists_scope c.closed.printed
  refine ⟨Δ, by rw [c.declarations_eq, hcheck], fun x hx => hoffers x (mem_printed.2 hx), ?_⟩
  exact fun name h => hfree name fun y hy => h y (mem_printed.1 hy)

end ShaderAlgebra
