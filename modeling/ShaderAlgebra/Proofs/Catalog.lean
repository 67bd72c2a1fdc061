import ShaderAlgebra.Synth.Algebra
import ShaderAlgebra.Proofs.Names
import ShaderAlgebra.Proofs.KeyedLog

/-!
# Catalogs of definitions

Every definition that synthesis ever enters is an `Item`: the struct of a shape,
or the helper of an operation on a shape.  An item determines its key, its body
and the items that it needs (`Item.key_injective`, `Item.body`, `Item.needs`),
and the needs of an item are lighter than the item, so no definition goes in a circle
(`Item.weight_lt_of_mem_needs`).

A `Catalog` is a log of items in which every item stands after all that it needs.
It is what the registry of a session is at any time: an item that is present has
all its needs present, so a second request for it has nothing to do.
-/

namespace ShaderAlgebra

open Glsl (Term Binder Declaration Body)

/-- What a definition defines. -/
inductive Item where
  /-- The struct of a shape. -/
  | struct (shape : Shape)
  /-- The helper of an operation on a shape. -/
  | helper (op : Operation) (shape : Shape)
deriving DecidableEq, Repr

namespace Storage

mutual

/-- The structs of a storage, after those of its members. -/
def structs : Storage → List Item
  | native _ => []
  | record s ms => structsOfMembers ms ++ [.struct s]

/-- The structs of members. -/
def structsOfMembers : List (String × Storage) → List Item
  | [] => []
  | (_, part) :: rest => structs part ++ structsOfMembers rest

end

mutual

/-- The helpers of an entrywise operation on a storage, with the structs that they mention. -/
def helpers (op : Entrywise) : Storage → List Item
  | native _ => []
  | record s ms => structs (record s ms) ++ helpersOfMembers op ms ++ [.helper op.operation s]

/-- The helpers of an entrywise operation on members. -/
def helpersOfMembers (op : Entrywise) : List (String × Storage) → List Item
  | [] => []
  | (_, part) :: rest => helpers op part ++ helpersOfMembers op rest

end

mutual

/-- The term of a value with one number in every place. -/
def filled (value : Term) : Storage → Term
  | native s => fillNative value s
  | record s ms => .apply s.name (filledMembers value ms)

/-- The terms of members with one number in every place. -/
def filledMembers (value : Term) : List (String × Storage) → List Term
  | [] => []
  | (_, part) :: rest => filled value part :: filledMembers value rest

end

-- The catalogue unfolds these functions all over, so the equations are made here, once.
attribute [local simp] structs structsOfMembers helpers helpersOfMembers filled filledMembers

theorem structsOfMembers_map (ms : List (String × Shape)) :
    structsOfMembers (ms.map fun m => (m.1, m.2.storage)) = ms.flatMap fun m => m.2.storage.structs := by
  induction ms with
  | nil => rfl
  | cons m ms ih => rw [List.map_cons, structsOfMembers, ih, List.flatMap_cons]

theorem helpersOfMembers_map (op : Entrywise) (ms : List (String × Shape)) :
    helpersOfMembers op (ms.map fun m => (m.1, m.2.storage)) =
      ms.flatMap fun m => m.2.storage.helpers op := by
  induction ms with
  | nil => rfl
  | cons m ms ih => rw [List.map_cons, helpersOfMembers, ih, List.flatMap_cons]

theorem filledMembers_map (value : Term) (ms : List (String × Shape)) :
    filledMembers value (ms.map fun m => (m.1, m.2.storage)) =
      ms.map fun m => m.2.storage.filled value := by
  induction ms with
  | nil => rfl
  | cons m ms ih => rw [List.map_cons, filledMembers, ih, List.map_cons]

end Storage

namespace Shape

/-- The structs of a shape. -/
abbrev structs (s : Shape) : List Item :=
  s.storage.structs

/-- The helpers of an entrywise operation on a shape. -/
abbrev helpers (op : Entrywise) (s : Shape) : List Item :=
  s.storage.helpers op

/-- The term of a value with one number in every place. -/
abbrev filled (value : Term) (s : Shape) : Term :=
  s.storage.filled value

theorem structs_of_native {s : Shape} (h : s.isNative) : s.structs = [] := by
  rw [structs, storage_of_native h, Storage.structs]

theorem structs_of_record {s : Shape} (h : s.IsRecord) :
    s.structs = (s.members.flatMap fun m => m.2.structs) ++ [Item.struct s] := by
  rw [structs, storage_of_record h, Storage.structs, Storage.structsOfMembers_map]

theorem helpers_of_native (op : Entrywise) {s : Shape} (h : s.isNative) : s.helpers op = [] := by
  rw [helpers, storage_of_native h, Storage.helpers]

theorem helpers_of_record (op : Entrywise) {s : Shape} (h : s.IsRecord) :
    s.helpers op =
      s.structs ++ (s.members.flatMap fun m => m.2.helpers op) ++ [Item.helper op.operation s] := by
  rw [helpers, structs, storage_of_record h, Storage.helpers, Storage.helpersOfMembers_map]

theorem filled_of_native (value : Term) {s : Shape} (h : s.isNative) :
    s.filled value = Storage.fillNative value s := by
  rw [filled, storage_of_native h, Storage.filled]

theorem filled_of_record (value : Term) {s : Shape} (h : s.IsRecord) :
    s.filled value = .apply s.name (s.members.map fun m => m.2.filled value) := by
  rw [filled, storage_of_record h, Storage.filled, Storage.filledMembers_map]

/-- The term of an entrywise operation on two operands. -/
def combined (op : Entrywise) (s : Shape) (a b : Term) : Term :=
  if s.isNative then .grouped op.operator a b else .apply (op.operation.helperName s) [a, b]

end Shape

namespace Synth

/-- The helper of a dot product, with the structs that it mentions. -/
def dotItems (n : Nat) : List Item :=
  if n ≤ maxNativeWidth then [] else (Shape.realVector n).structs ++ [.helper .dot (.realVector n)]

/-- The term of a dot product. -/
def dotTerm (n : Nat) (a b : Term) : Term :=
  .apply (if n ≤ maxNativeWidth then "dot" else Operation.dot.helperName (.realVector n)) [a, b]

/-- The term of a real vector of its components. -/
def realVectorTerm (n : Nat) (args : List Term) : Term :=
  if n ≤ maxNativeWidth then nativeVector args
  else .apply (Shape.realVector n).name ((pieces (chunks n) args).map nativeVector)

/-- The term of a real matrix of its rows. -/
def realMatrixTerm (r c : Nat) (rows : List Term) : Term :=
  let s := Shape.matrix r c .real
  if s.isNative then
    .apply s.name ((List.range r).map fun k =>
      nativeVector (rows.map fun row => .index (.group row) k))
  else .apply s.name rows

/-- The term of a value of its elements. -/
def constructTerm (s : Shape) (args : List Term) : Term :=
  match s with
  | .scalar _ => args.headD default
  | .vector n .complex => .apply s.name
      [realVectorTerm n (args.map (Term.part · "x")), realVectorTerm n (args.map (Term.part · "y"))]
  | .vector n _ => realVectorTerm n args
  | .matrix r c .complex => .apply s.name
      [realMatrixTerm r c (args.map (Term.part · "real")),
        realMatrixTerm r c (args.map (Term.part · "imag"))]
  | .matrix r c _ => realMatrixTerm r c args

/-- The structs that taking an element relies on. -/
def elementItems (s : Shape) : List Item :=
  match s.kind, s.element? with
  | .complex, some e => e.structs
  | _, _ => []

/-- The term of an element of a value. -/
def elementTerm (s : Shape) (i : Nat) (base : Term) : Term :=
  match s.kind, s.element? with
  | .complex, some e =>
    .apply e.name [realElement s.part i (base.part "real"), realElement s.part i (base.part "imag")]
  | _, _ => realElement s i base

/-- The helper of a matrix product, with all that it relies on. -/
def matVecItems (r c : Nat) : List Item :=
  if (Shape.matrix r c .real).isNative then []
  else (Shape.matrix r c .real).structs ++ (Shape.realVector c).structs ++
    (Shape.realVector r).structs ++ dotItems c ++ [.helper .matVec (.matrix r c .real)]

/-- The term of a matrix product. -/
def matVecTerm (r c : Nat) (m v : Term) : Term :=
  let s := Shape.matrix r c .real
  if s.isNative then .grouped .times m v else .apply (Operation.matVec.helperName s) [m, v]

end Synth

namespace Item

/-- The category of an item. -/
def category : Item → Category
  | struct _ => .struct
  | helper _ _ => .function

/-- The name of an item. -/
def name : Item → String
  | struct s => s.name
  | helper op s => op.helperName s

/-- The items that are ever entered. -/
def Admissible : Item → Prop
  | struct s => s.IsRecord
  | helper op s => op.HasHelper s

/-- **An item is known by its key.** -/
theorem key_injective {x y : Item} (hx : x.Admissible) (hy : y.Admissible)
    (hc : x.category = y.category) (hn : x.name = y.name) : x = y := by
  cases x with
  | struct s =>
    cases y with
    | struct t => rw [Shape.name_injective hx.isTitled hy.isTitled hn]
    | helper op t => cases hc
  | helper op s =>
    cases y with
    | struct t => cases hc
    | helper op' t =>
      obtain ⟨rfl, rfl⟩ := Operation.helperName_injective hx hy hn
      rfl

/-- An item is known by its name alone. -/
theorem name_injective {x y : Item} (hx : x.Admissible) (hy : y.Admissible) (hn : x.name = y.name) :
    x = y := by
  cases x with
  | struct s =>
    cases y with
    | struct t => exact key_injective hx hy rfl hn
    | helper op t =>
      have h := Operation.ofHelperName_helperName op t
      rw [← show s.name = op.helperName t from hn, Operation.ofHelperName_name hx.isTitled] at h
      cases h
  | helper op s =>
    cases y with
    | helper op' t => exact key_injective hx hy rfl hn
    | struct t =>
      have h := Operation.ofHelperName_helperName op s
      rw [show op.helperName s = t.name from hn, Operation.ofHelperName_name hy.isTitled] at h
      cases h

/-- The helper of an entrywise operation: the operation on every member. -/
def entrywiseBody (op : Entrywise) (s : Shape) : Declaration :=
  .function s.name (op.operation.helperName s) [⟨op.leftType s, "a"⟩, ⟨s.name, "b"⟩]
    (.expression (.apply s.name (s.members.map fun m =>
      m.2.combined op (op.leftPart m.1) (.member (.name "b") m.1))))

/-- The helper of a matrix product: the dot product of every row with the vector. -/
def matVecBody (r c : Nat) : Declaration :=
  .function (Shape.realVector r).name (Operation.matVec.helperName (.matrix r c .real))
    [⟨(Shape.matrix r c .real).name, "a"⟩, ⟨(Shape.realVector c).name, "b"⟩]
    (.expression (Synth.realVectorTerm r ((List.range r).map fun k =>
      Synth.dotTerm c (.member (.name "a") s!"a{k}") (.name "b"))))

/-- The helper of a dot product: the sum of the dot products of the chunks. -/
def dotBody (s : Shape) : Declaration :=
  .function Shape.real.name (Operation.dot.helperName s) [⟨s.name, "a"⟩, ⟨s.name, "b"⟩]
    (.expression (Term.total (s.members.map fun m =>
      .apply "dot" [.member (.name "a") m.1, .member (.name "b") m.1])))

/-- One line of a helper that adds up elements. -/
def sumLine (s e : Shape) (k : Nat) : List Glsl.Statement :=
  [.assign "res" (e.combined .add (.name "res") (Synth.elementTerm s k (.name "a")))]

/-- The helper of a sum of `n` elements of shape `e`. -/
def sumBody (s e : Shape) (n : Nat) : Declaration :=
  .function e.name (Operation.sum.helperName s) [⟨s.name, "a"⟩]
    (.block ([.define e.name "res" (e.filled (.literal .zero))] ::
      (List.range n).map (sumLine s e) ++ [[.yield (.name "res")]]))

/-- The statements of a helper that adds up elements. -/
theorem flatten_sumLines (s e : Shape) (n : Nat) :
    ([Glsl.Statement.define e.name "res" (e.filled (.literal .zero))] ::
      (List.range n).map (sumLine s e) ++ [[Glsl.Statement.yield (.name "res")]]).flatten =
      .define e.name "res" (e.filled (.literal .zero)) ::
        (((List.range n).map fun k => e.combined .add (.name "res")
          (Synth.elementTerm s k (.name "a"))).map (.assign "res") ++
            [Glsl.Statement.yield (.name "res")]) := by
  have hsingle : ((List.range n).map (sumLine s e)).flatten = (List.range n).map fun k =>
      .assign "res" (e.combined .add (.name "res") (Synth.elementTerm s k (.name "a"))) := by
    rw [← List.flatMap_def, List.map_eq_flatMap]
    rfl
  simp [hsingle]

/-- The helper of a product of complex scalars. -/
def complexMulBody : Declaration :=
  let product := fun (x y : String) =>
    Term.binary .tight .times (.member (.name "a") x) (.member (.name "b") y)
  .function "vec2" (Operation.complexMul.helperName .complex) [⟨"vec2", "a"⟩, ⟨"vec2", "b"⟩]
    (.expression (.call .loose "vec2"
      [.binary .tight .minus (product "x" "x") (product "y" "y"),
        .binary .tight .plus (product "x" "y") (product "y" "x")]))

/-- The helper of a complex scalar times a complex value. -/
def complexScaleBody (s : Shape) : Declaration :=
  let multiple := fun (x field : String) =>
    s.part.combined .scale (.member (.name "a") x) (.member (.name "b") field)
  .function s.name (Operation.complexScale.helperName s) [⟨"vec2", "a"⟩, ⟨s.name, "b"⟩]
    (.expression (.apply s.name
      [s.part.combined .sub (multiple "x" "real") (multiple "y" "imag"),
        s.part.combined .add (multiple "x" "imag") (multiple "y" "real")]))

/-- The helper of a complex matrix product. -/
def complexMatVecBody (r c : Nat) : Declaration :=
  let product := fun (x y : String) =>
    Synth.matVecTerm r c (.member (.name "a") x) (.member (.name "b") y)
  .function (Shape.vector r .complex).name (Operation.complexMatVec.helperName (.matrix r c .complex))
    [⟨(Shape.matrix r c .complex).name, "a"⟩, ⟨(Shape.vector c .complex).name, "b"⟩]
    (.expression (.apply (Shape.vector r .complex).name
      [(Shape.realVector r).combined .sub (product "real" "real") (product "imag" "imag"),
        (Shape.realVector r).combined .add (product "real" "imag") (product "imag" "real")]))

/-- The helper of a complex dot product. -/
def complexDotBody (n : Nat) : Declaration :=
  let s := Shape.vector n .complex
  let product := fun (x y : String) =>
    Synth.dotTerm n (.member (.name "a") x) (.member (.name "b") y)
  .function "vec2" (Operation.complexDot.helperName s) [⟨s.name, "a"⟩, ⟨s.name, "b"⟩]
    (.expression (.call .loose "vec2"
      [.binary .tight .minus (product "real" "real") (product "imag" "imag"),
        .binary .tight .plus (product "real" "imag") (product "imag" "real")]))

/-- The body of an item. -/
def body : Item → Declaration
  | struct s => .struct s.name (s.members.map fun m => ⟨m.2.name, m.1⟩)
  | helper .add s => entrywiseBody .add s
  | helper .sub s => entrywiseBody .sub s
  | helper .scale s => entrywiseBody .scale s
  | helper .matVec s => matVecBody (Operation.dimensions s).1 (Operation.dimensions s).2
  | helper .dot s => dotBody s
  | helper .sum s => sumBody s (s.element?.getD s) (s.length?.getD 0)
  | helper .complexMul _ => complexMulBody
  | helper .complexScale s => complexScaleBody s
  | helper .complexMatVec s => complexMatVecBody (Operation.dimensions s).1 (Operation.dimensions s).2
  | helper .complexDot s => complexDotBody (Operation.dimensions s).1

/-- The items that an item needs, and all that those need. -/
def needs : Item → List Item
  | struct s => s.members.flatMap fun m => m.2.structs
  | helper .add s => s.structs ++ s.members.flatMap fun m => m.2.helpers .add
  | helper .sub s => s.structs ++ s.members.flatMap fun m => m.2.helpers .sub
  | helper .scale s => s.structs ++ s.members.flatMap fun m => m.2.helpers .scale
  | helper .matVec s =>
    let (r, c) := Operation.dimensions s
    s.structs ++ (Shape.realVector c).structs ++ (Shape.realVector r).structs ++ Synth.dotItems c
  | helper .dot s => s.structs
  | helper .sum s => s.structs ++ (s.element?.getD s).structs ++ (s.element?.getD s).helpers .add
  | helper .complexMul _ => []
  | helper .complexScale s =>
    s.structs ++ s.part.helpers .scale ++ s.part.helpers .sub ++ s.part.helpers .add
  | helper .complexMatVec s =>
    let (r, c) := Operation.dimensions s
    s.structs ++ (Shape.vector c .complex).structs ++ (Shape.vector r .complex).structs ++
      Synth.matVecItems r c ++ (Shape.realVector r).helpers .sub ++ (Shape.realVector r).helpers .add
  | helper .complexDot s => s.structs ++ Synth.dotItems (Operation.dimensions s).1

/-- The entry of an item in a registry. -/
def entry (x : Item) : Entry Declaration :=
  ⟨x.category, x.name, x.body⟩

/-- The operations in layers: a helper calls helpers of lower layers, or of its own layer on the
members of its shape. -/
def layer : Operation → Nat
  | .add | .sub | .scale | .dot | .complexMul => 1
  | .matVec | .sum | .complexScale | .complexDot => 2
  | .complexMatVec => 3

/-- The height of an item above the definitions that need nothing. -/
def weight : Item → Nat
  | struct s => s.nesting
  | helper op s => 4 * layer op + s.nesting

theorem nesting_le (s : Shape) : s.nesting ≤ 3 := by
  cases s with
  | scalar k => exact Nat.zero_le _
  | vector n k => cases k <;> simp only [Shape.nesting] <;> (try split) <;> decide
  | matrix r c k => cases k <;> simp only [Shape.nesting] <;> decide

/-- The structs of a shape are no heavier than its own. -/
theorem weight_le_of_mem_structs {s : Shape} (h : s.Valid) :
    ∀ y ∈ s.structs, y.weight ≤ s.nesting := by
  induction s, h using Shape.inductionOn with
  | native s hv hn =>
    intro y hy
    rw [Shape.structs_of_native hn] at hy
    cases hy
  | record s hs ih =>
    intro y hy
    rw [Shape.structs_of_record hs, List.mem_append, List.mem_flatMap, List.mem_singleton] at hy
    rcases hy with ⟨m, hm, hy⟩ | rfl
    · exact Nat.le_of_lt (Nat.lt_of_le_of_lt (ih m hm y hy) (Shape.nesting_lt_of_mem_members hs hm))
    · exact Nat.le_refl _

/-- The helpers of an entrywise operation on a shape are no heavier than its own. -/
theorem weight_le_of_mem_helpers (op : Entrywise) {s : Shape} (h : s.Valid) :
    ∀ y ∈ s.helpers op, y.weight ≤ 4 + s.nesting := by
  induction s, h using Shape.inductionOn with
  | native s hv hn =>
    intro y hy
    rw [Shape.helpers_of_native op hn] at hy
    cases hy
  | record s hs ih =>
    intro y hy
    rw [Shape.helpers_of_record op hs, List.mem_append, List.mem_append, List.mem_flatMap,
      List.mem_singleton] at hy
    rcases hy with (hy | ⟨m, hm, hy⟩) | rfl
    · have := weight_le_of_mem_structs hs.1 y hy
      omega
    · have := ih m hm y hy
      have := Shape.nesting_lt_of_mem_members hs hm
      omega
    · cases op <;> exact Nat.le_refl _

/-- Items that are all lighter than `w`. -/
def Below (w : Nat) (items : List Item) : Prop :=
  ∀ y ∈ items, y.weight < w

theorem below_append {w : Nat} {xs ys : List Item} :
    Below w (xs ++ ys) ↔ Below w xs ∧ Below w ys :=
  List.forall_mem_append

/-- The structs of a shape lie below the first layer. -/
theorem below_structs {s : Shape} (h : s.Valid) {w : Nat} (hw : 4 ≤ w) : Below w s.structs := by
  intro y hy
  have := weight_le_of_mem_structs h y hy
  have := nesting_le s
  omega

/-- The helpers of an entrywise operation lie in the first layer. -/
theorem below_helpers (op : Entrywise) {s : Shape} (h : s.Valid) {w : Nat} (hw : 8 ≤ w) :
    Below w (s.helpers op) := by
  intro y hy
  have := weight_le_of_mem_helpers op h y hy
  have := nesting_le s
  omega

theorem below_dotItems {n : Nat} (h : 1 ≤ n ∧ n ≤ maxDimension) {w : Nat} (hw : 8 ≤ w) :
    Below w (Synth.dotItems n) := by
  unfold Synth.dotItems
  split
  · exact List.forall_mem_nil _
  · refine below_append.2 ⟨below_structs (Shape.realVector_valid h) (by omega), ?_⟩
    rw [Below, List.forall_mem_singleton, weight, layer]
    have := nesting_le (.realVector n)
    omega

theorem below_matVecItems {r c : Nat} (hr : 1 ≤ r ∧ r ≤ maxDimension)
    (hc : 1 ≤ c ∧ c ≤ maxDimension) {w : Nat} (hw : 12 ≤ w) : Below w (Synth.matVecItems r c) := by
  unfold Synth.matVecItems
  split
  · exact List.forall_mem_nil _
  · simp only [below_append]
    refine ⟨⟨⟨⟨below_structs (Shape.realMatrix_valid hr hc) (by omega),
      below_structs (Shape.realVector_valid hc) (by omega)⟩,
      below_structs (Shape.realVector_valid hr) (by omega)⟩, below_dotItems hc (by omega)⟩, ?_⟩
    rw [Below, List.forall_mem_singleton, weight, layer]
    have := nesting_le (.matrix r c .real)
    omega

/-- What an entrywise helper needs lies in its own layer, where its members are nested less. -/
theorem below_entrywise (op : Entrywise) {s : Shape} (hs : s.IsRecord) :
    Below (4 + s.nesting) (s.structs ++ s.members.flatMap fun m => m.2.helpers op) := by
  refine below_append.2 ⟨below_structs hs.1 (Nat.le_add_right _ _), ?_⟩
  intro y hy
  obtain ⟨m, hm, hy⟩ := List.mem_flatMap.1 hy
  have := weight_le_of_mem_helpers op (Shape.valid_of_mem_members hs hm) y hy
  have := Shape.nesting_lt_of_mem_members hs hm
  omega

/-- **No definition goes in a circle:** what an item needs is lighter than the item. -/
theorem weight_lt_of_mem_needs {x : Item} (hx : x.Admissible) : Below x.weight x.needs := by
  cases x with
  | struct s =>
    intro y hy
    obtain ⟨m, hm, hy⟩ := List.mem_flatMap.1 hy
    exact Nat.lt_of_le_of_lt
      (weight_le_of_mem_structs (Shape.valid_of_mem_members hx hm) y hy)
      (Shape.nesting_lt_of_mem_members hx hm)
  | helper op s =>
    -- all but the entrywise helpers need items of lower layers only
    have hlayer : 4 * layer op ≤ (helper op s).weight := Nat.le_add_right _ _
    cases op with
    | add | sub | scale => exact below_entrywise _ hx
    | matVec =>
      obtain ⟨r, c, rfl, -, hr, hc⟩ := Operation.HasHelper.matVec hx
      have hw : 8 ≤ (helper .matVec (.matrix r c .real)).weight := hlayer
      simp only [needs, Operation.dimensions, below_append]
      exact ⟨⟨⟨below_structs hx.1.1 (by omega), below_structs (Shape.realVector_valid hc) (by omega)⟩,
        below_structs (Shape.realVector_valid hr) (by omega)⟩, below_dotItems hc hw⟩
    | dot => exact below_structs hx.1.1 hlayer
    | sum =>
      obtain ⟨e, n, he, hn, hev, -⟩ := Operation.HasHelper.sum hx
      have hw : 8 ≤ (helper .sum s).weight := hlayer
      simp only [needs, he, Option.getD_some, below_append]
      exact ⟨⟨below_structs hx.1.1 (by omega), below_structs hev (by omega)⟩, below_helpers _ hev hw⟩
    | complexMul => exact List.forall_mem_nil _
    | complexScale =>
      have hp := (Operation.HasHelper.complexScale hx).1
      have hw : 8 ≤ (helper .complexScale s).weight := hlayer
      simp only [needs, below_append]
      exact ⟨⟨⟨below_structs hx.1.1 (by omega), below_helpers _ hp hw⟩, below_helpers _ hp hw⟩,
        below_helpers _ hp hw⟩
    | complexMatVec =>
      obtain ⟨r, c, rfl, hr, hc⟩ := Operation.HasHelper.complexMatVec hx
      have hw : 12 ≤ (helper .complexMatVec (.matrix r c .complex)).weight := hlayer
      have hv := Shape.realVector_valid hr
      simp only [needs, Operation.dimensions, below_append]
      exact ⟨⟨⟨⟨⟨below_structs hx.1.1 (by omega),
        below_structs (Shape.complexVector_valid hc) (by omega)⟩,
        below_structs (Shape.complexVector_valid hr) (by omega)⟩, below_matVecItems hr hc hw⟩,
        below_helpers _ hv (by omega)⟩, below_helpers _ hv (by omega)⟩
    | complexDot =>
      obtain ⟨n, rfl, hn⟩ := Operation.HasHelper.complexDot hx
      have hw : 8 ≤ (helper .complexDot (.vector n .complex)).weight := hlayer
      simp only [needs, Operation.dimensions, below_append]
      exact ⟨below_structs hx.1.1 (by omega), below_dotItems hn hw⟩

/-- An item does not need itself. -/
theorem not_mem_needs {x : Item} (hx : x.Admissible) : x ∉ x.needs := fun h =>
  Nat.lt_irrefl _ (weight_lt_of_mem_needs hx x h)

end Item

/-- Items in an order in which each stands once, after all that it needs. -/
inductive Closed : List Item → Prop where
  | nil : Closed []
  | snoc {items : List Item} {x : Item} :
      Closed items → x.Admissible → x ∉ items → x.needs ⊆ items → Closed (items ++ [x])

namespace Closed

theorem admissible {items : List Item} (h : Closed items) : ∀ x ∈ items, x.Admissible := by
  induction h with
  | nil => intro x hx; cases hx
  | snoc _ hx _ _ ih =>
    intro y hy
    rcases List.mem_append.1 hy with hy | hy
    · exact ih y hy
    · exact List.mem_singleton.1 hy ▸ hx

theorem needs_subset {items : List Item} (h : Closed items) : ∀ x ∈ items, x.needs ⊆ items := by
  induction h with
  | nil => intro x hx; cases hx
  | snoc _ _ _ hn ih =>
    intro y hy z hz
    refine List.mem_append_left _ ?_
    rcases List.mem_append.1 hy with hy | hy
    · exact ih y hy hz
    · exact hn (List.mem_singleton.1 hy ▸ hz)

theorem nodup {items : List Item} (h : Closed items) : items.Nodup := by
  induction h with
  | nil => exact List.nodup_nil
  | snoc _ _ hx _ ih =>
    refine List.nodup_append.2 ⟨ih, by simp, ?_⟩
    rintro a ha b hb rfl
    exact hx (List.mem_singleton.1 hb ▸ ha)

end Closed

/-- Enters items at the end, one after the other, unless they are there. -/
def enterAll (items : List Item) : List Item → List Item
  | [] => items
  | x :: xs => enterAll (if x ∈ items then items else items ++ [x]) xs

theorem enterAll_append (items xs ys : List Item) :
    enterAll items (xs ++ ys) = enterAll (enterAll items xs) ys := by
  induction xs generalizing items with
  | nil => rfl
  | cons x xs ih => exact ih _

theorem mem_enterAll {items xs : List Item} {y : Item} :
    y ∈ enterAll items xs ↔ y ∈ items ∨ y ∈ xs := by
  induction xs generalizing items with
  | nil => simp [enterAll]
  | cons x xs ih =>
    rw [enterAll, ih, List.mem_cons]
    split
    · rename_i hx
      constructor
      · rintro (h | h)
        · exact .inl h
        · exact .inr (.inr h)
      · rintro (h | rfl | h)
        · exact .inl h
        · exact .inl hx
        · exact .inr h
    · rw [List.mem_append, List.mem_singleton, or_assoc]

/-- What is there already is not entered again. -/
theorem enterAll_of_subset {items xs : List Item} (h : xs ⊆ items) : enterAll items xs = items := by
  induction xs with
  | nil => rfl
  | cons x xs ih =>
    rw [enterAll, if_pos (h List.mem_cons_self)]
    exact ih fun y hy => h (List.mem_cons_of_mem _ hy)

/-- **A log of definitions,** each after all that it needs. -/
structure Catalog where
  items : List Item
  closed : Closed items

namespace Catalog

/-- The catalog without items. -/
def empty : Catalog :=
  ⟨[], .nil⟩

/-- The registry that a catalog stands for. -/
def definitions (c : Catalog) : Definitions :=
  { entries := c.items.map Item.entry }

/-- **An item is present exactly when its key is.** -/
theorem contains_iff (c : Catalog) {x : Item} (hx : x.Admissible) :
    c.definitions.contains x.category x.name ↔ x ∈ c.items := by
  simp only [Registry.contains_eq_any, definitions, List.any_map, List.any_eq_true]
  constructor
  · rintro ⟨y, hy, hk⟩
    simp only [Function.comp_apply, Registry.keyed, Item.entry, Bool.and_eq_true, beq_iff_eq] at hk
    exact Item.key_injective (c.closed.admissible y hy) hx hk.1 hk.2 ▸ hy
  · intro h
    exact ⟨x, h, by simp [Registry.keyed, Item.entry]⟩

/-- The catalog with one more item at its end. -/
def push (c : Catalog) (x : Item) (hx : x.Admissible) (hn : x ∉ c.items) (hs : x.needs ⊆ c.items) :
    Catalog :=
  ⟨c.items ++ [x], .snoc c.closed hx hn hs⟩

theorem push_definitions (c : Catalog) {x : Item} (hx : x.Admissible) (hn : x ∉ c.items)
    (hs : x.needs ⊆ c.items) :
    (c.push x hx hn hs).definitions = c.definitions.push x.category x.name x.body := by
  refine Registry.eq_of_entries ?_
  simp [definitions, push, Item.entry]

/-- The definitions of a catalog have distinct keys. -/
theorem distinct (c : Catalog) : c.definitions.Distinct := by
  rw [Registry.Distinct, Registry.keys, definitions, List.map_map]
  refine List.Nodup.map_on (fun x hx y hy hkey => ?_) c.closed.nodup
  obtain ⟨hcategory, hname⟩ := Prod.mk.inj hkey
  exact Item.key_injective (c.closed.admissible x hx) (c.closed.admissible y hy) hcategory hname

end Catalog
end ShaderAlgebra
