import ShaderAlgebra.Proofs.Catalog
import ShaderAlgebra.Proofs.Layout

/-!
# A type checker for generated shaders

The types of the GLSL subset that is generated: floats, vectors, square matrices
and structs.  A `Scope` holds the structs and the functions that were declared so
far.  `Scope.typeOf` is the type of a term, `Scope.check` declares one more
struct or function, and a header is well typed if its declarations can be made
one after the other, from nothing (`Scope.checkAll`): what a declaration
mentions has to stand before it.

A scope *offers* an item if it has the struct or function of the item as
the item declares it.  What a declaration may rely on is always said this way.
-/

namespace ShaderAlgebra
namespace Glsl

/-- The number of floats in a float or a vector. -/
def width? : String → Option Nat
  | "float" => some 1
  | "vec2" => some 2
  | "vec3" => some 3
  | "vec4" => some 4
  | _ => none

/-- The type of that many floats. -/
def typeOfWidth : Nat → Option String
  | 1 => some "float"
  | 2 => some "vec2"
  | 3 => some "vec3"
  | 4 => some "vec4"
  | _ => none

/-- The number of columns of a matrix. -/
def order? : String → Option Nat
  | "mat2" => some 2
  | "mat3" => some 3
  | "mat4" => some 4
  | _ => none

/-- Floats, vectors and matrices, which operators act on. -/
def isNumeric (type : String) : Bool :=
  (width? type).isSome || (order? type).isSome

/-- The component of a vector that a letter stands for. -/
def component? : Char → Option Nat
  | 'x' | 'r' => some 0
  | 'y' | 'g' => some 1
  | 'z' | 'b' => some 2
  | 'w' | 'a' => some 3
  | _ => none

/-- The type of some components of a vector of `n` floats; a float has none. -/
def swizzleType (n : Nat) (field : String) : Option String :=
  if 2 ≤ n ∧ field.toList.all fun c => (component? c).any (· < n) then typeOfWidth field.toList.length
  else none

/-- The type of an element of a vector, or of a column of a matrix. -/
def elementType (type : String) (i : Nat) : Option String :=
  match width? type, order? type with
  | some n, _ => if 2 ≤ n ∧ i < n then some "float" else none
  | none, some n => if i < n then typeOfWidth n else none
  | none, none => none

/-- The type of an operation.  A float goes with every operand; a matrix takes vectors to
vectors. -/
def operatorType (op : Operator) (a b : String) : Option String :=
  match op with
  | .plus | .minus | .times =>
    if isNumeric a && isNumeric b then
      if a = b then some a
      else if a = "float" then some b
      else if b = "float" then some a
      else if op = .times ∧ (order? a).isSome ∧ order? a = width? b then some b
      else if op = .times ∧ (width? a).isSome ∧ width? a = order? b then some a
      else none
    else none
  | .divide | .atMost | .and => none

/-- What a call of a builtin gives, from the types of its arguments: a vector is made of one float
or of as many floats as it has, a matrix of its columns. -/
def builtinType (f : String) (args : List String) : Option String :=
  match width? f, order? f with
  | some n, _ =>
    if args = ["float"] ∨ (args.mapM width?).map List.sum = some n then some f else none
  | none, some n => if args.mapM width? = some (List.replicate n n) then some f else none
  | none, none =>
    match args with
    | [a, b] => if f = "dot" ∧ a = b ∧ (width? a).isSome then some "float" else none
    | _ => none

/-- The types of the parameters of a function and of its result. -/
structure Signature where
  parameters : List String
  result : String
deriving DecidableEq, Repr

/-- The structs and functions that were declared. -/
structure Scope where
  structs : List (String × List Binder)
  functions : List (String × Signature)
deriving DecidableEq, Repr

/-- The type of a variable. -/
def typeOfVar (vars : List Binder) (x : String) : Option String :=
  (vars.find? (·.name == x)).map (·.type)

namespace Scope

/-- Nothing declared. -/
def empty : Scope :=
  ⟨[], []⟩

/-- The type of a member of a struct, or of components of a vector. -/
def memberType (Δ : Scope) (type field : String) : Option String :=
  match width? type with
  | some n => swizzleType n field
  | none => (Δ.structs.lookup type).bind fun members => typeOfVar members field

/-- What a call gives, from the types of its arguments. -/
def callType (Δ : Scope) (f : String) (args : List String) : Option String :=
  if f ∈ builtinNames then builtinType f args
  else match Δ.structs.lookup f, Δ.functions.lookup f with
    | some members, _ => if members.map (·.type) = args then some f else none
    | none, some signature => if signature.parameters = args then some signature.result else none
    | none, none => none

mutual

/-- The type of a term over variables. -/
def typeOf (Δ : Scope) (vars : List Binder) : Term → Option String
  | .raw _ => none
  | .literal _ => some "float"
  | .name x => typeOfVar vars x
  | .member base field => (typeOf Δ vars base).bind fun type => Δ.memberType type field
  | .index base i => (typeOf Δ vars base).bind fun type => elementType type i
  | .call _ f args => (typesOf Δ vars args).bind fun types => Δ.callType f types
  | .binary _ op lhs rhs =>
    (typeOf Δ vars lhs).bind fun a => (typeOf Δ vars rhs).bind fun b => operatorType op a b
  | .negate term => (typeOf Δ vars term).bind fun type => if isNumeric type then some type else none
  | .group term => typeOf Δ vars term

/-- The types of terms. -/
def typesOf (Δ : Scope) (vars : List Binder) : List Term → Option (List String)
  | [] => some []
  | t :: ts => (typeOf Δ vars t).bind fun type => (typesOf Δ vars ts).map (type :: ·)

end

/-- The type that statements return, if each of them is right: a variable is defined once and keeps
its type, and the last statement returns. -/
def statementsType (Δ : Scope) (vars : List Binder) : List Statement → Option String
  | [.yield value] => Δ.typeOf vars value
  | .define type x value :: rest =>
    if Δ.typeOf vars value = some type ∧ typeOfVar vars x = none then
      statementsType Δ (vars ++ [⟨type, x⟩]) rest
    else none
  | .assign x value :: rest =>
    if (typeOfVar vars x).isSome ∧ Δ.typeOf vars value = typeOfVar vars x then
      statementsType Δ vars rest
    else none
  | _ => none

/-- The type that a body returns. -/
def bodyType (Δ : Scope) (parameters : List Binder) : Body → Option String
  | .expression value => Δ.typeOf parameters value
  | .block lines => Δ.statementsType parameters lines.flatten

/-- Whether a type is a builtin one or a struct that was declared. -/
def isType (Δ : Scope) (type : String) : Bool :=
  isNumeric type || (Δ.structs.lookup type).isSome

/-- Whether nothing has the name yet. -/
def isFree (Δ : Scope) (name : String) : Bool :=
  !builtinNames.contains name && (Δ.structs.lookup name).isNone && (Δ.functions.lookup name).isNone

/-- Whether binders have distinct names and types that are there. -/
def areBinders (Δ : Scope) (binders : List Binder) : Bool :=
  binders.all (fun b => Δ.isType b.type) && decide (binders.map (·.name)).Nodup

/-- The scope with one more declaration, if the declaration is right. -/
def check (Δ : Scope) : Declaration → Option Scope
  | .uniform _ => none
  | .struct name members =>
    if Δ.isFree name ∧ Δ.areBinders members then
      some { Δ with structs := Δ.structs ++ [(name, members)] }
    else none
  | .function result name parameters body =>
    if Δ.isFree name ∧ Δ.areBinders parameters ∧ Δ.isType result ∧
        Δ.bodyType parameters body = some result then
      some { Δ with functions := Δ.functions ++ [(name, ⟨parameters.map (·.type), result⟩)] }
    else none

/-- The scope with declarations in order, if each of them is right. -/
def checkAll (Δ : Scope) (declarations : List Declaration) : Option Scope :=
  declarations.foldlM check Δ

/-! ## Types of terms -/

variable {Δ : Scope} {vars : List Binder}

attribute [local simp] typeOf typesOf statementsType

@[simp] theorem typeOf_group (t : Term) : Δ.typeOf vars (.group t) = Δ.typeOf vars t := by
  rw [typeOf]

/-- The type of an operation in parentheses. -/
theorem typeOf_grouped {op : Operator} {a b : Term} {x y z : String} (ha : Δ.typeOf vars a = some x)
    (hb : Δ.typeOf vars b = some y) (ho : operatorType op x y = some z) :
    Δ.typeOf vars (.grouped op a b) = some z := by
  rw [Term.grouped, typeOf_group, typeOf, ha, hb]
  exact ho

theorem typeOf_call {spacing : Spacing} {f : String} {args : List Term} {types : List String}
    (h : Δ.typesOf vars args = some types) :
    Δ.typeOf vars (.call spacing f args) = Δ.callType f types := by
  rw [typeOf, h, Option.bind_some]

/-- The types of terms that are made one by one. -/
theorem typesOf_map {α : Type} {f : α → Term} {g : α → String} {l : List α}
    (h : ∀ x ∈ l, Δ.typeOf vars (f x) = some (g x)) :
    Δ.typesOf vars (l.map f) = some (l.map g) := by
  induction l with
  | nil => rfl
  | cons x l ih =>
    rw [List.map_cons, typesOf, h x List.mem_cons_self, Option.bind_some,
      ih fun y hy => h y (List.mem_cons_of_mem _ hy)]
    rfl

/-- The types of terms of one type. -/
theorem typesOf_replicate {args : List Term} {type : String}
    (h : ∀ t ∈ args, Δ.typeOf vars t = some type) :
    Δ.typesOf vars args = some (List.replicate args.length type) := by
  have := typesOf_map (f := id) (g := fun _ => type) h
  rwa [List.map_id, List.map_const'] at this

theorem typesOf_pair {a b : Term} {x y : String} (ha : Δ.typeOf vars a = some x)
    (hb : Δ.typeOf vars b = some y) : Δ.typesOf vars [a, b] = some [x, y] := by
  simp [ha, hb]

theorem typesOf_singleton {a : Term} {x : String} (ha : Δ.typeOf vars a = some x) :
    Δ.typesOf vars [a] = some [x] := by
  simp [ha]

/-! ## What a scope offers -/

/-- The scope has the struct or the function of an item. -/
def Offers (Δ : Scope) (x : Item) : Prop :=
  match x.body with
  | .uniform _ => False
  | .struct name members => Δ.structs.lookup name = some members
  | .function result name parameters _ => Δ.structs.lookup name = none ∧
      Δ.functions.lookup name = some ⟨parameters.map (·.type), result⟩

end Scope
end Glsl
end ShaderAlgebra
