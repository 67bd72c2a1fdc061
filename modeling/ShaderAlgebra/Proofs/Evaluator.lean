import Mathlib.Algebra.BigOperators.Group.List.Basic
import Mathlib.Algebra.Order.Floor.Ring
import Mathlib.Data.List.Forall2
import Mathlib.Data.Rat.Floor
import ShaderAlgebra.Texture
import ShaderAlgebra.Proofs.Parser
import ShaderAlgebra.Proofs.Typing

/-!
# Evaluating shaders

The values of the GLSL subset that is generated, over the rationals, and what
expressions evaluate to in a library of structs and functions.  A step that has no
meaning (a member that is not there, vectors of different lengths) is stuck and gives no value.

A function sees the definitions that stand before it and no others, so a call is evaluated by
recursion on the library (`Library.call`).  Proofs use one equation for each kind of term.
-/

namespace ShaderAlgebra
namespace Glsl

/-- A value.  A matrix is the list of its columns; integers and booleans only pass through. -/
inductive Value where
  | bool (value : Bool)
  | int (value : ℤ)
  | float (value : ℚ)
  | vec (entries : List ℚ)
  | mat (columns : List (List ℚ))
  | struct (name : String) (members : List (String × Value))

namespace Value

/-- All numbers of a native value, in order. -/
def flatten : Value → Option (List ℚ)
  | float x => some [x]
  | vec xs => some xs
  | mat columns => some columns.flatten
  | bool _ | int _ | struct .. => none

/-- A member of a struct, or components of a vector. -/
def member (v : Value) (field : String) : Option Value :=
  match v with
  | struct _ members => members.lookup field
  | vec xs => do
    let picked ← field.toList.mapM fun c => do
      let k ← component? c
      xs[k]?
    match picked with
    | [x] => some (float x)
    | picked => some (vec picked)
  | _ => none

/-- An element of a vector, or a column of a matrix. -/
def index (v : Value) (k : Nat) : Option Value :=
  match v with
  | vec xs => xs[k]?.map float
  | mat columns => columns[k]?.map vec
  | _ => none

/-- A number as an index, rounded down. -/
def asIndex : Value → Option Nat
  | float x => some ⌊x⌋.toNat
  | _ => none

end Value

/-- What an operator does with numbers. -/
def Operator.act : Operator → Option (ℚ → ℚ → ℚ)
  | plus => some (· + ·)
  | minus => some (· - ·)
  | times => some (· * ·)
  | divide | atMost | and => none

/-- A matrix times a vector: entry `i` adds up entry `i` of every column, times its entry of the
vector. -/
def transform (columns : List (List ℚ)) (xs : List ℚ) : Option Value :=
  match columns with
  | [] => none
  | column :: _ =>
    if columns.all (·.length = column.length) ∧ columns.length = xs.length then
      some (.vec ((List.range column.length).map fun i =>
        (List.zipWith (fun (c : List ℚ) x => c.getD i 0 * x) columns xs).sum))
    else none

/-- An operation on two values.  A number goes with every operand. -/
def combine (op : Operator) (a b : Value) : Option Value := do
  let f ← op.act
  match a, b with
  | .float x, .float y => some (.float (f x y))
  | .vec xs, .vec ys =>
    if xs.length = ys.length then some (.vec (List.zipWith f xs ys)) else none
  | .float x, .vec ys => some (.vec (ys.map (f x)))
  | .vec xs, .float y => some (.vec (xs.map (f · y)))
  | .mat columns, .vec xs => if op = .times then transform columns xs else none
  | .mat cs, .mat ds =>
    if op ≠ .times ∧ cs.map List.length = ds.map List.length then
      some (.mat (List.zipWith (List.zipWith f) cs ds))
    else none
  | .float x, .mat columns | .mat columns, .float x =>
    if op = .times then some (.mat (columns.map (·.map (x * ·)))) else none
  | _, _ => none

/-- A call of a builtin: a vector of one number or of as many as it has, a matrix of its columns, a
dot product. -/
def callBuiltin (f : String) (args : List Value) : Option Value :=
  match width? f, order? f with
  | some 1, _ =>
    match args with
    | [.float x] => some (.float x)
    | _ => none
  | some n, _ =>
    match args with
    | [.float x] => some (.vec (List.replicate n x))
    | args => do
      let parts ← args.mapM Value.flatten
      if parts.flatten.length = n then some (.vec parts.flatten) else none
  | none, some n => do
    let columns ← args.mapM Value.flatten
    if columns.map List.length = List.replicate n n then some (.mat columns) else none
  | none, none =>
    match args with
    | [a, b] => do
      let xs ← a.flatten
      let ys ← b.flatten
      if f = "dot" ∧ xs.length = ys.length then some (.float (List.zipWith (· * ·) xs ys).sum) else none
    | _ => none

/-- A point of the plane. -/
abbrev Plane := ℚ × ℚ

/-- How many channels are read. -/
def channelCount : Channels → Nat
  | .rgba => 4
  | .rgb => 3

/-- What images show: channels of an image with its bottom edge from one point to another, at a third
point. -/
abbrev Sampler :=
  (channels : Channels) → String → Plane → Plane → Plane → Fin (channelCount channels) → ℚ

/-- The channels and the image that a reader is named for. -/
def readerOf? (f : String) : Option (Channels × String) :=
  match f.toList with
  | '_' :: 'i' :: 'm' :: 'a' :: 'g' :: 'e' :: 'r' :: 'g' :: 'b' :: 'a' :: '_' :: image =>
    some (.rgba, String.ofList image)
  | '_' :: 'i' :: 'm' :: 'a' :: 'g' :: 'e' :: 'r' :: 'g' :: 'b' :: '_' :: image =>
    some (.rgb, String.ofList image)
  | _ => none

/-- A call of a reader. -/
def callReader (σ : Sampler) (f : String) (args : List Value) : Option Value := do
  let (channels, image) ← readerOf? f
  match args with
  | [.vec [a, a'], .vec [b, b'], .vec [p, p']] =>
    some (.vec (List.ofFn (σ channels image (a, a') (b, b') (p, p'))))
  | _ => none

/-- The values of variables, the latest first. -/
abbrev Env := List (String × Value)

mutual

/-- The value of an expression, by what calls return. -/
def Ast.eval (call : String → List Value → Option Value) (env : Env) : Ast → Option Value
  | number x => some (.float x)
  | name x => env.lookup x
  | member base field => do
    let v ← eval call env base
    v.member field
  | index base i => do
    let v ← eval call env base
    let k ← eval call env i
    k.asIndex.bind v.index
  | .call f args => do
    let vs ← evalAll call env args
    call f vs
  | binary op lhs rhs => do
    let a ← eval call env lhs
    let b ← eval call env rhs
    combine op a b
  | negate e => do
    let v ← eval call env e
    combine .times (.float (-1)) v

/-- The values of expressions. -/
def Ast.evalAll (call : String → List Value → Option Value) (env : Env) :
    List Ast → Option (List Value)
  | [] => some []
  | e :: es => do
    let v ← eval call env e
    let vs ← evalAll call env es
    some (v :: vs)

end

/-- What statements return. -/
def Command.run (call : String → List Value → Option Value) (env : Env) :
    List Command → Option Value
  | [] => none
  | assign x e :: rest => do
    let v ← e.eval call env
    run call ((x, v) :: env) rest
  | yield e :: _ => e.eval call env

/-- What a call of a definition returns: a struct of the arguments, or the result of a function on
them. -/
def Definition.result (call : String → List Value → Option Value) (name : String) (vs : List Value) :
    Definition → Option Value
  | struct fields => if fields.length = vs.length then some (.struct name (fields.zip vs)) else none
  | function parameters body =>
    if parameters.length = vs.length then Command.run call (parameters.zip vs) body else none

/-- What a call returns: of a builtin, of the latest definition of a name, or else of a reader. -/
def Library.call (L : Library) (σ : Sampler) (f : String) (vs : List Value) : Option Value :=
  match L with
  | [] => if f ∈ builtinNames then callBuiltin f vs else callReader σ f vs
  | (name, d) :: earlier =>
    if f = name ∧ f ∉ builtinNames then d.result (Library.call earlier σ) name vs
    else Library.call earlier σ f vs

/-- The value of an expression. -/
def Library.eval (L : Library) (σ : Sampler) (env : Env) (e : Ast) : Option Value :=
  e.eval (L.call σ) env

/-- The value of an expression in a text, with the definitions of a header. -/
def evalText (header expression : String) (σ : Sampler) (env : Env) : Option Value := do
  let L ← readLibrary header
  let e ← readExpr expression
  L.eval σ env e

-- Each kind of term gets its value by a lemma below, from equations that are made here, once.
attribute [local simp] Ast.eval Ast.evalAll Command.run Library.call

namespace Library

variable {L : Library} {σ : Sampler} {env : Env}

/-- The value of a term. -/
def value (L : Library) (σ : Sampler) (env : Env) (t : Term) : Option Value :=
  L.eval σ env t.ast

/-- The values of terms. -/
def values (L : Library) (σ : Sampler) (env : Env) (ts : List Term) : Option (List Value) :=
  Ast.evalAll (L.call σ) env (Term.asts ts)

/-- What statements return. -/
def run (L : Library) (σ : Sampler) (env : Env) (statements : List Statement) : Option Value :=
  Command.run (L.call σ) env (statements.map Statement.command)

/-- **Over a header, the text of a readable term has the value of the term.** -/
theorem evalText_text {header : String} (hL : readLibrary header = some L) {t : Term} (ht : t.Readable) :
    evalText header t.text σ env = L.value σ env t := by
  rw [evalText, hL, readExpr_text ht]
  rfl

/-- A text that has a value is a readable term with that value. -/
theorem value_of_evalText {header : String} (hL : readLibrary header = some L) {text : String} {v : Value}
    (h : evalText header text σ env = some v) :
    (Term.raw text).Readable ∧ L.value σ env (.raw text) = some v := by
  rw [evalText, hL, Option.bind_eq_bind, Option.bind_some] at h
  obtain ⟨a, ha, hv⟩ := Option.bind_eq_some_iff.1 h
  refine ⟨.raw ha, ?_⟩
  rw [value, Term.ast, ha, Option.getD_some]
  exact hv

/-- The text of a readable term stands for the term. -/
theorem value_raw_text {t : Term} (ht : t.Readable) :
    L.value σ env (.raw t.text) = L.value σ env t := by
  rw [value, Term.ast, readExpr_text ht, Option.getD_some, value]

@[simp] theorem value_literal (d : Decimal) : L.value σ env (.literal d) = some (.float d.value) := by
  rw [value, eval, Term.ast, Decimal.value]
  cases d.negative with
  | false => simp
  | true => simp [combine, Operator.act]

@[simp] theorem value_name (x : String) : L.value σ env (.name x) = env.lookup x := by
  rw [value, eval, Term.ast, Ast.eval]

@[simp] theorem value_group (t : Term) : L.value σ env (.group t) = L.value σ env t := by
  rw [value, Term.ast, value]

theorem value_member {base : Term} {v : Value} (h : L.value σ env base = some v) (field : String) :
    L.value σ env (.member base field) = v.member field := by
  rw [value, eval, Term.ast, Ast.eval, show base.ast.eval (L.call σ) env = _ from h]
  rfl

theorem value_index {base : Term} {v : Value} (h : L.value σ env base = some v) (i : Nat) :
    L.value σ env (.index base i) = v.index i := by
  have hfloor : (⌊(i : ℚ)⌋).toNat = i := by simp
  rw [value, eval, Term.ast, Ast.eval, show base.ast.eval (L.call σ) env = _ from h, Ast.eval]
  change (Value.asIndex (.float i)).bind v.index = _
  rw [Value.asIndex, hfloor, Option.bind_some]

theorem value_call {spacing : Spacing} {f : String} {args : List Term} {vs : List Value}
    (h : L.values σ env args = some vs) : L.value σ env (.call spacing f args) = L.call σ f vs := by
  rw [value, eval, Term.ast, Ast.eval, show Ast.evalAll (L.call σ) env (Term.asts args) = _ from h]
  rfl

theorem value_binary {spacing : Spacing} {op : Operator} {lhs rhs : Term} {a b : Value}
    (ha : L.value σ env lhs = some a) (hb : L.value σ env rhs = some b) :
    L.value σ env (.binary spacing op lhs rhs) = combine op a b := by
  rw [value, eval, Term.ast, Ast.eval, show lhs.ast.eval (L.call σ) env = _ from ha,
    show rhs.ast.eval (L.call σ) env = _ from hb]
  rfl

theorem value_grouped {op : Operator} {lhs rhs : Term} {a b : Value}
    (ha : L.value σ env lhs = some a) (hb : L.value σ env rhs = some b) :
    L.value σ env (.grouped op lhs rhs) = combine op a b := by
  rw [Term.grouped, value_group, value_binary ha hb]

@[simp] theorem values_nil : L.values σ env [] = some [] := by
  rw [values, Term.asts, Ast.evalAll]

theorem values_cons_iff {t : Term} {ts : List Term} {us : List Value} :
    L.values σ env (t :: ts) = some us ↔ ∃ v, L.value σ env t = some v ∧
      ∃ vs, L.values σ env ts = some vs ∧ us = v :: vs := by
  rw [values, Term.asts, Ast.evalAll]
  simp only [Option.bind_eq_bind, Option.bind_eq_some_iff, Option.some.injEq, value, eval, values]
  constructor
  · rintro ⟨v, hv, vs, hvs, rfl⟩
    exact ⟨v, hv, vs, hvs, rfl⟩
  · rintro ⟨v, hv, vs, hvs, rfl⟩
    exact ⟨v, hv, vs, hvs, rfl⟩

theorem values_cons {t : Term} {ts : List Term} {v : Value} {vs : List Value}
    (h : L.value σ env t = some v) (hs : L.values σ env ts = some vs) :
    L.values σ env (t :: ts) = some (v :: vs) :=
  values_cons_iff.2 ⟨v, h, vs, hs, rfl⟩

/-- The values of terms are those of each of them. -/
theorem values_iff {ts : List Term} {vs : List Value} :
    L.values σ env ts = some vs ↔ List.Forall₂ (fun t v => L.value σ env t = some v) ts vs := by
  induction ts generalizing vs with
  | nil =>
    rw [values_nil, List.forall₂_nil_left_iff]
    exact ⟨fun h => (Option.some.inj h).symm, fun h => h ▸ rfl⟩
  | cons t ts ih =>
    rw [values_cons_iff, List.forall₂_cons_left_iff]
    simp only [ih, exists_and_left]

theorem values_pair {s t : Term} {v w : Value} (hs : L.value σ env s = some v)
    (ht : L.value σ env t = some w) : L.values σ env [s, t] = some [v, w] :=
  values_cons hs (values_cons ht values_nil)

theorem values_singleton {t : Term} {v : Value} (h : L.value σ env t = some v) :
    L.values σ env [t] = some [v] :=
  values_cons h values_nil

/-- The values of terms that are made one by one. -/
theorem values_map {α : Type} {f : α → Term} {g : α → Value} {xs : List α}
    (h : ∀ x ∈ xs, L.value σ env (f x) = some (g x)) :
    L.values σ env (xs.map f) = some (xs.map g) := by
  induction xs with
  | nil => exact values_nil
  | cons x xs ih =>
    exact values_cons (h x List.mem_cons_self) (ih fun y hy => h y (List.mem_cons_of_mem _ hy))

theorem run_yield (t : Term) (rest : List Statement) :
    L.run σ env (.yield t :: rest) = L.value σ env t := by
  rw [run, List.map_cons, Statement.command, Command.run, value, eval]

theorem run_assign {x : String} {t : Term} {v : Value} (h : L.value σ env t = some v)
    (rest : List Statement) : L.run σ env (.assign x t :: rest) = L.run σ ((x, v) :: env) rest := by
  rw [run, List.map_cons, Statement.command, Command.run, show t.ast.eval (L.call σ) env = _ from h]
  rfl

theorem run_define {type x : String} {t : Term} {v : Value} (h : L.value σ env t = some v)
    (rest : List Statement) :
    L.run σ env (.define type x t :: rest) = L.run σ ((x, v) :: env) rest :=
  run_assign h rest

/-! ## Calls -/

theorem call_builtin {f : String} (h : f ∈ builtinNames) (vs : List Value) :
    L.call σ f vs = callBuiltin f vs := by
  induction L with
  | nil => exact if_pos h
  | cons d earlier ih => rw [call, if_neg fun hf => hf.2 h, ih]

/-- A definition leaves the calls of other names alone. -/
theorem call_cons_ne {f name : String} (h : f ≠ name) (d : Definition) (vs : List Value) :
    call ((name, d) :: L) σ f vs = L.call σ f vs := by
  rw [call, if_neg fun hf => h hf.1]

theorem call_cons_self {name : String} (h : name ∉ builtinNames) (d : Definition) (vs : List Value) :
    call ((name, d) :: L) σ name vs = d.result (L.call σ) name vs := by
  rw [call, if_pos ⟨rfl, h⟩]

end Library
end Glsl
end ShaderAlgebra
