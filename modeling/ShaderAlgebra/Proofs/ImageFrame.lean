import Mathlib.Algebra.Order.Field.Basic
import Mathlib.Tactic.FieldSimp
import Mathlib.Tactic.Ring
import ShaderAlgebra.Proofs.ReaderRuns
import ShaderAlgebra.Proofs.ReaderText

/-!
# The frame of an image

Shaders with uniforms and textures are run over any ordered field, in exact arithmetic.  A step
without a meaning is stuck and gives no value: a variable that is not declared or is assigned
another type, a quotient by zero, a call with arguments of other types.

The segment from `A` to `B` and its perpendicular, scaled by the ratio of the image, span a frame
of the plane.  A reader computes the coordinates of a point in that frame and reads
the texture there (`Textures.call_rgba`).  Coordinates and points correspond one to one
(`Frame.coordinates_point`, `Frame.point_coordinates`).
-/

namespace ShaderAlgebra
namespace Glsl

/-! ## Values -/

/-- A value of a running shader.  A texture has four channels at every point. -/
inductive Datum (K : Type) where
  | bool (value : Bool)
  | float (value : K)
  | vector (entries : List K)
  | sampler (texture : K → K → Fin 4 → K)

namespace Datum

variable {K : Type}

/-- The type of a value. -/
def type : Datum K → Option String
  | bool _ => some "bool"
  | float _ => some "float"
  | vector xs => if 2 ≤ xs.length then typeOfWidth xs.length else none
  | sampler _ => some "sampler2D"

/-- The numbers of a float or a vector. -/
def numbers : Datum K → Option (List K)
  | float x => some [x]
  | vector xs => some xs
  | bool _ | sampler _ => none

/-- One number is a float, more are a vector. -/
def ofNumbers : List K → Datum K
  | [x] => float x
  | xs => vector xs

/-- Components of a vector. -/
def member (v : Datum K) (field : String) : Option (Datum K) :=
  match v with
  | vector xs => (field.toList.mapM fun c => (component? c).bind (xs[·]?)).map ofNumbers
  | _ => none

/-- A point as a value. -/
def pair (p : K × K) : Datum K :=
  vector [p.1, p.2]

end Datum

/-- The values of variables. -/
abbrev Variables (K : Type) := String → Option (Datum K)

/-- The results of calls. -/
abbrev Calls (K : Type) := String → List (Datum K) → Option (Datum K)

section Run

variable {K : Type} [Field K] [LinearOrder K]

/-- What an operator does with numbers. -/
def Operator.onNumbers (op : Operator) (x y : K) : Option K :=
  match op with
  | plus => some (x + y)
  | minus => some (x - y)
  | times => some (x * y)
  | divide => if y = 0 then none else some (x / y)
  | atMost | and => none

/-- What an operator does with values.  Arithmetic goes entry by entry, and a number goes with
every entry. -/
def Operator.onData (op : Operator) (a b : Datum K) : Option (Datum K) :=
  match a, b with
  | .bool p, .bool q => if op = .and then some (.bool (p && q)) else none
  | .float x, .float y => if op = .atMost then some (.bool (x ≤ y)) else (op.onNumbers x y).map .float
  | .vector xs, .vector ys =>
    if xs.length = ys.length then ((xs.zip ys).mapM fun q => op.onNumbers q.1 q.2).map .vector else none
  | .float x, .vector ys => (ys.mapM (op.onNumbers x)).map .vector
  | .vector xs, .float y => (xs.mapM (op.onNumbers · y)).map .vector
  | _, _ => none

/-- A call of a builtin: the channels of a texture at a point, a dot product, a vector of one number or
of as many as it has. -/
def builtin (version : Version) (f : String) (args : List (Datum K)) : Option (Datum K) :=
  if f = version.textureFunction then
    match args with
    | [.sampler texture, .vector [x, y]] => some (.vector (List.ofFn (texture x y)))
    | _ => none
  else if f = "dot" then
    match args with
    | [a, b] => do
      let xs ← a.numbers
      let ys ← b.numbers
      if xs.length = ys.length then some (.float (List.zipWith (· * ·) xs ys).sum) else none
    | _ => none
  else do
    let n ← width? f
    match args with
    | [.float x] => some (.ofNumbers (List.replicate n x))
    | args => do
      let parts ← args.mapM Datum.numbers
      if parts.flatten.length = n then some (.ofNumbers parts.flatten) else none

/-! ## Running a shader -/

mutual

/-- The value of an expression, by the results of calls and the values of variables. -/
def Ast.datum (call : Calls K) (var : Variables K) : Ast → Option (Datum K)
  | number q => some (.float q)
  | name x => var x
  | member base field => do
    let v ← datum call var base
    v.member field
  | index _ _ => none
  | .call f args => do
    let vs ← data call var args
    call f vs
  | binary op lhs rhs => do
    let a ← datum call var lhs
    let b ← datum call var rhs
    op.onData a b
  | negate e => do
    let v ← datum call var e
    Operator.times.onData (.float (-1)) v

/-- The values of expressions. -/
def Ast.data (call : Calls K) (var : Variables K) : List Ast → Option (List (Datum K))
  | [] => some []
  | e :: es => do
    let v ← datum call var e
    let vs ← data call var es
    some (v :: vs)

end

attribute [local simp] Ast.datum Ast.data

namespace Ast

variable {call : Calls K} {var : Variables K} {e e' : Ast} {v v' : Datum K}

theorem datum_name (call : Calls K) {x : String} (h : var x = some v) :
    (name x).datum call var = some v := by
  rw [datum, h]

theorem datum_member (h : e.datum call var = some v) (field : String) :
    (member e field).datum call var = v.member field := by
  rw [datum, h]
  rfl

theorem datum_negate (h : e.datum call var = some v) :
    (negate e).datum call var = Operator.times.onData (.float (-1)) v := by
  rw [datum, h]
  rfl

theorem datum_binary (h : e.datum call var = some v) (h' : e'.datum call var = some v') (op : Operator) :
    (binary op e e').datum call var = op.onData v v' := by
  rw [datum, h, h']
  rfl

theorem datum_call_pair (h : e.datum call var = some v) (h' : e'.datum call var = some v') (f : String) :
    (Ast.call f [e, e']).datum call var = call f [v, v'] := by
  rw [datum, data, data, data, h, h']
  rfl

end Ast

/-- The local variables of a function, the latest value first. -/
abbrev Locals (K : Type) := List (String × Datum K)

/-- The variables in sight: a local one hides a uniform. -/
def Locals.var (vars : Locals K) (uniform : Variables K) (x : String) : Option (Datum K) :=
  (vars.lookup x).or (uniform x)

/-- The variables after an assignment.  A variable has to be there, and it keeps its type. -/
def Locals.assign (vars : Locals K) (x : String) (v : Datum K) : Option (Locals K) := do
  let old ← vars.lookup x
  if v.type = old.type then some ((x, v) :: vars) else none

/-- What statements return. -/
def Instruction.run (call : Calls K) (uniform : Variables K) : Locals K → List Instruction → Option (Datum K)
  | _, [] => none
  | vars, .define type x e :: rest => do
    let v ← e.datum call (vars.var uniform)
    if v.type = some type ∧ (vars.lookup x).isNone then run call uniform ((x, v) :: vars) rest else none
  | vars, .assign x e :: rest => do
    let v ← e.datum call (vars.var uniform)
    let vars ← vars.assign x v
    run call uniform vars rest
  | vars, .decrease x e :: rest => do
    let v ← (Ast.binary .minus (.name x) e).datum call (vars.var uniform)
    let vars ← vars.assign x v
    run call uniform vars rest
  | vars, .returnIf condition e :: rest => do
    match ← condition.datum call (vars.var uniform) with
    | .bool true => e.datum call (vars.var uniform)
    | .bool false => run call uniform vars rest
    | _ => none
  | vars, .yield e :: _ => e.datum call (vars.var uniform)

attribute [local simp] Instruction.run

namespace Instruction

variable {call : Calls K} {uniform : Variables K} {vars : Locals K} {x type : String} {e condition : Ast}
  {old v : Datum K}

theorem run_define (h : e.datum call (vars.var uniform) = some v) (htype : v.type = some type)
    (hnew : vars.lookup x = none) (rest : List Instruction) :
    run call uniform vars (.define type x e :: rest) = run call uniform ((x, v) :: vars) rest := by
  simp [h, htype, hnew]

theorem run_assign (h : e.datum call (vars.var uniform) = some v) (hx : vars.lookup x = some old)
    (htype : v.type = old.type) (rest : List Instruction) :
    run call uniform vars (.assign x e :: rest) = run call uniform ((x, v) :: vars) rest := by
  simp [h, Locals.assign, hx, htype]

/-- A decrease assigns the difference. -/
theorem run_decrease (x : String) (e : Ast) (rest : List Instruction) :
    run call uniform vars (.decrease x e :: rest) =
      run call uniform vars (.assign x (.binary .minus (.name x) e) :: rest) := by
  rw [run, run]

theorem run_returnIf {b : Bool} (h : condition.datum call (vars.var uniform) = some (.bool b)) (e : Ast)
    (rest : List Instruction) : run call uniform vars (.returnIf condition e :: rest) =
      if b then e.datum call (vars.var uniform) else run call uniform vars rest := by
  rw [run, h]
  cases b <;> rfl

end Instruction

/-- What a function returns.  The arguments and the result have the types that it declares. -/
def Routine.apply (call : Calls K) (uniform : Variables K) (r : Routine) (args : List (Datum K)) :
    Option (Datum K) :=
  if args.map Datum.type = r.parameters.map (some ·.type) then do
    let v ← Instruction.run call uniform ((r.parameters.map (·.name)).zip args) r.body
    if v.type = some r.result then some v else none
  else none

theorem Routine.apply_of_run {call : Calls K} {uniform : Variables K} {r : Routine} {args : List (Datum K)}
    {v : Datum K} (hargs : args.map Datum.type = r.parameters.map (some ·.type))
    (hrun : Instruction.run call uniform ((r.parameters.map (·.name)).zip args) r.body = some v)
    (hv : v.type = some r.result) : r.apply call uniform args = some v := by
  rw [apply, if_pos hargs]
  exact Option.bind_eq_some_iff.2 ⟨v, hrun, if_pos hv⟩

namespace Shader

/-- The value of a uniform among declarations, the latest first, if it was supplied with the
type that is declared. -/
def uniform (supply : Variables K) : List Global → Variables K
  | [], _ => none
  | .uniform b :: earlier, x =>
    if x = b.name then (supply x).filter (·.type = some b.type) else uniform supply earlier x
  | .routine _ :: earlier, x => uniform supply earlier x

/-- What a call returns by declarations, the latest first.  A function sees what was declared before it. -/
def callFrom (version : Version) (supply : Variables K) : List Global → Calls K
  | [], f, args => builtin version f args
  | .uniform _ :: earlier, f, args => callFrom version supply earlier f args
  | .routine r :: earlier, f, args =>
    if f = r.name then r.apply (callFrom version supply earlier) (uniform supply earlier) args
    else callFrom version supply earlier f args

attribute [local simp] callFrom

theorem callFrom_self (version : Version) (supply : Variables K) (r : Routine) (earlier : List Global)
    (args : List (Datum K)) : callFrom version supply (.routine r :: earlier) r.name args =
      r.apply (callFrom version supply earlier) (uniform supply earlier) args := by
  rw [callFrom, if_pos rfl]

theorem callFrom_ne (version : Version) (supply : Variables K) {r : Routine} {f : String}
    (h : f ≠ r.name) (earlier : List Global) (args : List (Datum K)) :
    callFrom version supply (.routine r :: earlier) f args = callFrom version supply earlier f args := by
  rw [callFrom, if_neg h]

/-- What a call of a function of the shader returns. -/
def call (s : Shader) (version : Version) (supply : Variables K) (f : String) (args : List (Datum K)) :
    Option (Datum K) :=
  callFrom version supply s.reverse f args

end Shader
end Run
end Glsl

/-! ## The frame -/

namespace Frame

variable {K : Type} [Field K]

/-- The direction a quarter turn to the left. -/
def perpendicular (d : K × K) : K × K :=
  (-d.2, d.1)

/-- The dot product of two directions. -/
def dot (c d : K × K) : K :=
  c.1 * d.1 + c.2 * d.2

/-- The point with coordinates `u` along the bottom edge of an image and `v` across it. -/
def point (r : K) (A B : K × K) (u v : K) : K × K :=
  A + u • (B - A) + (v / r) • perpendicular (B - A)

/-- The coordinates of a point. -/
def coordinates (r : K) (A B p : K × K) : K × K :=
  (dot (p - A) (B - A) / dot (B - A) (B - A), r * dot (p - A) (perpendicular (B - A)) / dot (B - A) (B - A))

/-- A direction and its perpendicular span the plane. -/
theorem dot_smul_add (q d : K × K) :
    dot q d • d + dot q (perpendicular d) • perpendicular d = dot d d • q := by
  refine Prod.ext ?_ ?_
  all_goals
    simp only [dot, perpendicular, Prod.fst_add, Prod.snd_add, Prod.smul_fst, Prod.smul_snd, smul_eq_mul]
    ring

/-- The two parts of a direction are found by dot products. -/
theorem dot_combination (d : K × K) (a b : K) : dot (a • d + b • perpendicular d) d = a * dot d d ∧
    dot (a • d + b • perpendicular d) (perpendicular d) = b * dot d d := by
  simp only [dot, perpendicular, Prod.fst_add, Prod.snd_add, Prod.smul_fst, Prod.smul_snd, smul_eq_mul]
  constructor <;> ring

variable [LinearOrder K] [IsStrictOrderedRing K]

theorem dot_self_ne_zero {A B : K × K} (h : A ≠ B) : dot (B - A) (B - A) ≠ 0 := by
  intro hzero
  obtain ⟨hx, hy⟩ := (mul_self_add_mul_self_eq_zero (a := (B - A).1) (b := (B - A).2)).1 hzero
  exact h (sub_eq_zero.1 (Prod.ext hx hy)).symm

variable {r : K} {A B : K × K}

/-- **A point of the frame has the coordinates that it was made from.** -/
theorem coordinates_point (hr : r ≠ 0) (h : A ≠ B) (u v : K) :
    coordinates r A B (point r A B u v) = (u, v) := by
  have hn := dot_self_ne_zero h
  have hpart : point r A B u v - A = u • (B - A) + (v / r) • perpendicular (B - A) := by
    rw [point, add_assoc, add_sub_cancel_left]
  obtain ⟨halong, hacross⟩ := dot_combination (B - A) u (v / r)
  rw [coordinates, hpart, halong, hacross, ← mul_assoc, mul_div_cancel₀ v hr, mul_div_cancel_right₀ u hn,
    mul_div_cancel_right₀ v hn]

/-- **Every point lies in the frame, at its coordinates.** -/
theorem point_coordinates (hr : r ≠ 0) (h : A ≠ B) (p : K × K) :
    point r A B (coordinates r A B p).1 (coordinates r A B p).2 = p := by
  have hn := dot_self_ne_zero h
  have hscale : (coordinates r A B p).2 / r = dot (p - A) (perpendicular (B - A)) / dot (B - A) (B - A) := by
    rw [coordinates, mul_div_assoc, mul_div_cancel_left₀ _ hr]
  calc point r A B (coordinates r A B p).1 (coordinates r A B p).2
      = A + (dot (B - A) (B - A))⁻¹ • (dot (p - A) (B - A) • (B - A) +
          dot (p - A) (perpendicular (B - A)) • perpendicular (B - A)) := by
        rw [point, hscale]
        simp only [coordinates, smul_add, smul_smul, div_eq_inv_mul, add_assoc]
    _ = A + (p - A) := by rw [dot_smul_add, inv_smul_smul₀ hn]
    _ = p := add_sub_cancel A p

end Frame

/-! ## Readers -/

namespace Textures

open Glsl (Ast Datum Global Instruction Locals Operator Routine Shader Term Variables builtin)

section Uniforms

variable {K : Type} {supply : Variables K} {image : String} {texture : K → K → Fin 4 → K} {r : K}
  {crop : K × K}

/-- The uniforms of an image have these values. -/
structure Supplies (supply : Variables K) (image : String) (texture : K → K → Fin 4 → K) (r : K)
    (crop : K × K) : Prop where
  sampler : supply (TextureBinding.samplerOf image) = some (.sampler texture)
  ratio : supply (TextureBinding.ratioOf image) = some (.float r)
  cropFactor : supply (TextureBinding.cropFactorOf image) = some (.pair crop)

/-- The uniforms of a reader, the latest first. -/
def readerUniforms (image : String) : List Global :=
  [.uniform ⟨"vec2", TextureBinding.cropFactorOf image⟩, .uniform ⟨"float", TextureBinding.ratioOf image⟩,
    .uniform ⟨"sampler2D", TextureBinding.samplerOf image⟩]

/-- A reader sees the values of its uniforms. -/
theorem Supplies.readerUniforms (h : Supplies supply image texture r crop) :
    Supplies (Shader.uniform supply (readerUniforms image)) image texture r crop := by
  have hapart {s t : String} (hs : s ∈ globalPrefixes) (ht : t ∈ globalPrefixes) (hst : s ≠ t) :
      s ++ image ≠ t ++ image := fun he => hst (globalPrefixes_inj hs ht he).1
  have hsr : TextureBinding.samplerOf image ≠ TextureBinding.ratioOf image :=
    hapart (by decide) (by decide) (by decide)
  have hsc : TextureBinding.samplerOf image ≠ TextureBinding.cropFactorOf image :=
    hapart (by decide) (by decide) (by decide)
  have hrc : TextureBinding.ratioOf image ≠ TextureBinding.cropFactorOf image :=
    hapart (by decide) (by decide) (by decide)
  refine ⟨?_, ?_, ?_⟩
  · simp [Textures.readerUniforms, Shader.uniform, hsr, hsc, h.sampler, Datum.type]
  · simp [Textures.readerUniforms, Shader.uniform, hrc, h.ratio, Datum.type]
  · simp [Textures.readerUniforms, Shader.uniform, h.cropFactor, Datum.type, Datum.pair, Glsl.typeOfWidth]

/-- The parameters and the variable of a reader. -/
def localNames : List String :=
  ["A", "B", "p", "b"]

/-- The variables of a reader hide none of its uniforms. -/
theorem var_of_mem_globals {x : String} (hx : x ∈ globals image) {vars : Locals K}
    (hvars : vars.all (localNames.contains ·.1)) (uniform : Variables K) :
    vars.var uniform x = uniform x := by
  have hhead : ∀ y ∈ localNames, y.toList.head? ≠ some '_' := by decide
  have hnone : vars.lookup x = none := by
    refine List.lookup_eq_none_iff.2 fun q hq => bne_iff_ne.2 fun he => ?_
    refine hhead q.1 (List.contains_iff_mem.1 (List.all_eq_true.1 hvars q hq)) ?_
    rw [← he, head?_of_mem_globals hx]
  rw [Locals.var, hnone, Option.none_or]

end Uniforms

section Builtins

variable {K : Type} [Field K]

attribute [local simp] builtin

theorem builtin_dot (version : Version) (c d : K × K) :
    builtin version "dot" [.pair c, .pair d] = some (.float (Frame.dot c d)) := by
  cases version <;> simp [Version.textureFunction, Datum.pair, Datum.numbers, Frame.dot]

theorem builtin_vec2 (version : Version) (x y : K) :
    builtin version "vec2" [.float x, .float y] = some (.pair (x, y)) := by
  cases version <;> simp [Version.textureFunction, Datum.pair, Datum.numbers, Datum.ofNumbers, Glsl.width?]

theorem builtin_texture (version : Version) (texture : K → K → Fin 4 → K) (p : K × K) :
    builtin version version.textureFunction [.sampler texture, .pair p] =
      some (.vector (List.ofFn (texture p.1 p.2))) := by
  rw [Datum.pair, builtin, if_pos rfl]

end Builtins

section Body

variable {K : Type} [Field K] [LinearOrder K] {version : Version} {var : Variables K} {image : String}
  {texture : K → K → Fin 4 → K} {r : K} {crop : K × K}

/-- The quotient that a reader assigns to its point. -/
theorem datum_coordinates (hr : var (TextureBinding.ratioOf image) = some (.float r)) {q d : K × K} {n : K}
    (hp : var "p" = some (.pair q)) (hB : var "B" = some (.pair d)) (hb : var "b" = some (.float n)) (hn : n ≠ 0) :
    (Ast.binary .divide (.call "vec2" [.call "dot" [.name "p", .name "B"],
      .binary .times (.name (TextureBinding.ratioOf image)) (.call "dot" [.name "p",
        .call "vec2" [.negate (.member (.name "B") "y"), .member (.name "B") "x"]])]) (.name "b")).datum
        (builtin version) var =
      some (.pair (Frame.dot q d / n, r * Frame.dot q (Frame.perpendicular d) / n)) := by
  replace hr := Ast.datum_name (builtin version) hr
  replace hp := Ast.datum_name (builtin version) hp
  replace hB := Ast.datum_name (builtin version) hB
  replace hb := Ast.datum_name (builtin version) hb
  have hx : (Ast.member (.name "B") "x").datum (builtin version) var = some (.float d.1) :=
    Ast.datum_member hB "x"
  have hy : (Ast.member (.name "B") "y").datum (builtin version) var = some (.float d.2) :=
    Ast.datum_member hB "y"
  replace hy : (Ast.negate (.member (.name "B") "y")).datum (builtin version) var = some (.float (-d.2)) := by
    rw [Ast.datum_negate hy]
    simp [Operator.onData, Operator.onNumbers]
  have hturn := (Ast.datum_call_pair hy hx "vec2").trans (builtin_vec2 version _ _)
  have hacross := (Ast.datum_call_pair hp hturn "dot").trans (builtin_dot version _ _)
  have halong := (Ast.datum_call_pair hp hB "dot").trans (builtin_dot version _ _)
  have hscaled := (Ast.datum_binary hr hacross .times).trans rfl
  have hboth := (Ast.datum_call_pair halong hscaled "vec2").trans (builtin_vec2 version _ _)
  rw [Ast.datum_binary hboth hb]
  simp [Operator.onData, Operator.onNumbers, Datum.pair, hn, Frame.perpendicular]

theorem datum_zero : (Term.literal .zero).ast.datum (builtin version) var = some (.float 0) := by
  simp [Term.ast, Ast.datum, Decimal.zero, Decimal.magnitude]

/-- The conditions that a component lies between zero and one. -/
theorem datum_inUnit (version : Version) {component : String} {x : K}
    (hp : (Ast.member (.name "p") component).datum (builtin version) var = some (.float x)) :
    (inUnit component).1.ast.datum (builtin version) var = some (.bool (0 ≤ x)) ∧
      (inUnit component).2.ast.datum (builtin version) var = some (.bool (x ≤ 1)) := by
  have hone : (Term.literal .one).ast.datum (builtin version) var = some (.float 1) := by
    simp [Term.ast, Ast.datum, Decimal.one, Decimal.magnitude]
  exact ⟨Ast.datum_binary datum_zero hp .atMost, Ast.datum_binary hp hone .atMost⟩

/-- The condition that a point lies in the unit square. -/
theorem datum_inSquare {w : K × K} (hp : var "p" = some (.pair w)) :
    (Ast.binary .and (.binary .and (.binary .and (inUnit "x").1.ast (inUnit "x").2.ast) (inUnit "y").1.ast)
      (inUnit "y").2.ast).datum (builtin version) var =
      some (.bool (0 ≤ w.1 ∧ w.1 ≤ 1 ∧ 0 ≤ w.2 ∧ w.2 ≤ 1)) := by
  replace hp := Ast.datum_name (builtin version) hp
  obtain ⟨hx₀, hx₁⟩ := datum_inUnit version (x := w.1) (Ast.datum_member hp "x")
  obtain ⟨hy₀, hy₁⟩ := datum_inUnit version (x := w.2) (Ast.datum_member hp "y")
  have hx := (Ast.datum_binary hx₀ hx₁ .and).trans rfl
  have hxy := (Ast.datum_binary hx hy₀ .and).trans rfl
  rw [Ast.datum_binary hxy hy₁ .and]
  simp [Operator.onData, Bool.and_assoc]

/-- The read of a texture in its cropped part. -/
theorem datum_sample {w : K × K} (hp : var "p" = some (.pair w))
    (hs : var (TextureBinding.samplerOf image) = some (.sampler texture))
    (hc : var (TextureBinding.cropFactorOf image) = some (.pair crop)) :
    (Ast.call version.textureFunction [.name (TextureBinding.samplerOf image),
      .binary .times (.name "p") (.name (TextureBinding.cropFactorOf image))]).datum (builtin version) var =
      some (.vector (List.ofFn (texture (w.1 * crop.1) (w.2 * crop.2)))) := by
  replace hp := Ast.datum_name (builtin version) hp
  replace hc := Ast.datum_name (builtin version) hc
  have hw : (Ast.binary .times (.name "p") (.name (TextureBinding.cropFactorOf image))).datum
      (builtin version) var = some (.pair (w * crop)) := Ast.datum_binary hp hc .times
  exact (Ast.datum_call_pair (Ast.datum_name _ hs) hw _).trans (builtin_texture version texture (w * crop))

/-- What a reader returns outside of an image. -/
theorem datum_black : (Term.apply "vec4" [.literal .zero]).ast.datum (builtin version) var =
    some (.vector (List.ofFn (0 : Fin 4 → K))) := by
  have hzero : Ast.data (builtin version) var (Term.asts [.literal .zero]) = some [.float 0] := by
    rw [Term.asts, Term.asts, Ast.data, Ast.data, datum_zero]
    rfl
  rw [Term.ast, Ast.datum, hzero]
  cases version <;> rfl

/-- What an image shows at coordinates: outside the unit square it is transparent. -/
def shown (texture : K → K → Fin 4 → K) (crop w : K × K) : Fin 4 → K :=
  if 0 ≤ w.1 ∧ w.1 ≤ 1 ∧ 0 ≤ w.2 ∧ w.2 ≤ 1 then texture (w.1 * crop.1) (w.2 * crop.2) else 0

variable [IsStrictOrderedRing K]

/-- **The body of a reader returns what the image shows at the coordinates of the point.** -/
theorem run_readerBody (version : Version) {uniform : Variables K}
    (h : Supplies uniform image texture r crop) {A B : K × K} (hAB : A ≠ B) (p : K × K) :
    Instruction.run (builtin version) uniform [("A", .pair A), ("B", .pair B), ("p", .pair p)]
      ((readerBody version image).statements.map Glsl.Statement.instruction) =
        some (.vector (List.ofFn (shown texture crop (Frame.coordinates r A B p)))) := by
  have hn := Frame.dot_self_ne_zero hAB
  have hratio : TextureBinding.ratioOf image ∈ globals image := List.mem_map.2 ⟨"_ratio_", by decide, rfl⟩
  have hsampler : TextureBinding.samplerOf image ∈ globals image := List.mem_map.2 ⟨"_sampler_", by decide, rfl⟩
  have hcrop : TextureBinding.cropFactorOf image ∈ globals image := List.mem_map.2 ⟨"_cropfact_", by decide, rfl⟩
  -- the statements in order: variables are found by computation, uniforms have names that no variable has
  refine (Instruction.run_decrease ..).trans ?_
  refine (Instruction.run_assign (v := .pair (p - A)) rfl rfl (by rfl) _).trans ?_
  refine (Instruction.run_decrease ..).trans ?_
  refine (Instruction.run_assign (v := .pair (B - A)) rfl rfl (by rfl) _).trans ?_
  refine (Instruction.run_define ((Ast.datum_call_pair rfl rfl "dot").trans
    (builtin_dot version (B - A) (B - A))) rfl rfl _).trans ?_
  refine (Instruction.run_assign (datum_coordinates ((var_of_mem_globals hratio rfl uniform).trans h.ratio)
    rfl rfl rfl hn) rfl (by rfl) _).trans ?_
  refine (Instruction.run_returnIf (datum_inSquare (w := Frame.coordinates r A B p) rfl) _ _).trans ?_
  rw [shown]
  split_ifs with hbool hinside hinside
  · exact datum_sample rfl ((var_of_mem_globals hsampler rfl uniform).trans h.sampler)
      ((var_of_mem_globals hcrop rfl uniform).trans h.cropFactor)
  · exact absurd (of_decide_eq_true hbool) hinside
  · exact absurd (decide_eq_true hinside) hbool
  · exact datum_black

/-- The reader of all channels. -/
def rgbaRoutine (version : Version) (image : String) : Routine :=
  ⟨"vec4", Channels.rgba.reader image, parameters,
    (readerBody version image).statements.map Glsl.Statement.instruction⟩

section Call

variable {supply : Variables K} {A B : K × K}

theorem callFrom_rgba (version : Version) (h : Supplies supply image texture r crop) (hAB : A ≠ B) (p : K × K) :
    Shader.callFrom version supply (.routine (rgbaRoutine version image) :: readerUniforms image)
      (Channels.rgba.reader image) [.pair A, .pair B, .pair p] =
        some (.vector (List.ofFn (shown texture crop (Frame.coordinates r A B p)))) := by
  refine (Shader.callFrom_self version supply (rgbaRoutine version image) _ _).trans ?_
  exact Routine.apply_of_run rfl (run_readerBody version h.readerUniforms hAB p) rfl

/-- **The reader of all channels returns what the image shows.** -/
theorem call_rgba (version : Version) (h : Supplies supply image texture r crop) (hAB : A ≠ B) (p : K × K) :
    (readerShader version image).call version supply (Channels.rgba.reader image) [.pair A, .pair B, .pair p] =
      some (.vector (List.ofFn (shown texture crop (Frame.coordinates r A B p)))) := by
  have hne : Channels.rgba.reader image ≠ Channels.rgb.reader image := fun he =>
    absurd (globalPrefixes_inj (by decide) (by decide) he).1 (by decide)
  exact (Shader.callFrom_ne version supply hne _ _).trans (callFrom_rgba version h hAB p)

/-- **The reader of the colour returns the first three channels.** -/
theorem call_rgb (version : Version) (h : Supplies supply image texture r crop) (hAB : A ≠ B) (p : K × K) :
    (readerShader version image).call version supply (Channels.rgb.reader image) [.pair A, .pair B, .pair p] =
      some (.vector ((List.ofFn (shown texture crop (Frame.coordinates r A B p))).take 3)) := by
  refine (Shader.callFrom_self version supply ⟨"vec3", Channels.rgb.reader image, parameters, _⟩ _ _).trans ?_
  refine Routine.apply_of_run rfl ?_ rfl
  refine Ast.datum_member (v := .vector (List.ofFn (shown texture crop (Frame.coordinates r A B p)))) ?_ "rgb"
  exact callFrom_rgba version h hAB p

/-- **The reader of an image inverts its frame.**  At the point with coordinates `u` and `v` in the
unit square the texture is read at `u` and `v` times the crop factors; outside the square the
reader returns zero.  The reader of the colour returns the first three channels of the same.
Every point has one pair of coordinates, and the ends of the bottom edge have the coordinates `0, 0` and
`1, 0`.  If the name of the image is an identifier, then the text that is generated is read as these
functions. -/
theorem reader_inverts_frame (version : Version) (image : String) (h : Supplies supply image texture r crop)
    (hr : 0 < r) (hAB : A ≠ B) :
    (Glsl.isIdentifier image →
      Shader.read (readerText (reader version image)) = some (readerShader version image)) ∧
    (∀ u v : K,
      let call (channels : Channels) := (readerShader version image).call version supply (channels.reader image)
        [.pair A, .pair B, .pair (Frame.point r A B u v)]
      let seen : Fin 4 → K := if 0 ≤ u ∧ u ≤ 1 ∧ 0 ≤ v ∧ v ≤ 1 then texture (u * crop.1) (v * crop.2) else 0
      call .rgba = some (.vector (List.ofFn seen)) ∧ call .rgb = some (.vector ((List.ofFn seen).take 3))) ∧
    (∀ p, ∃! w : K × K, Frame.point r A B w.1 w.2 = p) ∧
    Frame.point r A B 0 0 = A ∧ Frame.point r A B 1 0 = B := by
  refine ⟨read_reader version, fun u v => ?_, fun p => ?_, ?_, ?_⟩
  · have hrgba := call_rgba version h hAB (Frame.point r A B u v)
    have hrgb := call_rgb version h hAB (Frame.point r A B u v)
    rw [Frame.coordinates_point hr.ne' hAB] at hrgba hrgb
    exact ⟨hrgba, hrgb⟩
  · refine ⟨Frame.coordinates r A B p, Frame.point_coordinates hr.ne' hAB p, fun w hw => ?_⟩
    rw [← hw, Frame.coordinates_point hr.ne' hAB]
  · simp [Frame.point]
  · simp [Frame.point]

/-- A photo with its bottom edge from `(1, 2)` to `(3, 5)`. -/
theorem reader_inverts_frame_photo :
    let texture : ℚ → ℚ → Fin 4 → ℚ := fun x y => ![x, y, x + y, 1]
    let supply : String → Option (Datum ℚ) := fun x => List.lookup x
      [("_sampler_photo", .sampler texture), ("_ratio_photo", .float (3 / 2)),
        ("_cropfact_photo", .pair (1 / 2, 3 / 4))]
    Supplies supply "photo" texture (3 / 2) (1 / 2, 3 / 4) ∧ (0 : ℚ) < 3 / 2 ∧ ((1, 2) : ℚ × ℚ) ≠ (3, 5) ∧
      ∃ shader, Shader.read (readerText (reader .es300 "photo")) = some shader ∧
        shader.call .es300 supply "_imagergb_photo" [.pair (1, 2), .pair (3, 5), .pair (4 / 3, 71 / 18)] =
          some (.vector [1 / 4, 1 / 4, 1 / 2]) := by
  intro texture supply
  have hs : Supplies supply "photo" texture (3 / 2) (1 / 2, 3 / 4) := ⟨rfl, rfl, rfl⟩
  have hr : (0 : ℚ) < 3 / 2 := by norm_num
  have hAB : ((1, 2) : ℚ × ℚ) ≠ (3, 5) := by decide
  obtain ⟨hread, hcalls, -⟩ := reader_inverts_frame .es300 "photo" hs hr hAB
  have hpoint : Frame.point (3 / 2) (1, 2) (3, 5) (1 / 2) (1 / 3) = ((4 / 3, 71 / 18) : ℚ × ℚ) := by
    norm_num [Frame.point, Frame.perpendicular]
  have hcolour := (hcalls (1 / 2) (1 / 3)).2
  rw [hpoint, if_pos (by norm_num)] at hcolour
  refine ⟨hs, hr, hAB, _, hread (by decide), hcolour.trans ?_⟩
  norm_num [texture]

end Call
end Body

end Textures
end ShaderAlgebra
