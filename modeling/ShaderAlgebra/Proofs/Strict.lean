import ShaderAlgebra.Proofs.Calls
import ShaderAlgebra.Proofs.Layout

/-!
# Synthesis with every check

A step of `Build` checks its operands once; the steps of `Synth` inside it check nothing, since
nothing can fail there.  Here the same steps are written with all their checks: every step inside
another one validates its own shape, a new entry is compared with what is under its key by then, and the
place of an element is looked up.  Any of these checks would end a call halfway, after definitions
were entered.

None of them ever fails.  `Follows g m` says that the step `g` with its checks does what `m` does
without them, as long as no key comes to be entered twice, and that `m` only adds entries.  It is
closed under `bind` (`Follows.bind`), and the one place where distinct keys are used is the entering of
a definition (`follows_enter`): the key is still absent once its body is made.
-/

namespace ShaderAlgebra

open Glsl (Term Binder Declaration)

/-- The definitions, each as its text. -/
def Definitions.texts (d : Definitions) : Registry String :=
  { entries := d.entries.map fun e => ⟨e.category, e.name, e.body.text⟩ }

theorem Definitions.keys_texts (d : Definitions) : d.texts.keys = d.keys :=
  List.map_map

/-! ## The steps -/

namespace Strict

/-- Enters the definition that `make` yields, unless its key is present.  By then the key may be
present after all, with the same text only. -/
def enter (category : Category) (name : String) (make : Build Declaration) : Build Unit := do
  if (← get).contains category name then
    pure ()
  else
    let body ← make
    let (emission, _) ← (← get).texts.insert category name body.text
    if emission = .generated then
      modify fun r => r.push category name body

mutual

/-- Defines the struct of a storage, after those of its members. -/
def define : Storage → Build Unit
  | .native s => do
    s.validate
  | .record s ms => do
    s.validate
    unless s.kind.isField do
      throw (.unsupported s "struct")
    enter .struct s.name do
      let binders ← defineMembers ms
      return .struct s.name binders

/-- Defines the structs of members. -/
def defineMembers : List (String × Storage) → Build (List Binder)
  | [] => pure []
  | (name, part) :: rest => do
    define part
    let binders ← defineMembers rest
    return ⟨part.shape.name, name⟩ :: binders

end

/-- Accepts the operands of a constructor. -/
def checkOperands (s : Shape) (args : List Term) : Build Unit := do
  s.validate
  let expected := s.length?.getD 1
  unless args.length = expected do
    throw (.arity s expected args.length)

/-- A native vector of its components. -/
def nativeVector (n : Nat) (args : List Term) : Build Term := do
  checkOperands (.realVector n) args
  return .apply (Shape.realVector n).name args

/-- A real vector of its components. -/
def realVector (n : Nat) (args : List Term) : Build Term := do
  checkOperands (.realVector n) args
  if n ≤ maxNativeWidth then
    return .apply (Shape.realVector n).name args
  else
    define (Shape.realVector n).storage
    let parts ← ((chunks n).zip (Synth.pieces (chunks n) args)).mapM fun part =>
      nativeVector part.1 part.2
    return .apply (Shape.realVector n).name parts

/-- A real matrix of its rows. -/
def realMatrix (r c : Nat) (rows : List Term) : Build Term := do
  let s := Shape.matrix r c .real
  checkOperands s rows
  if s.isNative then
    let column := fun k => Synth.nativeVector (rows.map fun row => .index (.group row) k)
    return .apply s.name ((List.range r).map column)
  else
    define s.storage
    return .apply s.name rows

/-- A value of its elements. -/
def construct (s : Shape) (args : List Term) : Build Term := do
  checkOperands s args
  match s with
  | .scalar _ => return args.headD default
  | .vector n .complex =>
    define s.storage
    let re ← realVector n (args.map (Term.part · "x"))
    let im ← realVector n (args.map (Term.part · "y"))
    return .apply s.name [re, im]
  | .vector n _ => realVector n args
  | .matrix r c .complex =>
    define s.storage
    let re ← realMatrix r c (args.map (Term.part · "real"))
    let im ← realMatrix r c (args.map (Term.part · "imag"))
    return .apply s.name [re, im]
  | .matrix r c _ => realMatrix r c args

/-- Accepts the index of an element. -/
def checkIndex (s : Shape) (i : Nat) : Build Unit := do
  s.validate
  match s.length? with
  | none => throw (.unsupported s "access")
  | some n =>
    unless i < n do
      throw (.index s i n)

/-- Element `i` of a value of a real shape.  The chunk of an element of a wide vector is looked up. -/
def realElement (s : Shape) (i : Nat) : Build (Term → Term) := do
  checkIndex s i
  match s with
  | .vector n k =>
    if n ≤ maxNativeWidth then
      return Synth.realElement (.vector n k) i
    else
      let place ← locate i n
      return fun base => .index (base.part s!"a{place.1}") place.2
  | s => return Synth.realElement s i

/-- Element `i` of a value. -/
def element (s : Shape) (i : Nat) : Build (Term → Term) := do
  checkIndex s i
  match s.kind, s.element? with
  | .complex, some e =>
    define e.storage
    let inner ← realElement s.part i
    return fun base => .apply e.name [inner (base.part "real"), inner (base.part "imag")]
  | _, _ => realElement s i

/-- The literal that fills a shape. -/
def checkFill (s : Shape) (x : Binary64) : Build Decimal := do
  unless s.kind.isField do
    throw (.unsupported s "constant_fill")
  s.validate
  literal? x

mutual

/-- A value with one number in every place. -/
def fill (x : Binary64) : Storage → Build Term
  | .native s => do
    let value ← checkFill s x
    return Storage.fillNative (.literal value) s
  | .record s ms => do
    let _ ← checkFill s x
    define (.record s ms)
    let parts ← fillMembers x ms
    return .apply s.name parts

/-- The members of a value with one number in every place. -/
def fillMembers (x : Binary64) : List (String × Storage) → Build (List Term)
  | [] => pure []
  | (_, part) :: rest => do
    let first ← fill x part
    let others ← fillMembers x rest
    return first :: others

end

mutual

/-- An entrywise operation on two operands. -/
def entrywise (op : Entrywise) : Storage → Term → Term → Build Term
  | .native s, a, b => do
    Build.requireField op.operation s
    return .grouped op.operator a b
  | .record s ms, a, b => do
    Build.requireField op.operation s
    let f := op.operation.helperName s
    define (.record s ms)
    enter .function f do
      let parts ← entrywiseMembers op ms
      return .function s.name f [⟨op.leftType s, "a"⟩, ⟨s.name, "b"⟩]
        (.expression (.apply s.name parts))
    return .apply f [a, b]

/-- An entrywise operation on the members of the parameters `a` and `b`. -/
def entrywiseMembers (op : Entrywise) : List (String × Storage) → Build (List Term)
  | [] => pure []
  | (field, part) :: rest => do
    let first ← entrywise op part (op.leftPart field) (.member (.name "b") field)
    let others ← entrywiseMembers op rest
    return first :: others

end

/-- The dot product of real vectors. -/
def dot (s : Shape) (a b : Term) : Build Term := do
  match s with
  | .vector n .real =>
    s.validate
    if n ≤ maxNativeWidth then
      return .apply "dot" [a, b]
    else
      let f := Operation.dot.helperName s
      define s.storage
      enter .function f do
        let product := fun (field : String × Storage) =>
          .apply "dot" [.member (.name "a") field.1, .member (.name "b") field.1]
        return .function Shape.real.name f [⟨s.name, "a"⟩, ⟨s.name, "b"⟩]
          (.expression (Term.total (s.storage.members.map product)))
      return .apply f [a, b]
  | _ => throw (.unsupported s Operation.dot.name)

/-- A real matrix times a real vector. -/
def matVec (s : Shape) (m v : Term) : Build Term := do
  match s with
  | .matrix r c .real =>
    s.validate
    if s.isNative then
      return .grouped .times m v
    else
      let f := Operation.matVec.helperName s
      let input := Shape.realVector c
      let output := Shape.realVector r
      define s.storage
      define input.storage
      define output.storage
      enter .function f do
        let products ← (List.range r).mapM fun k =>
          dot input (.member (.name "a") s!"a{k}") (.name "b")
        let result ← construct output products
        return .function output.name f [⟨s.name, "a"⟩, ⟨input.name, "b"⟩] (.expression result)
      return .apply f [m, v]
  | _ => throw (.unsupported s Operation.matVec.name)

/-- The lines of a helper that adds up the elements of its parameter `a`. -/
def accumulate (s e : Shape) : Nat → Build (List (List Glsl.Statement))
  | 0 => pure []
  | n + 1 => do
    let lines ← accumulate s e n
    let item ← element s n
    let total ← entrywise .add e.storage (.name "res") (item (.name "a"))
    return lines ++ [[.assign "res" total]]

/-- The sum of the elements of a vector or the rows of a matrix. -/
def sum (s : Shape) (a : Term) : Build Term := do
  Build.requireField .sum s
  match s.element?, s.length? with
  | some e, some n =>
    if s.isRealVector then
      let ones ← fill .one s.storage
      dot s a ones
    else
      let f := Operation.sum.helperName s
      define s.storage
      define e.storage
      enter .function f do
        let zero ← fill (.zero false) e.storage
        let lines ← accumulate s e n
        return .function e.name f [⟨s.name, "a"⟩]
          (.block ([.define e.name "res" zero] :: lines ++ [[.yield (.name "res")]]))
      return .apply f [a]
  | _, _ => throw (.unsupported s Operation.sum.name)

/-- The product of complex scalars. -/
def complexMul (a b : Term) : Build Term := do
  let f := Operation.complexMul.helperName .complex
  enter .function f (pure Item.complexMulBody)
  return .apply f [a, b]

/-- A complex scalar times a complex value. -/
def complexScale (s : Shape) (a b : Term) : Build Term := do
  s.validate
  unless s.kind = .complex do
    throw (.unsupported s Operation.complexScale.name)
  if s = .complex then
    complexMul a b
  else
    let f := Operation.complexScale.helperName s
    let part := s.part.storage
    let multiple := fun (x field : String) =>
      entrywise .scale part (.member (.name "a") x) (.member (.name "b") field)
    define s.storage
    enter .function f do
      let xr ← multiple "x" "real"
      let yi ← multiple "y" "imag"
      let xi ← multiple "x" "imag"
      let yr ← multiple "y" "real"
      let re ← entrywise .sub part xr yi
      let im ← entrywise .add part xi yr
      return .function s.name f [⟨"vec2", "a"⟩, ⟨s.name, "b"⟩]
        (.expression (.apply s.name [re, im]))
    return .apply f [a, b]

/-- A complex matrix times a complex vector. -/
def complexMatVec (s : Shape) (m v : Term) : Build Term := do
  match s with
  | .matrix r c .complex =>
    s.validate
    let f := Operation.complexMatVec.helperName s
    let input := Shape.vector c .complex
    let output := Shape.vector r .complex
    let part := output.part.storage
    let product := fun (x y : String) =>
      matVec s.part (.member (.name "a") x) (.member (.name "b") y)
    define s.storage
    define input.storage
    define output.storage
    enter .function f do
      let rr ← product "real" "real"
      let ii ← product "imag" "imag"
      let ri ← product "real" "imag"
      let ir ← product "imag" "real"
      let re ← entrywise .sub part rr ii
      let im ← entrywise .add part ri ir
      return .function output.name f [⟨s.name, "a"⟩, ⟨input.name, "b"⟩]
        (.expression (.apply output.name [re, im]))
    return .apply f [m, v]
  | _ => throw (.unsupported s Operation.complexMatVec.name)

/-- The bilinear dot product of complex vectors. -/
def complexDot (s : Shape) (a b : Term) : Build Term := do
  match s with
  | .vector n .complex =>
    s.validate
    let f := Operation.complexDot.helperName s
    let product := fun (x y : String) =>
      dot (.realVector n) (.member (.name "a") x) (.member (.name "b") y)
    define s.storage
    enter .function f do
      let rr ← product "real" "real"
      let ii ← product "imag" "imag"
      let ri ← product "real" "imag"
      let ir ← product "imag" "real"
      return .function "vec2" f [⟨s.name, "a"⟩, ⟨s.name, "b"⟩]
        (.expression (.call .loose "vec2" [.binary .tight .minus rr ii, .binary .tight .plus ri ir]))
    return .apply f [a, b]
  | _ => throw (.unsupported s Operation.complexDot.name)

/-- An operation by its name, on operands in a list. -/
def apply (op : Operation) (s : Shape) (args : List Term) : Build Term :=
  match op, args with
  | .add, [a, b] => entrywise .add s.storage a b
  | .sub, [a, b] => entrywise .sub s.storage a b
  | .scale, [a, b] => entrywise .scale s.storage a b
  | .matVec, [a, b] => matVec s a b
  | .dot, [a, b] => dot s a b
  | .sum, [a] => sum s a
  | .complexMul, [a, b] => do
    unless s = .complex do
      throw (.unsupported s Operation.complexMul.name)
    complexMul a b
  | .complexScale, [a, b] => complexScale s a b
  | .complexMatVec, [a, b] => complexMatVec s a b
  | .complexDot, [a, b] => complexDot s a b
  | _, _ => throw (.arity s op.arity args.length)

end Strict

/-! ## Following -/

/-- A step without checks only adds entries, and unless a key is repeated in the end, the step with
checks does the same. -/
structure Follows {α : Type} (g : Build α) (m : Synth α) : Prop where
  grows : ∀ d, d.entries <+: (m.run d).2.entries
  agrees : ∀ d, (m.run d).2.Distinct → g.run.run d = (.ok (m.run d).1, (m.run d).2)

section Rules

variable {α β : Type} {g : Build α} {m : Synth α}

theorem follows_pure (a : α) : Follows (pure a) (pure a) :=
  ⟨fun _ => List.prefix_refl _, fun _ _ => rfl⟩

/-- **One step after another.**  The second may count on what the first can yield. -/
theorem Follows.bind {f : α → Build β} {k : α → Synth β} (hg : Follows g m)
    (hf : ∀ d, Follows (f (m.run d).1) (k (m.run d).1)) : Follows (g >>= f) (m >>= k) where
  grows d := (hg.grows d).trans ((hf d).grows _)
  agrees d hd := by
    have hmid := hg.agrees d (hd.of_prefix ((hf d).grows _))
    rw [ExceptT.run_bind, StateT.run_bind, hmid]
    exact (hf d).agrees _ hd

/-- A check that is passed. -/
theorem follows_check {x : Except Failure α} {a : α} (hx : x = .ok a) : Follows (liftM x) (pure a) := by
  subst hx
  exact ⟨fun _ => List.prefix_refl _, fun _ _ => rfl⟩

/-- A step that only checks, before further steps. -/
theorem Follows.sure {a : α} {f : α → Build β} {k : Synth β} (hg : Follows g (pure a))
    (hf : Follows (f a) k) : Follows (g >>= f) k :=
  hg.bind (k := fun _ => k) fun _ => hf

/-- A check that is passed, before further steps. -/
theorem Follows.check {x : Except Failure β} {b : β} {f : β → Build α} (hx : x = .ok b)
    (h : Follows (f b) m) : Follows (liftM x >>= f) m :=
  (follows_check hx).sure h

theorem Follows.guard {p : Prop} [Decidable p] {other : Build α} (hp : p) (h : Follows g m) :
    Follows (if p then g else other) m := by
  rwa [if_pos hp]

/-- **A definition is entered at a key that is still absent.** -/
theorem follows_enter {g : Build Declaration} {m : Synth Declaration} (h : Follows g m)
    (category : Category) (name : String) :
    Follows (Strict.enter category name g) (Synth.declare category name m) := by
  have hrun (d : Definitions) : (Synth.declare category name m).run d =
      if d.contains category name then ((), d)
      else ((), (m.run d).2.push category name (m.run d).1) := by
    simp only [Synth.declare, StateT.run_bind, StateT.run_get, pure_bind]
    split <;> rfl
  constructor
  · intro d
    rw [hrun]
    split
    · exact List.prefix_refl _
    · exact (h.grows d).trans (List.prefix_append _ _)
  · intro d hd
    rw [hrun] at hd ⊢
    have henter : (Strict.enter category name g).run.run d = (if d.contains category name then pure ()
        else g >>= fun body => (do
          let (emission, _) ← (← get).texts.insert category name body.text
          if emission = .generated then
            modify fun r => r.push category name body) : Build Unit).run.run d := rfl
    cases hc : d.contains category name with
    | true =>
      rw [henter, hc]
      rfl
    | false =>
      rw [hc] at hd
      have habsent := (Registry.distinct_push_iff.1 hd).2
      have hmake := h.agrees d (hd.of_prefix (List.prefix_append _ _))
      have hfind : (m.run d).2.texts.find? category name = none := by
        rwa [Registry.find?_eq_none_iff, Definitions.keys_texts]
      have hinsert : (m.run d).2.texts.insert category name (m.run d).1.text =
          .ok (.generated, (m.run d).2.texts.push category name (m.run d).1.text) := by
        rw [Registry.insert, hfind]
      rw [henter, hc, if_neg Bool.false_ne_true, ExceptT.run_bind, StateT.run_bind, hmake]
      change ((do
        let (emission, _) ← (liftM ((m.run d).2.texts.insert category name (m.run d).1.text) : Build _)
        if emission = .generated then
          modify fun r => r.push category name (m.run d).1) : Build Unit).run.run (m.run d).2 = _
      rw [hinsert]
      rfl

/-- Steps one after the other. -/
theorem follows_mapM {γ : Type} {f : γ → Build α} {k : γ → Synth α} {l : List γ}
    (h : ∀ x ∈ l, Follows (f x) (k x)) : Follows (l.mapM f) (l.mapM k) := by
  induction l with
  | nil => exact follows_pure []
  | cons x l ih =>
    rw [List.mapM_cons, List.mapM_cons]
    refine (h x List.mem_cons_self).bind fun d => ?_
    exact (ih fun y hy => h y (List.mem_cons_of_mem _ hy)).bind fun _ => follows_pure _

/-- Steps that only check. -/
theorem follows_mapM_pure {γ : Type} {f : γ → Build α} {k : γ → α} {l : List γ}
    (h : ∀ x ∈ l, Follows (f x) (pure (k x))) : Follows (l.mapM f) (pure (l.map k)) := by
  have hmap := follows_mapM h
  rwa [List.mapM_pure] at hmap

end Rules

theorem length_run_mapM {α γ : Type} (f : γ → Synth α) (l : List γ) (d : Definitions) :
    ((l.mapM f).run d).1.length = l.length := by
  induction l generalizing d with
  | nil => rfl
  | cons x l ih =>
    rw [List.mapM_cons]
    exact congrArg (· + 1) (ih _)

/-! ## Structs -/

theorem Shape.IsRecord.kind_isField {s : Shape} (h : s.IsRecord) : s.kind.isField := by
  rcases h.cases with ⟨n, rfl, -⟩ | ⟨n, rfl, -⟩ | ⟨r, c, rfl, -⟩ | ⟨r, c, rfl, -⟩ <;> rfl

theorem follows_defineMembers (ms : List (String × Shape))
    (ih : ∀ m ∈ ms, Follows (Strict.define m.2.storage) m.2.storage.define) :
    Follows (Strict.defineMembers (ms.map fun m => (m.1, m.2.storage)))
      (Storage.defineMembers (ms.map fun m => (m.1, m.2.storage))) := by
  induction ms with
  | nil => exact follows_pure []
  | cons m ms ihm =>
    rw [List.map_cons, Strict.defineMembers, Storage.defineMembers]
    refine (ih m List.mem_cons_self).bind fun _ => ?_
    exact (ihm fun n hn => ih n (List.mem_cons_of_mem _ hn)).bind fun _ => follows_pure _

theorem follows_define {s : Shape} (h : s.Valid) : Follows (Strict.define s.storage) s.storage.define := by
  induction s, h using Shape.inductionOn with
  | native s hv hn =>
    rw [Shape.storage_of_native hn, Strict.define, Storage.define]
    exact follows_check (Shape.validate_eq_ok_iff.2 hv)
  | record s hs ih =>
    rw [Shape.storage_of_record hs, Strict.define, Storage.define]
    refine Follows.check (Shape.validate_eq_ok_iff.2 hs.1) (Follows.guard hs.kind_isField ?_)
    exact follows_enter ((follows_defineMembers s.members ih).bind fun _ => follows_pure _) _ _

/-! ## Values and their elements -/

namespace Strict

theorem follows_checkOperands {s : Shape} {args : List Term} (hv : s.Valid)
    (hn : args.length = s.length?.getD 1) : Follows (checkOperands s args) (pure ()) :=
  Follows.check (Shape.validate_eq_ok_iff.2 hv) (Follows.guard hn (follows_pure ()))

/-- The pieces of a list have the widths that it is cut into. -/
theorem length_of_mem_zip_pieces {ws : List Nat} {args : List Term} (h : args.length = ws.sum)
    {part : Nat × List Term} (hp : part ∈ ws.zip (Synth.pieces ws args)) : part.2.length = part.1 := by
  induction ws generalizing args with
  | nil => cases hp
  | cons w ws ih =>
    rw [List.sum_cons] at h
    rw [Synth.pieces, List.zip_cons_cons, List.mem_cons] at hp
    rcases hp with rfl | hp
    · exact List.length_take_of_le (by omega)
    · exact ih (by rw [List.length_drop]; omega) hp

theorem length_pieces (ws : List Nat) (args : List Term) : (Synth.pieces ws args).length = ws.length := by
  induction ws generalizing args with
  | nil => rfl
  | cons w ws ih => rw [Synth.pieces, List.length_cons, ih, List.length_cons]

theorem follows_realVector {n : Nat} (h : 1 ≤ n ∧ n ≤ maxDimension) {args : List Term}
    (hn : args.length = n) : Follows (realVector n args) (Synth.realVector n args) := by
  refine (follows_checkOperands (Shape.realVector_valid h) hn).sure ?_
  unfold Synth.realVector
  split
  · rw [Synth.nativeVector, hn]
    exact follows_pure _
  · rename_i hw
    have hchunks : ∀ part ∈ (chunks n).zip (Synth.pieces (chunks n) args),
        Follows (nativeVector part.1 part.2) (pure (Synth.nativeVector part.2)) := by
      intro part hp
      have hlen := length_of_mem_zip_pieces (hn.trans (sum_chunks n).symm) hp
      have hw := chunk_bounds (by simp only [maxNativeWidth] at hw; omega) (List.of_mem_zip hp).1
      refine (follows_checkOperands (Shape.realVector_valid ⟨by omega, hw.2.trans (by decide)⟩) hlen).sure ?_
      rw [Synth.nativeVector, hlen]
      exact follows_pure _
    have hparts : ((chunks n).zip (Synth.pieces (chunks n) args)).map (fun part => Synth.nativeVector part.2) =
        (Synth.pieces (chunks n) args).map Synth.nativeVector := by
      rw [← List.map_snd_zip (length_pieces (chunks n) args).le, List.map_map, List.map_snd_zip (length_pieces _ _).le]
      rfl
    have hall := follows_mapM_pure hchunks
    rw [hparts] at hall
    exact (follows_define (Shape.realVector_valid h)).bind fun _ => hall.sure (follows_pure _)

theorem follows_realMatrix {r c : Nat} (hv : (Shape.matrix r c .real).Valid) {rows : List Term}
    (hn : rows.length = r) : Follows (realMatrix r c rows) (Synth.realMatrix r c rows) := by
  refine (follows_checkOperands hv hn).sure ?_
  unfold Synth.realMatrix
  dsimp only
  split
  · exact follows_pure _
  · exact (follows_define hv).bind fun _ => follows_pure _

theorem follows_construct {s : Shape} (hv : s.Valid) {args : List Term}
    (hn : args.length = s.length?.getD 1) : Follows (construct s args) (Synth.construct s args) := by
  refine (follows_checkOperands hv hn).sure ?_
  cases s with
  | scalar k => exact follows_pure _
  | vector n k =>
    cases k with
    | bool | int => simp [Shape.Valid, Scalar.isField] at hv
    | real => exact follows_realVector hv.1 hn
    | complex =>
      refine (follows_define hv).bind fun _ => ?_
      refine (follows_realVector hv.1 (by rwa [List.length_map])).bind fun _ => ?_
      exact (follows_realVector hv.1 (by rwa [List.length_map])).bind fun _ => follows_pure _
  | matrix r c k =>
    have hp : (Shape.matrix r c .real).Valid := Shape.realMatrix_valid hv.1 hv.2.1
    cases k with
    | bool | int => simp [Shape.Valid, Scalar.isField] at hv
    | real => exact follows_realMatrix hp hn
    | complex =>
      refine (follows_define hv).bind fun _ => ?_
      refine (follows_realMatrix hp (by rwa [List.length_map])).bind fun _ => ?_
      exact (follows_realMatrix hp (by rwa [List.length_map])).bind fun _ => follows_pure _

theorem follows_checkIndex {s : Shape} {n i : Nat} (hv : s.Valid) (hn : s.length? = some n) (hi : i < n) :
    Follows (checkIndex s i) (pure ()) := by
  refine Follows.check (Shape.validate_eq_ok_iff.2 hv) ?_
  simp only [hn]
  exact Follows.guard hi (follows_pure ())

theorem follows_realElement {s : Shape} {n i : Nat} (hv : s.Valid) (hn : s.length? = some n) (hi : i < n) :
    Follows (realElement s i) (pure (Synth.realElement s i)) := by
  refine (follows_checkIndex hv hn hi).sure ?_
  cases s with
  | scalar k => cases hn
  | matrix r c k => exact follows_pure _
  | vector m k =>
    obtain rfl : m = n := Option.some.inj hn
    dsimp only
    split
    · exact follows_pure _
    · rename_i hw
      obtain ⟨c, o, w, hl, -⟩ := locateIn_eq_some (show i < (chunks m).sum by rwa [sum_chunks])
      have hplace : locate i m = .ok (c, o) := by rw [locate, hl]
      have hone : m ≠ 1 := by simp only [maxNativeWidth] at hw; omega
      have helement : Synth.realElement (.vector m k) i = fun base => .index (base.part s!"a{c}") o := by
        funext base
        simp only [Synth.realElement, if_neg hone, if_neg hw, hl, Option.getD_some]
      rw [helement]
      exact Follows.check hplace (follows_pure _)

theorem follows_element {s : Shape} {n i : Nat} (hv : s.Valid) (hn : s.length? = some n) (hi : i < n) :
    Follows (element s i) (Synth.element s i) := by
  obtain ⟨e, he⟩ := Shape.exists_element?_of_length? hn
  refine (follows_checkIndex hv hn hi).sure ?_
  by_cases hk : s.kind = .complex
  · have hpart : s.part.Valid ∧ s.part.length? = some n := by
      cases s with
      | scalar k => cases hn
      | vector m k | matrix m c k =>
        obtain rfl : k = .complex := hk
        exact ⟨hv, hn⟩
    simp only [Synth.element, hk, he]
    refine (follows_define (Shape.valid_of_element? hv he)).bind fun _ => ?_
    exact (follows_realElement hpart.1 hpart.2 hi).sure (follows_pure _)
  · have hstep : Synth.element s i = pure (Synth.realElement s i) := by
      unfold Synth.element
      split
      · rename_i hc _
        exact absurd hc hk
      · rfl
    rw [hstep]
    split
    · rename_i hc _
      exact absurd hc hk
    · exact follows_realElement hv hn hi

/-! ## Constants -/

theorem follows_checkFill {s : Shape} {x : Binary64} {d : Decimal} (hv : s.Valid) (hk : s.kind.isField)
    (hx : literal? x = .ok d) : Follows (checkFill s x) (pure d) :=
  Follows.guard hk (Follows.check (Shape.validate_eq_ok_iff.2 hv) (follows_check hx))

theorem follows_fillMembers {x : Binary64} {d : Decimal} (ms : List (String × Shape))
    (ih : ∀ m ∈ ms, Follows (fill x m.2.storage) (m.2.storage.fill (.literal d))) :
    Follows (fillMembers x (ms.map fun m => (m.1, m.2.storage)))
      (Storage.fillMembers (.literal d) (ms.map fun m => (m.1, m.2.storage))) := by
  induction ms with
  | nil => exact follows_pure []
  | cons m ms ihm =>
    rw [List.map_cons, fillMembers, Storage.fillMembers]
    refine (ih m List.mem_cons_self).bind fun _ => ?_
    exact (ihm fun n hn => ih n (List.mem_cons_of_mem _ hn)).bind fun _ => follows_pure _

theorem follows_fill {x : Binary64} {d : Decimal} (hx : literal? x = .ok d) {s : Shape} (h : s.Valid)
    (hk : s.kind.isField) : Follows (fill x s.storage) (s.storage.fill (.literal d)) := by
  induction s, h using Shape.inductionOn with
  | native s hv hn =>
    rw [Shape.storage_of_native hn, fill, Storage.fill]
    exact (follows_checkFill hv hk hx).sure (follows_pure _)
  | record s hs ih =>
    have hdefine := follows_define hs.1
    have hparts := follows_fillMembers s.members fun m hm =>
      ih m hm (by rw [Shape.kind_of_mem_members hs hm]; rfl)
    rw [Shape.storage_of_record hs] at hdefine ⊢
    rw [fill, Storage.fill]
    refine (follows_checkFill hs.1 hk hx).sure (hdefine.bind fun _ => ?_)
    exact hparts.bind fun _ => follows_pure _

/-! ## Entrywise operations -/

theorem follows_requireField (op : Operation) {s : Shape} (hv : s.Valid) (hk : s.kind.isField) :
    Follows (Build.requireField op s) (pure ()) :=
  Follows.check (Shape.validate_eq_ok_iff.2 hv) (Follows.guard hk (follows_pure ()))

theorem follows_entrywiseMembers (op : Entrywise) (ms : List (String × Shape))
    (ih : ∀ m ∈ ms, ∀ a b, Follows (entrywise op m.2.storage a b) (m.2.storage.entrywise op a b)) :
    Follows (entrywiseMembers op (ms.map fun m => (m.1, m.2.storage)))
      (Storage.entrywiseMembers op (ms.map fun m => (m.1, m.2.storage))) := by
  induction ms with
  | nil => exact follows_pure []
  | cons m ms ihm =>
    rw [List.map_cons, entrywiseMembers, Storage.entrywiseMembers]
    refine (ih m List.mem_cons_self _ _).bind fun _ => ?_
    exact (ihm fun n hn => ih n (List.mem_cons_of_mem _ hn)).bind fun _ => follows_pure _

theorem follows_entrywise (op : Entrywise) {s : Shape} (h : s.Valid) (hk : s.kind.isField) :
    ∀ a b, Follows (entrywise op s.storage a b) (s.storage.entrywise op a b) := by
  induction s, h using Shape.inductionOn with
  | native s hv hn =>
    intro a b
    rw [Shape.storage_of_native hn, entrywise, Storage.entrywise]
    exact (follows_requireField _ hv hk).sure (follows_pure _)
  | record s hs ih =>
    intro a b
    have hdefine := follows_define hs.1
    have hparts := follows_entrywiseMembers op s.members fun m hm =>
      ih m hm (by rw [Shape.kind_of_mem_members hs hm]; rfl)
    rw [Shape.storage_of_record hs] at hdefine ⊢
    rw [entrywise, Storage.entrywise]
    refine (follows_requireField _ hs.1 hk).sure (hdefine.bind fun _ => ?_)
    exact (follows_enter (hparts.bind fun _ => follows_pure _) _ _).bind fun _ => follows_pure _

/-! ## Products and sums -/

theorem follows_dot {n : Nat} (hv : (Shape.realVector n).Valid) (a b : Term) :
    Follows (dot (.realVector n) a b) (Synth.dot n a b) := by
  refine Follows.check (Shape.validate_eq_ok_iff.2 hv) ?_
  unfold Synth.dot
  split
  · exact follows_pure _
  · refine (follows_define hv).bind fun _ => ?_
    exact (follows_enter (follows_pure _) _ _).bind fun _ => follows_pure _

theorem follows_matVec {r c : Nat} (hv : (Shape.matrix r c .real).Valid) (m v : Term) :
    Follows (matVec (.matrix r c .real) m v) (Synth.matVec r c m v) := by
  have hrow := Shape.realVector_valid hv.2.1
  have hcolumn := Shape.realVector_valid hv.1
  refine Follows.check (Shape.validate_eq_ok_iff.2 hv) ?_
  unfold Synth.matVec
  dsimp only
  split
  · exact follows_pure _
  · refine (follows_define hv).bind fun _ => (follows_define hrow).bind fun _ =>
      (follows_define hcolumn).bind fun _ => (follows_enter ?_ _ _).bind fun _ => follows_pure _
    refine (follows_mapM fun k _ => follows_dot hrow _ _).bind fun d => ?_
    -- there is one product for every row
    refine (follows_construct (s := .realVector r) hcolumn ?_).bind fun _ => follows_pure _
    rw [length_run_mapM, List.length_range]
    rfl

theorem follows_accumulate {s e : Shape} {n : Nat} (hv : s.Valid) (he : s.element? = some e)
    (hn : s.length? = some n) {k : Nat} (hk : k ≤ n) : Follows (accumulate s e k) (Synth.accumulate s e k) := by
  have hkind : e.kind.isField := Shape.kind_of_element? he ▸ Shape.kind_isField hv he
  induction k with
  | zero => exact follows_pure []
  | succ k ih =>
    refine (ih (by omega)).bind fun _ => (follows_element hv hn (by omega)).bind fun _ => ?_
    exact (follows_entrywise .add (Shape.valid_of_element? hv he) hkind _ _).bind fun _ => follows_pure _

theorem literal?_one : literal? .one = .ok .one := by
  decide +kernel

theorem literal?_zero : literal? (.zero false) = .ok .zero :=
  rfl

theorem follows_sum {s e : Shape} {n : Nat} (hv : s.Valid) (he : s.element? = some e)
    (hn : s.length? = some n) (a : Term) : Follows (sum s a) (Synth.sum s e n a) := by
  have hk := Shape.kind_isField hv he
  have hve := Shape.valid_of_element? hv he
  refine (follows_requireField _ hv hk).sure ?_
  simp only [he, hn]
  unfold Synth.sum
  split
  · rename_i hr
    refine (follows_fill literal?_one hv hk).bind fun _ => ?_
    cases s with
    | scalar k | matrix r c k => cases hr
    | vector m k =>
      obtain rfl : m = n := Option.some.inj hn
      cases k with
      | bool | int | complex => cases hr
      | real => exact follows_dot hv _ _
  · refine (follows_define hv).bind fun _ => (follows_define hve).bind fun _ =>
      (follows_enter ?_ _ _).bind fun _ => follows_pure _
    refine (follows_fill literal?_zero hve (Shape.kind_of_element? he ▸ hk)).bind fun _ => ?_
    exact (follows_accumulate hv he hn (Nat.le_refl n)).bind fun _ => follows_pure _

/-! ## Complex operations -/

theorem follows_complexMul (a b : Term) : Follows (complexMul a b) (Synth.complexMul a b) :=
  (follows_enter (follows_pure _) _ _).bind fun _ => follows_pure _

theorem follows_complexScale {s : Shape} (hv : s.Valid) (hk : s.kind = .complex) (hs : s ≠ .complex)
    (a b : Term) : Follows (complexScale s a b) (Synth.complexScale s a b) := by
  have hpart : s.part.Valid ∧ s.part.kind.isField := by
    cases s with
    | scalar k => exact absurd (congrArg Shape.scalar hk) hs
    | vector n k | matrix r c k =>
      obtain rfl : k = .complex := hk
      exact ⟨hv, rfl⟩
  have hentry (op : Entrywise) (x y : Term) := follows_entrywise op hpart.1 hpart.2 x y
  refine Follows.check (Shape.validate_eq_ok_iff.2 hv) ?_
  rw [if_pos hk, if_neg hs]
  refine (follows_define hv).bind fun _ => (follows_enter ?_ _ _).bind fun _ => follows_pure _
  refine (hentry .scale _ _).bind fun _ => (hentry .scale _ _).bind fun _ => ?_
  refine (hentry .scale _ _).bind fun _ => (hentry .scale _ _).bind fun _ => ?_
  exact (hentry .sub _ _).bind fun _ => (hentry .add _ _).bind fun _ => follows_pure _

theorem follows_complexMatVec {r c : Nat} (hv : (Shape.matrix r c .complex).Valid) (m v : Term) :
    Follows (complexMatVec (.matrix r c .complex) m v) (Synth.complexMatVec r c m v) := by
  have hproduct (x y : Term) := follows_matVec (Shape.realMatrix_valid hv.1 hv.2.1) x y
  have hentry (op : Entrywise) (x y : Term) := follows_entrywise op (Shape.realVector_valid hv.1) rfl x y
  refine Follows.check (Shape.validate_eq_ok_iff.2 hv) ?_
  refine (follows_define hv).bind fun _ => (follows_define (Shape.complexVector_valid hv.2.1)).bind fun _ =>
    (follows_define (Shape.complexVector_valid hv.1)).bind fun _ =>
      (follows_enter ?_ _ _).bind fun _ => follows_pure _
  refine (hproduct _ _).bind fun _ => (hproduct _ _).bind fun _ => ?_
  refine (hproduct _ _).bind fun _ => (hproduct _ _).bind fun _ => ?_
  exact (hentry .sub _ _).bind fun _ => (hentry .add _ _).bind fun _ => follows_pure _

theorem follows_complexDot {n : Nat} (hv : (Shape.vector n .complex).Valid) (a b : Term) :
    Follows (complexDot (.vector n .complex) a b) (Synth.complexDot n a b) := by
  have hproduct (x y : Term) := follows_dot (Shape.realVector_valid hv.1) x y
  refine Follows.check (Shape.validate_eq_ok_iff.2 hv) ?_
  refine (follows_define hv).bind fun _ => (follows_enter ?_ _ _).bind fun _ => follows_pure _
  refine (hproduct _ _).bind fun _ => (hproduct _ _).bind fun _ => ?_
  exact (hproduct _ _).bind fun _ => (hproduct _ _).bind fun _ => follows_pure _

end Strict
end ShaderAlgebra
