import ShaderAlgebra.Proofs.WellTyped

/-!
# Names of inputs and names of the shader

The inputs of a program stand among the other names of its shader: what the shader declares
at its top (`Program.declared`), and what it calls (`Program.called`).  A
program calls nothing but builtins and what it declares, since it is well typed.  So an input has
a name of the shader in few cases only (`Session.uniform_clash_iff`): the name of a struct or
a helper of the session, `main`, a builtin that is called, or the colour of the newer dialect.
-/

namespace ShaderAlgebra

namespace Glsl

namespace Term

mutual

/-- The functions and constructors that a term calls. -/
def calls : Term → List String
  | raw _ | literal _ | name _ => []
  | member base _ | index base _ => base.calls
  | call _ f args => f :: callsAll args
  | binary _ _ lhs rhs => lhs.calls ++ rhs.calls
  | negate term | group term => term.calls

/-- The functions and constructors that terms call. -/
def callsAll : List Term → List String
  | [] => []
  | t :: ts => t.calls ++ callsAll ts

end

end Term

/-- The functions and constructors that a statement calls. -/
def Statement.calls : Statement → List String
  | define _ _ value | assign _ value | decrease _ value | yield value => value.calls
  | returnIf condition value => condition.calls ++ value.calls

/-- The functions and constructors that a body calls. -/
def Body.calls : Body → List String
  | expression value => value.calls
  | block lines => lines.flatten.flatMap Statement.calls

namespace Declaration

/-- The name that a declaration declares. -/
def declares : Declaration → String
  | uniform binder => binder.name
  | struct name _ | function _ name _ _ => name

/-- The functions and constructors that a declaration calls. -/
def calls : Declaration → List String
  | uniform _ | struct _ _ => []
  | function _ _ _ body => body.calls

end Declaration

/-! ## What is well typed calls what is there -/

namespace Scope

variable {Δ Δ' : Scope} {vars : List Binder}

/-- A struct or a function of the name was declared. -/
def Has (Δ : Scope) (f : String) : Prop :=
  Δ.structs.lookup f ≠ none ∨ Δ.functions.lookup f ≠ none

/-- A name that may be called. -/
def Callable (Δ : Scope) (f : String) : Prop :=
  f ∈ builtinNames ∨ Δ.Has f

theorem callable_of_callType {f : String} {args : List String} {type : String}
    (h : Δ.callType f args = some type) : Δ.Callable f := by
  unfold callType at h
  split at h
  · rename_i hb
    exact .inl hb
  · cases hs : Δ.structs.lookup f with
    | some members => exact .inr (.inl (by simp [hs]))
    | none =>
      cases hf : Δ.functions.lookup f with
      | some signature => exact .inr (.inr (by simp [hf]))
      | none => simp [hs, hf] at h

mutual

theorem callable_of_typeOf : ∀ (t : Term) {type : String}, Δ.typeOf vars t = some type →
    ∀ f ∈ t.calls, Δ.Callable f
  | .raw _, _, _ | .literal _, _, _ | .name _, _, _ => fun _ hf => nomatch hf
  | .member base _, _, h => by
    rw [typeOf] at h
    obtain ⟨a, ha, -⟩ := Option.bind_eq_some_iff.1 h
    exact callable_of_typeOf base ha
  | .index base _, _, h => by
    rw [typeOf] at h
    obtain ⟨a, ha, -⟩ := Option.bind_eq_some_iff.1 h
    exact callable_of_typeOf base ha
  | .call _ g args, _, h => by
    rw [typeOf] at h
    obtain ⟨types, hargs, hcall⟩ := Option.bind_eq_some_iff.1 h
    exact List.forall_mem_cons.2 ⟨callable_of_callType hcall, callable_of_typesOf args hargs⟩
  | .binary _ _ lhs rhs, _, h => by
    rw [typeOf] at h
    obtain ⟨a, ha, h⟩ := Option.bind_eq_some_iff.1 h
    obtain ⟨b, hb, -⟩ := Option.bind_eq_some_iff.1 h
    exact List.forall_mem_append.2 ⟨callable_of_typeOf lhs ha, callable_of_typeOf rhs hb⟩
  | .negate term, _, h => by
    rw [typeOf] at h
    obtain ⟨a, ha, -⟩ := Option.bind_eq_some_iff.1 h
    exact callable_of_typeOf term ha
  | .group term, _, h => by
    rw [typeOf] at h
    exact callable_of_typeOf term h

theorem callable_of_typesOf : ∀ (ts : List Term) {types : List String},
    Δ.typesOf vars ts = some types → ∀ f ∈ Term.callsAll ts, Δ.Callable f
  | [], _, _ => fun _ hf => nomatch hf
  | t :: ts, _, h => by
    rw [typesOf] at h
    obtain ⟨a, ha, h⟩ := Option.bind_eq_some_iff.1 h
    obtain ⟨as, has, -⟩ := Option.map_eq_some_iff.1 h
    exact List.forall_mem_append.2 ⟨callable_of_typeOf t ha, callable_of_typesOf ts has⟩

end

theorem callable_of_statementsType (statements : List Statement) {vars : List Binder} {type : String}
    (h : Δ.statementsType vars statements = some type) :
    ∀ f ∈ statements.flatMap Statement.calls, Δ.Callable f := by
  fun_induction statementsType Δ vars statements with
  | case1 vars value => simpa [Statement.calls] using callable_of_typeOf value h
  | case2 vars type x value rest hc ih =>
    exact List.forall_mem_append.2 ⟨callable_of_typeOf value hc.1, ih h⟩
  | case4 vars x value rest hc ih =>
    obtain ⟨t, ht⟩ := Option.isSome_iff_exists.1 hc.1
    exact List.forall_mem_append.2 ⟨callable_of_typeOf value (hc.2.trans ht), ih h⟩
  | case3 | case5 | case6 => cases h

theorem callable_of_bodyType {body : Body} {type : String}
    (h : Δ.bodyType vars body = some type) : ∀ f ∈ body.calls, Δ.Callable f := by
  cases body with
  | expression value => exact callable_of_typeOf value h
  | block lines => exact callable_of_statementsType _ h

theorem Has.check {d : Declaration} (h : Δ.check d = some Δ') {f : String} (hf : Δ.Has f) :
    Δ'.Has f := by
  cases d with
  | uniform binder => cases h
  | struct name members =>
    rw [Scope.check, Option.ite_none_right_eq_some] at h
    obtain rfl := Option.some.inj h.2
    refine hf.imp_left fun hs => ?_
    simp only [List.lookup_append, ne_eq, Option.or_eq_none_iff, not_and]
    exact fun hn => absurd hn hs
  | function result name parameters body =>
    rw [Scope.check, Option.ite_none_right_eq_some] at h
    obtain rfl := Option.some.inj h.2
    refine hf.imp_right fun hs => ?_
    simp only [List.lookup_append, ne_eq, Option.or_eq_none_iff, not_and]
    exact fun hn => absurd hn hs

theorem callable_of_check {d : Declaration} (h : Δ.check d = some Δ') :
    ∀ f ∈ d.calls, Δ.Callable f := by
  cases d with
  | uniform binder => cases h
  | struct name members => exact fun _ hf => nomatch hf
  | function result name parameters body =>
    rw [Scope.check, Option.ite_none_right_eq_some] at h
    exact callable_of_bodyType h.1.2.2.2

/-- **Declarations that are right one after the other call what is declared in the end.** -/
theorem callable_of_checkAll {ds : List Declaration} (h : Δ.checkAll ds = some Δ') :
    (∀ f, Δ.Has f → Δ'.Has f) ∧ ∀ d ∈ ds, ∀ f ∈ d.calls, Δ'.Callable f := by
  induction ds generalizing Δ with
  | nil =>
    obtain rfl : Δ = Δ' := Option.some.inj h
    exact ⟨fun _ => id, fun _ hd => nomatch hd⟩
  | cons d ds ih =>
    obtain ⟨Δ₁, hcheck, h⟩ := Option.bind_eq_some_iff.1 h
    obtain ⟨hmono, hcalls⟩ := ih h
    refine ⟨fun f hf => hmono f (hf.check hcheck), List.forall_mem_cons.2 ⟨fun f hf => ?_, hcalls⟩⟩
    exact (callable_of_check hcheck f hf).imp_right fun hf => hmono f (hf.check hcheck)

end Scope
end Glsl

/-! ## The names of a shader -/

open Glsl (Term Binder Declaration Scope)
open Glsl.Scope

namespace Textures

/-- The declarations of all readers, in order. -/
def declarations (t : Textures) : List Declaration :=
  (t.readers.bodies .function).flatten

end Textures

namespace Program

/-- The variable that a shader declares for its colour. -/
def outputs : Version → List String
  | .es100 => []
  | .es300 => [target .es300]

/-- The names that the shader of a program declares at its top, besides its inputs. -/
def declared (p : Program) : List String :=
  p.definitions.declarations.map Declaration.declares ++
    p.textures.declarations.map Declaration.declares ++
    pixelName :: outputs p.settings.version ++ ["main"]

/-- The functions and constructors that the shader of a program calls. -/
def called (p : Program) : List String :=
  p.definitions.declarations.flatMap Declaration.calls ++
    p.textures.declarations.flatMap Declaration.calls ++
    match p.color with
    | .ok color => color.calls
    | .error _ => []

end Program

/-- The colour calls the constructors of its vectors, and what the expression calls. -/
theorem Program.calls_color {p : Program} {t : Term} (h : p.color = .ok t) :
    t.calls = "vec4" :: "vec3" :: p.expression.calls ∨ t.calls = "vec4" :: p.expression.calls ∨
      t.calls = p.expression.calls := by
  unfold Program.color at h
  split at h <;> cases h
  · exact .inl (by simp [Term.calls, Term.callsAll])
  · exact .inl (by simp [Term.calls, Term.callsAll])
  · exact .inr (.inl (by simp [Term.calls, Term.callsAll]))
  · exact .inr (.inr rfl)

/-- Names that begin with an underscore are no names of inputs. -/
theorem InputName.ne_of_head? {name other : String} (h : InputName name)
    (ho : other.toList.head? = some '_') : name ≠ other := by
  rintro rfl
  exact h.2.2 ho

theorem Item.declares_body {x : Item} (hx : x.Admissible) : x.body.declares = x.name := by
  cases x with
  | struct s => rfl
  | helper op s =>
    obtain ⟨result, parameters, body, hb⟩ := helper_body hx
    rw [hb]
    rfl

/-! ### Texture readers -/

namespace Textures

/-- A reader that is there can be called. -/
theorem Shows.callType_reader {version : Version} {t : Textures} {names : List String}
    (h : t.Shows version names) {Δ : Scope} {name : String} (channels : Channels)
    (hs : Δ.structs.lookup (channels.reader name) = none)
    (hf : Δ.functions.lookup (channels.reader name) = none) (hn : name ∈ names) :
    (Δ.withReaders t).callType (channels.reader name) ["vec2", "vec2", "vec2"] =
      some channels.shape.name := by
  have hsig : (Δ.withReaders t).functions.lookup (channels.reader name) =
      some ⟨["vec2", "vec2", "vec2"], channels.shape.name⟩ := by
    rw [Scope.withReaders, List.lookup_append, hf, Option.none_or, h.signatures_eq]
    exact lookup_readerSignatures channels hn
  rw [callType, if_neg (reader_not_builtin channels name), hsig,
    show (Δ.withReaders t).structs.lookup (channels.reader name) = none from hs]
  exact if_pos rfl

/-- The functions of a scope with readers are those of the scope, and readers. -/
theorem Shows.has_withReaders {version : Version} {t : Textures} {names : List String}
    (h : t.Shows version names) {Δ : Scope} {f : String} (hf : (Δ.withReaders t).Has f) :
    Δ.Has f ∨ f.toList.head? = some '_' := by
  rcases hf with hf | hf
  · exact .inl (.inl hf)
  · rw [Scope.withReaders, List.lookup_append, h.signatures_eq] at hf
    cases hΔ : Δ.functions.lookup f with
    | some signature => exact .inl (.inr (by simp [hΔ]))
    | none =>
      rw [hΔ, Option.none_or] at hf
      obtain ⟨signature, hsig⟩ := Option.ne_none_iff_exists'.1 hf
      obtain ⟨_, _, hl, -⟩ := List.lookup_eq_some_iff.1 hsig
      have hmem : (f, signature) ∈ names.flatMap readerSignatures := by rw [hl]; simp
      obtain ⟨name, -, hmem⟩ := List.mem_flatMap.1 hmem
      obtain ⟨channels, -, he⟩ := List.mem_map.1 hmem
      obtain rfl : channels.reader name = f := congrArg Prod.fst he
      exact .inr (head?_reader channels name)

theorem Shows.declarations_eq {version : Version} {t : Textures} {names : List String}
    (h : t.Shows version names) : t.declarations = names.flatMap (reader version) := by
  rw [declarations, h.bodies_eq, ← List.flatMap_def]

/-- All that a reader declares begins with an underscore. -/
theorem head?_declares {version : Version} {image : String} {d : Declaration}
    (h : d ∈ reader version image) : d.declares.toList.head? = some '_' := by
  simp only [reader, List.mem_cons, List.not_mem_nil, or_false] at h
  rcases h with rfl | rfl | rfl | rfl | rfl <;>
    simp [Declaration.declares, TextureBinding.samplerOf, TextureBinding.ratioOf,
      TextureBinding.cropFactorOf, Channels.reader]

/-- A reader calls builtins and the reader of all channels. -/
theorem calls_reader {version : Version} {image : String} {d : Declaration}
    (h : d ∈ reader version image) : ∀ f ∈ d.calls, f ∈ builtinNames ∨ f = version.textureFunction ∨
      f.toList.head? = some '_' := by
  have hbody : (readerBody version image).calls = ["dot", "vec2", "dot", "dot", "vec2",
      version.textureFunction, "vec4"] := rfl
  simp only [reader, List.mem_cons, List.not_mem_nil, or_false] at h
  rcases h with rfl | rfl | rfl | rfl | rfl
  · exact fun _ hf => nomatch hf
  · exact fun _ hf => nomatch hf
  · exact fun _ hf => nomatch hf
  · rw [Declaration.calls, hbody]
    simp [builtinNames]
  · intro f hf
    obtain rfl : f = Channels.rgba.reader image := List.mem_singleton.1 hf
    exact .inr (.inr (head?_reader _ _))

end Textures

namespace Session

/-- **The names behind a compiled program:** the scope of its definitions has the names of its items
only, and its expression is well typed over that scope and the readers of some images. -/
theorem exists_scope {settings : Settings} {s : Session} (h : s.IsOrdered settings)
    {images : String → Option Image} {e : Expr} {p : Program} (hp : (s.compile images e).1 = .ok p) :
    ∃ (c : Catalog) (names : List String) (Δ : Scope), p.definitions = c.definitions ∧
      p.textures.Shows settings.version names ∧ Supported c.items p.uniforms ∧
      Scope.empty.checkAll c.definitions.declarations = some Δ ∧
      (∀ f, Δ.Has f → ∃ x ∈ c.items, x.name = f) ∧
      (Δ.withReaders p.textures).typeOf p.variables p.expression = some p.shape.name := by
  obtain ⟨c, names, readers, hdef, hshows, havail, hsup, htrans⟩ := exists_translation h hp
  obtain ⟨Δ, hΔ, hoffers, hfree⟩ := c.exists_scope
  have hhas : ∀ f, Δ.Has f → ∃ x ∈ c.items, x.name = f := by
    intro f hf
    by_contra hnone
    obtain ⟨hs, hg⟩ := hfree f fun x hx he => hnone ⟨x, hx, he⟩
    exact hf.elim (absurd hs) (absurd hg)
  refine ⟨c, names, Δ, hdef, hshows, hsup, hΔ, hhas, htrans.typed ⟨fun x hx => ?_, rfl, ?_, ?_⟩⟩
  · exact (hoffers x hx).withReaders (c.closed.admissible x hx) _
  · exact fun name s hn hu => typeOfVar_uniforms hn.2.1 hu
  · intro name hr ha channels
    obtain ⟨hnone, hfun⟩ := hfree (channels.reader name) fun x hx =>
      name_ne_reader (c.closed.admissible x hx) channels name
    exact hshows.callType_reader channels hnone hfun (havail name hr ha)

/-- A program has the settings of its session. -/
theorem settings_of_compile {settings : Settings} {s : Session} (h : s.IsOrdered settings)
    {images : String → Option Image} {e : Expr} {p : Program} (hp : (s.compile images e).1 = .ok p) :
    p.settings = settings := by
  rw [← (h.compile images e).1]
  unfold compile at hp ⊢
  dsimp only at hp ⊢
  generalize (Compile.node images e).run.run { s with uniforms := [], diagnostics := [] } = out at hp ⊢
  obtain ⟨result, s'⟩ := out
  cases result with
  | error failure => cases hp
  | ok t =>
    injection hp with hp
    rw [← hp]

/-- The names of what a catalog declares are those of its entries. -/
theorem mem_declares_iff (c : Catalog) (name : String) :
    name ∈ c.definitions.declarations.map Declaration.declares ↔
      name ∈ c.definitions.entries.map (·.name) := by
  have hname : ∀ x ∈ c.items, x.body.declares = x.name := fun x hx =>
    Item.declares_body (c.closed.admissible x hx)
  rw [c.declarations_eq, Catalog.definitions]
  simp only [List.map_map, List.mem_map, Function.comp_apply, mem_printed]
  exact exists_congr fun x => and_congr_right fun hx => by rw [hname x hx]; rfl

/-- **What the shader of a program calls:** a builtin, a definition of the session, or a name that
begins with an underscore. -/
theorem called_cases {settings : Settings} {s : Session} (h : s.IsOrdered settings)
    {images : String → Option Image} {e : Expr} {p : Program} (hp : (s.compile images e).1 = .ok p)
    {f : String} (hf : f ∈ p.called) :
    (f ∈ builtinNames ∨ f = settings.version.textureFunction) ∨
      f ∈ p.definitions.entries.map (·.name) ∨ f.toList.head? = some '_' := by
  obtain ⟨c, names, Δ, hdef, hshows, -, hΔ, hhas, htype⟩ := exists_scope h hp
  have hin : ∀ {f}, Δ.Has f → f ∈ p.definitions.entries.map (·.name) := by
    intro f hf
    obtain ⟨x, hx, rfl⟩ := hhas f hf
    rw [hdef]
    exact List.mem_map.2 ⟨x.entry, List.mem_map_of_mem hx, rfl⟩
  have hexpr : ∀ f ∈ p.expression.calls, f ∈ builtinNames ∨
      f ∈ p.definitions.entries.map (·.name) ∨ f.toList.head? = some '_' := by
    intro f hf
    refine (callable_of_typeOf _ htype f hf).imp_right fun hf => ?_
    exact (hshows.has_withReaders hf).imp_left hin
  unfold Program.called at hf
  rw [List.append_assoc, List.mem_append, List.mem_append] at hf
  rcases hf with hf | hf | hf
  · obtain ⟨d, hd, hf⟩ := List.mem_flatMap.1 hf
    rw [hdef] at hd
    rcases (callable_of_checkAll hΔ).2 d hd f hf with hb | hf
    · exact .inl (.inl hb)
    · exact .inr (.inl (hin hf))
  · rw [hshows.declarations_eq] at hf
    obtain ⟨d, hd, hf⟩ := List.mem_flatMap.1 hf
    obtain ⟨image, -, hd⟩ := List.mem_flatMap.1 hd
    rcases Textures.calls_reader hd f hf with hb | ht | hu
    · exact .inl (.inl hb)
    · exact .inl (.inr ht)
    · exact .inr (.inr hu)
  · cases hc : p.color with
    | error failure =>
      rw [hc] at hf
      cases hf
    | ok color =>
      have hvec : ∀ f ∈ ["vec4", "vec3"], f ∈ builtinNames := by decide
      rw [hc] at hf
      dsimp only at hf
      have hf : f ∈ ["vec4", "vec3"] ∨ f ∈ p.expression.calls := by
        rcases Program.calls_color hc with h | h | h <;> rw [h] at hf <;> grind
      rcases hf with hf | hf
      · exact .inl (.inl (hvec f hf))
      · exact (hexpr f hf).imp_left .inl

/-- **When the name of an input is a name of its shader.**  A shader declares and calls many names:
its structs and helpers, the uniforms and functions of its texture readers, the pixel, its colour,
`main` and the builtins.  The name of an input is among them just if it is that of a struct or
helper of the session, that of a builtin that is called, `main`, or the colour of the newer dialect. -/
theorem uniform_clash_iff (settings : Settings) (calls : List ((String → Option Image) × Expr))
    (images : String → Option Image) (e : Expr) {p : Program}
    (hp : (((start settings).after calls).compile images e).1 = .ok p) :
    ∀ u ∈ p.uniforms, (u.1 ∈ p.declared ∨ u.1 ∈ p.called) ↔
      u.1 ∈ p.definitions.entries.map (·.name) ∨ u.1 = "main" ∨
        (settings.version = .es300 ∧ u.1 = "fragColor") ∨
        (u.1 ∈ builtinNames ∨ u.1 = settings.version.textureFunction) ∧ u.1 ∈ p.called := by
  have hs := (start_isOrdered settings).after calls
  obtain ⟨c, names, Δ, hdef, hshows, hsup, -⟩ := exists_scope hs hp
  intro u hu
  obtain ⟨hn, -⟩ := hsup u hu
  have hdeclared : u.1 ∈ p.declared ↔ u.1 ∈ p.definitions.entries.map (·.name) ∨ u.1 = "main" ∨
      (settings.version = .es300 ∧ u.1 = "fragColor") := by
    have hreader : u.1 ∉ p.textures.declarations.map Declaration.declares := by
      intro hmem
      rw [hshows.declarations_eq] at hmem
      obtain ⟨d, hd, hdu⟩ := List.mem_map.1 hmem
      obtain ⟨image, -, hd⟩ := List.mem_flatMap.1 hd
      exact hn.ne_of_head? (Textures.head?_declares hd) hdu.symm
    have houtput : u.1 ∈ Program.outputs settings.version ↔
        settings.version = .es300 ∧ u.1 = "fragColor" := by
      cases settings.version <;> simp [Program.outputs, Program.target]
    rw [Program.declared, settings_of_compile hs hp]
    simp only [List.mem_append, List.mem_cons, List.not_mem_nil, or_false, hreader, hn.2.1, false_or,
      houtput]
    rw [hdef, mem_declares_iff, or_assoc, or_comm (b := u.1 = "main")]
  have hcalled : u.1 ∈ p.called → u.1 ∈ p.definitions.entries.map (·.name) ∨
      (u.1 ∈ builtinNames ∨ u.1 = settings.version.textureFunction) := by
    intro hf
    rcases called_cases hs hp hf with hb | hd | hu
    · exact .inr hb
    · exact .inl hd
    · exact absurd hu hn.2.2
  rw [hdeclared]
  constructor
  · rintro ((hd | hm | hc) | hf)
    · exact .inl hd
    · exact .inr (.inl hm)
    · exact .inr (.inr (.inl hc))
    · exact (hcalled hf).imp_right fun hb => .inr (.inr ⟨hb, hf⟩)
  · rintro (hd | hm | hc | ⟨-, hf⟩)
    · exact .inl (.inl hd)
    · exact .inl (.inr (.inl hm))
    · exact .inl (.inr (.inr hc))
    · exact .inr hf

/-- An input with another name. -/
theorem uniform_clash_iff_tone :
    ∃ p, (((start .webgl2).after []).compile (fun _ => none) (.uniform "tone" .real)).1 = .ok p ∧
      ("tone", .real) ∈ p.uniforms ∧ ¬ ("tone" ∈ p.declared ∨ "tone" ∈ p.called) := by
  refine ⟨_, rfl, by decide, ?_⟩
  exact (uniform_clash_iff .webgl2 [] (fun _ => none) (.uniform "tone" .real) rfl ("tone", .real)
    (by decide)).not.2 (by decide)

/-- An input with the name of the colour is accepted, and its shader declares the name twice. -/
theorem uniform_clash_fragColor :
    ∃ p, ((start .webgl2).compile (fun _ => none) (.uniform "fragColor" .real)).1 = .ok p ∧
      (∃ text, p.fragmentShader = .ok text) ∧ ("fragColor", .real) ∈ p.uniforms ∧
      "fragColor" ∈ p.declared :=
  ⟨_, rfl, ⟨_, rfl⟩, by decide, by decide⟩

end Session
end ShaderAlgebra
