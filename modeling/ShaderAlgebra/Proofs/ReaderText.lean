import ShaderAlgebra.Proofs.AdjacentSigns
import ShaderAlgebra.Proofs.Parser

/-!
# Reading the text of a texture reader

A texture reader is written with more of GLSL than the helpers are: uniforms, parameters that are
assigned to, a condition, a quotient and comparisons.  `Shader.read` reads such a text by the precedence of the
operators, from the loosest to the tightest: `&&`, then `<=`, then sums, then products and quotients.

The text of every reader is read back to the trees it was written from (`Textures.read_reader`).
-/

namespace ShaderAlgebra
namespace Glsl

/-! ## Shaders -/

/-- A statement with its expressions as trees. -/
inductive Instruction where
  | define (type name : String) (value : Ast)
  | assign (name : String) (value : Ast)
  | decrease (name : String) (value : Ast)
  | returnIf (condition value : Ast)
  | yield (value : Ast)

/-- A function with its statements. -/
structure Routine where
  result : String
  name : String
  parameters : List Binder
  body : List Instruction

/-- What a shader declares. -/
inductive Global where
  | uniform (binder : Binder)
  | routine (routine : Routine)

/-- The uniforms and the functions of a shader, in the order in which they are declared. -/
abbrev Shader := List Global

/-- The statement with the trees of its terms. -/
def Statement.instruction : Statement → Instruction
  | define type name value => .define type name value.ast
  | assign name value => .assign name value.ast
  | decrease name value => .decrease name value.ast
  | returnIf condition value => .returnIf condition.ast value.ast
  | yield value => .yield value.ast

/-- The uniform or the function that a declaration makes. -/
def Declaration.global? : Declaration → Option Global
  | uniform b => some (.uniform b)
  | struct .. => none
  | function result name parameters body =>
    some (.routine ⟨result, name, parameters, body.statements.map Statement.instruction⟩)

/-- The symbols of an operator. -/
def Operator.symbols : Operator → List Char
  | plus => ['+']
  | minus => ['-']
  | times => ['*']
  | divide => ['/']
  | atMost => ['<', '=']
  | and => ['&', '&']

namespace Shader

/-! ## The grammar -/

/-- The operators of each level of the grammar, the loosest first. -/
def operators : Nat → List Operator
  | 0 => [.and]
  | 1 => [.atMost]
  | 2 => [.plus, .minus]
  | 3 => [.times, .divide]
  | _ => []

/-- The operator of a level that comes next, and what follows it. -/
def operator? (level : Nat) (ts : List Token) : Option (Operator × List Token) :=
  (operators level).findSome? fun op => (op.symbols.foldlM (fun ts c => skip? c ts) ts).map (op, ·)

mutual

/-- An expression of operators of a level or tighter ones; past the last level, a signed term. -/
def expression? : Nat → Nat → List Token → Option (Ast × List Token)
  | 0, _, _ => none
  | fuel + 1, level, ts =>
    if level < 4 then do
      let (lhs, ts) ← expression? fuel (level + 1) ts
      operands? fuel level lhs ts
    else
      match ts with
      | .symbol c :: ts =>
        if c = '-' then do
          let (term, ts) ← expression? fuel level ts
          some (.negate term, ts)
        else if c = '(' then do
          let (term, ts) ← expression? fuel 0 ts
          let ts ← skip? ')' ts
          members? fuel term ts
        else none
      | .word x :: ts =>
        match skip? '(' ts with
        | some ts => do
          let (args, ts) ← arguments? fuel ts
          members? fuel (.call x args) ts
        | none => members? fuel (.name x) ts
      | .number q :: ts => some (.number q, ts)
      | [] => none

/-- The further operands of a level, taken from the left. -/
def operands? : Nat → Nat → Ast → List Token → Option (Ast × List Token)
  | 0, _, _, _ => none
  | fuel + 1, level, lhs, ts =>
    match operator? level ts with
    | none => some (lhs, ts)
    | some (op, ts) => do
      let (rhs, ts) ← expression? fuel (level + 1) ts
      operands? fuel level (.binary op lhs rhs) ts

/-- The members that follow a term. -/
def members? : Nat → Ast → List Token → Option (Ast × List Token)
  | 0, _, _ => none
  | fuel + 1, base, ts =>
    match skip? '.' ts with
    | none => some (base, ts)
    | some ts => do
      let (field, ts) ← word? ts
      members? fuel (.member base field) ts

/-- The arguments of a call up to its closing parenthesis. -/
def arguments? : Nat → List Token → Option (List Ast × List Token)
  | 0, _ => none
  | fuel + 1, ts => do
    let (arg, ts) ← expression? fuel 0 ts
    match skip? ',' ts with
    | some ts => do
      let (args, ts) ← arguments? fuel ts
      some (arg :: args, ts)
    | none => do
      let ts ← skip? ')' ts
      some ([arg], ts)

end

/-- An expression up to a symbol behind it.  Between two lexemes the grammar goes down its five levels at
most once. -/
def expressionUpTo? (c : Char) (ts : List Token) : Option (Ast × List Token) := do
  let (e, ts) ← expression? (8 * (ts.length + 1)) 0 ts
  let ts ← skip? c ts
  some (e, ts)

/-- A statement. -/
def instruction? (ts : List Token) : Option (Instruction × List Token) := do
  let (first, ts) ← word? ts
  if first = "return" then
    let (value, ts) ← expressionUpTo? ';' ts
    some (.yield value, ts)
  else if first = "if" then
    let ts ← skip? '(' ts
    let (condition, ts) ← expressionUpTo? ')' ts
    let (word, ts) ← word? ts
    let (value, ts) ← expressionUpTo? ';' ts
    if word = "return" then some (.returnIf condition value, ts) else none
  else
    match ts with
    | .word name :: ts => do
      let ts ← skip? '=' ts
      let (value, ts) ← expressionUpTo? ';' ts
      some (.define first name value, ts)
    | ts =>
      match skip? '-' ts with
      | some ts => do
        let ts ← skip? '=' ts
        let (value, ts) ← expressionUpTo? ';' ts
        some (.decrease first value, ts)
      | none => do
        let ts ← skip? '=' ts
        let (value, ts) ← expressionUpTo? ';' ts
        some (.assign first value, ts)

/-- Statements up to a closing brace. -/
def block? : Nat → List Token → Option (List Instruction × List Token)
  | 0, _ => none
  | fuel + 1, ts =>
    match skip? '\x7d' ts with
    | some ts => some ([], ts)
    | none => do
      let (i, ts) ← instruction? ts
      let (is, ts) ← block? fuel ts
      some (i :: is, ts)

/-- Parameters up to a closing parenthesis. -/
def parameters? : Nat → List Token → Option (List Binder × List Token)
  | 0, _ => none
  | fuel + 1, ts => do
    let (type, ts) ← word? ts
    let (name, ts) ← word? ts
    match skip? ',' ts with
    | some ts => do
      let (bs, ts) ← parameters? fuel ts
      some (⟨type, name⟩ :: bs, ts)
    | none => do
      let ts ← skip? ')' ts
      some ([⟨type, name⟩], ts)

/-- Declarations up to the end. -/
def declarations? : Nat → List Token → Option Shader
  | 0, _ => none
  | _ + 1, [] => some []
  | fuel + 1, ts => do
    let (first, ts) ← word? ts
    if first = "uniform" then
      let (type, ts) ← word? ts
      let (name, ts) ← word? ts
      let ts ← skip? ';' ts
      let rest ← declarations? fuel ts
      some (.uniform ⟨type, name⟩ :: rest)
    else
      let (name, ts) ← word? ts
      let ts ← skip? '(' ts
      let (parameters, ts) ← parameters? ts.length ts
      let ts ← skip? '\x7b' ts
      let (body, ts) ← block? ts.length ts
      let rest ← declarations? fuel ts
      some (.routine ⟨first, name, parameters, body⟩ :: rest)

/-- The shader of a text. -/
def read (text : String) : Option Shader := do
  let ts ← lex text.toList
  declarations? (ts.length + 1) ts

end Shader

/-! ## The lexemes of a reader -/

namespace Spells

/-- The sign of an operator, with its blanks. -/
theorem operator (spacing : Spacing) (op : Operator) :
    Spells Anything (op.text spacing).toList (op.symbols.map .symbol) := by
  have hsymbol {c : Char} (hw : c.isWhitespace = false) (hd : c.isDigit = false) (hn : isNameStart c = false)
      (hdot : c ≠ '.') : Spells Anything [c] [.symbol c] := .symbol hw hd hn hdot
  have hsign : Spells Anything op.sign.toList (op.symbols.map .symbol) := by
    cases op with
    | plus | minus | times | divide => exact hsymbol rfl rfl rfl (by decide)
    | atMost | and => exact (hsymbol rfl rfl rfl (by decide)).both (hsymbol rfl rfl rfl (by decide))
  cases spacing with
  | tight => exact hsign
  | loose =>
    have hloose : (op.text .loose).toList = [' '] ++ (op.sign.toList ++ [' ']) := by
      simp [Operator.text]
    have hblank : Spells Anything [' '] [] := .blank rfl
    rw [hloose]
    simpa using hblank.both (hsign.both hblank)

variable {t lhs rhs : Term} {ts us : List Token}

/-- An operation is read into the lexemes of its operands and of its sign. -/
theorem operation (spacing : Spacing) (op : Operator) (hl : Spells lhs.Bounds lhs.chars ts)
    (hr : Spells rhs.Bounds rhs.chars us) :
    Spells (Term.binary spacing op lhs rhs).Bounds (Term.binary spacing op lhs rhs).chars
      (ts ++ (op.symbols.map .symbol ++ us)) := by
  have hends (rest : List Char) : EndsNumber ((op.text spacing).toList ++ rest) := by
    cases op <;> cases spacing <;> exact endsNumber_cons rfl (by decide) _
  rw [Term.chars_binary]
  refine (hl.append ((operator spacing op).append hr fun _ _ => trivial) fun rest _ => .inl ?_).weaken
    fun _ h => .inl (h.endsNumber rfl)
  rw [List.append_assoc]
  exact hends _

/-- A decrease of a variable. -/
theorem decrease {name : String} (hname : IsWord name) (h : Spells t.Bounds t.chars ts) :
    Spells Anything (Statement.decrease name t).text.toList
      (Token.word name :: Token.symbol '-' :: Token.symbol '=' :: (ts ++ [Token.symbol ';'])) := by
  have htext : (Statement.decrease name t).text.toList =
      (name.toList ++ [' ']) ++ ((['-'] ++ (['='] ++ [' '])) ++ (t.chars ++ [';'])) := by
    rw [Statement.text, String.toList_append, Term.toList_write]
    simp [Term.chars, Term.text]
  have hminus : Spells Anything ['-'] [.symbol '-'] := .symbol rfl rfl rfl (by decide)
  have hsign : Spells Anything ['='] [.symbol '='] := .symbol rfl rfl rfl (by decide)
  rw [htext]
  exact (wordBlank hname).both ((hminus.both (hsign.both (.blank rfl))).both h.termEnd)

/-- A value that is returned on a condition. -/
theorem returnIf {condition : Term} (hc : Spells condition.Bounds condition.chars us)
    (h : Spells t.Bounds t.chars ts) :
    Spells Anything (Statement.returnIf condition t).text.toList
      (Token.word "if" :: Token.symbol '(' ::
        (us ++ (Token.symbol ')' :: Token.word "return" :: (ts ++ [Token.symbol ';'])))) := by
  have htext : (Statement.returnIf condition t).text.toList = (("if".toList ++ [' ']) ++ ['(']) ++
      (condition.chars ++ ([')'] ++ ("\n        ".toList ++ (("return".toList ++ [' ']) ++ (t.chars ++ [';']))))) := by
    rw [Statement.text, String.toList_append, Term.toList_write, String.toList_append, Term.toList_write]
    simp [Term.chars, Term.text]
  have hopen : Spells Anything ['('] [.symbol '('] := .symbol rfl rfl rfl (by decide)
  have hclose : Spells Anything [')'] [.symbol ')'] := .symbol rfl rfl rfl (by decide)
  have hbreak : Spells Anything ['\n'] [] := .blank rfl
  have hblanks : Spells Anything "\n        ".toList [] := hbreak.both (indent.both indent)
  rw [htext]
  have hthen := hclose.both (hblanks.both ((wordBlank (show IsWord "return" by decide)).both h.termEnd))
  exact ((wordBlank (by decide)).both hopen).both (hc.append hthen fun rest _ =>
    .inl (endsNumber_cons rfl (by decide) _))

/-- A uniform. -/
theorem uniform {type name : String} (htype : IsWord type) (hname : IsWord name) :
    Spells Anything (Declaration.uniform ⟨type, name⟩).text.toList
      [Token.word "uniform", Token.word type, Token.word name, Token.symbol ';'] := by
  have htext : (Declaration.uniform ⟨type, name⟩).text.toList =
      ("uniform".toList ++ [' ']) ++ ((Binder.text ⟨type, name⟩).toList ++ [';']) := by
    simp [Declaration.text]
  have h : Binder.Readable ⟨type, name⟩ := ⟨htype, hname⟩
  have hend : Spells Anything [';'] [.symbol ';'] := .symbol rfl rfl rfl (by decide)
  rw [htext]
  exact (wordBlank (by decide)).both (h.spells.append hend fun rest _ => endsWord_cons rfl rest)

end Spells
end Glsl

namespace Textures

open Glsl (Term Token Declaration Spells Shader Anything IsWord)

section Reader

variable {version : Version} {image : String}

/-- The declarations of a reader stand on lines of their own. -/
theorem toList_readerText (ds : List Declaration) :
    (readerText ds).toList = ['\n'].intercalate (ds.map fun d => d.text.toList) := by
  rw [readerText, String.toList_intercalate, List.map_map]
  rfl

/-- A call with two arguments. -/
theorem readable_call {f : String} {a b : Term} (hf : IsWord f) (ha : a.Readable) (hb : b.Readable) :
    (Term.call .loose f [a, b]).Readable :=
  .call hf (List.forall_mem_cons.2 ⟨ha, List.forall_mem_singleton.2 hb⟩)

/-- A product of two names or calls. -/
theorem readable_times {a b : Term} (ha : a.Readable) (hb : b.Readable) (hra : a.rank = 0)
    (hrb : b.rank = 0) : (Term.binary .loose .times a b).Readable :=
  .binary rfl ha hb (hra ▸ Nat.zero_le _) (hrb ▸ Nat.zero_lt_two)

theorem isWord_sampler (hi : Glsl.isIdentifier image) : IsWord (TextureBinding.samplerOf image) :=
  isWord_ofImage (show IsWord "_sampler_" by decide) hi

theorem isWord_ratio (hi : Glsl.isIdentifier image) : IsWord (TextureBinding.ratioOf image) :=
  isWord_ofImage (show IsWord "_ratio_" by decide) hi

theorem isWord_cropFactor (hi : Glsl.isIdentifier image) : IsWord (TextureBinding.cropFactorOf image) :=
  isWord_ofImage (show IsWord "_cropfact_" by decide) hi

theorem readable_corner : (Term.name "A").Readable :=
  .name (by decide)

theorem readable_edge : (Term.name "B").Readable :=
  .name (by decide)

theorem readable_point : (Term.name "p").Readable :=
  .name (by decide)

/-- The coordinates of a point, before they are divided. -/
theorem readable_coordinates (hi : Glsl.isIdentifier image) :
    (Term.call .loose "vec2" [.call .loose "dot" [.name "p", .name "B"],
      .binary .loose .times (.name (TextureBinding.ratioOf image)) (.call .loose "dot" [.name "p",
        .call .loose "vec2" [.negate (.member (.name "B") "y"), .member (.name "B") "x"]])]).Readable := by
  have hvec : IsWord "vec2" := by decide
  have hdot : IsWord "dot" := by decide
  have hx : (Term.member (.name "B") "x").Readable := .member readable_edge rfl (by decide)
  have hy : (Term.member (.name "B") "y").Readable := .member readable_edge rfl (by decide)
  have hacross := readable_times (.name (isWord_ratio hi))
    (readable_call hdot readable_point (readable_call hvec (.negate hy (by decide)) hx)) rfl rfl
  exact readable_call hvec (readable_call hdot readable_point readable_edge) hacross

/-- The read of a texture. -/
theorem readable_sample (version : Version) (hi : Glsl.isIdentifier image) :
    (Term.call .loose version.textureFunction [.name (TextureBinding.samplerOf image),
      .binary .loose .times (.name "p") (.name (TextureBinding.cropFactorOf image))]).Readable := by
  have htexture : IsWord version.textureFunction := by cases version <;> decide
  exact readable_call htexture (.name (isWord_sampler hi))
    (readable_times readable_point (.name (isWord_cropFactor hi)) rfl rfl)

/-- The conditions that a component lies between zero and one. -/
theorem spells_inUnit {component : String} (h : IsWord component) :
    Spells (inUnit component).1.Bounds (inUnit component).1.chars
        ((Term.literal .zero).tokens ++ (Glsl.Operator.atMost.symbols.map .symbol ++
          (Term.member (.name "p") component).tokens)) ∧
      Spells (inUnit component).2.Bounds (inUnit component).2.chars
        ((Term.member (.name "p") component).tokens ++ (Glsl.Operator.atMost.symbols.map .symbol ++
          (Term.literal .one).tokens)) := by
  have hmember : (Term.member (.name "p") component).Readable := .member readable_point rfl h
  exact ⟨.operation .loose .atMost (Term.Readable.literal _).spells hmember.spells,
    .operation .loose .atMost hmember.spells (Term.Readable.literal _).spells⟩

/-- The uniforms and the functions of the reader of an image. -/
def readerShader (version : Version) (image : String) : Shader :=
  (reader version image).filterMap Declaration.global?

/-- **The text of a reader is read back to its declarations.** -/
theorem read_reader (version : Version) (hi : Glsl.isIdentifier image) :
    Shader.read (readerText (reader version image)) = some (readerShader version image) := by
  -- the statements of the reader of all channels, line by line
  have hp : IsWord "p" := by decide
  have hsquare := readable_call (show IsWord "dot" by decide) readable_edge readable_edge
  have hdivided := (readable_coordinates hi).spells.operation .loose .divide
    (Term.Readable.name (show IsWord "b" by decide)).spells
  obtain ⟨hx₀, hx₁⟩ := spells_inUnit (show IsWord "x" by decide)
  obtain ⟨hy₀, hy₁⟩ := spells_inUnit (show IsWord "y" by decide)
  have hinside := ((hx₀.operation .loose .and hx₁).operation .loose .and hy₀).operation .loose .and hy₁
  have hblack : (Term.apply "vec4" [.literal .zero]).Readable :=
    .call (by decide) (List.forall_mem_singleton.2 (.literal .zero))
  have hbody := Spells.block
    (.cons (.line (.cons (.decrease hp readable_corner.spells)
      (.cons (.decrease (show IsWord "B" by decide) readable_corner.spells) .nil)))
    (.cons (.line (.cons (.define (show IsWord "float" by decide) (show IsWord "b" by decide) hsquare.spells) .nil))
    (.cons (.line (.cons (.assign hp hdivided) .nil))
    (.cons (.line (.cons (.returnIf hinside (readable_sample version hi).spells) .nil))
    (.cons (.line (.cons (.yield hblack.spells) .nil)) .nil)))))
  -- the one statement of the reader of the colour
  have hcall : (Term.call .loose (Channels.rgba.reader image) [.name "A", .name "B", .name "p"]).Readable := by
    refine .call (isWord_reader hi .rgba) (List.forall_mem_cons.2 ⟨readable_corner, ?_⟩)
    exact List.forall_mem_cons.2 ⟨readable_edge, List.forall_mem_singleton.2 readable_point⟩
  have hcolour := Spells.block (.cons (.line (.cons (.yield
    (Term.Readable.member hcall rfl (show IsWord "rgb" by decide)).spells) .nil)) .nil)
  have hbreak : Spells Anything ['\n'] [] := .blank rfl
  have hall := hbreak.separated
    (.cons (.uniform (show IsWord "sampler2D" by decide) (isWord_sampler hi))
    (.cons (.uniform (show IsWord "float" by decide) (isWord_ratio hi))
    (.cons (.uniform (show IsWord "vec2" by decide) (isWord_cropFactor hi))
    (.cons (.function (show IsWord "vec4" by decide) (isWord_reader hi .rgba) readable_parameters hbody)
    (.cons (.function (show IsWord "vec3" by decide) (isWord_reader hi .rgb) readable_parameters hcolour) .nil)))))
  have hlex := hall [] trivial
  rw [List.append_nil, Glsl.lex_nil] at hlex
  rw [Shader.read, toList_readerText]
  exact Option.bind_eq_some_iff.2 ⟨_, hlex, rfl⟩

end Reader

end Textures
end ShaderAlgebra
