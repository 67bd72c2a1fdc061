import ShaderAlgebra.Proofs.Spelling

/-!
# Parsing shaders

Every readable term is parsed back to its own tree (`Term.Readable.parses`), and a header
to the structs and functions that it declares (`parseLibrary_declarations`).

A term is parsed in front of any lexemes that cannot go on with it.  Which those are depends on
how loosely the term binds, so the four levels of the grammar have one lemma each.
-/

namespace ShaderAlgebra
namespace Glsl

/-! ## Terms -/

namespace Term

mutual

/-- The tree of a term. -/
def ast : Term → Ast
  | raw text => (readExpr text).getD (.name text)
  | literal d => if d.negative then .negate (.number d.magnitude) else .number d.magnitude
  | name id => .name id
  | member base field => .member (ast base) field
  | index base i => .index (ast base) (.number i)
  | call _ f args => .call f (asts args)
  | binary _ op lhs rhs => .binary op (ast lhs) (ast rhs)
  | negate term => .negate (ast term)
  | group term => ast term

/-- The trees of terms. -/
def asts : List Term → List Ast
  | [] => []
  | t :: ts => ast t :: asts ts

end

-- The lemmas about the parsers unfold these functions, so the equations are made here, once.
attribute [local simp] ast asts rank

/-- A term does not start with a closing parenthesis. -/
theorem Readable.head {t : Term} (h : t.Readable) :
    ∃ first rest, t.tokens = first :: rest ∧ first ≠ .symbol ')' := by
  induction h with
  | raw h =>
    obtain ⟨ts, hts, hp⟩ := readExpr_eq_some.1 h
    rw [tokens, hts]
    exact head_of_parseExpr hp
  | literal d =>
    rw [tokens, literalTokens]
    split
    · exact ⟨_, _, rfl, by decide⟩
    · exact ⟨_, _, rfl, by simp⟩
  | name h => exact ⟨_, _, by rw [tokens], by simp⟩
  | member hb hp hf ih =>
    obtain ⟨first, rest, hf, hne⟩ := ih
    exact ⟨first, _, by rw [tokens, hf]; rfl, hne⟩
  | index hb hp ih =>
    obtain ⟨first, rest, hf, hne⟩ := ih
    exact ⟨first, _, by rw [tokens, hf]; rfl, hne⟩
  | call hf ha ih => exact ⟨_, _, by rw [tokens], by simp⟩
  | binary hop hl hr hll hrl ihl ihr =>
    obtain ⟨first, rest, hf, hne⟩ := ihl
    exact ⟨first, _, by rw [tokens, hf]; rfl, hne⟩
  | negate h hl ih => exact ⟨_, _, by rw [tokens], by decide⟩
  | group h ih => exact ⟨_, _, by rw [tokens], by decide⟩

/-- A term has a lexeme. -/
theorem Readable.length_lt {t : Term} (h : t.Readable) (rest : List Token) :
    rest.length < (t.tokens ++ rest).length := by
  obtain ⟨first, more, hf, -⟩ := h.head
  rw [hf, List.length_append, List.length_cons]
  omega

/-- A term is parsed at every level of the grammar that its rank allows. -/
structure Parses (t : Term) : Prop where
  primary : t.rank = 0 → ∀ rest, EndsName rest →
    parseSigned (t.tokens ++ rest) = parseSuffixes t.ast rest
  signed : t.rank ≤ 1 → ∀ rest, EndsTerm rest →
    parseSigned (t.tokens ++ rest) = some (t.ast, rest)
  product : t.rank ≤ 2 → ∀ rest, EndsTerm rest →
    parseProduct (t.tokens ++ rest) = parseFactors t.ast rest
  sum : t.rank ≤ 3 → ∀ rest, EndsProduct rest →
    parseExpr (t.tokens ++ rest) = parseSummands t.ast rest
  expr : ∀ {rest}, EndsSum rest → parseExpr (t.tokens ++ rest) = some (t.ast, rest)

namespace Parses

variable {t : Term}

/-- A sum is parsed in front of anything that cannot go on with it. -/
theorem expr_of_sum
    (h : ∀ rest, EndsProduct rest → parseExpr (t.tokens ++ rest) = parseSummands t.ast rest)
    {rest : List Token} (hr : EndsSum rest) : parseExpr (t.tokens ++ rest) = some (t.ast, rest) := by
  rw [h rest hr.1, parseSummands_end _ hr]

theorem ofExpr (h4 : 4 ≤ t.rank)
    (h : ∀ {rest}, EndsSum rest → parseExpr (t.tokens ++ rest) = some (t.ast, rest)) : Parses t :=
  ⟨fun h0 => by omega, fun h1 => by omega, fun h2 => by omega, fun h3 => by omega, h⟩

theorem ofSum (h3 : 3 ≤ t.rank)
    (h : ∀ rest, EndsProduct rest → parseExpr (t.tokens ++ rest) = parseSummands t.ast rest) :
    Parses t :=
  ⟨fun h0 => by omega, fun h1 => by omega, fun h2 => by omega, fun _ => h, expr_of_sum h⟩

/-- A product without more factors is a sum without more summands. -/
theorem sum_of_product (hr : t.Readable)
    (h : ∀ rest, EndsTerm rest → parseProduct (t.tokens ++ rest) = parseFactors t.ast rest)
    (rest : List Token) (he : EndsProduct rest) :
    parseExpr (t.tokens ++ rest) = parseSummands t.ast rest := by
  rw [parseExpr, andThen_of_lt _ ((h rest he.1).trans (parseFactors_end _ he)) (hr.length_lt rest)]

/-- A signed term is a product without more factors. -/
theorem product_of_signed (hr : t.Readable)
    (h : ∀ rest, EndsTerm rest → parseSigned (t.tokens ++ rest) = some (t.ast, rest))
    (rest : List Token) (he : EndsTerm rest) :
    parseProduct (t.tokens ++ rest) = parseFactors t.ast rest := by
  rw [parseProduct, andThen_of_lt _ (h rest he) (hr.length_lt rest)]

theorem ofProduct (hr : t.Readable) (h2 : 2 ≤ t.rank)
    (h : ∀ rest, EndsTerm rest → parseProduct (t.tokens ++ rest) = parseFactors t.ast rest) :
    Parses t :=
  have hsum := sum_of_product hr h
  ⟨fun h0 => by omega, fun h1 => by omega, fun _ => h, fun _ => hsum, expr_of_sum hsum⟩

theorem ofSigned (hr : t.Readable) (h1 : 1 ≤ t.rank)
    (h : ∀ rest, EndsTerm rest → parseSigned (t.tokens ++ rest) = some (t.ast, rest)) :
    Parses t :=
  have hproduct := product_of_signed hr h
  have hsum := sum_of_product hr hproduct
  ⟨fun h0 => by omega, fun _ => h, fun _ => hproduct, fun _ => hsum, expr_of_sum hsum⟩

theorem ofPrimary (hr : t.Readable)
    (h : ∀ rest, EndsName rest → parseSigned (t.tokens ++ rest) = parseSuffixes t.ast rest) :
    Parses t := by
  have hsigned : ∀ rest, EndsTerm rest → parseSigned (t.tokens ++ rest) = some (t.ast, rest) :=
    fun rest he => by rw [h rest he.1, parseSuffixes_end _ he]
  have hproduct := product_of_signed hr hsigned
  have hsum := sum_of_product hr hproduct
  exact ⟨fun _ => h, fun _ => hsigned, fun _ => hproduct, fun _ => hsum, expr_of_sum hsum⟩

end Parses

theorem rank_of_isPlace {t : Term} (h : t.isPlace) : t.rank = 0 := by
  cases t with
  | name | member | index | call | group => rfl
  | raw | literal | binary | negate => cases h

theorem endsSum_close (rest : List Token) : EndsSum (.symbol ')' :: rest) := by
  simp [EndsSum, EndsProduct, EndsTerm, EndsName]

theorem endsSum_bracket (rest : List Token) : EndsSum (.symbol ']' :: rest) := by
  simp [EndsSum, EndsProduct, EndsTerm, EndsName]

theorem endsSum_comma (rest : List Token) : EndsSum (.symbol ',' :: rest) := by
  simp [EndsSum, EndsProduct, EndsTerm, EndsName]

theorem endsSum_semicolon (rest : List Token) : EndsSum (.symbol ';' :: rest) := by
  simp [EndsSum, EndsProduct, EndsTerm, EndsName]

/-- A primary term without a sign. -/
theorem parseSigned_of_primary {ts rest : List Token} {base : Ast} (hts : ts.head? ≠ some (.symbol '-'))
    (h : parsePrimary ts = some (base, rest)) (hlt : rest.length < ts.length) :
    parseSigned ts = parseSuffixes base rest := by
  rw [parseSigned, dif_neg hts, andThen_of_lt _ h hlt]

theorem parseSigned_number (q : ℚ) {rest : List Token} (hr : EndsName rest) :
    parseSigned (.number q :: rest) = parseSuffixes (.number q) rest := by
  refine parseSigned_of_primary (by simp) ?_ (Nat.lt_succ_self _)
  rw [parsePrimary, dif_neg (by simp), if_neg (by exact hr), atom?]

/-- A minus sign. -/
theorem parseSigned_minus {ts rest : List Token} {term : Ast} (h : parseSigned ts = some (term, rest)) :
    parseSigned (.symbol '-' :: ts) = some (.negate term, rest) := by
  rw [parseSigned, dif_pos List.head?_cons, List.tail_cons, h]
  rfl

theorem parses_literal (d : Decimal) : Parses (.literal d) := by
  cases hd : d.negative with
  | false =>
    refine .ofPrimary (.literal d) fun rest hr => ?_
    simp only [tokens, literalTokens, ast, hd, Bool.false_eq_true, if_false]
    exact parseSigned_number _ hr
  | true =>
    refine .ofSigned (.literal d) (by simp [hd]) fun rest hr => ?_
    simp only [tokens, literalTokens, ast, hd, if_true, List.cons_append, List.nil_append]
    exact parseSigned_minus (by rw [parseSigned_number _ hr.1, parseSuffixes_end _ hr])

/-- A text that was given is parsed as it is alone. -/
theorem parses_raw {text : String} {a : Ast} (h : readExpr text = some a) : Parses (.raw text) := by
  have hast : (raw text).ast = a := by
    rw [ast, h, Option.getD_some]
  cases hsigned : readSigned text with
  | some b =>
    obtain rfl := Option.some.inj (h.symm.trans (readExpr_of_readSigned hsigned))
    obtain ⟨ts, hts, hp⟩ := readSigned_eq_some.1 hsigned
    refine .ofSigned (.raw h) (by simp [hsigned]) fun rest hr => ?_
    rw [hast, tokens, hts]
    exact parseSigned_append hp fun _ => hr
  | none =>
    obtain ⟨ts, hts, hp⟩ := readExpr_eq_some.1 h
    refine .ofExpr (by simp [hsigned]) fun {rest} hr => ?_
    rw [hast, tokens, hts]
    exact parseExpr_append hp fun _ => hr

theorem parseExpr_number (q : ℚ) {rest : List Token} (hr : EndsSum rest) :
    parseExpr (.number q :: rest) = some (.number q, rest) := by
  have hlt : rest.length < (Token.number q :: rest).length := Nat.lt_succ_self _
  have hsigned : parseSigned (.number q :: rest) = some (.number q, rest) := by
    rw [parseSigned_number _ hr.1.1.1, parseSuffixes_end _ hr.1.1]
  have hproduct : parseProduct (.number q :: rest) = some (.number q, rest) := by
    rw [parseProduct, andThen_of_lt _ hsigned hlt, parseFactors_end _ hr.1]
  rw [parseExpr, andThen_of_lt _ hproduct hlt, parseSummands_end _ hr]

/-- The arguments of a call are parsed one by one. -/
theorem parseMoreArgs_asts {arg : Term} {args : List Term} (hr : ∀ t ∈ arg :: args, t.Readable)
    (h : ∀ t ∈ arg :: args, Parses t) (rest : List Token) :
    ∃ more, parseExpr (argsTokens (arg :: args) ++ Token.symbol ')' :: rest) = some (arg.ast, more) ∧
      more.length < (argsTokens (arg :: args) ++ Token.symbol ')' :: rest).length ∧
      parseMoreArgs arg.ast more = some (asts (arg :: args), rest) := by
  have hlt := (hr arg List.mem_cons_self).length_lt
  have hfirst := (h arg List.mem_cons_self)
  induction args generalizing arg with
  | nil =>
    refine ⟨.symbol ')' :: rest, hfirst.expr (endsSum_close rest), hlt _, ?_⟩
    rw [parseMoreArgs, dif_neg (by simp)]
    rfl
  | cons next args ih =>
    have hnext : next ∈ next :: args := List.mem_cons_self
    obtain ⟨more, hparse, hmore, hargs⟩ := ih (fun t ht => hr t (List.mem_cons_of_mem _ ht))
      (fun t ht => h t (List.mem_cons_of_mem _ ht)) (hr next (List.mem_cons_of_mem _ hnext)).length_lt
      (h next (List.mem_cons_of_mem _ hnext))
    rw [argsTokens, List.append_assoc, List.cons_append]
    refine ⟨_, hfirst.expr (endsSum_comma _), hlt _, ?_⟩
    rw [parseMoreArgs, dif_pos List.head?_cons, List.tail_cons,
      andThen_of_lt _ hparse (length_lt_cons _ hmore), hargs]
    rfl

theorem parses_call {spacing : Spacing} {f : String} {args : List Term}
    (hc : (Term.call spacing f args).Readable) (hr : ∀ t ∈ args, t.Readable)
    (h : ∀ t ∈ args, Parses t) : Parses (.call spacing f args) := by
  have hargs : ∀ rest, parseArgs (argsTokens args ++ Token.symbol ')' :: rest) = some (asts args, rest) := by
    intro rest
    cases args with
    | nil =>
      rw [argsTokens, List.nil_append, parseArgs, if_pos List.head?_cons]
      rfl
    | cons arg args =>
      have hhead : (argsTokens (arg :: args) ++ Token.symbol ')' :: rest).head? ≠ some (.symbol ')') := by
        obtain ⟨first, more, hf, hne⟩ := (hr arg List.mem_cons_self).head
        cases args <;> simpa [argsTokens, hf] using hne
      obtain ⟨more, hparse, hmore, hasts⟩ := parseMoreArgs_asts hr h rest
      rw [parseArgs, if_neg hhead, andThen_of_lt _ hparse hmore, hasts]
  refine .ofPrimary hc fun rest _ => parseSigned_of_primary (by simp [tokens]) ?_ (hc.length_lt rest)
  simp only [tokens, ast, List.cons_append, List.append_assoc, List.nil_append]
  rw [parsePrimary, dif_neg (by simp), List.tail_cons, if_pos List.head?_cons,
    andThen_of_lt _ (word?_cons f _) (Nat.lt_succ_self _), List.tail_cons, hargs]
  rfl

theorem parses_name {id : String} (h : (Term.name id).Readable) : Parses (.name id) := by
  refine .ofPrimary h fun rest hr => ?_
  rw [tokens, ast, List.cons_append, List.nil_append]
  refine parseSigned_of_primary (by simp) ?_ (Nat.lt_succ_self _)
  rw [parsePrimary, dif_neg (by simp), if_neg (by exact hr), atom?]

theorem parses_member {base : Term} {field : String} (h : (Term.member base field).Readable)
    (hp : base.isPlace) (hb : Parses base) : Parses (.member base field) := by
  refine .ofPrimary h fun rest hr => ?_
  have hlt : rest.length < (Token.symbol '.' :: .word field :: rest).length :=
    length_lt_cons _ (Nat.lt_succ_self _)
  rw [tokens, ast, List.append_assoc, hb.primary (rank_of_isPlace hp) _ (by simp [EndsName])]
  rw [List.cons_append, List.cons_append, List.nil_append, parseSuffixes, dif_pos List.head?_cons,
    List.tail_cons, andThen_of_lt _ (word?_cons field rest) hlt]

theorem parses_index {base : Term} {i : Nat} (h : (Term.index base i).Readable) (hp : base.isPlace)
    (hb : Parses base) : Parses (.index base i) := by
  refine .ofPrimary h fun rest hr => ?_
  have hindex : (do
      let j ← parseExpr (.number i :: .symbol ']' :: rest)
      let ts ← skip? ']' j.2
      some (j.1, ts)) = some (Ast.number i, rest) := by
    rw [parseExpr_number _ (endsSum_bracket rest)]
    rfl
  have hlt : rest.length < (Token.symbol '[' :: .number i :: .symbol ']' :: rest).length := by
    simp only [List.length_cons]
    omega
  rw [tokens, ast, List.append_assoc, hb.primary (rank_of_isPlace hp) _ (by simp [EndsName])]
  rw [List.cons_append, List.cons_append, List.cons_append, List.nil_append, parseSuffixes,
    dif_neg (by simp), dif_pos List.head?_cons, List.tail_cons, andThen_of_lt _ hindex hlt]

theorem parses_group {term : Term} (h : (Term.group term).Readable) (ht : Parses term) :
    Parses (.group term) := by
  refine .ofPrimary h fun rest _ => ?_
  have hprimary : parsePrimary (.symbol '(' :: (term.tokens ++ Token.symbol ')' :: rest)) =
      some (term.ast, rest) := by
    rw [parsePrimary, dif_pos List.head?_cons, List.tail_cons, ht.expr (endsSum_close rest)]
    rfl
  have hlt := h.length_lt rest
  simp only [tokens, ast, List.cons_append, List.append_assoc, List.nil_append] at hlt ⊢
  exact parseSigned_of_primary (by simp) hprimary hlt

/-- A sum or a difference. -/
theorem parses_summand {spacing : Spacing} {op : Operator} {lhs rhs : Term}
    (hop : op = .plus ∨ op = .minus) (hr : rhs.Readable) (hll : lhs.rank ≤ 3) (hrl : rhs.rank < 3)
    (hl : Parses lhs) (h : Parses rhs) : Parses (.binary spacing op lhs rhs) := by
  have hproduct : ∀ rest, EndsProduct rest → parseProduct (rhs.tokens ++ rest) = some (rhs.ast, rest) :=
    fun rest hrest => by rw [h.product (Nat.le_of_lt_succ hrl) rest hrest.1, parseFactors_end _ hrest]
  have hlt : ∀ (first : Token) rest, rest.length < (first :: (rhs.tokens ++ rest)).length :=
    fun _ rest => length_lt_cons _ (hr.length_lt rest)
  rcases hop with rfl | rfl
  all_goals
    refine .ofSum (Nat.le_refl 3) fun rest hrest => ?_
    rw [tokens, ast, List.append_assoc, List.cons_append, hl.sum hll]
  · rw [show Operator.plus.symbol = '+' from rfl, parseSummands, dif_pos List.head?_cons,
      List.tail_cons, andThen_of_lt _ (hproduct rest hrest) (hlt _ rest)]
  · simp [EndsProduct, EndsTerm, EndsName, Operator.symbol]
  · rw [show Operator.minus.symbol = '-' from rfl, parseSummands, dif_neg (by simp),
      dif_pos List.head?_cons, List.tail_cons, andThen_of_lt _ (hproduct rest hrest) (hlt _ rest)]
  · simp [EndsProduct, EndsTerm, EndsName, Operator.symbol]

theorem parses_factor {spacing : Spacing} {lhs rhs : Term}
    (ht : (Term.binary spacing .times lhs rhs).Readable) (hr : rhs.Readable) (hll : lhs.rank ≤ 2)
    (hrl : rhs.rank < 2) (hl : Parses lhs) (h : Parses rhs) :
    Parses (.binary spacing .times lhs rhs) := by
  refine .ofProduct ht (Nat.le_refl 2) fun rest hrest => ?_
  rw [tokens, ast, List.append_assoc, List.cons_append, hl.product hll]
  · rw [show Operator.times.symbol = '*' from rfl, parseFactors, dif_pos List.head?_cons,
      List.tail_cons, andThen_of_lt _ (h.signed (Nat.le_of_lt_succ hrl) rest hrest)
        (length_lt_cons _ (hr.length_lt rest))]
  · simp [EndsTerm, EndsName, Operator.symbol]

/-- **A readable term is parsed back to its tree.** -/
theorem Readable.parses {t : Term} (h : t.Readable) : Parses t := by
  induction h with
  | raw h => exact parses_raw h
  | literal d => exact parses_literal d
  | name h => exact parses_name (.name h)
  | member hb hp hf ih => exact parses_member (.member hb hp hf) hp ih
  | index hb hp ih => exact parses_index (.index hb hp) hp ih
  | call hf ha ih => exact parses_call (.call hf ha) ha ih
  | @binary spacing op lhs rhs hop hl hr hll hrl ihl ihr =>
    cases op with
    | plus => exact parses_summand (.inl rfl) hr hll hrl ihl ihr
    | minus => exact parses_summand (.inr rfl) hr hll hrl ihl ihr
    | times => exact parses_factor (.binary hop hl hr hll hrl) hr hll hrl ihl ihr
    | divide | atMost | and => cases hop
  | @negate term h hl ih =>
    refine .ofSigned (.negate h hl) (Nat.le_refl 1) fun rest hrest => ?_
    rw [tokens, ast, List.cons_append]
    exact parseSigned_minus (ih.signed hl rest hrest)
  | group h ih => exact parses_group (.group h) ih

end Term

/-- **The text of a readable term is read back to its tree.** -/
theorem readExpr_text {t : Term} (h : t.Readable) : readExpr t.text = some t.ast := by
  have hlex := h.spells [] (.inl fun c hc => by cases hc)
  have hparse := h.parses.expr endsSum_nil
  rw [List.append_nil, lex_nil] at hlex
  rw [readExpr, show lex t.text.toList = _ from hlex]
  change (parseExpr (t.tokens ++ [])).bind _ = _
  rw [hparse]
  rfl

/-! ## Headers -/

/-- A statement of a function. -/
inductive Command where
  | assign (target : String) (value : Ast)
  | yield (value : Ast)

/-- A struct, by the names of its members, or a function. -/
inductive Definition where
  | struct (fields : List String)
  | function (parameters : List String) (body : List Command)

/-- The definitions of a header, the latest first. -/
abbrev Library := List (String × Definition)

/-- The members of a struct up to its closing brace. -/
def parseMembers : List Token → Option (List String × List Token)
  | .symbol '\x7d' :: ts => some ([], ts)
  | .word _ :: .word field :: .symbol ';' :: ts => do
    let (fields, ts) ← parseMembers ts
    some (field :: fields, ts)
  | _ => none

/-- The parameters of a function up to its closing parenthesis. -/
def parseParameters : List Token → Option (List String × List Token)
  | .symbol ')' :: ts => some ([], ts)
  | .word _ :: .word x :: .symbol ',' :: ts => do
    let (xs, ts) ← parseParameters ts
    some (x :: xs, ts)
  | .word _ :: .word x :: ts => do
    let (xs, ts) ← parseParameters ts
    some (x :: xs, ts)
  | _ => none

/-- A statement with its semicolon. -/
def parseCommand (ts : List Token) : Option (Command × List Token) := do
  let (command, ts) ← match ts with
    | .word head :: ts =>
      if head = "return" then do
        let (e, ts) ← parseExpr ts
        some (Command.yield e, ts)
      else match ts with
        | .symbol '=' :: ts => do
          let (e, ts) ← parseExpr ts
          some (.assign head e, ts)
        | .word x :: .symbol '=' :: ts => do
          let (e, ts) ← parseExpr ts
          some (.assign x e, ts)
        | _ => none
    | _ => none
  match ts with
  | .symbol ';' :: ts => some (command, ts)
  | _ => none

/-- The statements of a function up to its closing brace. -/
def parseBody (ts : List Token) : Option (List Command × List Token) :=
  if ts.head? = some (.symbol '\x7d') then some ([], ts.tail)
  else
    andThen ts (parseCommand ts) fun command rest _ => do
      let commands ← parseBody rest
      some (command :: commands.1, commands.2)
termination_by ts.length

/-- One struct or function with its name. -/
def parseDefinition (ts : List Token) : Option ((String × Definition) × List Token) :=
  match ts with
  | .word first :: .word name :: ts =>
    if first = "struct" then
      match ts with
      | .symbol '\x7b' :: ts => do
        let (fields, ts) ← parseMembers ts
        match ts with
        | .symbol ';' :: ts => some ((name, .struct fields), ts)
        | _ => none
      | _ => none
    else
      match ts with
      | .symbol '(' :: ts => do
        let (parameters, ts) ← parseParameters ts
        match ts with
        | .symbol '\x7b' :: ts => do
          let (body, ts) ← parseBody ts
          some ((name, .function parameters body), ts)
        | _ => none
      | _ => none
  | _ => none

/-- All structs and functions up to the end, behind those of a library. -/
def parseLibrary (L : Library) (ts : List Token) : Option Library :=
  if ts = [] then some L
  else andThen ts (parseDefinition ts) fun d rest _ => parseLibrary (d :: L) rest
termination_by ts.length

/-- The structs and functions of a text. -/
def readLibrary (text : String) : Option Library := do
  let ts ← lex text.toList
  parseLibrary [] ts

/-- What a statement does. -/
def Statement.command : Statement → Command
  | define _ x value | assign x value => .assign x value.ast
  | decrease x value => .assign x (.binary .minus (.name x) value.ast)
  | returnIf _ value | yield value => .yield value.ast

/-- A library with one more declaration. -/
def Library.declare (L : Library) : Declaration → Library
  | .uniform _ => L
  | .struct name members => (name, .struct (members.map (·.name))) :: L
  | .function _ name parameters body =>
    (name, .function (parameters.map (·.name)) (body.statements.map Statement.command)) :: L

theorem parseMembers_tokens (members : List Binder) (rest : List Token) :
    parseMembers (members.flatMap (fun m => m.tokens ++ [Token.symbol ';']) ++ Token.symbol '\x7d' :: rest) =
      some (members.map (·.name), rest) := by
  induction members with
  | nil => rfl
  | cons m members ih =>
    simp only [List.flatMap_cons, Binder.tokens, List.cons_append, List.nil_append, parseMembers] at ih ⊢
    rw [ih]
    rfl

theorem parseParameters_tokens (parameters : List Binder) (rest : List Token) :
    parseParameters ([Token.symbol ','].intercalate (parameters.map Binder.tokens) ++
      .symbol ')' :: rest) = some (parameters.map (·.name), rest) := by
  match parameters with
  | [] => rfl
  | [b] => rfl
  | b :: b' :: bs =>
    have ih := parseParameters_tokens (b' :: bs) rest
    simp only [List.map_cons, List.intercalate_cons_cons, Binder.tokens, List.cons_append,
      List.nil_append, parseParameters] at ih ⊢
    rw [ih]
    rfl

theorem Statement.Readable.parses {s : Statement} (h : s.Readable) (rest : List Token) :
    parseCommand (s.tokens ++ rest) = some (s.command, rest) := by
  have hvalue : ∀ {value : Term}, value.Readable →
      parseExpr (value.tokens ++ Token.symbol ';' :: rest) = some (value.ast, .symbol ';' :: rest) :=
    fun hv => hv.parses.expr (Term.endsSum_semicolon rest)
  cases h with
  | define ht hne hn hv =>
    simp [parseCommand, tokens, hne, hvalue hv, command]
  | assign hn hne hv =>
    simp [parseCommand, tokens, hne, hvalue hv, command]
  | yield hv =>
    simp [parseCommand, tokens, hvalue hv, command]

theorem Statement.Readable.length_lt {s : Statement} (h : s.Readable) (rest : List Token) :
    rest.length < (s.tokens ++ rest).length := by
  cases h <;> simp only [Statement.tokens, List.cons_append, List.length_cons, List.length_append] <;>
    omega

theorem parseBody_tokens {statements : List Statement} (h : ∀ s ∈ statements, s.Readable)
    (rest : List Token) :
    parseBody (statements.flatMap Statement.tokens ++ Token.symbol '\x7d' :: rest) =
      some (statements.map Statement.command, rest) := by
  induction statements with
  | nil =>
    rw [List.flatMap_nil, List.nil_append, parseBody, if_pos List.head?_cons]
    rfl
  | cons s statements ih =>
    have hs := h s List.mem_cons_self
    have hfirst : (s.tokens ++ (statements.flatMap Statement.tokens ++ Token.symbol '\x7d' :: rest)).head? ≠
        some (.symbol '\x7d') := by
      cases hs <;> simp [Statement.tokens]
    rw [List.flatMap_cons, List.append_assoc, parseBody, if_neg hfirst,
      andThen_of_lt _ (hs.parses _) (hs.length_lt _), ih fun t ht => h t (List.mem_cons_of_mem _ ht)]
    rfl

/-- **A declaration is parsed into what it declares.** -/
theorem Declaration.Readable.parses {d : Declaration} (h : d.Readable) (rest : List Token) :
    ∃ x, parseDefinition (d.tokens ++ rest) = some (x, rest) ∧ ∀ L : Library, L.declare d = x :: L := by
  cases h with
  | @struct name members hn hm =>
    have := parseMembers_tokens members (.symbol ';' :: rest)
    exact ⟨_, by simp [parseDefinition, tokens, this], fun _ => rfl⟩
  | @function result name parameters body hr hne hn hp hb =>
    have hparameters := parseParameters_tokens parameters
      (.symbol '\x7b' :: (body.statements.flatMap Statement.tokens ++ Token.symbol '\x7d' :: rest))
    have hbody := parseBody_tokens hb rest
    exact ⟨_, by simp [parseDefinition, tokens, hne, Body.tokens, hparameters, hbody], fun _ => rfl⟩

/-- **A header is read back to the structs and functions that it declares.** -/
theorem parseLibrary_declarations {ds : List Declaration} (h : ∀ d ∈ ds, d.Readable) (L : Library) :
    parseLibrary L (ds.flatMap (·.tokens)) = some (ds.foldl Library.declare L) := by
  induction ds generalizing L with
  | nil =>
    rw [List.flatMap_nil, parseLibrary, if_pos rfl]
    rfl
  | cons d ds ih =>
    have hd := h d List.mem_cons_self
    have hlt : (ds.flatMap (·.tokens)).length < (d.tokens ++ ds.flatMap (·.tokens)).length := by
      cases hd <;> simp only [Declaration.tokens, List.cons_append, List.length_cons,
        List.length_append] <;> omega
    have hne : d.tokens ++ ds.flatMap (·.tokens) ≠ [] := List.ne_nil_of_length_pos (by omega)
    obtain ⟨x, hx, hdeclare⟩ := hd.parses (ds.flatMap (·.tokens))
    rw [List.flatMap_cons, parseLibrary, if_neg hne, andThen_of_lt _ hx hlt, List.foldl_cons, hdeclare]
    exact ih (fun e he => h e (List.mem_cons_of_mem _ he)) _

theorem readLibrary_declarations {ds : List Declaration} (h : ∀ d ∈ ds, d.Readable) :
    readLibrary (ds.foldl (fun out d => out ++ d.text ++ "\n") "") =
      some (ds.foldl Library.declare []) := by
  rw [readLibrary, lex_declarations h]
  exact parseLibrary_declarations h _

end Glsl
end ShaderAlgebra
