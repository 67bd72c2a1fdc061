import ShaderAlgebra.Glsl.Declaration
import ShaderAlgebra.Proofs.Grammar

/-!
# The lexemes of generated text

The text of a term, of a declaration and of a whole header is read into the
lexemes that the tree spells out (`Term.lex_chars`, `Declaration.lex_text`, `lex_declarations`).
A term has to be `Readable` for that: its names are words, only names, calls, indexed and
grouped terms have members, and an operand binds at least as tightly as its operator.  A text that
was given stands for the expression that it is read as.
-/

namespace ShaderAlgebra
namespace Glsl

/-! ## Texts in front of a text -/

/-- A text is read into lexemes, whatever stands behind it as long as `C` allows it. -/
def Spells (C : List Char → Prop) (cs : List Char) (ts : List Token) : Prop :=
  ∀ rest, C rest → lex (cs ++ rest) = before ts (lex rest)

/-- Any text. -/
def Anything : List Char → Prop := fun _ => True

theorem endsNumber_cons {c : Char} (h : isNamePart c = false) (hdot : c ≠ '.') (rest : List Char) :
    EndsNumber (c :: rest) := by
  rintro _ ⟨⟩
  exact ⟨h, hdot⟩

theorem endsWord_cons {c : Char} (h : isNamePart c = false) (rest : List Char) :
    EndsWord (c :: rest) := by
  rintro _ ⟨⟩
  exact h

namespace Spells

variable {C D : List Char → Prop} {cs ds : List Char} {ts us : List Token}

theorem append (h : Spells C cs ts) (h' : Spells D ds us) (hC : ∀ rest, D rest → C (ds ++ rest)) :
    Spells D (cs ++ ds) (ts ++ us) := by
  intro rest hr
  rw [List.append_assoc, h _ (hC rest hr), h' rest hr, before_before]

theorem weaken (h : Spells C cs ts) (hC : ∀ rest, D rest → C rest) : Spells D cs ts := fun rest hr =>
  h rest (hC rest hr)

protected theorem nil : Spells C [] [] := fun rest _ => by
  rw [List.nil_append, before_nil]

/-- A symbol that is not a point. -/
theorem symbol {c : Char} (hw : c.isWhitespace = false) (hd : c.isDigit = false)
    (hn : isNameStart c = false) (hdot : c ≠ '.') : Spells C [c] [.symbol c] := fun _ _ =>
  lex_symbol hw hd hn fun h => absurd h hdot

theorem blank {c : Char} (h : c.isWhitespace) : Spells C [c] [] := fun rest _ => by
  rw [before_nil]
  exact lex_blank h rest

theorem word {name : String} (h : IsWord name) : Spells EndsWord name.toList [.word name] :=
  fun _ hr => lex_word h hr

/-- The name of a member, with the point before it. -/
theorem field {name : String} (h : IsWord name) :
    Spells EndsWord ('.' :: name.toList) [.symbol '.', .word name] := by
  intro rest hr
  have hdigit : ∀ d ∈ (name.toList ++ rest).head?, d.isDigit = false := by
    obtain ⟨c, cs, hcs, hc, -⟩ := id h
    rw [hcs]
    rintro _ ⟨⟩
    exact isNameStart_not_digit hc
  rw [List.cons_append, lex_symbol rfl rfl rfl fun _ => hdigit, lex_word h hr, before_before]
  rfl

/-- Texts with a separator between them. -/
theorem intercalate {α : Type} {sep : List Char} {marks : List Token} (hsep : Spells Anything sep marks)
    (hC : ∀ rest, C (sep ++ rest)) {f : α → List Char} {g : α → List Token} {xs : List α}
    (h : ∀ x ∈ xs, Spells C (f x) (g x)) :
    Spells C (sep.intercalate (xs.map f)) (marks.intercalate (xs.map g)) := by
  induction xs with
  | nil => exact .nil
  | cons x xs ih =>
    have hx := h x List.mem_cons_self
    have hxs := ih fun y hy => h y (List.mem_cons_of_mem _ hy)
    cases xs with
    | nil => simpa only [List.map_cons, List.map_nil, List.intercalate_singleton] using hx
    | cons y ys =>
      simp only [List.map_cons, List.intercalate_cons_cons] at hxs ⊢
      exact (hx.append hsep fun rest _ => hC rest).append hxs fun _ _ => trivial

end Spells

/-! ## Terms -/

/-- The operators that are read. -/
def Operator.isArithmetic : Operator → Bool
  | plus | minus | times => true
  | divide | atMost | and => false

/-- The symbol of an operator. -/
def Operator.symbol : Operator → Char
  | plus => '+'
  | minus => '-'
  | times => '*'
  | divide => '/'
  | atMost => '<'
  | and => '&'

/-- How loosely an operation binds. -/
def Operator.level : Operator → Nat
  | times => 2
  | _ => 3

namespace Term

/-- How loosely a term binds: as tightly as a call, as a sign, as a product or as a sum.  A text that
was given binds as tightly as a sign if it is a signed term, and more loosely than all others if not. -/
def rank : Term → Nat
  | raw text => if (readSigned text).isSome then 1 else 4
  | literal d => if d.negative then 1 else 0
  | negate _ => 1
  | binary _ op _ _ => op.level
  | _ => 0

/-- The terms that can have members and elements. -/
def isPlace : Term → Bool
  | name _ | member _ _ | index _ _ | call _ _ _ | group _ => true
  | raw _ | literal _ | binary _ _ _ _ | negate _ => false

/-- The terms whose text is read back to them. -/
inductive Readable : Term → Prop where
  | raw {text : String} {a : Ast} (h : readExpr text = some a) : Readable (.raw text)
  | literal (d : Decimal) : Readable (.literal d)
  | name {id : String} (h : IsWord id) : Readable (.name id)
  | member {base : Term} {field : String} (hb : Readable base) (hp : base.isPlace)
      (hf : IsWord field) : Readable (.member base field)
  | index {base : Term} {i : Nat} (hb : Readable base) (hp : base.isPlace) : Readable (.index base i)
  | call {spacing : Spacing} {f : String} {args : List Term} (hf : IsWord f)
      (ha : ∀ t ∈ args, Readable t) : Readable (.call spacing f args)
  | binary {spacing : Spacing} {op : Operator} {lhs rhs : Term} (hop : op.isArithmetic)
      (hl : Readable lhs) (hr : Readable rhs) (hll : lhs.rank ≤ op.level) (hrl : rhs.rank < op.level) :
      Readable (.binary spacing op lhs rhs)
  | negate {term : Term} (h : Readable term) (hl : term.rank ≤ 1) : Readable (.negate term)
  | group {term : Term} (h : Readable term) : Readable (.group term)

/-- The characters of a term. -/
abbrev chars (t : Term) : List Char :=
  t.text.toList

mutual

/-- A term is written behind what is there. -/
theorem toList_write (t : Term) (out : String) :
    (write out t).toList = out.toList ++ (write "" t).toList := by
  cases t with
  | raw | literal | name => simp [write]
  | member base field => simp [write, toList_write base out]
  | index base i => simp [write, toList_write base out]
  | call spacing f args =>
    simp [write, toList_writeArgs spacing args (out ++ f ++ "("),
      toList_writeArgs spacing args (f ++ "(")]
  | binary spacing op lhs rhs =>
    simp only [write]
    rw [toList_write rhs, toList_write rhs (write "" lhs ++ op.text spacing), String.toList_append,
      toList_write lhs out]
    simp
  | negate term => simp [write, toList_write term (out ++ "-"), toList_write term "-"]
  | group term => simp [write, toList_write term (out ++ "("), toList_write term "("]

theorem toList_writeArgs (spacing : Spacing) (args : List Term) (out : String) :
    (writeArgs spacing out args).toList = out.toList ++ (writeArgs spacing "" args).toList := by
  match args with
  | [] => simp [writeArgs]
  | [arg] => rw [writeArgs, writeArgs, toList_write arg out]
  | arg :: next :: rest =>
    rw [writeArgs, writeArgs, toList_writeArgs spacing (next :: rest),
      toList_writeArgs spacing (next :: rest) (write "" arg ++ spacing.comma), String.toList_append,
      toList_write arg out]
    simp

end

theorem chars_writeArgs (spacing : Spacing) (args : List Term) :
    (writeArgs spacing "" args).toList = spacing.comma.toList.intercalate (args.map chars) := by
  match args with
  | [] => simp [writeArgs]
  | [arg] => simp [writeArgs, chars, text]
  | arg :: next :: rest =>
    have ih := chars_writeArgs spacing (next :: rest)
    rw [writeArgs, toList_writeArgs, ih]
    simp [List.intercalate_cons_cons, chars, text]

theorem text_raw (s : String) : (raw s).text = s := by
  simp [text, write]

theorem chars_raw (s : String) : (raw s).chars = s.toList := by
  rw [chars, text_raw]

theorem chars_member (base : Term) (field : String) :
    (member base field).chars = base.chars ++ '.' :: field.toList := by
  simp [chars, text, write]

theorem chars_index (base : Term) (i : Nat) :
    (index base i).chars = base.chars ++ ('[' :: ((toString i).toList ++ [']'])) := by
  simp [chars, text, write]

theorem chars_call (spacing : Spacing) (f : String) (args : List Term) :
    (call spacing f args).chars =
      f.toList ++ ('(' :: (spacing.comma.toList.intercalate (args.map chars) ++ [')'])) := by
  rw [chars, text, write, String.toList_append, toList_writeArgs, chars_writeArgs]
  simp

theorem chars_binary (spacing : Spacing) (op : Operator) (lhs rhs : Term) :
    (binary spacing op lhs rhs).chars = lhs.chars ++ ((op.text spacing).toList ++ rhs.chars) := by
  rw [chars, text, write, toList_write]
  simp [chars, text]

theorem chars_negate (term : Term) : (negate term).chars = '-' :: term.chars := by
  rw [chars, text, write, toList_write]
  rfl

theorem chars_group (term : Term) : (group term).chars = '(' :: (term.chars ++ [')']) := by
  rw [chars, text, write, String.toList_append, toList_write]
  rfl

mutual

/-- The lexemes of a term. -/
def tokens : Term → List Token
  | raw text => (lex text.toList).getD []
  | literal d => literalTokens d
  | name id => [.word id]
  | member base field => tokens base ++ [.symbol '.', .word field]
  | index base i => tokens base ++ [.symbol '[', .number i, .symbol ']']
  | call _ f args => .word f :: .symbol '(' :: (argsTokens args ++ [.symbol ')'])
  | binary _ op lhs rhs => tokens lhs ++ (.symbol op.symbol :: tokens rhs)
  | negate term => .symbol '-' :: tokens term
  | group term => .symbol '(' :: (tokens term ++ [.symbol ')'])

/-- The lexemes of arguments, with commas between them. -/
def argsTokens : List Term → List Token
  | [] => []
  | [arg] => tokens arg
  | arg :: next :: rest => tokens arg ++ (.symbol ',' :: argsTokens (next :: rest))

end

theorem argsTokens_eq (args : List Term) :
    argsTokens args = [Token.symbol ','].intercalate (args.map tokens) := by
  match args with
  | [] => rfl
  | [arg] => simp [argsTokens]
  | arg :: next :: rest =>
    have ih := argsTokens_eq (next :: rest)
    rw [argsTokens, ih]
    simp [List.intercalate_cons_cons]

/-- What may stand behind a term: a point only behind a place. -/
def Bounds (t : Term) (rest : List Char) : Prop :=
  EndsNumber rest ∨ t.isPlace ∧ EndsWord rest

theorem Bounds.endsWord {t : Term} {rest : List Char} (h : t.Bounds rest) : EndsWord rest :=
  h.elim EndsNumber.endsWord And.right

theorem Bounds.endsNumber {t : Term} {rest : List Char} (h : t.Bounds rest) (ht : t.isPlace = false) :
    EndsNumber rest := by
  rcases h with h | ⟨hp, -⟩
  · exact h
  · rw [ht] at hp
    cases hp

/-- The sign of an operation, with its blanks. -/
theorem spells_operator (spacing : Spacing) {op : Operator} (h : op.isArithmetic) :
    Spells Anything (op.text spacing).toList [.symbol op.symbol] := by
  have hsign : Spells Anything op.sign.toList [.symbol op.symbol] := by
    cases op with
    | plus | minus | times => exact .symbol rfl rfl rfl (by decide)
    | divide | atMost | and => cases h
  cases spacing with
  | tight => exact hsign
  | loose =>
    have hloose : (op.text .loose).toList = [' '] ++ (op.sign.toList ++ [' ']) := by
      simp [Operator.text]
    rw [hloose]
    have hblank : Spells Anything [' '] [] := .blank rfl
    exact hblank.append (hsign.append hblank fun _ _ => trivial) fun _ _ => trivial

theorem spells_comma (spacing : Spacing) : Spells Anything spacing.comma.toList [.symbol ','] := by
  have hcomma : Spells Anything [','] [.symbol ','] := .symbol rfl rfl rfl (by decide)
  cases spacing with
  | tight => exact hcomma
  | loose => exact hcomma.append (.blank rfl) fun _ _ => trivial

theorem endsNumber_operator (spacing : Spacing) {op : Operator} (h : op.isArithmetic)
    (rest : List Char) : EndsNumber ((op.text spacing).toList ++ rest) := by
  cases op with
  | plus | minus | times => cases spacing <;> exact endsNumber_cons rfl (by decide) _
  | divide | atMost | and => cases h

theorem endsNumber_comma (spacing : Spacing) (rest : List Char) :
    EndsNumber (spacing.comma.toList ++ rest) := by
  cases spacing <;> exact endsNumber_cons rfl (by decide) _

/-- **The text of a term is read into its lexemes.** -/
theorem Readable.spells {t : Term} (h : t.Readable) : Spells t.Bounds t.chars t.tokens := by
  induction h with
  | @raw text a h =>
    obtain ⟨ts, hts, -⟩ := readExpr_eq_some.1 h
    intro rest hr
    rw [tokens, hts, chars_raw]
    exact lex_append hts (hr.endsNumber rfl)
  | literal d =>
    intro rest hr
    rw [tokens]
    exact lex_literal d (hr.endsNumber rfl)
  | name h =>
    rw [tokens]
    exact (Spells.word h).weaken fun _ hr => hr.endsWord
  | @member base field hb hp hf ih =>
    rw [tokens, chars_member]
    refine (ih.append (Spells.field hf) fun rest hr => ?_).weaken fun _ hr => hr.endsWord
    exact .inr ⟨hp, endsWord_cons rfl _⟩
  | @index base i hb hp ih =>
    rw [tokens, chars_index]
    have hopen : Spells Anything ['['] [.symbol '['] := .symbol rfl rfl rfl (by decide)
    have hclose : Spells Anything [']'] [.symbol ']'] := .symbol rfl rfl rfl (by decide)
    have hnat : Spells EndsNumber (toString i).toList [.number i] := fun _ hr => lex_nat i hr
    have hinner := hopen.append (hnat.append hclose fun rest _ => endsNumber_cons rfl (by decide) rest)
      fun _ _ => trivial
    exact (ih.append hinner fun rest _ => .inr ⟨hp, endsWord_cons rfl _⟩).weaken fun _ _ => trivial
  | @call spacing f args hf ha ih =>
    rw [tokens, chars_call, argsTokens_eq]
    have hopen : Spells Anything ['('] [.symbol '('] := .symbol rfl rfl rfl (by decide)
    have hclose : Spells Anything [')'] [.symbol ')'] := .symbol rfl rfl rfl (by decide)
    have hargs := Spells.intercalate (spells_comma spacing) (endsNumber_comma spacing)
      fun t ht => (ih t ht).weaken fun _ hr => .inl hr
    have hinner := hopen.append (hargs.append hclose fun rest _ => endsNumber_cons rfl (by decide) rest)
      fun _ _ => trivial
    exact ((Spells.word hf).append hinner fun rest _ => endsWord_cons rfl _).weaken fun _ _ => trivial
  | @binary spacing op lhs rhs hop hl hr hll hrl ihl ihr =>
    rw [tokens, chars_binary]
    have hrhs := (spells_operator spacing hop).append ihr fun _ _ => trivial
    refine (ihl.append hrhs fun rest _ => .inl ?_).weaken fun _ hr => .inl (hr.endsNumber rfl)
    rw [List.append_assoc]
    exact endsNumber_operator spacing hop _
  | @negate term h hl ih =>
    rw [tokens, chars_negate]
    have hsign : Spells Anything ['-'] [.symbol '-'] := .symbol rfl rfl rfl (by decide)
    exact (hsign.append ih fun _ _ => trivial).weaken fun _ hr => .inl (hr.endsNumber rfl)
  | @group term h ih =>
    rw [tokens, chars_group]
    have hopen : Spells Anything ['('] [.symbol '('] := .symbol rfl rfl rfl (by decide)
    have hclose : Spells Anything [')'] [.symbol ')'] := .symbol rfl rfl rfl (by decide)
    exact (hopen.append (ih.append hclose fun rest _ => .inl (endsNumber_cons rfl (by decide) rest))
      fun _ _ => trivial).weaken fun _ _ => trivial

end Term

/-! ## Statements and declarations -/

/-- The lexemes of a binder. -/
def Binder.tokens (b : Binder) : List Token :=
  [.word b.type, .word b.name]

/-- A binder of words. -/
def Binder.Readable (b : Binder) : Prop :=
  IsWord b.type ∧ IsWord b.name

namespace Statement

/-- The lexemes of a statement. -/
def tokens : Statement → List Token
  | define type name value => .word type :: .word name :: .symbol '=' :: (value.tokens ++ [.symbol ';'])
  | assign name value => .word name :: .symbol '=' :: (value.tokens ++ [.symbol ';'])
  | yield value => .word "return" :: (value.tokens ++ [.symbol ';'])
  | decrease _ _ | returnIf _ _ => []

/-- The statements that are read back. -/
inductive Readable : Statement → Prop where
  | define {type name : String} {value : Term} (ht : IsWord type) (hne : type ≠ "return")
      (hn : IsWord name) (hv : value.Readable) : Readable (.define type name value)
  | assign {name : String} {value : Term} (hn : IsWord name) (hne : name ≠ "return")
      (hv : value.Readable) : Readable (.assign name value)
  | yield {value : Term} (hv : value.Readable) : Readable (.yield value)

end Statement

namespace Body

/-- The statements of a body. -/
def statements : Body → List Statement
  | expression value => [.yield value]
  | block lines => lines.flatten

/-- The lexemes of a body. -/
def tokens (b : Body) : List Token :=
  .symbol '\x7b' :: (b.statements.flatMap Statement.tokens ++ [.symbol '\x7d'])

/-- A body of statements that are read back. -/
def Readable (b : Body) : Prop :=
  ∀ s ∈ b.statements, s.Readable

end Body

namespace Declaration

/-- The lexemes of a declaration. -/
def tokens : Declaration → List Token
  | uniform _ => []
  | struct name members => .word "struct" :: .word name :: .symbol '\x7b' ::
      (members.flatMap (fun m => m.tokens ++ [.symbol ';']) ++ [.symbol '\x7d', .symbol ';'])
  | function result name parameters body => .word result :: .word name :: .symbol '(' ::
      ([Token.symbol ','].intercalate (parameters.map Binder.tokens) ++ (.symbol ')' :: body.tokens))

/-- The declarations that are read back. -/
inductive Readable : Declaration → Prop where
  | struct {name : String} {members : List Binder} (hn : IsWord name) (hm : ∀ m ∈ members, m.Readable) :
      Readable (.struct name members)
  | function {result name : String} {parameters : List Binder} {body : Body} (hr : IsWord result)
      (hne : result ≠ "struct") (hn : IsWord name) (hp : ∀ b ∈ parameters, b.Readable)
      (hb : body.Readable) : Readable (.function result name parameters body)

end Declaration

namespace Spells

/-- Texts one after the other, none of which minds what follows. -/
theorem both {cs ds : List Char} {ts us : List Token} (h : Spells Anything cs ts)
    (h' : Spells Anything ds us) : Spells Anything (cs ++ ds) (ts ++ us) :=
  h.append h' fun _ _ => trivial

/-- Any number of texts one after the other. -/
theorem flatten {css : List (List Char)} {tss : List (List Token)}
    (h : List.Forall₂ (Spells Anything) css tss) : Spells Anything css.flatten tss.flatten := by
  induction h with
  | nil => exact .nil
  | cons hfirst _ ih => exact hfirst.both ih

/-- Texts with blanks between them. -/
theorem separated {sep : List Char} (hsep : Spells Anything sep []) {css : List (List Char)}
    {tss : List (List Token)} (h : List.Forall₂ (Spells Anything) css tss) :
    Spells Anything (sep.intercalate css) tss.flatten := by
  induction h with
  | nil => exact .nil
  | cons hfirst hrest ih =>
    cases hrest with
    | nil => simpa using hfirst
    | cons hnext hmore =>
      rw [List.intercalate_cons_cons, List.flatten_cons]
      simpa using (hfirst.both hsep).both ih

theorem forall₂_map {α : Type} {f : α → List Char} {g : α → List Token} {xs : List α}
    (h : ∀ x ∈ xs, Spells Anything (f x) (g x)) : List.Forall₂ (Spells Anything) (xs.map f) (xs.map g) :=
  List.forall₂_map_left_iff.2 (List.forall₂_map_right_iff.2 (List.forall₂_same.2 h))

theorem wordBlank {name : String} (h : IsWord name) :
    Spells Anything (name.toList ++ [' ']) [.word name] := by
  have hb : Spells Anything [' '] [] := .blank rfl
  exact (Spells.word h).append hb fun rest _ => endsWord_cons rfl rest

theorem wordSymbol {name : String} (h : IsWord name) {c : Char} (hw : c.isWhitespace = false)
    (hc : isNamePart c = false) (hdot : c ≠ '.') :
    Spells Anything (name.toList ++ [c]) [.word name, .symbol c] := by
  have hstart : isNameStart c = false ∧ c.isDigit = false := by
    simp only [isNamePart, Char.isAlphanum, Bool.or_eq_false_iff] at hc
    exact ⟨by simp [isNameStart, hc.1.1, hc.2], hc.1.2⟩
  have hs : Spells Anything [c] [.symbol c] := .symbol hw hstart.2 hstart.1 hdot
  exact (Spells.word h).append hs fun rest _ => endsWord_cons hc rest

end Spells

namespace Statement

attribute [local simp] text

theorem toList_define (type name : String) (value : Term) :
    (define type name value).text.toList =
      (type.toList ++ [' ']) ++ ((name.toList ++ [' ']) ++ (['=', ' '] ++ (value.chars ++ [';']))) := by
  rw [text, String.toList_append, Term.toList_write]
  simp [Term.chars, Term.text]

theorem toList_assign (name : String) (value : Term) :
    (assign name value).text.toList =
      (name.toList ++ [' ']) ++ (['=', ' '] ++ (value.chars ++ [';'])) := by
  rw [text, String.toList_append, Term.toList_write]
  simp [Term.chars, Term.text]

theorem toList_yield (value : Term) :
    (yield value).text.toList = ("return".toList ++ [' ']) ++ (value.chars ++ [';']) := by
  rw [text, String.toList_append, Term.toList_write]
  simp [Term.chars, Term.text]

end Statement

namespace Spells

variable {t : Term} {ts : List Token}

/-- A term with a semicolon behind it. -/
theorem termEnd (h : Spells t.Bounds t.chars ts) :
    Spells Anything (t.chars ++ [';']) (ts ++ [Token.symbol ';']) := by
  have hend : Spells Anything [';'] [.symbol ';'] := .symbol rfl rfl rfl (by decide)
  exact h.append hend fun rest _ => .inl (endsNumber_cons rfl (by decide) rest)

/-- A definition of a variable. -/
theorem define {type name : String} (htype : IsWord type) (hname : IsWord name)
    (h : Spells t.Bounds t.chars ts) : Spells Anything (Statement.define type name t).text.toList
      (Token.word type :: Token.word name :: Token.symbol '=' :: (ts ++ [Token.symbol ';'])) := by
  have hsign : Spells Anything ['='] [.symbol '='] := .symbol rfl rfl rfl (by decide)
  rw [Statement.toList_define]
  exact (wordBlank htype).both ((wordBlank hname).both ((hsign.both (.blank rfl)).both h.termEnd))

/-- An assignment. -/
theorem assign {name : String} (hname : IsWord name) (h : Spells t.Bounds t.chars ts) :
    Spells Anything (Statement.assign name t).text.toList
      (Token.word name :: Token.symbol '=' :: (ts ++ [Token.symbol ';'])) := by
  have hsign : Spells Anything ['='] [.symbol '='] := .symbol rfl rfl rfl (by decide)
  rw [Statement.toList_assign]
  exact (wordBlank hname).both ((hsign.both (.blank rfl)).both h.termEnd)

/-- A returned value. -/
theorem yield (h : Spells t.Bounds t.chars ts) :
    Spells Anything (Statement.yield t).text.toList (Token.word "return" :: (ts ++ [Token.symbol ';'])) := by
  rw [Statement.toList_yield]
  exact (wordBlank (by decide)).both h.termEnd

end Spells

theorem Statement.Readable.spells {s : Statement} (h : s.Readable) :
    Spells Anything s.text.toList s.tokens := by
  cases h with
  | define ht hne hn hv => exact .define ht hn hv.spells
  | assign hn hne hv => exact .assign hn hv.spells
  | yield hv => exact .yield hv.spells

/-- A text that is written piece by piece. -/
theorem toList_foldl {α : Type} {step : String → α → String} {f : α → List Char}
    (h : ∀ out x, (step out x).toList = out.toList ++ f x) (xs : List α) (out : String) :
    (xs.foldl step out).toList = out.toList ++ xs.flatMap f := by
  induction xs generalizing out with
  | nil => simp
  | cons x xs ih => rw [List.foldl_cons, ih, h, List.flatMap_cons, List.append_assoc]

namespace Body

theorem toList_expression (value : Term) : (expression value).text.toList =
    ['\x7b'] ++ ([' '] ++ ((Statement.yield value).text.toList ++ ([' '] ++ ['\x7d']))) := by
  rw [text, String.toList_append, Term.toList_write, Statement.text, String.toList_append,
    Term.toList_write value "return "]
  simp

/-- The characters of a line of a block. -/
def lineChars (line : List Statement) : List Char :=
  [' ', ' ', ' ', ' '] ++ ([' '].intercalate (line.map (·.text.toList)) ++ ['\n'])

theorem toList_block (lines : List (List Statement)) :
    (block lines).text.toList = ['\x7b'] ++ (['\n'] ++ (lines.flatMap lineChars ++ ['\x7d'])) := by
  rw [text, String.toList_append, toList_foldl (f := lineChars)]
  · simp
  · simp [lineChars, Function.comp_def]

end Body

namespace Spells

/-- The indentation of a line. -/
theorem indent : Spells Anything [' ', ' ', ' ', ' '] [] := by
  have hblank : Spells Anything [' '] [] := .blank rfl
  exact (hblank.both hblank).both (hblank.both hblank)

/-- The statements of a line. -/
theorem line {ss : List Statement} {tss : List (List Token)}
    (h : List.Forall₂ (fun s ts => Spells Anything s.text.toList ts) ss tss) :
    Spells Anything (Body.lineChars ss) tss.flatten := by
  have hblank : Spells Anything [' '] [] := .blank rfl
  have hbreak : Spells Anything ['\n'] [] := .blank rfl
  have hstatements := hblank.separated (List.forall₂_map_left_iff.2 h)
  simpa [Body.lineChars] using indent.both (hstatements.both hbreak)

/-- A block of lines. -/
theorem block {lines : List (List Statement)} {tss : List (List Token)}
    (h : List.Forall₂ (fun line ts => Spells Anything (Body.lineChars line) ts) lines tss) :
    Spells Anything (Body.block lines).text.toList
      (Token.symbol '\x7b' :: (tss.flatten ++ [Token.symbol '\x7d'])) := by
  have hopen : Spells Anything ['\x7b'] [.symbol '\x7b'] := .symbol rfl rfl rfl (by decide)
  have hclose : Spells Anything ['\x7d'] [.symbol '\x7d'] := .symbol rfl rfl rfl (by decide)
  have hbreak : Spells Anything ['\n'] [] := .blank rfl
  have hlines := flatten (List.forall₂_map_left_iff.2 h)
  rw [Body.toList_block, List.flatMap_def]
  exact hopen.both (hbreak.both (hlines.both hclose))

end Spells

theorem Body.Readable.spells {b : Body} (h : b.Readable) : Spells Anything b.text.toList b.tokens := by
  cases b with
  | expression value =>
    have hopen : Spells Anything ['\x7b'] [.symbol '\x7b'] := .symbol rfl rfl rfl (by decide)
    have hclose : Spells Anything ['\x7d'] [.symbol '\x7d'] := .symbol rfl rfl rfl (by decide)
    have hblank : Spells Anything [' '] [] := .blank rfl
    have hv := (h (.yield value) List.mem_cons_self).spells
    rw [toList_expression]
    have := hopen.both (hblank.both (hv.both (hblank.both hclose)))
    simpa [tokens, statements] using this
  | block lines =>
    have hline : ∀ line ∈ lines, Spells Anything (lineChars line) (line.map Statement.tokens).flatten := by
      intro line hl
      refine .line (List.forall₂_map_right_iff.2 (List.forall₂_same.2 fun s hs => ?_))
      exact (h s (List.mem_flatten.2 ⟨line, hl, hs⟩)).spells
    have hblock := Spells.block (List.forall₂_map_right_iff.2 (List.forall₂_same.2 hline))
    rw [tokens, statements, ← List.flatMap_id, List.flatMap_assoc]
    simpa [List.flatMap_def] using hblock

theorem Binder.Readable.spells {b : Binder} (h : b.Readable) :
    Spells EndsWord b.text.toList b.tokens := by
  have htext : b.text.toList = (b.type.toList ++ [' ']) ++ b.name.toList := by
    simp [text]
  rw [htext]
  exact (Spells.wordBlank h.1).append (.word h.2) fun _ _ => trivial

namespace Declaration

attribute [local simp] text

theorem toList_struct (name : String) (members : List Binder) :
    (struct name members).text.toList = ("struct".toList ++ [' ']) ++ ((name.toList ++ [' ']) ++
      (['\x7b'] ++ ([' '] ++ ([' '].intercalate (members.map fun m => m.text.toList ++ [';']) ++
        ([' '] ++ (['\x7d'] ++ [';'])))))) := by
  simp [Function.comp_def]

theorem toList_function (result name : String) (parameters : List Binder) (body : Body) :
    (function result name parameters body).text.toList =
      (result.toList ++ [' ']) ++ ((name.toList ++ ['(']) ++
        (([',', ' '].intercalate (parameters.map (·.text.toList)) ++ [')']) ++
          ([' '] ++ body.text.toList))) := by
  simp [Function.comp_def]

end Declaration

/-- A function is read into the lexemes of its parameters and of its body. -/
theorem Spells.function {result name : String} {parameters : List Binder} {body : Body} {ts : List Token}
    (hr : IsWord result) (hn : IsWord name) (hp : ∀ b ∈ parameters, b.Readable)
    (hb : Spells Anything body.text.toList ts) :
    Spells Anything (Declaration.function result name parameters body).text.toList
      (Token.word result :: Token.word name :: Token.symbol '(' ::
        ([Token.symbol ','].intercalate (parameters.map Binder.tokens) ++ (Token.symbol ')' :: ts))) := by
  have hblank : Spells Anything [' '] [] := .blank rfl
  have hclose : Spells Anything [')'] [.symbol ')'] := .symbol rfl rfl rfl (by decide)
  have hcomma : Spells Anything [',', ' '] [.symbol ','] := Term.spells_comma .loose
  have hparams := (Spells.intercalate hcomma (fun rest => endsWord_cons rfl _)
    fun b hmem => (hp b hmem).spells).append hclose fun rest _ => endsWord_cons rfl rest
  rw [Declaration.toList_function]
  have := (Spells.wordBlank hr).both ((Spells.wordSymbol (c := '(') hn rfl rfl (by decide)).both
    (hparams.both (hblank.both hb)))
  simpa using this

/-- **The text of a declaration is read into its lexemes.** -/
theorem Declaration.Readable.spells {d : Declaration} (h : d.Readable) :
    Spells Anything d.text.toList d.tokens := by
  have hblank : Spells Anything [' '] [] := .blank rfl
  have hsemicolon : Spells Anything [';'] [.symbol ';'] := .symbol rfl rfl rfl (by decide)
  cases h with
  | struct hn hm =>
    have hopen : Spells Anything ['\x7b'] [.symbol '\x7b'] := .symbol rfl rfl rfl (by decide)
    have hclose : Spells Anything ['\x7d'] [.symbol '\x7d'] := .symbol rfl rfl rfl (by decide)
    have hmembers := hblank.separated (Spells.forall₂_map fun m hmem =>
      (hm m hmem).spells.append hsemicolon fun rest _ => endsWord_cons rfl rest)
    rw [toList_struct]
    have := (Spells.wordBlank (show IsWord "struct" by decide)).both ((Spells.wordBlank hn).both (hopen.both
      (hblank.both (hmembers.both (hblank.both (hclose.both hsemicolon))))))
    simpa [tokens, List.flatMap_def] using this
  | function hr hne hn hp hb => exact .function hr hn hp hb.spells

theorem toList_declarations (ds : List Declaration) :
    (ds.foldl (fun out d => out ++ d.text ++ "\n") "").toList =
      ds.flatMap fun d => d.text.toList ++ ['\n'] := by
  rw [toList_foldl (f := fun d => d.text.toList ++ ['\n'])]
  · simp
  · simp

/-- **A header is read into the lexemes of its declarations.** -/
theorem lex_declarations {ds : List Declaration} (h : ∀ d ∈ ds, d.Readable) :
    lex (ds.foldl (fun out d => out ++ d.text ++ "\n") "").toList = some (ds.flatMap (·.tokens)) := by
  have hbreak : Spells Anything ['\n'] [] := .blank rfl
  have hall := Spells.flatten (Spells.forall₂_map fun d hd => (h d hd).spells.both hbreak)
  have hlex := hall [] trivial
  rw [List.append_nil, lex_nil] at hlex
  rw [toList_declarations, List.flatMap_def, hlex]
  simp [before, List.flatMap_def]

end Glsl
end ShaderAlgebra
