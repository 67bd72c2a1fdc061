import ShaderAlgebra.Proofs.Lexer
import ShaderAlgebra.Glsl.Term

/-!
# The grammar of expressions

A recursive descent parser for the expressions that are generated: sums of
products of signed terms, with members, elements, calls and parentheses.

An expression that is parsed alone is parsed to the same tree in front of any lexemes that
cannot go on with it (`parseExpr_append`, `parseSigned_append`).  Which those are
depends on the level of the grammar.  Lexemes that are left over stop the parser as well, so the
condition is only asked for where none are.
-/

namespace ShaderAlgebra
namespace Glsl

/-- The tree of an expression, without parentheses. -/
inductive Ast where
  | number (value : ℚ)
  | name (id : String)
  | member (base : Ast) (field : String)
  | index (base i : Ast)
  | call (function : String) (args : List Ast)
  | binary (operator : Operator) (lhs rhs : Ast)
  | negate (term : Ast)

/-- What follows a symbol that has to come next. -/
def skip? (c : Char) : List Token → Option (List Token)
  | .symbol d :: ts => if d = c then some ts else none
  | _ => none

/-- A word that has to come next, and what follows it. -/
def word? : List Token → Option (String × List Token)
  | .word w :: ts => some (w, ts)
  | _ => none

theorem word?_cons (w : String) (ts : List Token) : word? (.word w :: ts) = some (w, ts) :=
  rfl

/-- A number or a name. -/
def atom? : List Token → Option (Ast × List Token)
  | .number q :: ts => some (.number q, ts)
  | .word x :: ts => some (.name x, ts)
  | _ => none

/-- Goes on behind what was read, if that took something off the lexemes `ts`. -/
def andThen {α β : Type} (ts : List Token) (x : Option (α × List Token))
    (next : α → (rest : List Token) → rest.length < ts.length → Option β) : Option β :=
  x.bind fun read => if h : read.2.length < ts.length then next read.1 read.2 h else none

theorem andThen_of_lt {α β : Type} {ts rest : List Token} {x : Option (α × List Token)} {a : α}
    (next : α → (rest : List Token) → rest.length < ts.length → Option β) (hx : x = some (a, rest))
    (h : rest.length < ts.length) : andThen ts x next = next a rest h := by
  rw [andThen, hx, Option.bind_some, dif_pos h]

theorem length_tail_lt {ts : List Token} {t : Token} (h : ts.head? = some t) :
    ts.tail.length < ts.length := by
  cases ts with
  | nil => cases h
  | cons t ts => exact Nat.lt_succ_self _

theorem length_lt_cons {rest ts : List Token} (t : Token) (h : rest.length < ts.length) :
    rest.length < (t :: ts).length :=
  Nat.lt_succ_of_lt h

mutual

/-- An expression: a sum. -/
def parseExpr (ts : List Token) : Option (Ast × List Token) :=
  andThen ts (parseProduct ts) fun lhs rest _ => parseSummands lhs rest
termination_by (ts.length, 3)
decreasing_by
  · exact .right _ (by decide)
  · exact .left _ _ ‹_›

/-- The rest of a sum. -/
def parseSummands (lhs : Ast) (ts : List Token) : Option (Ast × List Token) :=
  if _h : ts.head? = some (.symbol '+') then
    andThen ts (parseProduct ts.tail) fun rhs rest _ => parseSummands (.binary .plus lhs rhs) rest
  else if _h : ts.head? = some (.symbol '-') then
    andThen ts (parseProduct ts.tail) fun rhs rest _ => parseSummands (.binary .minus lhs rhs) rest
  else some (lhs, ts)
termination_by (ts.length, 0)
decreasing_by
  · exact .left _ _ (length_tail_lt ‹_›)
  · exact .left _ _ ‹_›
  · exact .left _ _ (length_tail_lt ‹_›)
  · exact .left _ _ ‹_›

/-- A product. -/
def parseProduct (ts : List Token) : Option (Ast × List Token) :=
  andThen ts (parseSigned ts) fun lhs rest _ => parseFactors lhs rest
termination_by (ts.length, 2)
decreasing_by
  · exact .right _ (by decide)
  · exact .left _ _ ‹_›

/-- The rest of a product. -/
def parseFactors (lhs : Ast) (ts : List Token) : Option (Ast × List Token) :=
  if _h : ts.head? = some (.symbol '*') then
    andThen ts (parseSigned ts.tail) fun rhs rest _ => parseFactors (.binary .times lhs rhs) rest
  else some (lhs, ts)
termination_by (ts.length, 0)
decreasing_by
  · exact .left _ _ (length_tail_lt ‹_›)
  · exact .left _ _ ‹_›

/-- A term with its signs. -/
def parseSigned (ts : List Token) : Option (Ast × List Token) :=
  if _h : ts.head? = some (.symbol '-') then do
    let term ← parseSigned ts.tail
    some (.negate term.1, term.2)
  else andThen ts (parsePrimary ts) fun base rest _ => parseSuffixes base rest
termination_by (ts.length, 1)
decreasing_by
  · exact .left _ _ (length_tail_lt ‹_›)
  · exact .right _ (by decide)
  · exact .left _ _ ‹_›

/-- The members and elements that follow a term. -/
def parseSuffixes (base : Ast) (ts : List Token) : Option (Ast × List Token) :=
  if _h : ts.head? = some (.symbol '.') then
    andThen ts (word? ts.tail) fun field rest _ => parseSuffixes (.member base field) rest
  else if _h : ts.head? = some (.symbol '[') then
    andThen ts
      (do let i ← parseExpr ts.tail; let ts ← skip? ']' i.2; some (i.1, ts))
      fun i rest _ => parseSuffixes (.index base i) rest
  else some (base, ts)
termination_by (ts.length, 0)
decreasing_by
  · exact .left _ _ ‹_›
  · exact .left _ _ (length_tail_lt ‹_›)
  · exact .left _ _ ‹_›

/-- A number, a name, a call or a term in parentheses. -/
def parsePrimary (ts : List Token) : Option (Ast × List Token) :=
  if _h : ts.head? = some (.symbol '(') then do
    let term ← parseExpr ts.tail
    let ts ← skip? ')' term.2
    some (term.1, ts)
  else if ts.tail.head? = some (.symbol '(') then
    andThen ts (word? ts) fun f rest _ => do
      let args ← parseArgs rest.tail
      some (.call f args.1, args.2)
  else atom? ts
termination_by (ts.length, 0)
decreasing_by
  · exact .left _ _ (length_tail_lt ‹_›)
  · exact .left _ _ (Nat.lt_of_le_of_lt (List.tail_suffix _).length_le ‹_›)

/-- The arguments of a call up to its closing parenthesis. -/
def parseArgs (ts : List Token) : Option (List Ast × List Token) :=
  if ts.head? = some (.symbol ')') then some ([], ts.tail)
  else andThen ts (parseExpr ts) fun arg rest _ => parseMoreArgs arg rest
termination_by (ts.length, 4)
decreasing_by
  · exact .right _ (by decide)
  · exact .left _ _ ‹_›

/-- The arguments of a call behind the one that was parsed last. -/
def parseMoreArgs (arg : Ast) (ts : List Token) : Option (List Ast × List Token) :=
  if _h : ts.head? = some (.symbol ',') then
    andThen ts (parseExpr ts.tail) fun next rest _ => do
      let args ← parseMoreArgs next rest
      some (arg :: args.1, args.2)
  else do
    let ts ← skip? ')' ts
    some ([arg], ts)
termination_by (ts.length, 0)
decreasing_by
  · exact .left _ _ (length_tail_lt ‹_›)
  · exact .left _ _ ‹_›

end

/-! ## What may follow -/

/-- The lexemes that cannot turn a name into a call. -/
def EndsName (rest : List Token) : Prop :=
  rest.head? ≠ some (.symbol '(')

/-- The lexemes that cannot go on with a term. -/
def EndsTerm (rest : List Token) : Prop :=
  EndsName rest ∧ rest.head? ≠ some (.symbol '.') ∧ rest.head? ≠ some (.symbol '[')

/-- The lexemes that cannot go on with a product. -/
def EndsProduct (rest : List Token) : Prop :=
  EndsTerm rest ∧ rest.head? ≠ some (.symbol '*')

/-- The lexemes that cannot go on with a sum. -/
def EndsSum (rest : List Token) : Prop :=
  EndsProduct rest ∧ rest.head? ≠ some (.symbol '+') ∧ rest.head? ≠ some (.symbol '-')

theorem parseSuffixes_end (base : Ast) {rest : List Token} (h : EndsTerm rest) :
    parseSuffixes base rest = some (base, rest) := by
  rw [parseSuffixes, dif_neg h.2.1, dif_neg h.2.2]

theorem parseFactors_end (lhs : Ast) {rest : List Token} (h : EndsProduct rest) :
    parseFactors lhs rest = some (lhs, rest) := by
  rw [parseFactors, dif_neg h.2]

theorem parseSummands_end (lhs : Ast) {rest : List Token} (h : EndsSum rest) :
    parseSummands lhs rest = some (lhs, rest) := by
  rw [parseSummands, dif_neg h.2.1, dif_neg h.2.2]

/-! ## Expressions in front of other lexemes -/

theorem exists_of_andThen {α β : Type} {ts : List Token} {x : Option (α × List Token)}
    {next : α → (rest : List Token) → rest.length < ts.length → Option β} {b : β}
    (h : andThen ts x next = some b) :
    ∃ a rest, ∃ hlt : rest.length < ts.length, x = some (a, rest) ∧ next a rest hlt = some b := by
  obtain ⟨⟨a, rest⟩, hx, hnext⟩ := Option.bind_eq_some_iff.1 h
  split at hnext
  · rename_i hlt
    exact ⟨a, rest, hlt, hx, hnext⟩
  · cases hnext

theorem length_append_lt {ts us : List Token} (h : ts.length < us.length) (rest : List Token) :
    (ts ++ rest).length < (us ++ rest).length := by
  simp only [List.length_append]
  omega

theorem skip?_append {c : Char} {ts more : List Token} (h : skip? c ts = some more) (rest : List Token) :
    skip? c (ts ++ rest) = some (more ++ rest) := by
  cases ts with
  | nil => cases h
  | cons t ts =>
    cases t with
    | number | word => cases h
    | symbol d =>
      simp only [skip?] at h
      split at h
      · rename_i hd
        obtain rfl := Option.some.inj h
        simp [skip?, hd]
      · cases h

/-- A symbol that was skipped was there. -/
theorem ne_nil_of_skip? {c : Char} {ts more : List Token} (h : skip? c ts = some more) : ts ≠ [] := by
  rintro rfl
  cases h

theorem word?_append {w : String} {ts more : List Token} (h : word? ts = some (w, more))
    (rest : List Token) : word? (ts ++ rest) = some (w, more ++ rest) := by
  cases ts with
  | nil => cases h
  | cons t ts =>
    cases t with
    | number | symbol => cases h
    | word v =>
      obtain ⟨rfl, rfl⟩ := Prod.mk.inj (Option.some.inj h)
      rfl

/-- An atom is one lexeme. -/
theorem exists_of_atom? {a : Ast} {ts more : List Token} (h : atom? ts = some (a, more)) :
    ∃ t, ts = t :: more := by
  cases ts with
  | nil => cases h
  | cons t ts =>
    cases t with
    | symbol => cases h
    | number | word =>
      obtain ⟨rfl, rfl⟩ := Prod.mk.inj (Option.some.inj h)
      exact ⟨_, rfl⟩

theorem atom?_append {a : Ast} {ts more : List Token} (h : atom? ts = some (a, more))
    (rest : List Token) : atom? (ts ++ rest) = some (a, more ++ rest) := by
  cases ts with
  | nil => cases h
  | cons t ts =>
    cases t with
    | symbol => cases h
    | number | word =>
      obtain ⟨rfl, rfl⟩ := Prod.mk.inj (Option.some.inj h)
      rfl

theorem endsSum_nil : EndsSum [] := by
  simp [EndsSum, EndsProduct, EndsTerm, EndsName]

/-- Where nothing is left, a sum does not go on. -/
theorem eq_nil_of_parseSummands {lhs a : Ast} {more : List Token}
    (h : parseSummands lhs [] = some (a, more)) : more = [] := by
  rw [parseSummands_end _ endsSum_nil] at h
  exact (Prod.mk.inj (Option.some.inj h)).2.symm

theorem eq_nil_of_parseFactors {lhs a : Ast} {more : List Token}
    (h : parseFactors lhs [] = some (a, more)) : more = [] := by
  rw [parseFactors_end _ endsSum_nil.1] at h
  exact (Prod.mk.inj (Option.some.inj h)).2.symm

theorem eq_nil_of_parseSuffixes {base a : Ast} {more : List Token}
    (h : parseSuffixes base [] = some (a, more)) : more = [] := by
  rw [parseSuffixes_end _ endsSum_nil.1.1] at h
  exact (Prod.mk.inj (Option.some.inj h)).2.symm

theorem head?_append_of_eq {ts : List Token} {t : Token} (h : ts.head? = some t) (rest : List Token) :
    (ts ++ rest).head? = some t := by
  rw [List.head?_append, h]
  rfl

theorem head?_append_of_ne {ts rest : List Token} {t : Token} (h : ts.head? ≠ some t)
    (hr : ts = [] → rest.head? ≠ some t) : (ts ++ rest).head? ≠ some t := by
  cases ts with
  | nil => exact hr rfl
  | cons => exact h

theorem tail_append_of_eq {ts : List Token} {t : Token} (h : ts.head? = some t) (rest : List Token) :
    (ts ++ rest).tail = ts.tail ++ rest := by
  cases ts with
  | nil => cases h
  | cons => rfl

theorem ne_nil_of_length_lt {ts left : List Token} (h : left.length < ts.length) : ts ≠ [] :=
  List.ne_nil_of_length_pos (Nat.zero_lt_of_lt h)

theorem ne_nil_of_parseArgs {args : List Ast} {ts more : List Token}
    (h : parseArgs ts = some (args, more)) : ts ≠ [] := by
  rintro rfl
  rw [parseArgs, if_neg (by simp)] at h
  obtain ⟨_, _, hlt, _⟩ := exists_of_andThen h
  exact absurd hlt (Nat.not_lt_zero _)

theorem ne_nil_of_parseMoreArgs {arg : Ast} {args : List Ast} {ts more : List Token}
    (h : parseMoreArgs arg ts = some (args, more)) : ts ≠ [] := by
  rintro rfl
  rw [parseMoreArgs, dif_neg (by simp)] at h
  cases h

mutual

/-- **An expression is parsed in front of anything that cannot go on with it.** -/
theorem parseExpr_append {a : Ast} {ts more rest : List Token} (h : parseExpr ts = some (a, more))
    (hr : more = [] → EndsSum rest) : parseExpr (ts ++ rest) = some (a, more ++ rest) := by
  rw [parseExpr] at h ⊢
  obtain ⟨lhs, left, hlt, hp, hs⟩ := exists_of_andThen h
  have hend : left = [] → EndsProduct rest := by
    rintro rfl
    exact (hr (eq_nil_of_parseSummands hs)).1
  rw [andThen_of_lt _ (parseProduct_append hp hend) (length_append_lt hlt rest)]
  exact parseSummands_append hs hr
termination_by (ts.length, 3)
decreasing_by
  · exact .right _ (by decide)
  · exact .left _ _ ‹_›

theorem parseSummands_append {lhs a : Ast} {ts more rest : List Token}
    (h : parseSummands lhs ts = some (a, more)) (hr : more = [] → EndsSum rest) :
    parseSummands lhs (ts ++ rest) = some (a, more ++ rest) := by
  have hend {lhs : Ast} {left : List Token} (hs : parseSummands lhs left = some (a, more)) :
      left = [] → EndsProduct rest := by
    rintro rfl
    exact (hr (eq_nil_of_parseSummands hs)).1
  rw [parseSummands] at h ⊢
  by_cases hplus : ts.head? = some (.symbol '+')
  · rw [dif_pos hplus] at h
    obtain ⟨rhs, left, hlt, hp, hs⟩ := exists_of_andThen h
    rw [dif_pos (head?_append_of_eq hplus rest), tail_append_of_eq hplus,
      andThen_of_lt _ (parseProduct_append hp (hend hs)) (length_append_lt hlt rest)]
    exact parseSummands_append hs hr
  rw [dif_neg hplus] at h
  by_cases hminus : ts.head? = some (.symbol '-')
  · rw [dif_pos hminus] at h
    obtain ⟨rhs, left, hlt, hp, hs⟩ := exists_of_andThen h
    rw [dif_neg (by rw [head?_append_of_eq hminus]; decide), dif_pos (head?_append_of_eq hminus rest),
      tail_append_of_eq hminus,
      andThen_of_lt _ (parseProduct_append hp (hend hs)) (length_append_lt hlt rest)]
    exact parseSummands_append hs hr
  · rw [dif_neg hminus] at h
    obtain ⟨rfl, rfl⟩ := Prod.mk.inj (Option.some.inj h)
    rw [dif_neg (head?_append_of_ne hplus fun hn => (hr hn).2.1),
      dif_neg (head?_append_of_ne hminus fun hn => (hr hn).2.2)]
termination_by (ts.length, 0)
decreasing_by
  · exact .left _ _ (length_tail_lt ‹_›)
  · exact .left _ _ ‹_›
  · exact .left _ _ (length_tail_lt ‹_›)
  · exact .left _ _ ‹_›

theorem parseProduct_append {a : Ast} {ts more rest : List Token}
    (h : parseProduct ts = some (a, more)) (hr : more = [] → EndsProduct rest) :
    parseProduct (ts ++ rest) = some (a, more ++ rest) := by
  rw [parseProduct] at h ⊢
  obtain ⟨lhs, left, hlt, hp, hs⟩ := exists_of_andThen h
  have hend : left = [] → EndsTerm rest := by
    rintro rfl
    exact (hr (eq_nil_of_parseFactors hs)).1
  rw [andThen_of_lt _ (parseSigned_append hp hend) (length_append_lt hlt rest)]
  exact parseFactors_append hs hr
termination_by (ts.length, 2)
decreasing_by
  · exact .right _ (by decide)
  · exact .left _ _ ‹_›

theorem parseFactors_append {lhs a : Ast} {ts more rest : List Token}
    (h : parseFactors lhs ts = some (a, more)) (hr : more = [] → EndsProduct rest) :
    parseFactors lhs (ts ++ rest) = some (a, more ++ rest) := by
  rw [parseFactors] at h ⊢
  by_cases htimes : ts.head? = some (.symbol '*')
  · rw [dif_pos htimes] at h
    obtain ⟨rhs, left, hlt, hp, hs⟩ := exists_of_andThen h
    have hend : left = [] → EndsTerm rest := by
      rintro rfl
      exact (hr (eq_nil_of_parseFactors hs)).1
    rw [dif_pos (head?_append_of_eq htimes rest), tail_append_of_eq htimes,
      andThen_of_lt _ (parseSigned_append hp hend) (length_append_lt hlt rest)]
    exact parseFactors_append hs hr
  · rw [dif_neg htimes] at h
    obtain ⟨rfl, rfl⟩ := Prod.mk.inj (Option.some.inj h)
    rw [dif_neg (head?_append_of_ne htimes fun hn => (hr hn).2)]
termination_by (ts.length, 0)
decreasing_by
  · exact .left _ _ (length_tail_lt ‹_›)
  · exact .left _ _ ‹_›

/-- **A signed term is parsed in front of anything that cannot go on with it.** -/
theorem parseSigned_append {a : Ast} {ts more rest : List Token}
    (h : parseSigned ts = some (a, more)) (hr : more = [] → EndsTerm rest) :
    parseSigned (ts ++ rest) = some (a, more ++ rest) := by
  rw [parseSigned] at h ⊢
  by_cases hminus : ts.head? = some (.symbol '-')
  · rw [dif_pos hminus] at h
    obtain ⟨⟨term, left⟩, hp, hterm⟩ := Option.bind_eq_some_iff.1 h
    obtain ⟨rfl, rfl⟩ := Prod.mk.inj (Option.some.inj hterm)
    rw [dif_pos (head?_append_of_eq hminus rest), tail_append_of_eq hminus, parseSigned_append hp hr]
    rfl
  · rw [dif_neg hminus] at h
    obtain ⟨base, left, hlt, hp, hs⟩ := exists_of_andThen h
    have hend : left = [] → EndsName rest := by
      rintro rfl
      exact (hr (eq_nil_of_parseSuffixes hs)).1
    rw [dif_neg (head?_append_of_ne hminus fun hn => absurd hn (ne_nil_of_length_lt hlt)),
      andThen_of_lt _ (parsePrimary_append hp hend) (length_append_lt hlt rest)]
    exact parseSuffixes_append hs hr
termination_by (ts.length, 1)
decreasing_by
  · exact .left _ _ (length_tail_lt ‹_›)
  · exact .right _ (by decide)
  · exact .left _ _ ‹_›

theorem parseSuffixes_append {base a : Ast} {ts more rest : List Token}
    (h : parseSuffixes base ts = some (a, more)) (hr : more = [] → EndsTerm rest) :
    parseSuffixes base (ts ++ rest) = some (a, more ++ rest) := by
  rw [parseSuffixes] at h ⊢
  by_cases hdot : ts.head? = some (.symbol '.')
  · rw [dif_pos hdot] at h
    obtain ⟨field, left, hlt, hp, hs⟩ := exists_of_andThen h
    rw [dif_pos (head?_append_of_eq hdot rest), tail_append_of_eq hdot,
      andThen_of_lt _ (word?_append hp rest) (length_append_lt hlt rest)]
    exact parseSuffixes_append hs hr
  rw [dif_neg hdot] at h
  by_cases hopen : ts.head? = some (.symbol '[')
  · rw [dif_pos hopen] at h
    obtain ⟨i, left, hlt, hp, hs⟩ := exists_of_andThen h
    obtain ⟨⟨j, after⟩, hj, hskip⟩ := Option.bind_eq_some_iff.1 hp
    obtain ⟨behind, hbehind, hi⟩ := Option.bind_eq_some_iff.1 hskip
    obtain ⟨rfl, rfl⟩ := Prod.mk.inj (Option.some.inj hi)
    have hindex : (do
        let i ← parseExpr (ts.tail ++ rest)
        let ts ← skip? ']' i.2
        some (i.1, ts)) = some (j, behind ++ rest) := by
      rw [parseExpr_append hj fun hn => absurd hn (ne_nil_of_skip? hbehind)]
      simp only [Option.bind_eq_bind, Option.bind_some, skip?_append hbehind rest]
    rw [dif_neg (by rw [head?_append_of_eq hopen]; decide), dif_pos (head?_append_of_eq hopen rest),
      tail_append_of_eq hopen, andThen_of_lt _ hindex (length_append_lt hlt rest)]
    exact parseSuffixes_append hs hr
  · rw [dif_neg hopen] at h
    obtain ⟨rfl, rfl⟩ := Prod.mk.inj (Option.some.inj h)
    rw [dif_neg (head?_append_of_ne hdot fun hn => (hr hn).2.1),
      dif_neg (head?_append_of_ne hopen fun hn => (hr hn).2.2)]
termination_by (ts.length, 0)
decreasing_by
  · exact .left _ _ ‹_›
  · exact .left _ _ (length_tail_lt ‹_›)
  · exact .left _ _ ‹_›

theorem parsePrimary_append {a : Ast} {ts more rest : List Token}
    (h : parsePrimary ts = some (a, more)) (hr : more = [] → EndsName rest) :
    parsePrimary (ts ++ rest) = some (a, more ++ rest) := by
  rw [parsePrimary] at h ⊢
  by_cases hopen : ts.head? = some (.symbol '(')
  · rw [dif_pos hopen] at h
    obtain ⟨⟨term, left⟩, hp, hskip⟩ := Option.bind_eq_some_iff.1 h
    obtain ⟨behind, hbehind, hterm⟩ := Option.bind_eq_some_iff.1 hskip
    obtain ⟨rfl, rfl⟩ := Prod.mk.inj (Option.some.inj hterm)
    rw [dif_pos (head?_append_of_eq hopen rest), tail_append_of_eq hopen,
      parseExpr_append hp fun hn => absurd hn (ne_nil_of_skip? hbehind)]
    simp only [Option.bind_eq_bind, Option.bind_some, skip?_append hbehind rest]
  rw [dif_neg hopen] at h
  by_cases hcall : ts.tail.head? = some (.symbol '(')
  · rw [if_pos hcall] at h
    obtain ⟨f, left, hlt, hf, hargs⟩ := exists_of_andThen h
    obtain ⟨⟨args, after⟩, hp, hcalled⟩ := Option.bind_eq_some_iff.1 hargs
    obtain ⟨rfl, rfl⟩ := Prod.mk.inj (Option.some.inj hcalled)
    have hts := ne_nil_of_length_lt hlt
    have hleft : left ≠ [] := by
      rintro rfl
      exact ne_nil_of_parseArgs hp rfl
    have hhead : (ts ++ rest).tail.head? = some (.symbol '(') := by
      rw [List.tail_append_of_ne_nil hts]
      exact head?_append_of_eq hcall rest
    rw [dif_neg (head?_append_of_ne hopen fun hn => absurd hn hts), if_pos hhead,
      andThen_of_lt _ (word?_append hf rest) (length_append_lt hlt rest),
      List.tail_append_of_ne_nil hleft, parseArgs_append hp]
    rfl
  · rw [if_neg hcall] at h
    obtain ⟨first, rfl⟩ := exists_of_atom? h
    rw [dif_neg (head?_append_of_ne hopen nofun), if_neg (by exact head?_append_of_ne hcall hr)]
    exact atom?_append h rest
termination_by (ts.length, 0)
decreasing_by
  · exact .left _ _ (length_tail_lt ‹_›)
  · exact .left _ _ (Nat.lt_of_le_of_lt (List.tail_suffix _).length_le ‹_›)

theorem parseArgs_append {args : List Ast} {ts more rest : List Token}
    (h : parseArgs ts = some (args, more)) : parseArgs (ts ++ rest) = some (args, more ++ rest) := by
  rw [parseArgs] at h ⊢
  by_cases hclose : ts.head? = some (.symbol ')')
  · rw [if_pos hclose] at h
    obtain ⟨rfl, rfl⟩ := Prod.mk.inj (Option.some.inj h)
    rw [if_pos (head?_append_of_eq hclose rest), tail_append_of_eq hclose]
  · rw [if_neg hclose] at h
    obtain ⟨arg, left, hlt, hp, hs⟩ := exists_of_andThen h
    have hleft := ne_nil_of_parseMoreArgs hs
    rw [if_neg (head?_append_of_ne hclose fun hn => absurd hn (ne_nil_of_length_lt hlt)),
      andThen_of_lt _ (parseExpr_append hp fun hn => absurd hn hleft) (length_append_lt hlt rest)]
    exact parseMoreArgs_append hs
termination_by (ts.length, 4)
decreasing_by
  · exact .right _ (by decide)
  · exact .left _ _ ‹_›

theorem parseMoreArgs_append {arg : Ast} {args : List Ast} {ts more rest : List Token}
    (h : parseMoreArgs arg ts = some (args, more)) :
    parseMoreArgs arg (ts ++ rest) = some (args, more ++ rest) := by
  have hts := ne_nil_of_parseMoreArgs h
  rw [parseMoreArgs] at h ⊢
  by_cases hcomma : ts.head? = some (.symbol ',')
  · rw [dif_pos hcomma] at h
    obtain ⟨next, left, hlt, hp, hs⟩ := exists_of_andThen h
    obtain ⟨⟨others, after⟩, hothers, hall⟩ := Option.bind_eq_some_iff.1 hs
    obtain ⟨rfl, rfl⟩ := Prod.mk.inj (Option.some.inj hall)
    have hleft := ne_nil_of_parseMoreArgs hothers
    rw [dif_pos (head?_append_of_eq hcomma rest), tail_append_of_eq hcomma,
      andThen_of_lt _ (parseExpr_append hp fun hn => absurd hn hleft) (length_append_lt hlt rest),
      parseMoreArgs_append hothers]
    rfl
  · rw [dif_neg hcomma] at h
    obtain ⟨behind, hbehind, hall⟩ := Option.bind_eq_some_iff.1 h
    obtain ⟨rfl, rfl⟩ := Prod.mk.inj (Option.some.inj hall)
    rw [dif_neg (head?_append_of_ne hcomma fun hn => absurd hn hts), skip?_append hbehind rest]
    rfl
termination_by (ts.length, 0)
decreasing_by
  · exact .left _ _ (length_tail_lt ‹_›)
  · exact .left _ _ ‹_›

end

/-! ## Texts -/

/-- The tree of the expression in a text; nothing may follow it. -/
def readExpr (text : String) : Option Ast := do
  let ts ← lex text.toList
  let (e, rest) ← parseExpr ts
  if rest = [] then some e else none

/-- The tree of the signed term in a text; nothing may follow it. -/
def readSigned (text : String) : Option Ast := do
  let ts ← lex text.toList
  let (e, rest) ← parseSigned ts
  if rest = [] then some e else none

theorem eq_whole_iff {x : Option (Ast × List Token)} {a : Ast} :
    (do let (e, rest) ← x; if rest = [] then some e else none) = some a ↔ x = some (a, []) := by
  cases x with
  | none => simp
  | some read =>
    obtain ⟨e, rest⟩ := read
    simp [and_comm]

theorem readExpr_eq_some {text : String} {a : Ast} :
    readExpr text = some a ↔ ∃ ts, lex text.toList = some ts ∧ parseExpr ts = some (a, []) := by
  rw [readExpr, Option.bind_eq_bind, Option.bind_eq_some_iff]
  exact exists_congr fun ts => and_congr_right fun _ => eq_whole_iff

theorem readSigned_eq_some {text : String} {a : Ast} :
    readSigned text = some a ↔ ∃ ts, lex text.toList = some ts ∧ parseSigned ts = some (a, []) := by
  rw [readSigned, Option.bind_eq_bind, Option.bind_eq_some_iff]
  exact exists_congr fun ts => and_congr_right fun _ => eq_whole_iff

/-- A signed term starts with a lexeme, and that closes no parenthesis. -/
theorem head_of_parseSigned {ts more : List Token} {a : Ast} (h : parseSigned ts = some (a, more)) :
    ∃ first rest, ts = first :: rest ∧ first ≠ .symbol ')' := by
  cases ts with
  | nil =>
    rw [parseSigned, dif_neg (by simp)] at h
    obtain ⟨_, _, hlt, _⟩ := exists_of_andThen h
    exact absurd hlt (Nat.not_lt_zero _)
  | cons first rest =>
    refine ⟨first, rest, rfl, ?_⟩
    rintro rfl
    rw [parseSigned, dif_neg (by simp)] at h
    obtain ⟨_, _, _, hp, _⟩ := exists_of_andThen h
    rw [parsePrimary, dif_neg (by simp)] at hp
    split at hp
    · cases hp
    · cases hp

theorem head_of_parseExpr {ts more : List Token} {a : Ast} (h : parseExpr ts = some (a, more)) :
    ∃ first rest, ts = first :: rest ∧ first ≠ .symbol ')' := by
  rw [parseExpr] at h
  obtain ⟨_, _, _, hp, _⟩ := exists_of_andThen h
  rw [parseProduct] at hp
  obtain ⟨_, _, _, hs, _⟩ := exists_of_andThen hp
  exact head_of_parseSigned hs

/-- A signed term is an expression. -/
theorem readExpr_of_readSigned {text : String} {a : Ast} (h : readSigned text = some a) :
    readExpr text = some a := by
  obtain ⟨ts, hts, hp⟩ := readSigned_eq_some.1 h
  have hlt : ([] : List Token).length < ts.length := by
    obtain ⟨first, rest, rfl, -⟩ := head_of_parseSigned hp
    exact Nat.succ_pos _
  have hproduct : parseProduct ts = some (a, []) := by
    rw [parseProduct, andThen_of_lt _ hp hlt, parseFactors_end _ endsSum_nil.1]
  refine readExpr_eq_some.2 ⟨ts, hts, ?_⟩
  rw [parseExpr, andThen_of_lt _ hproduct hlt, parseSummands_end _ endsSum_nil]

end Glsl
end ShaderAlgebra
