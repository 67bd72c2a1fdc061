import ShaderAlgebra.Proofs.JsonTokens

/-!
# A JSON text is read back

A value that is written is read again in three steps, which mirror the reader:

1. the text is cut into the lexemes of the value (`tokens_symbols`);
2. the lexemes are built into a document without faults (`build_lexemes`);
3. the document is read as the value, if it is not nested too deeply
   (`value_doc`).

All three follow the value: an array or object is its first item or member, and
then the others, each behind a comma.

A number may be read as something else than it was (`Number.ReadsAs`), and the rest of
the text does not depend on it: the first step is stated for any such reading, and a
value whose numbers all read back is the case where it changes nothing.
-/

namespace ShaderAlgebra
namespace Json

/-! ## From text to lexemes -/

mutual

/-- The symbols of a value that is written at a depth. -/
def symbols (style : Style) (depth : Nat) : Json → List Symbol
  | null => Symbol.ofString "null"
  | bool b => Symbol.ofString (if b then "true" else "false")
  | num n => Symbol.ofString n.text
  | str s => Symbol.ofString (quote s)
  | arr [] => Symbol.ofString "[]"
  | arr (item :: rest) =>
    .char '[' :: (Symbol.ofString (style.lineBreak (depth + 1)) ++ (symbols style (depth + 1) item ++
      (itemSymbols style depth rest ++ (Symbol.ofString (style.lineBreak depth) ++ [.char ']']))))
  | obj [] => Symbol.ofString "\x7b\x7d"
  | obj ((name, value) :: rest) =>
    .char '\x7b' :: (Symbol.ofString (style.lineBreak (depth + 1)) ++ (Symbol.ofString (quote name) ++
      (Symbol.ofString style.colon ++ (symbols style (depth + 1) value ++
        (memberSymbols style depth rest ++ (Symbol.ofString (style.lineBreak depth) ++ [.char '\x7d']))))))

/-- The symbols of the items after the first. -/
def itemSymbols (style : Style) (depth : Nat) : List Json → List Symbol
  | [] => []
  | item :: rest =>
    .char ',' :: (Symbol.ofString (style.lineBreak (depth + 1)) ++ (symbols style (depth + 1) item ++
      itemSymbols style depth rest))

/-- The symbols of the members after the first. -/
def memberSymbols (style : Style) (depth : Nat) : List (String × Json) → List Symbol
  | [] => []
  | (name, value) :: rest =>
    .char ',' :: (Symbol.ofString (style.lineBreak (depth + 1)) ++ (Symbol.ofString (quote name) ++
      (Symbol.ofString style.colon ++ (symbols style (depth + 1) value ++ memberSymbols style depth rest))))

end

mutual

theorem ofString_write (style : Style) : ∀ (depth : Nat) (out : String) (j : Json),
    Symbol.ofString (write style depth out j) = Symbol.ofString out ++ symbols style depth j
  | depth, out, null | depth, out, bool b | depth, out, num n | depth, out, str s
  | depth, out, arr [] | depth, out, obj [] => by
    simp only [write, symbols, Symbol.ofString_append]
  | depth, out, arr (item :: rest) => by
    simp only [write, symbols, Symbol.ofString_append, ofString_writeItems style, ofString_write style,
      List.append_assoc]
    rfl
  | depth, out, obj ((name, value) :: rest) => by
    simp only [write, symbols, Symbol.ofString_append, ofString_writeMembers style, ofString_write style,
      List.append_assoc]
    rfl

theorem ofString_writeItems (style : Style) : ∀ (depth : Nat) (out : String) (items : List Json),
    Symbol.ofString (writeItems style depth out items) =
      Symbol.ofString out ++ itemSymbols style depth items
  | depth, out, [] => by
    simp only [writeItems, itemSymbols, List.append_nil]
  | depth, out, item :: rest => by
    simp only [writeItems, itemSymbols, Symbol.ofString_append, ofString_writeItems style,
      ofString_write style, List.append_assoc]
    rfl

theorem ofString_writeMembers (style : Style) :
    ∀ (depth : Nat) (out : String) (members : List (String × Json)),
    Symbol.ofString (writeMembers style depth out members) =
      Symbol.ofString out ++ memberSymbols style depth members
  | depth, out, [] => by
    simp only [writeMembers, memberSymbols, List.append_nil]
  | depth, out, (name, value) :: rest => by
    simp only [writeMembers, memberSymbols, Symbol.ofString_append, ofString_writeMembers style,
      ofString_write style, List.append_assoc]
    rfl

end

mutual

/-- The tokens of a value. -/
def lexemes : Json → List Token
  | null => [.null]
  | bool b => [.bool b]
  | num n => [.num (.ok n)]
  | str s => [.str (.ok s)]
  | arr [] => [.openArray, .closeArray]
  | arr (item :: rest) => .openArray :: (lexemes item ++ (itemLexemes rest ++ [.closeArray]))
  | obj [] => [.openObject, .closeObject]
  | obj ((name, value) :: rest) =>
    .openObject :: .str (.ok name) :: .colon ::
      (lexemes value ++ (memberLexemes rest ++ [.closeObject]))

/-- The tokens of the items after the first. -/
def itemLexemes : List Json → List Token
  | [] => []
  | item :: rest => .comma :: (lexemes item ++ itemLexemes rest)

/-- The tokens of the members after the first. -/
def memberLexemes : List (String × Json) → List Token
  | [] => []
  | (name, value) :: rest =>
    .comma :: .str (.ok name) :: .colon :: (lexemes value ++ memberLexemes rest)

end

/-- The text of a number is read as a value, before anything that does not carry the number on. -/
def Number.ReadsAs (n : Number) (j : Json) : Prop :=
  ∀ rest : List Symbol, EndsNumber rest →
    tokens (Symbol.ofString n.text ++ rest) = j.lexemes ++ tokens rest

theorem Number.ReadsBack.readsAs {n : Number} (h : n.ReadsBack) : n.ReadsAs (.num n) := fun _ hr =>
  tokens_append_of_num h hr

mutual

/-- A value with other values for its numbers. -/
def mapNumbers (g : Number → Json) : Json → Json
  | num n => g n
  | arr items => arr (mapItems g items)
  | obj members => obj (mapMembers g members)
  | null => null
  | bool b => bool b
  | str s => str s

/-- Items with other values for their numbers. -/
def mapItems (g : Number → Json) : List Json → List Json
  | [] => []
  | item :: rest => mapNumbers g item :: mapItems g rest

/-- Members with other values for their numbers. -/
def mapMembers (g : Number → Json) : List (String × Json) → List (String × Json)
  | [] => []
  | (name, value) :: rest => (name, mapNumbers g value) :: mapMembers g rest

end

mutual

theorem mapNumbers_num : ∀ j : Json, mapNumbers num j = j
  | num _ | null | bool _ | str _ => rfl
  | arr items => congrArg arr (mapItems_num items)
  | obj members => congrArg obj (mapMembers_num members)

theorem mapItems_num : ∀ items : List Json, mapItems num items = items
  | [] => rfl
  | item :: rest => by rw [mapItems, mapNumbers_num item, mapItems_num rest]

theorem mapMembers_num : ∀ members : List (String × Json), mapMembers num members = members
  | [] => rfl
  | (name, value) :: rest => by rw [mapMembers, mapNumbers_num value, mapMembers_num rest]

end

mutual

/-- The text of every number of a value is read as what `g` gives for it. -/
def NumbersReadAs (g : Number → Json) : Json → Prop
  | num n => n.ReadsAs (g n)
  | arr items => ItemsReadAs g items
  | obj members => MembersReadAs g members
  | null | bool _ | str _ => True

/-- The text of every number of items is read as what `g` gives for it. -/
def ItemsReadAs (g : Number → Json) : List Json → Prop
  | [] => True
  | item :: rest => NumbersReadAs g item ∧ ItemsReadAs g rest

/-- The text of every number of members is read as what `g` gives for it. -/
def MembersReadAs (g : Number → Json) : List (String × Json) → Prop
  | [] => True
  | (_, value) :: rest => NumbersReadAs g value ∧ MembersReadAs g rest

end

/-- All numbers of a value read back. -/
def NumbersReadBack (j : Json) : Prop :=
  j.NumbersReadAs num

theorem endsNumber_close (style : Style) (depth : Nat) {c : Char} (h : carriesOn (.char c) = false)
    (rest : List Symbol) : EndsNumber (Symbol.ofString (style.lineBreak depth) ++ Symbol.char c :: rest) := by
  cases style with
  | compact => exact .cons h rest
  | pretty =>
    simp only [Style.lineBreak, Symbol.ofString, String.toList_ofList, List.map_cons, List.cons_append]
    exact .cons rfl _

theorem endsNumber_items (style : Style) (depth : Nat) (items : List Json) {rest : List Symbol}
    (h : EndsNumber rest) : EndsNumber (itemSymbols style depth items ++ rest) := by
  cases items with
  | nil => rwa [itemSymbols]
  | cons item items =>
    rw [itemSymbols]
    exact .cons rfl _

theorem endsNumber_members (style : Style) (depth : Nat) (members : List (String × Json))
    {rest : List Symbol} (h : EndsNumber rest) : EndsNumber (memberSymbols style depth members ++ rest) := by
  match members with
  | [] => rwa [memberSymbols]
  | (name, value) :: members =>
    rw [memberSymbols]
    exact .cons rfl _

theorem tokens_colon (style : Style) (rest : List Symbol) :
    tokens (Symbol.ofString style.colon ++ rest) = .colon :: tokens rest := by
  cases style with
  | compact => exact tokens_of_scanToken rfl rfl
  | pretty =>
    rw [← tokens_blank (c := ' ') rfl rest]
    exact tokens_of_scanToken rfl rfl

mutual

/-- **The text of a value is cut into its lexemes,** but for numbers that are read as something
else. -/
theorem tokens_symbols (style : Style) {g : Number → Json} : ∀ (depth : Nat) {j : Json},
    j.NumbersReadAs g → ∀ {rest : List Symbol}, EndsNumber rest →
      tokens (symbols style depth j ++ rest) = (j.mapNumbers g).lexemes ++ tokens rest
  | depth, null, _, rest, _ => tokens_null rest
  | depth, bool true, _, rest, _ => tokens_of_scanToken rfl rfl
  | depth, bool false, _, rest, _ => tokens_of_scanToken rfl rfl
  | depth, num n, h, rest, hr => h rest hr
  | depth, str s, _, rest, _ => tokens_quote s rest
  | depth, arr [], _, rest, _ => by
    refine (tokens_of_scanToken rfl rfl).trans (congrArg _ ?_)
    exact tokens_of_scanToken rfl rfl
  | depth, obj [], _, rest, _ => by
    refine (tokens_of_scanToken rfl rfl).trans (congrArg _ ?_)
    exact tokens_of_scanToken rfl rfl
  | depth, arr (item :: items), h, rest, _ => by
    have hclose := endsNumber_close style depth (c := ']') rfl rest
    simp only [NumbersReadAs, ItemsReadAs] at h
    simp only [symbols, mapNumbers, mapItems, lexemes, List.cons_append, List.append_assoc, List.nil_append]
    rw [tokens_of_scanToken rfl rfl, tokens_lineBreak, tokens_symbols style (depth + 1) h.1
      (endsNumber_items style depth items hclose), tokens_itemSymbols style depth h.2 hclose,
      tokens_lineBreak, tokens_of_scanToken rfl rfl]
  | depth, obj ((name, value) :: members), h, rest, _ => by
    have hclose := endsNumber_close style depth (c := '\x7d') rfl rest
    simp only [NumbersReadAs, MembersReadAs] at h
    simp only [symbols, mapNumbers, mapMembers, lexemes, List.cons_append, List.append_assoc,
      List.nil_append]
    rw [tokens_of_scanToken rfl rfl, tokens_lineBreak, tokens_quote, tokens_colon,
      tokens_symbols style (depth + 1) h.1 (endsNumber_members style depth members hclose),
      tokens_memberSymbols style depth h.2 hclose, tokens_lineBreak, tokens_of_scanToken rfl rfl]

theorem tokens_itemSymbols (style : Style) {g : Number → Json} : ∀ (depth : Nat) {items : List Json},
    ItemsReadAs g items → ∀ {rest : List Symbol}, EndsNumber rest →
      tokens (itemSymbols style depth items ++ rest) = itemLexemes (mapItems g items) ++ tokens rest
  | depth, [], _, rest, _ => by
    simp only [itemSymbols, mapItems, itemLexemes, List.nil_append]
  | depth, item :: items, h, rest, hr => by
    simp only [ItemsReadAs] at h
    simp only [itemSymbols, mapItems, itemLexemes, List.cons_append, List.append_assoc]
    rw [tokens_of_scanToken rfl rfl, tokens_lineBreak, tokens_symbols style (depth + 1) h.1
      (endsNumber_items style depth items hr), tokens_itemSymbols style depth h.2 hr]

theorem tokens_memberSymbols (style : Style) {g : Number → Json} :
    ∀ (depth : Nat) {members : List (String × Json)}, MembersReadAs g members →
      ∀ {rest : List Symbol}, EndsNumber rest →
        tokens (memberSymbols style depth members ++ rest) =
          memberLexemes (mapMembers g members) ++ tokens rest
  | depth, [], _, rest, _ => by
    simp only [memberSymbols, mapMembers, memberLexemes, List.nil_append]
  | depth, (name, value) :: members, h, rest, hr => by
    simp only [MembersReadAs] at h
    simp only [memberSymbols, mapMembers, memberLexemes, List.cons_append, List.append_assoc]
    rw [tokens_of_scanToken rfl rfl, tokens_lineBreak, tokens_quote, tokens_colon,
      tokens_symbols style (depth + 1) h.1 (endsNumber_members style depth members hr),
      tokens_memberSymbols style depth h.2 hr]

end

/-! ## From lexemes to a document -/

mutual

/-- The document of a value. -/
def doc : Json → Doc
  | null => .null
  | bool b => .bool b
  | num n => .num (.ok n)
  | str s => .str (.ok s)
  | arr items => .arr (itemDocs items) .closed
  | obj members => .obj (memberDocs members) .closed

/-- The documents of items. -/
def itemDocs : List Json → List Doc
  | [] => []
  | item :: rest => doc item :: itemDocs rest

/-- The documents of members. -/
def memberDocs : List (String × Json) → List (Key × Doc)
  | [] => []
  | (name, value) :: rest => (.ok name, doc value) :: memberDocs rest

end

/-- A value is no end of an array, so it may be its first item. -/
theorem build_firstItem (j : Json) (frames : List Frame) (ts : List Token) :
    build .firstItem frames (j.lexemes ++ ts) = build .value (.items [] :: frames) (j.lexemes ++ ts) := by
  cases j with
  | null | bool b | num n | str s => rfl
  | arr items => cases items <;> rfl
  | obj members =>
    match members with
    | [] => rfl
    | (name, value) :: members => rfl

mutual

/-- **The lexemes of a value are built into its document.** -/
theorem build_lexemes : ∀ (j : Json) (frames : List Frame) (ts : List Token),
    build .value frames (j.lexemes ++ ts) = build (deliver j.doc frames).1 (deliver j.doc frames).2 ts
  | null, _, _ | bool _, _, _ | num _, _, _ | str _, _, _ | arr [], _, _ | obj [], _, _ => rfl
  | arr (item :: items), frames, ts => by
    simp only [lexemes, doc, itemDocs, List.cons_append, List.append_assoc, List.nil_append]
    calc build .value frames (.openArray :: (item.lexemes ++ (itemLexemes items ++ Token.closeArray :: ts)))
        = build .firstItem frames (item.lexemes ++ (itemLexemes items ++ Token.closeArray :: ts)) := rfl
      _ = build (.nextItem [item.doc]) frames (itemLexemes items ++ Token.closeArray :: ts) := by
        rw [build_firstItem, build_lexemes item]
        rfl
      _ = _ := by
        rw [build_itemLexemes items, build]
        simp [Due.step]
  | obj ((name, value) :: members), frames, ts => by
    simp only [lexemes, doc, memberDocs, List.cons_append, List.append_assoc, List.nil_append]
    calc build .value frames (.openObject :: .str (.ok name) :: .colon ::
            (value.lexemes ++ (memberLexemes members ++ Token.closeObject :: ts)))
        = build .value (.field [] (.ok name) :: frames)
            (value.lexemes ++ (memberLexemes members ++ Token.closeObject :: ts)) := rfl
      _ = build (.nextMember [(.ok name, value.doc)]) frames (memberLexemes members ++ Token.closeObject :: ts) := by
        rw [build_lexemes value]
        rfl
      _ = _ := by
        rw [build_memberLexemes members, build]
        simp [Due.step]

theorem build_itemLexemes : ∀ (items : List Json) (done : List Doc) (frames : List Frame) (ts : List Token),
    build (.nextItem done) frames (itemLexemes items ++ ts) =
      build (.nextItem ((itemDocs items).reverse ++ done)) frames ts
  | [], _, _, _ => rfl
  | item :: items, done, frames, ts => by
    simp only [itemLexemes, itemDocs, List.cons_append, List.append_assoc, List.reverse_cons,
      List.nil_append]
    calc build (.nextItem done) frames (.comma :: (item.lexemes ++ (itemLexemes items ++ ts)))
        = build .value (.items done :: frames) (item.lexemes ++ (itemLexemes items ++ ts)) := rfl
      _ = build (.nextItem (item.doc :: done)) frames (itemLexemes items ++ ts) := by
        rw [build_lexemes item]
        rfl
      _ = _ := build_itemLexemes items _ frames ts

theorem build_memberLexemes : ∀ (members : List (String × Json)) (done : List (Key × Doc))
    (frames : List Frame) (ts : List Token),
    build (.nextMember done) frames (memberLexemes members ++ ts) =
      build (.nextMember ((memberDocs members).reverse ++ done)) frames ts
  | [], _, _, _ => rfl
  | (name, value) :: members, done, frames, ts => by
    simp only [memberLexemes, memberDocs, List.cons_append, List.append_assoc, List.reverse_cons,
      List.nil_append]
    calc build (.nextMember done) frames (.comma :: .str (.ok name) :: .colon ::
            (value.lexemes ++ (memberLexemes members ++ ts)))
        = build .value (.field done (.ok name) :: frames)
            (value.lexemes ++ (memberLexemes members ++ ts)) := rfl
      _ = build (.nextMember ((.ok name, value.doc) :: done)) frames (memberLexemes members ++ ts) := by
        rw [build_lexemes value]
        rfl
      _ = _ := build_memberLexemes members _ frames ts

end

/-- A text is turned into the document of the value that it writes, but for numbers that are read
as something else. -/
theorem ofString_text_map (style : Style) {g : Number → Json} {j : Json} (h : j.NumbersReadAs g) :
    Document.ofString (j.text style) = ⟨(j.mapNumbers g).doc, false⟩ := by
  have htokens : tokens (symbols style 0 j ++ []) = (j.mapNumbers g).lexemes ++ tokens [] :=
    tokens_symbols style 0 h (by rintro _ ⟨⟩)
  have hbuild := build_lexemes (j.mapNumbers g) [] []
  rw [List.append_nil] at htokens hbuild
  rw [tokens, List.append_nil] at htokens
  rw [Document.ofString, text, ofString_write, Document.ofSymbols]
  change build .value [] (tokens (symbols style 0 j)) = _
  rw [htokens, hbuild]
  rfl

/-- **A text is turned into the document of the value that it writes,** with nothing behind it. -/
theorem ofString_text (style : Style) {j : Json} (h : j.NumbersReadBack) :
    Document.ofString (j.text style) = ⟨j.doc, false⟩ := by
  rw [ofString_text_map style h, mapNumbers_num]

/-! ## From a document to a value -/

mutual

/-- How deeply arrays and objects are nested in a value. -/
def nesting : Json → Nat
  | arr items => itemNesting items + 1
  | obj members => memberNesting members + 1
  | null | bool _ | num _ | str _ => 0

/-- How deeply arrays and objects are nested in items. -/
def itemNesting : List Json → Nat
  | [] => 0
  | item :: rest => max (nesting item) (itemNesting rest)

/-- How deeply arrays and objects are nested in members. -/
def memberNesting : List (String × Json) → Nat
  | [] => 0
  | (_, value) :: rest => max (nesting value) (memberNesting rest)

end

mutual

theorem nesting_mapNumbers {g : Number → Json} (h : ∀ n, (g n).nesting = 0) :
    ∀ j : Json, (j.mapNumbers g).nesting = j.nesting
  | num n => h n
  | null | bool _ | str _ => rfl
  | arr items => by rw [mapNumbers, nesting, nesting, itemNesting_mapItems h items]
  | obj members => by rw [mapNumbers, nesting, nesting, memberNesting_mapMembers h members]

theorem itemNesting_mapItems {g : Number → Json} (h : ∀ n, (g n).nesting = 0) :
    ∀ items : List Json, itemNesting (mapItems g items) = itemNesting items
  | [] => rfl
  | item :: rest => by
    rw [mapItems, itemNesting, itemNesting, nesting_mapNumbers h item, itemNesting_mapItems h rest]

theorem memberNesting_mapMembers {g : Number → Json} (h : ∀ n, (g n).nesting = 0) :
    ∀ members : List (String × Json), memberNesting (mapMembers g members) = memberNesting members
  | [] => rfl
  | (name, value) :: rest => by
    rw [mapMembers, memberNesting, memberNesting, nesting_mapNumbers h value,
      memberNesting_mapMembers h rest]

end

mutual

/-- **The document of a value is read as the value,** if reading goes down as far as it is nested. -/
theorem value_doc : ∀ {j : Json} {depth : Nat}, j.nesting ≤ depth → j.doc.value depth = .ok j
  | null, _, _ | bool _, _, _ | num _, _, _ | str _, _, _ => rfl
  | arr items, depth, h => by
    rw [nesting] at h
    rw [doc, Doc.value, if_neg (by omega), values_itemDocs (by omega)]
    rfl
  | obj members, depth, h => by
    rw [nesting] at h
    rw [doc, Doc.value, if_neg (by omega), memberValues_memberDocs (by omega)]
    rfl

theorem values_itemDocs : ∀ {items : List Json} {depth : Nat}, itemNesting items ≤ depth →
    Doc.values depth (itemDocs items) = .ok items
  | [], _, _ => rfl
  | item :: items, depth, h => by
    rw [itemNesting] at h
    rw [itemDocs, Doc.values, value_doc (by omega), values_itemDocs (by omega)]
    rfl

theorem memberValues_memberDocs : ∀ {members : List (String × Json)} {depth : Nat},
    memberNesting members ≤ depth → Doc.memberValues depth (memberDocs members) = .ok members
  | [], _, _ => rfl
  | (name, value) :: members, depth, h => by
    rw [memberNesting] at h
    rw [memberDocs, Doc.memberValues, value_doc (by omega), memberValues_memberDocs (by omega)]
    rfl

end

/-- Two steps of reading give a result iff both do. -/
theorem exists_bind_eq_ok {α β : Type} {x : Read α} {f : α → Read β} :
    (∃ b, (x >>= f) = .ok b) ↔ ∃ a, x = .ok a ∧ ∃ b, f a = .ok b := by
  cases x with
  | error fault => exact ⟨nofun, nofun⟩
  | ok a => exact ⟨fun h => ⟨a, rfl, h⟩, fun ⟨_, ha, h⟩ => by cases ha; exact h⟩

mutual

/-- Reading does not go down further than it may. -/
theorem nesting_le_of_value : ∀ {j : Json} {depth : Nat}, (∃ v, j.doc.value depth = .ok v) →
    j.nesting ≤ depth
  | null, _, _ | bool _, _, _ | num _, _, _ | str _, _, _ => Nat.zero_le _
  | arr items, depth, h => by
    rw [doc, Doc.value] at h
    split at h
    · obtain ⟨_, ⟨⟩⟩ := h
    · obtain ⟨v, hv, -⟩ := exists_bind_eq_ok.1 h
      have := itemNesting_le_of_values ⟨v, hv⟩
      rw [nesting]
      omega
  | obj members, depth, h => by
    rw [doc, Doc.value] at h
    split at h
    · obtain ⟨_, ⟨⟩⟩ := h
    · obtain ⟨v, hv, -⟩ := exists_bind_eq_ok.1 h
      have := memberNesting_le_of_memberValues ⟨v, hv⟩
      rw [nesting]
      omega

theorem itemNesting_le_of_values : ∀ {items : List Json} {depth : Nat},
    (∃ v, Doc.values depth (itemDocs items) = .ok v) → itemNesting items ≤ depth
  | [], _, _ => Nat.zero_le _
  | item :: items, depth, h => by
    rw [itemDocs, Doc.values] at h
    obtain ⟨v, hv, h⟩ := exists_bind_eq_ok.1 h
    obtain ⟨vs, hvs, -⟩ := exists_bind_eq_ok.1 h
    rw [itemNesting]
    exact Nat.max_le.2 ⟨nesting_le_of_value ⟨v, hv⟩, itemNesting_le_of_values ⟨vs, hvs⟩⟩

theorem memberNesting_le_of_memberValues : ∀ {members : List (String × Json)} {depth : Nat},
    (∃ v, Doc.memberValues depth (memberDocs members) = .ok v) → memberNesting members ≤ depth
  | [], _, _ => Nat.zero_le _
  | (name, value) :: members, depth, h => by
    rw [memberDocs, Doc.memberValues] at h
    obtain ⟨_, _, h⟩ := exists_bind_eq_ok.1 h
    obtain ⟨v, hv, h⟩ := exists_bind_eq_ok.1 h
    obtain ⟨vs, hvs, -⟩ := exists_bind_eq_ok.1 h
    rw [memberNesting]
    exact Nat.max_le.2 ⟨nesting_le_of_value ⟨v, hv⟩, memberNesting_le_of_memberValues ⟨vs, hvs⟩⟩

end

end Json
end ShaderAlgebra
