import ShaderAlgebra.Format.ProgramFile
import ShaderAlgebra.Proofs.JsonText

/-!
# A program file is read back

Every part of a program file has a reader and a value that it is written as, and
the reader gives the part back from the document of that value
(`Json.Restores`).  The parts are put together as the records are, field by field.

An expression is understood from its value from the inside out: `ofParts_parts`
goes by the expression, and `expr_view` says what the value of an expression looks
like from outside.

`ProgramFile.IsStorable` is what the text of a file must be able to hold; nothing
is asked of names, of the sizes of images, or of shapes to be declarable.
-/

namespace ShaderAlgebra

open Json (Doc Read Slot Key)

/-- A reader gives `a` back from the document of `j`, wherever it may go down as far as `j` is
nested. -/
def Json.Restores {α : Type} (read : Nat → Doc → Read α) (a : α) (j : Json) : Prop :=
  ∀ depth, j.nesting ≤ depth → read depth j.doc = .ok a

/-! ## Shapes and expressions -/

theorem Shape.ofJson?_toJson (wide : Bool) (s : Shape) : ofJson? wide s.toJson = some s := by
  cases s with
  | scalar k => cases k <;> rfl
  | vector n k => cases k <;> rfl
  | matrix r c k => cases k <;> rfl

/-- The name of a kind. -/
def Kind.name : Kind → String
  | real => "real"
  | complex => "complex"
  | list => "list"
  | uniform => "uniform"
  | pixel => "pixel"
  | binary op => op.name
  | sum => "sum"
  | element => "access"
  | image channels => channels.node

theorem Kind.lookup_name (k : Kind) : names.lookup k.name = some k := by
  match k with
  | real | complex | list | uniform | pixel | sum | element => rfl
  | binary op => cases op <;> rfl
  | image channels => cases channels <;> rfl

namespace Expr

/-- The kind of an expression. -/
def kind : Expr → Kind
  | real _ => .real
  | complex _ _ => .complex
  | list _ => .list
  | uniform _ _ => .uniform
  | pixel => .pixel
  | binary op _ _ => .binary op
  | sum _ => .sum
  | element _ _ => .element
  | image channels _ _ | imageOn channels _ _ _ _ => .image channels

/-- The parts of an expression under their names. -/
def parts : Expr → List (String × Json)
  | real x => [("value", .ofBinary64 x)]
  | complex x y => [("re", .ofBinary64 x), ("im", .ofBinary64 y)]
  | list items => [("items", .arr (listToJson items))]
  | uniform name shape => [("name", .str name), ("ty", shape.toJson)]
  | pixel => []
  | binary _ lhs rhs => [("lhs", toJson lhs), ("rhs", toJson rhs)]
  | sum arg => [("arg", toJson arg)]
  | element arg index => [("arg", toJson arg), ("index", .ofNat index)]
  | image _ name point => [("image", .str name), ("point", toJson point)]
  | imageOn _ name a b point =>
    [("image", .str name), ("corners", .arr [toJson a, toJson b]), ("point", toJson point)]

theorem toJson_eq (e : Expr) : e.toJson = .obj (("op", .str e.kind.name) :: e.parts) := by
  cases e <;> rfl

theorem parts_ne_op (e : Expr) : ∀ part ∈ e.parts, part.1 ≠ "op" := by
  cases e <;> simp [parts]

theorem viewMembers_eq_map (members : List (String × Json)) :
    viewMembers members = members.map fun (name, value) => (name, view value) := by
  induction members with
  | nil => rfl
  | cons m members ih =>
    obtain ⟨name, value⟩ := m
    rw [viewMembers, ih]
    rfl

@[simp] theorem json_view (j : Json) : (view j).json = j := by
  cases j <;> rfl

/-- An object that names a kind is understood from its other members. -/
theorem expr_view_obj (kind : Kind) {members : List (String × Json)} (h : ∀ m ∈ members, m.1 ≠ "op") :
    (view (.obj (("op", .str kind.name) :: members))).expr =
      ofParts kind (.named (viewMembers members)) := by
  have hfilter : (viewMembers members).filter (·.1 == "op") = [] := by
    rw [viewMembers_eq_map, List.filter_eq_nil_iff]
    intro part hp
    obtain ⟨m, hm, rfl⟩ := List.mem_map.1 hp
    simpa using h m hm
  have hkeep : (viewMembers members).filter (·.1 != "op") = viewMembers members := by
    rw [viewMembers_eq_map, List.filter_eq_self]
    intro part hp
    obtain ⟨m, hm, rfl⟩ := List.mem_map.1 hp
    simpa using h m hm
  rw [view]
  simp [ofMembers, viewMembers, hfilter, hkeep, view, Kind.ofJson?, Kind.lookup_name]

theorem expr_view (e : Expr) : (view e.toJson).expr = ofParts e.kind (.named (viewMembers e.parts)) := by
  rw [toJson_eq, expr_view_obj e.kind e.parts_ne_op]

mutual

/-- The parts of an expression are understood as the expression. -/
theorem ofParts_parts : ∀ e : Expr, ofParts e.kind (.named (viewMembers e.parts)) = some e
  | real x => rfl
  | complex x y => rfl
  | list items => by
    have hitems := mapM_listToJson items
    simp [ofParts, kind, parts, viewMembers, Parts.select, view, hitems]
  | uniform name shape => by
    simp [ofParts, kind, parts, viewMembers, Parts.select, json_view, Json.string?, Shape.ofJson?_toJson]
  | pixel => rfl
  | binary op lhs rhs => by
    have hl := (expr_view lhs).trans (ofParts_parts lhs)
    have hr := (expr_view rhs).trans (ofParts_parts rhs)
    simp [ofParts, kind, parts, viewMembers, Parts.select, hl, hr]
  | sum arg => by
    have ha := (expr_view arg).trans (ofParts_parts arg)
    simp [ofParts, kind, parts, viewMembers, Parts.select, ha]
  | element arg index => by
    have ha := (expr_view arg).trans (ofParts_parts arg)
    simp [ofParts, kind, parts, viewMembers, Parts.select, json_view, Json.ofNat, Json.nat?, ha]
  | image channels name point => by
    have hp := (expr_view point).trans (ofParts_parts point)
    simp [ofParts, kind, parts, viewMembers, Parts.select, json_view, Json.string?, hp]
  | imageOn channels name a b point => by
    have ha := (expr_view a).trans (ofParts_parts a)
    have hb := (expr_view b).trans (ofParts_parts b)
    have hp := (expr_view point).trans (ofParts_parts point)
    simp [ofParts, kind, parts, viewMembers, viewItems, Parts.select, view, Json.string?, ha, hb, hp]

theorem mapM_listToJson : ∀ es : List Expr, (viewItems (listToJson es)).mapM (·.expr) = some es
  | [] => rfl
  | e :: es => by
    have he := (expr_view e).trans (ofParts_parts e)
    rw [listToJson, viewItems, List.mapM_cons, he, mapM_listToJson es]
    rfl

end

theorem readMembers_parts {depth : Nat} (kind : Kind) {members : List (String × Json)}
    (hname : ∀ m ∈ members, m.1 ≠ "op") (h : Json.memberNesting members ≤ depth) :
    readMembers depth (some kind) (Json.memberDocs members) = .ok (some kind, members) := by
  induction members with
  | nil => rfl
  | cons m members ih =>
    obtain ⟨name, value⟩ := m
    rw [Json.memberNesting] at h
    rw [Json.memberDocs, readMembers, ih (fun m hm => hname m (List.mem_cons_of_mem _ hm)) (by omega)]
    have hn : name ≠ "op" := hname (name, value) List.mem_cons_self
    simp only [bind, Except.bind, hn, if_false, Json.value_doc (show value.nesting ≤ depth by omega)]
    rfl

/-- **An expression is read back from its value.** -/
theorem restores_toJson (e : Expr) : Json.Restores read e e.toJson := by
  intro depth h
  rw [toJson_eq, Json.nesting, Json.memberNesting] at h
  rw [toJson_eq, Json.doc, Json.memberDocs, read, if_neg (by omega), readMembers]
  simp only [bind, Except.bind, if_true, Json.doc, readKind, Doc.choice, Kind.lookup_name, Option.isSome,
    Bool.false_eq_true, if_false, readMembers_parts e.kind e.parts_ne_op (show _ ≤ depth - 1 by omega),
    Json.Stop.pass, Json.required, ofParts_parts]

end Expr

/-! ## Records -/

namespace Json

variable {σ : Type} {fields : List (Slot σ)} {field : Slot σ} {start acc acc' : σ} {depth : Nat}

/-- A known member is read into its field. -/
theorem readMembers_cons {name : String} {value : Json} {members : List (String × Json)}
    (hf : fields.find? (·.name == name) = some field) (hg : field.given acc = false)
    (hr : field.read depth value.doc acc = .ok acc') :
    Slot.readMembers fields depth acc (memberDocs ((name, value) :: members)) =
      Slot.readMembers fields depth acc' (memberDocs members) := by
  rw [memberDocs, Slot.readMembers]
  simp only [bind, Except.bind, hf, hg, Bool.false_eq_true, if_false, hr]

theorem readRecord_obj {members : List (String × Json)} (hd : depth ≠ 0)
    (h : Slot.readMembers fields (depth - 1) start (memberDocs members) = .ok acc) :
    Slot.readRecord fields start depth (obj members).doc = .ok acc := by
  rw [doc, Slot.readRecord, if_neg hd, h]
  rfl

/-- A field is set to what is read. -/
theorem bind_pure_of_eq_ok {α β : Type} {x : Read α} {a : α} (h : x = .ok a) (f : α → β) :
    (do let a ← x; return f a) = .ok (f a) := by
  rw [h]
  rfl

/-- A pair is read back if its parts are. -/
theorem pair_doc {α : Type} {read : Doc → Read α} {a b : α} {j k : Json} (ha : read j.doc = .ok a)
    (hb : read k.doc = .ok b) (hd : depth ≠ 0) : (arr [j, k]).doc.pair read depth = .ok (a, b) := by
  simp only [doc, itemDocs, Doc.pair, if_neg hd, Doc.nextItem, bind, Except.bind, ha, hb, Doc.endItems,
    Stop.pass]
  rfl

end Json

/-! ## Images -/

theorem word_doc (w : UInt32) : (Json.ofNat w.toNat).doc.word = .ok w := by
  rw [Json.Doc.word, Json.ofNat, Json.doc, Doc.natBelow, if_pos w.toNat_lt_size]
  exact congrArg Except.ok UInt32.ofNat_toNat

/-- An image is read back from its value. -/
theorem Image.restores_toJson (i : Image) : Json.Restores read i i.toJson := by
  intro depth hd
  obtain ⟨w, h, ready, size⟩ := i
  have hstart (rest : List (String × Json)) : Slot.readMembers fields (depth - 1) {}
      (Json.memberDocs (("width", .ofNat w.toNat) :: ("height", .ofNat h.toNat) ::
        ("ready", .bool ready) :: rest)) =
      Slot.readMembers fields (depth - 1) ⟨some w, some h, some ready, none⟩ (Json.memberDocs rest) := by
    rw [Json.readMembers_cons rfl rfl (Json.bind_pure_of_eq_ok (word_doc w) _),
      Json.readMembers_cons rfl rfl (Json.bind_pure_of_eq_ok (word_doc h) _),
      Json.readMembers_cons rfl rfl rfl]
  cases size with
  | none =>
    simp only [toJson, List.append_nil, Json.nesting] at hd ⊢
    rw [read, Json.readRecord_obj (by omega) (hstart [])]
    rfl
  | some size =>
    simp only [toJson, List.cons_append, List.nil_append, Json.nesting, Json.memberNesting] at hd ⊢
    have hsize := Json.pair_doc (word_doc size.1) (word_doc size.2) (show depth - 1 ≠ 0 by omega)
    rw [read, Json.readRecord_obj (by omega) ((hstart _).trans (Json.readMembers_cons rfl rfl
      (Json.bind_pure_of_eq_ok (congrArg (Except.map some) hsize) _)))]
    rfl

namespace ImageTable

/-- The images are in the order of their names, each name once. -/
def IsSorted (t : ImageTable) : Prop :=
  t.entries.Pairwise fun a b => a.1 < b.1

theorem isSorted_empty : empty.IsSorted :=
  .nil

theorem mem_insertInto {name : String} {image : Image} {entries : List (String × Image)}
    {e : String × Image} (h : e ∈ insertInto name image entries) : e = (name, image) ∨ e ∈ entries := by
  induction entries with
  | nil => exact .inl (List.mem_singleton.1 h)
  | cons x entries ih =>
    obtain ⟨n, i⟩ := x
    rw [insertInto] at h
    split at h
    · exact (List.mem_cons.1 h).imp_right (List.mem_cons_of_mem _)
    · split at h
      · exact List.mem_cons.1 h
      · rcases List.mem_cons.1 h with rfl | h
        · exact .inr List.mem_cons_self
        · exact (ih h).imp_right (List.mem_cons_of_mem _)

/-- Adding an image keeps a table sorted. -/
theorem IsSorted.insert {t : ImageTable} (h : t.IsSorted) (name : String) (image : Image) :
    (t.insert name image).IsSorted := by
  obtain ⟨entries⟩ := t
  rw [IsSorted] at h
  rw [IsSorted, ImageTable.insert]
  induction entries with
  | nil => exact List.pairwise_singleton _ _
  | cons e entries ih =>
    obtain ⟨n, i⟩ := e
    obtain ⟨hn, hs⟩ := List.pairwise_cons.1 h
    rw [insertInto]
    split
    · rename_i heq
      subst heq
      exact List.pairwise_cons.2 ⟨hn, hs⟩
    · rename_i hne
      split
      · rename_i hlt
        refine List.pairwise_cons.2 ⟨fun e he => ?_, h⟩
        rcases List.mem_cons.1 he with rfl | he
        · exact hlt
        · exact String.lt_trans hlt (hn e he)
      · rename_i hlt
        have hlt' : n < name :=
          String.not_le.1 fun hle => hne (String.le_antisymm hle (String.not_lt.1 hlt))
        refine List.pairwise_cons.2 ⟨fun e he => ?_, ih hs⟩
        rcases mem_insertInto he with rfl | he
        · exact hlt'
        · exact hn e he

theorem insertInto_of_lt {name : String} (image : Image) {entries : List (String × Image)}
    (h : ∀ e ∈ entries, e.1 < name) : insertInto name image entries = entries ++ [(name, image)] := by
  induction entries with
  | nil => rfl
  | cons e entries ih =>
    obtain ⟨n, i⟩ := e
    have hn : n < name := h (n, i) List.mem_cons_self
    have hne : name ≠ n := by
      rintro rfl
      exact String.lt_irrefl _ hn
    rw [insertInto, if_neg hne, if_neg (String.lt_asymm hn), ih fun e he => h e (List.mem_cons_of_mem _ he)]
    rfl

/-- The members of a table. -/
def members (entries : List (String × Image)) : List (String × Json) :=
  entries.map fun e => (e.1, e.2.toJson)

theorem toJson_eq (t : ImageTable) : t.toJson = .obj (members t.entries) :=
  rfl

theorem members_cons (name : String) (image : Image) (rest : List (String × Image)) :
    members ((name, image) :: rest) = (name, image.toJson) :: members rest :=
  rfl

/-- Sorted images are put behind each other. -/
theorem readMembers_members {depth : Nat} (entries : List (String × Image)) {t : ImageTable}
    (hs : IsSorted ⟨t.entries ++ entries⟩) (h : Json.memberNesting (members entries) ≤ depth) :
    readMembers depth t (Json.memberDocs (members entries)) = .ok ⟨t.entries ++ entries⟩ := by
  induction entries generalizing t with
  | nil =>
    rw [List.append_nil]
    rfl
  | cons e entries ih =>
    obtain ⟨name, image⟩ := e
    rw [members_cons, Json.memberNesting] at h
    have hlt : ∀ e ∈ t.entries, e.1 < name := fun e he =>
      (List.pairwise_append.1 hs).2.2 e he (name, image) List.mem_cons_self
    have hinsert : t.insert name image = ⟨t.entries ++ [(name, image)]⟩ := by
      rw [insert, insertInto_of_lt image hlt]
    have happend : t.entries ++ (name, image) :: entries = t.entries ++ [(name, image)] ++ entries := by
      simp
    rw [happend] at hs ⊢
    rw [members_cons, Json.memberDocs, readMembers]
    simp only [bind, Except.bind, image.restores_toJson depth (by omega), hinsert]
    exact ih hs (by omega)

/-- A sorted table is read back from its value. -/
theorem restores_toJson {t : ImageTable} (h : t.IsSorted) : Json.Restores read t t.toJson := by
  intro depth hd
  rw [toJson_eq, Json.nesting] at hd
  have hmembers : readMembers (depth - 1) empty (Json.memberDocs (members t.entries)) = .ok t :=
    readMembers_members t.entries h (by omega)
  rw [toJson_eq, Json.doc, read, if_neg (by omega), hmembers]
  rfl

end ImageTable

/-! ## Settings -/

theorem float_doc (x : Binary64) : (Json.ofBinary64 x).doc.float = .ok x :=
  rfl

theorem Point.restores_toJson (p : Point) : Json.Restores read p p.toJson := by
  intro depth hd
  rw [toJson, Json.nesting] at hd
  rw [toJson, read, Json.pair_doc (float_doc p.x) (float_doc p.y) (by omega)]
  rfl

theorem Viewport.restores_toJson (v : Viewport) : Json.Restores read v v.toJson := by
  intro depth hd
  simp only [toJson, Json.nesting, Json.memberNesting] at hd
  have hl := v.lowerLeft.restores_toJson (depth - 1) (by omega)
  have hr := v.lowerRight.restores_toJson (depth - 1) (by omega)
  rw [toJson, read, Json.readRecord_obj (by omega)
    ((Json.readMembers_cons rfl rfl (Json.bind_pure_of_eq_ok hl _)).trans
      (Json.readMembers_cons rfl rfl (Json.bind_pure_of_eq_ok hr _)))]
  rfl

theorem Settings.restores_toJson (s : Settings) : Json.Restores read s s.toJson := by
  intro depth hd
  simp only [toJson, Json.nesting, Json.memberNesting] at hd
  have hv := s.viewport.restores_toJson (depth - 1) (by omega)
  have hp : (Json.str s.precision.name).doc.oneOf Precision.names (depth - 1) = .ok s.precision := by
    cases s.precision <;> rfl
  have hversion : (Json.str s.version.name).doc.oneOf Version.names (depth - 1) = .ok s.version := by
    cases s.version <;> rfl
  rw [toJson, read, Json.readRecord_obj (by omega)
    ((Json.readMembers_cons rfl rfl (Json.bind_pure_of_eq_ok hv _)).trans
      ((Json.readMembers_cons rfl rfl (Json.bind_pure_of_eq_ok hp _)).trans
        (Json.readMembers_cons rfl rfl (Json.bind_pure_of_eq_ok hversion _))))]
  rfl

namespace ProgramFile

theorem restores_toJson {f : ProgramFile} (h : f.images.IsSorted) : Json.Restores read f f.toJson := by
  intro depth hd
  simp only [toJson, Json.nesting, Json.memberNesting] at hd
  have he := f.expr.restores_toJson (depth - 1) (by omega)
  have hi := ImageTable.restores_toJson h (depth - 1) (by omega)
  have hs := f.settings.restores_toJson (depth - 1) (by omega)
  rw [toJson, read, Json.readRecord_obj (by omega)
    ((Json.readMembers_cons rfl rfl (Json.bind_pure_of_eq_ok he _)).trans
      ((Json.readMembers_cons rfl rfl (Json.bind_pure_of_eq_ok hi _)).trans
        (Json.readMembers_cons rfl rfl (Json.bind_pure_of_eq_ok hs _))))]
  rfl

end ProgramFile

/-! ## Numbers -/

/-- The dimensions of a shape. -/
def Shape.counts : Shape → List Nat
  | scalar _ => []
  | vector n _ => [n]
  | matrix r c _ => [r, c]

namespace Expr

mutual

/-- The doubles in an expression. -/
def floats : Expr → List Binary64
  | real x => [x]
  | complex x y => [x, y]
  | list items => listFloats items
  | uniform _ _ | pixel => []
  | binary _ lhs rhs => floats lhs ++ floats rhs
  | sum arg | element arg _ => floats arg
  | image _ _ point => floats point
  | imageOn _ _ a b point => floats a ++ (floats b ++ floats point)

/-- The doubles in expressions. -/
def listFloats : List Expr → List Binary64
  | [] => []
  | e :: rest => floats e ++ listFloats rest

end

mutual

/-- The dimensions and indices in an expression. -/
def counts : Expr → List Nat
  | uniform _ shape => shape.counts
  | element arg index => index :: counts arg
  | real _ | complex _ _ | pixel => []
  | list items => listCounts items
  | binary _ lhs rhs => counts lhs ++ counts rhs
  | sum arg => counts arg
  | image _ _ point => counts point
  | imageOn _ _ a b point => counts a ++ (counts b ++ counts point)

/-- The dimensions and indices in expressions. -/
def listCounts : List Expr → List Nat
  | [] => []
  | e :: rest => counts e ++ listCounts rest

end

end Expr

section ReadAs

variable {g : Json.Number → Json}

theorem Shape.numbersReadAs_toJson {s : Shape}
    (h : ∀ n ∈ s.counts, (Json.Number.nat n).ReadsAs (g (.nat n))) : s.toJson.NumbersReadAs g := by
  cases s with
  | scalar k => simp [toJson, Scalar.toJson, Json.NumbersReadAs, Json.MembersReadAs]
  | vector n k =>
    have hn := h n (by simp [counts])
    simpa [toJson, Scalar.toJson, Json.ofNat, Json.NumbersReadAs, Json.MembersReadAs] using hn
  | matrix r c k =>
    have hr := h r (by simp [counts])
    have hc := h c (by simp [counts])
    simpa [toJson, Scalar.toJson, Json.ofNat, Json.NumbersReadAs, Json.MembersReadAs] using ⟨hr, hc⟩

namespace Expr

mutual

/-- What the numbers of an expression are read as, the numbers of its value are. -/
theorem numbersReadAs_toJson : ∀ (e : Expr), (∀ x ∈ e.floats, (Json.Number.float x).ReadsAs (g (.float x))) →
    (∀ n ∈ e.counts, (Json.Number.nat n).ReadsAs (g (.nat n))) → e.toJson.NumbersReadAs g
  | real x, hx, hn => by
    simp only [floats, List.forall_mem_singleton] at hx
    simpa [toJson, Json.ofBinary64, Json.NumbersReadAs, Json.MembersReadAs] using hx
  | complex x y, hx, hn => by
    simp only [floats, List.forall_mem_cons] at hx
    simpa [toJson, Json.ofBinary64, Json.NumbersReadAs, Json.MembersReadAs] using And.intro hx.1 hx.2.1
  | list items, hx, hn => by
    simpa [toJson, Json.NumbersReadAs, Json.MembersReadAs] using itemsReadAs_listToJson items hx hn
  | uniform name shape, hx, hn => by
    simpa [toJson, Json.NumbersReadAs, Json.MembersReadAs] using Shape.numbersReadAs_toJson hn
  | pixel, hx, hn => by
    simp [toJson, Json.NumbersReadAs, Json.MembersReadAs]
  | binary op lhs rhs, hx, hn => by
    simp only [floats, counts, List.forall_mem_append] at hx hn
    simpa [toJson, Json.NumbersReadAs, Json.MembersReadAs] using
      And.intro (numbersReadAs_toJson lhs hx.1 hn.1) (numbersReadAs_toJson rhs hx.2 hn.2)
  | sum arg, hx, hn => by
    simpa [toJson, Json.NumbersReadAs, Json.MembersReadAs] using numbersReadAs_toJson arg hx hn
  | element arg index, hx, hn => by
    simp only [counts, List.forall_mem_cons] at hn
    simpa [toJson, Json.ofNat, Json.NumbersReadAs, Json.MembersReadAs] using
      And.intro (numbersReadAs_toJson arg hx hn.2) hn.1
  | image channels name point, hx, hn => by
    simpa [toJson, Json.NumbersReadAs, Json.MembersReadAs] using numbersReadAs_toJson point hx hn
  | imageOn channels name a b point, hx, hn => by
    simp only [floats, counts, List.forall_mem_append] at hx hn
    have ha := numbersReadAs_toJson a hx.1 hn.1
    have hb := numbersReadAs_toJson b hx.2.1 hn.2.1
    have hp := numbersReadAs_toJson point hx.2.2 hn.2.2
    simp [toJson, Json.NumbersReadAs, Json.MembersReadAs, Json.ItemsReadAs, ha, hb, hp]

theorem itemsReadAs_listToJson : ∀ (es : List Expr),
    (∀ x ∈ listFloats es, (Json.Number.float x).ReadsAs (g (.float x))) →
    (∀ n ∈ listCounts es, (Json.Number.nat n).ReadsAs (g (.nat n))) → Json.ItemsReadAs g (listToJson es)
  | [], _, _ => trivial
  | e :: es, hx, hn => by
    simp only [listFloats, listCounts, List.forall_mem_append] at hx hn
    exact ⟨numbersReadAs_toJson e hx.1 hn.1, itemsReadAs_listToJson es hx.2 hn.2⟩

end

end Expr

theorem Image.numbersReadAs_toJson
    (h : ∀ n < UInt32.size, (Json.Number.nat n).ReadsAs (g (.nat n))) (i : Image) :
    i.toJson.NumbersReadAs g := by
  have hword (w : UInt32) := h w.toNat w.toNat_lt_size
  obtain ⟨w, h, ready, size⟩ := i
  cases size with
  | none => simp [toJson, Json.ofNat, Json.NumbersReadAs, Json.MembersReadAs, hword]
  | some size =>
    simp [toJson, Json.ofNat, Json.NumbersReadAs, Json.MembersReadAs, Json.ItemsReadAs, hword]

theorem ImageTable.numbersReadAs_toJson
    (h : ∀ n < UInt32.size, (Json.Number.nat n).ReadsAs (g (.nat n))) (t : ImageTable) :
    t.toJson.NumbersReadAs g := by
  rw [toJson_eq, Json.NumbersReadAs]
  induction t.entries with
  | nil => trivial
  | cons e entries ih => exact ⟨e.2.numbersReadAs_toJson h, ih⟩

/-- The doubles in settings. -/
def Settings.floats (s : Settings) : List Binary64 :=
  [s.viewport.lowerLeft.x, s.viewport.lowerLeft.y, s.viewport.lowerRight.x, s.viewport.lowerRight.y]

theorem Settings.numbersReadAs_toJson {s : Settings}
    (h : ∀ x ∈ s.floats, (Json.Number.float x).ReadsAs (g (.float x))) : s.toJson.NumbersReadAs g := by
  simp only [floats, List.forall_mem_cons] at h
  obtain ⟨h₁, h₂, h₃, h₄, -⟩ := h
  simp [toJson, Viewport.toJson, Point.toJson, Json.ofBinary64, Json.NumbersReadAs, Json.MembersReadAs,
    Json.ItemsReadAs, h₁, h₂, h₃, h₄]

end ReadAs

theorem Expr.numbersReadBack_toJson (e : Expr) (hx : ∀ x ∈ e.floats, x.ReadsBack)
    (hn : ∀ n ∈ e.counts, n < UInt64.size) : e.toJson.NumbersReadBack :=
  e.numbersReadAs_toJson (fun x h => (Json.Number.float_readsBack (hx x h)).readsAs)
    fun n h => (Json.Number.nat_readsBack (hn n h)).readsAs

theorem ImageTable.numbersReadBack_toJson (t : ImageTable) : t.toJson.NumbersReadBack :=
  t.numbersReadAs_toJson fun _ h => (Json.Number.nat_readsBack (Nat.lt_trans h (by decide))).readsAs

theorem Settings.numbersReadBack_toJson {s : Settings} (h : ∀ x ∈ s.floats, x.ReadsBack) :
    s.toJson.NumbersReadBack :=
  s.numbersReadAs_toJson fun x hx => (Json.Number.float_readsBack (h x hx)).readsAs

/-! ## Equality of numbers -/

theorem Binary64.ReadsBack.sameNumber {x : Binary64} (h : x.ReadsBack) : x.sameNumber x := by
  have hnan : x.isNaN = false := by
    have := h.isFinite
    simp only [Binary64.isFinite, bne_iff_ne, ne_eq] at this
    simp [Binary64.isNaN, this]
  simp [Binary64.sameNumber, hnan]

namespace Expr

mutual

theorem same_self : ∀ (e : Expr), (∀ x ∈ e.floats, x.ReadsBack) → e.same e
  | real x, h => by
    simp only [floats, List.forall_mem_singleton] at h
    exact h.sameNumber
  | complex x y, h => by
    simp only [floats, List.forall_mem_cons] at h
    simp [same, h.1.sameNumber, h.2.1.sameNumber]
  | list items, h => sameItems_self items h
  | uniform name shape, _ => by simp [same]
  | pixel, _ => rfl
  | binary op lhs rhs, h => by
    simp only [floats, List.forall_mem_append] at h
    simp [same, same_self lhs h.1, same_self rhs h.2]
  | sum arg, h => same_self arg h
  | element arg index, h => by simp [same, same_self arg h]
  | image channels name point, h => by simp [same, same_self point h]
  | imageOn channels name a b point, h => by
    simp only [floats, List.forall_mem_append] at h
    simp [same, same_self a h.1, same_self b h.2.1, same_self point h.2.2]

theorem sameItems_self : ∀ (es : List Expr), (∀ x ∈ listFloats es, x.ReadsBack) → sameItems es es
  | [], _ => rfl
  | e :: es, h => by
    simp only [listFloats, List.forall_mem_append] at h
    simp [sameItems, same_self e h.1, sameItems_self es h.2]

end

end Expr

theorem Settings.same_self {s : Settings} (h : ∀ x ∈ s.floats, x.ReadsBack) : s.same s := by
  simp only [floats, List.forall_mem_cons] at h
  obtain ⟨h₁, h₂, h₃, h₄, -⟩ := h
  simp [same, Viewport.same, Point.same, h₁.sameNumber, h₂.sameNumber, h₃.sameNumber, h₄.sameNumber]

/-! ## Program files -/

namespace ProgramFile

/-- The doubles in a program file. -/
def floats (f : ProgramFile) : List Binary64 :=
  f.expr.floats ++ f.settings.floats

/-- **A program file that its text can hold:** the doubles are read from their own texts,
dimensions and indices have 64 bits, images are in the order of their names, and arrays and objects
are not nested too deeply. -/
structure IsStorable (f : ProgramFile) : Prop where
  floats : ∀ x ∈ f.floats, x.ReadsBack
  counts : ∀ n ∈ f.expr.counts, n < UInt64.size
  images : f.images.IsSorted
  nesting : f.toJson.nesting ≤ Json.maxNesting

/-- **A program file is read back from its text,** and equals the one that was written also as
program files are compared, numbers as numbers. -/
theorem ofText_text {f : ProgramFile} (h : f.IsStorable) : ofText f.text = .ok f ∧ f.same f := by
  obtain ⟨he, hs⟩ := List.forall_mem_append.1 h.floats
  constructor
  · have hnumbers : f.toJson.NumbersReadBack :=
      ⟨f.expr.numbersReadBack_toJson he h.counts, f.images.numbersReadBack_toJson,
        Settings.numbersReadBack_toJson hs, trivial⟩
    have hdocument := Json.ofString_text .pretty hnumbers
    rw [Json.Document.ofString] at hdocument
    rw [ofText, ofSymbols, text, hdocument, Json.Document.read,
      restores_toJson h.images Json.maxNesting h.nesting]
    rfl
  · simp [same, f.expr.same_self he, Settings.same_self hs]

/-- A file with names that need escapes, a shape that cannot be declared and an image in a padded
texture. -/
def vignette : ProgramFile where
  expr := .binary .mul
    (.imageOn .rgba "\"π\n\x01" (.complex (.ofRatio true 1 10) (.ofRatio false 1 10000000)) .pixel .pixel)
    (.sum (.list [.element (.uniform "" (.matrix 0 18446744073709551615 .complex)) 3, .real (.zero true)]))
  images := (ImageTable.empty.insert "π" ⟨64, 48, true, some (64, 64)⟩).insert "\"π\n\x01" ⟨0, 1, false, none⟩
  settings := ⟨⟨⟨.ofRatio true 3 2, .zero false⟩, ⟨.one, .zero false⟩⟩, .medium, .es300⟩

theorem ofText_text_vignette : vignette.IsStorable ∧ ofText vignette.text = .ok vignette ∧
    vignette.same vignette :=
  have h : vignette.IsStorable :=
    ⟨by decide +kernel, by decide +kernel, (ImageTable.isSorted_empty.insert _ _).insert _ _, by decide +kernel⟩
  ⟨h, ofText_text h⟩

end ProgramFile
end ShaderAlgebra
