import ShaderAlgebra.Proofs.ProgramFiles
import ShaderAlgebra.Proofs.WrittenNumbers

/-!
# Which program files are read again

Every program file has a text, but not every such text is read.  A double that is
not finite is written as `null`, which no reader takes for a number; and arrays and
objects that are nested more deeply than a reader goes down are refused.

There is no third reason (`ofText_text_isOk_iff`).  A finite double is always read as
some double, if not always as itself; so the text of a value is read as a value of the
same form (`Json.reread`), and each reader along the way accepts that form.
-/

namespace ShaderAlgebra

open Json (Doc Read Slot Number)

/-! ## Numbers -/

namespace Json

/-- What the text of a number is read as. -/
def Number.reread : Number → Json
  | .float x =>
    match x.reread? with
    | some y => .num (.float y)
    | none => .null
  | n => .num n

/-- What the text of a value is read as. -/
abbrev reread (j : Json) : Json :=
  j.mapNumbers Number.reread

theorem Number.nesting_reread (n : Number) : n.reread.nesting = 0 := by
  unfold reread
  split
  · split <;> rfl
  · rfl

theorem Number.nat_readsAs {n : Nat} (h : n < UInt64.size) : (nat n).ReadsAs (nat n).reread :=
  (nat_readsBack h).readsAs

/-- The text of a double is read as some double, or as `null`. -/
theorem Number.float_readsAs (x : Binary64) : (float x).ReadsAs (float x).reread := by
  intro rest hr
  unfold reread
  dsimp only
  split
  · rename_i y hy
    exact tokens_append_of_num (tokens_float (Binary64.read_of_reread? hy)) hr
  · rename_i hnone
    have hfinite : ¬x.isFinite := by
      rw [← Binary64.isSome_reread?_iff, hnone]
      exact Bool.false_ne_true
    rw [text, if_neg hfinite]
    exact tokens_null rest

theorem float?_reread (x : Binary64) : (Number.float x).reread.float? = x.reread? := by
  unfold Number.reread
  dsimp only
  split <;> rename_i h <;> rw [h] <;> rfl

theorem exists_float_reread {x : Binary64} :
    (∃ y, (Number.float x).reread.doc.float = .ok y) ↔ x.isFinite := by
  rw [← Binary64.isSome_reread?_iff, Number.reread]
  split <;> rename_i h <;> rw [h]
  · exact ⟨fun _ => rfl, fun _ => ⟨_, rfl⟩⟩
  · exact ⟨nofun, nofun⟩

end Json

/-! ## Expressions -/

theorem Shape.reread_toJson (s : Shape) : s.toJson.reread = s.toJson := by
  cases s <;> rfl

namespace Expr

variable {g : Number → Json}

theorem mapMembers_ne_op {members : List (String × Json)} (h : ∀ m ∈ members, m.1 ≠ "op") :
    ∀ m ∈ Json.mapMembers g members, m.1 ≠ "op" := by
  induction members with
  | nil => exact nofun
  | cons m members ih =>
    obtain ⟨name, value⟩ := m
    rw [Json.mapMembers]
    rintro m (_ | ⟨_, hm⟩)
    · exact h (name, value) List.mem_cons_self
    · exact ih (fun m hm => h m (List.mem_cons_of_mem _ hm)) m hm

theorem mapNumbers_toJson (e : Expr) :
    e.toJson.mapNumbers g = .obj (("op", .str e.kind.name) :: Json.mapMembers g e.parts) := by
  rw [toJson_eq]
  rfl

theorem expr_view_map (e : Expr) : (view (e.toJson.mapNumbers g)).expr =
    ofParts e.kind (.named (viewMembers (Json.mapMembers g e.parts))) := by
  rw [mapNumbers_toJson, expr_view_obj e.kind (mapMembers_ne_op e.parts_ne_op)]

theorem isSome_bind_some {α β : Type} {o : Option α} {f : α → β} :
    (o.bind fun a => some (f a)).isSome ↔ o.isSome := by
  cases o <;> simp

theorem isSome_bind {α β : Type} {o : Option α} {f : α → Option β} {p : Prop}
    (h : ∀ a, (f a).isSome ↔ p) : (o.bind f).isSome ↔ o.isSome ∧ p := by
  cases o <;> simp [h]

/-- A read with corners is understood from the corners and the point. -/
theorem ofParts_corners (channels : Channels) (name : String) (a b point : Json) :
    ofParts (.image channels) (.named (viewMembers [("image", .str name), ("corners", .arr [a, b]),
        ("point", point)])) =
      (view a).expr.bind fun x => (view b).expr.bind fun y => (view point).expr.bind fun p =>
        some (imageOn channels name x y p) := by
  simp [ofParts, viewMembers, viewItems, Parts.select, view, Json.string?, Option.bind_assoc]

mutual

/-- An expression is understood from what its text is read as iff its doubles are finite. -/
theorem isSome_expr_view : ∀ e : Expr,
    (view e.toJson.reread).expr.isSome ↔ ∀ x ∈ e.floats, x.isFinite
  | real x => by
    rw [expr_view_map]
    simp [ofParts, kind, parts, Json.mapMembers, Json.ofBinary64, Json.mapNumbers, viewMembers,
      Parts.select, Json.float?_reread, floats, isSome_bind_some, Binary64.isSome_reread?_iff]
  | complex x y => by
    rw [expr_view_map]
    simp [ofParts, kind, parts, Json.mapMembers, Json.ofBinary64, Json.mapNumbers, viewMembers,
      Parts.select, Json.float?_reread, floats, isSome_bind fun _ => isSome_bind_some,
      Binary64.isSome_reread?_iff]
  | list items => by
    rw [expr_view_map]
    simp [ofParts, kind, parts, Json.mapMembers, Json.mapNumbers, viewMembers, Parts.select, view,
      isSome_bind_some, isSome_mapM items, floats]
  | uniform name shape => by
    rw [expr_view_map]
    simp [ofParts, kind, parts, Json.mapMembers, Json.mapNumbers, viewMembers, Parts.select, Json.string?,
      Shape.reread_toJson, Shape.ofJson?_toJson, floats]
  | pixel => by simp [expr_view_map, ofParts, kind, floats]
  | binary op lhs rhs => by
    rw [expr_view_map]
    simp [ofParts, kind, parts, Json.mapMembers, viewMembers, Parts.select,
      isSome_bind fun _ => isSome_bind_some, isSome_expr_view lhs, isSome_expr_view rhs, floats,
      or_imp, forall_and]
  | sum arg => by
    rw [expr_view_map]
    simp [ofParts, kind, parts, Json.mapMembers, viewMembers, Parts.select, isSome_bind_some,
      isSome_expr_view arg, floats]
  | element arg index => by
    rw [expr_view_map]
    simp [ofParts, kind, parts, Json.mapMembers, Json.ofNat, Json.mapNumbers, Number.reread, viewMembers,
      Parts.select, Json.nat?, isSome_bind_some, isSome_expr_view arg, floats]
  | image channels name point => by
    rw [expr_view_map]
    simp [ofParts, kind, parts, Json.mapMembers, Json.mapNumbers, viewMembers, Parts.select, Json.string?,
      isSome_bind_some, isSome_expr_view point, floats]
  | imageOn channels name a b point => by
    have hparts := ofParts_corners channels name a.toJson.reread b.toJson.reread point.toJson.reread
    rw [expr_view_map]
    change (ofParts (.image channels) (.named (viewMembers [("image", .str name),
      ("corners", .arr [a.toJson.reread, b.toJson.reread]), ("point", point.toJson.reread)]))).isSome ↔ _
    rw [hparts, isSome_bind fun _ => isSome_bind fun _ => isSome_bind_some, isSome_expr_view a,
      isSome_expr_view b, isSome_expr_view point]
    simp [floats, or_imp, forall_and]

theorem isSome_mapM : ∀ es : List Expr,
    ((viewItems (Json.mapItems Number.reread (listToJson es))).mapM View.expr).isSome ↔
      ∀ x ∈ listFloats es, x.isFinite
  | [] => by simp [listToJson, Json.mapItems, viewItems, listFloats]
  | e :: es => by
    simp [listToJson, Json.mapItems, viewItems, listFloats, isSome_bind fun _ => isSome_bind_some,
      isSome_expr_view e, isSome_mapM es, or_imp, forall_and]

end

/-- Reading the members of an expression goes no further down than it may. -/
theorem memberNesting_le_of_readMembers {depth : Nat} (kind : Kind) {members : List (String × Json)}
    (hname : ∀ m ∈ members, m.1 ≠ "op")
    (h : ∃ r, readMembers depth (some kind) (Json.memberDocs members) = .ok r) :
    Json.memberNesting members ≤ depth := by
  induction members with
  | nil => exact Nat.zero_le _
  | cons m members ih =>
    obtain ⟨name, value⟩ := m
    have hn : name ≠ "op" := hname (name, value) List.mem_cons_self
    rw [Json.memberDocs, readMembers] at h
    obtain ⟨_, hkey, h⟩ := Json.exists_bind_eq_ok.1 h
    obtain rfl := Except.ok.inj hkey
    rw [if_neg hn] at h
    obtain ⟨v, hv, h⟩ := Json.exists_bind_eq_ok.1 h
    obtain ⟨r, hr, -⟩ := Json.exists_bind_eq_ok.1 h
    rw [Json.memberNesting]
    exact Nat.max_le.2 ⟨Json.nesting_le_of_value ⟨v, hv⟩,
      ih (fun m hm => hname m (List.mem_cons_of_mem _ hm)) ⟨r, hr⟩⟩

/-- An object that names a kind is read iff it is not nested too deeply and is understood. -/
theorem exists_read_iff {depth : Nat} (kind : Kind) {members : List (String × Json)}
    (hname : ∀ m ∈ members, m.1 ≠ "op") :
    (∃ e, read depth (Json.obj (("op", .str kind.name) :: members)).doc = .ok e) ↔
      Json.memberNesting members < depth ∧ (ofParts kind (.named (viewMembers members))).isSome := by
  have hread : read depth (Json.obj (("op", .str kind.name) :: members)).doc =
      if depth = 0 then .error .malformed
      else (readMembers (depth - 1) (some kind) (Json.memberDocs members)) >>= fun r =>
        Json.required r.1 >>= fun kind => Json.required (ofParts kind (.named (viewMembers r.2))) := by
    rw [Json.doc, Json.memberDocs, read, readMembers]
    simp only [bind, Except.bind, if_true, Json.doc, readKind, Doc.choice, Kind.lookup_name,
      Option.isSome, Bool.false_eq_true, if_false, Json.Stop.pass]
  rw [hread]
  by_cases hd : depth = 0
  · rw [if_pos hd, hd]
    constructor
    · rintro ⟨_, ⟨⟩⟩
    · exact fun h => absurd h.1 (Nat.not_lt_zero _)
  rw [if_neg hd]
  constructor
  · intro h
    obtain ⟨r, hr, h⟩ := Json.exists_bind_eq_ok.1 h
    have hle := memberNesting_le_of_readMembers kind hname ⟨r, hr⟩
    rw [readMembers_parts kind hname hle] at hr
    obtain rfl := Except.ok.inj hr
    obtain ⟨_, hkind, e, he⟩ := Json.exists_bind_eq_ok.1 h
    obtain rfl := Except.ok.inj hkind
    refine ⟨by omega, ?_⟩
    cases hparts : ofParts kind (.named (viewMembers members)) with
    | none =>
      rw [hparts] at he
      cases he
    | some e => rfl
  · rintro ⟨hlt, hsome⟩
    obtain ⟨e, he⟩ := Option.isSome_iff_exists.1 hsome
    refine ⟨e, ?_⟩
    rw [readMembers_parts kind hname (by omega)]
    simp only [bind, Except.bind, Json.required, he]

/-- **What the text of an expression is read as is an expression** iff its doubles are finite and it
is not nested too deeply. -/
theorem exists_read_toJson_iff {depth : Nat} (e : Expr) :
    (∃ e', read depth e.toJson.reread.doc = .ok e') ↔
      e.toJson.nesting ≤ depth ∧ ∀ x ∈ e.floats, x.isFinite := by
  have hnesting : e.toJson.nesting = Json.memberNesting (Json.mapMembers Number.reread e.parts) + 1 := by
    rw [Json.memberNesting_mapMembers Number.nesting_reread, toJson_eq, Json.nesting, Json.memberNesting,
      Json.nesting, Nat.zero_max]
  rw [← isSome_expr_view, expr_view_map, hnesting, Json.reread, mapNumbers_toJson,
    exists_read_iff e.kind (mapMembers_ne_op e.parts_ne_op)]
  rfl

end Expr

/-! ## Records

A record is read iff all its fields are. -/

namespace Json

section Record

variable {σ α : Type} {fields : List (Slot σ)} {field : Slot σ} {start acc : σ} {depth : Nat}

/-- A known member is read into its field, if it is read at all. -/
theorem readMembers_field {name : String} {value : Json} {members : List (String × Json)} {x : Read α}
    {set : α → σ} (hf : fields.find? (·.name == name) = some field) (hg : field.given acc = false)
    (hr : field.read depth value.doc acc = do return set (← x)) :
    Slot.readMembers fields depth acc (memberDocs ((name, value) :: members)) =
      x >>= fun a => Slot.readMembers fields depth (set a) (memberDocs members) := by
  rw [memberDocs, Slot.readMembers]
  simp only [bind, Except.bind, hf, hg, Bool.false_eq_true, if_false, hr]
  cases x <;> rfl

theorem readRecord_eq_readMembers (hd : depth ≠ 0) (members : List (String × Json)) :
    Slot.readRecord fields start depth (obj members).doc =
      Slot.readMembers fields (depth - 1) start (memberDocs members) := by
  rw [doc, Slot.readRecord, if_neg hd]
  cases Slot.readMembers fields (depth - 1) start (memberDocs members) <;> rfl

end Record

theorem exists_map_eq_ok {α β : Type} {x : Read α} {f : α → β} :
    (∃ b, x.map f = .ok b) ↔ ∃ a, x = .ok a := by
  cases x with
  | error fault => exact ⟨nofun, nofun⟩
  | ok a => exact ⟨fun _ => ⟨a, rfl⟩, fun _ => ⟨f a, rfl⟩⟩

/-- A pair is read iff its parts are. -/
theorem exists_pair_iff {α : Type} {read : Doc → Read α} {depth : Nat} (hd : depth ≠ 0) {j k : Json} :
    (∃ p, (arr [j, k]).doc.pair read depth = .ok p) ↔
      (∃ a, read j.doc = .ok a) ∧ ∃ b, read k.doc = .ok b := by
  constructor
  · intro h
    rw [doc, Doc.pair, if_neg hd, itemDocs, itemDocs, itemDocs] at h
    obtain ⟨_, hfirst, h⟩ := exists_bind_eq_ok.1 h
    obtain rfl := Except.ok.inj hfirst
    obtain ⟨a, ha, h⟩ := exists_bind_eq_ok.1 h
    obtain ⟨_, hsecond, h⟩ := exists_bind_eq_ok.1 h
    obtain rfl := Except.ok.inj hsecond
    obtain ⟨b, hb, -⟩ := exists_bind_eq_ok.1 h
    exact ⟨⟨a, ha⟩, b, hb⟩
  · rintro ⟨⟨a, ha⟩, b, hb⟩
    exact ⟨(a, b), pair_doc ha hb hd⟩

end Json

theorem Point.exists_read_iff {depth : Nat} (hd : depth ≠ 0) (p : Point) :
    (∃ q, read depth p.toJson.reread.doc = .ok q) ↔ p.x.isFinite ∧ p.y.isFinite := by
  rw [← Json.exists_float_reread, ← Json.exists_float_reread, ← Json.exists_pair_iff hd, read]
  exact Json.exists_map_eq_ok

namespace Viewport

theorem read_doc {depth : Nat} (hd : depth ≠ 0) (a b : Json) :
    read depth (Json.obj [("lower_left", a), ("lower_right", b)]).doc = (do
      let l ← Point.read (depth - 1) a.doc
      let r ← Point.read (depth - 1) b.doc
      return ⟨l, r⟩) := by
  rw [read, Json.readRecord_eq_readMembers hd, Json.readMembers_field rfl rfl rfl, bind_assoc]
  refine bind_congr fun l => ?_
  rw [Json.readMembers_field rfl rfl rfl, bind_assoc]
  rfl

theorem reread_toJson (v : Viewport) : v.toJson.reread =
    .obj [("lower_left", v.lowerLeft.toJson.reread), ("lower_right", v.lowerRight.toJson.reread)] :=
  rfl

theorem exists_read_iff {depth : Nat} (hd : 2 ≤ depth) (v : Viewport) :
    (∃ w, read depth v.toJson.reread.doc = .ok w) ↔
      (v.lowerLeft.x.isFinite ∧ v.lowerLeft.y.isFinite) ∧
        v.lowerRight.x.isFinite ∧ v.lowerRight.y.isFinite := by
  have hpoint := fun p => Point.exists_read_iff (show depth - 1 ≠ 0 by omega) p
  rw [← hpoint, ← hpoint, reread_toJson, read_doc (by omega)]
  constructor
  · intro h
    obtain ⟨l, hl, h⟩ := Json.exists_bind_eq_ok.1 h
    obtain ⟨r, hr, -⟩ := Json.exists_bind_eq_ok.1 h
    exact ⟨⟨l, hl⟩, r, hr⟩
  · rintro ⟨⟨l, hl⟩, r, hr⟩
    exact ⟨⟨l, r⟩, by rw [hl, hr]; rfl⟩

end Viewport

namespace Settings

theorem read_doc {depth : Nat} (hd : depth ≠ 0) (a b c : Json) :
    read depth (Json.obj [("viewport", a), ("precision", b), ("version", c)]).doc = (do
      let v ← Viewport.read (depth - 1) a.doc
      let p ← b.doc.oneOf Precision.names (depth - 1)
      let w ← c.doc.oneOf Version.names (depth - 1)
      return ⟨v, p, w⟩) := by
  rw [read, Json.readRecord_eq_readMembers hd, Json.readMembers_field rfl rfl rfl, bind_assoc]
  refine bind_congr fun v => ?_
  rw [Json.readMembers_field rfl rfl rfl, bind_assoc]
  refine bind_congr fun p => ?_
  rw [Json.readMembers_field rfl rfl rfl, bind_assoc]
  rfl

theorem reread_toJson (s : Settings) : s.toJson.reread =
    .obj [("viewport", s.viewport.toJson.reread), ("precision", .str s.precision.name),
      ("version", .str s.version.name)] :=
  rfl

/-- What the text of settings is read as are settings iff their doubles are finite. -/
theorem exists_read_iff {depth : Nat} (hd : 3 ≤ depth) (s : Settings) :
    (∃ t, read depth s.toJson.reread.doc = .ok t) ↔ ∀ x ∈ s.floats, x.isFinite := by
  have hv := Viewport.exists_read_iff (show 2 ≤ depth - 1 by omega) s.viewport
  have hp : (Json.str s.precision.name).doc.oneOf Precision.names (depth - 1) = .ok s.precision := by
    cases s.precision <;> rfl
  have hversion : (Json.str s.version.name).doc.oneOf Version.names (depth - 1) = .ok s.version := by
    cases s.version <;> rfl
  have hfloats : (∀ x ∈ s.floats, x.isFinite) ↔
      ∃ w, Viewport.read (depth - 1) s.viewport.toJson.reread.doc = .ok w := by
    simp [hv, floats, and_assoc]
  rw [hfloats, reread_toJson, read_doc (by omega)]
  constructor
  · intro h
    obtain ⟨v, hv, -⟩ := Json.exists_bind_eq_ok.1 h
    exact ⟨v, hv⟩
  · rintro ⟨v, hv⟩
    exact ⟨⟨v, s.precision, s.version⟩, by rw [hv, hp, hversion]; rfl⟩

theorem nesting_toJson (s : Settings) : s.toJson.nesting = 3 :=
  rfl

end Settings

theorem Image.reread_toJson (i : Image) : i.toJson.reread = i.toJson := by
  obtain ⟨w, h, ready, size⟩ := i
  cases size <;> rfl

theorem Image.nesting_toJson (i : Image) : i.toJson.nesting ≤ 2 := by
  obtain ⟨w, h, ready, size⟩ := i
  cases size with
  | none => exact Nat.le_succ 1
  | some size => exact Nat.le_refl 2

namespace ImageTable

theorem reread_toJson (t : ImageTable) : t.toJson.reread = t.toJson := by
  rw [toJson_eq, Json.reread, Json.mapNumbers]
  refine congrArg Json.obj ?_
  induction t.entries with
  | nil => rfl
  | cons e entries ih =>
    obtain ⟨name, image⟩ := e
    have himage : Json.mapNumbers Number.reread image.toJson = image.toJson := image.reread_toJson
    rw [members_cons, Json.mapMembers, himage, ih]

theorem nesting_toJson (t : ImageTable) : t.toJson.nesting ≤ 3 := by
  rw [toJson_eq, Json.nesting]
  refine Nat.succ_le_succ ?_
  induction t.entries with
  | nil => exact Nat.zero_le _
  | cons e entries ih =>
    obtain ⟨name, image⟩ := e
    rw [members_cons, Json.memberNesting]
    exact Nat.max_le.2 ⟨image.nesting_toJson, ih⟩

end ImageTable

/-! ## Program files -/

namespace ProgramFile

theorem read_doc {depth : Nat} (hd : depth ≠ 0) (a b c : Json) :
    read depth (Json.obj [("expr", a), ("images", b), ("config", c)]).doc = (do
      let e ← Expr.read (depth - 1) a.doc
      let t ← ImageTable.read (depth - 1) b.doc
      let s ← Settings.read (depth - 1) c.doc
      return ⟨e, t, s⟩) := by
  rw [read, Json.readRecord_eq_readMembers hd, Json.readMembers_field rfl rfl rfl, bind_assoc]
  refine bind_congr fun e => ?_
  rw [Json.readMembers_field rfl rfl rfl, bind_assoc]
  refine bind_congr fun t => ?_
  rw [Json.readMembers_field rfl rfl rfl, bind_assoc]
  rfl

theorem reread_toJson (f : ProgramFile) : f.toJson.reread =
    .obj [("expr", f.expr.toJson.reread), ("images", f.images.toJson.reread),
      ("config", f.settings.toJson.reread)] :=
  rfl

/-- A program file is read from the document of its text iff its expression and its settings are. -/
theorem exists_read_iff {depth : Nat} (hd : 4 ≤ depth) {f : ProgramFile} (h : f.images.IsSorted) :
    (∃ g, read depth f.toJson.reread.doc = .ok g) ↔
      (∃ e, Expr.read (depth - 1) f.expr.toJson.reread.doc = .ok e) ∧
        ∃ s, Settings.read (depth - 1) f.settings.toJson.reread.doc = .ok s := by
  have himages : ImageTable.read (depth - 1) f.images.toJson.reread.doc = .ok f.images := by
    have hnesting := f.images.nesting_toJson
    rw [f.images.reread_toJson, ImageTable.restores_toJson h _ (by omega)]
  rw [reread_toJson, read_doc (by omega)]
  constructor
  · intro h
    obtain ⟨e, he, h⟩ := Json.exists_bind_eq_ok.1 h
    obtain ⟨t, -, h⟩ := Json.exists_bind_eq_ok.1 h
    obtain ⟨s, hs, -⟩ := Json.exists_bind_eq_ok.1 h
    exact ⟨⟨e, he⟩, s, hs⟩
  · rintro ⟨⟨e, he⟩, s, hs⟩
    exact ⟨⟨e, f.images, s⟩, by rw [he, himages, hs]; rfl⟩

/-- The text of a program file is turned into the document of what its numbers are read as. -/
theorem ofString_text {f : ProgramFile} (h : ∀ n ∈ f.expr.counts, n < UInt64.size) :
    Json.Document.ofString f.text = ⟨f.toJson.reread.doc, false⟩ := by
  have hnumbers : f.toJson.NumbersReadAs Number.reread :=
    ⟨f.expr.numbersReadAs_toJson (fun x _ => Number.float_readsAs x) fun n hn => Number.nat_readsAs (h n hn),
      f.images.numbersReadAs_toJson fun _ hn => Number.nat_readsAs (Nat.lt_trans hn (by decide)),
      f.settings.numbersReadAs_toJson fun x _ => Number.float_readsAs x, trivial⟩
  exact Json.ofString_text_map .pretty hnumbers

/-- A text is read iff the expression and the settings of the file are read from its document. -/
theorem exists_ofText_text_iff {f : ProgramFile} (hcounts : ∀ n ∈ f.expr.counts, n < UInt64.size)
    (himages : f.images.IsSorted) : (∃ g, ofText f.text = .ok g) ↔
      (∃ e, Expr.read (Json.maxNesting - 1) f.expr.toJson.reread.doc = .ok e) ∧
        ∃ s, Settings.read (Json.maxNesting - 1) f.settings.toJson.reread.doc = .ok s := by
  have hdocument := ofString_text hcounts
  rw [Json.Document.ofString] at hdocument
  rw [← exists_read_iff (show 4 ≤ Json.maxNesting by decide) himages, ofText, ofSymbols, hdocument,
    Json.Document.read]
  cases read Json.maxNesting f.toJson.reread.doc with
  | error fault => constructor <;> rintro ⟨_, ⟨⟩⟩
  | ok g => exact ⟨fun _ => ⟨g, rfl⟩, fun _ => ⟨g, rfl⟩⟩

/-- **A program file is read again from its text iff its doubles are finite and it is not nested too
deeply.**  Dimensions and indices of 64 bits, and images in the order of their names, are what a
program file has in memory. -/
theorem ofText_text_isOk_iff {f : ProgramFile} (hcounts : ∀ n ∈ f.expr.counts, n < UInt64.size)
    (himages : f.images.IsSorted) : (∃ g, ofText f.text = .ok g) ↔
      (∀ x ∈ f.floats, x.isFinite) ∧ f.toJson.nesting ≤ Json.maxNesting := by
  -- images and settings are never nested deeply
  have hnesting : f.toJson.nesting ≤ Json.maxNesting ↔ f.expr.toJson.nesting ≤ Json.maxNesting - 1 := by
    have himage := f.images.nesting_toJson
    have hsettings := f.settings.nesting_toJson
    simp only [toJson, Json.nesting, Json.memberNesting, Json.maxNesting]
    omega
  rw [exists_ofText_text_iff hcounts himages, Expr.exists_read_toJson_iff,
    Settings.exists_read_iff (by decide), hnesting, floats, List.forall_mem_append]
  tauto

/-- A file with the last double but one, which is read as the last. -/
def brink : ProgramFile where
  expr := .binary .dot (.list [.real (.ofFields false (2047 * 2 ^ 52 - 2)), .pixel])
    (.uniform "weights" (.vector 18446744073709551615 .real))
  images := ImageTable.empty.insert "π" ⟨64, 48, true, none⟩

theorem ofText_text_isOk_iff_brink : (∀ n ∈ brink.expr.counts, n < UInt64.size) ∧
    brink.images.IsSorted ∧ (¬∀ x ∈ brink.floats, x.ReadsBack) ∧ ∃ g, ofText brink.text = .ok g :=
  have hcounts : ∀ n ∈ brink.expr.counts, n < UInt64.size := by decide +kernel
  have himages : brink.images.IsSorted := ImageTable.isSorted_empty.insert _ _
  ⟨hcounts, himages, by decide +kernel,
    (ofText_text_isOk_iff hcounts himages).2 ⟨by decide +kernel, by decide +kernel⟩⟩

/-- The text of a file with a double that is no number is not read, nor is that of a file with sums
nested too deeply. -/
theorem ofText_text_rejected :
    (¬∃ g, ofText (text { expr := .real .nan }) = .ok g) ∧
      ¬∃ g, ofText (text { expr := Nat.repeat .sum 126 .pixel }) = .ok g := by
  constructor
  · intro h
    have hread := ((exists_ofText_text_iff (by decide +kernel) ImageTable.isSorted_empty).1 h).1
    have hfinite := ((Expr.exists_read_toJson_iff _).1 hread).2 .nan (by decide)
    exact absurd hfinite (by decide +kernel)
  · intro h
    have hread := ((exists_ofText_text_iff (by decide +kernel) ImageTable.isSorted_empty).1 h).1
    exact absurd ((Expr.exists_read_toJson_iff _).1 hread).1 (by decide +kernel)

end ProgramFile
end ShaderAlgebra
