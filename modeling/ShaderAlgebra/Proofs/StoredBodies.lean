import ShaderAlgebra.Proofs.History
import ShaderAlgebra.Proofs.OperationTables

/-!
# What stands under a name

Definitions are looked up by their names, and a body that is there is never compared with the one that is
called for.  This is sound because the names tell all definitions apart: a name belongs to one shape, or to
one operation on one shape, among those that ever get a definition.

So whatever was called for before, and in whatever order, the body under a name is the one that fresh
definitions get from a single call for its shape or its operation (`Definitions.stored_body_is_fresh`).
`Operation.hasHelper_iff` says which operations on which shapes get a helper under their own name.
-/

namespace ShaderAlgebra

open Glsl (Term)

/-! ## The body under a key -/

/-- **The body under a key** is that of the item with this key. -/
theorem Catalog.find?_eq_some_iff (c : Catalog) {category : Category} {name : String} {body : Glsl.Declaration} :
    c.definitions.find? category name = some body ↔
      ∃ x ∈ c.items, x.category = category ∧ x.name = name ∧ x.body = body := by
  rw [c.distinct.find?_eq_some_iff]
  simp only [definitions, List.mem_map, Item.entry, Entry.mk.injEq]

/-! ## Which helpers are made -/

/-- What is a struct has real or complex entries. -/
theorem Shape.IsRecord.isField {s : Shape} (h : s.IsRecord) : s.kind.isField := by
  rcases h.cases with ⟨n, rfl, -⟩ | ⟨n, rfl, -⟩ | ⟨r, c, rfl, -⟩ | ⟨r, c, rfl, -⟩ <;> rfl

namespace Operation

variable {op : Operation} {s : Shape} {args : List Term}

/-- An operation that has a helper on a shape applies there, and relies on its helper. -/
theorem HasHelper.exists_applies (h : op.HasHelper s) (hargs : args.length = op.arity) :
    ∃ t items, Applies op s args t items ∧ Item.helper op s ∈ items := by
  have hpair (h2 : op.arity = 2) : ∃ a b, args = [a, b] := List.length_eq_two.1 (hargs.trans h2)
  cases op with
  | add =>
    obtain ⟨a, b, rfl⟩ := hpair rfl
    exact ⟨_, _, .add h.1 h.isField, by simp [Shape.helpers_of_record .add h, Entrywise.operation]⟩
  | sub =>
    obtain ⟨a, b, rfl⟩ := hpair rfl
    exact ⟨_, _, .sub h.1 h.isField, by simp [Shape.helpers_of_record .sub h, Entrywise.operation]⟩
  | scale =>
    obtain ⟨a, b, rfl⟩ := hpair rfl
    exact ⟨_, _, .scale h.1 h.isField, by simp [Shape.helpers_of_record .scale h, Entrywise.operation]⟩
  | matVec =>
    obtain ⟨m, v, rfl⟩ := hpair rfl
    obtain ⟨r, c, rfl, hn, -⟩ := HasHelper.matVec h
    exact ⟨_, _, .matVec h.1.1, by simp [Synth.matVecItems, hn]⟩
  | dot =>
    obtain ⟨a, b, rfl⟩ := hpair rfl
    obtain ⟨n, rfl, hn, -⟩ := HasHelper.dot h
    have hw : ¬ n ≤ maxNativeWidth := by simp [maxNativeWidth]; omega
    exact ⟨_, _, .dot h.1.1, by simp [Synth.dotItems, hw]⟩
  | sum =>
    obtain ⟨a, rfl⟩ := List.length_eq_one_iff.1 hargs
    obtain ⟨e, -, he, -⟩ := HasHelper.sum h
    refine ⟨_, _, .sum h.1.1 (Shape.kind_isField h.1.1 he) he, ?_⟩
    unfold sumItems
    split
    · cases h.2
    · exact List.mem_append_right _ (List.mem_singleton_self _)
  | complexMul =>
    obtain ⟨a, b, rfl⟩ := hpair rfl
    obtain rfl : s = .complex := h
    exact ⟨_, _, .complexMul, List.mem_singleton_self _⟩
  | complexScale =>
    obtain ⟨a, b, rfl⟩ := hpair rfl
    exact ⟨_, _, .complexScale h, List.mem_append_right _ (List.mem_singleton_self _)⟩
  | complexMatVec =>
    obtain ⟨m, v, rfl⟩ := hpair rfl
    obtain ⟨r, c, rfl, -⟩ := HasHelper.complexMatVec h
    exact ⟨_, _, .complexMatVec h.1.1, List.mem_append_right _ (List.mem_singleton_self _)⟩
  | complexDot =>
    obtain ⟨a, b, rfl⟩ := hpair rfl
    obtain ⟨n, rfl, -⟩ := HasHelper.complexDot h
    exact ⟨_, _, .complexDot h.1.1, List.mem_append_right _ (List.mem_singleton_self _)⟩

end Operation

/-- An operation that relies on a helper of its own has one on its shape. -/
theorem Applies.hasHelper {op : Operation} {s s' : Shape} {args : List Term} {t : Term} {items : List Item}
    (h : Applies op s args t items) (hx : Item.helper op s' ∈ items) : op.HasHelper s := by
  have hrecord (w : Entrywise) (hv : s.Valid) (hx : Item.helper op s' ∈ s.helpers w) : s.IsRecord := by
    cases hn : s.isNative with
    | true =>
      rw [Shape.helpers_of_native w hn] at hx
      cases hx
    | false => exact ⟨hv, hn⟩
  have hdot (n : Nat) (hv : (Shape.realVector n).Valid) (hx : Item.helper op s' ∈ Synth.dotItems n) :
      op = .dot ∧ ¬ n ≤ maxNativeWidth := by
    unfold Synth.dotItems at hx
    split at hx
    · cases hx
    · rename_i hw
      rcases List.mem_append.1 hx with hx | hx
      · exact absurd hx (Item.helper_not_mem_structs hv _ _)
      · cases List.mem_singleton.1 hx
        exact ⟨rfl, hw⟩
  cases h with
  | add hv hk => exact hrecord .add hv hx
  | sub hv hk => exact hrecord .sub hv hx
  | scale hv hk => exact hrecord .scale hv hx
  | matVec hv =>
    refine ⟨⟨hv, ?_⟩, rfl, rfl⟩
    unfold Synth.matVecItems at hx
    split at hx
    · cases hx
    · rename_i hn
      exact Bool.eq_false_iff.2 hn
  | dot hv =>
    refine ⟨⟨hv, Bool.eq_false_iff.2 fun hn => ?_⟩, rfl, rfl⟩
    exact (hdot _ hv hx).2 (Shape.realVector_isNative.1 hn)
  | sum hv hk he =>
    cases s with
    | scalar k => cases he
    | matrix r c k => exact ⟨⟨hv, .inr rfl⟩, rfl⟩
    | vector n k =>
      cases k with
      | bool | int => cases hk
      | complex => exact ⟨⟨hv, .inl rfl⟩, rfl⟩
      | real =>
        rcases List.mem_append.1 hx with hx | hx
        · exact absurd hx (Item.helper_not_mem_structs hv _ _)
        · cases (hdot n hv hx).1
  | complexMul => rfl
  | complexMultiple => cases List.mem_singleton.1 hx
  | complexScale h => exact h
  | complexMatVec hv => exact ⟨⟨hv, rfl⟩, rfl, rfl⟩
  | complexDot hv => exact ⟨⟨hv, rfl⟩, rfl, rfl⟩

/-- **Which helpers are made:** applied to fresh definitions, an operation leaves a function under
the name of its helper if and only if it has one on the shape. -/
theorem Operation.hasHelper_iff {op : Operation} {s : Shape} : op.HasHelper s ↔ ∃ args t d,
    (Build.apply op s args).run.run .empty = (.ok t, d) ∧ d.contains .function (op.helperName s) := by
  constructor
  · intro h
    obtain ⟨t, items, happ, hmem⟩ := h.exists_applies (List.length_replicate (a := Term.name "a"))
    obtain ⟨c, hrun, hitems⟩ := Build.settles_apply happ .empty
    exact ⟨_, t, _, hrun, (c.contains_iff (x := .helper op s) h).2 (hitems ▸ mem_enterAll.2 (.inr hmem))⟩
  · rintro ⟨args, t, d, hrun, hkey⟩
    obtain ⟨items, happ, hd⟩ := Build.hasHelpersOf_apply hrun
    obtain ⟨op', s', hmem, hname⟩ := (hd _).1 hkey
    obtain rfl : op' = op := by
      have h := ofHelperName_helperName op' s'
      rw [hname, ofHelperName_helperName] at h
      exact (Option.some.inj h).symm
    exact happ.hasHelper hmem

/-! ## Definitions that were reached -/

/-- Definitions as calls leave them, or as a session holds them after compilations. -/
inductive Definitions.Reached : Definitions → Prop where
  | calls (calls : List Build.Call) : Reached (after calls)
  | session (settings : Settings) (history : List ((String → Option Image) × Expr)) :
      Reached ((Session.start settings).after history).definitions

theorem Definitions.Reached.exists_catalog {d : Definitions} (h : d.Reached) :
    ∃ c : Catalog, d = c.definitions := by
  cases h with
  | calls calls => exact Definitions.exists_catalog calls
  | session settings history => exact ((Session.start_isOrdered settings).after history).2.1

/-! ## Fresh definitions -/

/-- On fresh definitions, a step enters the body of each of its items under the item's key. -/
theorem Build.Settles.find?_fresh {α : Type} {b : Build α} {result : Except Failure α} {items : List Item}
    (hb : Settles b result items) {x : Item} (hx : x ∈ items) :
    (b.run.run .empty).2.find? x.category x.name = some x.body := by
  obtain ⟨c, hrun, hitems⟩ := hb .empty
  rw [show (b.run.run .empty).2 = c.definitions from congrArg Prod.snd hrun]
  exact c.find?_eq_some_iff.2 ⟨x, hitems ▸ mem_enterAll.2 (.inr hx), rfl, rfl, rfl⟩

/-- The call for a struct enters its body under its name. -/
theorem Shape.IsRecord.find?_define {s : Shape} (h : s.IsRecord) :
    (Definitions.after [.define s]).find? .struct s.name = some (Item.struct s).body := by
  have hmem : Item.struct s ∈ s.structs := by
    rw [Shape.structs_of_record h]
    exact List.mem_append_right _ (List.mem_singleton_self _)
  exact (Build.settles_define h.1).find?_fresh hmem

/-- An operation enters the body of its helper under the helper's name, whatever the operands. -/
theorem Operation.HasHelper.find?_apply {op : Operation} {s : Shape} (h : op.HasHelper s) {args : List Term}
    (hargs : args.length = op.arity) :
    (Definitions.after [.apply op s args]).find? .function (op.helperName s) = some (Item.helper op s).body := by
  obtain ⟨t, items, happ, hmem⟩ := h.exists_applies hargs
  exact (Build.settles_apply happ).find?_fresh hmem

/-- **Names identify what they name.**  Two structs have two names; two helpers have two names; no
struct is named like a helper or like a type or function of GLSL.  Hence in all definitions that are ever reached,
the body under a name is the one that fresh definitions get from the call for the one shape, or the
one operation and shape, with this name. -/
theorem Definitions.stored_body_is_fresh :
    (∀ s t : Shape, s.IsRecord → t.IsRecord → s.name = t.name → s = t) ∧
    (∀ (op op' : Operation) (s s' : Shape), op.HasHelper s → op'.HasHelper s' →
      op.helperName s = op'.helperName s' → op = op' ∧ s = s') ∧
    (∀ s : Shape, s.IsRecord → s.name ∉ builtinNames ∧
      ∀ (op : Operation) (s' : Shape), op.HasHelper s' → s.name ≠ op.helperName s') ∧
    (∀ (op : Operation) (s : Shape), op.HasHelper s ↔ ∃ args t d,
      (Build.apply op s args).run.run .empty = (.ok t, d) ∧ d.contains .function (op.helperName s)) ∧
    ∀ d : Definitions, d.Reached →
      (∀ name body, d.find? .struct name = some body → ∃ s : Shape,
        (s.IsRecord ∧ s.name = name ∧ ∀ t : Shape, t.IsRecord → t.name = name → t = s) ∧
        (Definitions.after [.define s]).find? .struct name = some body) ∧
      (∀ name body, d.find? .function name = some body → ∃ (op : Operation) (s : Shape),
        (op.HasHelper s ∧ op.helperName s = name ∧
          ∀ (op' : Operation) (t : Shape), op'.HasHelper t → op'.helperName t = name → op' = op ∧ t = s) ∧
        ∀ args : List Term, args.length = op.arity →
          (Definitions.after [.apply op s args]).find? .function name = some body) := by
  refine ⟨fun s t hs ht => Shape.name_injective hs.isTitled ht.isTitled,
    fun op op' s s' h h' => Operation.helperName_injective h h', fun s hs => ⟨hs.name_not_builtin, ?_⟩,
    fun op s => Operation.hasHelper_iff, fun d hd => ?_⟩
  · intro op s' h hname
    cases Item.name_injective (x := .struct s) (y := .helper op s') hs h hname
  · obtain ⟨c, rfl⟩ := hd.exists_catalog
    constructor
    · intro name body hfind
      obtain ⟨x, hx, hcategory, rfl, rfl⟩ := c.find?_eq_some_iff.1 hfind
      cases x with
      | helper op s => cases hcategory
      | struct s =>
        have hs : s.IsRecord := c.closed.admissible _ hx
        exact ⟨s, ⟨hs, rfl, fun t ht hname => Shape.name_injective ht.isTitled hs.isTitled hname⟩,
          hs.find?_define⟩
    · intro name body hfind
      obtain ⟨x, hx, hcategory, rfl, rfl⟩ := c.find?_eq_some_iff.1 hfind
      cases x with
      | struct s => cases hcategory
      | helper op s =>
        have hs : op.HasHelper s := c.closed.admissible _ hx
        exact ⟨op, s, ⟨hs, rfl, fun op' t ht hname => Operation.helperName_injective ht hs hname⟩,
          fun args hargs => hs.find?_apply hargs⟩

/-- A sum of rows has entered the helper that adds two of them; a call for this addition would enter the same. -/
theorem Definitions.stored_body_is_fresh_rows : ∃ body,
    (after [.apply .sum (.matrix 2 3 .complex) [.name "m"]]).find? .function "addcvec3" = some body ∧
      (after [.apply .add (.vector 3 .complex) [.name "a", .name "b"]]).find? .function "addcvec3" = some body := by
  refine ⟨_, rfl, ?_⟩
  obtain ⟨-, -, -, -, hreached⟩ := stored_body_is_fresh
  obtain ⟨op, s, ⟨-, -, hunique⟩, hfresh⟩ := (hreached _ (.calls _)).2 "addcvec3" _
    (show (after [.apply .sum (.matrix 2 3 .complex) [.name "m"]]).find? .function "addcvec3" = some _ from rfl)
  obtain ⟨rfl, rfl⟩ := hunique .add (.vector 3 .complex) ⟨by decide, rfl⟩ rfl
  exact hfresh _ rfl

end ShaderAlgebra
