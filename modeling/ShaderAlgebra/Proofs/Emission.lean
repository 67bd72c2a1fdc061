import ShaderAlgebra.Proofs.Catalog

/-!
# What synthesis steps yield and enter

`Synth.Emits known m items a` says what a synthesis step does on any catalog that
holds `known`: it yields `a`, whatever else the catalog holds, and enters `items`
where they are missing, in order.  So the yield of a step does not depend on what was
synthesized before, and what it leaves behind is the union of what was there with
a fixed list of items.

Each step of `Synth` is given its term and its items here, once.  The rule for
`declare` is where the order of definitions pays off: if the key is present, so
are all items that making the body would enter.
-/

namespace ShaderAlgebra

open Glsl (Term Binder Declaration)

namespace Synth

variable {α β : Type} {known xs ys : List Item} {m : Synth α} {a : α}

/-- On a catalog that holds `known`, the step yields `a` and enters `items`. -/
def Emits (known : List Item) (m : Synth α) (items : List Item) (a : α) : Prop :=
  ∀ c : Catalog, known ⊆ c.items →
    ∃ c' : Catalog, m.run c.definitions = (a, c'.definitions) ∧ c'.items = enterAll c.items items

theorem emits_pure (known : List Item) (a : α) : Emits known (pure a) [] a := fun c _ =>
  ⟨c, rfl, rfl⟩

/-- **One step after another.**  The second may count on what the first has entered. -/
theorem Emits.bind {f : α → Synth β} {b : β} (hm : Emits known m xs a)
    (hf : Emits (known ++ xs) (f a) ys b) : Emits known (m >>= f) (xs ++ ys) b := by
  intro c hc
  obtain ⟨c₁, h₁, e₁⟩ := hm c hc
  have hc₁ : known ++ xs ⊆ c₁.items := by
    intro x hx
    rw [e₁, mem_enterAll]
    exact (List.mem_append.1 hx).imp (fun h => hc h) id
  obtain ⟨c₂, h₂, e₂⟩ := hf c₁ hc₁
  refine ⟨c₂, ?_, by rw [e₂, e₁, enterAll_append]⟩
  rw [StateT.run_bind, h₁]
  exact h₂

/-- A step that ends in a value made from its yield. -/
theorem Emits.map {f : α → β} (hm : Emits known m xs a) :
    Emits known (m >>= fun a => pure (f a)) xs (f a) := by
  have h := hm.bind (emits_pure (known ++ xs) (f a)) (f := fun a => pure (f a))
  rwa [List.append_nil] at h

/-- Items that are known or entered before need not be listed. -/
theorem Emits.absorb (hm : Emits known m (xs ++ ys) a) (h : ys ⊆ known ++ xs) :
    Emits known m xs a := by
  intro c hc
  obtain ⟨c', hr, he⟩ := hm c hc
  refine ⟨c', hr, ?_⟩
  rw [he, enterAll_append]
  refine enterAll_of_subset fun y hy => mem_enterAll.2 ?_
  exact (List.mem_append.1 (h hy)).imp (fun h => hc h) id

/-- A step that enters only what is known. -/
theorem Emits.of_known (hm : Emits known m xs a) (h : xs ⊆ known) : Emits known m [] a :=
  Emits.absorb hm fun _ hx => List.mem_append_left _ (h hx)

/-- A step that enters nothing, before another. -/
theorem Emits.before {f : α → Synth β} {b : β} (hm : Emits known m [] a)
    (hf : Emits known (f a) ys b) : Emits known (m >>= f) ys b := by
  have h : Emits known (m >>= f) ([] ++ ys) b := hm.bind (by rwa [List.append_nil])
  exact h

/-- **Four products** of the parts of two complex values.  The first enters what each of them calls. -/
theorem emits_products {p : String → String → Synth α} {t : String → String → α} {u v : String}
    (hp : ∀ known x y, Emits known (p x y) xs (t x y)) {f : α → α → α → α → Synth β} {b : β}
    (hf : Emits (known ++ xs) (f (t u "real") (t v "imag") (t u "imag") (t v "real")) ys b) :
    Emits known (do
      let ur ← p u "real"
      let vi ← p v "imag"
      let ui ← p u "imag"
      let vr ← p v "real"
      f ur vi ui vr) (xs ++ ys) b := by
  have hagain : ∀ x y, Emits (known ++ xs) (p x y) [] (t x y) := fun x y =>
    (hp _ x y).of_known (List.subset_append_right _ _)
  refine (hp known u "real").bind ?_
  refine (hagain v "imag").before ?_
  refine (hagain u "imag").before ?_
  exact (hagain v "real").before hf

/-- **A definition is made at most once.**  What making it enters is among its needs, and its other
needs are known. -/
theorem emits_declare {x : Item} (hx : x.Admissible) {make : Synth Declaration}
    (hm : Emits known make xs x.body) (hsub : xs ⊆ x.needs) (hsup : x.needs ⊆ known ++ xs) :
    Emits known (declare x.category x.name make) (xs ++ [x]) () := by
  intro c hc
  by_cases hin : x ∈ c.items
  · -- the key is present, so `make` is not run, and would enter nothing
    refine ⟨c, ?_, ?_⟩
    · simp only [declare, StateT.run_bind, StateT.run_get, pure_bind, (c.contains_iff hx).2 hin,
        if_true]
      rfl
    · refine (enterAll_of_subset fun y hy => ?_).symm
      rcases List.mem_append.1 hy with hy | hy
      · exact c.closed.needs_subset x hin (hsub hy)
      · exact List.mem_singleton.1 hy ▸ hin
  · have hno : c.definitions.contains x.category x.name = false := by
      rw [Bool.eq_false_iff]
      exact fun h => hin ((c.contains_iff hx).1 h)
    obtain ⟨c₁, hr, he⟩ := hm c hc
    -- the body is entered at a key that is still absent
    have hn : x ∉ c₁.items := by
      rw [he, mem_enterAll]
      rintro (h | h)
      · exact hin h
      · exact Item.not_mem_needs hx (hsub h)
    have hs : x.needs ⊆ c₁.items := by
      intro y hy
      rw [he, mem_enterAll]
      exact (List.mem_append.1 (hsup hy)).imp (fun h => hc h) id
    refine ⟨c₁.push x hx hn hs, ?_, ?_⟩
    · rw [Catalog.push_definitions]
      simp only [declare, StateT.run_bind, StateT.run_get, pure_bind, hno, Bool.false_eq_true,
        if_false, hr]
      rfl
    · rw [enterAll_append, ← he, enterAll, if_neg hn]
      rfl

/-- **The same step on every element of a list.**  Only the first enters anything. -/
theorem emits_mapM {γ : Type} {f : γ → Synth α} {g : γ → α} {l : List γ} (hl : l ≠ [])
    (h : ∀ k ∈ l, ∀ known, Emits known (f k) xs (g k)) : Emits known (l.mapM f) xs (l.map g) := by
  have all : ∀ l : List γ, (∀ k ∈ l, ∀ known, Emits known (f k) xs (g k)) → ∀ known,
      Emits known (l.mapM f) (l.flatMap fun _ => xs) (l.map g) := by
    intro l
    induction l with
    | nil => exact fun _ known => emits_pure known []
    | cons k l ih =>
      intro h known
      rw [List.mapM_cons]
      exact (h k List.mem_cons_self known).bind
        (ih (fun j hj => h j (List.mem_cons_of_mem _ hj)) _).map
  cases l with
  | nil => exact absurd rfl hl
  | cons k l =>
    refine Emits.absorb (all _ h known) fun y hy => ?_
    obtain ⟨-, -, hy⟩ := List.mem_flatMap.1 hy
    exact List.mem_append_right _ hy

end Synth

open Synth

/-! ## Structs and constants -/

theorem Shape.shape_storage {s : Shape} (h : s.Valid) : s.storage.shape = s := by
  cases hn : s.isNative with
  | true => rw [Shape.storage_of_native hn, Storage.shape]
  | false => rw [Shape.storage_of_record ⟨h, hn⟩, Storage.shape]

theorem emits_defineMembers (ms : List (String × Shape)) (hv : ∀ m ∈ ms, m.2.Valid)
    (ih : ∀ m ∈ ms, ∀ known, Emits known m.2.storage.define m.2.structs ()) (known : List Item) :
    Emits known (Storage.defineMembers (ms.map fun m => (m.1, m.2.storage)))
      (ms.flatMap fun m => m.2.structs) (ms.map fun m => ⟨m.2.name, m.1⟩) := by
  induction ms generalizing known with
  | nil => exact emits_pure known []
  | cons m ms ihm =>
    have hrest := ihm (fun n hn => hv n (List.mem_cons_of_mem _ hn))
      (fun n hn => ih n (List.mem_cons_of_mem _ hn)) (known ++ m.2.structs)
    rw [List.map_cons, Storage.defineMembers, Shape.shape_storage (hv m List.mem_cons_self)]
    exact (ih m List.mem_cons_self known).bind hrest.map

/-- **Defining a shape** enters its structs. -/
theorem emits_define {s : Shape} (h : s.Valid) :
    ∀ known, Emits known s.storage.define s.structs () := by
  induction s, h using Shape.inductionOn with
  | native s _ hn =>
    intro known
    rw [Shape.structs_of_native hn, Shape.storage_of_native hn, Storage.define]
    exact emits_pure known ()
  | record s hs ih =>
    intro known
    have hmake := (emits_defineMembers s.members (fun m hm => Shape.valid_of_mem_members hs hm) ih
      known).map (f := fun binders => Declaration.struct s.name binders)
    rw [Shape.structs_of_record hs, Shape.storage_of_record hs, Storage.define]
    exact emits_declare (x := .struct s) hs hmake (List.Subset.refl _) (List.subset_append_right _ _)

theorem emits_fillMembers (value : Term) (ms : List (String × Shape))
    (ih : ∀ m ∈ ms, ∀ known, Emits known (m.2.storage.fill value) m.2.structs (m.2.filled value))
    (known : List Item) :
    Emits known (Storage.fillMembers value (ms.map fun m => (m.1, m.2.storage)))
      (ms.flatMap fun m => m.2.structs) (ms.map fun m => m.2.filled value) := by
  induction ms generalizing known with
  | nil => exact emits_pure known []
  | cons m ms ihm =>
    have hrest := ihm (fun n hn => ih n (List.mem_cons_of_mem _ hn)) (known ++ m.2.structs)
    rw [List.map_cons, Storage.fillMembers]
    exact (ih m List.mem_cons_self known).bind hrest.map

/-- **A constant** enters the structs of its shape. -/
theorem emits_fill (value : Term) {s : Shape} (h : s.Valid) :
    ∀ known, Emits known (s.storage.fill value) s.structs (s.filled value) := by
  induction s, h using Shape.inductionOn with
  | native s _ hn =>
    intro known
    rw [Shape.structs_of_native hn, Shape.filled_of_native value hn, Shape.storage_of_native hn,
      Storage.fill]
    exact emits_pure known _
  | record s hs ih =>
    intro known
    have hdef := emits_define hs.1 known
    have hparts := (emits_fillMembers value s.members ih (known ++ s.structs)).map
      (f := fun parts => Term.apply s.name parts)
    have hstep : s.storage.fill value = (s.storage.define >>= fun _ =>
        Storage.fillMembers value (s.members.map fun m => (m.1, m.2.storage)) >>= fun parts =>
          pure (Term.apply s.name parts)) := by
      rw [Shape.storage_of_record hs, Storage.fill]
    rw [hstep, Shape.filled_of_record value hs]
    refine (hdef.bind hparts).absorb fun y hy => List.mem_append_right _ ?_
    rw [Shape.structs_of_record hs]
    exact List.mem_append_left _ hy

/-! ## Entrywise operations -/

namespace Entrywise

/-- The helper of an entrywise operation, as an item. -/
abbrev item (op : Entrywise) (s : Shape) : Item :=
  .helper op.operation s

theorem item_admissible (op : Entrywise) {s : Shape} (h : s.IsRecord) : (op.item s).Admissible := by
  cases op <;> exact h

theorem item_body (op : Entrywise) (s : Shape) : (op.item s).body = Item.entrywiseBody op s := by
  cases op <;> rfl

theorem item_needs (op : Entrywise) (s : Shape) :
    (op.item s).needs = s.structs ++ s.members.flatMap fun m => m.2.helpers op := by
  cases op <;> rfl

end Entrywise

theorem Shape.combined_of_native (op : Entrywise) {s : Shape} (h : s.isNative) (a b : Term) :
    s.combined op a b = .grouped op.operator a b := by
  rw [Shape.combined, if_pos h]

theorem Shape.combined_of_record (op : Entrywise) {s : Shape} (h : s.IsRecord) (a b : Term) :
    s.combined op a b = .apply (op.operation.helperName s) [a, b] := by
  rw [Shape.combined, if_neg (by simp [h.2])]

theorem emits_entrywiseMembers (op : Entrywise) (ms : List (String × Shape))
    (ih : ∀ m ∈ ms, ∀ known a b,
      Emits known (m.2.storage.entrywise op a b) (m.2.helpers op) (m.2.combined op a b))
    (known : List Item) :
    Emits known (Storage.entrywiseMembers op (ms.map fun m => (m.1, m.2.storage)))
      (ms.flatMap fun m => m.2.helpers op)
      (ms.map fun m => m.2.combined op (op.leftPart m.1) (.member (.name "b") m.1)) := by
  induction ms generalizing known with
  | nil => exact emits_pure known []
  | cons m ms ihm =>
    have hrest := ihm (fun n hn => ih n (List.mem_cons_of_mem _ hn)) (known ++ m.2.helpers op)
    rw [List.map_cons, Storage.entrywiseMembers]
    exact (ih m List.mem_cons_self known _ _).bind hrest.map

/-- **An entrywise operation** enters its helpers on the shape and on all members. -/
theorem emits_entrywise (op : Entrywise) {s : Shape} (h : s.Valid) : ∀ known a b,
    Emits known (s.storage.entrywise op a b) (s.helpers op) (s.combined op a b) := by
  induction s, h using Shape.inductionOn with
  | native s _ hn =>
    intro known a b
    rw [Shape.helpers_of_native op hn, Shape.combined_of_native op hn, Shape.storage_of_native hn,
      Storage.entrywise]
    exact emits_pure known _
  | record s hs ih =>
    intro known a b
    have hdef := emits_define hs.1 known
    have hmake := (emits_entrywiseMembers op s.members ih (known ++ s.structs)).map
      (f := fun parts => Declaration.function s.name (op.operation.helperName s)
        [⟨op.leftType s, "a"⟩, ⟨s.name, "b"⟩] (.expression (.apply s.name parts)))
    rw [← Item.entrywiseBody, ← op.item_body] at hmake
    have hsub : (s.members.flatMap fun m => m.2.helpers op) ⊆ (op.item s).needs := by
      rw [op.item_needs s]
      exact List.subset_append_right _ _
    have hsup : (op.item s).needs ⊆
        known ++ s.structs ++ s.members.flatMap fun m => m.2.helpers op := by
      rw [op.item_needs s, List.append_assoc]
      exact List.subset_append_right _ _
    have hdecl := emits_declare (op.item_admissible hs) hmake hsub hsup
    have hstep : s.storage.entrywise op a b = (s.storage.define >>= fun _ =>
        declare .function (op.operation.helperName s)
          (Storage.entrywiseMembers op (s.members.map fun m => (m.1, m.2.storage)) >>= fun parts =>
            pure (Declaration.function s.name (op.operation.helperName s)
              [⟨op.leftType s, "a"⟩, ⟨s.name, "b"⟩] (.expression (.apply s.name parts)))) >>= fun _ =>
        pure (Term.apply (op.operation.helperName s) [a, b])) := by
      rw [Shape.storage_of_record hs, Storage.entrywise]
    rw [hstep, Shape.helpers_of_record op hs, Shape.combined_of_record op hs, List.append_assoc]
    exact hdef.bind hdecl.map

/-! ## Products and sums -/

theorem realVector_isRecord {n : Nat} (h : 1 ≤ n ∧ n ≤ maxDimension) (hw : ¬ n ≤ maxNativeWidth) :
    (Shape.realVector n).IsRecord :=
  ⟨Shape.realVector_valid h, by simpa [Shape.isNative] using hw⟩

/-- **A dot product** enters the helper of its width. -/
theorem emits_dot {n : Nat} (h : 1 ≤ n ∧ n ≤ maxDimension) (a b : Term) (known : List Item) :
    Emits known (dot n a b) (dotItems n) (dotTerm n a b) := by
  unfold dot dotItems dotTerm
  by_cases hw : n ≤ maxNativeWidth
  · simp only [if_pos hw]
    exact emits_pure known _
  · simp only [if_neg hw]
    have hs := realVector_isRecord h hw
    have hbody : (Item.helper .dot (.realVector n)).body = .function Shape.real.name
        (Operation.dot.helperName (.realVector n))
        [⟨(Shape.realVector n).name, "a"⟩, ⟨(Shape.realVector n).name, "b"⟩]
        (.expression (Term.total ((Shape.realVector n).storage.members.map fun field =>
          .apply "dot" [.member (.name "a") field.1, .member (.name "b") field.1]))) := by
      rw [Item.body, Item.dotBody, Shape.storage_of_record hs, Storage.members, List.map_map]
      rfl
    have hmake := emits_pure (known ++ (Shape.realVector n).structs)
      (Item.helper .dot (.realVector n)).body
    have hdecl := emits_declare (x := .helper .dot (.realVector n)) ⟨hs, rfl, rfl⟩ hmake
      (List.nil_subset _) (fun y hy => List.mem_append_left _ (List.mem_append_right _ hy))
    rw [hbody] at hdecl
    exact (emits_define hs.1 known).bind hdecl.map

/-- **A real vector of its components** enters its struct. -/
theorem emits_realVector {n : Nat} (h : 1 ≤ n ∧ n ≤ maxDimension) (args : List Term)
    (known : List Item) :
    Emits known (realVector n args) (Shape.realVector n).structs (realVectorTerm n args) := by
  unfold realVector realVectorTerm
  by_cases hw : n ≤ maxNativeWidth
  · simp only [if_pos hw]
    rw [Shape.structs_of_native (Shape.realVector_isNative.2 hw)]
    exact emits_pure known _
  · simp only [if_neg hw]
    exact (emits_define (Shape.realVector_valid h) known).map

/-- **A real matrix of its rows** enters its struct. -/
theorem emits_realMatrix {r c : Nat} (hr : 1 ≤ r ∧ r ≤ maxDimension) (hc : 1 ≤ c ∧ c ≤ maxDimension)
    (rows : List Term) (known : List Item) :
    Emits known (realMatrix r c rows) (Shape.matrix r c .real).structs (realMatrixTerm r c rows) := by
  unfold realMatrix realMatrixTerm
  by_cases hn : (Shape.matrix r c .real).isNative
  · simp only [if_pos hn]
    rw [Shape.structs_of_native hn]
    exact emits_pure known _
  · simp only [if_neg hn]
    exact (emits_define (Shape.realMatrix_valid hr hc) known).map

/-- What constructing a value enters besides the struct of the shape is among the structs of the
shape. -/
theorem structs_part_subset {s : Shape} (h : s.IsRecord) (hk : s.kind = .complex) :
    s.part.structs ⊆ s.structs := by
  intro y hy
  rw [Shape.structs_of_record h, List.mem_append, List.mem_flatMap]
  refine .inl ⟨("real", s.part), ?_, hy⟩
  rcases h.cases with ⟨n, rfl, -⟩ | ⟨n, rfl, -⟩ | ⟨r, c, rfl, -⟩ | ⟨r, c, rfl, -⟩
  · cases hk
  · exact List.mem_cons_self
  · cases hk
  · exact List.mem_cons_self

/-- **A value of its elements** enters the structs of its shape. -/
theorem emits_construct {s : Shape} (h : s.Valid) (args : List Term) (known : List Item) :
    Emits known (construct s args) s.structs (constructTerm s args) := by
  cases s with
  | scalar k => exact emits_pure known _
  | vector n k =>
    cases k with
    | bool | int => simp [Shape.Valid, Scalar.isField] at h
    | real => exact emits_realVector h.1 args known
    | complex =>
      have hs : (Shape.vector n .complex).IsRecord := ⟨h, rfl⟩
      have hparts := (emits_realVector h.1 (args.map (Term.part · "x"))
        (known ++ (Shape.vector n .complex).structs)).bind
        (emits_realVector h.1 (args.map (Term.part · "y")) _).map
        (f := fun re => realVector n (args.map (Term.part · "y")) >>= fun im =>
          pure (Term.apply (Shape.vector n .complex).name [re, im]))
      refine ((emits_define h known).bind hparts).absorb fun y hy => List.mem_append_right _ ?_
      exact structs_part_subset hs rfl ((List.mem_append.1 hy).elim id id)
  | matrix r c k =>
    cases k with
    | bool | int => simp [Shape.Valid, Scalar.isField] at h
    | real => exact emits_realMatrix h.1 h.2.1 args known
    | complex =>
      have hs : (Shape.matrix r c .complex).IsRecord := ⟨h, rfl⟩
      have hparts := (emits_realMatrix h.1 h.2.1 (args.map (Term.part · "real"))
        (known ++ (Shape.matrix r c .complex).structs)).bind
        (emits_realMatrix h.1 h.2.1 (args.map (Term.part · "imag")) _).map
        (f := fun re => realMatrix r c (args.map (Term.part · "imag")) >>= fun im =>
          pure (Term.apply (Shape.matrix r c .complex).name [re, im]))
      refine ((emits_define h known).bind hparts).absorb fun y hy => List.mem_append_right _ ?_
      exact structs_part_subset hs rfl ((List.mem_append.1 hy).elim id id)

/-- The elements of a valid shape have a valid shape. -/
theorem Shape.valid_of_element? {s e : Shape} (h : s.Valid) (he : s.element? = some e) : e.Valid := by
  cases s with
  | scalar k => cases he
  | vector n k =>
    cases he
    trivial
  | matrix r c k =>
    cases he
    exact h.2

theorem elementItems_of_complex {s e : Shape} (hk : s.kind = .complex) (he : s.element? = some e) :
    elementItems s = e.structs := by
  simp only [elementItems, hk, he]

theorem elementTerm_of_complex {s e : Shape} (hk : s.kind = .complex) (he : s.element? = some e)
    (i : Nat) (base : Term) : elementTerm s i base = .apply e.name
      [realElement s.part i (base.part "real"), realElement s.part i (base.part "imag")] := by
  simp only [elementTerm, hk, he]

theorem elementItems_of_real {s : Shape} (hk : s.kind ≠ .complex) : elementItems s = [] := by
  unfold elementItems
  split
  · rename_i hc _
    exact absurd hc hk
  · rfl

theorem elementTerm_of_real {s : Shape} (hk : s.kind ≠ .complex) (i : Nat) (base : Term) :
    elementTerm s i base = realElement s i base := by
  unfold elementTerm
  split
  · rename_i hc _
    exact absurd hc hk
  · rfl

/-- **Taking an element** enters the struct of the element, if the numbers are complex. -/
theorem emits_element {s e : Shape} (h : s.Valid) (he : s.element? = some e) (i : Nat)
    (known : List Item) : Emits known (element s i) (elementItems s) (elementTerm s i) := by
  by_cases hk : s.kind = .complex
  · have hstep : element s i = (e.storage.define >>= fun _ => pure (elementTerm s i)) := by
      simp only [element, hk, he]
      congr 1
      funext _
      congr 1
      funext base
      exact (elementTerm_of_complex hk he i base).symm
    rw [hstep, elementItems_of_complex hk he]
    exact (emits_define (Shape.valid_of_element? h he) known).map
  · have hstep : element s i = pure (elementTerm s i) := by
      unfold element
      split
      · rename_i hc _
        exact absurd hc hk
      · congr 1
        funext base
        exact (elementTerm_of_real hk i base).symm
    rw [hstep, elementItems_of_real hk]
    exact emits_pure known _

/-- **A matrix product** enters its helper, with the dot product of its rows. -/
theorem emits_matVec {r c : Nat} (hr : 1 ≤ r ∧ r ≤ maxDimension) (hc : 1 ≤ c ∧ c ≤ maxDimension)
    (m v : Term) (known : List Item) :
    Emits known (matVec r c m v) (matVecItems r c) (matVecTerm r c m v) := by
  unfold matVec matVecItems matVecTerm
  by_cases hn : (Shape.matrix r c .real).isNative
  · simp only [if_pos hn]
    exact emits_pure known _
  · simp only [if_neg hn]
    have hs : (Shape.matrix r c .real).IsRecord :=
      ⟨Shape.realMatrix_valid hr hc, Bool.eq_false_iff.2 hn⟩
    let outer := known ++ (Shape.matrix r c .real).structs ++ (Shape.realVector c).structs ++
      (Shape.realVector r).structs
    have hdots : Emits outer ((List.range r).mapM fun k =>
        dot c (.member (.name "a") s!"a{k}") (.name "b")) (dotItems c)
        ((List.range r).map fun k => dotTerm c (.member (.name "a") s!"a{k}") (.name "b")) :=
      emits_mapM (by simp; omega) fun k _ known => emits_dot hc _ _ known
    -- the struct of the result is known when the components are put together
    have hmake := (hdots.bind ((emits_realVector hr _ (outer ++ dotItems c)).map
      (f := fun result => Declaration.function (Shape.realVector r).name
        (Operation.matVec.helperName (.matrix r c .real))
        [⟨(Shape.matrix r c .real).name, "a"⟩, ⟨(Shape.realVector c).name, "b"⟩]
        (.expression result)))
      (f := fun products => realVector r products >>= fun result =>
        pure (Declaration.function (Shape.realVector r).name
          (Operation.matVec.helperName (.matrix r c .real))
          [⟨(Shape.matrix r c .real).name, "a"⟩, ⟨(Shape.realVector c).name, "b"⟩]
          (.expression result)))).absorb fun y hy =>
        List.mem_append_left _ (List.mem_append_right _ hy)
    have hdecl := emits_declare (x := .helper .matVec (.matrix r c .real)) ⟨hs, rfl, rfl⟩ hmake
      (List.subset_append_right _ _)
      (by simp only [Item.needs, Operation.dimensions, outer, List.append_assoc]
          exact List.subset_append_right _ _)
    rw [List.append_assoc, List.append_assoc, List.append_assoc]
    refine (emits_define hs.1 known).bind ?_
    refine (emits_define (Shape.realVector_valid hc) _).bind ?_
    refine (emits_define (Shape.realVector_valid hr) _).bind ?_
    exact hdecl.map

/-- The lines that add up elements: each takes an element and adds it. -/
theorem emits_accumulate {s e : Shape} (h : s.Valid) (he : s.element? = some e) {known : List Item}
    (hk : elementItems s ⊆ known) (n : Nat) :
    Emits known (accumulate s e n) ((List.range n).flatMap fun _ => e.helpers .add)
      ((List.range n).map (Item.sumLine s e)) := by
  induction n with
  | zero => exact emits_pure known []
  | succ n ih =>
    have hitem : Emits (known ++ (List.range n).flatMap fun _ => e.helpers .add) (element s n) []
        (elementTerm s n) :=
      (emits_element h he n _).of_known (List.subset_append_of_subset_left _ hk)
    have hadd := (emits_entrywise .add (Shape.valid_of_element? h he)
      (known ++ (List.range n).flatMap fun _ => e.helpers .add) (.name "res")
      (elementTerm s n (.name "a"))).map
      (f := fun total => (List.range n).map (Item.sumLine s e) ++ [[Glsl.Statement.assign "res" total]])
    rw [List.range_succ, List.map_append, List.flatMap_append, List.flatMap_singleton,
      List.map_singleton]
    exact ih.bind (hitem.before hadd)

/-- A sum that is not a dot product with ones enters its helper. -/
theorem emits_sumHelper {s e : Shape} {n : Nat} (h : Operation.sum.HasHelper s) (he : s.element? = some e)
    (hn : s.length? = some n) (a : Term) (known : List Item) :
    Emits known (sum s e n a)
      (s.structs ++ e.structs ++ e.helpers .add ++ [Item.helper .sum s])
      (.apply (Operation.sum.helperName s) [a]) := by
  obtain ⟨e', n', he', hn', hev, hpos⟩ := h.sum
  obtain rfl : e' = e := Option.some.inj (he'.symm.trans he)
  obtain rfl : n' = n := Option.some.inj (hn'.symm.trans hn)
  have hs := h.1.1
  unfold sum
  rw [if_neg (by simp [h.2])]
  let outer := known ++ s.structs ++ e'.structs
  have hzero : Emits outer (e'.storage.fill (.literal .zero)) [] (e'.filled (.literal .zero)) :=
    (emits_fill _ hev outer).of_known (List.subset_append_right _ _)
  have hknown : elementItems s ⊆ outer := by
    by_cases hk : s.kind = .complex
    · rw [elementItems_of_complex hk he]
      exact List.subset_append_right _ _
    · rw [elementItems_of_real hk]
      exact List.nil_subset _
  have hlines : Emits outer (accumulate s e' n') (e'.helpers .add)
      ((List.range n').map (Item.sumLine s e')) := by
    have hall := emits_accumulate hs he hknown n'
    obtain ⟨k, rfl⟩ : ∃ k, n' = k + 1 := ⟨n' - 1, by omega⟩
    rw [List.range_succ_eq_map, List.flatMap_cons] at hall
    rw [List.range_succ_eq_map]
    refine hall.absorb fun y hy => ?_
    obtain ⟨-, -, hy⟩ := List.mem_flatMap.1 hy
    exact List.mem_append_right _ hy
  have hmake := hzero.before (hlines.map (f := fun lines => Declaration.function e'.name
      (Operation.sum.helperName s) [⟨s.name, "a"⟩]
      (.block ([.define e'.name "res" (e'.filled (.literal .zero))] :: lines ++
        [[.yield (.name "res")]]))))
    (f := fun zero => accumulate s e' n' >>= fun lines => pure (Declaration.function e'.name
      (Operation.sum.helperName s) [⟨s.name, "a"⟩]
      (.block ([.define e'.name "res" zero] :: lines ++ [[.yield (.name "res")]]))))
  have hbody : (Item.helper .sum s).body = Item.sumBody s e' n' := by
    simp only [Item.body, he, hn, Option.getD_some]
  have hneeds : (Item.helper .sum s).needs = s.structs ++ e'.structs ++ e'.helpers .add := by
    simp only [Item.needs, he, Option.getD_some]
  rw [← Item.sumBody, ← hbody] at hmake
  have hdecl := emits_declare (x := .helper .sum s) h hmake
    (by rw [hneeds]; exact List.subset_append_right _ _)
    (by rw [hneeds]
        simp only [outer, List.append_assoc]
        exact List.subset_append_right _ _)
  rw [List.append_assoc, List.append_assoc]
  refine (emits_define hs known).bind ?_
  refine (emits_define hev _).bind ?_
  exact hdecl.map

/-- What a sum enters: the helper of a dot product, or its own. -/
def sumItems : Shape → List Item
  | .vector n .real => (Shape.realVector n).structs ++ dotItems n
  | s => (Item.helper .sum s).needs ++ [.helper .sum s]

/-- The term of a sum; that of a real vector is its dot product with ones. -/
def sumTerm (s : Shape) (a : Term) : Term :=
  match s with
  | .vector n .real => dotTerm n a ((Shape.realVector n).filled (.literal .one))
  | s => .apply (Operation.sum.helperName s) [a]

/-- **A sum** enters the helper that it calls. -/
theorem emits_sum {s e : Shape} {n : Nat} (h : s.Valid) (he : s.element? = some e)
    (hn : s.length? = some n) (a : Term) (known : List Item) :
    Emits known (sum s e n a) (sumItems s) (sumTerm s a) := by
  by_cases hr : s.isRealVector
  · cases s with
    | scalar k | matrix r c k => simp [Shape.isRealVector] at hr
    | vector m k =>
      cases k with
      | bool | int | complex => simp [Shape.isRealVector] at hr
      | real =>
        obtain rfl : m = n := Option.some.inj hn
        exact (emits_fill _ h known).bind (emits_dot h.1 a _ _)
  · have hr' : s.isRealVector = false := Bool.eq_false_iff.2 hr
    have ht : s.IsTitled := by
      refine ⟨h, ?_⟩
      cases s with
      | scalar k => cases he
      | vector m k => cases k <;> simp_all [Shape.isRealVector, Shape.isNative]
      | matrix r c k => exact .inr rfl
    have hi : sumItems s = s.structs ++ e.structs ++ e.helpers .add ++ [Item.helper .sum s] := by
      unfold sumItems
      split
      · simp [Shape.isRealVector] at hr
      · simp only [Item.needs, he, Option.getD_some]
    have hterm : sumTerm s a = .apply (Operation.sum.helperName s) [a] := by
      unfold sumTerm
      split
      · simp [Shape.isRealVector] at hr
      · rfl
    rw [hi, hterm]
    exact emits_sumHelper ⟨ht, hr'⟩ he hn a known

/-- **A product of complex scalars** enters its helper. -/
theorem emits_complexMul (a b : Term) (known : List Item) :
    Emits known (complexMul a b) [.helper .complexMul .complex]
      (.apply (Operation.complexMul.helperName .complex) [a, b]) := by
  have hmake := emits_pure known Item.complexMulBody
  have hdecl := emits_declare (x := .helper .complexMul .complex) rfl hmake (List.nil_subset _)
    (List.nil_subset _)
  exact hdecl.map

/-- **A complex multiple** enters its helper, with the multiples, the difference and the sum of the
real parts. -/
theorem emits_complexScale {s : Shape} (h : Operation.complexScale.HasHelper s) (a b : Term)
    (known : List Item) :
    Emits known (complexScale s a b)
      (s.structs ++ s.part.helpers .scale ++ s.part.helpers .sub ++ s.part.helpers .add ++
        [Item.helper .complexScale s])
      (.apply (Operation.complexScale.helperName s) [a, b]) := by
  have hp := h.complexScale.1
  let outer := known ++ s.structs
  have hmake : Emits outer (do
      let xr ← s.part.storage.entrywise .scale (.member (.name "a") "x") (.member (.name "b") "real")
      let yi ← s.part.storage.entrywise .scale (.member (.name "a") "y") (.member (.name "b") "imag")
      let xi ← s.part.storage.entrywise .scale (.member (.name "a") "x") (.member (.name "b") "imag")
      let yr ← s.part.storage.entrywise .scale (.member (.name "a") "y") (.member (.name "b") "real")
      let re ← s.part.storage.entrywise .sub xr yi
      let im ← s.part.storage.entrywise .add xi yr
      return .function s.name (Operation.complexScale.helperName s) [⟨"vec2", "a"⟩, ⟨s.name, "b"⟩]
        (.expression (.apply s.name [re, im])))
      (s.part.helpers .scale ++ (s.part.helpers .sub ++ s.part.helpers .add))
      (Item.helper .complexScale s).body := by
    refine emits_products (fun known x y => emits_entrywise .scale hp known (.member (.name "a") x)
      (.member (.name "b") y)) ?_
    refine (emits_entrywise .sub hp _ _ _).bind ?_
    exact (emits_entrywise .add hp _ _ _).map
  have hdecl := emits_declare (x := .helper .complexScale s) h hmake
    (by simp only [Item.needs, List.append_assoc]
        exact List.subset_append_right _ _)
    (by simp only [Item.needs, outer, List.append_assoc]
        exact List.subset_append_right _ _)
  have hgoal : Emits known (complexScale s a b) (s.structs ++
      (s.part.helpers .scale ++ (s.part.helpers .sub ++ s.part.helpers .add) ++
        [Item.helper .complexScale s])) (.apply (Operation.complexScale.helperName s) [a, b]) :=
    (emits_define h.1.1 known).bind hdecl.map
  simpa only [List.append_assoc] using hgoal

/-- **A complex matrix product** enters its helper, with the real matrix product. -/
theorem emits_complexMatVec {r c : Nat} (hr : 1 ≤ r ∧ r ≤ maxDimension)
    (hc : 1 ≤ c ∧ c ≤ maxDimension) (m v : Term) (known : List Item) :
    Emits known (complexMatVec r c m v)
      ((Item.helper .complexMatVec (.matrix r c .complex)).needs ++
        [Item.helper .complexMatVec (.matrix r c .complex)])
      (.apply (Operation.complexMatVec.helperName (.matrix r c .complex)) [m, v]) := by
  have hv : (Shape.matrix r c .complex).Valid := ⟨hr, hc, rfl⟩
  have hp := Shape.realVector_valid hr
  let outer := known ++ (Shape.matrix r c .complex).structs ++ (Shape.vector c .complex).structs ++
    (Shape.vector r .complex).structs
  have hmake : Emits outer (do
      let rr ← matVec r c (.member (.name "a") "real") (.member (.name "b") "real")
      let ii ← matVec r c (.member (.name "a") "imag") (.member (.name "b") "imag")
      let ri ← matVec r c (.member (.name "a") "real") (.member (.name "b") "imag")
      let ir ← matVec r c (.member (.name "a") "imag") (.member (.name "b") "real")
      let re ← (Shape.realVector r).storage.entrywise .sub rr ii
      let im ← (Shape.realVector r).storage.entrywise .add ri ir
      return .function (Shape.vector r .complex).name
        (Operation.complexMatVec.helperName (.matrix r c .complex))
        [⟨(Shape.matrix r c .complex).name, "a"⟩, ⟨(Shape.vector c .complex).name, "b"⟩]
        (.expression (.apply (Shape.vector r .complex).name [re, im])))
      (matVecItems r c ++ ((Shape.realVector r).helpers .sub ++ (Shape.realVector r).helpers .add))
      (Item.helper .complexMatVec (.matrix r c .complex)).body := by
    refine emits_products (fun known x y => emits_matVec hr hc (.member (.name "a") x)
      (.member (.name "b") y) known) ?_
    refine (emits_entrywise .sub hp _ _ _).bind ?_
    exact (emits_entrywise .add hp _ _ _).map
  have hdecl := emits_declare (x := .helper .complexMatVec (.matrix r c .complex))
    ⟨⟨hv, rfl⟩, rfl, rfl⟩ hmake
    (by simp only [Item.needs, Operation.dimensions, List.append_assoc]
        exact fun y hy => List.mem_append_right _ (List.mem_append_right _ (List.mem_append_right _ hy)))
    (by simp only [Item.needs, Operation.dimensions, outer, List.append_assoc]
        exact List.subset_append_right _ _)
  simp only [Item.needs, Operation.dimensions, List.append_assoc] at hdecl ⊢
  refine (emits_define hv known).bind ?_
  refine (emits_define (Shape.complexVector_valid hc) _).bind ?_
  refine (emits_define (Shape.complexVector_valid hr) _).bind ?_
  exact hdecl.map

/-- **A complex dot product** enters its helper, with the real dot product. -/
theorem emits_complexDot {n : Nat} (h : 1 ≤ n ∧ n ≤ maxDimension) (a b : Term) (known : List Item) :
    Emits known (complexDot n a b)
      ((Shape.vector n .complex).structs ++ dotItems n ++ [Item.helper .complexDot (.vector n .complex)])
      (.apply (Operation.complexDot.helperName (.vector n .complex)) [a, b]) := by
  have hv := Shape.complexVector_valid h
  let outer := known ++ (Shape.vector n .complex).structs
  have hmake : Emits outer (do
      let rr ← dot n (.member (.name "a") "real") (.member (.name "b") "real")
      let ii ← dot n (.member (.name "a") "imag") (.member (.name "b") "imag")
      let ri ← dot n (.member (.name "a") "real") (.member (.name "b") "imag")
      let ir ← dot n (.member (.name "a") "imag") (.member (.name "b") "real")
      return .function "vec2" (Operation.complexDot.helperName (.vector n .complex))
        [⟨(Shape.vector n .complex).name, "a"⟩, ⟨(Shape.vector n .complex).name, "b"⟩]
        (.expression (.call .loose "vec2"
          [.binary .tight .minus rr ii, .binary .tight .plus ri ir])))
      (dotItems n ++ []) (Item.helper .complexDot (.vector n .complex)).body :=
    emits_products (fun known x y => emits_dot h (.member (.name "a") x) (.member (.name "b") y) known)
      (emits_pure _ _)
  rw [List.append_nil] at hmake
  have hdecl := emits_declare (x := .helper .complexDot (.vector n .complex))
    ⟨⟨hv, rfl⟩, rfl, rfl⟩ hmake (List.subset_append_right _ _)
    (by simp only [Item.needs, Operation.dimensions, outer, List.append_assoc]
        exact List.subset_append_right _ _)
  rw [List.append_assoc]
  exact (emits_define hv known).bind hdecl.map

end ShaderAlgebra
