import ShaderAlgebra.Proofs.Compilation

/-!
# Sessions and their history

What a session has compiled before, and what failed on the way, does not show in
the outcome of a later compilation (`Session.compile_after`).  And what it holds in the end does not
depend on the order of the compilations: it is the union of what each of them
would have left in a session of its own (`Session.gather_perm`).

Both come from one fact about a single compilation: it comes to an `Outcome`
that does not depend on the definitions and texture readers of the session.
-/

namespace ShaderAlgebra

namespace Session

/-- The session after compilations in order, each with the images that are there at its time. -/
def after (s : Session) (calls : List ((String → Option Image) × Expr)) : Session :=
  calls.foldl (fun s call => (s.compile call.1 call.2).2) s

/-- The session after compilations in order, with the same images throughout. -/
def gather (settings : Settings) (images : String → Option Image) (es : List Expr) : Session :=
  (start settings).after (es.map fun e => (images, e))

/-- The program that an outcome gives in a session. -/
def program (s : Session) (t : Typed) : Program where
  definitions := s.definitions
  textures := s.textures
  expression := t.term
  shape := t.shape
  uniforms := s.uniforms
  diagnostics := s.diagnostics
  settings := s.settings

/-- **A compilation takes its outcome to the session.** -/
theorem compile_eq {settings : Settings} {images : String → Option Image} {e : Expr}
    {o : Outcome Typed} (h : Compile.Ends images settings (Compile.node images e) [] [] o)
    (c : Catalog) (t : Textures) (uniforms : List (String × Shape)) (diagnostics : List Diagnostic) :
    ∃ c' : Catalog, c'.items = enterAll c.items o.items ∧
      compile ⟨settings, c.definitions, t, uniforms, diagnostics⟩ images e =
        (o.result.map (program ⟨settings, c'.definitions, t.keepAll images o.readers, o.uniforms,
            o.diagnostics⟩),
          ⟨settings, c'.definitions, t.keepAll images o.readers, o.uniforms, o.diagnostics⟩) := by
  obtain ⟨c', he, hr⟩ := h c t
  refine ⟨c', he, ?_⟩
  simp only [compile, hr]
  rfl

/-- **Every compilation has an outcome.**  If it succeeds, the expression is translated in the
context of what it enters. -/
theorem exists_outcome (images : String → Option Image) (settings : Settings) (e : Expr) :
    ∃ o, Compile.Ends images settings (Compile.node images e) [] [] o ∧
      Supported o.items o.uniforms ∧ ∀ t, o.result = .ok t →
        Translates ⟨images, settings.viewport, o.items, o.uniforms, o.readers⟩ e t := by
  have hmeets : Compile.Meets images settings _ _ := Compile.meets_node e
  obtain ⟨o, ho, -, hpost⟩ := hmeets [] []
  exact ⟨o, ho, hpost [] [] fun _ h => nomatch h⟩

/-- A session with these settings, whose definitions are a catalog and whose textures are
readers. -/
def IsOrdered (settings : Settings) (s : Session) : Prop :=
  s.settings = settings ∧ (∃ c : Catalog, s.definitions = c.definitions) ∧
    ∃ names, s.textures.Shows settings.version names

theorem start_isOrdered (settings : Settings) : (start settings).IsOrdered settings :=
  ⟨rfl, ⟨.empty, rfl⟩, [], Textures.empty_shows _⟩

/-- A compilation keeps a session in order, also if it fails midway. -/
theorem IsOrdered.compile {settings : Settings} {s : Session} (h : s.IsOrdered settings)
    (images : String → Option Image) (e : Expr) : (s.compile images e).2.IsOrdered settings := by
  obtain ⟨settings, definitions, t, uniforms, diagnostics⟩ := s
  obtain ⟨rfl, ⟨c, rfl⟩, names, hnames⟩ := h
  obtain ⟨o, ho, -⟩ := exists_outcome images settings e
  obtain ⟨c', -, hc⟩ := compile_eq ho c t uniforms diagnostics
  obtain ⟨names', hnames', -⟩ := Textures.Shows.keepAll images o.readers hnames
  rw [hc]
  exact ⟨rfl, ⟨c', rfl⟩, names', hnames'⟩

/-- **A session is in order,** whatever its history. -/
theorem IsOrdered.after {settings : Settings} (calls : List ((String → Option Image) × Expr))
    {s : Session} (h : s.IsOrdered settings) : (s.after calls).IsOrdered settings := by
  induction calls generalizing s with
  | nil => exact h
  | cons call calls ih => exact ih (h.compile call.1 call.2)

/-- A compilation makes readers for identifiers only, and a program has the readers of its session. -/
theorem IsOrdered.named {settings : Settings} {s : Session} (h : s.IsOrdered settings)
    (hn : s.textures.Named) (images : String → Option Image) (e : Expr) :
    (s.compile images e).2.textures.Named ∧
      ∀ p, (s.compile images e).1 = .ok p → p.textures.Named := by
  obtain ⟨settings, definitions, t, uniforms, diagnostics⟩ := s
  obtain ⟨rfl, ⟨c, rfl⟩, -⟩ := h
  obtain ⟨o, ho, -⟩ := exists_outcome images settings e
  obtain ⟨c', -, hc⟩ := compile_eq ho c t uniforms diagnostics
  have hkeep := hn.keepAll images o.readers
  rw [hc]
  refine ⟨hkeep, fun p hp => ?_⟩
  cases hr : o.result with
  | error failure =>
    rw [hr] at hp
    cases hp
  | ok t =>
    rw [hr] at hp
    injection hp with hp
    rw [← hp]
    exact hkeep

/-- **The readers of a session are those of identifiers,** whatever its history. -/
theorem IsOrdered.named_after {settings : Settings} (calls : List ((String → Option Image) × Expr))
    {s : Session} (h : s.IsOrdered settings) (hn : s.textures.Named) :
    (s.after calls).textures.Named := by
  induction calls generalizing s with
  | nil => exact hn
  | cons call calls ih => exact ih (h.compile call.1 call.2) (h.named hn call.1 call.2).1

/-- **A compiled program is a translation** in the context of its own definitions, readers and
inputs, whatever the session held before. -/
theorem exists_translation {settings : Settings} {s : Session} (h : s.IsOrdered settings)
    {images : String → Option Image} {e : Expr} {p : Program} (hp : (s.compile images e).1 = .ok p) :
    ∃ (c : Catalog) (names readers : List String), p.definitions = c.definitions ∧
      p.textures.Shows settings.version names ∧
      (∀ name ∈ readers, Available images name → name ∈ names) ∧ Supported c.items p.uniforms ∧
      Translates ⟨images, settings.viewport, c.items, p.uniforms, readers⟩ e
        ⟨p.shape, p.expression⟩ := by
  obtain ⟨settings, definitions, t, uniforms, diagnostics⟩ := s
  obtain ⟨rfl, ⟨c, rfl⟩, names, hnames⟩ := h
  obtain ⟨o, ho, hsup, hpost⟩ := exists_outcome images settings e
  obtain ⟨c', hc', hc⟩ := compile_eq ho c t uniforms diagnostics
  obtain ⟨names', hnames', -, ha⟩ := Textures.Shows.keepAll images o.readers hnames
  rw [hc] at hp
  cases hr : o.result with
  | error failure =>
    rw [hr] at hp
    cases hp
  | ok t =>
    rw [hr] at hp
    injection hp with hp
    subst hp
    have hsub : o.items ⊆ c'.items := fun x hx => by
      rw [hc']
      exact mem_enterAll.2 (.inr hx)
    refine ⟨c', names', o.readers, rfl, hnames', ha, hsup.mono hsub, (hpost t hr).mono ?_⟩
    exact ⟨rfl, rfl, hsub, List.prefix_rfl, List.Subset.refl _⟩

end Session

/-- Outcomes that agree in all but what their sessions have gathered. -/
inductive Agree : Except Failure Program → Except Failure Program → Prop where
  | error (failure : Failure) : Agree (.error failure) (.error failure)
  | ok {p q : Program} (expression : p.expression = q.expression) (shape : p.shape = q.shape)
      (uniforms : p.uniforms = q.uniforms) (diagnostics : p.diagnostics = q.diagnostics) :
      Agree (.ok p) (.ok q)

namespace Session

/-- **Compilation does not depend on the history of the session.** -/
theorem compile_after (settings : Settings) (calls : List ((String → Option Image) × Expr))
    (images : String → Option Image) (e : Expr) :
    Agree (((start settings).after calls).compile images e).1 ((start settings).compile images e).1 := by
  obtain ⟨hset, ⟨c, hdef⟩, -⟩ := (start_isOrdered settings).after calls
  generalize (start settings).after calls = s at hset hdef
  obtain ⟨settings, definitions, t, uniforms, diagnostics⟩ := s
  subst hset hdef
  obtain ⟨o, ho, -⟩ := exists_outcome images settings e
  obtain ⟨c₁, -, h₁⟩ := compile_eq ho c t uniforms diagnostics
  obtain ⟨c₂, -, h₂⟩ := compile_eq ho .empty (.empty settings.version) [] []
  rw [h₁]
  refine h₂ ▸ ?_
  cases o.result with
  | error failure => exact .error failure
  | ok t => exact .ok rfl rfl rfl rfl

end Session

/-! ## The order of compilations -/

/-- Sessions that hold the same definitions, texture readers and bindings, each as often. -/
structure SameHoldings (s s' : Session) : Prop where
  definitions : s.definitions.entries.Perm s'.definitions.entries
  readers : s.textures.readers.entries.Perm s'.textures.readers.entries
  bindings : s.textures.bindings.Perm s'.textures.bindings

/-- A session that holds exactly what one of the sessions of `es` holds. -/
structure IsUnion (s : Session) (es : List Expr) (part : Expr → Session) : Prop where
  definitions : ∀ x, x ∈ s.definitions.entries ↔ ∃ e ∈ es, x ∈ (part e).definitions.entries
  readers : ∀ x, x ∈ s.textures.readers.entries ↔ ∃ e ∈ es, x ∈ (part e).textures.readers.entries
  bindings : ∀ x, x ∈ s.textures.bindings ↔ ∃ e ∈ es, x ∈ (part e).textures.bindings

namespace Session

section Order

variable {settings : Settings} {images : String → Option Image} {o : Expr → Outcome Typed}

/-- A session that holds what the compilations of `done` enter and ask for, and nothing else. -/
def Holds (settings : Settings) (images : String → Option Image) (o : Expr → Outcome Typed)
    (done : List Expr) (s : Session) : Prop :=
  ∃ (c : Catalog) (g : Gallery images) (uniforms : List (String × Shape))
    (diagnostics : List Diagnostic),
    s = ⟨settings, c.definitions, g.textures settings.version, uniforms, diagnostics⟩ ∧
    (∀ x, x ∈ c.items ↔ ∃ e ∈ done, x ∈ (o e).items) ∧
    ∀ n, n ∈ g.names ↔ ∃ e ∈ done, n ∈ (o e).readers ∧ Available images n

theorem start_holds : Holds settings images o [] (start settings) :=
  ⟨.empty, .empty images, [], [], rfl, by simp [Catalog.empty], by simp [Gallery.empty]⟩

/-- A compilation adds what it enters and asks for.  If the expression was compiled before, the
session holds what it held. -/
theorem Holds.compile (ho : ∀ e, Compile.Ends images settings (Compile.node images e) [] [] (o e))
    {done : List Expr} {s : Session} (h : Holds settings images o done s) (e : Expr) :
    Holds settings images o (done ++ [e]) (s.compile images e).2 ∧
      (e ∈ done → (s.compile images e).2.definitions = s.definitions ∧
        (s.compile images e).2.textures = s.textures) := by
  obtain ⟨c, g, uniforms, diagnostics, rfl, hitems, hnames⟩ := h
  obtain ⟨c', hc, hs⟩ := compile_eq (ho e) c (g.textures settings.version) uniforms diagnostics
  obtain ⟨g', hg, hn, hsame⟩ := g.textures_keepAll settings.version (o e).readers
  rw [hs, hg]
  refine ⟨⟨c', g', _, _, rfl, fun x => ?_, fun n => ?_⟩, fun hin => ⟨?_, ?_⟩⟩
  · rw [hc, mem_enterAll, hitems]
    simp [or_and_right, exists_or]
  · rw [hn, hnames]
    simp [or_and_right, exists_or]
  · have hsub : (o e).items ⊆ c.items := fun x hx => (hitems x).2 ⟨e, hin, hx⟩
    simp only [Catalog.definitions, hc, enterAll_of_subset hsub]
  · rw [hsame fun n hn ha => (hnames n).2 ⟨e, hin, hn, ha⟩]

theorem Holds.after (ho : ∀ e, Compile.Ends images settings (Compile.node images e) [] [] (o e))
    (es : List Expr) {done : List Expr} {s : Session} (h : Holds settings images o done s) :
    Holds settings images o (done ++ es) (s.after (es.map fun e => (images, e))) := by
  induction es generalizing done s with
  | nil => rwa [List.append_nil]
  | cons e es ih =>
    have := ih (h.compile ho e).1
    rwa [List.append_assoc] at this

theorem gather_holds (ho : ∀ e, Compile.Ends images settings (Compile.node images e) [] [] (o e))
    (es : List Expr) : Holds settings images o es (gather settings images es) :=
  start_holds.after ho es

/-- What is held does not depend on the order. -/
theorem Holds.sameHoldings {es es' : List Expr} {s s' : Session} (h : Holds settings images o es s)
    (h' : Holds settings images o es' s') (hp : es.Perm es') : SameHoldings s s' := by
  obtain ⟨c, g, _, _, rfl, hitems, hnames⟩ := h
  obtain ⟨c', g', _, _, rfl, hitems', hnames'⟩ := h'
  have hc : c.items.Perm c'.items := by
    refine (List.perm_ext_iff_of_nodup c.closed.nodup c'.closed.nodup).2 fun x => ?_
    simp only [hitems, hitems', hp.mem_iff]
  have hg : g.names.Perm g'.names := by
    refine (List.perm_ext_iff_of_nodup g.nodup g'.nodup).2 fun n => ?_
    simp only [hnames, hnames', hp.mem_iff]
  exact ⟨hc.map _, hg.map _, hg.filterMap _⟩

theorem Holds.mem_definitions {es : List Expr} {s : Session} (h : Holds settings images o es s)
    {x : Entry Glsl.Declaration} :
    x ∈ s.definitions.entries ↔ ∃ e ∈ es, ∃ i ∈ (o e).items, i.entry = x := by
  obtain ⟨c, g, _, _, rfl, hitems, -⟩ := h
  simp only [Catalog.definitions, List.mem_map, hitems]
  constructor
  · rintro ⟨i, ⟨e, he, hi⟩, rfl⟩
    exact ⟨e, he, i, hi, rfl⟩
  · rintro ⟨e, he, i, hi, rfl⟩
    exact ⟨i, ⟨e, he, hi⟩, rfl⟩

theorem Holds.mem_readers {es : List Expr} {s : Session} (h : Holds settings images o es s)
    {x : Entry (List Glsl.Declaration)} : x ∈ s.textures.readers.entries ↔
      ∃ e ∈ es, ∃ n ∈ (o e).readers, Available images n ∧ Textures.entry settings.version n = x := by
  obtain ⟨c, g, _, _, rfl, -, hnames⟩ := h
  simp only [Gallery.textures, List.mem_map, hnames]
  constructor
  · rintro ⟨n, ⟨e, he, hn, ha⟩, rfl⟩
    exact ⟨e, he, n, hn, ha, rfl⟩
  · rintro ⟨e, he, n, hn, ha, rfl⟩
    exact ⟨n, ⟨e, he, hn, ha⟩, rfl⟩

theorem Holds.mem_bindings {es : List Expr} {s : Session} (h : Holds settings images o es s)
    {x : TextureBinding} : x ∈ s.textures.bindings ↔
      ∃ e ∈ es, ∃ n ∈ (o e).readers, Available images n ∧ Gallery.binding? images n = some x := by
  obtain ⟨c, g, _, _, rfl, -, hnames⟩ := h
  simp only [Gallery.textures, List.mem_filterMap, hnames]
  constructor
  · rintro ⟨n, ⟨e, he, hn, ha⟩, hb⟩
    exact ⟨e, he, n, hn, ha, hb⟩
  · rintro ⟨e, he, n, hn, ha, hb⟩
    exact ⟨n, ⟨e, he, hn, ha⟩, hb⟩

/-- What is held is what the expressions leave one by one. -/
theorem Holds.isUnion {es : List Expr} {s : Session} (h : Holds settings images o es s)
    {part : Expr → Session} (hpart : ∀ e, Holds settings images o [e] (part e)) :
    IsUnion s es part where
  definitions x := by simp [h.mem_definitions, (hpart _).mem_definitions]
  readers x := by simp [h.mem_readers, (hpart _).mem_readers]
  bindings x := by simp [h.mem_bindings, (hpart _).mem_bindings]

end Order

/-- **The order of compilations does not matter** to the definitions, texture readers and bindings
that a session ends with.  They are the union of what each expression leaves in a session of its own,
and compiling one of the expressions again adds nothing. -/
theorem gather_perm (settings : Settings) (images : String → Option Image) {es es' : List Expr}
    (h : es.Perm es') :
    SameHoldings (gather settings images es) (gather settings images es') ∧
      IsUnion (gather settings images es) es (fun e => gather settings images [e]) ∧
      ∀ e ∈ es, ∀ s', ((gather settings images es).compile images e).2 = s' →
        s'.definitions = (gather settings images es).definitions ∧
          s'.textures = (gather settings images es).textures := by
  obtain ⟨o, hoc⟩ := Classical.skolem.1 (exists_outcome images settings)
  have ho := fun e => (hoc e).1
  have hes := gather_holds ho es
  refine ⟨hes.sameHoldings (gather_holds ho es') h, hes.isUnion fun e => gather_holds ho [e], ?_⟩
  rintro e he s' rfl
  exact (hes.compile ho e).2 he

/-- Three expressions in two orders: the sum of a complex input, a list that does not compile, and
a read of an image. -/
theorem gather_perm_three :
    let images : String → Option Image := fun name =>
      if name = "cat" then some ⟨4, 2, true, none⟩ else none
    let total := Expr.sum (.uniform "u" (.vector 3 .complex))
    let read := Expr.image .rgb "cat" .pixel
    let s := gather {} images [total, .list [], read]
    List.Perm [total, .list [], read] [read, total, .list []] ∧
      SameHoldings s (gather {} images [read, total, .list []]) ∧
      (s.compile images total).2.definitions = s.definitions := by
  intro images total read s
  have hp : List.Perm [total, .list [], read] [read, total, .list []] :=
    @List.perm_append_comm _ [total, .list []] [read]
  obtain ⟨hsame, -, hagain⟩ := gather_perm {} images hp
  exact ⟨hp, hsame, (hagain total List.mem_cons_self _ rfl).1⟩

end Session
end ShaderAlgebra
