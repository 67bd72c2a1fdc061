import ShaderAlgebra.Proofs.Operations

/-!
# Putting values together and taking them apart

A value of its elements and the access to an element undo each other, on every
shape that has elements (`Build.element_construct`).  They meet in the elements of a
quantity: a term that is put together from the elements of a quantity stands for the quantity
(`value_of_elements`), and any elements of one shape are those of a quantity (`exists_of_elements`).
-/

namespace ShaderAlgebra

open Glsl (Term Library Sampler Env Value evalText)
open Glsl.Library

/-! ## Elements -/

/-- Values of the shape of its elements make up a quantity. -/
theorem Quantity.exists_of_elements {s e : Shape} {n : Nat} (hn : s.length? = some n)
    (he : s.element? = some e) (v : Nat → e.Carrier) :
    ∃ x : Quantity, x.shape = s ∧ ∀ k < n, x.element k = some ⟨e, v k⟩ := by
  cases s with
  | scalar k => cases hn
  | vector m k =>
    obtain rfl : m = n := Option.some.inj hn
    obtain rfl : .scalar k = e := Option.some.inj he
    exact ⟨⟨.vector m k, fun i => v i⟩, rfl, fun i hi => dif_pos hi⟩
  | matrix r c k =>
    obtain rfl : r = n := Option.some.inj hn
    obtain rfl : .vector c k = e := Option.some.inj he
    exact ⟨⟨.matrix r c k, .of fun i => v i⟩, rfl, fun i hi => dif_pos hi⟩

section Values

variable {L : Library} {σ : Sampler} {env : Env}

/-- Values that are given one by one. -/
theorem values_ofFn {n : Nat} {args : List Term} (hn : args.length = n) {v : Fin n → Value}
    (h : ∀ (k : Nat) (hk : k < n) (arg : Term), args[k]? = some arg → L.value σ env arg = some (v ⟨k, hk⟩)) :
    L.values σ env args = some (List.ofFn v) := by
  refine values_iff.2 (List.forall₂_iff_get.2 ⟨by rw [hn, List.length_ofFn], fun k h₁ h₂ => ?_⟩)
  rw [List.get_ofFn]
  exact h k (hn ▸ h₁) _ (List.getElem?_eq_getElem h₁)

/-- **A term of the elements of a quantity stands for the quantity.** -/
theorem value_of_elements {x : Quantity} {n : Nat} (hv : x.shape.Valid) (hn : x.shape.length? = some n)
    (ho : ∀ z ∈ x.shape.structs, L.Means σ z) {args : List Term} (hargs : args.length = n)
    (h : ∀ (k : Nat) (arg : Term), args[k]? = some arg →
      ∃ y, x.element k = some y ∧ L.value σ env arg = some (store y.shape y.value)) :
    L.value σ env (Synth.constructTerm x.shape args) = some (store x.shape x.value) := by
  obtain ⟨s, v⟩ := x
  cases s with
  | scalar k => cases hn
  | vector m k =>
    obtain rfl : m = n := Option.some.inj hn
    refine value_vectorTerm hv (values_ofFn hargs fun i hi arg harg => ?_) ho
    obtain ⟨y, hy, hvalue⟩ := h i arg harg
    obtain rfl := Option.some.inj ((dif_pos hi).symm.trans hy)
    exact hvalue
  | matrix r c k =>
    obtain rfl : r = n := Option.some.inj hn
    refine value_matrixTerm hv (values_ofFn hargs fun i hi arg harg => ?_) ho
    obtain ⟨y, hy, hvalue⟩ := h i arg harg
    obtain rfl := Option.some.inj ((dif_pos hi).symm.trans hy)
    exact hvalue

variable {header : String} {s e : Shape} {n : Nat}

/-- **An element of a value that is put together is the one that was given.** -/
theorem evalText_element_construct (hL : Glsl.readLibrary header = some L) (hv : s.Valid)
    (hn : s.length? = some n) (he : s.element? = some e) (ho : ∀ z ∈ s.structs, L.Means σ z)
    (hoe : ∀ z ∈ Synth.elementItems s, L.Means σ z) {texts : List String} (hlen : texts.length = n)
    (hargs : ∀ arg ∈ texts, ∃ v, evalText header arg σ env = some (store e v)) {k : Nat} {text : String}
    (hk : texts[k]? = some text) :
    evalText header
        (Synth.elementTerm s k (.raw (Synth.constructTerm s (texts.map .raw)).text)).text σ env =
      evalText header text σ env := by
  have hlength : s.length? ≠ none := by simp [hn]
  have hexists : ∀ k : Nat, ∃ v : e.Carrier, ∀ arg, texts[k]? = some arg →
      evalText header arg σ env = some (store e v) := by
    intro k
    cases harg : texts[k]? with
    | none => exact ⟨0, fun _ h => by cases h⟩
    | some arg =>
      obtain ⟨v, hv⟩ := hargs arg (List.mem_of_getElem? harg)
      exact ⟨v, fun _ h => Option.some.inj h ▸ hv⟩
  choose v hvalues using hexists
  obtain ⟨x, rfl, hx⟩ := Quantity.exists_of_elements hn he v
  have hlt {k : Nat} {arg : String} (h : texts[k]? = some arg) : k < n :=
    hlen ▸ (List.getElem?_eq_some_iff.1 h).1
  have hconstruct : L.value σ env (Synth.constructTerm x.shape (texts.map .raw)) =
      some (store x.shape x.value) := by
    refine value_of_elements hv hn ho (by rw [List.length_map, hlen]) fun k arg harg => ?_
    rw [List.getElem?_map] at harg
    obtain ⟨given, hgiven, rfl⟩ := Option.map_eq_some_iff.1 harg
    exact ⟨_, hx k (hlt hgiven), (value_of_evalText hL (hvalues k given hgiven)).2⟩
  have hreadable : (Synth.constructTerm x.shape (texts.map .raw)).Readable := by
    refine (isOperand_constructTerm hlength fun t ht => ?_).readable
    obtain ⟨arg, harg, rfl⟩ := List.mem_map.1 ht
    obtain ⟨w, hw⟩ := hargs arg harg
    exact (value_of_evalText hL hw).1
  have hraw := Term.Readable.raw (Glsl.readExpr_text hreadable)
  rw [evalText_text hL (isOperand_elementTerm hlength k hraw).readable, hvalues k text hk]
  exact value_elementTerm hv (hx k (hlt hk)) hoe ((value_raw_text hreadable).trans hconstruct)

/-- **A value that is put together from all elements of a value is that value.** -/
theorem evalText_construct_elements (hL : Glsl.readLibrary header = some L) (hv : s.Valid)
    (hn : s.length? = some n) (he : s.element? = some e) (ho : ∀ z ∈ s.structs, L.Means σ z)
    (hoe : ∀ z ∈ Synth.elementItems s, L.Means σ z) {text : String} {v : s.Carrier}
    (h : evalText header text σ env = some (store s v)) :
    evalText header (Synth.constructTerm s ((List.range n).map fun k =>
      .raw (Synth.elementTerm s k (.raw text)).text)).text σ env = some (store s v) := by
  have hlength : s.length? ≠ none := by simp [hn]
  obtain ⟨hraw, hbase⟩ := value_of_evalText hL h
  have hreadable (k : Nat) : (Synth.elementTerm s k (.raw text)).Readable :=
    (isOperand_elementTerm hlength k hraw).readable
  have hconstruct : (Synth.constructTerm s ((List.range n).map fun k =>
      .raw (Synth.elementTerm s k (.raw text)).text)).Readable := by
    refine (isOperand_constructTerm hlength fun t ht => ?_).readable
    obtain ⟨k, -, rfl⟩ := List.mem_map.1 ht
    exact .raw (Glsl.readExpr_text (hreadable k))
  rw [evalText_text hL hconstruct]
  refine value_of_elements (x := ⟨s, v⟩) hv hn ho (by simp) fun k arg harg => ?_
  rw [List.getElem?_map] at harg
  obtain ⟨j, hj, rfl⟩ := Option.map_eq_some_iff.1 harg
  obtain ⟨hkn, rfl⟩ : k < n ∧ k = j := by simpa [List.getElem?_eq_some_iff] using hj
  obtain ⟨y, hy, -⟩ := Quantity.exists_element (x := ⟨s, v⟩) he hn hkn
  exact ⟨y, hy, (value_raw_text (hreadable k)).trans (value_elementTerm (x := ⟨s, v⟩) hv hy hoe hbase)⟩

end Values

/-! ## Construction and access -/

/-- **Construction and access undo each other.**  Let a shape have elements, after any calls.  A value can be
put together from as many texts as it has elements, and each of its elements can be accessed; if the
texts denote values of the shape of the elements, the element denotes what its text does.  All
elements of a text can be accessed, and a value can be put together from them; if the text denotes a value
of the shape, so does that. -/
theorem Build.element_construct (calls : List Build.Call) {s e : Shape} {n : Nat} (hv : s.Valid)
    (hn : s.length? = some n) (he : s.element? = some e) :
    (∀ texts : List String, texts.length = n → ∃ t d₁,
      (Build.construct s (texts.map .raw)).run.run (Definitions.after calls) = (.ok t, d₁) ∧
        ∀ k text, texts[k]? = some text → ∃ f d₂, (Build.element s k).run.run d₁ = (.ok f, d₂) ∧
          ∀ σ env, (∀ arg ∈ texts, ∃ v, evalText d₂.header arg σ env = some (store e v)) →
            evalText d₂.header (f (.raw t.text)).text σ env = evalText d₂.header text σ env) ∧
    ∀ text : String, ∃ fs d₁ t d₂,
      ((List.range n).mapM (Build.element s)).run.run (Definitions.after calls) = (.ok fs, d₁) ∧
        (Build.construct s (fs.map fun f => .raw (f (.raw text)).text)).run.run d₁ = (.ok t, d₂) ∧
          ∀ σ env v, evalText d₂.header text σ env = some (store s v) →
            evalText d₂.header t.text σ env = some (store s v) := by
  obtain ⟨c, hc⟩ := Definitions.exists_catalog calls
  rw [hc]
  constructor
  · intro texts hlen
    have hargs : (texts.map Term.raw).length = s.length?.getD 1 := by simp [hn, hlen]
    obtain ⟨c₁, h₁, e₁⟩ := settles_construct hv hargs c
    refine ⟨_, _, h₁, fun k text hk => ?_⟩
    have hkn : k < n := hlen ▸ (List.getElem?_eq_some_iff.1 hk).1
    obtain ⟨c₂, h₂, e₂⟩ := settles_element hv he hn hkn c₁
    obtain ⟨L, hL, hmeans, -⟩ := c₂.exists_library
    refine ⟨_, _, h₂, fun σ env hvals => ?_⟩
    refine evalText_element_construct hL hv hn he (fun z hz => hmeans σ z ?_)
      (fun z hz => hmeans σ z ?_) hlen hvals hk
    · rw [e₂, e₁]
      exact mem_enterAll.2 (.inl (mem_enterAll.2 (.inr hz)))
    · rw [e₂]
      exact mem_enterAll.2 (.inr hz)
  · intro text
    have hpos := Shape.length_pos hv hn
    obtain ⟨c₁, h₁, e₁⟩ := settles_mapM (l := List.range n)
      (fun k hk => settles_element hv he hn (List.mem_range.1 hk)) c
    have hargs : (((List.range n).map (Synth.elementTerm s)).map
        fun f => Term.raw (f (.raw text)).text).length = s.length?.getD 1 := by simp [hn]
    obtain ⟨c₂, h₂, e₂⟩ := settles_construct hv hargs c₁
    obtain ⟨L, hL, hmeans, -⟩ := c₂.exists_library
    refine ⟨_, _, _, _, h₁, h₂, fun σ env v h => ?_⟩
    rw [List.map_map]
    refine evalText_construct_elements hL hv hn he (fun z hz => hmeans σ z ?_)
      (fun z hz => hmeans σ z ?_) h
    · rw [e₂]
      exact mem_enterAll.2 (.inr hz)
    · rw [e₂, e₁]
      refine mem_enterAll.2 (.inl (mem_enterAll.2 (.inr ?_)))
      exact List.mem_flatMap.2 ⟨0, List.mem_range.2 hpos, hz⟩

/-- The second row of a matrix whose columns are stored, and the matrix of its rows, after a call that
failed. -/
theorem Build.element_construct_rows :
    let s : Shape := .matrix 2 2 .real
    let calls : List Build.Call := [.element .real 0, .define (.realVector 5)]
    let env : Env := [("u", store (.realVector 2) ![1, 2]), ("w", store (.realVector 2) ![3, 4]),
      ("m", store s !![1, 2; 3, 4])]
    let σ : Sampler := fun _ _ _ _ _ _ => 0
    (∃ t d₁ f d₂, (Build.construct s (["u", "w"].map .raw)).run.run (Definitions.after calls) = (.ok t, d₁) ∧
      (Build.element s 1).run.run d₁ = (.ok f, d₂) ∧
        evalText d₂.header (f (.raw t.text)).text σ env = some (store (.realVector 2) ![3, 4])) ∧
    ∃ fs d₁ t d₂, ((List.range 2).mapM (Build.element s)).run.run (Definitions.after calls) = (.ok fs, d₁) ∧
      (Build.construct s (fs.map fun f => .raw (f (.raw "m")).text)).run.run d₁ = (.ok t, d₂) ∧
        evalText d₂.header t.text σ env = some (store s !![1, 2; 3, 4]) := by
  intro s calls env σ
  obtain ⟨hrow, hmatrix⟩ := Build.element_construct calls (s := s) (by decide) rfl rfl
  constructor
  · obtain ⟨t, d₁, h₁, hk⟩ := hrow ["u", "w"] rfl
    obtain ⟨f, d₂, h₂, heval⟩ := hk 1 "w" rfl
    have hd : d₂ = Definitions.after
        ((calls ++ [.construct s (["u", "w"].map .raw)]) ++ [.element s 1]) := by
      rw [Definitions.after_concat, Definitions.after_concat, Call.perform, Call.perform, h₁, h₂]
    have hu : Denotes d₂.header σ env "u" ⟨.realVector 2, ![1, 2]⟩ :=
      hd ▸ Definitions.denotes_name _ σ (by decide) rfl
    have hw : Denotes d₂.header σ env "w" ⟨.realVector 2, ![3, 4]⟩ :=
      hd ▸ Definitions.denotes_name _ σ (by decide) rfl
    refine ⟨t, d₁, f, d₂, h₁, h₂, (heval σ env fun arg harg => ?_).trans hw.value⟩
    rcases List.mem_pair.1 harg with rfl | rfl
    · exact ⟨_, hu.value⟩
    · exact ⟨_, hw.value⟩
  · obtain ⟨fs, d₁, t, d₂, h₁, h₂, heval⟩ := hmatrix "m"
    have hd₁ : d₁ = Definitions.after (calls ++ [.element s 0, .element s 1]) :=
      (congrArg Prod.snd h₁).symm
    have hd₂ : d₂ = Definitions.after ((calls ++ [.element s 0, .element s 1]) ++
        [.construct s (fs.map fun f => .raw (f (.raw "m")).text)]) := by
      rw [Definitions.after_concat, Call.perform, ← hd₁, h₂]
    have hm : Denotes d₂.header σ env "m" ⟨s, !![1, 2; 3, 4]⟩ :=
      hd₂ ▸ Definitions.denotes_name _ σ (by decide) rfl
    exact ⟨fs, d₁, t, d₂, h₁, h₂, heval σ env _ hm.value⟩

end ShaderAlgebra
