import ShaderAlgebra.Proofs.Elements
import ShaderAlgebra.Proofs.ShortestDecimals

/-!
# Constants fill every slot

A shape filled with one number is stored with that number in every slot (`Build.fill_covers`).  The slots
are counted from the shape and not from the storage: one for a number, as many as entries for a vector or
a matrix, and twice as many for complex ones.  Storage may cut a vector into chunks, a matrix into rows
and a complex value into its two parts, and no slot is lost or written twice on the way.

The number that is written is the shortest decimal of a double, which rounds to the double.
-/

namespace ShaderAlgebra

open Glsl (Term Library Sampler Env Value evalText)
open Glsl.Library

/-! ## Slots -/

namespace Glsl.Value

mutual

/-- All numbers of a value, in the order in which they are declared. -/
def scalars : Value → List ℚ
  | float x => [x]
  | vec xs => xs
  | mat columns => columns.flatten
  | struct _ members => scalarsOfMembers members
  | bool _ | int _ => []

/-- All numbers of members. -/
def scalarsOfMembers : List (String × Value) → List ℚ
  | [] => []
  | (_, v) :: rest => scalars v ++ scalarsOfMembers rest

end

end Glsl.Value

/-- The slots of a number. -/
def Scalar.slots (k : Scalar) : Nat :=
  if k = .complex then 2 else 1

/-- The slots of a value: one for each of its numbers, and two for each complex number. -/
def Shape.slots : Shape → Nat
  | scalar k => k.slots
  | vector n k => n * k.slots
  | matrix r c k => r * c * k.slots

/-- A number of a kind with one rational in every slot. -/
def Scalar.constant : (k : Scalar) → ℚ → k.Carrier
  | real, q => q
  | complex, q => ⟨q, q⟩
  | bool, _ | int, _ => 0

/-- The value of a shape with one rational in every slot. -/
def Shape.constant : (s : Shape) → ℚ → s.Carrier
  | scalar k, q => k.constant q
  | vector _ k, q => fun _ => k.constant q
  | matrix _ _ k, q => .of fun _ _ => k.constant q

theorem rowMajor_const (r c : Nat) (q : ℚ) :
    rowMajor (fun (_ : Fin r) (_ : Fin c) => q) = List.replicate (r * c) q := by
  simp [rowMajor, List.ofFn_const]

theorem coords_constant {s : Shape} (hk : s.kind.isField) (q : ℚ) :
    coords s (s.constant q) = List.replicate s.slots q := by
  have htwice : ∀ n, List.replicate n q ++ List.replicate n q = List.replicate (n * 2) q := by
    intro n
    rw [List.replicate_append_replicate, Nat.mul_two]
  cases s with
  | scalar k =>
    cases k with
    | bool | int => cases hk
    | real | complex => rfl
  | vector n k =>
    cases k with
    | bool | int => cases hk
    | real => exact (List.ofFn_const n q).trans (congrArg (List.replicate · q) (Nat.mul_one n).symm)
    | complex =>
      change List.ofFn (fun _ : Fin n => q) ++ List.ofFn (fun _ : Fin n => q) = List.replicate (n * 2) q
      rw [List.ofFn_const, htwice]
  | matrix r c k =>
    cases k with
    | bool | int => cases hk
    | real => exact (rowMajor_const r c q).trans (congrArg (List.replicate · q) (Nat.mul_one _).symm)
    | complex =>
      change rowMajor (fun (_ : Fin r) (_ : Fin c) => q) ++ rowMajor (fun (_ : Fin r) (_ : Fin c) => q) =
        List.replicate (r * c * 2) q
      rw [rowMajor_const, htwice]

/-- Storage has as many coordinates as the shape has slots. -/
theorem size_eq_slots {s : Shape} (hv : s.Valid) (hk : s.kind.isField) : s.size = s.slots := by
  rw [← length_coords hv hk (s.constant 0), coords_constant hk, List.length_replicate]

theorem store_constant {s : Shape} (hv : s.Valid) (hk : s.kind.isField) (q : ℚ) :
    store s (s.constant q) = s.pack (List.replicate s.size q) := by
  rw [store_of_field hk, coords_constant hk, size_eq_slots hv hk]

theorem scalarsOfMembers_replicate {q : ℚ} {ms : List (String × Shape)}
    (h : ∀ m ∈ ms, (m.2.pack (List.replicate m.2.size q)).scalars = List.replicate m.2.size q) :
    Value.scalarsOfMembers (packAll ms (List.replicate (ms.map (·.2.size)).sum q)) =
      List.replicate (ms.map (·.2.size)).sum q := by
  induction ms with
  | nil => rfl
  | cons m ms ih =>
    rw [List.map_cons, List.sum_cons, packAll, List.take_replicate, List.drop_replicate,
      Nat.min_eq_left (Nat.le_add_right _ _), Nat.add_sub_cancel_left, Value.scalarsOfMembers,
      h m List.mem_cons_self, ih fun m hm => h m (List.mem_cons_of_mem _ hm), List.replicate_append_replicate]

/-- **A value stored with one number in every coordinate has that number in every slot.** -/
theorem scalars_pack_replicate (q : ℚ) {s : Shape} (hv : s.Valid) : s.kind.isField →
    (s.pack (List.replicate s.size q)).scalars = List.replicate s.size q := by
  induction s, hv using Shape.inductionOn with
  | native s hv hn =>
    intro hk
    rw [Shape.size_of_native hn, Shape.pack_of_native hn]
    rcases Shape.native_cases hv hk hn with rfl | rfl | ⟨n, rfl, h1, -⟩ | ⟨n, rfl, -, -⟩
    · rfl
    · rfl
    · simp only [Storage.packNative, Storage.nativeSize]
      split
      · rename_i h
        subst h
        rfl
      · rfl
    · rw [Storage.packNative, Storage.nativeSize, columns_replicate, Value.scalars,
        List.flatten_replicate_replicate]
  | record s hs ih =>
    intro _
    rw [Shape.pack_of_record hs, Shape.size_of_record hs, Value.scalars]
    refine scalarsOfMembers_replicate fun m hm => ih m hm ?_
    rw [Shape.kind_of_mem_members hs hm]
    rfl

theorem scalars_constant {s : Shape} (hv : s.Valid) (hk : s.kind.isField) (q : ℚ) :
    (store s (s.constant q)).scalars = List.replicate s.slots q := by
  rw [store_constant hv hk, scalars_pack_replicate q hv hk, size_eq_slots hv hk]

/-- An element of a constant is the constant of its shape. -/
theorem Quantity.element_constant {s e : Shape} {n k : Nat} (he : s.element? = some e) (hn : s.length? = some n)
    (hk : k < n) (q : ℚ) : (⟨s, s.constant q⟩ : Quantity).element k = some ⟨e, e.constant q⟩ := by
  cases s with
  | scalar kind => cases hn
  | vector m kind =>
    obtain rfl : m = n := Option.some.inj hn
    obtain rfl : .scalar kind = e := Option.some.inj he
    exact dif_pos hk
  | matrix r c kind =>
    obtain rfl : r = n := Option.some.inj hn
    obtain rfl : .vector c kind = e := Option.some.inj he
    exact dif_pos hk

/-! ## Filled shapes -/

section Filled

variable {L : Library} {header : String} {σ : Sampler} {env : Env} {s : Shape}

/-- The text of a filled shape denotes the constant. -/
theorem evalText_filled (hL : Glsl.readLibrary header = some L) (hv : s.Valid) (hk : s.kind.isField)
    (ho : ∀ z ∈ s.structs, L.Means σ z) (d : Decimal) :
    evalText header (s.filled (.literal d)).text σ env = some (store s (s.constant d.value)) := by
  rw [evalText_text hL (isOperand_filled (Term.isOperand_literal d) hv).readable,
    value_filled (value_literal d) hv hk ho, store_constant hv hk]

/-- The text of an element of a filled shape denotes the constant of the element's shape. -/
theorem evalText_element_filled (hL : Glsl.readLibrary header = some L) (hv : s.Valid) (hk : s.kind.isField)
    (ho : ∀ z ∈ s.structs, L.Means σ z) (hoe : ∀ z ∈ Synth.elementItems s, L.Means σ z) {e : Shape} {n k : Nat}
    (he : s.element? = some e) (hn : s.length? = some n) (hkn : k < n) (d : Decimal) :
    evalText header (Synth.elementTerm s k (.raw (s.filled (.literal d)).text)).text σ env =
      some (store e (e.constant d.value)) := by
  have hfilled : evalText header (s.filled (.literal d)).text σ env = some (store s (s.constant d.value)) :=
    evalText_filled hL hv hk ho d
  obtain ⟨hraw, hbase⟩ := value_of_evalText hL hfilled
  rw [evalText_text hL (isOperand_elementTerm (by simp [hn]) k hraw).readable]
  exact value_elementTerm (x := ⟨s, _⟩) hv (Quantity.element_constant he hn hkn _) hoe hbase

end Filled

/-- **A filled shape has the number in every slot.**  After any calls, a shape over the real or complex
numbers can be filled with a finite double.  The text evaluates to a value in the layout of the shape with
one rational in all of its slots, which rounds to the double.  Each element of the shape can then be
accessed, the shape of the elements be filled with the same double, and the two texts evaluate alike. -/
theorem Build.fill_covers (calls : List Build.Call) {s : Shape} {x : Binary64} (hv : s.Valid)
    (hk : s.kind.isField) (hx : x.isFinite) :
    ∃ t d q, (Build.fill s x).run.run (Definitions.after calls) = (.ok t, d) ∧
      (Binary64.nearest q).sameNumber x ∧
      (∃ v : s.Carrier, (store s v).scalars = List.replicate s.slots q ∧
        ∀ σ env, evalText d.header t.text σ env = some (store s v)) ∧
      ∀ e n k, s.element? = some e → s.length? = some n → k < n →
        ∃ f d₁ t' d₂, (Build.element s k).run.run d = (.ok f, d₁) ∧
          (Build.fill e x).run.run d₁ = (.ok t', d₂) ∧
          ∃ w : e.Carrier, ∀ σ env, evalText d₂.header (f (.raw t.text)).text σ env = some (store e w) ∧
            evalText d₂.header t'.text σ env = some (store e w) := by
  obtain ⟨c, hc⟩ := Definitions.exists_catalog calls
  rw [hc]
  have hliteral : literal? x = .ok (.shortest .up x) := if_pos hx
  obtain ⟨c₁, h₁, e₁⟩ := settles_fill hv hk hliteral c
  obtain ⟨L₁, hL₁, hmeans₁, -⟩ := c₁.exists_library
  refine ⟨_, _, _, h₁, Binary64.sameNumber_nearest_shortest hx .up,
    ⟨_, scalars_constant hv hk _, fun σ env => evalText_filled hL₁ hv hk (fun z hz => hmeans₁ σ z ?_) _⟩,
    fun e n k he hn hkn => ?_⟩
  · rw [e₁]
    exact mem_enterAll.2 (.inr hz)
  have hve := Shape.valid_of_element? hv he
  have hke : e.kind.isField := Shape.kind_of_element? he ▸ hk
  obtain ⟨c₂, h₂, e₂⟩ := settles_element hv he hn hkn c₁
  obtain ⟨c₃, h₃, e₃⟩ := settles_fill hve hke hliteral c₂
  obtain ⟨L₃, hL₃, hmeans₃, -⟩ := c₃.exists_library
  refine ⟨_, _, _, _, h₂, h₃, _, fun σ env =>
    ⟨evalText_element_filled hL₃ hv hk (fun z hz => hmeans₃ σ z ?_) (fun z hz => hmeans₃ σ z ?_) he hn hkn _,
      evalText_filled hL₃ hve hke (fun z hz => hmeans₃ σ z ?_) _⟩⟩
  · rw [e₃, e₂, e₁]
    exact mem_enterAll.2 (.inl (mem_enterAll.2 (.inl (mem_enterAll.2 (.inr hz)))))
  · rw [e₃, e₂]
    exact mem_enterAll.2 (.inl (mem_enterAll.2 (.inr hz)))
  · rw [e₃]
    exact mem_enterAll.2 (.inr hz)

/-- The negative double next to zero in a complex matrix whose rows are cut into chunks, and in its second
row, after a call that failed. -/
theorem Build.fill_covers_complexRows :
    let s : Shape := .matrix 2 7 .complex
    let e : Shape := .vector 7 .complex
    let x : Binary64 := ⟨0x8000000000000001⟩
    let calls : List Build.Call := [.element .real 0, .define (.realVector 5)]
    s.Valid ∧ s.kind.isField ∧ x.isFinite ∧
      ∃ t d q, (Build.fill s x).run.run (Definitions.after calls) = (.ok t, d) ∧
        (Binary64.nearest q).sameNumber x ∧
        (∃ v : s.Carrier, (store s v).scalars = List.replicate 28 q ∧
          ∀ σ env, evalText d.header t.text σ env = some (store s v)) ∧
        ∃ f d₁ t' d₂, (Build.element s 1).run.run d = (.ok f, d₁) ∧
          (Build.fill e x).run.run d₁ = (.ok t', d₂) ∧
          ∃ w : e.Carrier, ∀ σ env, evalText d₂.header (f (.raw t.text)).text σ env = some (store e w) ∧
            evalText d₂.header t'.text σ env = some (store e w) := by
  intro s e x calls
  have hv : s.Valid := by decide
  have hx : x.isFinite := by decide
  obtain ⟨t, d, q, hrun, hq, hvalue, helement⟩ := Build.fill_covers calls hv rfl hx
  exact ⟨hv, rfl, hx, t, d, q, hrun, hq, hvalue, helement e 2 1 rfl rfl (by decide)⟩

end ShaderAlgebra
