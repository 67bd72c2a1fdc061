import ShaderAlgebra.Proofs.Effects

/-!
# The inputs of a program

A program lists the inputs to supply.  They are gathered in the session while an expression is
compiled, one at a time, in whatever part of the expression an input is met; the point and the corners of
a read are compiled before it is known whether the image is there.

The list comes out exact (`Session.uniforms_of_compile`): the inputs that the expression names, in the order of
evaluation, each where it is first met.  `Expr.Mentions` says which those are without an order.
-/

namespace ShaderAlgebra
namespace Expr

/-- An input of this name and shape stands somewhere in an expression. -/
inductive Mentions (name : String) (s : Shape) : Expr → Prop where
  | uniform : Mentions name s (.uniform name s)
  | item {e : Expr} {es : List Expr} (he : e ∈ es) (h : Mentions name s e) : Mentions name s (.list es)
  | lhs {op : Binary} {l r : Expr} (h : Mentions name s l) : Mentions name s (.binary op l r)
  | rhs {op : Binary} {l r : Expr} (h : Mentions name s r) : Mentions name s (.binary op l r)
  | sum {arg : Expr} (h : Mentions name s arg) : Mentions name s (.sum arg)
  | element {arg : Expr} {i : Nat} (h : Mentions name s arg) : Mentions name s (.element arg i)
  | point {channels : Channels} {image : String} {p : Expr} (h : Mentions name s p) :
      Mentions name s (.image channels image p)
  | pointOn {channels : Channels} {image : String} {a b p : Expr} (h : Mentions name s p) :
      Mentions name s (.imageOn channels image a b p)
  | left {channels : Channels} {image : String} {a b p : Expr} (h : Mentions name s a) :
      Mentions name s (.imageOn channels image a b p)
  | right {channels : Channels} {image : String} {a b p : Expr} (h : Mentions name s b) :
      Mentions name s (.imageOn channels image a b p)

theorem mem_inputsAll_iff {u : String × Shape} {es : List Expr} :
    u ∈ inputsAll es ↔ ∃ e ∈ es, u ∈ e.inputs := by
  induction es with
  | nil => simp [inputsAll]
  | cons e es ih => simp [inputsAll, ih]

variable {name : String} {s : Shape}

theorem Mentions.mem_inputs {e : Expr} (h : e.Mentions name s) : (name, s) ∈ e.inputs := by
  induction h with
  | uniform => exact List.mem_singleton_self _
  | item he _ ih => exact mem_inputsAll_iff.2 ⟨_, he, ih⟩
  | lhs _ ih => exact List.mem_append_left _ ih
  | rhs _ ih => exact List.mem_append_right _ ih
  | sum _ ih | element _ ih | point _ ih => exact ih
  | pointOn _ ih => exact List.mem_append_left _ ih
  | left _ ih => exact List.mem_append_right _ (List.mem_append_left _ ih)
  | right _ ih => exact List.mem_append_right _ (List.mem_append_right _ ih)

mutual

theorem mentions_of_mem_inputs : ∀ e : Expr, (name, s) ∈ e.inputs → e.Mentions name s
  | .real _, h | .complex _ _, h | .pixel, h => by cases h
  | .list es, h => by
    obtain ⟨e, he, hm⟩ := exists_mentions_of_mem_inputsAll es h
    exact .item he hm
  | .uniform _ _, h => by
    cases List.mem_singleton.1 h
    exact .uniform
  | .binary _ lhs rhs, h => by
    rcases List.mem_append.1 h with h | h
    · exact .lhs (mentions_of_mem_inputs lhs h)
    · exact .rhs (mentions_of_mem_inputs rhs h)
  | .sum arg, h => .sum (mentions_of_mem_inputs arg h)
  | .element arg _, h => .element (mentions_of_mem_inputs arg h)
  | .image _ _ point, h => .point (mentions_of_mem_inputs point h)
  | .imageOn _ _ a b point, h => by
    rcases List.mem_append.1 h with h | h
    · exact .pointOn (mentions_of_mem_inputs point h)
    · rcases List.mem_append.1 h with h | h
      · exact .left (mentions_of_mem_inputs a h)
      · exact .right (mentions_of_mem_inputs b h)

theorem exists_mentions_of_mem_inputsAll : ∀ es : List Expr, (name, s) ∈ inputsAll es →
    ∃ e ∈ es, e.Mentions name s
  | [], h => by cases h
  | e :: es, h => by
    rcases List.mem_append.1 h with h | h
    · exact ⟨e, List.mem_cons_self, mentions_of_mem_inputs e h⟩
    · obtain ⟨e', he', hm⟩ := exists_mentions_of_mem_inputsAll es h
      exact ⟨e', List.mem_cons_of_mem _ he', hm⟩

end

/-- **The inputs of an expression are those that it mentions.** -/
theorem mem_inputs_iff {e : Expr} : (name, s) ∈ e.inputs ↔ e.Mentions name s :=
  ⟨mentions_of_mem_inputs e, Mentions.mem_inputs⟩

end Expr

/-- What is left once repetitions are dropped has none. -/
theorem nodup_eraseDups {α : Type} [BEq α] [LawfulBEq α] (xs : List α) : xs.eraseDups.Nodup := by
  induction xs using List.reverseRecOn with
  | nil => exact List.nodup_nil
  | append_singleton xs x ih =>
    by_cases hx : x ∈ xs
    · rwa [eraseDups_concat_of_mem hx]
    · rw [eraseDups_concat_of_not_mem hx, ← List.concat_eq_append]
      exact ih.concat (mt List.mem_eraseDups.1 hx)

/-- Inputs that are consistent have distinct names, once each is there once. -/
theorem Consistent.nodup_names {inputs : List (String × Shape)} (h : Consistent inputs) :
    (inputs.eraseDups.map Prod.fst).Nodup := by
  refine List.Nodup.map_on (fun u hu v hv hname => ?_) (nodup_eraseDups inputs)
  exact Prod.ext hname (h u (List.mem_eraseDups.1 hu) v (List.mem_eraseDups.1 hv) hname)

namespace Session

/-- **The inputs of a program are those of its expression,** in the order of evaluation and each once,
whatever the session has compiled before and whichever images are there.  Their names are distinct, and an
input is among them, with its shape, if and only if the expression mentions it. -/
theorem uniforms_of_compile (settings : Settings) (calls : List ((String → Option Image) × Expr))
    (images : String → Option Image) {e : Expr} {p : Program}
    (hp : (((start settings).after calls).compile images e).1 = .ok p) :
    p.uniforms = e.inputs.eraseDups ∧ (p.uniforms.map Prod.fst).Nodup ∧
      ∀ name s, (name, s) ∈ p.uniforms ↔ e.Mentions name s := by
  have hord := (start_isOrdered settings).after calls
  have hshaped := isShaped_of_compile hord hp
  obtain ⟨c, t, -, hrun⟩ := compile_of_isShaped hord images hshaped
  rw [hrun] at hp
  injection hp with hp
  have huniforms : p.uniforms = e.inputs.eraseDups := by
    rw [← hp]
    rfl
  refine ⟨huniforms, ?_, fun name s => ?_⟩
  · rw [huniforms]
    exact hshaped.2.nodup_names
  · rw [huniforms, List.mem_eraseDups, Expr.mem_inputs_iff]

/-- A read of an image that is not there, with inputs in its corners and its point, after a program and
a failure that have inputs of their own. -/
theorem uniforms_of_compile_missing :
    let corner := Expr.uniform "corner" (.realVector 2)
    let e := Expr.binary .add (.imageOn .rgb "cat" corner (.uniform "edge" .complex)
      (.binary .add (.uniform "shift" .complex) corner)) (.uniform "tint" (.realVector 3))
    let calls : List ((String → Option Image) × Expr) := [((fun _ => none), .uniform "old" .real),
      ((fun _ => none), .list [.uniform "lost" .real, .list []])]
    ∃ p, (((start {}).after calls).compile (fun _ => none) e).1 = .ok p ∧
      p.uniforms = [("shift", .complex), ("corner", .realVector 2), ("edge", .complex), ("tint", .realVector 3)] := by
  intro corner e calls
  refine ⟨_, rfl, ?_⟩
  rw [(uniforms_of_compile {} calls (fun _ => none) (e := e) rfl).1]
  decide

end Session
end ShaderAlgebra
