import ShaderAlgebra.Proofs.Names

/-!
# Places in a layout

The members of a struct have distinct names (`Shape.members_nodup`), and a place
in a row of chunks is in exactly the chunk and at the offset that `locateIn`
gives (`locateIn_eq_some`, `locateIn_eq_some_iff`).

So the elements of a vector and the places in its chunks are the same up to
naming (`layout_bijective`): every element has one place, every place holds one element,
and no chunk of a vector of two elements or more is a scalar, which could not be indexed.
-/

namespace ShaderAlgebra

/-- The name of a member of a row. -/
theorem memberName_injective {i j : Nat} (h : s!"a{i}" = s!"a{j}") : i = j := by
  have hl : (s!"a{i}").toList = (s!"a{j}").toList := by rw [h]
  simp only [toString, String.toList_append, Nat.toList_repr, List.append_cancel_left_eq] at hl
  exact toDigits_injective hl

theorem getElem?_numbered {α : Type} (parts : List α) (i : Nat) :
    (numbered parts)[i]? = parts[i]?.map fun part => (s!"a{i}", part) := by
  rw [numbered, List.getElem?_map, List.getElem?_zipIdx]
  cases parts[i]? <;> simp

theorem map_fst_numbered {α : Type} (parts : List α) :
    (numbered parts).map (·.1) = (List.range parts.length).map fun i => s!"a{i}" := by
  rw [numbered, List.map_map, List.range_eq_range', ← List.zipIdx_map_snd 0 parts, List.map_map]
  rfl

/-- The parts of a row, without their names. -/
theorem map_snd_numbered {α β : Type} (f : α → β) (parts : List α) :
    ((numbered parts).map fun m => f m.2) = parts.map f := by
  conv => rhs; rw [← List.zipIdx_map_fst 0 parts]
  rw [numbered, List.map_map, List.map_map]
  rfl

/-- The members of a row have distinct names. -/
theorem nodup_numbered {α : Type} (parts : List α) : ((numbered parts).map (·.1)).Nodup := by
  rw [map_fst_numbered]
  exact List.Pairwise.map _ (fun _ _ hne h => hne (memberName_injective h)) List.nodup_range

/-- A row of members stands under its numbers. -/
theorem mem_numbered {α : Type} {parts : List α} {i : Nat} {part : α} (h : parts[i]? = some part) :
    (s!"a{i}", part) ∈ numbered parts := by
  refine List.mem_of_getElem? (i := i) ?_
  rw [getElem?_numbered, h]
  rfl

/-- **Where a place is:** in the chunk `c`, at the offset `o`, behind the chunks before it. -/
theorem locateIn_eq_some {k : Nat} {ws : List Nat} (h : k < ws.sum) :
    ∃ c o w, locateIn k ws = some (c, o) ∧ ws[c]? = some w ∧ o < w ∧ (ws.take c).sum + o = k := by
  induction ws generalizing k with
  | nil => simp at h
  | cons w ws ih =>
    rw [List.sum_cons] at h
    by_cases hk : k < w
    · exact ⟨0, k, w, by rw [locateIn, if_pos hk], rfl, hk, by simp⟩
    · obtain ⟨c, o, w', hl, hw, ho, hs⟩ := ih (k := k - w) (by omega)
      refine ⟨c + 1, o, w', by rw [locateIn, if_neg hk, hl]; rfl, by simpa using hw, ho, ?_⟩
      rw [List.take_succ_cons, List.sum_cons]
      omega

/-- Element `k` of a row of chunks is at a place: in chunk `place.1`, with `place.2` elements before
it there. -/
def IsPlace (ws : List Nat) (k : Nat) (place : Nat × Nat) : Prop :=
  ∃ w, ws[place.1]? = some w ∧ place.2 < w ∧ (ws.take place.1).sum + place.2 = k

theorem isPlace_zero {w : Nat} {ws : List Nat} {k o : Nat} :
    IsPlace (w :: ws) k (0, o) ↔ k < w ∧ o = k := by
  simp only [IsPlace, List.getElem?_cons_zero, Option.some.injEq, exists_eq_left', List.take_zero,
    List.sum_nil, Nat.zero_add]
  constructor
  · rintro ⟨ho, rfl⟩
    exact ⟨ho, rfl⟩
  · rintro ⟨hk, rfl⟩
    exact ⟨hk, rfl⟩

theorem isPlace_succ {w : Nat} {ws : List Nat} {k c o : Nat} :
    IsPlace (w :: ws) k (c + 1, o) ↔ w ≤ k ∧ IsPlace ws (k - w) (c, o) := by
  simp only [IsPlace, List.getElem?_cons_succ, List.take_succ_cons, List.sum_cons]
  constructor
  · rintro ⟨v, hv, ho, hk⟩
    exact ⟨by omega, v, hv, ho, by omega⟩
  · rintro ⟨hw, v, hv, ho, hk⟩
    exact ⟨v, hv, ho, by omega⟩

/-- **The search finds the place of an element, and no other.** -/
theorem locateIn_eq_some_iff {ws : List Nat} {k : Nat} {place : Nat × Nat} :
    locateIn k ws = some place ↔ IsPlace ws k place := by
  -- the search and the place step over the chunks together
  induction ws generalizing k place with
  | nil => simp [locateIn, IsPlace]
  | cons w ws ih =>
    obtain ⟨c, o⟩ := place
    by_cases hk : k < w
    · rw [locateIn, if_pos hk, Option.some.injEq, Prod.mk.injEq]
      cases c with
      | zero => simp [isPlace_zero, hk, eq_comm]
      | succ c => simp [isPlace_succ, Nat.not_le.2 hk]
    · rw [locateIn, if_neg hk, Option.map_eq_some_iff]
      cases c with
      | zero => simp [isPlace_zero, hk]
      | succ c => simp [isPlace_succ, Nat.not_lt.1 hk, ← ih]

/-- An element that has a place is in the row. -/
theorem IsPlace.lt_sum {ws : List Nat} {k : Nat} {place : Nat × Nat} (h : IsPlace ws k place) :
    k < ws.sum := by
  obtain ⟨w, hw, ho, rfl⟩ := h
  have hsum : (ws.take (place.1 + 1)).sum ≤ ws.sum :=
    (List.take_sublist _ _).sum_le_sum fun _ _ => Nat.zero_le _
  rw [List.take_add_one, hw, List.sum_append, Option.toList_some, List.sum_singleton] at hsum
  omega

/-! ## The layout of a vector -/

theorem locate_eq_ok_iff {k n : Nat} {place : Nat × Nat} :
    locate k n = .ok place ↔ IsPlace (chunks n) k place := by
  rw [← locateIn_eq_some_iff, locate]
  cases locateIn k (chunks n) <;> simp

/-- An element has a place exactly if the vector has it. -/
theorem exists_locate_iff {k n : Nat} : (∃ place, locate k n = .ok place) ↔ k < n := by
  constructor
  · rintro ⟨place, h⟩
    exact sum_chunks n ▸ (locate_eq_ok_iff.1 h).lt_sum
  · intro h
    obtain ⟨c, o, w, -, hw, ho, hk⟩ := locateIn_eq_some (show k < (chunks n).sum by rwa [sum_chunks])
    exact ⟨(c, o), locate_eq_ok_iff.2 ⟨w, hw, ho, hk⟩⟩

/-- Four more elements are one more chunk. -/
theorem chunks_add_four {n : Nat} (h : 2 ≤ n) : chunks (n + 4) = chunks n ++ [4] := by
  have hfirst : firstChunks (n + 4) = firstChunks n := by
    rw [firstChunks, show n + 4 - 2 = n - 2 + 4 by omega, Nat.add_mod_right, ← firstChunks]
  have hrest : (n + 4 - 2) / 4 = (n - 2) / 4 + 1 := by omega
  rw [chunks, if_neg (by omega), chunks, if_neg (by omega), hfirst, hrest, List.replicate_succ',
    List.append_assoc]
  rfl

/-- A chunk is not empty, and a vector of one element is a scalar. -/
theorem one_le_chunk {n w : Nat} (hn : 1 ≤ n) (h : w ∈ chunks n) : 1 ≤ w ∧ w ≤ 4 := by
  obtain rfl | hn : n = 1 ∨ 2 ≤ n := by omega
  · obtain rfl : w = 1 := List.mem_singleton.1 h
    decide
  · exact ⟨Nat.le_of_lt (chunk_bounds hn h).1, (chunk_bounds hn h).2⟩

/-- **The layout of a vector is a bijection** of its elements with the places in its chunks.  The
chunks add up to the length, none is empty or wider than four, and none has width one unless the
vector has; four more elements are one more chunk.  An element is located exactly if the vector has
it, at its one place; two elements are never at the same place, and every place is that of an
element. -/
theorem layout_bijective (n : Nat) :
    (1 ≤ n → (chunks n).sum = n ∧ ∀ w ∈ chunks n, 1 ≤ w ∧ w ≤ 4) ∧
      (2 ≤ n → ∀ w ∈ chunks n, 2 ≤ w ∧ w ≤ 4) ∧
      (6 ≤ n → chunks n = chunks (n - 4) ++ [4]) ∧
      (∀ k, (∃ place, locate k n = .ok place) ↔ k < n) ∧
      (∀ k place, locate k n = .ok place →
        IsPlace (chunks n) k place ∧ ∀ other, IsPlace (chunks n) k other → other = place) ∧
      (∀ j k place, locate j n = .ok place → locate k n = .ok place → j = k) ∧
      ∀ c o w, (chunks n)[c]? = some w → o < w → ∃ k < n, locate k n = .ok (c, o) := by
  refine ⟨fun h => ⟨sum_chunks n, fun w => one_le_chunk h⟩, fun h w => chunk_bounds h, fun h => ?_,
    fun k => exists_locate_iff, fun k place h => ⟨locate_eq_ok_iff.1 h, fun other hother => ?_⟩,
    fun j k place hj hk => ?_, fun c o w hw ho => ?_⟩
  · obtain ⟨m, rfl⟩ := Nat.exists_eq_add_of_le' (show 4 ≤ n by omega)
    exact chunks_add_four (by omega)
  · have hsame := (locate_eq_ok_iff.2 hother).symm.trans h
    exact Except.ok.inj hsame
  · -- a place tells how many elements are before it
    obtain ⟨_, -, -, rfl⟩ := locate_eq_ok_iff.1 hj
    obtain ⟨_, -, -, rfl⟩ := locate_eq_ok_iff.1 hk
    rfl
  · have hplace : locate (((chunks n).take c).sum + o) n = .ok (c, o) :=
      locate_eq_ok_iff.2 ⟨w, hw, ho, rfl⟩
    exact ⟨_, exists_locate_iff.1 ⟨_, hplace⟩, hplace⟩

/-- A vector of thirteen elements: its chunks, and the last place of its third chunk. -/
theorem layout_bijective_thirteen :
    chunks 13 = chunks 9 ++ [4] ∧ (∀ w ∈ chunks 13, 2 ≤ w ∧ w ≤ 4) ∧ (chunks 13)[2]? = some 4 ∧
      ∃ k < 13, locate k 13 = .ok (2, 3) := by
  obtain ⟨-, hbounds, hpeel, -, -, -, hhit⟩ := layout_bijective 13
  exact ⟨hpeel (by decide), hbounds (by decide), by decide, hhit 2 3 4 (by decide) (by decide)⟩

namespace Shape

/-- **The members of a struct have distinct names.** -/
theorem members_nodup {s : Shape} (h : s.IsRecord) : (s.members.map (·.1)).Nodup := by
  have hn := h.2
  have hparts : ["real", "imag"].Nodup := by decide
  rcases h.cases with ⟨n, rfl, hw, -⟩ | ⟨n, rfl, -⟩ | ⟨r, c, rfl, -⟩ | ⟨r, c, rfl, -⟩
  · rw [members_realVector hw]
    exact nodup_numbered _
  · rw [members_complex h rfl]
    exact hparts
  · rw [members_realMatrix hn]
    exact nodup_numbered _
  · rw [members_complex h rfl]
    exact hparts

end Shape
end ShaderAlgebra
