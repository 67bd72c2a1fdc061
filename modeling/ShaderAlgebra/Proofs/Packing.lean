import ShaderAlgebra.Proofs.Emission
import ShaderAlgebra.Proofs.Layout
import ShaderAlgebra.Proofs.Meaning

/-!
# How values are stored

A value of a shape is stored from its coordinates, a list of rationals: the entries
of a vector, the rows of a matrix one after the other, the real parts of a
complex value before its imaginary parts.  Storing follows the storage of the shape.  A native vector
holds its coordinates, a native matrix its columns, and a struct hands each member its own portion
of the coordinates.

Since every member of a struct has its portion, what is done to all coordinates alike is
done to the coordinates of every member (`portion_zipWith`).
-/

namespace ShaderAlgebra

open Glsl (Value)

/-- The columns of a matrix that is given by its rows. -/
def columns (r c : Nat) (xs : List ℚ) : List (List ℚ) :=
  (List.range c).map fun j => (List.range r).map fun i => xs.getD (i * c + j) 0

namespace Storage

/-- The number of coordinates of a native value. -/
def nativeSize : Shape → Nat
  | .scalar .complex => 2
  | .scalar _ => 1
  | .vector n _ => n
  | .matrix r c _ => r * c

/-- A native value of its coordinates. -/
def packNative (s : Shape) (xs : List ℚ) : Value :=
  match s with
  | .scalar .complex => .vec xs
  | .scalar _ => .float (xs.headD 0)
  | .vector n _ => if n = 1 then .float (xs.headD 0) else .vec xs
  | .matrix r c _ => .mat (columns r c xs)

mutual

/-- The number of coordinates of a stored value. -/
def size : Storage → Nat
  | native s => nativeSize s
  | record _ ms => sizeOfMembers ms

/-- The number of coordinates of members. -/
def sizeOfMembers : List (String × Storage) → Nat
  | [] => 0
  | (_, part) :: rest => size part + sizeOfMembers rest

end

mutual

/-- A stored value of its coordinates. -/
def pack : Storage → List ℚ → Value
  | native s, xs => packNative s xs
  | record s ms, xs => .struct s.name (packMembers ms xs)

/-- Members of their coordinates, one after the other. -/
def packMembers : List (String × Storage) → List ℚ → List (String × Value)
  | [], _ => []
  | (field, part) :: rest, xs =>
    (field, pack part (xs.take (size part))) :: packMembers rest (xs.drop (size part))

end

end Storage

namespace Shape

/-- The number of coordinates of a value. -/
abbrev size (s : Shape) : Nat :=
  s.storage.size

/-- The stored value of coordinates. -/
abbrev pack (s : Shape) (xs : List ℚ) : Value :=
  s.storage.pack xs

end Shape

/-- The coordinates that fall to a member. -/
def portion : List (String × Shape) → String → List ℚ → List ℚ
  | [], _, _ => []
  | (f, s) :: rest, field, xs =>
    if field = f then xs.take s.size else portion rest field (xs.drop s.size)

/-- Members of their coordinates. -/
def packAll : List (String × Shape) → List ℚ → List (String × Value)
  | [], _ => []
  | (field, s) :: rest, xs =>
    (field, s.pack (xs.take s.size)) :: packAll rest (xs.drop s.size)

namespace Shape

theorem size_of_native {s : Shape} (h : s.isNative) : s.size = Storage.nativeSize s := by
  rw [size, storage_of_native h, Storage.size]

theorem size_of_record {s : Shape} (h : s.IsRecord) : s.size = (s.members.map (·.2.size)).sum := by
  have hmap : ∀ ms : List (String × Shape), Storage.sizeOfMembers (ms.map fun m => (m.1, m.2.storage)) =
      (ms.map (·.2.size)).sum := by
    intro ms
    induction ms with
    | nil => rfl
    | cons m ms ih => rw [List.map_cons, Storage.sizeOfMembers, ih, List.map_cons, List.sum_cons]
  rw [size, storage_of_record h, Storage.size, hmap]

theorem pack_of_native {s : Shape} (h : s.isNative) (xs : List ℚ) :
    s.pack xs = Storage.packNative s xs := by
  rw [pack, storage_of_native h, Storage.pack]

theorem pack_of_record {s : Shape} (h : s.IsRecord) (xs : List ℚ) :
    s.pack xs = .struct s.name (packAll s.members xs) := by
  have hmap : ∀ (ms : List (String × Shape)) (xs : List ℚ),
      Storage.packMembers (ms.map fun m => (m.1, m.2.storage)) xs = packAll ms xs := by
    intro ms
    induction ms with
    | nil => exact fun _ => rfl
    | cons m ms ih =>
      intro xs
      rw [List.map_cons, Storage.packMembers, packAll, ih]
  rw [pack, storage_of_record h, Storage.pack, hmap]

/-! ## The number of coordinates -/

theorem size_realVector {n : Nat} (h : 1 ≤ n ∧ n ≤ maxDimension) : (realVector n).size = n := by
  by_cases hw : n ≤ maxNativeWidth
  · rw [size_of_native (realVector_isNative.2 hw)]
    rfl
  · have h5 : 5 ≤ n := Nat.not_le.1 hw
    have hchunks : (chunks n).map (fun w => (realVector w).size) = chunks n := by
      refine (List.map_congr_left fun w hwc => ?_).trans (List.map_id _)
      rw [size_of_native (realVector_isNative.2 (chunk_bounds (by omega) hwc).2)]
      rfl
    rw [size_of_record (realVector_isRecord h hw), members_realVector h5,
      map_snd_numbered size, List.map_map]
    exact (congrArg List.sum hchunks).trans (sum_chunks n)

theorem size_realMatrix {r c : Nat} (h : (matrix r c .real).Valid) :
    (matrix r c .real).size = r * c := by
  cases hn : (matrix r c .real).isNative with
  | true =>
    rw [size_of_native hn]
    rfl
  | false =>
    rw [size_of_record ⟨h, hn⟩, members_realMatrix hn, map_snd_numbered size, List.map_replicate,
      size_realVector h.2.1, List.sum_replicate, smul_eq_mul]

theorem size_complex {s : Shape} (h : s.IsRecord) (hk : s.kind = .complex) :
    s.size = s.part.size + s.part.size := by
  rw [size_of_record h, members_complex h hk]
  simp

end Shape

/-! ## Portions -/

section Portions

variable {ms : List (String × Shape)} {field : String} {s : Shape}

theorem portion_self (m : String × Shape) (ms : List (String × Shape)) (xs : List ℚ) :
    portion (m :: ms) m.1 xs = xs.take m.2.size :=
  if_pos rfl

theorem portion_of_ne {m : String × Shape} (h : field ≠ m.1) (ms : List (String × Shape)) (xs : List ℚ) :
    portion (m :: ms) field xs = portion ms field (xs.drop m.2.size) :=
  if_neg h

/-- Where names are distinct, no later member has the name of the first. -/
theorem fst_ne_of_nodup {m m' : String × Shape} (hnd : ((m :: ms).map (·.1)).Nodup) (hm : m' ∈ ms) :
    m'.1 ≠ m.1 := by
  intro he
  rw [List.map_cons, List.nodup_cons] at hnd
  exact hnd.1 (he ▸ List.mem_map_of_mem hm)

/-- The portions of the later members are cut from what the first leaves. -/
theorem map_portion_cons {α : Type} {m : String × Shape} (hnd : ((m :: ms).map (·.1)).Nodup)
    (g : String × Shape → List ℚ → α) (xs : List ℚ) :
    (ms.map fun m' => g m' (portion (m :: ms) m'.1 xs)) =
      ms.map fun m' => g m' (portion ms m'.1 (xs.drop m.2.size)) := by
  refine List.map_congr_left fun m' hm' => ?_
  rw [portion_of_ne (fst_ne_of_nodup hnd hm')]

theorem portion_zipWith (f : ℚ → ℚ → ℚ) (ms : List (String × Shape)) (field : String)
    (xs ys : List ℚ) : portion ms field (List.zipWith f xs ys) =
      List.zipWith f (portion ms field xs) (portion ms field ys) := by
  induction ms generalizing xs ys with
  | nil => rfl
  | cons m ms ih =>
    by_cases h : field = m.1
    · subst h
      rw [portion_self, portion_self, portion_self, List.take_zipWith]
    · rw [portion_of_ne h, portion_of_ne h, portion_of_ne h, List.drop_zipWith, ih]

theorem portion_length (hm : (field, s) ∈ ms) (hnd : (ms.map (·.1)).Nodup) {xs : List ℚ}
    (hl : xs.length = (ms.map (·.2.size)).sum) : (portion ms field xs).length = s.size := by
  induction ms generalizing xs with
  | nil => cases hm
  | cons m ms ih =>
    rw [List.map_cons, List.sum_cons] at hl
    rcases List.mem_cons.1 hm with rfl | hm
    · rw [portion_self, List.length_take, hl]
      exact Nat.min_eq_left (Nat.le_add_right _ _)
    · rw [portion_of_ne (fst_ne_of_nodup hnd hm)]
      exact ih hm (List.nodup_cons.1 hnd).2 (by rw [List.length_drop, hl, Nat.add_sub_cancel_left])

theorem portion_replicate (hm : (field, s) ∈ ms) (hnd : (ms.map (·.1)).Nodup) (x : ℚ) :
    portion ms field (List.replicate (ms.map (·.2.size)).sum x) = List.replicate s.size x := by
  have hlen := portion_length hm hnd
    (show (List.replicate (ms.map (·.2.size)).sum x).length = _ from List.length_replicate)
  have hall : ∀ (ms : List (String × Shape)) (k : Nat), ∀ y ∈ portion ms field (List.replicate k x), y = x := by
    intro ms
    induction ms with
    | nil => intro k y hy; cases hy
    | cons m ms ih =>
      intro k y hy
      by_cases h : field = m.1
      · rw [h, portion_self] at hy
        exact List.eq_of_mem_replicate (List.mem_of_mem_take hy)
      · rw [portion_of_ne h, List.drop_replicate] at hy
        exact ih _ y hy
  exact List.eq_replicate_iff.2 ⟨hlen, hall _ _⟩

/-- A member of a struct holds its portion. -/
theorem lookup_packAll (hm : (field, s) ∈ ms) (hnd : (ms.map (·.1)).Nodup) (xs : List ℚ) :
    (packAll ms xs).lookup field = some (s.pack (portion ms field xs)) := by
  induction ms generalizing xs with
  | nil => cases hm
  | cons m ms ih =>
    rw [packAll, List.lookup_cons]
    rcases List.mem_cons.1 hm with rfl | hm
    · rw [beq_self_eq_true, portion_self]
    · have hne := fst_ne_of_nodup hnd hm
      rw [beq_eq_false_iff_ne.2 hne, portion_of_ne hne]
      exact ih hm (List.nodup_cons.1 hnd).2 _

/-- The portion of a member stands behind those of the members before it. -/
theorem portion_eq {i : Nat} (hm : ms[i]? = some (field, s)) (hnd : (ms.map (·.1)).Nodup)
    (xs : List ℚ) :
    portion ms field xs = (xs.drop ((ms.take i).map (·.2.size)).sum).take s.size := by
  induction ms generalizing i xs with
  | nil => simp at hm
  | cons m ms ih =>
    cases i with
    | zero =>
      obtain rfl : m = (field, s) := by simpa using hm
      rw [portion_self]
      simp
    | succ i =>
      rw [List.getElem?_cons_succ] at hm
      rw [portion_of_ne (fst_ne_of_nodup hnd (List.mem_of_getElem? hm)), ih hm (List.nodup_cons.1 hnd).2,
        List.take_succ_cons, List.map_cons, List.sum_cons, List.drop_drop]

/-- The portions make up all coordinates. -/
theorem sum_portions (hnd : (ms.map (·.1)).Nodup) {xs : List ℚ}
    (hl : xs.length = (ms.map (·.2.size)).sum) :
    (ms.map fun m => (portion ms m.1 xs).sum).sum = xs.sum := by
  induction ms generalizing xs with
  | nil =>
    obtain rfl : xs = [] := List.eq_nil_of_length_eq_zero hl
    rfl
  | cons m ms ih =>
    have hnd' := (List.nodup_cons.1 hnd).2
    rw [List.map_cons, List.sum_cons] at hl
    rw [List.map_cons, List.sum_cons, map_portion_cons hnd fun _ ys => ys.sum,
      ih hnd' (by rw [List.length_drop, hl, Nat.add_sub_cancel_left]), portion_self, ← List.sum_append,
      List.take_append_drop]

/-- Members are packed one by one. -/
theorem zip_packAll (hnd : (ms.map (·.1)).Nodup) (xs : List ℚ) :
    (ms.map (·.1)).zip (ms.map fun m => m.2.pack (portion ms m.1 xs)) = packAll ms xs := by
  induction ms generalizing xs with
  | nil => rfl
  | cons m ms ih =>
    rw [List.map_cons, List.map_cons, map_portion_cons hnd fun m' ys => m'.2.pack ys, List.zip_cons_cons,
      ih (List.nodup_cons.1 hnd).2, packAll, portion_self]

end Portions

theorem Shape.member_pack {s : Shape} (hs : s.IsRecord) {field : String} {part : Shape}
    (hm : (field, part) ∈ s.members) (xs : List ℚ) :
    (s.pack xs).member field = some (part.pack (portion s.members field xs)) := by
  rw [pack_of_record hs, Value.member]
  exact lookup_packAll hm (members_nodup hs) xs

/-! ## Coordinates -/

/-- The rows of a matrix, one after the other. -/
def rowMajor {r c : Nat} (M : Fin r → Fin c → ℚ) : List ℚ :=
  (List.ofFn fun i => List.ofFn (M i)).flatten

/-- The coordinates of a value. -/
def coords : (s : Shape) → s.Carrier → List ℚ
  | .scalar .real, x => [x]
  | .scalar .complex, z => [z.re, z.im]
  | .vector _ .real, v => List.ofFn v
  | .vector _ .complex, v => List.ofFn (fun i => (v i).re) ++ List.ofFn fun i => (v i).im
  | .matrix _ _ .real, M => rowMajor fun i j => M i j
  | .matrix _ _ .complex, M => rowMajor (fun i j => (M i j).re) ++ rowMajor fun i j => (M i j).im
  | .scalar .bool, _ | .scalar .int, _ | .vector _ .bool, _ | .vector _ .int, _
  | .matrix _ _ .bool, _ | .matrix _ _ .int, _ => []

/-- **The stored representation of a value.** -/
def store : (s : Shape) → s.Carrier → Value
  | .scalar .bool, b => .bool b
  | .scalar .int, n => .int n
  | s, v => s.pack (coords s v)

theorem store_of_field {s : Shape} (h : s.kind.isField) (v : s.Carrier) :
    store s v = s.pack (coords s v) := by
  cases s with
  | scalar k =>
    cases k with
    | bool | int => cases h
    | real | complex => rfl
  | vector n k => rfl
  | matrix r c k => rfl

theorem store_complex (z : Gauss) : store .complex z = .vec [z.re, z.im] :=
  rfl

theorem store_nativeVector {n : Nat} (h2 : 2 ≤ n) (h4 : n ≤ maxNativeWidth) (v : Fin n → ℚ) :
    store (.realVector n) v = .vec (List.ofFn v) := by
  rw [store_of_field rfl, Shape.pack_of_native (Shape.realVector_isNative.2 h4)]
  exact if_neg (by omega)

theorem rowMajor_succ {r c : Nat} (M : Fin (r + 1) → Fin c → ℚ) :
    rowMajor M = List.ofFn (M 0) ++ rowMajor fun i => M i.succ := by
  rw [rowMajor, List.ofFn_succ, List.flatten_cons]
  rfl

theorem length_rowMajor {r c : Nat} (M : Fin r → Fin c → ℚ) : (rowMajor M).length = r * c := by
  induction r with
  | zero => simp [rowMajor]
  | succ r ih => rw [rowMajor_succ, List.length_append, ih, List.length_ofFn, Nat.succ_mul, Nat.add_comm]

/-- A row of a matrix among its rows. -/
theorem take_drop_rowMajor {r c : Nat} (M : Fin r → Fin c → ℚ) (i : Fin r) :
    ((rowMajor M).drop (i * c)).take c = List.ofFn (M i) := by
  induction r with
  | zero => exact i.elim0
  | succ r ih =>
    rw [rowMajor_succ]
    refine Fin.cases ?_ (fun i => ?_) i
    · simp
    · have hskip : (i.succ : Nat) * c = (List.ofFn (M 0)).length + i * c := by
        rw [List.length_ofFn, Fin.val_succ, Nat.succ_mul, Nat.add_comm]
      rw [hskip, List.drop_append, List.drop_eq_nil_of_le (Nat.le_add_right _ _), List.nil_append,
        Nat.add_sub_cancel_left]
      exact ih (fun i => M i.succ) i

/-- An entry of a matrix among its rows. -/
theorem getD_rowMajor {r c : Nat} (M : Fin r → Fin c → ℚ) (i : Fin r) (j : Fin c) :
    (rowMajor M).getD (i * c + j) 0 = M i j := by
  have hrow : (((rowMajor M).drop (i * c)).take c)[(j : Nat)]? = (List.ofFn (M i))[(j : Nat)]? := by
    rw [take_drop_rowMajor]
  rw [List.getElem?_take_of_lt j.2, List.getElem?_drop, List.getElem?_ofFn, dif_pos j.2] at hrow
  rw [List.getD_eq_getElem?_getD, hrow, Option.getD_some]

/-- The columns of a matrix from its rows. -/
theorem columns_rowMajor {r c : Nat} (M : Fin r → Fin c → ℚ) :
    columns r c (rowMajor M) = List.ofFn fun j => List.ofFn fun i => M i j := by
  refine List.ext_getElem (by simp [columns]) fun j h h' => ?_
  have hj : j < c := by simpa using h'
  rw [List.getElem_ofFn]
  refine List.ext_getElem (by simp [columns]) fun i h h' => ?_
  have hi : i < r := by simpa using h'
  simpa [columns] using getD_rowMajor M ⟨i, hi⟩ ⟨j, hj⟩

theorem store_nativeMatrix {n : Nat} (hn : (Shape.matrix n n .real).isNative)
    (M : Matrix (Fin n) (Fin n) ℚ) :
    store (.matrix n n .real) M = .mat (List.ofFn fun j => List.ofFn fun i => M i j) := by
  rw [store_of_field rfl, Shape.pack_of_native hn]
  exact congrArg Value.mat (columns_rowMajor fun i j => M i j)

theorem length_coords {s : Shape} (hv : s.Valid) (hk : s.kind.isField) (v : s.Carrier) :
    (coords s v).length = s.size := by
  cases s with
  | scalar k =>
    cases k with
    | bool | int => cases hk
    | real | complex => rfl
  | vector n k =>
    cases k with
    | bool | int => cases hk
    | real => rw [Shape.size_realVector hv.1, coords, List.length_ofFn]
    | complex =>
      rw [Shape.size_complex ⟨hv, rfl⟩ rfl, coords, List.length_append, List.length_ofFn,
        List.length_ofFn]
      rw [show (Shape.vector n .complex).part = .realVector n from rfl, Shape.size_realVector hv.1]
  | matrix r c k =>
    cases k with
    | bool | int => cases hk
    | real => rw [Shape.size_realMatrix hv, coords, length_rowMajor]
    | complex =>
      rw [Shape.size_complex ⟨hv, rfl⟩ rfl, coords, List.length_append, length_rowMajor,
        length_rowMajor]
      rw [show (Shape.matrix r c .complex).part = .matrix r c .real from rfl,
        Shape.size_realMatrix (Shape.realMatrix_valid hv.1 hv.2.1)]

theorem zipWith_ofFn {α β γ : Type} (f : α → β → γ) {n : Nat} (v : Fin n → α) (w : Fin n → β) :
    List.zipWith f (List.ofFn v) (List.ofFn w) = List.ofFn fun i => f (v i) (w i) := by
  refine List.ext_getElem (by simp) fun i h h' => ?_
  simp

theorem zipWith_rowMajor (f : ℚ → ℚ → ℚ) {r c : Nat} (M N : Fin r → Fin c → ℚ) :
    List.zipWith f (rowMajor M) (rowMajor N) = rowMajor fun i j => f (M i j) (N i j) := by
  induction r with
  | zero => rfl
  | succ r ih =>
    rw [rowMajor_succ, rowMajor_succ N, rowMajor_succ fun i j => f (M i j) (N i j),
      List.zipWith_append (by simp), zipWith_ofFn, ih]

/-- An operation on values that is an operation `f` on the rationals in them. -/
structure Pointwise (op : (s : Shape) → s.Carrier → s.Carrier → s.Carrier) (f : ℚ → ℚ → ℚ) : Prop where
  real : ∀ x y : ℚ, op .real x y = f x y
  complex : ∀ z w : Gauss, op .complex z w = (⟨f z.re w.re, f z.im w.im⟩ : Gauss)
  vector : ∀ {n k} (v w : Fin n → Scalar.Carrier k) i,
    op (.vector n k) v w i = op (.scalar k) (v i) (w i)
  matrix : ∀ {r c k} (M N : Matrix (Fin r) (Fin c) (Scalar.Carrier k)) i j,
    op (.matrix r c k) M N i j = op (.scalar k) (M i j) (N i j)

theorem pointwise_add : Pointwise (fun _ a b => a + b) (· + ·) :=
  ⟨fun _ _ => rfl, fun _ _ => rfl, fun _ _ _ => rfl, fun _ _ _ _ => rfl⟩

theorem pointwise_sub : Pointwise (fun _ a b => a - b) (· - ·) :=
  ⟨fun _ _ => rfl, fun _ _ => rfl, fun _ _ _ => rfl, fun _ _ _ _ => rfl⟩

/-- **What acts on every entry alike acts on every coordinate alike.** -/
theorem Pointwise.coords {op : (s : Shape) → s.Carrier → s.Carrier → s.Carrier} {f : ℚ → ℚ → ℚ}
    (h : Pointwise op f) {s : Shape} (hk : s.kind.isField) (a b : s.Carrier) :
    coords s (op s a b) = List.zipWith f (coords s a) (coords s b) := by
  cases s with
  | scalar k =>
    cases k with
    | bool | int => cases hk
    | real => exact congrArg (fun x => [x]) (h.real a b)
    | complex => simp [ShaderAlgebra.coords, h.complex]
  | vector n k =>
    cases k with
    | bool | int => cases hk
    | real =>
      rw [ShaderAlgebra.coords, ShaderAlgebra.coords, ShaderAlgebra.coords, zipWith_ofFn]
      exact congrArg List.ofFn (funext fun i => (h.vector a b i).trans (h.real _ _))
    | complex => simp [ShaderAlgebra.coords, List.zipWith_append, zipWith_ofFn, h.vector, h.complex]
  | matrix r c k =>
    cases k with
    | bool | int => cases hk
    | real => simp [ShaderAlgebra.coords, zipWith_rowMajor, h.matrix, h.real]
    | complex =>
      simp [ShaderAlgebra.coords, List.zipWith_append, length_rowMajor, zipWith_rowMajor, h.matrix,
        h.complex]

/-! ## Parts of complex values -/

/-- The real part of a complex value; other values are their own. -/
def realPart : (s : Shape) → s.Carrier → s.part.Carrier
  | .scalar .complex, z => z.re
  | .vector _ .complex, v => fun i => (v i).re
  | .matrix _ _ .complex, M => fun i j => (M i j).re
  | .scalar .real, x | .scalar .bool, x | .scalar .int, x | .vector _ .real, x | .vector _ .bool, x
  | .vector _ .int, x | .matrix _ _ .real, x | .matrix _ _ .bool, x | .matrix _ _ .int, x => x

/-- The imaginary part of a complex value; that of other values is zero. -/
def imagPart : (s : Shape) → s.Carrier → s.part.Carrier
  | .scalar .complex, z => z.im
  | .vector _ .complex, v => fun i => (v i).im
  | .matrix _ _ .complex, M => fun i j => (M i j).im
  | _, _ => 0

theorem coords_complex {s : Shape} (hk : s.kind = .complex) (v : s.Carrier) :
    coords s v = coords s.part (realPart s v) ++ coords s.part (imagPart s v) := by
  cases s with
  | scalar k | vector n k | matrix r c k =>
    obtain rfl : k = .complex := hk
    rfl

theorem portion_real {s : Shape} (hs : s.IsRecord) (hk : s.kind = .complex) {xs : List ℚ}
    (hx : xs.length = s.part.size) (ys : List ℚ) : portion s.members "real" (xs ++ ys) = xs := by
  rw [Shape.members_complex hs hk, portion_self, ← hx, List.take_left]

theorem portion_imag {s : Shape} (hs : s.IsRecord) (hk : s.kind = .complex) {xs ys : List ℚ}
    (hx : xs.length = s.part.size) (hy : ys.length = s.part.size) :
    portion s.members "imag" (xs ++ ys) = ys := by
  rw [Shape.members_complex hs hk, portion_of_ne (show "imag" ≠ "real" by decide), portion_self, ← hx,
    List.drop_left, hx, ← hy, List.take_length]

/-! ## Multiples -/

theorem map_rowMajor (g : ℚ → ℚ) {r c : Nat} (M : Fin r → Fin c → ℚ) :
    (rowMajor M).map g = rowMajor fun i j => g (M i j) := by
  rw [rowMajor, List.map_flatten, List.map_ofFn]
  simp [Function.comp_def, List.map_ofFn, rowMajor]

/-- A real multiple of a complex number. -/
theorem C_mul_eq (q : ℚ) (z : Gauss) : QuadraticAlgebra.C q * z = (⟨q * z.re, q * z.im⟩ : Gauss) := by
  ext <;> simp

/-- A real multiple of a value. -/
theorem coords_smul {s : Shape} {f : ℚ → s.kind.Carrier} (hf : s.kind.ofReal? = some f) (q : ℚ)
    (v : s.Carrier) : coords s (f q • v) = (coords s v).map (q * ·) := by
  cases s with
  | scalar k =>
    cases k with
    | bool | int => cases hf
    | real =>
      obtain rfl : id = f := Option.some.inj hf
      rfl
    | complex =>
      obtain rfl : QuadraticAlgebra.C = f := Option.some.inj hf
      change [(QuadraticAlgebra.C q * v : Gauss).re, (QuadraticAlgebra.C q * v : Gauss).im] = _
      rw [C_mul_eq]
      rfl
  | vector n k =>
    cases k with
    | bool | int => cases hf
    | real =>
      obtain rfl : id = f := Option.some.inj hf
      change List.ofFn (fun i => q * v i) = _
      rw [coords, List.map_ofFn]
      rfl
    | complex =>
      obtain rfl : QuadraticAlgebra.C = f := Option.some.inj hf
      change List.ofFn (fun i => (QuadraticAlgebra.C q * v i : Gauss).re) ++
        List.ofFn (fun i => (QuadraticAlgebra.C q * v i : Gauss).im) = _
      simp only [C_mul_eq, coords, List.map_append, List.map_ofFn]
      rfl
  | matrix r c k =>
    cases k with
    | bool | int => cases hf
    | real =>
      obtain rfl : id = f := Option.some.inj hf
      change rowMajor (fun i j => q * v i j) = _
      rw [coords, map_rowMajor]
    | complex =>
      obtain rfl : QuadraticAlgebra.C = f := Option.some.inj hf
      change rowMajor (fun i j => (QuadraticAlgebra.C q * v i j : Gauss).re) ++
        rowMajor (fun i j => (QuadraticAlgebra.C q * v i j : Gauss).im) = _
      simp only [C_mul_eq, coords, List.map_append, map_rowMajor]

/-- The product of complex numbers, by its parts. -/
theorem gauss_mul_eq (z w : Gauss) :
    z * w = (⟨z.re * w.re - z.im * w.im, z.re * w.im + z.im * w.re⟩ : Gauss) := by
  ext
  · rw [QuadraticAlgebra.re_mul]
    ring
  · rw [QuadraticAlgebra.im_mul]
    ring

/-- The coordinates of a complex multiple, from those of the two parts. -/
def complexMultiple (z : Gauss) (xs ys : List ℚ) : List ℚ :=
  List.zipWith (· - ·) (xs.map (z.re * ·)) (ys.map (z.im * ·)) ++
    List.zipWith (· + ·) (ys.map (z.re * ·)) (xs.map (z.im * ·))

/-- A complex multiple of a value. -/
theorem coords_complex_smul {s : Shape} (h : .complex = s.kind) (z : Gauss) (v : s.Carrier) :
    coords s ((cast (congrArg Scalar.Carrier h) z : s.kind.Carrier) • v) =
      complexMultiple z (coords s.part (realPart s v)) (coords s.part (imagPart s v)) := by
  cases s with
  | scalar k =>
    obtain rfl : .complex = k := h
    change [(z * v : Gauss).re, (z * v : Gauss).im] = _
    rw [gauss_mul_eq]
    rfl
  | vector n k =>
    obtain rfl : .complex = k := h
    change List.ofFn (fun i => (z * v i : Gauss).re) ++ List.ofFn (fun i => (z * v i : Gauss).im) =
      complexMultiple z (List.ofFn fun i => (v i).re) (List.ofFn fun i => (v i).im)
    simp only [gauss_mul_eq, complexMultiple, List.map_ofFn, zipWith_ofFn]
    rfl
  | matrix r c k =>
    obtain rfl : .complex = k := h
    change rowMajor (fun i j => (z * v i j : Gauss).re) ++
      rowMajor (fun i j => (z * v i j : Gauss).im) =
      complexMultiple z (rowMajor fun i j => (v i j).re) (rowMajor fun i j => (v i j).im)
    simp only [gauss_mul_eq, complexMultiple, map_rowMajor, zipWith_rowMajor]

end ShaderAlgebra
