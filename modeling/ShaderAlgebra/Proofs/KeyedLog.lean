import Mathlib
import ShaderAlgebra.Registry

/-!
# A registry is an append-only log with keys

A registry keeps its entries and an index of their places.  Both are written by
`push` alone, and the index points to the latest entry under a key.  Where the
keys are distinct, that is the only one (`Distinct.lookup_index_iff`).

A request to a registry is an `add` or an `insert`.  The two have one step lemma
for an absent key (`Request.run_of_not_mem`) and one for a present key
(`Request.run_of_mem`): the first appends an entry, the second changes nothing,
whatever the answer is.  So the keys stay distinct along every run
(`Request.runAll_distinct`), in the order in which they were first asked for
(`Request.keys_runAll`), and `requests_only_append` says what follows.
-/

namespace ShaderAlgebra

/-! ## Without repetitions -/

/-- What has been met is not entered again. -/
theorem eraseDups_concat_of_mem {α : Type} [BEq α] [LawfulBEq α] {xs : List α} {x : α} (h : x ∈ xs) :
    (xs ++ [x]).eraseDups = xs.eraseDups := by
  simp [List.eraseDups_append, List.removeAll, h]

/-- What is new is entered at the end. -/
theorem eraseDups_concat_of_not_mem {α : Type} [BEq α] [LawfulBEq α] {xs : List α} {x : α}
    (h : x ∉ xs) : (xs ++ [x]).eraseDups = xs.eraseDups ++ [x] := by
  simp [List.eraseDups_append, List.removeAll, h, List.eraseDups_cons]

/-! ## Looking up a key -/

namespace Registry

variable {β : Type} {r : Registry β} {category : Category} {name : String} {body : β}

/-- The keys of a registry, in the order in which they were entered. -/
def keys (r : Registry β) : List (Category × String) :=
  r.entries.map Entry.key

@[simp] theorem keys_push (r : Registry β) (category : Category) (name : String) (body : β) :
    (r.push category name body).keys = r.keys ++ [(category, name)] := by
  simp [keys, Entry.key]

theorem mem_keys_iff : (category, name) ∈ r.keys ↔ ∃ body, ⟨category, name, body⟩ ∈ r.entries := by
  simp only [keys, List.mem_map]
  constructor
  · rintro ⟨⟨_, _, body⟩, he, ⟨⟩⟩
    exact ⟨body, he⟩
  · rintro ⟨body, he⟩
    exact ⟨_, he, rfl⟩

theorem contains_iff_mem_keys : r.contains category name ↔ (category, name) ∈ r.keys := by
  simp [contains_eq_any, keyed_iff, keys]

/-- The index points to an entry under the key that is looked up. -/
theorem exists_of_lookup {key : Category × String} {i : Nat} (h : r.index.lookup key = some i) :
    ∃ e, r.entries[i]? = some e ∧ e.key = key := by
  obtain ⟨later, earlier, heq, -⟩ := List.lookup_eq_some_iff.1 h
  refine Entry.mem_places.1 ?_
  rw [← r.agrees, heq]
  simp

/-- A look-up leads to an entry of the log. -/
theorem mem_of_find? (h : r.find? category name = some body) : ⟨category, name, body⟩ ∈ r.entries := by
  simp only [find?, Option.bind_eq_bind, Option.bind_eq_some_iff] at h
  obtain ⟨i, hi, e, he, hbody⟩ := h
  obtain ⟨e', he', hkey⟩ := exists_of_lookup hi
  obtain rfl := Option.some.inj (he.symm.trans he')
  obtain ⟨rfl, rfl⟩ := Prod.mk.inj hkey
  obtain rfl := Option.some.inj hbody
  exact List.mem_of_getElem? he

/-- A look-up finds nothing exactly when the key is absent. -/
theorem find?_eq_none_iff : r.find? category name = none ↔ (category, name) ∉ r.keys := by
  constructor
  · intro h hmem
    obtain ⟨i, hi⟩ := Option.isSome_iff_exists.1 (contains_iff_mem_keys.2 hmem)
    obtain ⟨e, he, -⟩ := exists_of_lookup hi
    simp [find?, hi, he] at h
  · intro h
    refine Option.eq_none_iff_forall_ne_some.2 fun body hbody => h ?_
    exact mem_keys_iff.2 ⟨body, mem_of_find? hbody⟩

/-- No key is entered twice. -/
def Distinct (r : Registry β) : Prop :=
  r.keys.Nodup

theorem Distinct.of_prefix {r' : Registry β} (h : r'.Distinct) (hp : r.entries <+: r'.entries) :
    r.Distinct :=
  (hp.sublist.map _).nodup h

/-- A key is entered without a repetition exactly if it was absent. -/
theorem distinct_push_iff :
    (r.push category name body).Distinct ↔ r.Distinct ∧ (category, name) ∉ r.keys := by
  rw [Distinct, keys_push, ← List.concat_eq_append, List.nodup_concat, and_comm, Distinct]

/-- **The index points to the entry of a key,** and to nothing for any other key. -/
theorem Distinct.lookup_index_iff (h : r.Distinct) {key : Category × String} {i : Nat} :
    r.index.lookup key = some i ↔ ∃ e, r.entries[i]? = some e ∧ e.key = key := by
  refine ⟨exists_of_lookup, ?_⟩
  rintro ⟨e, he, rfl⟩
  have hkey : r.keys[i]? = some e.key := by rw [keys, List.getElem?_map, he, Option.map_some]
  obtain ⟨j, hj⟩ := Option.isSome_iff_exists.1 (contains_iff_mem_keys.2 (List.mem_of_getElem? hkey))
  obtain ⟨e', he', hkey'⟩ := exists_of_lookup hj
  have hkeys : r.keys[i]? = r.keys[j]? := by
    rw [hkey, keys, List.getElem?_map, he', Option.map_some, hkey']
    rfl
  rw [(List.getElem?_inj (List.getElem?_eq_some_iff.1 hkey).1 h).1 hkeys]
  exact hj

/-- **The body under a key is that of its entry.** -/
theorem Distinct.find?_eq_some_iff (h : r.Distinct) :
    r.find? category name = some body ↔ ⟨category, name, body⟩ ∈ r.entries := by
  refine ⟨mem_of_find?, fun hmem => ?_⟩
  obtain ⟨i, hi⟩ := List.getElem?_of_mem hmem
  have hindex : r.index.lookup (category, name) = some i := h.lookup_index_iff.2 ⟨_, hi, rfl⟩
  simp [find?, hindex, hi]

/-! ## Requests -/

/-- A request to a registry.  What makes a definition may read and change a state of its own. -/
inductive Request (σ β : Type) where
  | add (category : Category) (name : String) (make : StateM σ β)
  | insert (category : Category) (name : String) (body : β)

namespace Request

variable {σ β : Type}

/-- The key that is asked for. -/
def key : Request σ β → Category × String
  | add category name _ | insert category name _ => (category, name)

/-- What makes the definition. -/
def make : Request σ β → StateM σ β
  | add _ _ make => make
  | insert _ _ body => pure body

variable [DecidableEq β]

/-- The answer to a request, and the registry and the state after it. -/
def run : Request σ β → Registry β × σ → Except Failure Emission × Registry β × σ
  | add category name make, (r, w) =>
    let ((emission, r), w) := (r.addM category name fun _ => make).run w
    (.ok emission, r, w)
  | insert category name body, (r, w) =>
    match r.insert category name body with
    | .ok (emission, r) => (.ok emission, r, w)
    | .error failure => (.error failure, r, w)

/-- The registry and the state after requests in order, from the registry without entries. -/
def runAll (requests : List (Request σ β)) (w : σ) : Registry β × σ :=
  requests.foldl (fun s q => (q.run s).2) (.empty, w)

variable {r : Registry β} {w : σ}

/-- **At an absent key a definition is made and entered,** by either request. -/
theorem run_of_not_mem {q : Request σ β} (h : q.key ∉ r.keys) : q.run (r, w) =
    (.ok .generated, r.push q.key.1 q.key.2 (q.make.run w).1, (q.make.run w).2) := by
  cases q with
  | add category name make =>
    have hc : ¬ r.contains category name := mt Registry.contains_iff_mem_keys.1 h
    simp only [run, Registry.addM, if_neg hc]
    rfl
  | insert category name body =>
    have hfind : r.find? category name = none := Registry.find?_eq_none_iff.2 h
    simp only [run, Registry.insert, hfind]
    rfl

/-- An `add` at a present key does nothing, and does not make the definition. -/
theorem run_add_of_mem {category : Category} {name : String} (make : StateM σ β)
    (h : (category, name) ∈ r.keys) : (add category name make).run (r, w) = (.ok .alreadyPresent, r, w) := by
  have hc : r.contains category name := Registry.contains_iff_mem_keys.2 h
  simp only [run, Registry.addM, if_pos hc]
  rfl

/-- An `insert` at a present key compares the body with the one that is there. -/
theorem run_insert_of_find? {category : Category} {name : String} {known : β}
    (h : r.find? category name = some known) (body : β) : (insert category name body).run (r, w) =
      (if known = body then .ok .alreadyPresent else .error (.conflict category name), r, w) := by
  by_cases hbody : known = body
  · simp only [run, Registry.insert, h, if_pos hbody]
  · simp only [run, Registry.insert, h, if_neg hbody]

/-- **At a present key nothing changes,** whatever the answer is. -/
theorem run_of_mem {q : Request σ β} (h : q.key ∈ r.keys) : (q.run (r, w)).2 = (r, w) := by
  cases q with
  | add category name make => rw [run_add_of_mem make h]
  | insert category name body =>
    obtain ⟨known, hknown⟩ := Option.ne_none_iff_exists'.1 (mt Registry.find?_eq_none_iff.1 (not_not.2 h))
    rw [run_insert_of_find? hknown]

/-- A request appends at most one entry. -/
theorem entries_prefix_run (q : Request σ β) (r : Registry β) (w : σ) :
    r.entries <+: (q.run (r, w)).2.1.entries := by
  by_cases h : q.key ∈ r.keys
  · rw [run_of_mem h]
  · rw [run_of_not_mem h]
    exact List.prefix_append _ _

/-- A request leaves the keys distinct. -/
theorem distinct_run (h : r.Distinct) (q : Request σ β) (w : σ) : (q.run (r, w)).2.1.Distinct := by
  by_cases hq : q.key ∈ r.keys
  · rwa [run_of_mem hq]
  · rw [run_of_not_mem hq]
    exact Registry.distinct_push_iff.2 ⟨h, hq⟩

/-- A body that is stored stays as it is. -/
theorem find?_run (h : r.Distinct) (q : Request σ β) {category : Category} {name : String} {body : β}
    (hbody : r.find? category name = some body) :
    (q.run (r, w)).2.1.find? category name = some body := by
  rw [(distinct_run h q w).find?_eq_some_iff]
  exact (entries_prefix_run q r w).subset (Registry.mem_of_find? hbody)

/-! ## Runs -/

theorem runAll_concat (requests : List (Request σ β)) (q : Request σ β) (w : σ) :
    runAll (requests ++ [q]) w = (q.run (runAll requests w)).2 :=
  List.foldl_append

/-- **The keys after requests are distinct.** -/
theorem runAll_distinct (requests : List (Request σ β)) (w : σ) : (runAll requests w).1.Distinct := by
  induction requests using List.reverseRecOn with
  | nil => exact List.nodup_nil
  | append_singleton requests q ih =>
    rw [runAll_concat]
    exact distinct_run ih q _

/-- **The keys after requests are those asked for,** in the order in which they were first asked
for. -/
theorem keys_runAll (requests : List (Request σ β)) (w : σ) :
    (runAll requests w).1.keys = (requests.map key).eraseDups := by
  induction requests using List.reverseRecOn with
  | nil => rfl
  | append_singleton requests q ih =>
    rw [runAll_concat, List.map_append, List.map_singleton]
    generalize runAll requests w = s at ih ⊢
    obtain ⟨r, w'⟩ := s
    replace ih : r.keys = (requests.map key).eraseDups := ih
    have hmem : q.key ∈ r.keys ↔ q.key ∈ requests.map key := by rw [ih, List.mem_eraseDups]
    by_cases h : q.key ∈ r.keys
    · rw [run_of_mem h, eraseDups_concat_of_mem (hmem.1 h), ih]
    · rw [run_of_not_mem h, eraseDups_concat_of_not_mem (mt hmem.2 h), Registry.keys_push, ih]

end Request

/-! ## The log -/

variable {σ : Type}

/-- A log with keys: no key twice, and every look-up tells what the entries are. -/
structure IsKeyedLog (r : Registry β) : Prop where
  distinct : r.keys.Nodup
  index_iff : ∀ key i, r.index.lookup key = some i ↔ ∃ e, r.entries[i]? = some e ∧ e.key = key
  contains_iff : ∀ category name, r.contains category name ↔ ∃ body, ⟨category, name, body⟩ ∈ r.entries
  find?_iff : ∀ category name body,
    r.find? category name = some body ↔ ⟨category, name, body⟩ ∈ r.entries

theorem Distinct.isKeyedLog {r : Registry β} (h : r.Distinct) : r.IsKeyedLog where
  distinct := h
  index_iff _ _ := h.lookup_index_iff
  contains_iff _ _ := contains_iff_mem_keys.trans mem_keys_iff
  find?_iff _ _ _ := h.find?_eq_some_iff

/-- What the next request does to a log, with `w` the state that makers of definitions see. -/
structure OnlyAppends [DecidableEq β] (r : Registry β) (w : σ) : Prop where
  /-- The entries so far stay in front. -/
  grows : ∀ q : Request σ β, r.entries <+: (q.run (r, w)).2.1.entries
  /-- A body that is stored stays as it is. -/
  keeps : ∀ (q : Request σ β) category name body, r.find? category name = some body →
    (q.run (r, w)).2.1.find? category name = some body
  /-- An `add` at an absent key makes the definition, once, and enters it. -/
  add_absent : ∀ category name (make : StateM σ β), (category, name) ∉ r.keys →
    (Request.add category name make).run (r, w) =
      (.ok .generated, r.push category name (make.run w).1, (make.run w).2)
  /-- An `add` at a present key does not make the definition. -/
  add_present : ∀ category name (make : StateM σ β), (category, name) ∈ r.keys →
    (Request.add category name make).run (r, w) = (.ok .alreadyPresent, r, w)
  /-- A maker whose run shows in the state is run exactly at an absent key. -/
  make_runs_iff : ∀ category name (make : StateM σ β), (make.run w).2 ≠ w →
    (((Request.add category name make).run (r, w)).2.2 ≠ w ↔ (category, name) ∉ r.keys)
  insert_generated_iff : ∀ category name body,
    ((Request.insert category name body).run (r, w)).1 = .ok .generated ↔ (category, name) ∉ r.keys
  insert_alreadyPresent_iff : ∀ category name body,
    ((Request.insert category name body).run (r, w)).1 = .ok .alreadyPresent ↔
      ⟨category, name, body⟩ ∈ r.entries
  /-- A definition that is new is entered. -/
  insert_absent : ∀ category name body, (category, name) ∉ r.keys →
    ((Request.insert category name body).run (r, w)).2 = (r.push category name body, w)
  /-- At a present key nothing changes, also if the body is refused. -/
  insert_present : ∀ category name body, (category, name) ∈ r.keys →
    ((Request.insert category name body).run (r, w)).2 = (r, w)
  /-- A second body for a key is refused. -/
  insert_conflict : ∀ category name body, (category, name) ∈ r.keys →
    ⟨category, name, body⟩ ∉ r.entries →
    ((Request.insert category name body).run (r, w)).1 = .error (.conflict category name)

/-- What an `insert` answers at a present key. -/
theorem Distinct.run_insert_of_mem [DecidableEq β] {r : Registry β} (h : r.Distinct) {w : σ}
    {category : Category} {name : String} (hmem : (category, name) ∈ r.keys) (body : β) :
    (Request.insert category name body).run (r, w) =
      (if ⟨category, name, body⟩ ∈ r.entries then .ok .alreadyPresent
        else .error (.conflict category name), r, w) := by
  obtain ⟨known, hknown⟩ := mem_keys_iff.1 hmem
  have hfind := h.find?_eq_some_iff.2 hknown
  have hiff : known = body ↔ ⟨category, name, body⟩ ∈ r.entries := by
    rw [← h.find?_eq_some_iff, hfind, Option.some.injEq]
  simp only [Request.run_insert_of_find? hfind, hiff]

theorem Distinct.onlyAppends [DecidableEq β] {r : Registry β} (h : r.Distinct) (w : σ) :
    r.OnlyAppends w where
  grows q := q.entries_prefix_run r w
  keeps q _ _ _ := q.find?_run h
  add_absent category name make hmem := Request.run_of_not_mem (q := .add category name make) hmem
  add_present _ _ make hmem := Request.run_add_of_mem make hmem
  make_runs_iff category name make hshows := by
    by_cases hmem : (category, name) ∈ r.keys
    · simp [Request.run_add_of_mem make hmem, hmem]
    · simp [Request.run_of_not_mem (q := .add category name make) hmem, Request.make, hshows, hmem]
  insert_generated_iff category name body := by
    by_cases hmem : (category, name) ∈ r.keys
    · rw [h.run_insert_of_mem hmem]
      split <;> simp [hmem]
    · simp [Request.run_of_not_mem (q := .insert category name body) hmem, hmem]
  insert_alreadyPresent_iff category name body := by
    by_cases hmem : (category, name) ∈ r.keys
    · rw [h.run_insert_of_mem hmem]
      split <;> simp [*]
    · have hentry : ⟨category, name, body⟩ ∉ r.entries := fun he => hmem (mem_keys_iff.2 ⟨body, he⟩)
      simp [Request.run_of_not_mem (q := .insert category name body) hmem, hentry]
  insert_absent category name body hmem := by
    rw [Request.run_of_not_mem (q := .insert category name body) hmem]
    rfl
  insert_present category name body hmem :=
    Request.run_of_mem (q := .insert category name body) hmem
  insert_conflict category name body hmem hentry := by
    rw [h.run_insert_of_mem hmem, if_neg hentry]

/-- The entries as they are printed: structs, then functions, each in the order of the log. -/
def listed (r : Registry β) : List (Entry β) :=
  r.entries.filter (·.category = .struct) ++ r.entries.filter (·.category = .function)

/-- **The header prints every entry once,** on a line of its own. -/
theorem header_eq_join (text : β → String) (r : Registry β) :
    r.header text = String.join (r.listed.map fun e => text e.body ++ "\n") := by
  simp only [header, bodies, listed, ← List.map_append, String.join, List.foldl_map, String.append_assoc]

theorem listed_perm (r : Registry β) : r.listed.Perm r.entries := by
  have hfunction : (fun e : Entry β => decide (e.category = .function)) =
      fun e => !decide (e.category = .struct) := by
    funext e
    cases e.category <;> rfl
  rw [listed, hfunction]
  exact List.filter_append_perm _ _

/-- **A registry is an append-only log with keys.**  After any requests: each key is entered once, in
the order in which the keys were first asked for; the index, and with it every look-up, agrees with
the entries; the next request appends at most one entry, a maker is run exactly if its key is absent, and
an `insert` answers by what is there; and the header is the structs, then the functions, line by line. -/
theorem requests_only_append [DecidableEq β] (requests : List (Request σ β)) (w₀ : σ)
    (text : β → String) :
    ∃ r w, Request.runAll requests w₀ = (r, w) ∧ r.keys = (requests.map Request.key).eraseDups ∧
      r.IsKeyedLog ∧ r.OnlyAppends w ∧
      r.header text = String.join (r.listed.map fun e => text e.body ++ "\n") ∧
      r.listed.Perm r.entries := by
  have hdistinct := Request.runAll_distinct requests w₀
  exact ⟨_, _, rfl, Request.keys_runAll requests w₀, hdistinct.isKeyedLog, hdistinct.onlyAppends _,
    header_eq_join text _, listed_perm _⟩

/-- One name in both categories.  A second maker for the function is not run, and a second body is
refused. -/
theorem requests_only_append_twice :
    let requests : List (Request Nat String) :=
      [.add .function "f" fun n => ("F", n + 1), .insert .struct "f" "S"]
    let s := Request.runAll requests 0
    s.1.header id = "S\nF\n" ∧ (.function, "f") ∈ s.1.keys ∧
      (Request.add .function "f" fun n => ("G", n + 1)).run s = (.ok .alreadyPresent, s) ∧
      ((Request.insert .function "f" "G").run s).1 = .error (.conflict .function "f") := by
  intro requests s
  obtain ⟨r, w, hrun, hkeys, -, happends, -⟩ := requests_only_append requests 0 id
  have hmem : (.function, "f") ∈ r.keys := by
    rw [hkeys]
    decide
  have hs : s = (r, w) := hrun
  have hbody : ⟨.function, "f", "G"⟩ ∉ s.1.entries := by decide
  have hheader : s.1.header id = "S\nF\n" := by decide
  rw [hs] at hbody hheader ⊢
  exact ⟨hheader, hmem, happends.add_present _ _ _ hmem, happends.insert_conflict _ _ _ hmem hbody⟩

end Registry
end ShaderAlgebra
