import Solang.Codegen.Evaluation.StorageArray

/-!
# Arrays in storage are lists

The words of an array follow one another from the hash of its slot on, modulo the number of slots. An element is written
to the words after the last ones or in place of old ones, and the length is changed after that; the list is as it should
be as long as the length that was read is still the length then.
-/

namespace Solang.Codegen.Evaluation

variable {ctx : Arrays} {loc : Nat}

/-! ## Slots -/

theorem slotAfter_slotAfter (a x y : Nat) : slotAfter ctx (slotAfter ctx a x) y = slotAfter ctx a (x + y) := by
  rw [slotAfter, slotAfter, slotAfter, Nat.mod_add_mod, Nat.add_assoc]

variable {a j' : Nat} {α : Type} {xs : List (List Nat)} {s₂ s₃ : State}

/-- All the forms of the offset of an element are the same modulo the number of slots. -/
theorem arrayOffset_eq {start index : Tree} {s : State} {i : Nat} (ha : start s = some a)
    (hi : index s = some i) {elemSize : Nat} (hpos : 0 < elemSize) :
    arrayOffset ctx start index elemSize s = some (slotAfter ctx a (i * elemSize)) := by
  rw [arrayOffset]
  split
  · next hone => simp [wrapping, slotAfter, ha, hi, hone]
  · split
    · next hpow =>
      obtain ⟨k, rfl⟩ := (Nat.and_sub_one_eq_zero_iff_isPowerOfTwo hpos.ne').mp hpow
      simp [wrapping, slotAfter, temp, ha, hi, Nat.shiftLeft_eq, Nat.add_mod_mod]
    · simp [wrapping, slotAfter, temp, ha, hi, Nat.add_mod_mod]

/-! ## Writes -/

def putAll : List (Place × Nat) → State → State
  | [], s => s
  | w :: ws, s => putAll ws (Function.update s w.1 w.2)

variable {ws : List (Place × Nat)} {place : Nat → Place} {j i' : Nat} {x : List Nat}
  {r : Option Tree} {returned : Bool} {arg index : Code Tree} {varExpr : Tree} {op : Operation}
  {change : Change} {s₁ : State}

theorem putAll_of_ne {p : Place} (h : ∀ w ∈ ws, p ≠ w.1) (s : State) : putAll ws s p = s p := by
  induction ws generalizing s with
  | nil => rfl
  | cons w ws ih =>
    rw [List.forall_mem_cons] at h
    rw [putAll, ih h.2, Function.update_of_ne h.1]

theorem putAll_of_mem {p : Place} {v : Nat} (hmem : ∃ w ∈ ws, p = w.1)
    (hall : ∀ w ∈ ws, p = w.1 → w.2 = v) (s : State) : putAll ws s p = v := by
  induction ws generalizing s with
  | nil =>
    obtain ⟨w, hw, -⟩ := hmem
    exact absurd hw List.not_mem_nil
  | cons w ws ih =>
    rw [List.forall_mem_cons] at hall
    rw [putAll]
    by_cases hlater : ∃ w ∈ ws, p = w.1
    · exact ih hlater hall.2 _
    · obtain ⟨w', hw', rfl⟩ := hmem
      rcases List.mem_cons.mp hw' with rfl | hw'
      · rw [putAll_of_ne fun w hw hp => hlater ⟨w, hw, hp⟩, Function.update_self, hall.1 rfl]
      · exact absurd ⟨w', hw', rfl⟩ hlater

theorem mem_placed {words : List Nat} {w : Place × Nat} :
    w ∈ placed place words ↔ ∃ (j : Nat) (h : j < words.length), (place j, words[j]) = w := by
  rw [placed, List.mem_mapIdx]

theorem putAll_placed_of_ne {words : List Nat} {p : Place} (h : ∀ j < words.length, p ≠ place j)
    (s : State) : putAll (placed place words) s p = s p := by
  refine putAll_of_ne (fun w hw => ?_) s
  obtain ⟨j, hj, rfl⟩ := mem_placed.mp hw
  exact h j hj

theorem putAll_placed {words : List Nat}
    (hinj : ∀ j < words.length, ∀ j' < words.length, place j = place j' → j = j')
    (hj : j < words.length) (s : State) : putAll (placed place words) s (place j) = words[j] := by
  refine putAll_of_mem ⟨_, mem_placed.mpr ⟨j, hj, rfl⟩, rfl⟩ (fun w hw hp => ?_) s
  obtain ⟨j', hj', rfl⟩ := mem_placed.mp hw
  obtain rfl := hinj j hj j' hj' hp
  rfl

/-! ## Results of the instructions -/

@[simp] theorem result_force (t : Tree) (s : State) : (force t).result s = (t s).map fun v => (v, s) := rfl

@[simp] theorem result_read (p : Place) (s : State) : (read p).result s = some (s p, s) := rfl

@[simp] theorem result_write (p : Place) (v : Nat) (s : State) :
    (write loc p v).result s = some ((), Function.update s p v) := rfl

@[simp] theorem result_loadStorage (storage : Tree) (s : State) :
    (loadStorage storage).result s = (storage s).map fun slot => (temp (s (.storage slot)), s) := by
  rw [loadStorage, Logged.result_bind, result_force]
  cases storage s with
  | none => rfl
  | some slot => rfl

@[simp] theorem result_setStorage (value storage : Tree) (s : State) :
    (setStorage loc value storage).result s =
      (value s).bind fun v => (storage s).map fun slot => ((), Function.update s (.storage slot) v) := by
  rw [setStorage, Logged.result_bind, result_force]
  cases value s with
  | none => rfl
  | some v =>
    cases hslot : storage s with
    | none => simp [hslot]
    | some slot => simp [hslot]

@[simp] theorem result_writeAll (ws : List (Place × Nat)) (s : State) :
    (writeAll loc ws).result s = some ((), putAll ws s) := by
  induction ws generalizing s with
  | nil => rfl
  | cons w ws ih =>
    rw [writeAll, Logged.result_bind, result_write, Option.bind_some, ih]
    rfl

/-! ## Lists -/

variable {s s' : State} {p n : Nat}

theorem length_elements : (elements ctx s p).length = s (.storage p) := by
  rw [elements, List.length_map, List.length_range]

theorem elements_zero (h : s (.storage p) = 0) : elements ctx s p = [] := by
  rw [elements, h]
  rfl

theorem elements_succ (h : s (.storage p) = n + 1) :
    elements ctx s p = (List.range n).map (element ctx s p) ++ [element ctx s p n] := by
  rw [elements, h, List.range_succ, List.map_append, List.map_singleton]

/-- The words of the first `n` elements are the same. -/
def SameWords (ctx : Arrays) (p n : Nat) (s s' : State) : Prop :=
  ∀ x < n * ctx.kind.elemSlots, s' (wordPlace ctx p x) = s (wordPlace ctx p x)

theorem word_lt {i : Nat} (hi : i < n) (hj : j < ctx.kind.elemSlots) :
    i * ctx.kind.elemSlots + j < n * ctx.kind.elemSlots :=
  calc i * ctx.kind.elemSlots + j < i * ctx.kind.elemSlots + ctx.kind.elemSlots := Nat.add_lt_add_left hj _
    _ = (i + 1) * ctx.kind.elemSlots := (Nat.succ_mul _ _).symm
    _ ≤ n * ctx.kind.elemSlots := Nat.mul_le_mul_right _ hi

theorem element_congr (h : SameWords ctx p n s s') {i : Nat} (hi : i < n) : element ctx s' p i = element ctx s p i :=
  List.map_congr_left fun _ hj => h _ (word_lt hi (List.mem_range.mp hj))

theorem map_element_congr (h : SameWords ctx p n s s') :
    (List.range n).map (element ctx s' p) = (List.range n).map (element ctx s p) :=
  List.map_congr_left fun _ hi => element_congr h (List.mem_range.mp hi)

theorem elements_append (h : SameWords ctx p (s (.storage p)) s s') (hlen : s' (.storage p) = s (.storage p) + 1) :
    elements ctx s' p = elements ctx s p ++ [element ctx s' p (s (.storage p))] := by
  rw [elements_succ hlen, map_element_congr h, elements]

theorem elements_dropLast (hlen : s (.storage p) = n + 1) (h : SameWords ctx p n s s') (hlen' : s' (.storage p) = n) :
    elements ctx s' p = (elements ctx s p).dropLast := by
  rw [elements_succ hlen, List.dropLast_concat, elements, hlen', map_element_congr h]

theorem elements_set {i : Nat} (hlen : s' (.storage p) = s (.storage p))
    (h : ∀ i' < s (.storage p), i' ≠ i → element ctx s' p i' = element ctx s p i') :
    elements ctx s' p = (elements ctx s p).set i (element ctx s' p i) := by
  apply List.ext_getElem
  · rw [List.length_set, length_elements, length_elements, hlen]
  · intro i' h₁ h₂
    rw [length_elements, hlen] at h₁
    rw [List.getElem_set]
    split
    · next hi =>
      obtain rfl := hi
      simp [elements]
    · next hi =>
      simpa [elements] using h i' h₁ (Ne.symm hi)

theorem getLast_elements (h : s (.storage p) = n + 1) : (elements ctx s p).getLast? = some (element ctx s p n) := by
  rw [elements_succ h, List.getLast?_concat]

theorem element_eq_iff {i : Nat} (hx : x.length = ctx.kind.elemSlots) :
    element ctx s p i = x ↔ ∀ (j : Nat) (hj : j < x.length), s (wordPlace ctx p (i * ctx.kind.elemSlots + j)) = x[j] := by
  constructor
  · rintro rfl j hj
    simp [element]
  · intro h
    apply List.ext_getElem
    · rw [element, List.length_map, List.length_range, hx]
    · intro j h₁ h₂
      rw [← h j h₂]
      simp [element]

theorem length_contents (v : Nat) : (contents ctx v s).length = ctx.kind.elemSlots := by
  rw [contents]
  split
  · next h => rw [h, ArrayKind.elemSlots, List.length_singleton]
  · next h => rw [h, ArrayKind.elemSlots, List.length_singleton]
  · next h => rw [h, ArrayKind.elemSlots, List.length_map, List.length_range]

/-! ## Places -/

theorem wordPlace_slots (h : ctx.kind ≠ .bytes) (p x : Nat) :
    wordPlace ctx p x = .storage (slotAfter ctx (ctx.keccak256 p) x) := by
  rw [wordPlace]
  split
  · next hbytes => exact absurd hbytes h
  · rfl

theorem wordPlace_bytes (h : ctx.kind = .bytes) (p x : Nat) : wordPlace ctx p x = .storageByte p x := by
  rw [wordPlace, h]

theorem room_slots (h : ctx.kind ≠ .bytes) : Room ctx p n ↔
    n < 2 ^ ctx.slotBits ∧ n * ctx.kind.elemSlots ≤ 2 ^ ctx.slotBits ∧
      ∀ x < n * ctx.kind.elemSlots, slotAfter ctx (ctx.keccak256 p) x ≠ p := by
  rw [Room]
  split
  · next hbytes => exact absurd hbytes h
  · rfl

theorem room_bytes (h : ctx.kind = .bytes) : Room ctx p n ↔ n ≤ scratchSize := by
  rw [Room, h]

variable {i : Nat}

theorem slotAfter_inj {x y : Nat} (hx : x < 2 ^ ctx.slotBits) (hy : y < 2 ^ ctx.slotBits)
    (h : slotAfter ctx a x = slotAfter ctx a y) : x = y :=
  Nat.ModEq.eq_of_lt_of_lt (Nat.ModEq.add_left_cancel' a h) hx hy

theorem Room.inj (h : Room ctx p n) {x y : Nat} (hx : x < n * ctx.kind.elemSlots) (hy : y < n * ctx.kind.elemSlots)
    (heq : wordPlace ctx p x = wordPlace ctx p y) : x = y := by
  by_cases hkind : ctx.kind = .bytes
  · rw [wordPlace_bytes hkind, wordPlace_bytes hkind] at heq
    exact (Place.storageByte.inj heq).2
  · obtain ⟨-, hroom, -⟩ := (room_slots hkind).mp h
    rw [wordPlace_slots hkind, wordPlace_slots hkind] at heq
    exact slotAfter_inj (hx.trans_le hroom) (hy.trans_le hroom) (Place.storage.inj heq)

theorem Room.ne_length (h : Room ctx p n) {x : Nat} (hx : x < n * ctx.kind.elemSlots) :
    wordPlace ctx p x ≠ .storage p := by
  by_cases hkind : ctx.kind = .bytes
  · rw [wordPlace_bytes hkind]
    exact nofun
  · obtain ⟨-, -, hne⟩ := (room_slots hkind).mp h
    rw [wordPlace_slots hkind]
    exact fun heq => hne x hx (Place.storage.inj heq)

/-- Words are those of one element only. -/
theorem word_inj (hj : j < ctx.kind.elemSlots) (hj' : j' < ctx.kind.elemSlots)
    (h : i * ctx.kind.elemSlots + j = i' * ctx.kind.elemSlots + j') : i = i' ∧ j = j' := by
  have hi : i = i' := by
    have := congrArg (· / ctx.kind.elemSlots) h
    simpa [Nat.mul_comm _ ctx.kind.elemSlots, Nat.mul_add_div ctx.kind.elemSlots_pos, Nat.div_eq_of_lt hj,
      Nat.div_eq_of_lt hj'] using this
  subst hi
  exact ⟨rfl, Nat.add_left_cancel h⟩

theorem Room.disjoint (h : Room ctx p n) (hi : i < n) (hi' : i' < n) (hne : i ≠ i')
    (hj : j < ctx.kind.elemSlots) (hj' : j' < ctx.kind.elemSlots) :
    wordPlace ctx p (i * ctx.kind.elemSlots + j) ≠ wordPlace ctx p (i' * ctx.kind.elemSlots + j') :=
  fun heq => hne (word_inj hj hj' (h.inj (word_lt hi hj) (word_lt hi' hj') heq)).1

/-! ## An element is written -/

/-- Element `i` and the length are written. -/
def put (ctx : Arrays) (p i : Nat) (words : List Nat) (length : Nat) (s : State) : State :=
  Function.update (putAll (placed (fun j => wordPlace ctx p (i * ctx.kind.elemSlots + j)) words) s) (.storage p) length

variable {words : List Nat} {length : Nat}

theorem put_length : put ctx p i words length s (.storage p) = length := Function.update_self ..

theorem put_word (h : Room ctx p n) (hi : i < n) (hwords : words.length = ctx.kind.elemSlots)
    (hj : j < words.length) :
    put ctx p i words length s (wordPlace ctx p (i * ctx.kind.elemSlots + j)) = words[j] := by
  have hinj : ∀ j < words.length, ∀ j' < words.length,
      wordPlace ctx p (i * ctx.kind.elemSlots + j) = wordPlace ctx p (i * ctx.kind.elemSlots + j') → j = j' :=
    fun j hj j' hj' heq => Nat.add_left_cancel (h.inj (word_lt hi (hwords ▸ hj)) (word_lt hi (hwords ▸ hj')) heq)
  rw [put, Function.update_of_ne (h.ne_length (word_lt hi (hwords ▸ hj)))]
  exact putAll_placed hinj hj s

theorem put_of_ne {q : Place} (hlen : q ≠ .storage p) (hwords : words.length = ctx.kind.elemSlots)
    (h : ∀ j < ctx.kind.elemSlots, q ≠ wordPlace ctx p (i * ctx.kind.elemSlots + j)) :
    put ctx p i words length s q = s q := by
  rw [put, Function.update_of_ne hlen, putAll_placed_of_ne fun j hj => h j (hwords ▸ hj)]

theorem element_put (h : Room ctx p n) (hi : i < n) (hwords : words.length = ctx.kind.elemSlots) :
    element ctx (put ctx p i words length s) p i = words :=
  (element_eq_iff hwords).mpr fun _ hj => put_word h hi hwords hj

theorem element_put_of_ne (h : Room ctx p n) (hi : i < n)
    (hwords : words.length = ctx.kind.elemSlots) (hi' : i' < n) (hne : i' ≠ i) :
    element ctx (put ctx p i words length s) p i' = element ctx s p i' := by
  refine List.map_congr_left fun j hj => ?_
  have hj := List.mem_range.mp hj
  exact put_of_ne (h.ne_length (word_lt hi' hj)) hwords fun j' hj' => h.disjoint hi' hi hne hj hj'

theorem sameWords_put (h : Room ctx p (n + 1)) (hwords : words.length = ctx.kind.elemSlots) :
    SameWords ctx p n s (put ctx p n words length s) := by
  intro x hx
  have hle : n * ctx.kind.elemSlots ≤ (n + 1) * ctx.kind.elemSlots := Nat.mul_le_mul_right _ (Nat.le_succ n)
  refine put_of_ne (h.ne_length (hx.trans_le hle)) hwords fun j hj heq => ?_
  have := h.inj (hx.trans_le hle) (word_lt (Nat.lt_succ_self n) hj) heq
  omega

/-! ## The list after an operation -/

theorem fulfilled_append (h : Room ctx p (s (.storage p) + 1)) (hx : x.length = ctx.kind.elemSlots) :
    Fulfilled ctx s p (.append x) (elements ctx s p ++ [x]) r (put ctx p (s (.storage p)) x (s (.storage p) + 1) s) where
  elements := by
    rw [elements_append (sameWords_put h hx) put_length, element_put h (Nat.lt_succ_self _) hx]
  disjoint := fun i i' j j' hi hi' => by
    rw [List.length_append, length_elements] at hi hi'
    exact h.disjoint hi hi'
  frame := fun q hlen hwords _ => put_of_ne hlen hx hwords
  yields := nofun

theorem fulfilled_extend (h : Room ctx p (s (.storage p) + 1)) :
    Fulfilled ctx s p .extend (elements ctx s p ++ [element ctx s p (s (.storage p))]) r
      (Function.update s (.storage p) (s (.storage p) + 1)) := by
  have hsame : SameWords ctx p (s (.storage p) + 1) s (Function.update s (.storage p) (s (.storage p) + 1)) :=
    fun x hx => Function.update_of_ne (h.ne_length hx) ..
  have hle : s (.storage p) * ctx.kind.elemSlots ≤ (s (.storage p) + 1) * ctx.kind.elemSlots :=
    Nat.mul_le_mul_right _ (Nat.le_succ _)
  constructor
  case elements =>
    rw [elements_append (fun x hx => hsame x (hx.trans_le hle)) (Function.update_self ..),
      element_congr hsame (Nat.lt_succ_self _)]
  case disjoint =>
    intro i i' j j' hi hi'
    rw [List.length_append, length_elements] at hi hi'
    exact h.disjoint hi hi'
  case frame => exact fun q hlen _ _ => Function.update_of_ne hlen ..
  case yields => exact nofun

theorem fulfilled_set (h : Room ctx p (s (.storage p))) (hi : i < s (.storage p))
    (hx : x.length = ctx.kind.elemSlots) :
    Fulfilled ctx s p (.set i x) ((elements ctx s p).set i x) r (put ctx p i x (s (.storage p)) s) where
  elements := by
    rw [elements_set put_length fun i' hi' hne => element_put_of_ne h hi hx hi' hne, element_put h hi hx]
  disjoint := fun i i' j j' hi hi' => by
    rw [List.length_set, length_elements] at hi hi'
    exact h.disjoint hi hi'
  frame := fun q hlen hwords _ => put_of_ne hlen hx hwords
  yields := nofun

theorem fulfilled_removeLast (h : Room ctx p (s (.storage p))) (hn : s (.storage p) = n + 1)
    (hsame : SameWords ctx p n s s') (hlen : s' (.storage p) = n)
    (hframe : ∀ q, q ≠ .storage p → (∀ j < ctx.kind.elemSlots, q ≠ wordPlace ctx p (n * ctx.kind.elemSlots + j)) →
      (∀ j < ctx.kind.elemSlots, q ≠ .memory (ctx.allocate s + j)) → s' q = s q)
    (hyields : returned = true → ∃ tree v, r = some tree ∧ tree s' = some v ∧ contents ctx v s' = element ctx s p n) :
    Fulfilled ctx s p (.removeLast returned) (elements ctx s p).dropLast r s' where
  elements := elements_dropLast hn hsame hlen
  disjoint := fun i i' j j' hi hi' => by
    rw [List.length_dropLast, length_elements] at hi hi'
    exact h.disjoint (hi.trans_le (Nat.sub_le _ _)) (hi'.trans_le (Nat.sub_le _ _))
  frame := fun q hq hwords => by
    rw [Change.index, hn] at hwords
    exact hframe q hq hwords
  yields := fun hreturned => by
    obtain ⟨tree, v, hr, hv, hcontents⟩ := hyields (by simpa using hreturned)
    exact ⟨tree, v, hr, hv, by rw [hcontents, getLast_elements hn]⟩

/-! ## The code of the operations -/

theorem After.of_result {m : Code α} {a : α} {P : α → State → Prop} (h : After m s P)
    (hm : m.result s = some (a, s')) : P a s' :=
  h _ a s' (Logged.run_eq_of_result hm)

/-- The slots of an element are its words in the array. -/
theorem entry_place (h : ctx.kind ≠ .bytes) (p i : Nat) :
    (fun j => Place.storage (slotAfter ctx (slotAfter ctx (ctx.keccak256 p) (i * ctx.kind.elemSlots)) j)) =
      fun j => wordPlace ctx p (i * ctx.kind.elemSlots + j) := by
  funext j
  rw [wordPlace_slots h, slotAfter_slotAfter]

@[simp] theorem result_setElement (value storage : Tree) (s : State) :
    (setElement ctx loc value storage).result s = (value s).bind fun v => (storage s).map fun slot =>
      ((), putAll (placed (fun j => .storage (slotAfter ctx slot j)) (contents ctx v s)) s) := by
  rw [setElement, Logged.result_bind, result_force]
  cases value s with
  | none => rfl
  | some v =>
    cases hslot : storage s with
    | none => simp [hslot]
    | some slot => simp [hslot]

@[simp] theorem result_clearElement (slot : Nat) (s : State) :
    (clearElement ctx loc (temp slot)).result s = some ((),
      putAll (placed (fun j => .storage (slotAfter ctx slot j)) (List.replicate ctx.kind.elemSlots 0)) s) := by
  simp [clearElement, temp]

variable (loc) in
/-- The argument of `push` is evaluated, and what it comes to is stored. -/
theorem result_argument (arg : Code Tree) (slot : Nat) (k : Code α) (s : State) :
    (arg >>= fun value => setElement ctx loc value (temp slot) >>= fun _ => k).result s =
      ((argument ctx arg).result s).bind fun q =>
        k.result (putAll (placed (fun j => .storage (slotAfter ctx slot j)) q.1) q.2) := by
  rw [argument, Logged.result_bind, Logged.result_bind]
  rcases arg.result s with _ | ⟨value, s₁⟩
  · rfl
  · cases hv : value s₁ with
    | none => simp [hv]
    | some v => simp [hv, temp]

theorem argument_some (h : (argument ctx arg).result s = some (x, s')) :
    ∃ value v, arg.result s = some (value, s') ∧ value s' = some v ∧ x = contents ctx v s' := by
  rw [argument, Logged.result_bind] at h
  rcases harg : arg.result s with _ | ⟨value, s₁⟩
  · rw [harg] at h
    cases h
  · cases hv : value s₁ with
    | none => simp [harg, hv] at h
    | some v =>
      simp only [harg, Option.bind_some, Logged.result_bind, result_force, hv, Option.map_some, Logged.result_ask,
        Option.some.injEq, Prod.mk.injEq] at h
      obtain ⟨rfl, rfl⟩ := h
      exact ⟨value, v, rfl, hv, rfl⟩

theorem hashed_eq {slot : Tree} (h : slot s = some p) : hashed ctx slot s = some (ctx.keccak256 p) := by
  rw [hashed, h, Option.map_some]

theorem wrapping_temp (op : Nat → Nat → Nat) (a b : Nat) :
    wrapping ctx op (temp a) (temp b) s = some (op a b % 2 ^ ctx.slotBits) := rfl

theorem entryPos_eq (h : varExpr s = some p) (i : Nat) :
    arrayOffset ctx (hashed ctx varExpr) (temp i) ctx.kind.elemSlots s =
      some (slotAfter ctx (ctx.keccak256 p) (i * ctx.kind.elemSlots)) :=
  arrayOffset_eq (hashed_eq h) rfl ctx.kind.elemSlots_pos

/-- Writes to storage, and to what is allocated in memory, do not move an array. -/
theorem Stable.eq (h : Stable ctx varExpr p s)
    (hws : ∀ w ∈ ws, (∃ slot, w.1 = .storage slot) ∨ ∃ j < ctx.kind.elemSlots, w.1 = .memory (ctx.allocate s + j)) :
    varExpr (putAll ws s) = some p := by
  refine h _ (fun varNo => putAll_of_ne (fun w hw heq => ?_) s) fun address haddress =>
    putAll_of_ne (fun w hw heq => ?_) s
  · rcases hws w hw with ⟨slot, hslot⟩ | ⟨j, -, hj⟩
    · rw [hslot] at heq
      cases heq
    · rw [hj] at heq
      cases heq
  · rcases hws w hw with ⟨slot, hslot⟩ | ⟨j, hlt, hj⟩
    · rw [hslot] at heq
      cases heq
    · rw [hj] at heq
      exact haddress j hlt (Place.memory.inj heq)

/-- The length is one more. -/
theorem result_setLength (h : varExpr s = some p) (hlt : n + 1 < 2 ^ ctx.slotBits) :
    (setStorage loc (wrapping ctx (· + ·) (temp n) (temp 1)) varExpr).result s =
      some ((), Function.update s (.storage p) (n + 1)) := by
  rw [result_setStorage, wrapping_temp, Option.bind_some, h, Option.map_some, Nat.mod_eq_of_lt hlt]

theorem does_of_none (h : (op.operands ctx).result s = none)
    (hcode : (op.code ctx loc).result s = none) :
    op.Does ctx loc s := by
  rw [Operation.Does, h]
  exact hcode

theorem does_of_abort (h : (op.operands ctx).result s = some ((p, change), s₁))
    (hchange : change.apply (element ctx s₁ p (s₁ (.storage p))) (elements ctx s₁ p) = none)
    (hcode : (op.code ctx loc).result s = none) : op.Does ctx loc s := by
  rw [Operation.Does, h]
  dsimp only
  rw [hchange]
  exact hcode

theorem does_of_some (h : (op.operands ctx).result s = some ((p, change), s₁))
    (hchange : change.apply (element ctx s₁ p (s₁ (.storage p))) (elements ctx s₁ p) = some xs)
    (hcode : (op.code ctx loc).result s = some (r, s'))
    (hfulfilled : Fulfilled ctx s₁ p change xs r s') :
    op.Does ctx loc s := by
  rw [Operation.Does, h]
  dsimp only
  rw [hchange]
  exact ⟨r, s', hcode, hfulfilled⟩

theorem does_push_arg (hkind : ctx.kind ≠ .bytes) {array : Code Tree}
    (hsafe : (Operation.push array (some arg)).Safe ctx s) :
    (Operation.push array (some arg)).Does ctx loc s := by
  have hcode : (Operation.push array (some arg)).code ctx loc = storageSlotsArrayPush ctx loc array (some arg) :=
    if_neg hkind
  rcases harray : array.result s with _ | ⟨varExpr, s₀⟩
  · exact does_of_none (by simp [Operation.operands, harray]) (by simp [hcode, storageSlotsArrayPush, harray])
  cases hp : varExpr s₀ with
  | none =>
    exact does_of_none (by simp [Operation.operands, harray, hp]) (by simp [hcode, storageSlotsArrayPush, harray, hp])
  | some p =>
    have hoperands : ((Operation.push array (some arg)).operands ctx).result s =
        ((argument ctx arg).result s₀).map fun q => ((p, .append q.1), q.2) := by
      simp only [Operation.operands, Logged.result_bind, harray, Option.bind_some, result_force, hp, Option.map_some]
      cases (argument ctx arg).result s₀ <;> rfl
    have hpush : ((Operation.push array (some arg)).code ctx loc).result s =
        ((argument ctx arg).result s₀).bind fun q =>
          (setStorage loc (wrapping ctx (· + ·) (temp (s₀ (.storage p))) (temp 1)) varExpr >>= fun _ => pure none :
            Code (Option Tree)).result (putAll (placed (fun j => wordPlace ctx p
              (s₀ (.storage p) * ctx.kind.elemSlots + j)) q.1) q.2) := by
      rw [hcode, ← entry_place hkind, ← result_argument loc]
      simp only [storageSlotsArrayPush, Logged.result_bind, harray, Option.bind_some, result_loadStorage, result_force, hp,
        Option.map_some, entryPos_eq hp]
    rcases harg : (argument ctx arg).result s₀ with _ | ⟨x, s₁⟩
    · exact does_of_none (by rw [hoperands, harg]; rfl) (by rw [hpush, harg]; rfl)
    · have hsafe := (After.of_result hsafe harray).of_result harg
      rw [if_neg hkind] at hsafe
      obtain ⟨hlen, hstable, hroom⟩ := hsafe p hp
      obtain ⟨value, v, -, -, rfl⟩ := argument_some harg
      have hlt : s₁ (.storage p) + 1 < 2 ^ ctx.slotBits := ((room_slots hkind).mp hroom).1
      refine does_of_some (hoperands.trans (by rw [harg]; rfl)) rfl (hpush.trans ?_)
        (fulfilled_append (r := none) hroom (length_contents v))
      rw [harg, Option.bind_some, Logged.result_bind, ← hlen, result_setLength (hstable.eq fun w hw => ?_) hlt]
      · rfl
      · obtain ⟨j, -, rfl⟩ := mem_placed.mp hw
        exact .inl ⟨_, wordPlace_slots hkind _ _⟩

theorem does_push (hkind : ctx.kind ≠ .bytes) {array : Code Tree} (hsafe : (Operation.push array none).Safe ctx s) :
    (Operation.push array none).Does ctx loc s := by
  have hcode : (Operation.push array none).code ctx loc = storageSlotsArrayPush ctx loc array none := if_neg hkind
  rcases harray : array.result s with _ | ⟨varExpr, s₀⟩
  · exact does_of_none (by simp [Operation.operands, harray]) (by simp [hcode, storageSlotsArrayPush, harray])
  cases hp : varExpr s₀ with
  | none =>
    exact does_of_none (by simp [Operation.operands, harray, hp]) (by simp [hcode, storageSlotsArrayPush, harray, hp])
  | some p =>
    have hroom := After.of_result hsafe harray p hp
    have hlt : s₀ (.storage p) + 1 < 2 ^ ctx.slotBits := ((room_slots hkind).mp hroom).1
    have hoperands : ((Operation.push array none).operands ctx).result s = some ((p, .extend), s₀) := by
      simp [Operation.operands, harray, hp, hkind]
    have hrun : ((Operation.push array none).code ctx loc).result s =
        some (some (temp (slotAfter ctx (ctx.keccak256 p) (s₀ (.storage p) * ctx.kind.elemSlots))),
          Function.update s₀ (.storage p) (s₀ (.storage p) + 1)) := by
      simp only [hcode, storageSlotsArrayPush, Logged.result_bind, harray, Option.bind_some, result_loadStorage, hp,
        Option.map_some, result_force, entryPos_eq hp, result_setLength hp hlt, Logged.result_pure]
    exact does_of_some hoperands rfl hrun (fulfilled_extend hroom)

theorem putAll_append (ws ws' : List (Place × Nat)) (s : State) : putAll (ws ++ ws') s = putAll ws' (putAll ws s) := by
  induction ws generalizing s with
  | nil => rfl
  | cons w ws ih => exact ih _

/-- What is allocated in memory for an element -/
def InMemory (ctx : Arrays) (s : State) (ws : List (Place × Nat)) : Prop :=
  ∀ w ∈ ws, ∃ j < ctx.kind.elemSlots, w.1 = .memory (ctx.allocate s + j)

theorem InMemory.of_storage (h : InMemory ctx s ws) (slot : Nat) :
    putAll ws s (.storage slot) = s (.storage slot) := by
  refine putAll_of_ne (fun w hw heq => ?_) s
  obtain ⟨j, -, hj⟩ := h w hw
  rw [hj] at heq
  cases heq

variable (loc) in
/-- An element is loaded as a value, or copied to memory. -/
theorem result_loadElement (hkind : ctx.kind ≠ .bytes) (p i : Nat) (s : State) :
    ∃ v ws, (loadElement ctx loc (temp (slotAfter ctx (ctx.keccak256 p) (i * ctx.kind.elemSlots)))).result s =
        some (temp v, putAll ws s) ∧ InMemory ctx s ws ∧
      ∀ s', (∀ address, s' (.memory address) = putAll ws s (.memory address)) →
        contents ctx v s' = element ctx s p i := by
  rw [loadElement]
  split
  · next h =>
    refine ⟨s (wordPlace ctx p (i * ctx.kind.elemSlots)), [], ?_, fun w hw => absurd hw List.not_mem_nil, fun s' _ => ?_⟩
    · rw [result_loadStorage, wordPlace_slots hkind]
      rfl
    · simp [contents, element, h, ArrayKind.elemSlots]
  · next h => exact absurd h hkind
  · next slots pos h =>
    have hslots : ctx.kind.elemSlots = slots := by rw [h, ArrayKind.elemSlots]
    have hwords : ((List.range slots).map fun j =>
        s (.storage (slotAfter ctx (slotAfter ctx (ctx.keccak256 p) (i * ctx.kind.elemSlots)) j))) = element ctx s p i := by
      rw [element, hslots]
      refine List.map_congr_left fun j _ => ?_
      rw [← hslots]
      exact congrArg s (congrFun (entry_place hkind p i) j)
    have hlen : (element ctx s p i).length = slots := by rw [element, List.length_map, List.length_range, hslots]
    refine ⟨ctx.allocate s, placed (fun j => .memory (ctx.allocate s + j)) (element ctx s p i), ?_, fun w hw => ?_,
      fun s' hs' => ?_⟩
    · rw [← hwords]
      simp [temp]
    · obtain ⟨j, hj, rfl⟩ := mem_placed.mp hw
      exact ⟨j, by omega, rfl⟩
    · have hcontents : contents ctx (ctx.allocate s) s' =
          (List.range slots).map fun j => s' (.memory (ctx.allocate s + j)) := by rw [contents, h]
      rw [hcontents]
      apply List.ext_getElem
      · rw [List.length_map, List.length_range, hlen]
      · intro j h₁ h₂
        rw [List.getElem_map, List.getElem_range, hs']
        exact putAll_placed (fun j _ j' _ heq => Nat.add_left_cancel (Place.memory.inj heq)) h₂ s

/-- The end of `pop`: the last element is cleared and the length is one less. -/
theorem result_popEnd (hkind : ctx.kind ≠ .bytes) (h : Stable ctx varExpr p s)
    (hws : InMemory ctx s ws) (r : Option Tree) :
    (clearElement ctx loc (temp (slotAfter ctx (ctx.keccak256 p) (n * ctx.kind.elemSlots))) >>= fun _ =>
      setStorage loc (temp n) varExpr >>= fun _ => pure r).result (putAll ws s) =
      some (r, put ctx p n (List.replicate ctx.kind.elemSlots 0) n (putAll ws s)) := by
  have hslot : varExpr (putAll (placed (fun j => wordPlace ctx p (n * ctx.kind.elemSlots + j))
      (List.replicate ctx.kind.elemSlots 0)) (putAll ws s)) = some p := by
    rw [← putAll_append]
    refine h.eq fun w hw => ?_
    rcases List.mem_append.mp hw with hw | hw
    · exact .inr (hws w hw)
    · obtain ⟨j, -, rfl⟩ := mem_placed.mp hw
      exact .inl ⟨_, wordPlace_slots hkind _ _⟩
  rw [Logged.result_bind, result_clearElement, Option.bind_some, entry_place hkind, Logged.result_bind,
    result_setStorage, hslot]
  rfl

theorem fulfilled_pop (hkind : ctx.kind ≠ .bytes) (h : Room ctx p (s (.storage p)))
    (hn : s (.storage p) = n + 1) (hws : InMemory ctx s ws)
    (hyields : returned = true → ∃ v, r = some (temp v) ∧
      ∀ s', (∀ address, s' (.memory address) = putAll ws s (.memory address)) → contents ctx v s' = element ctx s p n) :
    Fulfilled ctx s p (.removeLast returned) (elements ctx s p).dropLast r
      (put ctx p n (List.replicate ctx.kind.elemSlots 0) n (putAll ws s)) := by
  have hlen : (List.replicate ctx.kind.elemSlots 0).length = ctx.kind.elemSlots := List.length_replicate
  have hwords : ∀ x, putAll ws s (wordPlace ctx p x) = s (wordPlace ctx p x) := fun x => by
    rw [wordPlace_slots hkind, hws.of_storage]
  refine fulfilled_removeLast h hn (fun x hx => ?_) put_length (fun q hq hword hmem => ?_) fun hreturned => ?_
  · rw [sameWords_put (hn ▸ h) hlen x hx, hwords]
  · rw [put_of_ne hq hlen hword]
    refine putAll_of_ne (fun w hw heq => ?_) s
    obtain ⟨j, hj, hplace⟩ := hws w hw
    exact hmem j hj (heq.trans hplace)
  · obtain ⟨v, rfl, hv⟩ := hyields hreturned
    refine ⟨_, v, rfl, rfl, hv _ fun address => put_of_ne nofun hlen fun j _ => ?_⟩
    rw [wordPlace_slots hkind]
    exact nofun

theorem does_pop (hkind : ctx.kind ≠ .bytes) {array : Code Tree}
    (hsafe : (Operation.pop array returned).Safe ctx s) :
    (Operation.pop array returned).Does ctx loc s := by
  have hcode : (Operation.pop array returned).code ctx loc = storageSlotsArrayPop ctx loc array returned := if_neg hkind
  rcases harray : array.result s with _ | ⟨varExpr, s₀⟩
  · exact does_of_none (by simp [Operation.operands, harray]) (by simp [hcode, storageSlotsArrayPop, harray])
  cases hp : varExpr s₀ with
  | none =>
    exact does_of_none (by simp [Operation.operands, harray, hp]) (by simp [hcode, storageSlotsArrayPop, harray, hp])
  | some p =>
    have hoperands : ((Operation.pop array returned).operands ctx).result s = some ((p, .removeLast returned), s₀) := by
      simp [Operation.operands, harray, hp]
    obtain ⟨hstable, hroom⟩ := After.of_result hsafe harray p hp
    have hstable := hstable hkind
    cases hn : s₀ (.storage p) with
    | zero =>
      refine does_of_abort hoperands (if_pos (elements_zero hn)) ?_
      simp [hcode, storageSlotsArrayPop, harray, hp, temp, hn]
    | succ n =>
      have hne : elements ctx s₀ p ≠ [] := by
        rw [elements_succ hn]
        exact List.append_ne_nil_of_right_ne_nil _ (List.cons_ne_nil _ _)
      have hlt : n + 1 < 2 ^ ctx.slotBits := hn ▸ ((room_slots hkind).mp hroom).1
      have hnew : wrapping ctx (fun l r => l + 2 ^ ctx.slotBits - r) (temp (n + 1)) (temp 1) s₀ = some n := by
        rw [wrapping_temp, Nat.add_right_comm, Nat.add_sub_cancel, Nat.add_mod_right,
          Nat.mod_eq_of_lt (Nat.lt_of_succ_lt hlt)]
      have hstart : ((Operation.pop array returned).code ctx loc).result s =
          (if returned then do
              let val ← loadElement ctx loc (temp (slotAfter ctx (ctx.keccak256 p) (n * ctx.kind.elemSlots)))
              clearElement ctx loc (temp (slotAfter ctx (ctx.keccak256 p) (n * ctx.kind.elemSlots)))
              setStorage loc (temp n) varExpr
              pure (some val)
            else do
              clearElement ctx loc (temp (slotAfter ctx (ctx.keccak256 p) (n * ctx.kind.elemSlots)))
              setStorage loc (temp n) varExpr
              pure none : Code (Option Tree)).result s₀ := by
        have htemp : temp (n + 1) s₀ = some (n + 1) := rfl
        simp only [hcode, storageSlotsArrayPop, Logged.result_bind, harray, Option.bind_some, result_loadStorage, hp,
          Option.map_some, result_force, hn, htemp, Nat.succ_ne_zero, if_false, hnew, entryPos_eq hp]
      cases returned with
      | false =>
        refine does_of_some hoperands (if_neg hne) (hstart.trans
            (result_popEnd hkind hstable (List.forall_mem_nil _ : InMemory ctx s₀ []) none))
          (fulfilled_pop hkind hroom hn (List.forall_mem_nil _) fun h => absurd h Bool.false_ne_true)
      | true =>
        obtain ⟨v, ws, hload, hws, hcontents⟩ := result_loadElement loc hkind p n s₀
        refine does_of_some hoperands (if_neg hne) (hstart.trans ?_)
          (fulfilled_pop hkind hroom hn hws fun _ => ⟨v, rfl, hcontents⟩)
        rw [if_pos rfl, Logged.result_bind, hload, Option.bind_some]
        exact result_popEnd hkind hstable hws (some (temp v))

theorem result_subscript {array : Code Tree} {it : Tree}
    (harray : array.result s = some (varExpr, s₂)) (hindex : index.result s₂ = some (it, s₃)) :
    (arraySubscript ctx.toContext (.storage none ctx.kind.elemSlots) array index).result s =
      (varExpr s₃).bind fun p => (it s₃).bind fun i =>
        if s₃ (.storage p) ≤ i then none
        else some (fun s => (varExpr s).map fun p => slotAfter ctx (ctx.keccak256 p) (i * ctx.kind.elemSlots), s₃) := by
  simp only [arraySubscript, Logged.result_bind, harray, Option.bind_some, hindex, Option.elim_none, result_loadStorage,
    result_force, Option.isNone_none, if_true, Option.map_map]
  cases varExpr s₃ with
  | none => rfl
  | some p =>
    cases hi : it s₃ with
    | none => simp [hi]
    | some i =>
      simp only [Option.map_some, Option.bind_some, hi, temp]
      split
      · rfl
      · rfl

theorem operands_assign {array index arg : Code Tree} {cfgRight varExpr it : Tree} {s₁ s₂ s₃ : State}
    (harg : arg.result s = some (cfgRight, s₁)) (harray : array.result s₁ = some (varExpr, s₂))
    (hindex : index.result s₂ = some (it, s₃)) :
    ((Operation.assign array index arg).operands ctx).result s =
      (varExpr s₃).bind fun p => (it s₃).bind fun i => (cfgRight s₃).bind fun v =>
        some ((p, .set i (contents ctx v s₃)), s₃) := by
  simp only [Operation.operands, Logged.result_bind, harg, harray, hindex, Option.bind_some, result_force]
  rcases hp : varExpr s₃ with _ | p
  · rfl
  simp only [Option.map_some, Option.bind_some]
  rcases hi : it s₃ with _ | i
  · rfl
  simp only [Option.map_some, Option.bind_some]
  rcases cfgRight s₃ with _ | v
  · rfl
  · rfl

theorem does_assign (hkind : ctx.kind ≠ .bytes) {array : Code Tree}
    (hsafe : (Operation.assign array index arg).Safe ctx s) :
    (Operation.assign array index arg).Does ctx loc s := by
  have hcode : ((Operation.assign array index arg).code ctx loc).result s = (arg.result s).bind fun q =>
      ((arraySubscript ctx.toContext (.storage none ctx.kind.elemSlots) array index).result q.2).bind fun d =>
        ((force q.1).result d.2).bind fun v =>
          ((setElement ctx loc (temp v.1) d.1).result v.2).bind fun r => some (some (temp v.1), r.2) := by
    rw [Operation.code, assignElement]
    split
    · next h => exact absurd h hkind
    · simp only [Logged.result_bind, Logged.result_pure]
  rcases harg : arg.result s with _ | ⟨cfgRight, s₁⟩
  · exact does_of_none (by simp [Operation.operands, harg]) (by rw [hcode, harg, Option.bind_none])
  rw [harg, Option.bind_some] at hcode
  dsimp only at hcode
  rcases harray : array.result s₁ with _ | ⟨varExpr, s₂⟩
  · exact does_of_none (by simp [Operation.operands, harg, harray]) (by simp [hcode, harray, arraySubscript])
  rcases hindex : index.result s₂ with _ | ⟨it, s₃⟩
  · exact does_of_none (by simp [Operation.operands, harg, harray, hindex])
      (by simp [hcode, harray, hindex, arraySubscript])
  have hsafe := ((After.of_result hsafe harg).of_result harray).of_result hindex
  have hoperands := @operands_assign ctx _ _ _ _ _ _ _ _ _ _ harg harray hindex
  rw [result_subscript harray hindex] at hcode
  rcases hp : varExpr s₃ with _ | p
  · rw [hp] at hoperands hcode
    exact does_of_none hoperands hcode
  rcases hi : it s₃ with _ | i
  · rw [hp, hi] at hoperands hcode
    exact does_of_none hoperands hcode
  rw [hp, hi] at hoperands hcode
  simp only [Option.bind_some] at hoperands hcode
  by_cases hlt : i < s₃ (.storage p)
  · rw [if_neg (Nat.not_le.mpr hlt), Option.bind_some, result_force] at hcode
    rcases hv : cfgRight s₃ with _ | v
    · rw [hv] at hoperands hcode
      exact does_of_none hoperands hcode
    rw [hv] at hoperands hcode
    have hroom : Room ctx p (s₃ (.storage p)) := hsafe p hp
    refine does_of_some hoperands (if_pos (by rwa [length_elements])) ?_
      (fulfilled_set (r := some (temp v)) hroom hlt (length_contents v))
    have hput : put ctx p i (contents ctx v s₃) (s₃ (.storage p)) s₃ =
        putAll (placed (fun j => wordPlace ctx p (i * ctx.kind.elemSlots + j)) (contents ctx v s₃)) s₃ := by
      rw [put]
      refine (congrArg (Function.update _ _) ?_).trans (Function.update_eq_self _ _)
      refine (putAll_placed_of_ne (fun j hj heq => ?_) s₃).symm
      exact hroom.ne_length (word_lt hlt (length_contents v ▸ hj)) heq.symm
    rw [hput, ← entry_place hkind, hcode]
    simp [hp, temp]
  · rw [if_pos (Nat.not_lt.mp hlt), Option.bind_none] at hcode
    rcases hv : cfgRight s₃ with _ | v
    · rw [hv] at hoperands
      exact does_of_none hoperands hcode
    rw [hv] at hoperands
    exact does_of_abort hoperands (if_neg (by rwa [length_elements])) hcode

/-! ## `bytes` -/

theorem contents_bytes (hkind : ctx.kind = .bytes) (v : Nat) : contents ctx v s = [v] := by
  rw [contents, hkind]

theorem put_byte (hkind : ctx.kind = .bytes) (v length : Nat) :
    put ctx p i [v] length s =
      Function.update (Function.update s (.storageByte p i) v) (.storage p) length := by
  have hword : wordPlace ctx p (i * ctx.kind.elemSlots + 0) = .storageByte p i := by
    rw [wordPlace_bytes hkind, hkind, ArrayKind.elemSlots, Nat.mul_one, Nat.add_zero]
  rw [put, placed, List.mapIdx_singleton, putAll, putAll]
  simp only [hword]

theorem result_pushStorage (storage value : Tree) (s : State) :
    (pushStorage loc storage value).result s = (value s).bind fun v => (storage s).bind fun p =>
      if scratchSize ≤ s (.storage p) then none
      else some (temp v, Function.update (Function.update s (.storageByte p (s (.storage p))) v) (.storage p)
        (s (.storage p) + 1)) := by
  rw [pushStorage, Logged.result_bind, result_force]
  cases value s with
  | none => rfl
  | some v =>
    rw [Option.map_some, Option.bind_some, Logged.result_bind, result_force]
    cases storage s with
    | none => rfl
    | some p =>
      simp only [Option.map_some, Option.bind_some, Logged.result_bind, result_read]
      split
      · rfl
      · rfl

theorem does_push_byte (hkind : ctx.kind = .bytes) {array : Code Tree}
    (hsafe : (Operation.push array (some arg)).Safe ctx s) :
    (Operation.push array (some arg)).Does ctx loc s := by
  have hcode : (Operation.push array (some arg)).code ctx loc = arrayPush loc array (some arg) := if_pos hkind
  rcases harray : array.result s with _ | ⟨varExpr, s₀⟩
  · exact does_of_none (by simp [Operation.operands, harray]) (by simp [hcode, arrayPush, harray])
  rcases harg : (argument ctx arg).result s₀ with _ | ⟨x, s₁⟩
  · refine does_of_none ?_ ?_
    · simp only [Operation.operands, Logged.result_bind, harray, Option.bind_some, result_force]
      cases varExpr s₀ <;> simp [harg]
    · rw [hcode, arrayPush, Logged.result_bind, harray, Option.bind_some]
      rw [argument, Logged.result_bind] at harg
      rcases hvalue : arg.result s₀ with _ | ⟨value, s₁⟩
      · simp [hvalue]
      · cases hv : value s₁ with
        | none => simp [hvalue, hv, result_pushStorage]
        | some v => simp [hvalue, hv] at harg
  have hsafe := (After.of_result hsafe harray).of_result harg
  rw [if_pos hkind] at hsafe
  obtain ⟨hvar, hroom⟩ := hsafe
  obtain ⟨value, v, hvalue, hv, rfl⟩ := argument_some harg
  cases hp : varExpr s₀ with
  | none =>
    exact does_of_none (by simp [Operation.operands, harray, hp])
      (by simp [hcode, arrayPush, harray, hvalue, result_pushStorage, hv, hvar, hp])
  | some p =>
    have hroom := hroom p hp
    have hoperands : ((Operation.push array (some arg)).operands ctx).result s =
        some ((p, .append (contents ctx v s₁)), s₁) := by
      simp [Operation.operands, harray, hp, harg]
    have hfree : ¬scratchSize ≤ s₁ (.storage p) := Nat.not_le.mpr ((room_bytes hkind).mp hroom)
    refine does_of_some hoperands rfl ?_ (fulfilled_append (r := some (temp v)) hroom (length_contents v))
    rw [contents_bytes hkind, put_byte hkind]
    simp [hcode, arrayPush, harray, hvalue, result_pushStorage, hv, hvar, hp, hfree]

/-- `push` without an argument is that of a zero. -/
theorem does_push_zero (hkind : ctx.kind = .bytes) {array : Code Tree}
    (hsafe : (Operation.push array none).Safe ctx s) : (Operation.push array none).Does ctx loc s := by
  have hzero : argument ctx (pure (temp 0)) = (pure [0] : Code (List Nat)) := by
    ext1
    funext s
    rw [argument, pure_bind, force_temp, pure_bind]
    show (⟨[], some (contents ctx 0 s, s)⟩ : Traced Event (List Nat × State)) = _
    rw [contents_bytes hkind, Logged.run_pure]
  have hdoes : (Operation.push array (some (pure (temp 0)))).Does ctx loc s := by
    refine does_push_byte hkind fun t varExpr s₀ harray => ?_
    rw [hzero]
    intro t' x s₁ hx
    cases hx
    rw [if_pos hkind]
    exact ⟨rfl, hsafe t varExpr s₀ harray⟩
  have hoperands : (Operation.push array none).operands ctx = (Operation.push array (some (pure (temp 0)))).operands ctx := by
    simp only [Operation.operands, hzero, pure_bind, if_pos hkind]
  have hcode : (Operation.push array none).code ctx loc = (Operation.push array (some (pure (temp 0)))).code ctx loc := by
    simp only [Operation.code, if_pos hkind, arrayPush, pure_bind]
  rw [Operation.Does, hoperands, hcode]
  exact hdoes

theorem does_pop_byte (hkind : ctx.kind = .bytes) {array : Code Tree}
    (hsafe : (Operation.pop array returned).Safe ctx s) :
    (Operation.pop array returned).Does ctx loc s := by
  have hcode : (Operation.pop array returned).code ctx loc = arrayPop loc array := if_pos hkind
  rcases harray : array.result s with _ | ⟨varExpr, s₀⟩
  · exact does_of_none (by simp [Operation.operands, harray]) (by simp [hcode, arrayPop, harray])
  cases hp : varExpr s₀ with
  | none =>
    exact does_of_none (by simp [Operation.operands, harray, hp]) (by simp [hcode, arrayPop, popStorage, harray, hp])
  | some p =>
    have hoperands : ((Operation.pop array returned).operands ctx).result s = some ((p, .removeLast returned), s₀) := by
      simp [Operation.operands, harray, hp]
    have hroom := (After.of_result hsafe harray p hp).2
    cases hn : s₀ (.storage p) with
    | zero =>
      refine does_of_abort hoperands (if_pos (elements_zero hn)) ?_
      simp [hcode, arrayPop, popStorage, harray, hp, hn]
    | succ n =>
      have hne : elements ctx s₀ p ≠ [] := by
        rw [elements_succ hn]
        exact List.append_ne_nil_of_right_ne_nil _ (List.cons_ne_nil _ _)
      have hrun : ((Operation.pop array returned).code ctx loc).result s =
          some (some (temp (s₀ (.storageByte p n))), Function.update s₀ (.storage p) n) := by
        simp [hcode, arrayPop, popStorage, harray, hp, hn]
      refine does_of_some hoperands (if_neg hne) hrun (fulfilled_removeLast hroom hn (fun x _ => ?_)
        (Function.update_self ..) (fun q hq _ _ => Function.update_of_ne hq ..) fun _ => ⟨_, _, rfl, rfl, ?_⟩)
      · rw [wordPlace_bytes hkind]
        exact Function.update_of_ne (by simp) _ _
      · rw [contents_bytes hkind]
        simp [element, hkind, ArrayKind.elemSlots, wordPlace_bytes hkind]

theorem result_assignStorageByte {array : Code Tree} {cfgRight it : Tree}
    (harray : array.result s = some (varExpr, s₂)) (hindex : index.result s₂ = some (it, s₃)) :
    (assignStorageByte loc array index cfgRight).result s =
      (cfgRight s₃).bind fun v => (varExpr s₃).bind fun p => (it s₃).bind fun i =>
        if s₃ (.storage p) ≤ i then none else some (temp v, Function.update s₃ (.storageByte p i) v) := by
  simp only [assignStorageByte, Logged.result_bind, harray, hindex, Option.bind_some, result_force]
  rcases cfgRight s₃ with _ | v
  · rfl
  simp only [Option.map_some, Option.bind_some]
  rcases varExpr s₃ with _ | p
  · rfl
  simp only [Option.map_some, Option.bind_some]
  rcases it s₃ with _ | i
  · rfl
  simp only [Option.map_some, Option.bind_some, result_read]
  split
  · rfl
  · rfl

theorem does_assign_byte (hkind : ctx.kind = .bytes) {array : Code Tree}
    (hsafe : (Operation.assign array index arg).Safe ctx s) :
    (Operation.assign array index arg).Does ctx loc s := by
  have hcode : ((Operation.assign array index arg).code ctx loc).result s = (arg.result s).bind fun q =>
      ((assignStorageByte loc array index q.1).result q.2).map fun q => (some q.1, q.2) := by
    rw [Operation.code, assignElement, hkind, Logged.result_bind]
    simp only [Logged.result_map]
  rcases harg : arg.result s with _ | ⟨cfgRight, s₁⟩
  · exact does_of_none (by simp [Operation.operands, harg]) (by rw [hcode, harg, Option.bind_none])
  rw [harg, Option.bind_some] at hcode
  rcases harray : array.result s₁ with _ | ⟨varExpr, s₂⟩
  · exact does_of_none (by simp [Operation.operands, harg, harray]) (by simp [hcode, harray, assignStorageByte])
  rcases hindex : index.result s₂ with _ | ⟨it, s₃⟩
  · exact does_of_none (by simp [Operation.operands, harg, harray, hindex])
      (by simp [hcode, harray, hindex, assignStorageByte])
  have hsafe := ((After.of_result hsafe harg).of_result harray).of_result hindex
  have hoperands := @operands_assign ctx _ _ _ _ _ _ _ _ _ _ harg harray hindex
  dsimp only at hcode
  rw [result_assignStorageByte harray hindex] at hcode
  rcases hp : varExpr s₃ with _ | p
  · rw [hp] at hoperands hcode
    refine does_of_none hoperands (hcode.trans ?_)
    cases cfgRight s₃ with
    | none => rfl
    | some v => rfl
  rcases hi : it s₃ with _ | i
  · rw [hp, hi] at hoperands hcode
    refine does_of_none hoperands (hcode.trans ?_)
    cases cfgRight s₃ with
    | none => rfl
    | some v => rfl
  rw [hp, hi] at hoperands hcode
  rcases hv : cfgRight s₃ with _ | v
  · rw [hv] at hoperands hcode
    exact does_of_none hoperands hcode
  rw [hv] at hoperands hcode
  simp only [Option.bind_some] at hoperands hcode
  by_cases hlt : i < s₃ (.storage p)
  · rw [if_neg (Nat.not_le.mpr hlt)] at hcode
    refine does_of_some hoperands (if_pos (by rwa [length_elements])) ?_
      (fulfilled_set (r := some (temp v)) (hsafe p hp) hlt (length_contents v))
    have hlength : Function.update s₃ (.storageByte p i) v (.storage p) = s₃ (.storage p) :=
      Function.update_of_ne (by simp) _ _
    rw [contents_bytes hkind, put_byte hkind, ← hlength, Function.update_eq_self]
    exact hcode
  · rw [if_pos (Nat.not_lt.mp hlt)] at hcode
    exact does_of_abort hoperands (if_neg (by rwa [length_elements])) hcode

/-! ## Runs -/

theorem does_of_safe (h : op.Safe ctx s) : op.Does ctx loc s := by
  by_cases hkind : ctx.kind = .bytes
  · cases op with
    | push array arg =>
      cases arg with
      | none => exact does_push_zero hkind h
      | some arg => exact does_push_byte hkind h
    | pop array returned => exact does_pop_byte hkind h
    | assign array index arg => exact does_assign_byte hkind h
  · cases op with
    | push array arg =>
      cases arg with
      | none => exact does_push hkind h
      | some arg => exact does_push_arg hkind h
    | pop array returned => exact does_pop hkind h
    | assign array index arg => exact does_assign hkind h

theorem Operation.Does.elements_eq (h : op.Does ctx loc s)
    (hop : (op.operands ctx).result s = some ((p, change), s₁))
    (hchange : change.apply (element ctx s₁ p (s₁ (.storage p))) (elements ctx s₁ p) = some xs) :
    ((op.code ctx loc).result s).map (fun q => elements ctx q.2 p) = some xs := by
  rw [Operation.Does, hop] at h
  dsimp only at h
  rw [hchange] at h
  obtain ⟨r, s', hcode, hfulfilled⟩ := h
  rw [hcode, Option.map_some, hfulfilled.elements]

/-! ## `a.push(a.pop())` -/

namespace Sample

/-- `uint256[] a` at slot 0 -/
def numbers : Arrays where
  ns := { addressLength := 32, valueLength := 16, enumValues := fun _ => 0 }
  slotBits := 256
  calls _ _ _ := none
  keccak256 _ := 0x290decd9548b62a8d60345a988386fc84ba6bc95484008f6362f93160ef3e563
  removed _ := false
  kind := .values
  allocate _ := 0

def array : Code Tree := pure (temp 0)

/-- `a` has one element, which is 7. -/
def single : State := fun p =>
  match p with
  | .storage 0 => 1
  | .storage slot => if slot = numbers.keccak256 0 then 7 else 0
  | _ => 0

def popped : Code Tree := do
  let val ← storageSlotsArrayPop numbers 1 array true
  pure (val.getD (temp 0))

end Sample

end Solang.Codegen.Evaluation
