import Solang.Emit.VectorAllocation

/-!
# Arrays in memory are lists

`Stored A e s array xs`: the vector at `array` has the elements `xs`, each the number that its
bytes are. A push makes it `xs ++ [x]`, a pop takes the last one off, wherever `__realloc` puts
the vector; every other block is kept.
-/

namespace Solang.Emit.Vector

open Memory Stdlib.Heap

variable {A : Arena} {e : Element} {s s' s'' : State} {m m' : Memory} {array new size n len x : Nat}
  {xs : List Nat}

namespace Element

/-- The bytes that a push stores, as a number: for a struct those at the pointer -/
def content (A : Arena) (e : Element) (m : Memory) (value : Nat) : Nat :=
  if e.isFixedReference then m.load value (e.width A) else value % 256 ^ e.width A

/-- The variable holds the element itself. -/
def isValue : Element → Bool
  | value _ _ => true
  | _ => false

end Element

/-- The elements, each the number that its bytes are -/
def Elements (A : Arena) (e : Element) (m : Memory) (array : Nat) (xs : List Nat) : Prop :=
  ∀ i x, xs[i]? = some x → m.load (array + sizeofVector + i * e.typeSize) (e.width A) = x

structure Stored (A : Arena) (e : Element) (s : State) (array : Nat) (xs : List Nat) : Prop where
  live : ∃ n, (array, n) ∈ s.live ∧ sizeofVector + xs.length * e.typeSize ≤ n
  length : s.mem.load array 4 = xs.length
  elements : Elements A e s.mem array xs

/-- An array that is empty may be a null pointer. -/
def Holds (A : Arena) (e : Element) (s : State) (array : Nat) (xs : List Nat) : Prop :=
  array = 0 ∧ xs = [] ∨ Stored A e s array xs

/-! ## What the bytes depend on -/

theorem load_congr {a b : Nat} (h : ∀ i < n, m' (b + i) = m (a + i)) : m'.load b n = m.load a n := by
  induction n generalizing a b with
  | zero => rfl
  | succ n ih =>
    have hrest : m'.load (b + 1) n = m.load (a + 1) n := by
      refine ih fun i hi => ?_
      have hbyte := h (i + 1) (by omega)
      rwa [Nat.add_right_comm, Nat.add_right_comm a, Nat.add_assoc, Nat.add_assoc a]
    have hfirst := h 0 (by omega)
    simp only [Nat.add_zero] at hfirst
    unfold load
    rw [hfirst, hrest]

/-- The last byte of an element -/
theorem element_le {i : Nat} (hi : i < xs.length) :
    i * e.typeSize + e.width A ≤ xs.length * e.typeSize := by
  have hwidth := e.width_le_fieldSize (A := A)
  have hfield := e.fieldSize_le_typeSize (A := A)
  have hnext := Nat.mul_le_mul_right e.typeSize hi
  rw [Nat.succ_mul] at hnext
  omega

theorem Elements.congr (h : Elements A e m array xs)
    (hdata : ∀ i < sizeofVector + xs.length * e.typeSize, m' (new + i) = m (array + i)) :
    Elements A e m' new xs := by
  intro i x hx
  obtain ⟨hi, -⟩ := List.getElem?_eq_some_iff.mp hx
  have hle := element_le (A := A) (e := e) hi
  rw [← h i x hx]
  refine load_congr fun j hj => ?_
  have hbyte := hdata (sizeofVector + i * e.typeSize + j) (by omega)
  simpa only [Nat.add_assoc] using hbyte

theorem Stored.congr (h : Stored A e s array xs) (hlive : (new, size) ∈ s'.live)
    (hsize : sizeofVector + xs.length * e.typeSize ≤ size)
    (hdata : ∀ i < sizeofVector + xs.length * e.typeSize, s'.mem (new + i) = s.mem (array + i)) :
    Stored A e s' new xs := by
  have hsizeof : sizeofVector = 8 := rfl
  refine ⟨⟨size, hlive, hsize⟩, ?_, h.elements.congr hdata⟩
  rw [load_congr fun i hi => hdata i (by omega)]
  exact h.length

theorem Stored.kept (h : Stored A e s array xs) (hk : Kept A s s' none) : Stored A e s' array xs := by
  obtain ⟨n, hn, hsize⟩ := h.live
  refine h.congr (hk.live _ hn nofun) hsize fun i hi => ?_
  exact hk.data _ hn nofun _ (Nat.le_add_right _ _) (by simp only; omega)

theorem elements_setLength (h : Elements A e m array xs) (len : Nat) :
    Elements A e (setLength m array len) array xs := by
  intro i x hx
  have hwithin := within_setLength m array len
  have hsizeof : sizeofVector = 8 := rfl
  have hagree : Agree m (setLength m array len) (array + sizeofVector + i * e.typeSize)
      (array + sizeofVector + i * e.typeSize + e.width A) := hwithin.agree (.inr (by omega))
  rw [hagree.load (Nat.le_refl _) (Nat.le_refl _)]
  exact h i x hx

/-- An element is written behind the others. -/
theorem elements_append (h : Elements A e m array xs)
    (hlen : m'.load (array + sizeofVector + xs.length * e.typeSize) (e.width A) = x)
    (hm : Within m m' (array + sizeofVector + xs.length * e.typeSize)
      (array + sizeofVector + xs.length * e.typeSize + e.width A)) :
    Elements A e m' array (xs ++ [x]) := by
  intro i y hy
  obtain hi | hi := Nat.lt_or_ge i xs.length
  · rw [List.getElem?_append_left hi] at hy
    have hle := element_le (A := A) (e := e) hi
    have hagree : Agree m m' (array + sizeofVector + i * e.typeSize)
        (array + sizeofVector + i * e.typeSize + e.width A) := hm.agree (.inl (by omega))
    rw [hagree.load (Nat.le_refl _) (Nat.le_refl _)]
    exact h i y hy
  · rw [List.getElem?_append_right hi] at hy
    obtain ⟨h0, rfl⟩ := List.getElem?_eq_some_iff.mp hy
    have heq : i = xs.length := by
      simp only [List.length_singleton] at h0
      omega
    subst heq
    simpa using hlen

/-- The first elements of an array that is reallocated -/
theorem Stored.moved {k : Nat} (h : Stored A e s array xs) (hinv : Inv A s)
    (hr : Reallocates A s s' array new size) (hk : k ≤ xs.length)
    (hsize : sizeofVector + k * e.typeSize ≤ size) :
    ∀ i < sizeofVector + k * e.typeSize, s'.mem (new + i) = s.mem (array + i) := by
  intro i hi
  obtain ⟨n, hn, hfits⟩ := h.live
  have hroom := hinv.room hn
  have hle := Nat.mul_le_mul_right e.typeSize hk
  exact hr.data i (by omega)

theorem Stored.bound (h : Stored A e s array xs) (hinv : Inv A s) :
    sizeofVector + xs.length * e.typeSize ≤ A.length := by
  obtain ⟨n, hn, hfits⟩ := h.live
  have hroom := hinv.room hn
  have hlimit : A.limit = A.start + A.sizeofChunk + A.length := rfl
  omega

theorem Stored.ne_zero (h : Stored A e s array xs) (hinv : Inv A s) : array ≠ 0 := by
  obtain ⟨n, hn, -⟩ := h.live
  have hroom := hinv.room hn
  have hstart := A.start_pos
  omega

theorem load_store_element {slot value : Nat} (h : e.store A m slot value = .ok m') :
    m'.load slot (e.width A) = e.content A m value := by
  unfold Element.store at h
  unfold Element.content
  split at h
  next =>
    cases h
    split
    next => exact load_congr fun i hi => copy_apply hi
    next => exact load_store m slot _ value
  next => cases h

/-! ## The steps -/

/-- Wherever the array is, and with the other blocks as they are, the operand is this element. -/
def Yields (A : Arena) (e : Element) (value : Operand A) (s : State) (array : Nat) (xs : List Nat) (x : Nat) :
    Prop :=
  ∀ array' s' v s'', Kept A s s' (some array) → Stored A e s' array' xs →
    value.eval array' s' = .ok (v, s'') → e.content A s''.mem v = x

/-- `__realloc` gives a block, if there is memory for one. -/
def Contract (A : Arena) (s : State) (array size : Nat) : Prop :=
  match A.realloc s.mem array size with
  | .ok _ => True
  | .error f => f = .outOfMemory

theorem Contract.reallocate (h : Contract A s array size) (h0 : array ≠ 0) :
    reallocate A s array size = .error .outOfMemory ∨
      ∃ new s', reallocate A s array size = .ok (new, s') := by
  unfold Contract at h
  unfold Vector.reallocate
  rw [if_neg h0]
  split at h
  next r heq =>
    rw [heq]
    exact .inr ⟨_, _, rfl⟩
  next f heq =>
    rw [heq, h]
    exact .inl rfl

/-- The result is the element, or for a struct a pointer to it. -/
def Means (A : Arena) (e : Element) (m : Memory) (x : Nat) : Result → Prop
  | .word v => e.isFixedReference = false ∧ v % 256 ^ e.width A = x
  | .pointer p => e.isFixedReference = true ∧ m.load p (e.width A) = x
  | .aggregate _ => False

/-- A push appends. -/
theorem push_stored {value : Operand A} (hlimit : A.limit < 256 ^ A.ptr) (hlength : A.length < 2 ^ 31)
    (heq : e.fieldSize A = e.typeSize) (h : Inv A s) (hs : Stored A e s array xs)
    (hsize : sizeofVector + (xs.length + 1) * e.typeSize < 2 ^ 32)
    (hyields : Yields A e value s array xs x) {res : Result}
    (hok : pushMemory A e s array value = .ok (res, new, s')) :
    Means A e s'.mem x res ∧ Kept A s s' (some array) ∧ Stored A e s' new (xs ++ [x]) := by
  have hlen : vectorLen s.mem array = xs.length := by
    unfold vectorLen
    rw [if_neg (hs.ne_zero h)]
    exact hs.length
  have hbound := hs.bound h
  have hpos := Nat.le_mul_of_pos_right xs.length e.typeSize_pos
  obtain ⟨n, hn, -⟩ := hs.live
  have hresized := push_resized h hn hlimit (by rw [hlen, heq]; omega) (by omega)
    (by rw [hlen, heq]; omega) hok
  rw [hlen, heq] at hresized
  obtain ⟨s1, v, s2, m, hrealloc, heval, hstore, rfl, hres⟩ := pushMemory_ok hok
  rw [hlen] at hrealloc hstore hres
  have hwrap : (xs.length + 1) % 2 ^ 32 = xs.length + 1 := Nat.mod_eq_of_lt (by omega)
  rw [hwrap, vectorSize_eq (by rw [heq]; exact hsize), heq] at hrealloc
  have hspec := reallocate_spec h hn hrealloc
  have hfits : sizeofVector + xs.length * e.typeSize ≤ sizeofVector + (xs.length + 1) * e.typeSize :=
    Nat.add_le_add_left (Nat.mul_le_mul_right _ (Nat.le_succ _)) _
  have hs1 : Stored A e s1 new xs :=
    hs.congr hspec.live hfits (hs.moved h hspec (Nat.le_refl _) hfits)
  have hs2 := hs1.kept (value.kept hspec.kept.inv heval)
  have hroom := hspec.kept.inv.room hspec.live
  rw [Nat.add_one_mul] at hroom
  have hslot : slotOf A e new xs.length = new + sizeofVector + xs.length * e.typeSize := by
    have hpos := e.typeSize_pos
    rw [slotOf_eq (by rw [heq]; omega) (by rw [heq]; omega), heq]
  rw [hslot] at hstore hres
  have hload := (load_store_element hstore).trans (hyields new s1 v s2 hspec.kept hs1 heval)
  have hstored : Elements A e (setLength m new ((vectorLen s.mem array + 1) % 2 ^ 32)) new (xs ++ [x]) :=
    elements_setLength (elements_append hs2.elements hload (Element.within_store hstore)) _
  refine ⟨?_, hresized.kept, ⟨_, hresized.live, by simp⟩, by simpa using hresized.length, hstored⟩
  rw [hres]
  cases href : e.isFixedReference with
  | true => exact ⟨href, hstored xs.length x (by simp)⟩
  | false =>
    refine ⟨href, ?_⟩
    have hcontent := hyields new s1 v s2 hspec.kept hs1 heval
    unfold Element.content at hcontent
    rwa [href] at hcontent

/-- A push goes through, unless the memory does not suffice. -/
theorem push_ends {value : Operand A} (hlimit : A.limit < 256 ^ A.ptr) (hlength : A.length < 2 ^ 31)
    (heq : e.fieldSize A = e.typeSize) (h : Inv A s) (hs : Stored A e s array xs)
    (hsize : sizeofVector + (xs.length + 1) * e.typeSize < 2 ^ 32)
    (hcontract : Contract A s array (vectorSize A e (xs.length + 1))) :
    pushMemory A e s array value = .error (.fault .outOfMemory) ∨
      ∃ res new s', pushMemory A e s array value = .ok (res, new, s') := by
  have hlen : vectorLen s.mem array = xs.length := by
    unfold vectorLen
    rw [if_neg (hs.ne_zero h)]
    exact hs.length
  have hbound := hs.bound h
  have hpos := Nat.le_mul_of_pos_right (xs.length + 1) e.typeSize_pos
  have hwrap : (xs.length + 1) % 2 ^ 32 = xs.length + 1 := Nat.mod_eq_of_lt (by omega)
  obtain ⟨n, hn, -⟩ := hs.live
  unfold pushMemory
  simp only [hlen, hwrap]
  obtain hoom | ⟨new, s1, hrealloc⟩ := hcontract.reallocate (hs.ne_zero h)
  · left
    rw [hoom]
    rfl
  rw [hrealloc]
  rw [vectorSize_eq (by rw [heq]; exact hsize), heq] at hrealloc
  have hspec := reallocate_spec h hn hrealloc
  have hroom := hspec.kept.inv.room hspec.live
  rw [Nat.add_one_mul] at hroom
  have hwidth := e.width_le_fieldSize (A := A)
  cases heval : value.eval new s1 with
  | error f =>
    left
    cases value.fault heval
    simp only [heval, bind, Except.bind]
    rfl
  | ok r =>
    right
    have hfits : slotOf A e new xs.length + e.width A ≤ A.limit := by
      rw [slotOf_eq (by rw [heq]; omega) (by rw [heq]; have := e.typeSize_pos; omega), heq]
      omega
    simp only [heval, bind, Except.bind]
    unfold Element.store
    rw [if_pos hfits]
    exact ⟨_, _, _, rfl⟩

/-- A pop takes the last element off. -/
theorem pop_stored {ys : List Nat} (hlimit : A.limit < 256 ^ A.ptr) (hlength : A.length < 2 ^ 31)
    (heq : e.fieldSize A = e.typeSize) (hvalue : e.isValue = true) (h : Inv A s)
    (hs : Stored A e s array (ys ++ [x])) {res : Result}
    (hok : popMemory A e s array = .ok (res, new, s')) :
    Means A e s'.mem x res ∧ Kept A s s' (some array) ∧ Stored A e s' new ys := by
  have hbound := hs.bound h
  have hlen : s.mem.load array 4 - 1 = ys.length := by
    rw [hs.length, List.length_append]
    rfl
  rw [List.length_append, List.length_singleton, Nat.add_one_mul] at hbound
  have hpos := Nat.le_mul_of_pos_right ys.length e.typeSize_pos
  obtain ⟨n, hn, hfits⟩ := hs.live
  have hroom := h.room hn
  rw [List.length_append, List.length_singleton, Nat.add_one_mul] at hfits
  have hresized := pop_resized h hn (by rw [hlen, heq]; omega) hok
  rw [hlen, heq] at hresized
  obtain ⟨-, s1, hrealloc, rfl, hres⟩ := popMemory_ok hok
  rw [hlen] at hrealloc hres
  rw [vectorSize_eq (by rw [heq]; omega), heq] at hrealloc
  have hspec := reallocate_spec h hn hrealloc
  have hlast : (ys ++ [x])[ys.length]? = some x := by simp
  refine ⟨?_, hresized.kept, ⟨_, hresized.live, Nat.le_refl _⟩, hresized.length, ?_⟩
  · rw [hres, slotOf_eq (by rw [heq]; omega) (by rw [heq]; have := e.typeSize_pos; omega), heq]
    have hx := hs.elements ys.length x hlast
    cases e with
    | value size pos =>
      refine ⟨rfl, ?_⟩
      rw [← hx]
      exact Nat.mod_eq_of_lt (load_lt _ _ _)
    | _ => cases hvalue
  · have hys : Elements A e s.mem array ys := fun i y hy => by
      obtain ⟨hi, -⟩ := List.getElem?_eq_some_iff.mp hy
      exact hs.elements i y (by rw [List.getElem?_append_left hi, hy])
    rw [hlen]
    exact elements_setLength (hys.congr (hs.moved h hspec (by simp) (Nat.le_refl _))) _

/-! ## Runs -/

inductive Op (A : Arena) where
  /-- The operand, and the element that it is -/
  | push (value : Operand A) (x : Nat)
  | pop

namespace Op

def step (e : Element) (s : State) (array : Nat) : Op A → Except Abort (Result × Nat × State)
  | push value _ => pushMemory A e s array value
  | pop => popMemory A e s array

/-- What the step is on a list: the element, and the list after it; none where there is nothing to pop -/
def listStep (xs : List Nat) : Op A → Option (Nat × List Nat)
  | push _ x => some (x, xs ++ [x])
  | pop => xs.getLast?.map fun x => (x, xs.dropLast)

/-- The array is not a null pointer where it is pushed to, its size does not wrap, and what is popped
is held by the variable itself. -/
def Meets (e : Element) (array : Nat) (xs : List Nat) : Op A → Prop
  | push _ _ => array ≠ 0 ∧ sizeofVector + (xs.length + 1) * e.typeSize < 2 ^ 32
  | pop => e.isValue = true ∨ xs = []

/-- `__realloc` is given a null pointer, or meets its contract. -/
def MeetsContract (e : Element) (s : State) (array : Nat) (xs : List Nat) : Op A → Prop
  | push _ _ => array ≠ 0 → Contract A s array (vectorSize A e (xs.length + 1))
  | pop => xs ≠ [] → Contract A s array (vectorSize A e (xs.length - 1))

/-- The operand of a push is the element. -/
def HasElement (e : Element) (s : State) (array : Nat) (xs : List Nat) : Op A → Prop
  | push value x => Yields A e value s array xs x
  | pop => True

end Op

/-- The steps of a run, where they are taken -/
def AlongList (e : Element) (P : State → Nat → List Nat → Op A → Prop) (s : State) (array : Nat)
    (xs : List Nat) : List (Op A) → Prop
  | [] => True
  | op :: ops => P s array xs op ∧
    match op.step e s array, op.listStep xs with
    | .ok (_, array, s), some (_, xs) => AlongList e P s array xs ops
    | _, _ => True

/-- Each step does what it does on a list, aborts where there is nothing to pop, or runs out of
memory; the other blocks are kept. -/
def Agrees (e : Element) (s : State) (array : Nat) (xs : List Nat) : List (Op A) → Prop
  | [] => True
  | op :: ops =>
    op.step e s array = .error (.fault .outOfMemory) ∨
      (op.listStep xs = none ∧ ∃ abort, op.step e s array = .error abort) ∨
      ∃ res array' s' x xs', op.step e s array = .ok (res, array', s') ∧ op.listStep xs = some (x, xs') ∧
        Means A e s'.mem x res ∧ Stored A e s' array' xs' ∧ Kept A s s' (some array) ∧
        Agrees e s' array' xs' ops

/-- There is nothing to pop. -/
theorem pop_empty (h : Holds A e s array []) : ∃ abort, popMemory A e s array = .error abort := by
  unfold popMemory
  by_cases h0 : s.mem.load array 4 = 0
  · exact ⟨.emptyArrayPop, if_pos h0⟩
  · obtain ⟨rfl, -⟩ | hs := h
    · refine ⟨.fault .nullHeader, ?_⟩
      rw [if_neg h0]
      rfl
    · exact absurd hs.length h0

theorem pop_ends {ys : List Nat} (h : Inv A s) (hs : Stored A e s array (ys ++ [x]))
    (hcontract : Contract A s array (vectorSize A e ys.length)) :
    popMemory A e s array = .error (.fault .outOfMemory) ∨
      ∃ res new s', popMemory A e s array = .ok (res, new, s') := by
  have hlen : s.mem.load array 4 = ys.length + 1 := by simpa using hs.length
  unfold popMemory
  simp only [hlen, Nat.add_sub_cancel]
  rw [if_neg (Nat.succ_ne_zero _)]
  obtain hoom | ⟨new, s1, hrealloc⟩ := hcontract.reallocate (hs.ne_zero h)
  · left
    rw [hoom]
    rfl
  · right
    rw [hrealloc]
    exact ⟨_, _, _, rfl⟩

theorem run_agrees (hlimit : A.limit < 256 ^ A.ptr) (hlength : A.length < 2 ^ 31)
    (heq : e.fieldSize A = e.typeSize) {ops : List (Op A)} (h : Inv A s) (hs : Holds A e s array xs)
    (hmeets : AlongList e (fun _ array xs op => op.Meets e array xs) s array xs ops)
    (hcontract : AlongList e (fun s array xs op => op.MeetsContract e s array xs) s array xs ops)
    (helement : AlongList e (fun s array xs op => op.HasElement e s array xs) s array xs ops) :
    Agrees e s array xs ops := by
  induction ops generalizing s array xs with
  | nil => trivial
  | cons op ops ih =>
    obtain ⟨hmeet, hmeets⟩ := hmeets
    obtain ⟨hgive, hcontract⟩ := hcontract
    obtain ⟨hyields, helement⟩ := helement
    unfold Agrees
    cases op with
    | push value x =>
      have hs := hs.resolve_left fun h0 => hmeet.1 h0.1
      obtain hoom | ⟨res, new, s', hok⟩ := push_ends hlimit hlength heq h hs hmeet.2
        (hgive hmeet.1)
      · exact .inl hoom
      obtain ⟨hmeans, hkept, hs'⟩ := push_stored hlimit hlength heq h hs hmeet.2 hyields hok
      simp only [Op.step, hok, Op.listStep] at hmeets hcontract helement
      exact .inr (.inr ⟨res, new, s', x, _, hok, rfl, hmeans, hs', hkept,
        ih hkept.inv (.inr hs') hmeets hcontract helement⟩)
    | pop =>
      obtain rfl | ⟨ys, x, rfl⟩ := List.eq_nil_or_concat' xs
      · exact .inr (.inl ⟨rfl, pop_empty hs⟩)
      have hs := hs.resolve_left fun h0 => by simp at h0
      have hlist : (Op.pop : Op A).listStep (ys ++ [x]) = some (x, ys) := by simp [Op.listStep]
      have hgive := hgive (by simp)
      rw [List.length_append, List.length_singleton, Nat.add_sub_cancel] at hgive
      obtain hoom | ⟨res, new, s', hok⟩ := pop_ends h hs hgive
      · exact .inl hoom
      have hvalue := hmeet.resolve_right (by simp)
      obtain ⟨hmeans, hkept, hs'⟩ := pop_stored hlimit hlength heq hvalue h hs hok
      simp only [Op.step, hok, hlist] at hmeets hcontract helement
      exact .inr (.inr ⟨res, new, s', x, ys, hok, hlist, hmeans, hs', hkept,
        ih hkept.inv (.inr hs') hmeets hcontract helement⟩)

/-- In every run that meets the conditions, an array in memory is a list. -/
theorem array_is_list (target : Target) (e : Element) (heq : e.fieldSize target.arena = e.typeSize)
    (s : State) (array : Nat) (xs : List Nat) (ops : List (Op target.arena)) (h : Inv target.arena s)
    (hs : Holds target.arena e s array xs)
    (hmeets : AlongList e (fun _ array xs op => op.Meets e array xs) s array xs ops)
    (hcontract : AlongList e (fun s array xs op => op.MeetsContract e s array xs) s array xs ops)
    (helement : AlongList e (fun s array xs op => op.HasElement e s array xs) s array xs ops) :
    Agrees e s array xs ops :=
  run_agrees target.limit_lt target.length_lt heq h hs hmeets hcontract helement

/-- The vectors that `new` makes hold zeros. -/
theorem vectorNew_stored {members : Nat} (h : Inv A s) (hmembers : members < 2 ^ 32)
    (hsize : members * e.typeSize < 2 ^ 32)
    (hok : vectorNew A s members (e.typeSize % 2 ^ 32) none = .ok (array, s')) :
    Inv A s' ∧ Stored A e s' array (List.replicate members 0) := by
  have hmade := vectorNew_made h hmembers hok
  rw [Nat.mul_mod_mod, Nat.mod_eq_of_lt hsize] at hmade
  refine ⟨hmade.kept.inv, ⟨_, hmade.live, by simp⟩, by simpa using hmade.length, fun i x hx => ?_⟩
  unfold vectorNew at hok
  obtain ⟨⟨b, m1⟩, -, hok⟩ := Except.bind_eq_ok_iff.mp hok
  obtain ⟨m2, hfill, hok⟩ := Except.bind_eq_ok_iff.mp hok
  cases hok
  rw [Nat.mul_mod_mod, Nat.mod_eq_of_lt hsize] at hfill
  obtain ⟨hi, rfl⟩ := List.getElem?_eq_some_iff.mp hx
  have hle := element_le (A := A) (e := e) hi
  rw [List.length_replicate] at hle
  rw [List.getElem_replicate]
  exact load_eq_zero fun y hlo hhi => fill_zero hfill (by omega) (by omega)

/-! ## Samples -/

section Decidable

instance (s : State) (array size : Nat) : Decidable (Contract A s array size) :=
  match h : A.realloc s.mem array size with
  | .ok _ => .isTrue (by unfold Contract; rw [h]; trivial)
  | .error f => decidable_of_iff (f = .outOfMemory) (by unfold Contract; rw [h])

instance (array : Nat) (xs : List Nat) (op : Op A) : Decidable (op.Meets e array xs) :=
  match op with
  | .push _ _ => inferInstanceAs (Decidable (_ ∧ _))
  | .pop => inferInstanceAs (Decidable (_ ∨ _))

instance (s : State) (array : Nat) (xs : List Nat) (op : Op A) : Decidable (op.MeetsContract e s array xs) :=
  match op with
  | .push _ _ => inferInstanceAs (Decidable (_ → _))
  | .pop => inferInstanceAs (Decidable (_ → _))

instance decidableAlongList (P : State → Nat → List Nat → Op A → Prop)
    [∀ s array xs op, Decidable (P s array xs op)] (s : State) (array : Nat) (xs : List Nat) :
    (ops : List (Op A)) → Decidable (AlongList e P s array xs ops)
  | [] => .isTrue trivial
  | op :: ops =>
    have : Decidable (match op.step e s array, op.listStep xs with
      | .ok (_, array, s), some (_, xs) => AlongList e P s array xs ops
      | _, _ => True) :=
      match op.step e s array, op.listStep xs with
      | .ok (_, array, s), some (_, xs) => decidableAlongList P s array xs ops
      | .ok _, none => .isTrue trivial
      | .error _, _ => .isTrue trivial
    inferInstanceAs (Decidable (_ ∧ _))

end Decidable

theorem alongList_of_forall {P : State → Nat → List Nat → Op A → Prop} {ops : List (Op A)}
    (h : ∀ op ∈ ops, ∀ s array xs, P s array xs op) : AlongList e P s array xs ops := by
  induction ops generalizing s array xs with
  | nil => trivial
  | cons op ops ih =>
    refine ⟨h op List.mem_cons_self s array xs, ?_⟩
    split
    · exact ih fun op hop => h op (List.mem_cons_of_mem _ hop)
    · trivial

namespace Sample

theorem yields_constant (value : Nat) (hvalue : e.isFixedReference = false) (s : State) (array : Nat)
    (xs : List Nat) : Yields A e (constant value) s array xs (value % 256 ^ e.width A) := by
  rintro array' s' v s'' - - heval
  cases heval
  unfold Element.content
  rw [hvalue]
  rfl

/-- The array and the memory after `new uint64[](1)` on Solana -/
def zeros : Nat × State :=
  (vectorNew Target.solana.arena (State.init Target.solana.arena fun _ => 0) 1 8 none).toOption.getD
    (0, State.init Target.solana.arena fun _ => 0)

theorem zeros_eq :
    vectorNew Target.solana.arena (State.init Target.solana.arena fun _ => 0) 1 8 none = .ok zeros := by
  have hok : (vectorNew Target.solana.arena (State.init Target.solana.arena fun _ => 0) 1 8
      none).toOption.isSome = true := by decide +kernel
  unfold zeros
  cases hr : vectorNew Target.solana.arena (State.init Target.solana.arena fun _ => 0) 1 8 none with
  | ok r => rfl
  | error f =>
    rw [hr] at hok
    cases hok

theorem zeros_stored : Inv Target.solana.arena zeros.2 ∧
    Stored Target.solana.arena uint64 zeros.2 zeros.1 (List.replicate 1 0) :=
  vectorNew_stored (inv_init _) (by decide) (by decide) zeros_eq

/-- One element is pushed, both are popped, and there is nothing more. -/
def ops : List (Op Target.solana.arena) := [.push (constant 7) 7, .pop, .pop, .pop]

theorem array_is_list_ops : Agrees uint64 zeros.2 zeros.1 [0] ops := by
  refine array_is_list .solana uint64 rfl zeros.2 zeros.1 [0] ops zeros_stored.1 (.inr zeros_stored.2)
    (by decide +kernel) (by decide +kernel) (alongList_of_forall fun op hop s array xs => ?_)
  have hpush : ∀ s array xs, Yields Target.solana.arena uint64 (constant 7) s array xs 7 :=
    yields_constant 7 rfl
  simp only [ops, List.mem_cons, List.not_mem_nil, or_false, or_self] at hop
  obtain rfl | rfl := hop
  · exact hpush s array xs
  · trivial

def bytes1 : Element := .value 1 (by decide)

/-- `bytes b = ""; b.push(0x07);` -/
theorem null_push_not_list :
    ¬ ∀ (target : Target) (e : Element) (s : State) (array : Nat) (xs : List Nat)
      (ops : List (Op target.arena)), Inv target.arena s → Holds target.arena e s array xs →
      AlongList e (fun s array xs op => op.MeetsContract e s array xs) s array xs ops →
      AlongList e (fun s array xs op => op.HasElement e s array xs) s array xs ops →
      Agrees e s array xs ops := by
  intro hall
  have hagrees := hall .solana bytes1 (State.init Target.solana.arena fun _ => 0) 0 []
    [.push (constant 7) 7] (inv_init _) (.inl ⟨rfl, rfl⟩) ⟨fun h => absurd rfl h, trivial⟩
    ⟨yields_constant 7 rfl _ _ _, trivial⟩
  obtain hoom | ⟨hnone, -⟩ | ⟨res, array', s', x, xs', hok, -⟩ := hagrees
  · cases hoom
  · cases hnone
  · cases hok

end Sample

end Solang.Emit.Vector
