import Solang.Emit.Vector
import Solang.Lib.Except

/-!
# The memory of a vector suffices for its elements

The length of a vector is a count of elements, its allocation a count of bytes that wraps. A run
of the program's steps keeps that every vector has the bytes that its subscripts address, as
long as no step goes to where the two counts part.
-/

namespace Solang.Emit.Vector

open Memory Stdlib.Heap

variable {A : Arena} {e : Element} {s s' s'' : State} {m m' : Memory} {array v new size n len : Nat}

/-! ## `vector_new` -/

variable {initial : Option Nat} {res : Result}

theorem agree_fill {data sizeArray : Nat} (h : fill A m data initial sizeArray = .ok m') :
    data + sizeArray ≤ A.limit ∧
      Within m m' data (data + sizeArray) := by
  unfold fill at h
  split at h
  next hfits =>
    refine ⟨hfits, ?_⟩
    cases h
    cases initial with
    | some source => exact Within.refl.copy (Nat.le_refl _) (Nat.le_refl _)
    | none =>
      intro x hx
      exact if_neg (by omega)
  next => cases h

theorem within_setLength (m : Memory) (v len : Nat) : Within m (setLength m v len) v (v + 8) :=
  (Within.refl.store (Nat.le_refl _) (by omega)).store (by omega) (by omega)

theorem load_setLength (m : Memory) (v : Nat) (h : len < 2 ^ 32) :
    (setLength m v len).load v 4 = len := by
  unfold setLength
  rw [load_store_of_disjoint (by omega), load_store_of_lt (by omega)]

/-- What `vector_new` made, with the size in bytes -/
structure Made (A : Arena) (s s' : State) (v members sizeArray : Nat) : Prop where
  kept : Kept A s s' none
  fresh : ∀ p ∈ s.live, p.1 ≠ v
  live : (v, sizeofVector + sizeArray) ∈ s'.live
  length : s'.mem.load v 4 = members

theorem fill_zero {data sizeArray : Nat} (h : fill A m data none sizeArray = .ok m') {x : Nat}
    (hlo : data ≤ x) (hhi : x < data + sizeArray) : m' x = 0 := by
  unfold fill at h
  split at h
  next =>
    cases h
    exact if_pos ⟨hlo, hhi⟩
  next => cases h

theorem vectorNew_made {members : Nat} (h : Inv A s) (hmembers : members < 2 ^ 32)
    (hok : vectorNew A s members size initial = .ok (v, s')) :
    Made A s s' v members (members * size % 2 ^ 32) := by
  have hsizeof : sizeofVector = 8 := rfl
  have hlength := A.length_lt
  have hlimit : A.limit = A.start + A.sizeofChunk + A.length := rfl
  unfold vectorNew at hok
  obtain ⟨⟨b, m1⟩, hm, hok⟩ := Except.bind_eq_ok_iff.mp hok
  obtain ⟨m2, hfill, hok⟩ := Except.bind_eq_ok_iff.mp hok
  cases hok
  obtain ⟨hkept, hfresh⟩ := malloc_kept h hm none
  obtain ⟨hfits, hwithin⟩ := agree_fill hfill
  have hlive := List.mem_cons_self (a := (v, (sizeofVector + members * size % 2 ^ 32) % 2 ^ 32)) (l := s.live)
  have hroom := hkept.inv.room hlive
  simp only at hfits hroom hwithin hlive
  -- the loop would leave the memory before the size wraps
  have hwrap : (sizeofVector + members * size % 2 ^ 32) % 2 ^ 32 = sizeofVector + members * size % 2 ^ 32 :=
    Nat.mod_eq_of_lt (by omega)
  rw [hwrap] at hkept hlive ⊢
  have hwrite : Within m1 m2 v (v + (sizeofVector + members * size % 2 ^ 32)) :=
    ((within_setLength m1 v members).mono (Nat.le_refl _) (by omega)).trans
      (hwithin.mono (by omega) (by omega))
  refine ⟨hkept.after (kept_of_within hkept.inv hlive hwrite (Nat.le_refl _) (Nat.le_refl _))
    fun p hp _ => hfresh p hp, hfresh, hlive, ?_⟩
  have hbelow : Agree (setLength m1 v members) m2 v (v + 4) := hwithin.agree (.inl (by omega))
  show m2.load v 4 = members
  rw [hbelow.load (Nat.le_refl _) (Nat.le_refl _), load_setLength m1 v hmembers]

/-! ## `PushMemory` and `PopMemory` -/

theorem vectorSize_eq (h : sizeofVector + len * e.fieldSize A < 2 ^ 32) :
    vectorSize A e len = sizeofVector + len * e.fieldSize A := by
  unfold vectorSize
  rw [Nat.mod_mul_mod, Nat.mul_comm, Nat.mod_eq_of_lt (a := len * e.fieldSize A) (by omega),
    Nat.mod_eq_of_lt (by omega), Nat.add_comm]

theorem slotOf_eq {i : Nat} (hi : i * e.fieldSize A < 2 ^ 31)
    (hv : v + sizeofVector + i * e.fieldSize A < 256 ^ A.ptr) :
    slotOf A e v i = v + sizeofVector + i * e.fieldSize A := by
  unfold slotOf gep
  rw [Nat.mul_mod_mod, Nat.mod_eq_of_lt (a := i * e.fieldSize A) (by omega), if_pos hi,
    Nat.mod_eq_of_lt hv]

theorem reallocate_ok (hok : reallocate A s array size = .ok (new, s')) :
    array ≠ 0 ∧ A.realloc s.mem array size = .ok (new, s'.mem) ∧
      s' = ⟨s'.mem, (new, size) :: State.drop s.live array⟩ := by
  unfold reallocate at hok
  split at hok
  next => cases hok
  next h0 =>
    obtain ⟨⟨b, m⟩, hm, hok⟩ := Except.bind_eq_ok_iff.mp hok
    cases hok
    exact ⟨h0, hm, rfl⟩

theorem mapError_eq_ok {ε ε' α : Type} {x : Except ε α} {f : ε → ε'} {a : α}
    (h : x.mapError f = .ok a) : x = .ok a := by
  cases x with
  | error e => cases h
  | ok b =>
    cases h
    rfl

/-- The steps of a push that goes through -/
theorem pushMemory_ok {value : Operand A} (hok : pushMemory A e s array value = .ok (res, new, s')) :
    ∃ s1 x s2 m, reallocate A s array (vectorSize A e ((vectorLen s.mem array + 1) % 2 ^ 32)) =
        .ok (new, s1) ∧ value.eval new s1 = .ok (x, s2) ∧
      e.store A s2.mem (slotOf A e new (vectorLen s.mem array)) x = .ok m ∧
      s' = ⟨setLength m new ((vectorLen s.mem array + 1) % 2 ^ 32), s2.live⟩ ∧
      res = if e.isFixedReference then .pointer (slotOf A e new (vectorLen s.mem array)) else .word x := by
  have hok := mapError_eq_ok hok
  obtain ⟨⟨b, s1⟩, hrealloc, hok⟩ := Except.bind_eq_ok_iff.mp hok
  obtain ⟨⟨x, s2⟩, heval, hok⟩ := Except.bind_eq_ok_iff.mp hok
  obtain ⟨m, hstore, hok⟩ := Except.bind_eq_ok_iff.mp hok
  cases hok
  exact ⟨s1, x, s2, m, hrealloc, heval, hstore, rfl, rfl⟩

/-- The steps of a pop that goes through -/
theorem popMemory_ok (hok : popMemory A e s array = .ok (res, new, s')) :
    s.mem.load array 4 ≠ 0 ∧ ∃ s1,
      reallocate A s array (vectorSize A e (s.mem.load array 4 - 1)) = .ok (new, s1) ∧
      s' = ⟨setLength s1.mem new (s.mem.load array 4 - 1), s1.live⟩ ∧
      res = popped e s.mem (slotOf A e array (s.mem.load array 4 - 1)) := by
  unfold popMemory at hok
  simp only at hok
  split at hok
  next => cases hok
  next h0 =>
    have hok := mapError_eq_ok hok
    obtain ⟨⟨b, s1⟩, hrealloc, hok⟩ := Except.bind_eq_ok_iff.mp hok
    cases hok
    exact ⟨h0, s1, hrealloc, rfl, rfl⟩

/-- The array after a change of its length: other blocks are kept, and the new one has the size that
was asked for. -/
structure Resized (A : Arena) (s s' : State) (array new len size : Nat) : Prop where
  kept : Kept A s s' (some array)
  fresh : ∀ p ∈ s.live, some array ≠ some p.1 → p.1 ≠ new
  live : (new, size) ∈ s'.live
  length : s'.mem.load new 4 = len

/-- What `__realloc` gives, when it is not given a null pointer -/
structure Reallocates (A : Arena) (s s' : State) (array new size : Nat) : Prop where
  kept : Kept A s s' (some array)
  fresh : ∀ p ∈ s.live, some array ≠ some p.1 → p.1 ≠ new
  live : (new, size) ∈ s'.live
  data : ∀ i < min size (A.header s.mem (array - A.sizeofChunk)).length,
    s'.mem (new + i) = s.mem (array + i)

theorem reallocate_spec (h : Inv A s) (hlive : (array, n) ∈ s.live)
    (hok : reallocate A s array size = .ok (new, s')) : Reallocates A s s' array new size := by
  obtain ⟨-, hm, hs'⟩ := reallocate_ok hok
  obtain ⟨hkept, hdata, hfresh⟩ := realloc_moves h (List.mem_map_of_mem hlive) hm
  rw [← hs'] at hkept
  refine ⟨hkept, hfresh, ?_, hdata⟩
  rw [hs']
  exact List.mem_cons_self

/-- The array is written after all. -/
theorem resized_of_within (h : Kept A s s' (some array))
    (hfresh : ∀ p ∈ s.live, some array ≠ some p.1 → p.1 ≠ new) (hlive : (new, size) ∈ s'.live)
    (hlen : len < 2 ^ 32) (hsize : 8 ≤ size) (hm : Within s'.mem m new (new + size)) :
    Resized A s ⟨setLength m new len, s'.live⟩ array new len size := by
  have hwrite : Within s'.mem (setLength m new len) new (new + size) :=
    hm.trans ((within_setLength m new len).mono (Nat.le_refl _) (by omega))
  exact ⟨h.after (kept_of_within h.inv hlive hwrite (Nat.le_refl _) (Nat.le_refl _)) hfresh, hfresh,
    hlive, load_setLength m new hlen⟩

theorem pop_resized (h : Inv A s) (hlive : (array, n) ∈ s.live)
    (hsize : sizeofVector + (s.mem.load array 4 - 1) * e.fieldSize A < 2 ^ 32)
    (hok : popMemory A e s array = .ok (res, new, s')) :
    Resized A s s' array new (s.mem.load array 4 - 1)
      (sizeofVector + (s.mem.load array 4 - 1) * e.fieldSize A) := by
  have hlen := load_lt s.mem array 4
  obtain ⟨-, s1, hrealloc, rfl, -⟩ := popMemory_ok hok
  rw [vectorSize_eq hsize] at hrealloc
  obtain ⟨hkept, hfresh, hnew, -⟩ := reallocate_spec h hlive hrealloc
  exact resized_of_within hkept hfresh hnew (by omega) (Nat.le_add_right _ _) .refl

/-- The element is written behind the others. -/
theorem push_resized {value : Operand A} (h : Inv A s) (hlive : (array, n) ∈ s.live)
    (hlimit : A.limit < 256 ^ A.ptr) (hoffset : vectorLen s.mem array * e.fieldSize A < 2 ^ 31)
    (hlen : vectorLen s.mem array + 1 < 2 ^ 32)
    (hsize : sizeofVector + (vectorLen s.mem array + 1) * e.fieldSize A < 2 ^ 32)
    (hok : pushMemory A e s array value = .ok (res, new, s')) :
    Resized A s s' array new (vectorLen s.mem array + 1)
      (sizeofVector + (vectorLen s.mem array + 1) * e.fieldSize A) := by
  obtain ⟨s1, x, s2, m, hrealloc, heval, hstore, rfl, -⟩ := pushMemory_ok hok
  rw [Nat.mod_eq_of_lt hlen, vectorSize_eq hsize] at hrealloc
  rw [Nat.mod_eq_of_lt hlen]
  obtain ⟨hkept, hfresh, hnew, -⟩ := reallocate_spec h hlive hrealloc
  have heval := value.kept hkept.inv heval
  have hnew2 := heval.live _ hnew nofun
  have hroom := heval.inv.room hnew2
  have hwidth := e.width_le_fieldSize (A := A)
  rw [Nat.add_one_mul] at *
  rw [slotOf_eq hoffset (by omega)] at hstore
  refine resized_of_within (hkept.trans (heval.weaken _)) hfresh hnew2 hlen (Nat.le_add_right _ _) ?_
  exact (Element.within_store hstore).mono (by omega) (by omega)

/-! ## Vectors that cover their elements -/

/-- Every index below the length addresses bytes of the chunk. -/
def Covers (A : Arena) (m : Memory) (v : Nat) (e : Element) : Prop :=
  sizeofVector + vectorLen m v * e.typeSize ≤ (A.header m (v - A.sizeofChunk)).length

structure Covered (A : Arena) (s : State) (v : Nat) (e : Element) : Prop where
  live : ∃ n, (v, n) ∈ s.live ∧ sizeofVector ≤ n
  covers : Covers A s.mem v e

theorem Covered.ne_zero (hinv : Inv A s) (h : Covered A s v e) : v ≠ 0 := by
  obtain ⟨n, hn, -⟩ := h.live
  have hroom := hinv.room hn
  have hstart := A.start_pos
  omega

theorem Covered.kept {gone : Option Nat} (h : Covered A s v e) (hk : Kept A s s' gone)
    (hne : gone ≠ some v) : Covered A s' v e := by
  obtain ⟨⟨n, hn, hsize⟩, hcovers⟩ := h
  refine ⟨⟨n, hk.live _ hn hne, hsize⟩, ?_⟩
  have hsizeof : sizeofVector = 8 := rfl
  unfold Covers vectorLen at *
  rw [hk.length _ hn hne, (hk.data _ hn hne).load (Nat.le_refl _) (by omega)]
  exact hcovers

/-- A chunk is a multiple of eight long. -/
theorem covered_of_live (hinv : Inv A s) (hlive : (v, size) ∈ s.live) (hlen : s.mem.load v 4 = len)
    (hsizeof : sizeofVector ≤ size) (hsize : sizeofVector + len * e.typeSize ≤ (size + 7) / 8 * 8) :
    Covered A s v e := by
  refine ⟨⟨size, hlive, hsizeof⟩, ?_⟩
  have hroom := hinv.room hlive
  have hstart := A.start_pos
  unfold Covers vectorLen
  rw [if_neg (by omega), hlen]
  omega

theorem Covered.bound (hinv : Inv A s) (h : Covered A s v e) :
    sizeofVector + vectorLen s.mem v * e.typeSize ≤ A.length := by
  obtain ⟨⟨n, hn, -⟩, hcovers⟩ := h
  have hroom := hinv.room hn
  have hlimit : A.limit = A.start + A.sizeofChunk + A.length := rfl
  unfold Covers at hcovers
  omega

/-! ## Steps of a program -/

/-- The heap and the vectors that are in use -/
structure Machine where
  heap : State
  vectors : List (Nat × Element)

inductive Event (A : Arena) where
  /-- The heap is called for something that is not a vector. -/
  | call (call : Call)
  /-- Bytes of a block are written. -/
  | write (block offset : Nat) (data : List UInt8)
  /-- Bytes outside the heap are written. -/
  | outside (address : Nat) (data : List UInt8)
  | alloc (e : Element) (size : Nat) (initializer : Option (List UInt8))
  | push (e : Element) (array : Nat) (value : Operand A)
  | pop (e : Element) (array : Nat)

namespace Machine

def init (A : Arena) (m : Memory) : Machine := ⟨State.init A m, []⟩

/-- The vectors without this one -/
def others (M : Machine) (array : Nat) : List (Nat × Element) := M.vectors.filter (·.1 ≠ array)

variable (A : Arena) (constString : List UInt8 → Nat)

def step (M : Machine) : Event A → Except Abort Machine
  | .call call => do
    let heap ← (M.heap.step A call).mapError .fault
    .ok ⟨heap, M.vectors⟩
  | .write block offset data => .ok ⟨⟨M.heap.mem.write (block + offset) data, M.heap.live⟩, M.vectors⟩
  | .outside address data => .ok ⟨⟨M.heap.mem.write address data, M.heap.live⟩, M.vectors⟩
  | .alloc e size initializer => do
    let (v, heap) ← (allocDynamicBytes A constString M.heap e size initializer).mapError .fault
    .ok ⟨heap, if v = 0 then M.vectors else (v, e) :: M.vectors⟩
  | .push e array value => do
    let (_, new, heap) ← pushMemory A e M.heap array value
    .ok ⟨heap, (new, e) :: M.others array⟩
  | .pop e array => do
    let (_, new, heap) ← popMemory A e M.heap array
    .ok ⟨heap, (new, e) :: M.others array⟩

def run (M : Machine) : List (Event A) → Except Abort Machine
  | [] => .ok M
  | event :: events => do
    let M ← M.step A constString event
    M.run events

/-- The block that a call frees or moves -/
def given : Call → Option Nat
  | .malloc _ => none
  | .free block => some block
  | .realloc block _ => some block

/-- A program frees no vector, writes elements and not lengths, and pushes to and pops from vectors. -/
def Valid (M : Machine) : Event A → Prop
  | .call call => M.heap.Valid call ∧ ∀ p ∈ M.vectors, given call ≠ some p.1
  | .write block offset data => (∃ p ∈ M.heap.live, p.1 = block ∧ offset + data.length ≤ p.2) ∧
      ∀ p ∈ M.vectors, block = p.1 → sizeofVector ≤ offset
  | .outside address data => address + data.length ≤ A.start ∨ A.limit ≤ address
  | .alloc _ size _ => size < 2 ^ 32
  | .push e array _ => array = 0 ∨ (array, e) ∈ M.vectors
  | .pop e array => array = 0 ∨ (array, e) ∈ M.vectors

/-- The bytes of the new vector are computed without wrapping, or more than there are; elements are
placed by the size that subscripts use, where there are any. -/
def Exact (M : Machine) : Event A → Prop
  | .alloc e size none =>
    size * e.typeSize < 2 ^ 32 ∨ A.length < sizeofVector + size * e.typeSize % 2 ^ 32
  | .alloc e size (some (_ :: _)) =>
    size * e.typeSize < 2 ^ 32 ∨ A.length < sizeofVector + size * e.typeSize % 2 ^ 32
  | .push e array _ => sizeofVector + (vectorLen M.heap.mem array + 1) * e.typeSize < 2 ^ 32 ∧
      (e.fieldSize A = e.typeSize ∨ vectorLen M.heap.mem array = 0)
  | .pop e array => e.fieldSize A = e.typeSize ∨ vectorLen M.heap.mem array ≤ 1
  | _ => True

/-- The steps of a run, where they are taken -/
def Along (P : Machine → Event A → Prop) (M : Machine) : List (Event A) → Prop
  | [] => True
  | event :: events => P M event ∧
    match M.step A constString event with
    | .ok M => M.Along P events
    | .error _ => True

end Machine

/-! ## The invariant -/

structure Machine.Sound (A : Arena) (M : Machine) : Prop where
  inv : Inv A M.heap
  covered : ∀ p ∈ M.vectors, Covered A M.heap p.1 p.2

variable {M M' : Machine} {constString : List UInt8 → Nat}

theorem Machine.Sound.kept {gone : Option Nat} {heap : State} (h : M.Sound A) (hk : Kept A M.heap heap gone)
    (hne : ∀ p ∈ M.vectors, gone ≠ some p.1) : Machine.Sound A ⟨heap, M.vectors⟩ :=
  ⟨hk.inv, fun p hp => (h.covered p hp).kept hk (hne p hp)⟩

/-- A vector took the place of another one. -/
theorem Machine.Sound.resized {heap : State} (h : M.Sound A)
    (hr : Resized A M.heap heap array new len size) (hsizeof : sizeofVector ≤ size)
    (hsize : sizeofVector + len * e.typeSize ≤ (size + 7) / 8 * 8) :
    Machine.Sound A ⟨heap, (new, e) :: M.others array⟩ := by
  refine ⟨hr.kept.inv, fun p hp => ?_⟩
  obtain rfl | hp := List.mem_cons.mp hp
  · exact covered_of_live hr.kept.inv hr.live hr.length hsizeof hsize
  · obtain ⟨hp, hne⟩ := List.mem_filter.mp hp
    refine (h.covered p hp).kept hr.kept fun heq => ?_
    simp [Option.some.inj heq] at hne

theorem sound_call {call : Call} (h : M.Sound A) (hv : M.Valid A (.call call))
    (hok : M.step A constString (.call call) = .ok M') : M'.Sound A := by
  obtain ⟨hcall, hother⟩ := hv
  obtain ⟨heap, hstep, hok⟩ := Except.bind_eq_ok_iff.mp hok
  cases hok
  have hstep := mapError_eq_ok hstep
  cases call with
  | malloc size =>
    obtain ⟨r, hm, hok⟩ := Except.bind_eq_ok_iff.mp hstep
    cases hok
    exact h.kept (malloc_kept h.inv hm none).1 fun p hp => nofun
  | free block =>
    obtain ⟨m, hm, hok⟩ := Except.bind_eq_ok_iff.mp hstep
    cases hok
    exact h.kept (free_kept h.inv hcall hm) hother
  | realloc block size =>
    obtain ⟨r, hm, hok⟩ := Except.bind_eq_ok_iff.mp hstep
    cases hok
    exact h.kept (realloc_moves h.inv hcall.1 hm).kept hother

theorem within_write (m : Memory) (a : Nat) (data : List UInt8) :
    Within m (m.write a data) a (a + data.length) := by
  intro x hx
  exact if_neg (by omega)

/-- A write into a vector leaves its length alone. -/
theorem sound_write {block offset : Nat} {data : List UInt8} (h : M.Sound A)
    (hv : M.Valid A (.write block offset data)) :
    Machine.Sound A ⟨⟨M.heap.mem.write (block + offset) data, M.heap.live⟩, M.vectors⟩ := by
  obtain ⟨⟨⟨b, n⟩, hmem, hb, hfits⟩, hoffset⟩ := hv
  have hn : (block, n) ∈ M.heap.live := hb ▸ hmem
  have hwrite := within_write M.heap.mem (block + offset) data
  obtain ⟨hinv, hlength⟩ := inv_of_within h.inv hn hwrite (by omega) (by omega)
  have hkept := kept_of_within h.inv hn hwrite (by omega) (by omega)
  refine ⟨hinv, fun p hp => ?_⟩
  by_cases heq : block = p.1
  · obtain ⟨⟨k, hk, hsize⟩, hcovers⟩ := h.covered p hp
    refine ⟨⟨k, hk, hsize⟩, ?_⟩
    have hoff := hoffset p hp heq
    have hsame : Agree M.heap.mem (M.heap.mem.write (block + offset) data) p.1 (p.1 + 4) :=
      hwrite.agree (.inl (by unfold sizeofVector at hoff; omega))
    unfold Covers vectorLen at *
    rw [hlength _ hk, hsame.load (Nat.le_refl _) (Nat.le_refl _)]
    exact hcovers
  · exact (h.covered p hp).kept hkept fun hsome => heq (Option.some.inj hsome)

/-- The size that `vector_new` asked for is there, so it is not the wrapped one of a vector too long. -/
theorem sound_vectorNew {heap : State} (h : M.Sound A) (hsize : size < 2 ^ 32)
    (hexact : size * e.typeSize < 2 ^ 32 ∨ A.length < sizeofVector + size * e.typeSize % 2 ^ 32)
    (hok : vectorNew A M.heap size (e.typeSize % 2 ^ 32) initial = .ok (v, heap)) :
    Machine.Sound A ⟨heap, if v = 0 then M.vectors else (v, e) :: M.vectors⟩ := by
  obtain ⟨hkept, hfresh, hlive, hlength⟩ := vectorNew_made h.inv hsize hok
  rw [Nat.mul_mod_mod] at hlive
  have hroom := hkept.inv.room hlive
  have hlimit : A.limit = A.start + A.sizeofChunk + A.length := rfl
  have hstart := A.start_pos
  have hexact := hexact.resolve_right (by omega)
  rw [Nat.mod_eq_of_lt hexact] at hlive
  rw [if_neg (by omega)]
  refine ⟨hkept.inv, fun p hp => ?_⟩
  obtain rfl | hp := List.mem_cons.mp hp
  · show Covered A heap v e
    exact covered_of_live hkept.inv hlive hlength (Nat.le_add_right _ _) (by omega)
  · exact (h.covered p hp).kept hkept nofun

theorem sound_alloc {initializer : Option (List UInt8)} (h : M.Sound A)
    (hv : M.Valid A (.alloc e size initializer)) (hexact : M.Exact A (.alloc e size initializer))
    (hok : M.step A constString (.alloc e size initializer) = .ok M') : M'.Sound A := by
  obtain ⟨⟨v, heap⟩, halloc, hok⟩ := Except.bind_eq_ok_iff.mp hok
  cases hok
  have halloc := mapError_eq_ok halloc
  match initializer with
  | none => exact sound_vectorNew h hv hexact halloc
  | some [] =>
    cases halloc
    exact h
  | some (b :: bytes) => exact sound_vectorNew h hv hexact halloc

/-- A subscript of the new vector goes no further than `PushMemory` asked for. -/
theorem sound_push {value : Operand A} (hlength : A.length < 2 ^ 31) (hlimit : A.limit < 256 ^ A.ptr)
    (h : M.Sound A) (hv : M.Valid A (.push e array value)) (hexact : M.Exact A (.push e array value))
    (hok : M.step A constString (.push e array value) = .ok M') : M'.Sound A := by
  obtain ⟨⟨res, new, heap⟩, hpush, hok⟩ := Except.bind_eq_ok_iff.mp hok
  cases hok
  obtain rfl | hmem := hv
  · obtain ⟨s1, x, s2, m, hrealloc, -⟩ := pushMemory_ok hpush
    exact absurd rfl (reallocate_ok hrealloc).1
  have hcovered : Covered A M.heap array e := h.covered _ hmem
  obtain ⟨n, hn, -⟩ := hcovered.live
  have hbound := hcovered.bound h.inv
  have hpos := e.typeSize_pos
  have hle := e.fieldSize_le_typeSize (A := A)
  obtain ⟨hsize, hstride⟩ := hexact
  have hlen : vectorLen M.heap.mem array + 1 ≤ (vectorLen M.heap.mem array + 1) * e.typeSize :=
    Nat.le_mul_of_pos_right _ hpos
  have hoffset := Nat.mul_le_mul_left (vectorLen M.heap.mem array) hle
  have hnew := Nat.mul_le_mul_left (vectorLen M.heap.mem array + 1) hle
  have hr := push_resized h.inv hn hlimit (by omega) (by omega) (by omega) hpush
  by_cases heq : e.fieldSize A = e.typeSize
  · rw [heq] at hr
    exact h.resized hr (by omega) (by omega)
  · -- a first element of four bytes, in a chunk that is a multiple of eight
    obtain ⟨h8, h4⟩ := Element.sizes_of_ne heq
    rw [hstride.resolve_left heq, h4] at hr
    refine h.resized hr (by decide) ?_
    rw [h8]
    decide

theorem sound_pop (hlength : A.length < 2 ^ 31)
    (h : M.Sound A) (hv : M.Valid A (.pop e array)) (hexact : M.Exact A (.pop e array))
    (hok : M.step A constString (.pop e array) = .ok M') : M'.Sound A := by
  obtain ⟨⟨res, new, heap⟩, hpop, hok⟩ := Except.bind_eq_ok_iff.mp hok
  cases hok
  obtain rfl | hmem := hv
  · obtain ⟨-, s1, hrealloc, -⟩ := popMemory_ok hpop
    exact absurd rfl (reallocate_ok hrealloc).1
  have hcovered : Covered A M.heap array e := h.covered _ hmem
  obtain ⟨n, hn, -⟩ := hcovered.live
  have hbound := hcovered.bound h.inv
  have hlen : vectorLen M.heap.mem array = M.heap.mem.load array 4 := if_neg (hcovered.ne_zero h.inv)
  rw [hlen] at hbound
  have hle := e.fieldSize_le_typeSize (A := A)
  have hfield := Nat.mul_le_mul (Nat.sub_le (M.heap.mem.load array 4) 1) hle
  have hr := pop_resized h.inv hn (by omega) hpop
  obtain hstride | h1 := hexact
  · rw [hstride] at hr
    exact h.resized hr (by omega) (by omega)
  · rw [hlen] at h1
    have h0 : M.heap.mem.load array 4 - 1 = 0 := by omega
    rw [h0, Nat.zero_mul] at hr
    exact h.resized hr (by omega) (by omega)

theorem sound_step (hlength : A.length < 2 ^ 31) (hlimit : A.limit < 256 ^ A.ptr) {event : Event A}
    (h : M.Sound A) (hv : M.Valid A event) (hexact : M.Exact A event)
    (hok : M.step A constString event = .ok M') : M'.Sound A := by
  cases event with
  | call call => exact sound_call h hv hok
  | write block offset data =>
    cases hok
    exact sound_write h hv
  | outside address data =>
    cases hok
    have hout : Agree M.heap.mem (M.heap.mem.write address data) A.start A.limit := Agree.refl.write hv
    exact h.kept (kept_of_outside h.inv hout) fun _ _ => nofun
  | alloc e size initializer => exact sound_alloc h hv hexact hok
  | push e array value => exact sound_push hlength hlimit h hv hexact hok
  | pop e array => exact sound_pop hlength h hv hexact hok

theorem sound_run (hlength : A.length < 2 ^ 31) (hlimit : A.limit < 256 ^ A.ptr) {events : List (Event A)}
    (h : M.Sound A) (hvalid : M.Along A constString (fun M => M.Valid A) events)
    (hexact : M.Along A constString (fun M => M.Exact A) events)
    (hrun : M.run A constString events = .ok M') : M'.Sound A := by
  induction events generalizing M with
  | nil =>
    cases hrun
    exact h
  | cons event events ih =>
    obtain ⟨hv, hvalid⟩ := hvalid
    obtain ⟨he, hexact⟩ := hexact
    obtain ⟨M1, hstep, hrun⟩ := Except.bind_eq_ok_iff.mp hrun
    rw [hstep] at hvalid hexact
    exact ih (sound_step hlength hlimit h hv he hstep) hvalid hexact hrun

theorem Target.length_lt (target : Target) : target.arena.length < 2 ^ 31 := by
  cases target <;> decide

theorem Target.limit_lt (target : Target) : target.arena.limit < 256 ^ target.arena.ptr := by
  cases target <;> decide

/-- In every run of exact steps, the chunk of every vector has the bytes of all its elements. -/
theorem run_covers (target : Target) (constString : List UInt8 → Nat) (m : Memory)
    (events : List (Event target.arena))
    (hvalid : (Machine.init target.arena m).Along target.arena constString
      (fun M => M.Valid target.arena) events)
    (hexact : (Machine.init target.arena m).Along target.arena constString
      (fun M => M.Exact target.arena) events)
    (hrun : (Machine.init target.arena m).run target.arena constString events = .ok M) :
    ∀ p ∈ M.vectors, Covers target.arena M.heap.mem p.1 p.2 := by
  have hsound : (Machine.init target.arena m).Sound target.arena := ⟨inv_init m, nofun⟩
  have hend := sound_run target.length_lt target.limit_lt hsound hvalid hexact hrun
  exact fun p hp => (hend.covered p hp).covers

/-! ## Samples -/

section Decidable

instance (M : Machine) (event : Event A) : Decidable (M.Valid A event) :=
  match event with
  | .call _ => inferInstanceAs (Decidable (_ ∧ _))
  | .write _ _ _ => inferInstanceAs (Decidable (_ ∧ _))
  | .outside _ _ => inferInstanceAs (Decidable (_ ∨ _))
  | .alloc _ _ _ => inferInstanceAs (Decidable (_ < _))
  | .push _ _ _ => inferInstanceAs (Decidable (_ ∨ _))
  | .pop _ _ => inferInstanceAs (Decidable (_ ∨ _))

instance (M : Machine) (event : Event A) : Decidable (M.Exact A event) :=
  match event with
  | .call _ => .isTrue trivial
  | .write _ _ _ => .isTrue trivial
  | .outside _ _ => .isTrue trivial
  | .alloc _ _ none => inferInstanceAs (Decidable (_ ∨ _))
  | .alloc _ _ (some []) => .isTrue trivial
  | .alloc _ _ (some (_ :: _)) => inferInstanceAs (Decidable (_ ∨ _))
  | .push _ _ _ => inferInstanceAs (Decidable (_ ∧ _))
  | .pop _ _ => inferInstanceAs (Decidable (_ ∨ _))

instance decidableAlong (P : Machine → Event A → Prop) [∀ M event, Decidable (P M event)] (M : Machine) :
    (events : List (Event A)) → Decidable (M.Along A constString P events)
  | [] => .isTrue trivial
  | event :: events =>
    have : Decidable (match M.step A constString event with
      | .ok M => M.Along A constString P events
      | .error _ => True) :=
      match M.step A constString event with
      | .ok M => decidableAlong P M events
      | .error _ => .isTrue trivial
    inferInstanceAs (Decidable (_ ∧ _))

instance (m : Memory) (v : Nat) (e : Element) : Decidable (Covers A m v e) :=
  inferInstanceAs (Decidable (_ ≤ _))

end Decidable

namespace Sample

def uint64 : Element := .value 8 (by decide)

/-- The operand is a constant. -/
def constant (value : Nat) : Operand A where
  eval _ s := .ok (value, s)
  kept h hok := by
    cases hok
    exact .refl h none
  fault h := by cases h

/-- The machine after these steps on Solana, if they go through -/
def reached (events : List (Event Target.solana.arena)) : Machine :=
  ((Machine.init Target.solana.arena fun _ => 0).run Target.solana.arena (fun _ => 0) events).toOption.getD
    (Machine.init Target.solana.arena fun _ => 0)

theorem run_reached {events : List (Event Target.solana.arena)}
    (h : ((Machine.init Target.solana.arena fun _ => 0).run Target.solana.arena (fun _ => 0)
      events).toOption.isSome = true) :
    (Machine.init Target.solana.arena fun _ => 0).run Target.solana.arena (fun _ => 0) events =
      .ok (reached events) := by
  unfold reached
  cases hr : (Machine.init Target.solana.arena fun _ => 0).run Target.solana.arena (fun _ => 0) events with
  | ok M => rfl
  | error f =>
    rw [hr] at h
    cases h

/-- `uint64[] xs = new uint64[](3); xs.push(7);` -/
def pushes : List (Event Target.solana.arena) :=
  [.alloc uint64 3 none, .push uint64 Stdlib.Heap.Sample.first (constant 7)]

theorem run_covers_pushes : (reached pushes).vectors ≠ [] ∧
    ∀ p ∈ (reached pushes).vectors, Covers Target.solana.arena (reached pushes).heap.mem p.1 p.2 :=
  ⟨by decide +kernel, run_covers .solana (fun _ => 0) (fun _ => 0) pushes (by decide +kernel) (by decide +kernel)
    (run_reached (by decide +kernel))⟩

/-- `new uint64[](536870912)`: eight bytes for each element, and none after the product wraps -/
def tooLong : List (Event Target.solana.arena) := [.alloc uint64 (2 ^ 29) none]

theorem too_long_not_covered :
    ¬ ∀ (target : Target) (constString : List UInt8 → Nat) (m : Memory)
      (events : List (Event target.arena)) (M : Machine),
      (Machine.init target.arena m).Along target.arena constString (fun M => M.Valid target.arena) events →
      (Machine.init target.arena m).run target.arena constString events = .ok M →
      ∀ p ∈ M.vectors, Covers target.arena M.heap.mem p.1 p.2 := by
  intro hall
  have hcovers := hall .solana (fun _ => 0) (fun _ => 0) tooLong _ (by decide +kernel)
    (run_reached (by decide +kernel))
  exact absurd hcovers (by decide +kernel)

end Sample

end Solang.Emit.Vector
