import Solang.Codegen.ArrayLengths

/-!
# Runs with arrays in memory

A variable that holds an array is a pointer to a vector, so that several can refer to the same one. A push or a pop
reallocates the vector, in place or not, and only the variable it goes through gets the new pointer. The values of
expressions other than those about lengths, the effects of a call and the ways that branches go are arbitrary.

Along a run, the record says which temporary stands for the length of a variable's array, by what the run did to the
two. It does not look at the value of the temporary.
-/

namespace Solang.Codegen.ArrayLengths

/-! ## States -/

/-- The value of a variable, as a number and as a pointer to a vector; its type says which one it is. -/
structure Value where
  word : BitVec 32
  pointer : Option Nat

/-- The variables, and the lengths of the vectors that are allocated -/
structure State where
  vars : Nat → Value
  heap : Nat → Option (BitVec 32)

namespace State

/-- `vector_len`, of a variable -/
def length (σ : State) (v : Nat) : Option (BitVec 32) :=
  match (σ.vars v).pointer with
  | none => some 0
  | some p => σ.heap p

/-- The vector that a variable refers to, with its length; none when the pointer is null or dangles. -/
def vector (σ : State) (v : Nat) : Option (Nat × BitVec 32) :=
  (σ.vars v).pointer.bind fun p => (σ.heap p).map (p, ·)

/-- The temporary holds the length of the array that the variable refers to. -/
def Exact (σ : State) (v t : Nat) : Prop := σ.length v = some (σ.vars t).word

instance (σ : State) (v t : Nat) : Decidable (σ.Exact v t) := inferInstanceAs (Decidable (_ = _))

def assign (σ : State) (res : Nat) (x : Value) : State := { σ with vars := Function.update σ.vars res x }

end State

/-- What the model leaves open about a step: the values of other expressions, the address the allocator gives, the
variables and the heap that a callee or undefined behaviour leaves behind, and which way a branch goes. -/
structure Choice where
  other : Expression → Value
  address : Nat
  after : State
  branch : Nat

def eval (c : Choice) (σ : State) : Expression → Value
  | .variable _ v => σ.vars v
  | .numberLiteral (.uint 32) n => { c.other (.numberLiteral (.uint 32) n) with word := BitVec.ofInt 32 n }
  | .binary (.add (.uint 32) true) l r =>
    { c.other (.binary (.add (.uint 32) true) l r) with word := (eval c σ l).word + (eval c σ r).word }
  | .binary (.subtract (.uint 32) true) l r =>
    { c.other (.binary (.subtract (.uint 32) true) l r) with word := (eval c σ l).word - (eval c σ r).word }
  | e => c.other e

/-- Whether `Type::default` gives a value. Of a struct it does when every field has one. -/
def hasDefault (structDefault : StructType → Bool) : Ty → Bool
  | .address _ | .uint _ | .int _ | .bool | .bytes _ | .enum _ | .ref _ | .string | .dynamicBytes => true
  | .struct st => structDefault st
  | .array elem _ => hasDefault structDefault elem
  | _ => false

def isDynamicArray : Ty → Bool
  | .array _ dims => dims.getLast? == some .dynamic
  | _ => false

/-! ## Instructions -/

section Exec

variable (structDefault : StructType → Bool) (c : Choice)

/-- A new vector, at an address that is not allocated -/
def allocate (res : Nat) (n : BitVec 32) (σ : State) : Option State :=
  if σ.heap c.address = none then
    some { (σ.assign res ⟨(c.after.vars res).word, some c.address⟩) with
      heap := Function.update σ.heap c.address (some n) }
  else none

/-- What is allocated stays as it is. -/
def grow (σ : State) : State := { σ with heap := fun p => (σ.heap p).or (c.after.heap p) }

def execSet (res : Nat) (expr : Expression) (σ : State) : Option State :=
  match expr with
  | .unary (.allocDynamicBytes (.array _ _) none) size => allocate c res (eval c σ size).word σ
  | .undefined ty =>
    if hasDefault structDefault ty then
      if isDynamicArray ty then allocate c res 0 σ else some (grow c (σ.assign res (c.other (.undefined ty))))
    else some σ
  | expr => some (grow c (σ.assign res (eval c σ expr)))

/-- `PushMemory` and `PopMemory`: the vector is reallocated for the new length, and the pointer stored in `array`. -/
def resize (res array : Nat) (f : BitVec 32 → Option (BitVec 32)) (σ : State) : Option State :=
  match σ.vector array with
  | none => some c.after
  | some (p, n) =>
    (f n).bind fun n' =>
      if c.address = p ∨ σ.heap c.address = none then
        some { ((σ.assign res (c.after.vars res)).assign array ⟨(σ.vars array).word, some c.address⟩) with
          heap := Function.update (Function.update σ.heap p none) c.address (some n') }
      else none

/-- `None` when the instruction aborts, or the choice is not one of the allocator. -/
def exec : Instr → State → Option State
  | .set res expr, σ => execSet structDefault c res expr σ
  | .pushMemory res _ array _, σ => resize c res array (fun n => some (n + 1)) σ
  | .popMemory res _ array, σ => resize c res array (fun n => if n = 0 then none else some (n - 1)) σ
  | .call res _ _ _, σ => some ⟨fun v => if v ∈ res then c.after.vars v else σ.vars v, c.after.heap⟩
  | i, σ => some (grow c { σ with vars := fun v => if v ∈ i.results then c.after.vars v else σ.vars v })

def execAll : List Instr → State → Option State
  | [], σ => some σ
  | i :: is, σ => (exec structDefault c i σ).bind (execAll is)

end Exec

/-! ## The record -/

/-- The temporary that stands for the length of a variable's array -/
abbrev Record := Nat → Option Nat

namespace Record

/-- Neither the variable nor the temporary is written, and no one else resized the array. -/
def Untouched (written : List Nat) (σ σ' : State) (v t : Nat) : Prop :=
  v ∉ written ∧ t ∉ written ∧ σ'.length v = σ.length v

instance (written : List Nat) (σ σ' : State) (v t : Nat) : Decidable (Untouched written σ σ' v t) :=
  inferInstanceAs (Decidable (_ ∧ _))

def keep (r : Record) (written : List Nat) (σ σ' : State) : Record := fun v =>
  (r v).filter fun t => Untouched written σ σ' v t

/-- A variable does not stand for its own length. -/
def track (r : Record) (pos : Nat) (temp : Option Nat) : Record :=
  Function.update r pos (temp.filter fun t => t ≠ pos)

/-- An assignment puts the variable on record with the size that its array is made with, or with what the variable
on the right is on record with, and takes it off otherwise. -/
def set (r : Record) (res : Nat) (expr : Expression) (σ σ' : State) : Record :=
  (r.keep [res] σ σ').track res <| match expr with
    | .unary (.allocDynamicBytes (.array _ _) none) (.variable _ temp) => some temp
    | .variable _ right => r right
    | _ => none

/-- The variable refers to the array that is resized through `array`, it still does after that, and it is on record
with the temporary that is changed along. -/
def Follows (res array : Nat) (temp : Option Nat) (σ σ' : State) (v t : Nat) : Prop :=
  some t = temp ∧ t ≠ res ∧ t ≠ array ∧ (σ.vars v).pointer = (σ.vars array).pointer ∧
    (σ'.vars v).pointer = (σ'.vars array).pointer

instance (res array : Nat) (temp : Option Nat) (σ σ' : State) (v t : Nat) :
    Decidable (Follows res array temp σ σ' v t) :=
  inferInstanceAs (Decidable (_ ∧ _))

/-- Nothing is on record after a resize through a pointer that is null or dangles. -/
def resize (r : Record) (res array : Nat) (temp : Option Nat) (σ σ' : State) : Record := fun v =>
  (r v).filter fun t => (σ.vector array).isSome ∧
    (Untouched (res :: array :: temp.toList) σ σ' v t ∨ Follows res array temp σ σ' v t)

end Record

/-- The record after an operation that leads from `σ` to `σ'` -/
def Op.record (structDefault : StructType → Bool) (σ σ' : State) (r : Record) : Op → Record
  | instr ⟨.set res expr, _⟩ => r.set res expr σ σ'
  | instr i => r.keep i.instr.results σ σ'
  | declare pos ty temp =>
    (r.keep [pos, temp] σ σ').track pos (if hasDefault structDefault ty ∧ isDynamicArray ty then some temp else none)
  | arrayLiteral array ty _ temp =>
    (r.keep [array, temp] σ σ').track array (match ty with | .array _ _ => some temp | _ => none)
  | push res _ array _ temp | pop res _ array temp => r.resize res array temp σ σ'
  | length _ _ => r

/-! ## Runs -/

/-- A place in the code, with the state and the record there -/
structure Machine where
  block : Nat
  op : Nat
  state : State
  record : Record

section Run

variable (structDefault : StructType → Bool) (blocks : List (List Op))

/-- The operation that is next -/
def Machine.next (m : Machine) : Option Op := blocks[m.block]?.bind (·[m.op]?)

def step (c : Choice) (m : Machine) : Option Machine :=
  (m.next blocks).bind fun op =>
    match op.targets with
    | none => (execAll structDefault c op.instrs m.state).map fun σ' =>
        { m with op := m.op + 1, state := σ', record := op.record structDefault m.state σ' m.record }
    | some targets => targets[c.branch]?.map fun block => { m with block := block, op := 0 }

def run : List Choice → Machine → Option Machine
  | [], m => some m
  | c :: cs, m => (step structDefault blocks c m).bind (run cs)

end Run

def Machine.start (σ : State) : Machine := ⟨0, 0, σ, fun _ => none⟩

/-- Some run of the function comes to a place where the length of `array` is replaced by `temp`. -/
def Function.ReachesLength (structDefault : StructType → Bool) (f : Function) (array temp : Nat) (m : Machine) :
    Prop :=
  ∃ blocks, f.cfg = some blocks ∧ m.next blocks = some (.length array temp) ∧
    ∃ cs σ, run structDefault blocks cs (Machine.start σ) = some m

/-- Every length that is taken from a temporary is the length of the array. -/
def Function.LengthsExact (structDefault : StructType → Bool) (f : Function) : Prop :=
  ∀ array temp m, f.ReachesLength structDefault array temp m → m.state.Exact array temp

end Solang.Codegen.ArrayLengths

/-!
## Lengths of arrays on record

A temporary that is on record for a variable holds the length of its array, at every place of every run. A length
that codegen takes from a temporary can be wrong where that temporary is not on record.
-/

namespace Solang.Codegen.ArrayLengths

variable {structDefault : StructType → Bool} {blocks : List (List Op)} {c : Choice} {σ σ' σ'' : State} {r : Record}

/-! ### Frames -/

variable {v res p : Nat} {n : BitVec 32} {i : Instr}

theorem State.assign_of_ne (x : Value) (h : v ≠ res) : (σ.assign res x).vars v = σ.vars v :=
  Function.update_of_ne h ..

@[simp] theorem State.assign_self (σ : State) (res : Nat) (x : Value) : (σ.assign res x).vars res = x :=
  Function.update_self ..

theorem allocate_vars (h : allocate c res n σ = some σ') :
    ∀ v ≠ res, σ'.vars v = σ.vars v := by
  unfold allocate at h
  split at h
  · cases h
    exact fun v hv => State.assign_of_ne _ hv
  · cases h

variable {expr : Expression} {temp array : Nat} {σ₁ : State} {f : BitVec 32 → Option (BitVec 32)}
  {minus : Bool} {m m' : Machine}

theorem execSet_vars (h : execSet structDefault c res expr σ = some σ') :
    ∀ v ≠ res, σ'.vars v = σ.vars v := by
  unfold execSet at h
  split at h
  · exact allocate_vars h
  · split at h
    · split at h
      · exact allocate_vars h
      · cases h
        exact fun v hv => State.assign_of_ne _ hv
    · cases h
      exact fun v _ => rfl
  · cases h
    exact fun v hv => State.assign_of_ne _ hv

theorem exec_vars (hi : Instr.resizesMemory i = false) (h : exec structDefault c i σ = some σ') :
    ∀ v ∉ i.results, σ'.vars v = σ.vars v := by
  cases i with
  | set res expr => exact fun v hv => execSet_vars h v fun heq => hv (heq ▸ List.mem_singleton_self _)
  | pushMemory | popMemory => cases hi
  | call res =>
    cases h
    exact fun v (hv : v ∉ res) => if_neg hv
  | _ =>
    cases h
    intro v hv
    simp only [grow, if_neg hv]

/-! ### What is kept -/

/-- The arrays that are allocated stay as they are. -/
def Extends (σ σ' : State) : Prop := ∀ p n, σ.heap p = some n → σ'.heap p = some n

theorem extends_grow (σ : State) : Extends σ (grow c σ) := fun p n h => by
  change (σ.heap p).or _ = some n
  rw [h]
  rfl

theorem Extends.length {v w : Nat} {n : BitVec 32} (h : Extends σ σ')
    (hptr : (σ'.vars w).pointer = (σ.vars v).pointer) (hlen : σ.length v = some n) : σ'.length w = some n := by
  unfold State.length at *
  rw [hptr]
  cases hp : (σ.vars v).pointer with
  | none => rwa [hp] at hlen
  | some p =>
    rw [hp] at hlen
    exact h p n hlen

theorem State.length_eq (h : (σ.vars v).pointer = some p) : σ.length v = σ.heap p := by
  unfold State.length
  rw [h]

/-- Everything on record is exact. -/
def Recorded (σ : State) (r : Record) : Prop := ∀ v t, r v = some t → σ.Exact v t

namespace Recorded

theorem untouched {written : List Nat} {t : Nat} (h : σ.Exact v t)
    (hu : Record.Untouched written σ σ' v t) (hvars : ∀ t ∉ written, σ'.vars t = σ.vars t) :
    σ'.Exact v t := by
  obtain ⟨-, ht, hlen⟩ := hu
  unfold State.Exact at *
  rw [hlen, h, hvars t ht]

theorem keep {written : List Nat} (h : Recorded σ r) (hvars : ∀ t ∉ written, σ'.vars t = σ.vars t) :
    Recorded σ' (r.keep written σ σ') := by
  intro v t hv
  obtain ⟨hr, hu⟩ := Option.filter_eq_some_iff.mp hv
  exact untouched (h v t hr) (of_decide_eq_true hu) hvars

theorem track {pos : Nat} {temp : Option Nat} (h : Recorded σ r)
    (hpos : ∀ t, temp = some t → t ≠ pos → σ.Exact pos t) : Recorded σ (r.track pos temp) := by
  intro v t hv
  unfold Record.track at hv
  by_cases hvp : v = pos
  · subst hvp
    rw [Function.update_self] at hv
    obtain ⟨htemp, hne⟩ := Option.filter_eq_some_iff.mp hv
    exact hpos t htemp (of_decide_eq_true hne)
  · rw [Function.update_of_ne hvp] at hv
    exact h v t hv

end Recorded

/-! ### Operations -/

theorem allocate_length (h : allocate c res n σ = some σ') : σ'.length res = some n := by
  unfold allocate at h
  split at h
  · cases h
    rw [State.length_eq (p := c.address) (by simp)]
    exact Function.update_self ..
  · cases h

theorem set_sound (h : Recorded σ r) (hexec : execSet structDefault c res expr σ = some σ') :
    Recorded σ' (r.set res expr σ σ') := by
  have hvars : ∀ t ∉ [res], σ'.vars t = σ.vars t := fun t ht =>
    execSet_vars hexec t fun heq => ht (List.mem_singleton.mpr heq)
  refine (h.keep hvars).track fun t ht hne => ?_
  have hword : (σ'.vars t).word = (σ.vars t).word := by rw [hvars t (by simpa using hne)]
  split at ht
  · -- the array is made with the temporary as its size
    cases ht
    unfold State.Exact
    rw [hword]
    exact allocate_length hexec
  · -- the variable on the right refers to the same array
    rename_i ty right
    cases hexec
    unfold State.Exact
    rw [hword]
    have hext : Extends σ (grow c (σ.assign res (σ.vars right))) := extends_grow (σ.assign res (σ.vars right))
    exact hext.length (congrArg Value.pointer (State.assign_self ..)) (h right t ht)
  · cases ht

theorem execAll_cons {is : List Instr} (h : execAll structDefault c (i :: is) σ = some σ'') :
    ∃ σ', exec structDefault c i σ = some σ' ∧ execAll structDefault c is σ' = some σ'' :=
  Option.bind_eq_some_iff.mp h

theorem execAll_append {is js : List Instr} (h : execAll structDefault c (is ++ js) σ = some σ'') :
    ∃ σ', execAll structDefault c is σ = some σ' ∧ execAll structDefault c js σ' = some σ'' := by
  induction is generalizing σ with
  | nil => exact ⟨σ, rfl, h⟩
  | cons i is ih =>
    obtain ⟨σ₁, hi, hrest⟩ := execAll_cons h
    obtain ⟨σ', his, hjs⟩ := ih hrest
    exact ⟨σ', Option.bind_eq_some_iff.mpr ⟨σ₁, hi, his⟩, hjs⟩

theorem execAll_singleton (h : execAll structDefault c [i] σ = some σ') :
    exec structDefault c i σ = some σ' := by
  obtain ⟨σ₁, hi, hrest⟩ := execAll_cons h
  cases hrest
  exact hi

/-- A temporary is set to a literal: it holds it, and the arrays are what they were. -/
theorem exec_set_literal {n : Nat} (h : exec structDefault c (.set temp (uint32 n)) σ = some σ') :
    (σ'.vars temp).word = BitVec.ofNat 32 n ∧ (∀ v ≠ temp, σ'.vars v = σ.vars v) ∧ Extends σ σ' := by
  have hset : execSet structDefault c temp (uint32 n) σ = some σ' := h
  refine ⟨?_, execSet_vars hset, ?_⟩
  · cases h
    exact congrArg Value.word (State.assign_self ..)
  · cases h
    exact extends_grow (σ.assign temp _)

/-- Stores assign no variable and resize no array. -/
theorem execAll_stores {stores : List Instr} (hs : ∀ i ∈ stores, ∃ dest data, i = .store dest data)
    (h : execAll structDefault c stores σ = some σ') : σ'.vars = σ.vars ∧ Extends σ σ' := by
  induction stores generalizing σ with
  | nil =>
    cases h
    exact ⟨rfl, fun p n hp => hp⟩
  | cons i is ih =>
    obtain ⟨σ₁, hi, hrest⟩ := execAll_cons h
    obtain ⟨dest, data, rfl⟩ := hs i List.mem_cons_self
    obtain ⟨hvars, hext⟩ := ih (fun i hi => hs i (List.mem_cons_of_mem _ hi)) hrest
    cases hi
    refine ⟨hvars.trans ?_, fun p n hp => hext p n (extends_grow σ p n hp)⟩
    funext v
    simp [grow, Instr.results]

theorem storeElements_stores (array : Nat) (ty : Ty) (values : List Expression) :
    ∀ i ∈ storeElements array ty values, ∃ dest data, i = .store dest data := by
  intro i hi
  obtain ⟨itemNo, h, rfl⟩ := List.mem_mapIdx.mp hi
  exact ⟨_, _, rfl⟩

/-- An array is made, and the temporary is set to its length. -/
theorem made_sound {pos : Nat} {tracked : Option Nat} {n : Nat} (h : Recorded σ r)
    (hmade : ∀ v ≠ pos, σ₁.vars v = σ.vars v)
    (hlen : ∀ t, tracked = some t → t = temp ∧ σ₁.length pos = some (BitVec.ofNat 32 n))
    (hset : exec structDefault c (.set temp (uint32 n)) σ₁ = some σ') :
    Recorded σ' ((r.keep [pos, temp] σ σ').track pos tracked) := by
  obtain ⟨hword, hvars, hext⟩ := exec_set_literal hset
  refine (h.keep fun v hv => ?_).track fun t ht hne => ?_
  · simp only [List.mem_cons, List.not_mem_nil, or_false, not_or] at hv
    rw [hvars v hv.2, hmade v hv.1]
  · obtain ⟨rfl, hmade⟩ := hlen t ht
    have hpos : (σ'.vars pos).pointer = (σ₁.vars pos).pointer := by rw [hvars pos hne.symm]
    unfold State.Exact
    rw [hword]
    exact hext.length hpos hmade

/-! ### Pushes and pops -/

/-- What reallocating a vector does -/
theorem resize_cases (hvec : σ.vector array = some (p, n)) (h : resize c res array f σ = some σ') :
    ∃ n', f n = some n' ∧ (σ'.vars array).pointer = some c.address ∧ σ'.heap c.address = some n' ∧
      ∀ v, v ≠ res → v ≠ array → σ'.vars v = σ.vars v := by
  simp only [resize, hvec] at h
  obtain ⟨n', hn', h⟩ := Option.bind_eq_some_iff.mp h
  split at h
  · cases h
    refine ⟨n', hn', congrArg Value.pointer (State.assign_self ..), Function.update_self .., fun v hres harray => ?_⟩
    exact (State.assign_of_ne _ harray).trans (State.assign_of_ne _ hres)
  · cases h

theorem vector_some (h : σ.vector v = some (p, n)) :
    (σ.vars v).pointer = some p ∧ σ.heap p = some n := by
  obtain ⟨p', hp, h⟩ := Option.bind_eq_some_iff.mp h
  obtain ⟨n', hn, h⟩ := Option.map_eq_some_iff.mp h
  cases h
  exact ⟨hp, hn⟩

/-- The change that goes with a push or a pop -/
def change (minus : Bool) (n : BitVec 32) : BitVec 32 := if minus then n - 1 else n + 1

/-- The temporary is changed along, if there is one; the other variables and the arrays are what they were. -/
theorem modify_cases {temp : Option Nat}
    (h : execAll structDefault c (modifyTempArrayLength minus temp) σ = some σ') :
    (∀ t, temp = some t → (σ'.vars t).word = change minus (σ.vars t).word) ∧
      (∀ v ∉ temp.toList, σ'.vars v = σ.vars v) ∧ Extends σ σ' := by
  cases temp with
  | none =>
    cases h
    exact ⟨nofun, fun v _ => rfl, fun p n hp => hp⟩
  | some t =>
    have hset := execAll_singleton h
    refine ⟨?_, ?_, ?_⟩
    · intro t' ht
      cases ht
      cases hset
      cases minus
      · exact congrArg Value.word (State.assign_self ..)
      · exact congrArg Value.word (State.assign_self ..)
    · exact exec_vars rfl hset
    · cases minus <;>
      · cases hset
        exact extends_grow (σ.assign t _)

theorem resize_sound {temp : Option Nat} (h : Recorded σ r)
    (hf : ∀ n n', f n = some n' → n' = change minus n) (hresize : resize c res array f σ = some σ₁)
    (hmodify : execAll structDefault c (modifyTempArrayLength minus temp) σ₁ = some σ') :
    Recorded σ' (r.resize res array temp σ σ') := by
  intro v t hv
  obtain ⟨hr, hkept⟩ := Option.filter_eq_some_iff.mp hv
  obtain ⟨hvalid, hkept⟩ := of_decide_eq_true hkept
  obtain ⟨⟨p, n⟩, hvec⟩ := Option.isSome_iff_exists.mp hvalid
  obtain ⟨n', hn', hptr, hheap, hvars⟩ := resize_cases hvec hresize
  obtain ⟨hword, hrest, hext⟩ := modify_cases hmodify
  rcases hkept with huntouched | ⟨htemp, hres, harray, hbefore, hafter⟩
  · refine Recorded.untouched (h v t hr) huntouched fun t ht => ?_
    simp only [List.mem_cons, not_or] at ht
    rw [hrest t ht.2.2, hvars t ht.1 ht.2.1]
  · -- the variable goes with the array, and its temporary is the one that is changed
    have hlen : (σ.vars t).word = n := by
      obtain ⟨hp, hn⟩ := vector_some hvec
      have hexact := h v t hr
      unfold State.Exact at hexact
      rw [State.length_eq (hbefore.trans hp), hn] at hexact
      exact (Option.some.inj hexact).symm
    have htempArray : array ∉ temp.toList := by
      rw [← htemp]
      simpa using harray.symm
    have hptr' : (σ'.vars v).pointer = some c.address := by rw [hafter, hrest array htempArray, hptr]
    unfold State.Exact
    rw [State.length_eq hptr', hext _ _ hheap, hword t htemp.symm, hvars t hres harray, hlen, hf n n' hn']

/-! ### Runs -/

theorem op_sound {op : Op} (h : Recorded σ r) (hexec : execAll structDefault c op.instrs σ = some σ') :
    Recorded σ' (op.record structDefault σ σ' r) := by
  cases op with
  | instr i =>
    obtain ⟨i, hplain⟩ := i
    have hi := execAll_singleton hexec
    cases i with
    | set res expr => exact set_sound h hi
    | _ => exact h.keep (exec_vars hplain hi)
  | declare pos ty temp =>
    obtain ⟨σ₁, hpos, hrest⟩ := execAll_cons hexec
    have hpos : execSet structDefault c pos (.undefined ty) σ = some σ₁ := hpos
    refine made_sound h (execSet_vars hpos) (fun t ht => ?_) (execAll_singleton hrest)
    split at ht
    · rename_i hty
      cases ht
      simp only [execSet, if_pos hty.1, if_pos hty.2] at hpos
      exact ⟨rfl, allocate_length hpos⟩
    · cases ht
  | arrayLiteral array ty values temp =>
    obtain ⟨σ₁, harray, hrest⟩ := execAll_cons hexec
    obtain ⟨σ₂, hstores, hset⟩ := execAll_append hrest
    have harray : execSet structDefault c array
      (.unary (.allocDynamicBytes ty none) (uint32 values.length)) σ = some σ₁ := harray
    obtain ⟨hvars, hext⟩ := execAll_stores (storeElements_stores array ty values) hstores
    refine made_sound h (fun v hv => ?_) (fun t ht => ?_) (execAll_singleton hset)
    · rw [hvars]
      exact execSet_vars harray v hv
    · split at ht
      · cases ht
        exact ⟨rfl, hext.length (by rw [hvars]) (allocate_length harray)⟩
      · cases ht
  | push res ty array value temp =>
    obtain ⟨σ₁, hpush, hmodify⟩ := execAll_cons hexec
    have hpush : resize c res array (fun n => some (n + 1)) σ = some σ₁ := hpush
    exact resize_sound h (fun n n' hn => (Option.some.inj hn).symm) hpush hmodify
  | pop res ty array temp =>
    obtain ⟨σ₁, hpop, hmodify⟩ := execAll_cons hexec
    have hpop : resize c res array (fun n => if n = 0 then none else some (n - 1)) σ = some σ₁ := hpop
    refine resize_sound h (fun n n' hn => ?_) hpop hmodify
    split at hn
    · cases hn
    · exact (Option.some.inj hn).symm
  | length array temp =>
    cases hexec
    exact h

theorem step_sound (h : Recorded m.state m.record) (hstep : step structDefault blocks c m = some m') :
    Recorded m'.state m'.record := by
  obtain ⟨op, -, hop⟩ := Option.bind_eq_some_iff.mp hstep
  split at hop
  · obtain ⟨σ', hexec, rfl⟩ := Option.map_eq_some_iff.mp hop
    exact op_sound h hexec
  · obtain ⟨block, -, rfl⟩ := Option.map_eq_some_iff.mp hop
    exact h

theorem run_sound {cs : List Choice} (h : Recorded m.state m.record)
    (hrun : run structDefault blocks cs m = some m') : Recorded m'.state m'.record := by
  induction cs generalizing m with
  | nil =>
    cases hrun
    exact h
  | cons c cs ih =>
    obtain ⟨m₁, hstep, hrest⟩ := Option.bind_eq_some_iff.mp hrun
    exact ih (step_sound h hstep) hrest

namespace Sample

def uintArray : Ty := .array (.uint 256) [.dynamic]

def newArray (n : Int) : Expr := .unary (.allocDynamicBytes uintArray none) (.numberLiteral (.uint 32) n)

def lengthOf (v : Nat) : Statement :=
  .return (some (.list [.nary (.builtin [.uint 32] .arrayLength) [.variable uintArray v]]))

/-- `uint[] a = new uint[](2); a.push(7); return a.length;` -/
def pushed : Function where
  params := []
  returns := []
  body := [
    .variableDecl 0 uintArray (some (newArray 2)),
    .expression true (.arrayPush (.uint 256) uintArray (.variable uintArray 0) (.numberLiteral (.uint 256) 7)),
    lengthOf 0]
  nextId := 1

/-- `uint[] a = new uint[](2); uint[] b = new uint[](5); if (c) { a = b; } return a.length;` -/
def assignedInBranch : Function where
  params := [(0, .bool)]
  returns := []
  body := [
    .variableDecl 1 uintArray (some (newArray 2)),
    .variableDecl 2 uintArray (some (newArray 5)),
    .ifThen true (.variable .bool 0) [.expression true (.assign (.variable uintArray 1) (.variable uintArray 2))],
    lengthOf 1]
  nextId := 3

def initial : State := ⟨fun _ => ⟨0, none⟩, fun _ => none⟩

def choose (address branch : Nat) : Choice := ⟨fun _ => ⟨0, none⟩, address, initial, branch⟩

/-- Where the run of a function gets to with these choices -/
def place (f : Function) (cs : List Choice) : Machine :=
  ((f.cfg.bind fun blocks => run (fun _ => true) blocks cs (Machine.start initial))).getD (Machine.start initial)

/-- The length that is replaced where the run of a function gets to with these choices -/
def replaced (f : Function) (cs : List Choice) : Option (Nat × Nat) := do
  let blocks ← f.cfg
  let m ← run (fun _ => true) blocks cs (Machine.start initial)
  match ← m.next blocks with
  | .length array temp => some (array, temp)
  | _ => none

theorem reachesLength_of_replaced {f : Function} {cs : List Choice} {array temp : Nat}
    (h : replaced f cs = some (array, temp)) : f.ReachesLength (fun _ => true) array temp (place f cs) := by
  obtain ⟨blocks, hblocks, h⟩ := Option.bind_eq_some_iff.mp h
  obtain ⟨m, hrun, h⟩ := Option.bind_eq_some_iff.mp h
  obtain ⟨op, hnext, h⟩ := Option.bind_eq_some_iff.mp h
  have hplace : place f cs = m := by rw [place, hblocks, Option.bind_some, hrun, Option.getD_some]
  cases op with
  | length _ _ =>
    cases h
    exact hplace ▸ ⟨blocks, hblocks, hnext, cs, initial, hrun⟩
  | _ => cases h

def afterPush : Machine := place pushed [choose 0 0, choose 0 0, choose 1 0]

/-- The condition does not hold: the branch is not taken. -/
def afterIf : Machine :=
  place assignedInBranch [choose 0 0, choose 0 0, choose 1 0, choose 0 0, choose 2 0, choose 0 1]

end Sample

end Solang.Codegen.ArrayLengths
