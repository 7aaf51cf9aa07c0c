import Solang.Emit.SorobanStorage

/-!
# Loads return what was stored

The host refines the contents of the paths: the data under the key of a plain path is what is at
the path. Different plain paths have different keys, so a store changes one path only.
-/

namespace Solang.Emit.Soroban

/-! ## Keys -/

/-- The key that the code builds for a plain path -/
def Path.key (p : Path) : Item :=
  match p.steps with
  | [] => .word (BitVec.ofNat 64 p.slot)
  | [.key item] => .vec [.word (encodeValue (BitVec.ofNat 64 p.slot) 32 4), item]
  | [.key item, .field n] =>
    .vec [.word (encodeValue (BitVec.ofNat 64 p.slot) 32 4), item, .word (encodeU32 n)]
  | _ => .vec []

def Path.Plain (p : Path) : Prop :=
  p.slot < 2 ^ 32 ∧
    match p.steps with
    | [] => p.slot % 256 < objectTag
    | [.key _] => True
    | [.key _, .field n] => n < 2 ^ 32
    | _ => False

theorem toNat_encodeValue {n : Nat} (hn : n < 2 ^ 32) :
    (encodeValue (BitVec.ofNat 64 n) 32 4).toNat = n * 2 ^ 32 + 4 := by
  have hlt : n * 2 ^ 32 + 4 < 2 ^ 64 := by omega
  unfold encodeValue
  rw [BitVec.toNat_add, BitVec.toNat_shiftLeft, BitVec.toNat_ofNat, BitVec.toNat_ofNat,
    Nat.shiftLeft_eq]
  omega

theorem encodeU32_eq {n : Nat} (hn : n < 2 ^ 32) :
    encodeU32 n = encodeValue (BitVec.ofNat 64 n) 32 4 := by
  unfold encodeU32
  congr 1
  apply BitVec.eq_of_toNat_eq
  rw [BitVec.toNat_setWidth, BitVec.toNat_ofNat, BitVec.toNat_ofNat]
  omega

theorem encodeValue_inj {m n : Nat} (hm : m < 2 ^ 32) (hn : n < 2 ^ 32)
    (h : encodeValue (BitVec.ofNat 64 m) 32 4 = encodeValue (BitVec.ofNat 64 n) 32 4) : m = n := by
  have heq := congrArg BitVec.toNat h
  rw [toNat_encodeValue hm, toNat_encodeValue hn] at heq
  omega

theorem tag_encodeValue {n : Nat} (hn : n < 2 ^ 32) :
    (encodeValue (BitVec.ofNat 64 n) 32 4).tag < objectTag := by
  unfold Val.tag objectTag
  rw [toNat_encodeValue hn]
  omega

theorem ofNat_inj {m n : Nat} (hm : m < 2 ^ 32) (hn : n < 2 ^ 32)
    (h : BitVec.ofNat 64 m = BitVec.ofNat 64 n) : m = n := by
  have heq := congrArg BitVec.toNat h
  rw [BitVec.toNat_ofNat, BitVec.toNat_ofNat] at heq
  omega

/-- Different plain paths have different keys. -/
theorem Path.key_inj {p q : Path} (hp : p.Plain) (hq : q.Plain) (h : p.key = q.key) : p = q := by
  obtain ⟨slot, steps⟩ := p
  obtain ⟨slot', steps'⟩ := q
  obtain ⟨hslot, hsteps⟩ := hp
  obtain ⟨hslot', hsteps'⟩ := hq
  match steps, steps', hsteps, hsteps' with
  | [], [], _, _ =>
    obtain rfl : slot = slot' := ofNat_inj hslot hslot' (Item.word.inj h)
    rfl
  | [.key item], [.key item'], _, _ =>
    simp only [key, Item.vec.injEq, List.cons.injEq, Item.word.injEq, and_true] at h
    obtain rfl : slot = slot' := encodeValue_inj hslot hslot' h.1
    rw [h.2]
  | [.key item, .field n], [.key item', .field n'], hn, hn' =>
    simp only [key, Item.vec.injEq, List.cons.injEq, Item.word.injEq, and_true] at h
    obtain ⟨h1, h2, h3⟩ := h
    rw [encodeU32_eq hn, encodeU32_eq hn'] at h3
    obtain rfl : slot = slot' := encodeValue_inj hslot hslot' h1
    rw [h2, encodeValue_inj hn hn' h3]
  | [], [.key _], _, _ | [], [.key _, .field _], _, _ | [.key _], [], _, _
  | [.key _, .field _], [], _, _ => cases h
  | [.key _], [.key _, .field _], _, _ | [.key _, .field _], [.key _], _, _ => simp [key] at h

def Path.durability (types : Nat → Option StorageType) (p : Path) : Nat :=
  storageTypeToInt (if p.steps.isEmpty then types p.slot else none)

section Host

variable {σ : Type} {h : Host σ} (L : Lawful h)

variable {n slot : Nat} {item : Item} {place : Place} {ty : Stored} {p : Path} {fields : List Ty}
  {dest : List Val}

theorem Extends.trans {L : Lawful h} {s s' s'' : σ} {m : Nat} (h1 : Extends L.denotes L.room m s s')
    (h2 : Extends L.denotes L.room n s' s'') :
    Extends L.denotes L.room (m + n) s s'' where
  denotes v item hv := h2.denotes v item (h1.denotes v item hv)
  room k hk := by
    refine h2.room k (h1.room (k + n) ?_)
    rwa [Nat.add_assoc, Nat.add_comm n m]

/-- The data under the key of a path is what is there. -/
def Refines (types : Nat → Option StorageType) (s : σ) (A : Contents) : Prop :=
  ∀ p : Path, p.Plain → L.data s (p.durability types) p.key = A p

/-! ## Access -/

theorem storageSubscript_spec {s : σ} {index : Val} (hslot : slot < 2 ^ 32)
    (hindex : L.denotes s index = some item) (hroom : L.room s 3) :
    ∃ v s', storageSubscript h (BitVec.ofNat 64 slot) index s = some (v, s') ∧
      L.denotes s' v = some (.vec [.word (encodeValue (BitVec.ofNat 64 slot) 32 4), item]) ∧
      L.data s' = L.data s ∧ Extends L.denotes L.room 3 s s' := by
  obtain ⟨v1, s1, h1, hv1, hd1, he1⟩ := L.vectorNew s (L.room_mono s 1 3 (by omega) hroom)
  have hword := L.small s1 _ (tag_encodeValue hslot)
  obtain ⟨v2, s2, h2, hv2, hd2, he2⟩ := L.vecPushBack s1 v1 _ _ _
    (he1.room 1 (L.room_mono s 2 3 (by omega) hroom)) hv1 hword
  have he12 := he1.trans he2
  obtain ⟨v3, s3, h3, hv3, hd3, he3⟩ := L.vecPushBack s2 v2 _ _ _ (he12.room 1 hroom) hv2
    (he12.denotes _ _ hindex)
  refine ⟨v3, s3, ?_, hv3, by rw [hd3, hd2, hd1], he12.trans he3⟩
  unfold storageSubscript
  simp only [h1, h2, h3, Option.bind_eq_bind, Option.bind_some]

theorem structMember_spec {s : σ} {key : Val} {items : List Item} (hn : n < 2 ^ 32)
    (hkey : L.denotes s key = some (.vec items)) (hroom : L.room s 1) :
    ∃ v s', h.vecPushBack key (encodeU32 n) s = some (v, s') ∧
      L.denotes s' v = some (.vec (items ++ [.word (encodeU32 n)])) ∧
      L.data s' = L.data s ∧ Extends L.denotes L.room 1 s s' := by
  have hword : L.denotes s (encodeU32 n) = some (.word (encodeU32 n)) := by
    apply L.small
    rw [encodeU32_eq hn]
    exact tag_encodeValue hn
  exact L.vecPushBack s key _ items _ hroom hkey hword

/-- What an index stands for is the key of the source. -/
theorem denotes_index {s : σ} {index : Index} (hplain : index.Plain)
    (hitem : index.item L s = some item) : L.denotes s index.val = some item := by
  cases index with
  | int n =>
    obtain rfl : Item.word n = item := Option.some.inj hitem
    exact L.small s n hplain
  | handle v => exact hitem

theorem Extends.weaken {L : Lawful h} {s s' : σ} {m : Nat} (h1 : Extends L.denotes L.room m s s')
    (hle : m ≤ n) : Extends L.denotes L.room n s s' where
  denotes := h1.denotes
  room k hk := h1.room k (L.room_mono s (k + m) (k + n) (by omega) hk)

/-- The paths of plain places, and their keys -/
theorem access_spec {s : σ} (hplain : place.Plain ty) (hpath : place.path L s = some p)
    (hroom : L.room s 4) :
    ∃ v s', access h place.steps (BitVec.ofNat 64 place.slot) s = some (v, s') ∧
      L.denotes s' v = some p.key ∧ L.data s' = L.data s ∧ Extends L.denotes L.room 4 s s' := by
  obtain ⟨slot, steps⟩ := place
  obtain ⟨hslot, hshape⟩ := hplain
  obtain ⟨psteps, hsteps, rfl⟩ := Option.map_eq_some_iff.mp hpath
  match steps, ty, hshape with
  | [], .scalar _, hshape =>
    obtain rfl := Option.some.inj hsteps
    refine ⟨_, s, rfl, L.small s _ ?_, rfl, ?_⟩
    · have hlt : slot < 2 ^ 64 := Nat.lt_trans hslot (by decide)
      unfold Val.tag
      rw [BitVec.toNat_ofNat, Nat.mod_eq_of_lt hlt]
      exact hshape
    · exact ⟨fun _ _ hv => hv, fun k hk => L.room_mono s k (k + 4) (by omega) hk⟩
  | [.key index], ty, hshape =>
    have hindex : index.Plain := by
      cases ty with
      | scalar _ => exact hshape
      | struct _ => exact hshape.1
    obtain ⟨item, hitem, hsome⟩ := Option.bind_eq_some_iff.mp hsteps
    obtain rfl := Option.some.inj hsome
    obtain ⟨v, s', hsub, hv, hd, he⟩ := storageSubscript_spec L hslot
      (denotes_index L hindex hitem) (L.room_mono s 3 4 (by omega) hroom)
    refine ⟨v, s', ?_, hv, hd, he.weaken (by omega)⟩
    simp only [access, hsub, Option.bind_eq_bind, Option.bind_some]
  | [.key index, .field n], .scalar _, hshape =>
    obtain ⟨item, hitem, hsome⟩ := Option.bind_eq_some_iff.mp hsteps
    obtain rfl := Option.some.inj hsome
    obtain ⟨v, s', hsub, hv, hd, he⟩ := storageSubscript_spec L hslot
      (denotes_index L hshape.1 hitem) (L.room_mono s 3 4 (by omega) hroom)
    obtain ⟨v', s'', hmem, hv', hd', he'⟩ := structMember_spec L hshape.2 hv (he.room 1 hroom)
    refine ⟨v', s'', ?_, hv', by rw [hd', hd], he.trans he'⟩
    simp only [access, structMember, hsub, hmem, Option.bind_eq_bind, Option.bind_some]

theorem durability_path {s : σ} (types : Nat → Option StorageType) (hpath : place.path L s = some p) :
    p.durability types = storageTypeToInt (storageType types place) := by
  obtain ⟨slot, steps⟩ := place
  obtain ⟨psteps, hsteps, rfl⟩ := Option.map_eq_some_iff.mp hpath
  have hempty : psteps.isEmpty = steps.isEmpty := by
    cases steps with
    | nil =>
      obtain rfl := Option.some.inj hsteps
      rfl
    | cons step steps =>
      cases step with
      | key index =>
        obtain ⟨item, -, hrest⟩ := Option.bind_eq_some_iff.mp hsteps
        obtain ⟨tail, -, hsome⟩ := Option.bind_eq_some_iff.mp hrest
        obtain rfl := Option.some.inj hsome
        rfl
      | field n =>
        obtain ⟨tail, -, hsome⟩ := Option.bind_eq_some_iff.mp hsteps
        obtain rfl := Option.some.inj hsome
        rfl
  simp only [Path.durability, storageType, hempty]

/-! ## Loads -/

theorem decode_field {ty : Ty} (hty : ty.ZeroField) (s : σ) : decode h ty 0 s = some 0 := by
  obtain rfl | rfl | rfl | rfl | rfl := hty <;> rfl

theorem decode_scalar {ty : Ty} (hty : ty.ZeroScalar) (s : σ) :
    decode h ty (typeToTaggedZeroVal ty) s = some 0 := by
  obtain (rfl | rfl | rfl | rfl | rfl) | rfl | rfl := hty <;> rfl

variable {types : Nat → Option StorageType} {A : Contents}

/-- One value: what is at the path, or the given one -/
theorem get_spec {s : σ} {v : Val} (zero : Val) (hr : Refines L types s A) (hp : p.Plain)
    (hv : L.denotes s v = some p.key) (hroom : L.room s 1) :
    ∃ has x s', h.hasContractData v (p.durability types) s = some has ∧
      (if isValTrue has then h.getContractData v (p.durability types) s else some (zero, s)) =
        some (x, s') ∧
      L.data s' = L.data s ∧ Extends L.denotes L.room 1 s s' ∧
      match A p with
      | some item => L.denotes s' x = some item
      | none => x = zero := by
  have hdata := hr p hp
  have hhas := L.hasContractData s v (p.durability types) p.key hv
  rw [hdata] at hhas
  cases hA : A p with
  | none =>
    rw [hA] at hhas
    refine ⟨0, zero, s, hhas, rfl, rfl, ?_, rfl⟩
    exact ⟨fun _ _ hu => hu, fun k hk => L.room_mono s k (k + 1) (by omega) hk⟩
  | some item =>
    rw [hA] at hhas hdata
    obtain ⟨x, s', hget, hx, hd, he⟩ := L.getContractData s v _ _ item hroom hv hdata
    refine ⟨1, x, s', hhas, ?_, hd, he, hx⟩
    rw [if_pos (by decide)]
    exact hget

theorem Refines.of_data {s s' : σ} (hr : Refines L types s A) (hd : L.data s' = L.data s) :
    Refines L types s' A := by
  unfold Refines
  rw [hd]
  exact hr

/-- The fields of a struct in a mapping, from this one on -/
def fieldCells (p : Path) (fields : List Ty) (i : Nat) : List (Path × Ty) :=
  (fields.zipIdx i).map fun f => (p.field f.2, f.1)

theorem fieldCells_cons (p : Path) (ty : Ty) (fields : List Ty) (i : Nat) :
    fieldCells p (ty :: fields) i = (p.field i, ty) :: fieldCells p fields (i + 1) := rfl

theorem getFields_spec {key : Val} (hslot : slot < 2 ^ 32) {i : Nat} {s : σ}
    (hi : i + fields.length ≤ 2 ^ 32) (hroom : L.room s (2 * fields.length))
    (hr : Refines L types s A) (hkey : L.denotes s key = some (Path.key ⟨slot, [.key item]⟩))
    (hzero : ∀ c ∈ fieldCells ⟨slot, [.key item]⟩ fields i, A c.1 = none → c.2.ZeroField) :
    ∃ vs s', getFields h key (storageTypeToInt none) i fields.length s = some (vs, s') ∧
      L.data s' = L.data s ∧ Extends L.denotes L.room (2 * fields.length) s s' ∧
      Loaded L A s' (fieldCells ⟨slot, [.key item]⟩ fields i) vs := by
  induction fields generalizing i s with
  | nil => exact ⟨[], s, rfl, rfl, ⟨fun _ _ hu => hu, fun _ hk => hk⟩, trivial⟩
  | cons ty fields ih =>
    rw [List.length_cons] at hi hroom
    rw [fieldCells_cons] at hzero ⊢
    obtain ⟨v, s1, hpush, hv, hd1, he1⟩ := structMember_spec L (by omega : i < 2 ^ 32) hkey
      (L.room_mono s 1 _ (by omega) hroom)
    have hp : (Path.field ⟨slot, [.key item]⟩ i).Plain := ⟨hslot, show i < 2 ^ 32 by omega⟩
    obtain ⟨has, x, s2, hhas, hget, hd2, he2, hx⟩ := get_spec L 0 (hr.of_data L hd1) hp hv
      (he1.room 1 (L.room_mono s 2 _ (by omega) hroom))
    have he := he1.trans he2
    obtain ⟨vs, s', hrest, hd, he', hloaded⟩ := ih (by omega)
      (he.room _ (L.room_mono s _ _ (by omega) hroom)) ((hr.of_data L hd1).of_data L hd2)
      (he.denotes _ _ hkey) (fun c hc => hzero c (List.mem_cons_of_mem _ hc))
    have hle : 1 + 1 + 2 * fields.length ≤ 2 * (ty :: fields).length := by
      rw [List.length_cons]
      omega
    refine ⟨x :: vs, s', ?_, by rw [hd, hd2, hd1], (he.trans he').weaken hle, ?_, hloaded⟩
    · have hdur : storageTypeToInt none = Path.durability types (Path.field ⟨slot, [.key item]⟩ i) := rfl
      rw [← hdur] at hhas hget
      simp only [List.length_cons, getFields, hpush, hhas, hget, hrest, Option.bind_eq_bind,
        Option.bind_some]
    · cases hA : A (Path.field ⟨slot, [.key item]⟩ i) with
      | none =>
        rw [hA] at hx
        rw [hx]
        exact decode_field (hzero _ List.mem_cons_self hA) s'
      | some stored =>
        rw [hA] at hx
        exact he'.denotes _ _ hx

theorem plain_path {s : σ} {ty : Ty} (hplain : place.Plain (.scalar ty))
    (hpath : place.path L s = some p) : p.Plain := by
  obtain ⟨slot, steps⟩ := place
  obtain ⟨hslot, hshape⟩ := hplain
  obtain ⟨psteps, hsteps, rfl⟩ := Option.map_eq_some_iff.mp hpath
  match steps, hshape with
  | [], hshape =>
    obtain rfl := Option.some.inj hsteps
    exact ⟨hslot, hshape⟩
  | [.key index], _ =>
    obtain ⟨item, -, hsome⟩ := Option.bind_eq_some_iff.mp hsteps
    obtain rfl := Option.some.inj hsome
    exact ⟨hslot, trivial⟩
  | [.key index, .field n], hshape =>
    obtain ⟨item, -, hsome⟩ := Option.bind_eq_some_iff.mp hsteps
    obtain rfl := Option.some.inj hsome
    exact ⟨hslot, hshape.2⟩

/-- A struct is behind one index. -/
theorem struct_path (types : Nat → Option StorageType) {s : σ}
    (hplain : place.Plain (.struct fields)) (hpath : place.path L s = some p) :
    place.slot < 2 ^ 32 ∧ fields.length ≤ 2 ^ 32 ∧ storageType types place = none ∧
      ∃ item, p = ⟨place.slot, [.key item]⟩ := by
  obtain ⟨slot, steps⟩ := place
  obtain ⟨hslot, hshape⟩ := hplain
  obtain ⟨psteps, hsteps, rfl⟩ := Option.map_eq_some_iff.mp hpath
  match steps, hshape with
  | [.key index], hshape =>
    obtain ⟨item, -, hsome⟩ := Option.bind_eq_some_iff.mp hsteps
    obtain rfl := Option.some.inj hsome
    exact ⟨hslot, hshape.2, rfl, item, rfl⟩
  | [.key _, .field _], hshape | .key _ :: .field _ :: _ :: _, hshape => exact hshape.elim

theorem load_spec {s : σ} (hr : Refines L types s A) (hplain : place.Plain ty)
    (hpath : place.path L s = some p) (hzero : ty.ZeroOk A p) (hroom : L.room s (4 + 2 * ty.count)) :
    ∃ r s', exec h types (.load place ty) s = some (r, s') ∧ L.data s' = L.data s ∧
      Loaded L A s' (p.cells ty) r := by
  obtain ⟨key, s1, hacc, hkey, hd1, he1⟩ := access_spec L hplain hpath
    (L.room_mono s 4 _ (by omega) hroom)
  have hr1 := hr.of_data L hd1
  have hroom1 := he1.room (2 * ty.count) (by rwa [Nat.add_comm])
  cases ty with
  | scalar ty =>
    obtain ⟨has, x, s2, hhas, hget, hd2, he2, hx⟩ := get_spec L (typeToTaggedZeroVal ty) hr1
      (plain_path L hplain hpath) hkey (L.room_mono s1 1 _ (show 1 ≤ 2 * 1 by omega) hroom1)
    rw [durability_path L types hpath] at hhas hget
    refine ⟨[x], s2, ?_, by rw [hd2, hd1], ?_, trivial⟩
    · simp only [exec, hacc, storageLoad, hhas, Option.bind_eq_bind, Option.bind_some]
      by_cases hhas' : isValTrue has = true
      · rw [if_pos hhas'] at hget ⊢
        rw [hget]
        rfl
      · rw [if_neg hhas'] at hget ⊢
        obtain ⟨rfl, rfl⟩ := Prod.mk.inj (Option.some.inj hget)
        rfl
    · cases hA : A p with
      | none =>
        rw [hA] at hx
        rw [hx]
        exact decode_scalar (hzero hA) s2
      | some item =>
        rw [hA] at hx
        exact hx
  | struct fields =>
    obtain ⟨hslot, hlen, hnone, item, rfl⟩ := struct_path L types hplain hpath
    obtain ⟨vs, s2, hget, hd2, he2, hloaded⟩ := getFields_spec L hslot (by omega) hroom1 hr1 hkey hzero
    refine ⟨vs, s2, ?_, by rw [hd2, hd1], hloaded⟩
    simp only [exec, hacc, storageLoad, hnone, hget, Option.bind_eq_bind, Option.bind_some]

/-! ## Stores -/

open Classical in
theorem put_spec {s : σ} {v x : Val} (hr : Refines L types s A) (hp : p.Plain)
    (hv : L.denotes s v = some p.key) (hx : L.denotes s x = some item) (hroom : L.room s 1) :
    ∃ s', h.putContractData v x (p.durability types) s = some s' ∧
      Refines L types s' (Function.update A p (some item)) ∧ Extends L.denotes L.room 1 s s' := by
  obtain ⟨s', hput, hsame, hother, he⟩ := L.putContractData s v x _ _ item hroom hv hx
  refine ⟨s', hput, fun q hq => ?_, he⟩
  by_cases hqp : q = p
  · subst hqp
    rw [hsame, Function.update_self]
  · rw [Function.update_of_ne hqp, hother, hr q hq]
    rintro ⟨-, hkey⟩
    exact hqp (Path.key_inj hq hp hkey)

open Classical in
/-- A store leaves every other path alone. -/
theorem write_of_ne {A : Contents} {cells : List (Path × Ty)} {items : List Item}
    (hne : ∀ c ∈ cells, c.1 ≠ p) : write A cells items p = A p := by
  induction cells generalizing A items with
  | nil => cases items <;> rfl
  | cons c cells ih =>
    cases items with
    | nil => rfl
    | cons item items =>
      unfold write
      rw [ih fun c' hc' => hne c' (List.mem_cons_of_mem _ hc'),
        Function.update_of_ne (hne c List.mem_cons_self).symm]

theorem Extends.items {L : Lawful h} {s s' : σ} {n : Nat} {dest : List Val} {items : List Item}
    (he : Extends L.denotes L.room n s s') (hitems : dest.map (L.denotes s) = items.map some) :
    dest.map (L.denotes s') = items.map some := by
  induction dest generalizing items with
  | nil => simpa using hitems
  | cons v dest ih =>
    cases items with
    | nil => simp at hitems
    | cons item items =>
      rw [List.map_cons, List.map_cons] at hitems ⊢
      obtain ⟨hv, hrest⟩ := List.cons.inj hitems
      rw [he.denotes v item hv, ih hrest]

theorem putFields_spec {key : Val} (hslot : slot < 2 ^ 32) {items : List Item} {i : Nat} {s : σ}
    (hi : i + fields.length ≤ 2 ^ 32) (hlen : dest.length = fields.length)
    (hroom : L.room s (2 * fields.length)) (hr : Refines L types s A)
    (hkey : L.denotes s key = some (Path.key ⟨slot, [.key item]⟩))
    (hitems : dest.map (L.denotes s) = items.map some) :
    ∃ s', putFields h key (storageTypeToInt none) i dest s = some s' ∧
      Refines L types s' (write A (fieldCells ⟨slot, [.key item]⟩ fields i) items) := by
  induction fields generalizing i s dest items A with
  | nil =>
    obtain rfl := List.eq_nil_of_length_eq_zero hlen
    obtain rfl : items = [] := by simpa using hitems.symm
    exact ⟨s, rfl, hr⟩
  | cons ty fields ih =>
    rw [List.length_cons] at hi hroom hlen
    obtain ⟨x, dest, rfl⟩ := List.exists_cons_of_length_eq_add_one hlen
    obtain ⟨stored, items, rfl⟩ : ∃ stored items', items = stored :: items' := by
      cases items with
      | nil => simp at hitems
      | cons stored items => exact ⟨stored, items, rfl⟩
    rw [List.map_cons, List.map_cons] at hitems
    obtain ⟨hx, hrest⟩ := List.cons.inj hitems
    obtain ⟨v, s1, hpush, hv, hd1, he1⟩ := structMember_spec L (by omega : i < 2 ^ 32) hkey
      (L.room_mono s 1 _ (by omega) hroom)
    have hp : (Path.field ⟨slot, [.key item]⟩ i).Plain := ⟨hslot, show i < 2 ^ 32 by omega⟩
    obtain ⟨s2, hput, hr2, he2⟩ := put_spec L (hr.of_data L hd1) hp hv (he1.denotes _ _ hx)
      (he1.room 1 (L.room_mono s 2 _ (by omega) hroom))
    have he := he1.trans he2
    obtain ⟨s', hfields, hr'⟩ := ih (i := i + 1) (by omega) (by simpa using hlen)
      (he.room _ (L.room_mono s _ _ (by omega) hroom)) hr2 (he.denotes _ _ hkey)
      (he.items hrest)
    refine ⟨s', ?_, hr'⟩
    have hdur : storageTypeToInt none = Path.durability types (Path.field ⟨slot, [.key item]⟩ i) := rfl
    rw [← hdur] at hput
    simp only [putFields, hpush, hput, hfields, Option.bind_eq_bind, Option.bind_some]

theorem map_denotes {s : σ} (hdest : ∀ v ∈ dest, (L.denotes s v).isSome) :
    dest.map (L.denotes s) = (dest.filterMap (L.denotes s)).map some := by
  induction dest with
  | nil => rfl
  | cons v dest ih =>
    obtain ⟨item, hv⟩ := Option.isSome_iff_exists.mp (hdest v List.mem_cons_self)
    rw [List.map_cons, List.filterMap_cons_some hv, List.map_cons, hv,
      ih fun u hu => hdest u (List.mem_cons_of_mem _ hu)]

theorem store_spec {s : σ} (hr : Refines L types s A) (hplain : place.Plain ty)
    (hpath : place.path L s = some p) (hlen : dest.length = ty.count)
    (hdest : ∀ v ∈ dest, (L.denotes s v).isSome) (hroom : L.room s (4 + 2 * ty.count)) :
    ∃ s', exec h types (.store place ty dest) s = some ([], s') ∧
      Refines L types s' (write A (p.cells ty) (dest.filterMap (L.denotes s))) := by
  obtain ⟨key, s1, hacc, hkey, hd1, he1⟩ := access_spec L hplain hpath
    (L.room_mono s 4 _ (by omega) hroom)
  have hr1 := hr.of_data L hd1
  have hroom1 := he1.room (2 * ty.count) (by rwa [Nat.add_comm])
  have hitems := map_denotes L hdest
  cases ty with
  | scalar ty =>
    obtain ⟨x, rfl⟩ := List.length_eq_one_iff.mp hlen
    obtain ⟨item, hx⟩ := Option.isSome_iff_exists.mp (hdest x List.mem_cons_self)
    obtain ⟨s2, hput, hr2, -⟩ := put_spec L hr1 (plain_path L hplain hpath) hkey
      (he1.denotes _ _ hx) (L.room_mono s1 1 _ (show 1 ≤ 2 * 1 by omega) hroom1)
    rw [durability_path L types hpath] at hput
    refine ⟨s2, ?_, ?_⟩
    · simp only [exec, hacc, storageStore, hput, Option.bind_eq_bind, Option.bind_some]
    · rw [List.filterMap_cons_some hx]
      exact hr2
  | struct fields =>
    obtain ⟨hslot, hfields, hnone, item, rfl⟩ := struct_path L types hplain hpath
    obtain ⟨s2, hput, hr2⟩ := putFields_spec L hslot (i := 0) (by omega) hlen hroom1 hr1 hkey
      (he1.items hitems)
    refine ⟨s2, ?_, hr2⟩
    simp only [exec, hacc, storageStore, hnone, hput, Option.bind_eq_bind, Option.bind_some]

/-! ## Runs -/

theorem exec_spec {s : σ} {op : Op σ} (hr : Refines L types s A) (hvalid : Valid L s op)
    (hplain : Plain L A s op) :
    ∃ r s', exec h types op s = some (r, s') ∧ LoadOk L A s s' r op ∧
      Refines L types s' (after L A s op) := by
  cases op with
  | store place ty dest =>
    obtain ⟨hpath, hlen, hdest, hroom⟩ := hvalid
    obtain ⟨p, hp⟩ := Option.isSome_iff_exists.mp hpath
    obtain ⟨s', hexec, hr'⟩ := store_spec L hr hplain hp hlen hdest hroom
    refine ⟨[], s', hexec, trivial, ?_⟩
    simp only [after, hp]
    exact hr'
  | load place ty =>
    obtain ⟨hpath, hroom⟩ := hvalid
    obtain ⟨p, hp⟩ := Option.isSome_iff_exists.mp hpath
    obtain ⟨r, s', hexec, hdata, hloaded⟩ := load_spec L hr hplain.1 hp (hplain.2 p hp) hroom
    exact ⟨r, s', hexec, ⟨p, hp, hloaded⟩, hr.of_data L hdata⟩
  | other f => exact ⟨[], f s, rfl, trivial, hr.of_data L hvalid⟩

/-- Every load of a run returns what was last stored at its path. -/
theorem run_correct {s : σ} {ops : List (Op σ)} (hr : Refines L types s A)
    (hvalid : Along L types (fun _ => Valid L) s A ops) (hplain : Along L types (Plain L) s A ops) :
    Correct L types s A ops := by
  induction ops generalizing s A with
  | nil => trivial
  | cons op ops ih =>
    obtain ⟨r, s', hexec, hload, hr'⟩ := exec_spec L hr hvalid.1 hplain.1
    exact ⟨r, s', hexec, hload, ih hr' (hvalid.2 r s' hexec) (hplain.2 r s' hexec)⟩

/-- Storage is a map from paths in every run that has one index at most in each place. -/
theorem storage_is_path_map (types : Nat → Option StorageType) (s : σ)
    (hempty : ∀ t key, L.data s t key = none) (ops : List (Op σ))
    (hvalid : Along L types (fun _ => Valid L) s (fun _ => none) ops)
    (hplain : Along L types (Plain L) s (fun _ => none) ops) :
    Correct L types s (fun _ => none) ops :=
  run_correct L (fun p _ => hempty _ p.key) hvalid hplain

end Host

section Along

variable {σ : Type} {h : Host σ} {L : Lawful h} {types : Nat → Option StorageType}
  {P : Contents → σ → Op σ → Prop} {A : Contents} {s s' : σ} {op : Op σ} {ops : List (Op σ)}
  {r : List Val}

theorem Along.cons (hexec : exec h types op s = some (r, s')) (hop : P A s op)
    (hrest : Along L types P s' (after L A s op) ops) : Along L types P s A (op :: ops) := by
  refine ⟨hop, fun r' s'' hexec' => ?_⟩
  obtain ⟨-, rfl⟩ := Prod.mk.inj (Option.some.inj (hexec.symm.trans hexec'))
  exact hrest

theorem Correct.of_exec (hexec : exec h types op s = some (r, s')) (h : Correct L types s A (op :: ops)) :
    LoadOk L A s s' r op ∧ Correct L types s' (after L A s op) ops := by
  obtain ⟨r', s'', hexec', hload, hrest⟩ := h
  obtain ⟨rfl, rfl⟩ := Prod.mk.inj (Option.some.inj (hexec.symm.trans hexec'))
  exact ⟨hload, hrest⟩

end Along

/-! ## A host -/

namespace Sample

mutual

def decEq : (a b : Item) → Decidable (a = b)
  | .word v, .word w => decidable_of_iff (v = w) (by simp)
  | .object t c, .object t' c' => decidable_of_iff (t = t' ∧ c = c') (by simp)
  | .vec l, .vec l' =>
    match decEqList l l' with
    | .isTrue h => .isTrue (h ▸ rfl)
    | .isFalse h => .isFalse fun e => h (Item.vec.inj e)
  | .word _, .object _ _ | .word _, .vec _ | .object _ _, .word _ | .object _ _, .vec _
  | .vec _, .word _ | .vec _, .object _ _ => .isFalse nofun

def decEqList : (a b : List Item) → Decidable (a = b)
  | [], [] => .isTrue rfl
  | [], _ :: _ | _ :: _, [] => .isFalse nofun
  | a :: l, b :: l' =>
    match decEq a b, decEqList l l' with
    | .isTrue h, .isTrue h' => .isTrue (h ▸ h' ▸ rfl)
    | .isFalse h, _ => .isFalse fun e => h (List.cons.inj e).1
    | _, .isFalse h => .isFalse fun e => h (List.cons.inj e).2

end

instance : DecidableEq Item := decEq

/-- The objects by their handles, and contract data with the latest entries first -/
structure Ledger where
  objects : List Item
  data : List ((Nat × Item) × Item)

/-- The handle of an object is in the upper half of its value. -/
def handleVal (handle tag : Nat) : Val := BitVec.ofNat 64 (handle * 2 ^ 32 + tag)

def denotes (s : Ledger) (v : Val) : Option Item :=
  if v.tag < objectTag then some (.word v) else s.objects[v.toNat / 2 ^ 32]?

def alloc (item : Item) (tag : Nat) (s : Ledger) : Option (Val × Ledger) :=
  if s.objects.length < 2 ^ 32 then
    some (handleVal s.objects.length tag, { s with objects := s.objects ++ [item] })
  else none

def host : Host Ledger where
  vectorNew := alloc (.vec []) 75
  vecPushBack v x s :=
    match denotes s v, denotes s x with
    | some (.vec items), some item => alloc (.vec (items ++ [item])) 75 s
    | _, _ => none
  hasContractData v t s := do
    let key ← denotes s v
    some (if (s.data.lookup (t, key)).isSome then 1 else 0)
  getContractData v t s := do
    let key ← denotes s v
    let item ← s.data.lookup (t, key)
    match item with
    | .word w => if w.tag < objectTag then some (w, s) else alloc item 77 s
    | .vec _ => alloc item 75 s
    | .object _ _ => alloc item 77 s
  putContractData v x t s := do
    let key ← denotes s v
    let item ← denotes s x
    some { s with data := ((t, key), item) :: s.data }
  objToPieces _ _ _ := none

def room (s : Ledger) (n : Nat) : Prop := s.objects.length + n ≤ 2 ^ 32

theorem alloc_spec (item : Item) (tag : Nat) {s : Ledger} (htag : objectTag ≤ tag ∧ tag < 256)
    (hroom : room s 1) :
    ∃ v s', alloc item tag s = some (v, s') ∧ denotes s' v = some item ∧ s'.data = s.data ∧
      Extends denotes room 1 s s' := by
  have hlt : s.objects.length < 2 ^ 32 := by
    unfold room at hroom
    omega
  have htag' : 64 ≤ tag := htag.1
  have hnat : (handleVal s.objects.length tag).toNat = s.objects.length * 2 ^ 32 + tag := by
    unfold handleVal
    rw [BitVec.toNat_ofNat]
    omega
  refine ⟨handleVal s.objects.length tag, { s with objects := s.objects ++ [item] }, if_pos hlt, ?_,
    rfl, ?_, ?_⟩
  · have hno : ¬(handleVal s.objects.length tag).tag < objectTag := by
      unfold Val.tag objectTag
      rw [hnat]
      omega
    have hdiv : (s.objects.length * 2 ^ 32 + tag) / 2 ^ 32 = s.objects.length := by omega
    unfold denotes
    rw [if_neg hno, hnat, hdiv, List.getElem?_append_right (Nat.le_refl _), Nat.sub_self]
    rfl
  · intro v item' hv
    unfold denotes at hv ⊢
    split at hv
    next hsmall => rwa [if_pos hsmall]
    next hbig =>
      rw [if_neg hbig]
      rwa [List.getElem?_append_left (List.getElem?_eq_some_iff.mp hv).1]
  · intro m hm
    unfold room at hm ⊢
    rw [List.length_append, List.length_singleton]
    omega

def lawful : Lawful host where
  denotes := denotes
  data s t key := s.data.lookup (t, key)
  room := room
  small s v hv := if_pos hv
  room_mono s m n hle hroom := Nat.le_trans (Nat.add_le_add_left hle _) hroom
  vectorNew s hroom := by
    obtain ⟨v, s', halloc, hv, hd, he⟩ := alloc_spec (.vec []) 75 (by decide) hroom
    exact ⟨v, s', halloc, hv, by rw [hd], he⟩
  vecPushBack s v x items item hroom hv hx := by
    obtain ⟨v', s', halloc, hv', hd, he⟩ := alloc_spec (.vec (items ++ [item])) 75 (by decide)
      hroom
    refine ⟨v', s', ?_, hv', by rw [hd], he⟩
    simp only [host, hv, hx]
    exact halloc
  hasContractData s v t key hv := by
    simp only [host, hv]
    rfl
  getContractData s v t key item hroom hv hdata := by
    simp only [host, hv, hdata, Option.bind_eq_bind, Option.bind_some]
    cases item with
    | word w =>
      by_cases hw : w.tag < objectTag
      · refine ⟨w, s, by simp only [hw, if_true], if_pos hw, rfl, fun _ _ hu => hu, fun m hm => ?_⟩
        exact Nat.le_trans (Nat.add_le_add_left (Nat.le_add_right m 1) _) hm
      · obtain ⟨x, s', halloc, hx, hd, he⟩ := alloc_spec (.word w) 77 (by decide) hroom
        exact ⟨x, s', by simp only [hw, if_false, halloc], hx, by rw [hd], he⟩
    | object tag content =>
      obtain ⟨x, s', halloc, hx, hd, he⟩ := alloc_spec (.object tag content) 77 (by decide) hroom
      exact ⟨x, s', halloc, hx, by rw [hd], he⟩
    | vec items =>
      obtain ⟨x, s', halloc, hx, hd, he⟩ := alloc_spec (.vec items) 75 (by decide) hroom
      exact ⟨x, s', halloc, hx, by rw [hd], he⟩
  putContractData s v x t key item hroom hv hx := by
    refine ⟨{ s with data := ((t, key), item) :: s.data }, ?_, ?_, ?_, fun _ _ hu => hu, fun m hm => ?_⟩
    · simp only [host, hv, hx]
      rfl
    · exact List.lookup_cons_self
    · intro t' key' hne
      have hbeq : ((t', key') == (t, key)) = false := by
        rw [beq_eq_false_iff_ne]
        intro heq
        exact hne (Prod.mk.inj heq)
      rw [List.lookup_cons, hbeq]
    · exact Nat.le_trans (Nat.add_le_add_left (Nat.le_add_right m 1) _) hm

/-- Three addresses -/
def ledger : Ledger := ⟨[.object 77 1, .object 77 2, .object 77 3], []⟩

def account (i : Nat) : Step := .key (.handle (handleVal i 77))

/-- The number five, as an integer of 64 bits -/
def five : Val := 1286

def setBalance : Op Ledger := .store ⟨0, [account 0]⟩ (.scalar (.uint 64)) [five]

def getBalance (i : Nat) : Op Ledger := .load ⟨0, [account i]⟩ (.scalar (.uint 64))

def allowance (owner : Nat) : Place := ⟨1, [account owner, account 2]⟩

def setAllowance : Op Ledger := .store (allowance 0) (.scalar (.uint 64)) [five]

def getAllowance (owner : Nat) : Op Ledger := .load (allowance owner) (.scalar (.uint 64))

def noTypes : Nat → Option StorageType := fun _ => none

def next (op : Op Ledger) (s : Ledger) : Ledger := ((exec host noTypes op s).map (·.2)).getD s

theorem exec_setBalance : exec host noTypes setBalance ledger = some ([], next setBalance ledger) := by
  rfl

theorem exec_getBalance : exec host noTypes (getBalance 0) (next setBalance ledger) =
    some ([five], next (getBalance 0) (next setBalance ledger)) := by
  rfl

theorem exec_setAllowance :
    exec host noTypes setAllowance ledger = some ([], next setAllowance ledger) := by
  rfl

theorem exec_getAllowance : exec host noTypes (getAllowance 1) (next setAllowance ledger) =
    some ([five], next (getAllowance 1) (next setAllowance ledger)) := by
  rfl

/-- A balance is what it was set to. -/
theorem storage_is_path_map_balance :
    Correct lawful noTypes ledger (fun _ => none) [setBalance, getBalance 0] := by
  have hroom : room ledger 6 ∧ room (next setBalance ledger) 6 := by
    unfold room
    exact ⟨by decide, show 6 + 6 ≤ 2 ^ 32 by decide⟩
  refine storage_is_path_map lawful noTypes ledger (fun _ _ => rfl) _ ?_ ?_
  · exact .cons exec_setBalance ⟨rfl, rfl, by simp; rfl, hroom.1⟩
      (.cons exec_getBalance ⟨rfl, hroom.2⟩ trivial)
  · have hplain : Place.Plain ⟨0, [account 0]⟩ (.scalar (.uint 64)) := ⟨by decide, trivial⟩
    have hzero : Ty.ZeroScalar (.uint 64) := .inl (.inr (.inr (.inr (.inl rfl))))
    exact .cons exec_setBalance hplain
      (.cons exec_getBalance ⟨hplain, fun _ _ _ => hzero⟩ trivial)

/-- The allowance of another owner is what was set for the first one. -/
theorem allowance_of_other_owner :
    Along lawful noTypes (fun _ => Valid lawful) ledger (fun _ => none) [setAllowance, getAllowance 1] ∧
      ¬Correct lawful noTypes ledger (fun _ => none) [setAllowance, getAllowance 1] := by
  have hroom : room ledger 6 ∧ room (next setAllowance ledger) 6 := by
    unfold room
    exact ⟨by decide, show 9 + 6 ≤ 2 ^ 32 by decide⟩
  refine ⟨.cons exec_setAllowance ⟨rfl, rfl, by simp; rfl, hroom.1⟩
    (.cons exec_getAllowance ⟨rfl, hroom.2⟩ trivial), fun hcorrect => ?_⟩
  obtain ⟨-, hcorrect⟩ := hcorrect.of_exec exec_setAllowance
  obtain ⟨⟨p, hp, hloaded, -⟩, -⟩ := hcorrect.of_exec exec_getAllowance
  have hpath : (⟨1, [.key (.object 77 2), .key (.object 77 3)]⟩ : Path) = p := Option.some.inj hp
  subst hpath
  have hafter : after lawful (fun _ => none) ledger setAllowance = write (fun _ => none)
      [(⟨1, [.key (.object 77 1), .key (.object 77 3)]⟩, .uint 64)] [.word five] := rfl
  have hnone : after lawful (fun _ => none) ledger setAllowance
      ⟨1, [.key (.object 77 2), .key (.object 77 3)]⟩ = none := by
    rw [hafter]
    exact write_of_ne (by simp)
  simp only [hnone] at hloaded
  have hfive : (5 : Int) = 0 := Option.some.inj hloaded
  cases hfive

end Sample

end Solang.Emit.Soroban
