import Solang.Codegen.Cfg
import Solang.Codegen.StrengthReduce.Elements
import Solang.Lib.Fuel

/-!
# Reaching values

`codegen/strength_reduce/reaching_values.rs`: the blocks are entered along the edges with the value sets of the
variables, and entered again when a set changes. A set grows up to `MAX_VALUES` elements and then becomes the
unknown one, which does not change any more, so the traversal ends.
-/

namespace Solang.Codegen.StrengthReduce

/-- `Variables`, as the map that it is -/
abbrev VarSets := IndexMap Nat (List Value)

/-- The variables at the start of the blocks that were entered -/
abbrev BlockVars := IndexMap Nat VarSets

/-- `MAX_VALUES` -/
def maxValues : Nat := 100

def Value.allUnknown (v : Value) : Bool := (List.range v.bits).all fun i => !v.knownBits.getLsbD i

/-- `existing.iter().next().is_some_and(|v| v.all_unknown())` -/
def startsUnknown (existing : List Value) : Bool := existing.head?.any Value.allUnknown

/-- The unknown value with the bits of this set -/
def unknownLike (set : List Value) : List Value := [.unknown ((set.head?.map Value.bits).getD 0)]

/-- The body of the loop that inserts values, with whether there were any changes -/
def insertValue (s : List Value × Bool) (v : Value) : List Value × Bool :=
  if v ∈ s.1 then s else (s.1 ++ [v], true)

section Traversal

variable (ns : Namespace) (order : List Value → List Value)

/-- `update_map` -/
def updateMap (varNo : Nat) (set : List Value) (map : VarSets) : VarSets × Bool :=
  match map.lookup varNo with
  | some existing =>
    if startsUnknown existing then (map, false)
    else
      match set.find? Value.allUnknown with
      | some v => (map.insert varNo [v], true)
      | none =>
        let (grown, changes) := set.foldl insertValue (existing, false)
        if maxValues < grown.length then (map.insert varNo (unknownLike (order grown)), true)
        else if changes then (map.insert varNo (order grown), true)
        else (map, false)
  | none =>
    if maxValues < set.length || set.any Value.allUnknown then (map.insert varNo (unknownLike set), true)
    else (map.insert varNo set, true)

/-- The loop over the variables -/
def mergeVars (vars map : VarSets) : VarSets × Bool :=
  vars.entries.foldl (fun s entry =>
    let (map, changes) := updateMap order entry.1 entry.2 s.1
    (map, s.2 || changes)) (map, false)

/-- `transfer` -/
def transfer (instr : Instr) (vars : VarSets) : VarSets :=
  match instr with
  | .set res expr => vars.insert res (expressionValues ns order vars.lookup expr)
  | .call res returnTys _ _ =>
    (res.zip returnTys).foldl (fun vars (varNo, ty) =>
      if track ty then vars.insert varNo [.unknown (ty.bits ns)] else vars) vars
  | .popStorage (some res) _ _ => vars.insert res [.unknown 8]
  | .popMemory res ty _ => if track ty then vars.insert res [.unknown (ty.bits ns)] else vars
  | _ => vars

/-- The end of an instruction: the blocks that are entered after it. `enter` is the recursive call, which
changes the variables that it is given. -/
def follow (enter : Nat → VarSets → BlockVars → Option (VarSets × BlockVars)) (instr : Instr)
    (vars : VarSets) (blockVars : BlockVars) : Option (VarSets × BlockVars) :=
  match instr with
  | .branch block => enter block vars blockVars
  | .branchCond cond trueBlock falseBlock =>
    let both := do
      -- the variables of this call are a copy
      let (_, blockVars) ← enter trueBlock vars blockVars
      enter falseBlock vars blockVars
    match expressionValues ns order vars.lookup cond with
    | [v] =>
      if v.knownBits.getLsbD 0 then enter (if v.value.getLsbD 0 then trueBlock else falseBlock) vars blockVars
      else both
    | _ => both
  | _ => some (vars, blockVars)

variable (cfg : ControlFlowGraph)

/-- `reaching_values`. Indexing a block that there is not panics. -/
def reachingValues : Nat → Nat → VarSets → BlockVars → Option (VarSets × BlockVars)
  | 0, _, _, _ => none
  | fuel + 1, blockNo, vars, blockVars =>
    let (map, changes) := match blockVars.lookup blockNo with
      | some map => mergeVars order vars map
      | none => (vars, true)
    if changes then
      (cfg.block blockNo).instr.foldlM (fun s instr =>
        follow ns order (reachingValues fuel) instr (transfer ns order instr s.1) s.2)
        (vars, blockVars.insert blockNo map)
    else some (vars, blockVars)

end Traversal

/-! ## What is left of a set -/

/-- How often the set of a variable can change -/
def room : Option (List Value) → Nat
  | none => maxValues + 3
  | some existing => if startsUnknown existing then 0 else maxValues + 1 - existing.length + 1

theorem room_unknown {v : Value} (h : v.allUnknown = true) : room (some [v]) = 0 := by
  simp [room, startsUnknown, h]

theorem allUnknown_unknown (bits : Nat) : (Value.unknown bits).allUnknown = true := by
  simp [Value.allUnknown, Value.unknown]

theorem room_unknownLike (set : List Value) : room (some (unknownLike set)) = 0 :=
  room_unknown (allUnknown_unknown _)

theorem room_some_lt (set : List Value) : room (some set) < room none := by
  simp only [room]
  split <;> omega

theorem foldl_insertValue (set existing : List Value) (changes : Bool) :
    let grown := set.foldl insertValue (existing, changes)
    existing.length ≤ grown.1.length ∧
      (grown.2 = true → changes = true ∨ existing.length < grown.1.length) := by
  induction set generalizing existing changes with
  | nil => exact ⟨le_rfl, .inl⟩
  | cons v set ih =>
    rw [List.foldl_cons]
    by_cases hv : v ∈ existing
    · rw [show insertValue (existing, changes) v = (existing, changes) from if_pos hv]
      exact ih existing changes
    · rw [show insertValue (existing, changes) v = (existing ++ [v], true) from if_neg hv]
      obtain ⟨hle, -⟩ := ih (existing ++ [v]) true
      rw [List.length_append, List.length_singleton] at hle
      exact ⟨by omega, fun _ => .inr (by omega)⟩

section Rank

variable {ns : Namespace} {order : List Value → List Value} (horder : ∀ set, (order set).Perm set)

include horder

/-- Either nothing changes or the set of the variable has less room. -/
theorem updateMap_cases (varNo : Nat) (set : List Value) (map : VarSets) :
    updateMap order varNo set map = (map, false) ∨
      ∃ new, updateMap order varNo set map = (map.insert varNo new, true) ∧
        room (some new) < room (map.lookup varNo) := by
  unfold updateMap
  split
  next existing hlookup =>
    split
    next => exact .inl rfl
    next hstarts =>
      have hroom : room (some existing) = maxValues + 1 - existing.length + 1 := if_neg hstarts
      rw [hlookup, hroom]
      split
      next v hfind =>
        refine .inr ⟨_, rfl, ?_⟩
        rw [room_unknown (by simpa using List.find?_some hfind)]
        omega
      next =>
        obtain ⟨-, hgrows⟩ := foldl_insertValue set existing false
        generalize set.foldl insertValue (existing, false) = grown at hgrows ⊢
        obtain ⟨grown, changes⟩ := grown
        dsimp only at hgrows ⊢
        split
        next =>
          refine .inr ⟨_, rfl, ?_⟩
          rw [room_unknownLike]
          omega
        next hlen =>
          split
          next hchanges =>
            refine .inr ⟨_, rfl, ?_⟩
            have hlt := (hgrows hchanges).resolve_left Bool.false_ne_true
            simp only [room, (horder grown).length_eq]
            split <;> omega
          next => exact .inl rfl
  next hlookup =>
    rw [hlookup]
    split
    next => exact .inr ⟨_, rfl, room_some_lt _⟩
    next => exact .inr ⟨_, rfl, room_some_lt _⟩

end Rank

/-! ## What is left of the maps -/

/-- How often the sets of these variables can change -/
def mapRoom (X : Finset Nat) (map : VarSets) : Nat := ∑ x ∈ X, room (map.lookup x)

/-- How often a block can be entered with changes -/
def blockRoom (X : Finset Nat) : Option VarSets → Nat
  | none => ∑ _x ∈ X, room none + 1
  | some map => mapRoom X map

def potential (X B : Finset Nat) (blockVars : BlockVars) : Nat := ∑ b ∈ B, blockRoom X (blockVars.lookup b)

variable {ns : Namespace} {order : List Value → List Value} {cfg : ControlFlowGraph} {X B : Finset Nat}

variable {map vars : VarSets} {varNo x : Nat} {instr : Instr}

theorem mapRoom_insert_lt {new : List Value} (hX : varNo ∈ X)
    (hroom : room (some new) < room (map.lookup varNo)) :
    mapRoom X (map.insert varNo new) < mapRoom X map := by
  refine Finset.sum_lt_sum (fun x _ => ?_) ⟨varNo, hX, by rwa [AList.lookup_insert]⟩
  by_cases hx : x = varNo
  · subst hx
    rw [AList.lookup_insert]
    exact hroom.le
  · rw [AList.lookup_insert_ne hx]

theorem mapRoom_le (map : VarSets) : mapRoom X map ≤ ∑ _x ∈ X, room none := by
  refine Finset.sum_le_sum fun x _ => ?_
  cases map.lookup x with
  | none => exact le_rfl
  | some set => exact (room_some_lt set).le

theorem potential_insert_lt {blockVars : BlockVars} {blockNo : Nat} (hB : blockNo ∈ B)
    (hroom : mapRoom X map < blockRoom X (blockVars.lookup blockNo)) :
    potential X B (blockVars.insert blockNo map) < potential X B blockVars := by
  refine Finset.sum_lt_sum (fun b _ => ?_) ⟨blockNo, hB, by rwa [AList.lookup_insert]⟩
  by_cases hb : b = blockNo
  · subst hb
    rw [AList.lookup_insert]
    exact hroom.le
  · rw [AList.lookup_insert_ne hb]

/-- The merge of variables of this set either changes nothing or leaves less room. -/
theorem mergeVars_cases (horder : ∀ set, (order set).Perm set) (hvars : ∀ x ∈ vars, x ∈ X)
    (map : VarSets) :
    (mergeVars order vars map).2 = true → mapRoom X (mergeVars order vars map).1 < mapRoom X map := by
  have hfold : ∀ (entries : List ((_ : Nat) × List Value)) (s : VarSets × Bool),
      (∀ entry ∈ entries, entry.1 ∈ X) → mapRoom X s.1 ≤ mapRoom X map →
      (s.2 = true → mapRoom X s.1 < mapRoom X map) →
        let r := entries.foldl (fun s entry =>
          let (map, changes) := updateMap order entry.1 entry.2 s.1
          (map, s.2 || changes)) s
        r.2 = true → mapRoom X r.1 < mapRoom X map := by
    intro entries
    induction entries with
    | nil => exact fun s _ _ hs => hs
    | cons entry entries ih =>
      intro s hentries hle hs
      obtain ⟨hentry, hentries⟩ := List.forall_mem_cons.mp hentries
      rw [List.foldl_cons]
      rcases updateMap_cases horder entry.1 entry.2 s.1 with hsame | ⟨new, hnew, hroom⟩
      · rw [hsame]
        exact ih _ hentries hle (by simpa using hs)
      · rw [hnew]
        have hlt := mapRoom_insert_lt hentry hroom
        exact ih _ hentries (by dsimp only; omega) fun _ => by dsimp only; omega
  refine hfold vars.entries (map, false) (fun entry hentry => hvars _ ?_) le_rfl nofun
  exact AList.mem_keys.mpr (List.mem_keys_of_mem hentry)

/-! ## Variables -/

theorem mem_insert_cases {set : List Value} {l : List Nat} (h : x ∈ vars.insert varNo set) :
    x ∈ vars ∨ x ∈ varNo :: l := by
  rcases (AList.mem_insert vars).mp h with rfl | h
  · exact .inr List.mem_cons_self
  · exact .inl h

theorem mem_transfer (h : x ∈ transfer ns order instr vars) :
    x ∈ vars ∨ x ∈ instr.results := by
  cases instr with
  | set res expr => exact mem_insert_cases h
  | call res returnTys call args =>
    have hfold : ∀ (pairs : List (Nat × Ty)) (vars : VarSets),
        x ∈ pairs.foldl (fun vars (varNo, ty) =>
          if track ty then vars.insert varNo [Value.unknown (ty.bits ns)] else vars) vars →
        x ∈ vars ∨ x ∈ pairs.map (·.1) := by
      intro pairs
      induction pairs with
      | nil => exact fun vars h => .inl h
      | cons pair pairs ih =>
        intro vars h
        rw [List.foldl_cons] at h
        rcases ih _ h with h | h
        · dsimp only at h
          split at h
          · exact mem_insert_cases h
          · exact .inl h
        · exact .inr (List.mem_cons_of_mem _ h)
    rcases hfold _ _ h with h | h
    · exact .inl h
    · obtain ⟨pair, hpair, rfl⟩ := List.mem_map.mp h
      exact .inr (List.of_mem_zip hpair).1
  | popStorage res ty storage =>
    cases res with
    | none => exact .inl h
    | some res => exact mem_insert_cases h
  | popMemory res ty array =>
    by_cases hty : track ty = true
    · rw [show transfer ns order (.popMemory res ty array) vars = vars.insert res [.unknown (ty.bits ns)] from
        if_pos hty] at h
      exact mem_insert_cases h
    · exact .inl (by rwa [show transfer ns order (.popMemory res ty array) vars = vars from if_neg hty] at h)
  | _ => exact .inl h

/-! ## Termination -/

open Fuel

/-- The variables are some of these and the maps have less than this much left. -/
def Within (X B : Finset Nat) (n : Nat) (s : VarSets × BlockVars) : Prop :=
  (∀ x ∈ s.1, x ∈ X) ∧ potential X B s.2 < n

theorem follow_settles {enter : Nat → Nat → VarSets → BlockVars → Option (VarSets × BlockVars)}
    {n : Nat}
    (henter : ∀ b ∈ B, ∀ s, Within X B n s → ∃ r, Within X B n r ∧ Settles (fun fuel => enter fuel b s.1 s.2) r)
    (htargets : ∀ b ∈ instr.targets.getD [], b ∈ B) (s : VarSets × BlockVars) (hs : Within X B n s) :
    ∃ r, Within X B n r ∧ Settles (fun fuel => follow ns order (enter fuel) instr s.1 s.2) r := by
  cases instr with
  | branch block => exact henter block (htargets block List.mem_cons_self) s hs
  | branchCond cond trueBlock falseBlock =>
    have htrue := htargets trueBlock List.mem_cons_self
    have hfalse := htargets falseBlock (List.mem_cons_of_mem _ List.mem_cons_self)
    have hboth : ∃ r, Within X B n r ∧ Settles (fun fuel => do
        let (_, blockVars) ← enter fuel trueBlock s.1 s.2
        enter fuel falseBlock s.1 blockVars) r := by
      obtain ⟨r, hr, hsettles⟩ := henter trueBlock htrue s hs
      obtain ⟨r', hr', hsettles'⟩ := henter falseBlock hfalse (s.1, r.2) ⟨hs.1, hr.2⟩
      exact ⟨r', hr', hsettles.bind hsettles'⟩
    unfold follow
    dsimp only
    split
    next v =>
      split
      next =>
        refine henter _ ?_ s hs
        split
        · exact htrue
        · exact hfalse
      next => exact hboth
    next => exact hboth
  | _ => exact ⟨s, hs, settles_const s⟩

/-- Every call ends: where nothing changes at once, and else because the maps have less left for the calls that
it makes. -/
theorem reachingValues_settles (ns : Namespace) (cfg : ControlFlowGraph) (horder : ∀ set, (order set).Perm set)
    (hresults : ∀ b, ∀ instr ∈ (cfg.block b).instr, ∀ x ∈ instr.results, x ∈ X)
    (htargets : ∀ b, ∀ instr ∈ (cfg.block b).instr, ∀ e ∈ instr.targets.getD [], e ∈ B) (n : Nat) :
    ∀ b ∈ B, ∀ s, Within X B n s →
      ∃ r, Within X B n r ∧ Settles (fun fuel => reachingValues ns order cfg fuel b s.1 s.2) r := by
  induction n with
  | zero => exact fun b _ s hs => absurd hs.2 (Nat.not_lt_zero _)
  | succ n ih =>
    intro b hb s hs
    -- what the block is entered with, and that less is left if there are changes
    let entered : VarSets × Bool := match s.2.lookup b with
      | some map => mergeVars order s.1 map
      | none => (s.1, true)
    have hroom : entered.2 = true → mapRoom X entered.1 < blockRoom X (s.2.lookup b) := by
      intro hchanges
      cases hlookup : s.2.lookup b with
      | none =>
        simp only [entered, hlookup, blockRoom]
        exact Nat.lt_succ_of_le (mapRoom_le _)
      | some map =>
        simp only [entered, hlookup] at hchanges ⊢
        exact mergeVars_cases horder hs.1 map hchanges
    have hunfold : ∀ fuel, reachingValues ns order cfg (fuel + 1) b s.1 s.2 =
        if entered.2 then
          (cfg.block b).instr.foldlM (fun s instr =>
            follow ns order (reachingValues ns order cfg fuel) instr (transfer ns order instr s.1) s.2)
            (s.1, s.2.insert b entered.1)
        else some s := fun fuel => rfl
    cases hchanges : entered.2 with
    | false =>
      refine ⟨s, hs, (settles_const s).succ fun fuel => ?_⟩
      rw [hunfold, hchanges]
      rfl
    | true =>
      have hless := potential_insert_lt (X := X) hb (hroom hchanges)
      have hstart : Within X B n (s.1, s.2.insert b entered.1) := ⟨hs.1, by have := hs.2; dsimp only; omega⟩
      have hstep : ∀ instr ∈ (cfg.block b).instr, ∀ s, Within X B n s → ∃ r, Within X B n r ∧
          Settles (fun fuel =>
            follow ns order (reachingValues ns order cfg fuel) instr (transfer ns order instr s.1) s.2) r :=
        fun instr hinstr s hs => follow_settles ih (htargets b instr hinstr) (transfer ns order instr s.1, s.2)
          ⟨fun x hx => (mem_transfer hx).elim (hs.1 x) (hresults b instr hinstr x), hs.2⟩
      obtain ⟨r, hr, hsettles⟩ := settles_foldlM hstep _ hstart
      refine ⟨r, ⟨hr.1, hr.2.trans (Nat.lt_succ_self n)⟩, hsettles.succ fun fuel => ?_⟩
      rw [hunfold, hchanges]
      rfl

/-- Whatever the edges are, the traversal ends from any variables and any maps of the blocks. -/
theorem reachingValues_terminates (ns : Namespace) (cfg : ControlFlowGraph)
    (horder : ∀ set, (order set).Perm set) (blockNo : Nat) (vars : VarSets) (blockVars : BlockVars) :
    ∃ r, Settles (fun fuel => reachingValues ns order cfg fuel blockNo vars blockVars) r := by
  let instrs := cfg.blocks.flatMap (·.instr)
  have hmem : ∀ b, ∀ instr ∈ (cfg.block b).instr, instr ∈ instrs := by
    intro b instr hinstr
    by_cases hb : b < cfg.blocks.length
    · rw [ControlFlowGraph.block_of_lt hb] at hinstr
      exact List.mem_flatMap.mpr ⟨_, List.getElem_mem hb, hinstr⟩
    · rw [ControlFlowGraph.block_of_le (Nat.le_of_not_lt hb)] at hinstr
      cases hinstr
  let X := (vars.keys ++ instrs.flatMap Instr.results).toFinset
  let B := (blockNo :: instrs.flatMap fun instr => instr.targets.getD []).toFinset
  obtain ⟨r, -, hsettles⟩ := reachingValues_settles ns cfg (X := X) (B := B) horder
    (fun b instr hinstr x hx => List.mem_toFinset.mpr
      (List.mem_append_right _ (List.mem_flatMap.mpr ⟨instr, hmem b instr hinstr, hx⟩)))
    (fun b instr hinstr e he => List.mem_toFinset.mpr
      (List.mem_cons_of_mem _ (List.mem_flatMap.mpr ⟨instr, hmem b instr hinstr, he⟩)))
    (potential X B blockVars + 1) blockNo (List.mem_toFinset.mpr List.mem_cons_self) (vars, blockVars)
    ⟨fun x hx => List.mem_toFinset.mpr (List.mem_append_left _ (AList.mem_keys.mp hx)), Nat.lt_succ_self _⟩
  exact ⟨r, hsettles⟩

namespace Sample

/-- `for (uint256 i = 0;; i++)`, with another block that enters the loop in the middle -/
def counting : ControlFlowGraph where
  blocks := [
    { instr := [.set 0 (.numberLiteral (.uint 256) 0), .branchCond (.variable .bool 1) 1 2] },
    { instr := [.set 0 (.binary (.add (.uint 256) true) (.variable (.uint 256) 0) (.numberLiteral (.uint 256) 1)),
        .branch 2] },
    { instr := [.branch 1] }]

theorem counting_settles :
    ∃ r, Settles (fun fuel => reachingValues wasm id counting fuel 0 (AList.insert 1 [.unknown 1] ∅) ∅) r :=
  reachingValues_terminates wasm counting (fun _ => .refl _) 0 _ _

end Sample

end Solang.Codegen.StrengthReduce
