import Solang.Sema.Format

/-!
# Which format strings are spelled as they read

The iterator ends at the first empty literal behind the first one, and the loop keeps no brace for
`\x7b\x7b`. On what the iterator gives, the loop accepts the text and the arguments if the text
spells an output with them, and otherwise it stops at the first brace that is malformed there.
-/

namespace Solang.Sema.Format

open Solang.Parser (Loc)

/-! ## What the iterator gives -/

/-- The characters of a literal from this offset on -/
def locate (loc : Loc) : Nat → Text → List Item
  | _, [] => []
  | offset, ch :: q => (⟨loc.start + offset, loc.stop⟩, ch) :: locate loc (offset + ch.utf8Size) q

def StringLiteral.items (sl : StringLiteral) : List Item := locate sl.loc 0 sl.string

/-- The literals that the iterator comes to -/
def visible : List StringLiteral → List StringLiteral
  | [] => []
  | sl :: literals => sl :: literals.takeWhile (!·.string.isEmpty)

namespace FormatIterator

theorem items_of_some {it it' : FormatIterator} {item : Item} (h : it.next = some (item, it')) :
    it.items = item :: it'.items := by
  rw [items]
  split
  · rename_i hnone
    rw [h] at hnone
    cases hnone
  · rename_i hsome
    rw [h] at hsome
    cases hsome
    rfl

theorem items_of_none {it : FormatIterator} (h : it.next = none) : it.items = [] := by
  rw [items]
  split
  · rfl
  · rename_i hsome
    rw [h] at hsome
    cases hsome

theorem items_eq (literals : List StringLiteral) (loc : Loc) (offset : Nat) (q : Text) :
    items ⟨literals, loc, ⟨q, offset⟩⟩ =
      locate loc offset q ++ (literals.takeWhile (!·.string.isEmpty)).flatMap (·.items) := by
  induction literals generalizing loc offset q with
  | nil =>
    induction q generalizing offset with
    | nil => exact items_of_none rfl
    | cons ch q ih =>
      rw [items_of_some rfl, ih]
      rfl
  | cons sl literals ih =>
    induction q generalizing offset with
    | nil =>
      obtain ⟨l, _ | ⟨ch, q⟩⟩ := sl
      · exact items_of_none rfl
      · rw [items_of_some rfl]
        exact congrArg (List.cons _) (ih l (0 + ch.utf8Size) q)
    | cons ch q ihq =>
      rw [items_of_some rfl, ihq]
      rfl

theorem items_new (sl : StringLiteral) (literals : List StringLiteral) :
    (new sl literals).items = (visible (sl :: literals)).flatMap (·.items) :=
  items_eq literals sl.loc 0 sl.string

end FormatIterator

/-! ## The literal of a character -/

/-- The text of the literals -/
def text (literals : List StringLiteral) : Text := literals.flatMap (·.string)

def literalAt : List StringLiteral → Nat → Option StringLiteral
  | [], _ => none
  | sl :: literals, i => if i < sl.string.length then some sl else literalAt literals (i - sl.string.length)

@[simp] theorem text_cons (sl : StringLiteral) (literals : List StringLiteral) :
    text (sl :: literals) = sl.string ++ text literals := rfl

@[simp] theorem text_append (l l' : List StringLiteral) : text (l ++ l') = text l ++ text l' := List.flatMap_append

variable {l l' : List StringLiteral} {i : Nat} {item : Item}

theorem literalAt_append_of_lt (h : i < (text l).length) :
    literalAt (l ++ l') i = literalAt l i := by
  induction l generalizing i with
  | nil => cases h
  | cons sl l ih =>
    rw [text_cons, List.length_append] at h
    rw [List.cons_append, literalAt, literalAt]
    split
    · rfl
    · exact ih (by omega)

theorem literalAt_append_of_le (h : (text l).length ≤ i) :
    literalAt (l ++ l') i = literalAt l' (i - (text l).length) := by
  induction l generalizing i with
  | nil => rfl
  | cons sl l ih =>
    rw [text_cons, List.length_append] at h
    rw [List.cons_append, literalAt, if_neg (by omega), ih (by omega), text_cons, List.length_append, Nat.sub_sub]

theorem mem_of_literalAt {sl : StringLiteral} (h : literalAt l i = some sl) :
    sl ∈ l := by
  induction l generalizing i with
  | nil => cases h
  | cons sl' l ih =>
    rw [literalAt] at h
    split at h
    · cases h
      exact List.mem_cons_self
    · exact List.mem_cons_of_mem _ (ih h)

/-- The location of a character of the literal: the offset is right, and the end is that of the literal. -/
def StringLiteral.Locates (sl : StringLiteral) (loc : Loc) : Prop :=
  sl.loc.start ≤ loc.start ∧ loc.start < sl.loc.start + sl.string.size ∧ loc.stop = sl.loc.stop

theorem locate_chars (loc : Loc) (offset : Nat) (q : Text) : (locate loc offset q).map (·.2) = q := by
  induction q generalizing offset with
  | nil => rfl
  | cons ch q ih => rw [locate, List.map_cons, ih]

theorem locate_loc {loc : Loc} {offset : Nat} {q : Text} (h : item ∈ locate loc offset q) :
    loc.start + offset ≤ item.1.start ∧ item.1.start < loc.start + offset + q.size ∧ item.1.stop = loc.stop := by
  induction q generalizing offset with
  | nil => cases h
  | cons ch q ih =>
    have hch := ch.utf8Size_pos
    rw [Text.size_cons]
    rcases List.mem_cons.mp h with rfl | h
    · exact ⟨Nat.le_refl _, by simp only; omega, rfl⟩
    · obtain ⟨hle, hlt, hstop⟩ := ih h
      exact ⟨by omega, by omega, hstop⟩

theorem chars_items (l : List StringLiteral) : (l.flatMap (·.items)).map (·.2) = text l := by
  induction l with
  | nil => rfl
  | cons sl l ih => rw [List.flatMap_cons, List.map_append, ih, text_cons, StringLiteral.items, locate_chars]

theorem locates_of_items (h : (l.flatMap (·.items))[i]? = some item) :
    ∃ sl, literalAt l i = some sl ∧ sl.Locates item.1 := by
  induction l generalizing i with
  | nil => cases h
  | cons sl l ih =>
    have hlen : sl.items.length = sl.string.length := by
      have := congrArg List.length (locate_chars sl.loc 0 sl.string)
      rwa [List.length_map] at this
    rw [List.flatMap_cons, List.getElem?_append, hlen] at h
    rw [literalAt]
    split
    · rename_i hi
      rw [if_pos hi] at h
      exact ⟨sl, rfl, locate_loc (List.mem_of_getElem? h)⟩
    · rename_i hi
      rw [if_neg hi] at h
      exact ih h

/-! ## Specifiers -/

def chars (items : List Item) : Text := items.map (·.2)

theorem specifier_unique {s s' q q' : Text} {f f' : FormatArg} (h : Specifier s f) (h' : Specifier s' f')
    (heq : s ++ '}' :: q = s' ++ '}' :: q') : f = f' ∧ q = q' := by
  cases h <;> cases h' <;> simp_all

theorem not_specifier_openBrace {s q q' : Text} {f : FormatArg} (h : Specifier s f) :
    s ++ '}' :: q ≠ '{' :: q' := by
  cases h <;> simp

theorem exists_of_chars {items : List Item} {ch : Char} {q : Text} (h : chars items = ch :: q) :
    ∃ l items', items = (l, ch) :: items' ∧ chars items' = q := by
  obtain ⟨⟨l, c⟩, items', hitems, hc, hq⟩ := List.map_eq_cons_iff.mp h
  exact ⟨l, items', hitems.trans (by rw [← hc]), hq⟩

/-- A specifier is read as it is. -/
theorem parseFormatSpecifier_eq {s q : Text} {f : FormatArg} (h : Specifier s f) {items : List Item}
    (loc : Loc) (hitems : chars items = s ++ '}' :: q) :
    parseFormatSpecifier loc items = .ok (f, items.drop (s.length + 1)) := by
  cases h with
  | empty =>
    obtain ⟨l, items, rfl, -⟩ := exists_of_chars hitems
    rfl
  | colon =>
    obtain ⟨l, items, rfl, h1⟩ := exists_of_chars hitems
    obtain ⟨l, items, rfl, -⟩ := exists_of_chars h1
    rfl
  | hex | binary =>
    obtain ⟨l, items, rfl, h1⟩ := exists_of_chars hitems
    obtain ⟨l, items, rfl, h2⟩ := exists_of_chars h1
    obtain ⟨l, items, rfl, -⟩ := exists_of_chars h2
    rfl

/-- Where a malformed brace is reported: the character that does not fit. A text that ends too early
is reported at its brace, or at the format character. -/
def blamed : Text → Nat
  | '{' :: ':' :: 'x' :: _ :: _ => 3
  | '{' :: ':' :: 'b' :: _ :: _ => 3
  | '{' :: ':' :: _ :: _ => 2
  | ['{', ':'] => 0
  | '{' :: _ :: _ => 1
  | _ => 0

/-- What is read as a specifier, or where it goes wrong -/
def SpecifierRead (loc : Loc) (items : List Item) : Except Diagnostic (FormatArg × List Item) → Prop
  | .ok (f, items') => ∃ s, Specifier s f ∧ chars items = s ++ '}' :: chars items'
  | .error e => e.error.isOfBrace = true ∧
      ((loc, '{') :: items)[blamed ('{' :: chars items)]?.map (·.1) = some e.loc

/-- The end of a specifier behind the format character that stands at `l` -/
theorem closingBrace_read {f : FormatArg} {ch : Char} (hs : Specifier [':', ch] f)
    (hblamed : ∀ c q, blamed ('{' :: ':' :: ch :: c :: q) = 3) (hend : blamed ['{', ':', ch] = 2)
    (loc l l' : Loc) (items : List Item) :
    SpecifierRead loc ((l, ':') :: (l', ch) :: items) (closingBrace f l' items) := by
  rcases items with _ | ⟨⟨l'', c⟩, items⟩
  · refine ⟨rfl, ?_⟩
    change (((loc, '{') :: (l, ':') :: (l', ch) :: [])[blamed ['{', ':', ch]]?).map (·.1) = some l'
    rw [hend]
    rfl
  · by_cases hc : c = '}'
    · rw [closingBrace, if_pos hc]
      exact ⟨_, hs, by rw [hc]; rfl⟩
    · rw [closingBrace, if_neg hc]
      refine ⟨rfl, ?_⟩
      change (((loc, '{') :: (l, ':') :: (l', ch) :: (l'', c) :: items)[blamed
        ('{' :: ':' :: ch :: c :: chars items)]?).map (·.1) = some l''
      rw [hblamed]
      rfl

theorem parseFormatSpecifier_read (loc : Loc) (items : List Item) :
    SpecifierRead loc items (parseFormatSpecifier loc items) := by
  unfold parseFormatSpecifier
  rcases items with _ | ⟨⟨l, ch⟩, items⟩
  · exact ⟨rfl, rfl⟩
  · by_cases hclose : ch = '}'
    · simp only [if_pos hclose]
      exact ⟨[], .empty, by rw [hclose]; rfl⟩
    · by_cases hcolon : ch = ':'
      · subst hcolon
        simp only [if_neg hclose, if_true]
        rcases items with _ | ⟨⟨l', ch⟩, items⟩
        · exact ⟨rfl, rfl⟩
        · by_cases hx : ch = 'x'
          · subst hx
            simp only [if_true]
            exact closingBrace_read .hex (fun _ _ => rfl) rfl loc l l' items
          · by_cases hb : ch = 'b'
            · subst hb
              simp only [if_neg hx, if_true]
              exact closingBrace_read .binary (fun _ _ => rfl) rfl loc l l' items
            · by_cases hclose : ch = '}'
              · simp only [if_neg hx, if_neg hb, if_pos hclose]
                exact ⟨[':'], .colon, by rw [hclose]; rfl⟩
              · simp only [if_neg hx, if_neg hb, if_neg hclose]
                have hblamed : blamed ('{' :: ':' :: ch :: chars items) = 2 := by
                  simp [blamed, hx, hb]
                refine ⟨rfl, ?_⟩
                change ((_ :: (l, ':') :: (l', ch) :: items)[blamed ('{' :: ':' :: ch :: chars items)]?).map (·.1) = some l'
                rw [hblamed]
                rfl
      · simp only [if_neg hclose, if_neg hcolon]
        have hblamed : blamed ('{' :: ch :: chars items) = 1 := by
          simp [blamed, hcolon]
        refine ⟨rfl, ?_⟩
        change ((_ :: (l, ch) :: items)[blamed ('{' :: ch :: chars items)]?).map (·.1) = some l
        rw [hblamed]
        rfl

/-! ## The loop -/

section

variable {E : Type} {callLoc : Loc} {items items' : List Item} {args args' : List (Argument E)}
  {pieces : List (Piece E)} {string : Text} {out : List (Output E)}

/-- The specifiers are formats for the types of their arguments. -/
def Fits (out : List (Output E)) : Prop :=
  ∀ f arg, .arg f arg ∈ out → checkArgument f arg.ty.derefAny = none

theorem Fits.tail {o : Output E} (h : Fits (o :: out)) : Fits out := fun f arg ho => h f arg (List.mem_cons_of_mem _ ho)

theorem Fits.char (h : Fits out) (ch : Char) : Fits (.char ch :: out) := fun f arg ho =>
  h f arg ((List.mem_cons.mp ho).resolve_left nofun)

theorem Fits.arg {f : FormatArg} {arg : Argument E} (h : Fits out)
    (harg : checkArgument f arg.ty.derefAny = none) : Fits (.arg f arg :: out) := by
  intro f' arg' ho
  rcases List.mem_cons.mp ho with ho | ho
  · cases ho
    exact harg
  · exact h f' arg' ho

def Output.isOpenBrace : Output E → Bool
  | .char ch => ch = '{'
  | .arg .. => false

/-- What the loop keeps of an output -/
def kept (out : List (Output E)) : List (Output E) := out.filter (!·.isOpenBrace)

theorem kept_cons {o : Output E} (h : o.isOpenBrace = false) (out : List (Output E)) :
    kept (o :: out) = o :: kept out := List.filter_cons_of_pos (by rw [h]; rfl)

theorem kept_openBrace (out : List (Output E)) : kept (.char '{' :: out) = kept out :=
  List.filter_cons_of_neg (by simp [Output.isOpenBrace])

/-- What the loop has output -/
def written (pieces : List (Piece E)) (string : Text) : List (Output E) :=
  pieces.flatMap (·.output) ++ string.map .char

theorem written_pushLiteral (loc : Loc) (pieces : List (Piece E)) (string : Text) :
    written (pushLiteral loc string pieces) [] = written pieces string := by
  unfold written pushLiteral
  cases string <;> simp [Piece.output]

theorem written_arg (loc : Loc) (f : FormatArg) (arg : Argument E) :
    written (pushLiteral loc string pieces ++ [.arg f arg]) [] = written pieces string ++ [.arg f arg] := by
  rw [← written_pushLiteral loc pieces string]
  simp [written, Piece.output]

theorem written_char (ch : Char) : written pieces (string ++ [ch]) = written pieces string ++ [.char ch] := by
  simp [written]

theorem formatLoop_char {ch : Char} (hopen : ch ≠ '{') (hclose : ch ≠ '}') (loc : Loc) :
    formatLoop callLoc ((loc, ch) :: items) args pieces string =
      formatLoop callLoc items args pieces (string ++ [ch]) := by
  rw [formatLoop.eq_def]
  simp only [if_neg hclose, if_neg hopen]

theorem formatLoop_closeBrace (l l' : Loc) :
    formatLoop callLoc ((l, '}') :: (l', '}') :: items) args pieces string =
      formatLoop callLoc items args pieces (string ++ ['}']) := by
  rw [formatLoop.eq_def]
  rfl

theorem formatLoop_openBrace (l l' : Loc) :
    formatLoop callLoc ((l, '{') :: (l', '{') :: items) args pieces string =
      formatLoop callLoc items args pieces string := by
  rw [formatLoop.eq_def]
  rfl

theorem head_ne {q : Text} (h : chars items = q) (hq : q.head? ≠ some '{') : items.head?.map (·.2) ≠ some '{' := by
  rwa [← List.head?_map, show items.map (·.2) = q from h]

theorem formatLoop_specifier {s q : Text} {f : FormatArg} {arg : Argument E} (hs : Specifier s f)
    (hitems : chars items = s ++ '}' :: q) (harg : checkArgument f arg.ty.derefAny = none) (loc : Loc) :
    formatLoop callLoc ((loc, '{') :: items) (arg :: args) pieces string =
      formatLoop callLoc (items.drop (s.length + 1)) args (pushLiteral loc string pieces ++ [.arg f arg]) [] := by
  have hhead : items.head?.map (·.2) ≠ some '{' := by
    refine head_ne hitems ?_
    cases hs <;> simp
  have hparse := parseFormatSpecifier_eq hs loc hitems
  rw [formatLoop.eq_def]
  simp only [if_neg (show ¬ '{' = '}' by decide), if_true, if_neg hhead]
  split
  · rename_i h
    rw [hparse] at h
    cases h
  · rename_i h
    rw [hparse] at h
    cases h
    simp only [harg]

variable {p q : Text} {sl : StringLiteral} {loc : Loc}

/-- The loop reads what spells an output. -/
theorem formatLoop_spells (h : Spells p args out) (hfits : Fits out) (callLoc : Loc)
    (rest : List (Argument E)) (pieces : List (Piece E)) (string : Text)
    (hitems : chars items = p ++ q) :
    ∃ pieces' string', formatLoop callLoc items (args ++ rest) pieces string =
        formatLoop callLoc (items.drop p.length) rest pieces' string' ∧
      written pieces' string' = written pieces string ++ kept out := by
  induction h generalizing items pieces string with
  | nil => exact ⟨pieces, string, rfl, (List.append_nil _).symm⟩
  | @char ch p args out hopen hclose h ih =>
    obtain ⟨l, items, rfl, h1⟩ := exists_of_chars hitems
    obtain ⟨pieces', string', hrun, hout⟩ := ih hfits.tail
      pieces (string ++ [ch]) h1
    refine ⟨pieces', string', ?_, ?_⟩
    · rw [formatLoop_char hopen hclose, hrun]
      rfl
    · rw [hout, written_char, kept_cons (o := .char ch) (decide_eq_false hopen), List.append_assoc]
      rfl
  | @openBrace p args out h ih =>
    obtain ⟨l, items, rfl, h1⟩ := exists_of_chars hitems
    obtain ⟨l', items, rfl, h2⟩ := exists_of_chars h1
    obtain ⟨pieces', string', hrun, hout⟩ := ih hfits.tail
      pieces string h2
    refine ⟨pieces', string', ?_, ?_⟩
    · rw [formatLoop_openBrace, hrun]
      rfl
    · rw [hout, kept_openBrace]
  | @closeBrace p args out h ih =>
    obtain ⟨l, items, rfl, h1⟩ := exists_of_chars hitems
    obtain ⟨l', items, rfl, h2⟩ := exists_of_chars h1
    obtain ⟨pieces', string', hrun, hout⟩ := ih hfits.tail
      pieces (string ++ ['}']) h2
    refine ⟨pieces', string', ?_, ?_⟩
    · rw [formatLoop_closeBrace, hrun]
      rfl
    · rw [hout, written_char, kept_cons rfl, List.append_assoc]
      rfl
  | @arg s f p arg args out hs h ih =>
    obtain ⟨l, items, rfl, h1⟩ := exists_of_chars hitems
    have hspec : chars items = s ++ '}' :: (p ++ q) := by simpa using h1
    have hdrop : chars (items.drop (s.length + 1)) = p ++ q := by
      unfold chars at hspec ⊢
      rw [List.map_drop, hspec, List.drop_append]
      simp
    obtain ⟨pieces', string', hrun, hout⟩ := ih hfits.tail
      (pushLiteral l string pieces ++ [.arg f arg]) [] hdrop
    refine ⟨pieces', string', ?_, ?_⟩
    · rw [List.cons_append, formatLoop_specifier hs hspec (hfits f arg List.mem_cons_self), hrun, List.drop_drop]
      have hlen : ('{' :: (s ++ '}' :: p)).length = s.length + 1 + p.length + 1 := by
        simp
        omega
      rw [hlen, List.drop_succ_cons]
    · rw [hout, written_arg, kept_cons rfl, List.append_assoc]
      rfl

/-- What the loop accepts spells an output. -/
theorem spells_of_ok {r : List (Piece E)} (h : formatLoop callLoc items args pieces string = .ok r) :
    ∃ out, Spells (chars items) args out ∧ Fits out ∧ r.flatMap (·.output) = written pieces string ++ kept out := by
  fun_induction formatLoop callLoc items args pieces string with
  | case1 args pieces string hargs =>
    obtain rfl : args = [] := List.isEmpty_iff.mp hargs
    cases h
    refine ⟨[], .nil, fun _ _ h => absurd h List.not_mem_nil, ?_⟩
    have := written_pushLiteral callLoc pieces string
    simpa [written, kept] using this
  | case3 args pieces string loc l items ih =>
    obtain ⟨out, hspells, hfits, hr⟩ := ih h
    refine ⟨.char '}' :: out, .closeBrace hspells, hfits.char '}', ?_⟩
    rw [hr, written_char, kept_cons rfl, List.append_assoc]
    rfl
  | case6 args pieces string loc items hhead hne ih =>
    obtain ⟨out, hspells, hfits, hr⟩ := ih h
    rcases items with _ | ⟨⟨l, ch⟩, items⟩
    · cases hhead
    · obtain rfl : ch = '{' := Option.some.inj hhead
      refine ⟨.char '{' :: out, .openBrace hspells, hfits.char '{', ?_⟩
      rw [hr, kept_openBrace]
  | case10 pieces string loc items hhead specifier items' hparse arg args hcheck hne ih =>
    obtain ⟨out, hspells, hfits, hr⟩ := ih h
    have hread := parseFormatSpecifier_read loc items
    rw [hparse] at hread
    obtain ⟨s, hs, hitems⟩ := hread
    refine ⟨.arg specifier arg :: out, ?_, hfits.arg hcheck, ?_⟩
    · change Spells ('{' :: chars items) _ _
      rw [hitems]
      exact .arg hs hspells
    · rw [hr, written_arg, kept_cons rfl, List.append_assoc]
      rfl
  | case11 args pieces string loc ch items hclose hopen ih =>
    obtain ⟨out, hspells, hfits, hr⟩ := ih h
    refine ⟨.char ch :: out, .char hopen hclose hspells, hfits.char ch, ?_⟩
    rw [hr, written_char, kept_cons (o := .char ch) (decide_eq_false hopen), List.append_assoc]
    rfl
  | case2 | case4 | case5 | case7 | case8 | case9 => cases h

theorem checkArgument_not_brace {f : FormatArg} {ty : Ty} {e : FormatError} (h : checkArgument f ty = some e) :
    e.isOfBrace = false := by
  unfold checkArgument at h
  split at h <;> split at h <;> cases h <;> rfl

/-- A report about a brace is at a character of the text. -/
theorem mem_of_error {e : Diagnostic} (h : formatLoop callLoc items args pieces string = .error e)
    (he : e.error.isOfBrace = true) : e.loc ∈ items.map (·.1) := by
  fun_induction formatLoop callLoc items args pieces string with
  | case1 => cases h
  | case2 | case8 =>
    cases h
    cases he
  | case3 args pieces string loc l items ih => exact List.mem_cons_of_mem _ (List.mem_cons_of_mem _ (ih h))
  | case4 | case5 =>
    cases h
    exact List.mem_cons_self
  | case6 args pieces string loc items hhead hne ih =>
    have hmem := ih h
    rw [List.map_tail] at hmem
    exact List.mem_cons_of_mem _ (List.mem_of_mem_tail hmem)
  | case7 args pieces string loc items hhead e' hparse hne =>
    cases h
    have hread := parseFormatSpecifier_read loc items
    rw [hparse] at hread
    obtain ⟨item, hitem, hloc⟩ := Option.map_eq_some_iff.mp hread.2
    rw [← hloc]
    exact List.mem_map_of_mem (List.mem_of_getElem? hitem)
  | case9 pieces string loc items hhead specifier items' hparse arg args e' hcheck hne =>
    cases h
    rw [checkArgument_not_brace hcheck] at he
    cases he
  | case10 pieces string loc items hhead specifier items' hparse arg args hcheck hne ih =>
    have hread := parseFormatSpecifier_read loc items
    rw [hparse] at hread
    obtain ⟨s, hs, hitems⟩ := hread
    rw [parseFormatSpecifier_eq hs loc hitems] at hparse
    cases hparse
    have hmem := ih h
    rw [List.map_drop] at hmem
    exact List.mem_cons_of_mem _ (List.mem_of_mem_drop hmem)
  | case11 args pieces string loc ch items hclose hopen ih => exact List.mem_cons_of_mem _ (ih h)

theorem malformed_specifier (loc : Loc) (h : Malformed ('{' :: chars items)) :
    ∃ e : Diagnostic, parseFormatSpecifier loc items = .error e ∧ e.error.isOfBrace = true ∧
      ((loc, '{') :: items)[blamed ('{' :: chars items)]?.map (·.1) = some e.loc := by
  have hread := parseFormatSpecifier_read loc items
  cases hparse : parseFormatSpecifier loc items with
  | error e =>
    rw [hparse] at hread
    exact ⟨e, rfl, hread⟩
  | ok r =>
    rw [hparse] at hread
    obtain ⟨s, hs, hitems⟩ := hread
    cases h with
    | opening h hs' => exact absurd hitems (hs' s r.1 _ hs)

/-- The loop stops at a malformed brace. -/
theorem formatLoop_malformed (h : Malformed (chars items)) (callLoc : Loc) (args : List (Argument E))
    (pieces : List (Piece E)) (string : Text) : ∃ e : Diagnostic,
    formatLoop callLoc items args pieces string = .error e ∧ e.error.isOfBrace = true ∧
      items[blamed (chars items)]?.map (·.1) = some e.loc := by
  generalize hq : chars items = q at h
  cases h with
  | @closing q h =>
    obtain ⟨l, items, rfl, rfl⟩ := exists_of_chars hq
    refine ⟨⟨l, .unmatched⟩, ?_, rfl, rfl⟩
    rw [formatLoop.eq_def]
    rcases items with _ | ⟨⟨l', ch⟩, items⟩
    · rfl
    · have hch : ch ≠ '}' := fun hch => h (congrArg some hch)
      simp only [if_true, if_neg hch]
  | @opening q h hs =>
    obtain ⟨l, items, rfl, rfl⟩ := exists_of_chars hq
    obtain ⟨e, hparse, he⟩ := malformed_specifier l (.opening h hs)
    refine ⟨e, ?_, he⟩
    rw [formatLoop.eq_def]
    simp only [if_neg (show ¬ '{' = '}' by decide), if_true, if_neg (head_ne rfl h)]
    split
    · rename_i h'
      rw [hparse] at h'
      cases h'
      rfl
    · rename_i h'
      rw [hparse] at h'
      cases h'

/-! ## One reading of a text -/

theorem Spells.append_inv {rest : List (Argument E)} {out' : List (Output E)}
    (h : Spells p args out) (h' : Spells (p ++ q) (args ++ rest) out') :
    ∃ out'', out' = out ++ out'' ∧ Spells q rest out'' := by
  induction h generalizing out' with
  | nil => exact ⟨out', rfl, h'⟩
  | @char ch p args out hopen hclose h ih =>
    generalize ht : ch :: p ++ q = t at h'
    generalize hargs : args ++ rest = all at h'
    cases h' with
    | nil => cases ht
    | char _ _ h' =>
      obtain ⟨rfl, rfl⟩ := List.cons.inj ht
      subst hargs
      obtain ⟨out'', rfl, hq⟩ := ih h'
      exact ⟨out'', rfl, hq⟩
    | openBrace | arg => exact absurd (List.cons.inj ht).1 hopen
    | closeBrace => exact absurd (List.cons.inj ht).1 hclose
  | @openBrace p args out h ih =>
    generalize ht : '{' :: '{' :: p ++ q = t at h'
    generalize hargs : args ++ rest = all at h'
    cases h' with
    | nil | closeBrace => cases ht
    | char hopen => exact absurd (List.cons.inj ht).1.symm hopen
    | openBrace h' =>
      cases ht
      subst hargs
      obtain ⟨out'', rfl, hq⟩ := ih h'
      exact ⟨out'', rfl, hq⟩
    | arg hs => exact absurd (List.cons.inj ht).2.symm (not_specifier_openBrace hs)
  | @closeBrace p args out h ih =>
    generalize ht : '}' :: '}' :: p ++ q = t at h'
    generalize hargs : args ++ rest = all at h'
    cases h' with
    | nil | openBrace => cases ht
    | char _ hclose => exact absurd (List.cons.inj ht).1.symm hclose
    | closeBrace h' =>
      cases ht
      subst hargs
      obtain ⟨out'', rfl, hq⟩ := ih h'
      exact ⟨out'', rfl, hq⟩
    | arg => cases ht
  | @arg s f p arg args out hs h ih =>
    generalize ht : '{' :: (s ++ '}' :: p) ++ q = t at h'
    generalize hargs : arg :: args ++ rest = all at h'
    have ht' : '{' :: (s ++ '}' :: (p ++ q)) = t := by simpa using ht
    cases h' with
    | nil => cases ht
    | char hopen => exact absurd (List.cons.inj ht').1.symm hopen
    | openBrace => exact absurd (List.cons.inj ht').2 (not_specifier_openBrace hs)
    | closeBrace => cases ht'
    | arg hs' h' =>
      obtain ⟨rfl, rfl⟩ := specifier_unique hs hs' (List.cons.inj ht').2
      obtain ⟨rfl, rfl⟩ := List.cons.inj hargs
      obtain ⟨out'', rfl, hq⟩ := ih h'
      exact ⟨out'', rfl, hq⟩

theorem head?_append_of_some {ch : Char} (h : q.head? = some ch) (q' : Text) :
    (q ++ q').head? = some ch := by
  rw [List.head?_append, h]
  rfl

theorem Malformed.of_append {q' : Text} (h : Malformed (q ++ q')) (hq : q ≠ []) : Malformed q := by
  obtain ⟨ch, q, rfl⟩ := List.exists_cons_of_ne_nil hq
  generalize ht : ch :: q ++ q' = t at h
  cases h with
  | closing h =>
    obtain ⟨rfl, rfl⟩ := List.cons.inj ht
    exact .closing fun hhead => h (head?_append_of_some hhead q')
  | opening h hs =>
    obtain ⟨rfl, rfl⟩ := List.cons.inj ht
    refine .opening (fun hhead => h (head?_append_of_some hhead q')) fun s f q'' hs' hq => hs s f (q'' ++ q') hs' ?_
    rw [hq]
    exact List.append_assoc s _ q'

/-- Nothing keeps a text without a character. -/
theorem Spells.eq_nil (h : Spells q args []) : q = [] := by
  cases h
  rfl

/-! ## What is spelled as it reads -/

/-- The places of the literals in their file: in order, and with their text inside -/
structure Placed (literals : List StringLiteral) : Prop where
  ordered : literals.Pairwise fun a b => a.loc.stop ≤ b.loc.start
  inside : ∀ sl ∈ literals, sl.loc.start + sl.string.size < sl.loc.stop

def Within (l l' : Loc) : Prop := l'.start ≤ l.start ∧ l.stop ≤ l'.stop

/-- The first malformed brace of the text is behind `p`, and the arguments fit what is before it. -/
structure Broken (literals : List StringLiteral) (args : List (Argument E)) (p : Text) : Prop where
  malformed : ∃ q, text literals = p ++ q ∧ Malformed q
  spells : ∃ args' args'' out, args = args' ++ args'' ∧ Spells p args' out ∧ Fits out

/-- What is accepted is spelled, and the malformed brace is reported in its literal. -/
def Faithful (loc : Loc) (literals : List StringLiteral) (args : List (Argument E)) : Prop :=
  (∀ pieces, stringFormat loc literals args = some (.ok pieces) →
    Spells (text literals) args (pieces.flatMap (·.output))) ∧
  ∀ p, Broken literals args p → ∃ sl e, literalAt literals p.length = some sl ∧
    stringFormat loc literals args = some (.error e) ∧ e.error.isOfBrace = true ∧ Within e.loc sl.loc

/-- If the text that the iterator comes to spells an output with the arguments then it is the whole text and has
no `{{`. A malformed brace is in that text, in one literal with the character where it is reported. -/
def Met (literals : List StringLiteral) (args : List (Argument E)) : Prop :=
  (∀ out, Spells (text (visible literals)) args out → Fits out →
    text (visible literals) = text literals ∧ .char '{' ∉ out) ∧
  ∀ p, Broken literals args p → ∃ q, q ≠ [] ∧ text (visible literals) = p ++ q ∧
    literalAt literals (p.length + blamed q) = literalAt literals p.length

/-- The text of the literals that the iterator comes to is the first part of the text. -/
theorem exists_visible_append (literals : List StringLiteral) : ∃ rest, literals = visible literals ++ rest := by
  cases literals with
  | nil => exact ⟨[], rfl⟩
  | cons sl literals =>
    exact ⟨literals.dropWhile (!·.string.isEmpty), congrArg _ List.takeWhile_append_dropWhile.symm⟩

theorem Placed.apart {literals : List StringLiteral} (h : Placed literals) {a b : StringLiteral} (ha : a ∈ literals)
    (hb : b ∈ literals) : a = b ∨ a.loc.stop ≤ b.loc.start ∨ b.loc.stop ≤ a.loc.start := by
  refine List.Pairwise.forall_of_forall_of_flip
    (R := fun a b : StringLiteral => a = b ∨ a.loc.stop ≤ b.loc.start ∨ b.loc.stop ≤ a.loc.start) ?_ ?_ ?_ ha hb
  · exact fun x _ => .inl rfl
  · exact h.ordered.imp fun h => .inr (.inl h)
  · exact h.ordered.imp fun h => .inr (.inr h)

/-- The literal that a character's location is in is the one it stands in. -/
theorem Placed.eq_of_within {literals : List StringLiteral} (h : Placed literals)
    {sl' : StringLiteral} (hsl : sl ∈ literals) (hsl' : sl' ∈ literals) (hloc : sl'.Locates loc)
    (hwithin : Within loc sl.loc) : sl' = sl := by
  obtain ⟨hstart, hend, hstop⟩ := hloc
  obtain ⟨hle, hge⟩ := hwithin
  have hin := h.inside sl hsl
  have hin' := h.inside sl' hsl'
  rcases h.apart hsl' hsl with h | h | h
  · exact h
  · omega
  · omega

theorem StringLiteral.Locates.within (h : sl.Locates loc) : Within loc sl.loc :=
  ⟨h.1, Nat.le_of_eq h.2.2⟩

/-- The items of the iterator -/
theorem stringFormat_eq (loc : Loc) {literals : List StringLiteral} (h : literals ≠ []) (args : List (Argument E)) :
    stringFormat loc literals args =
      some (formatLoop loc ((visible literals).flatMap (·.items)) args [] []) := by
  obtain ⟨sl, literals, rfl⟩ := List.exists_cons_of_ne_nil h
  rw [stringFormat, FormatIterator.items_new]

/-- Where the malformed brace is reported -/
theorem stringFormat_broken {literals : List StringLiteral} (h : Broken literals args p)
    (hq : q ≠ []) (hvisible : text (visible literals) = p ++ q) (loc : Loc) : ∃ e sl,
      stringFormat loc literals args = some (.error e) ∧ e.error.isOfBrace = true ∧
        literalAt literals (p.length + blamed q) = some sl ∧ sl.Locates e.loc := by
  obtain ⟨⟨q', htext, hmalformed⟩, args', args'', out, rfl, hspells, hfits⟩ := h
  obtain ⟨rest, hrest⟩ := exists_visible_append literals
  have hne : literals ≠ [] := by
    rintro rfl
    exact hq (List.append_eq_nil_iff.mp hvisible.symm).2
  have hq' : q' = q ++ text rest := by
    have hp : p ++ q' = p ++ (q ++ text rest) := by
      rw [← htext, ← List.append_assoc, ← hvisible, ← text_append, ← hrest]
    exact List.append_cancel_left hp
  have hitems : chars ((visible literals).flatMap (·.items)) = p ++ q := (chars_items _).trans hvisible
  obtain ⟨pieces, string, hrun, -⟩ := formatLoop_spells hspells hfits loc args'' [] [] hitems
  have hdrop : chars (((visible literals).flatMap (·.items)).drop p.length) = q := by
    unfold chars at hitems ⊢
    rw [List.map_drop, hitems, List.drop_left]
  obtain ⟨e, herror, hbrace, hloc⟩ :=
    formatLoop_malformed (hdrop ▸ (hq' ▸ hmalformed).of_append hq) loc args'' pieces string
  rw [hdrop, List.getElem?_drop] at hloc
  obtain ⟨item, hitem, hl⟩ := Option.map_eq_some_iff.mp hloc
  obtain ⟨sl, hsl, hlocates⟩ := locates_of_items hitem
  refine ⟨e, sl, ?_, hbrace, ?_, hl ▸ hlocates⟩
  · rw [stringFormat_eq loc hne, hrun, herror]
  · have hlt : p.length + blamed q < (text (visible literals)).length := by
      rw [← chars_items, List.length_map]
      exact (List.getElem?_eq_some_iff.mp hitem).1
    rw [hrest, literalAt_append_of_lt hlt, hsl]

/-- A text that spells an output is accepted, without its open braces. -/
theorem stringFormat_spells {literals : List StringLiteral} (hne : literals ≠ [])
    (h : Spells (text (visible literals)) args out) (hfits : Fits out) (loc : Loc) :
    ∃ pieces, stringFormat loc literals args = some (.ok pieces) ∧ pieces.flatMap (·.output) = kept out := by
  have hitems : chars ((visible literals).flatMap (·.items)) = text (visible literals) ++ [] :=
    (chars_items _).trans (List.append_nil _).symm
  obtain ⟨pieces, string, hrun, hwritten⟩ := formatLoop_spells h hfits loc [] [] [] hitems
  refine ⟨pushLiteral loc string pieces, ?_, ?_⟩
  · have hlen : (text (visible literals)).length = ((visible literals).flatMap (·.items)).length := by
      rw [← chars_items, List.length_map]
    rw [stringFormat_eq loc hne, ← List.append_nil args, hrun, hlen, List.drop_length, formatLoop.eq_def]
    rfl
  · have hpush := written_pushLiteral loc pieces string
    rw [hwritten] at hpush
    simpa [written] using hpush

theorem not_mem_of_kept (h : kept out = out) : .char '{' ∉ out := by
  intro hmem
  rw [← h] at hmem
  have := (List.mem_filter.mp hmem).2
  simp [Output.isOpenBrace] at this

theorem kept_of_not_mem (h : .char '{' ∉ out) : kept out = out := by
  refine List.filter_eq_self.mpr fun o ho => ?_
  cases o with
  | arg => rfl
  | char ch =>
    have hch : ch ≠ '{' := by
      rintro rfl
      exact h ho
    simp [Output.isOpenBrace, hch]

theorem ne_nil_of_some {literals : List StringLiteral} {r : Except Diagnostic (List (Piece E))}
    (h : stringFormat loc literals args = some r) : literals ≠ [] := by
  rintro rfl
  cases h

/-- A brace behind what the iterator gives is not reported in its literal. -/
theorem not_within_behind {literals : List StringLiteral} (h : Placed literals) {e : Diagnostic}
    {k : Nat} (hk : (text (visible literals)).length ≤ k) (hsl : literalAt literals k = some sl)
    (herror : stringFormat loc literals args = some (.error e)) (hbrace : e.error.isOfBrace = true) :
    ¬ Within e.loc sl.loc := by
  intro hwithin
  obtain ⟨rest, hrest⟩ := exists_visible_append literals
  rw [stringFormat_eq loc (ne_nil_of_some herror)] at herror
  have hmem := mem_of_error (Option.some.inj herror) hbrace
  obtain ⟨item, hitem, hloc⟩ := List.mem_map.mp hmem
  obtain ⟨i, hi⟩ := List.mem_iff_getElem?.mp hitem
  obtain ⟨sl', hsl', hlocates⟩ := locates_of_items hi
  rw [hloc] at hlocates
  have hrestmem : sl ∈ rest := by
    rw [hrest, literalAt_append_of_le hk] at hsl
    exact mem_of_literalAt hsl
  have hvisible : sl' ∈ visible literals := mem_of_literalAt hsl'
  have hsl'mem : sl' ∈ literals := hrest ▸ List.mem_append_left _ hvisible
  obtain rfl := h.eq_of_within (mem_of_literalAt hsl) hsl'mem hlocates hwithin
  have hordered := h.ordered
  rw [hrest] at hordered
  have hle := (List.pairwise_append.mp hordered).2.2 sl' hvisible sl' hrestmem
  have hin := h.inside sl' hsl'mem
  omega

theorem faithful_iff_met (loc : Loc) {literals : List StringLiteral} (h : Placed literals)
    (args : List (Argument E)) : Faithful loc literals args ↔ Met literals args := by
  obtain ⟨rest, hrest⟩ := exists_visible_append literals
  have htext : text literals = text (visible literals) ++ text rest := by
    rw [← text_append, ← hrest]
  constructor
  · rintro ⟨hok, hbroken⟩
    refine ⟨fun out hspells hfits => ?_, fun p hp => ?_⟩
    · by_cases hne : literals = []
      · subst hne
        cases hspells
        exact ⟨rfl, List.not_mem_nil⟩
      · obtain ⟨pieces, hpieces, hout⟩ := stringFormat_spells hne hspells hfits loc
        have hall := hok pieces hpieces
        rw [hout, htext, ← List.append_nil args] at hall
        obtain ⟨out'', hkept, hend⟩ := hspells.append_inv hall
        have hlen : (kept out).length ≤ out.length := List.length_filter_le _ _
        rw [hkept, List.length_append] at hlen
        obtain rfl : out'' = [] := List.eq_nil_of_length_eq_zero (by omega)
        rw [List.append_nil] at hkept
        refine ⟨?_, not_mem_of_kept hkept⟩
        rw [htext, hend.eq_nil, List.append_nil]
    · obtain ⟨sl, e, hsl, herror, hbrace, hwithin⟩ := hbroken p hp
      obtain ⟨q', hq', -⟩ := hp.malformed
      rw [htext] at hq'
      have hbehind : ¬ (text (visible literals)).length ≤ p.length :=
        fun hk => not_within_behind h hk hsl herror hbrace hwithin
      rcases List.append_eq_append_iff.mp hq' with ⟨m, rfl, -⟩ | ⟨q, hvisible, -⟩
      · exact absurd (by simp) hbehind
      · have hq : q ≠ [] := by
          rintro rfl
          exact hbehind (by simp [hvisible])
        obtain ⟨e', sl', herror', -, hsl', hlocates⟩ := stringFormat_broken hp hq hvisible loc
        obtain rfl : e = e' := by
          rw [herror] at herror'
          cases herror'
          rfl
        refine ⟨q, hq, hvisible, ?_⟩
        rw [hsl', hsl, h.eq_of_within (mem_of_literalAt hsl) (mem_of_literalAt hsl') hlocates hwithin]
  · rintro ⟨hspelled, hbroken⟩
    refine ⟨fun pieces hpieces => ?_, fun p hp => ?_⟩
    · rw [stringFormat_eq loc (ne_nil_of_some hpieces)] at hpieces
      obtain ⟨out, hspells, hfits, hout⟩ := spells_of_ok (Option.some.inj hpieces)
      rw [chars, chars_items] at hspells
      obtain ⟨heq, hmem⟩ := hspelled out hspells hfits
      rw [heq] at hspells
      rw [hout, kept_of_not_mem hmem]
      exact hspells
    · obtain ⟨q, hq, hvisible, hsame⟩ := hbroken p hp
      obtain ⟨e, sl, herror, hbrace, hsl, hlocates⟩ := stringFormat_broken hp hq hvisible loc
      exact ⟨sl, e, hsame ▸ hsl, herror, hbrace, hlocates.within⟩

end

namespace Sample

/-- A doubled brace between two letters -/
def literals : List StringLiteral := [⟨⟨0, 6⟩, ['a', '{', '{', 'b']⟩]

theorem placed : Placed literals := by
  refine ⟨List.pairwise_singleton _ _, fun sl hsl => ?_⟩
  rw [List.mem_singleton.mp hsl]
  decide

theorem faithful_iff_met_doubled :
    Placed literals ∧ (Faithful ⟨0, 15⟩ literals ([] : List (Argument Unit)) ↔ Met literals ([] : List (Argument Unit))) :=
  ⟨placed, faithful_iff_met ⟨0, 15⟩ placed []⟩

theorem spells : Spells (text (visible literals)) ([] : List (Argument Unit)) [.char 'a', .char '{', .char 'b'] :=
  .char (by decide) (by decide) (.openBrace (.char (by decide) (by decide) .nil))

/-- The text is accepted and its brace is lost. -/
theorem doubled_brace_is_lost : Placed literals ∧ ¬ Faithful ⟨0, 15⟩ literals ([] : List (Argument Unit)) := by
  refine ⟨placed, fun h => ?_⟩
  obtain ⟨pieces, hpieces, hout⟩ := stringFormat_spells (List.cons_ne_nil _ _) spells
    (fun f arg ho => by simp at ho) ⟨0, 15⟩
  have hall : Spells (text literals ++ []) ([] ++ []) (pieces.flatMap (·.output)) := h.1 pieces hpieces
  rw [hout] at hall
  obtain ⟨out, hkept, -⟩ := spells.append_inv hall
  have hlen := congrArg List.length hkept
  simp [kept, Output.isOpenBrace] at hlen

end Sample

end Solang.Sema.Format
