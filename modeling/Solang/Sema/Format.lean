import Solang.Sema.Strings

/-!
# Format strings

`string_format` of `sema/format.rs`, from the arguments on that `expression` has resolved. The
literals are not unescaped. `Peekable<FormatIterator>` is the list of what the iterator gives
before its first `None`: nothing asks for more after that.

Then what a format string stands for: `Spells` gives the output of a text for its arguments.
-/

namespace Solang.Sema.Format

open Solang.Parser (Loc)
open Strings (CharIndices)

structure StringLiteral where
  loc : Loc
  string : Text

/-! ## `FormatIterator` -/

structure FormatIterator where
  literals : List StringLiteral
  loc : Loc
  literal : CharIndices

/-- A character, where it stands -/
abbrev Item := Loc × Char

namespace FormatIterator

def new (sl : StringLiteral) (literals : List StringLiteral) : FormatIterator :=
  ⟨literals, sl.loc, ⟨sl.string, 0⟩⟩

/-- The next character of the literal that is read -/
def nextOfLiteral (it : FormatIterator) : Option (Item × FormatIterator) :=
  it.literal.next.map fun ((offset, ch), literal) =>
    ((⟨it.loc.start + offset, it.loc.stop⟩, ch), { it with literal })

def next (it : FormatIterator) : Option (Item × FormatIterator) :=
  match it.nextOfLiteral with
  | some r => some r
  | none =>
    match it.literals with
    | [] => none
    | sl :: literals => (new sl literals).nextOfLiteral

/-- The number of characters that are left -/
def left (it : FormatIterator) : Nat := it.literal.rest.length + (it.literals.map (·.string.length)).sum

theorem left_nextOfLiteral {it it' : FormatIterator} {item : Item}
    (h : it.nextOfLiteral = some (item, it')) : it'.left < it.left := by
  obtain ⟨literals, loc, ⟨rest, offset⟩⟩ := it
  cases rest with
  | nil => cases h
  | cons ch rest =>
    obtain ⟨rfl, rfl⟩ := Prod.mk.inj (Option.some.inj h)
    simp [left]

theorem left_next {it it' : FormatIterator} {item : Item} (h : it.next = some (item, it')) :
    it'.left < it.left := by
  unfold next at h
  split at h
  · rename_i r hr
    exact left_nextOfLiteral (hr.trans h)
  · split at h
    · cases h
    · rename_i sl literals hl
      have hlt := left_nextOfLiteral h
      have hle : (new sl literals).left ≤ it.left := by simp [left, new, hl]
      omega

def items (it : FormatIterator) : List Item :=
  match _h : it.next with
  | none => []
  | some (item, it') => item :: items it'
termination_by it.left
decreasing_by exact left_next _h

end FormatIterator

/-! ## `string_format` -/

/-- `other` stands for the types that are no type of an argument. -/
inductive Ty where
  | uint (bits : Nat)
  | int (bits : Nat)
  | bytes (n : Nat)
  | enum (no : Nat)
  | address (payable : Bool)
  | contract (no : Nat)
  | string
  | dynamicBytes
  | bool
  | storageRef (immutable : Bool) (ty : Ty)
  | ref (ty : Ty)
  | other

def Ty.derefAny : Ty → Ty
  | storageRef _ ty => ty
  | ref ty => ty
  | ty => ty

inductive FormatArg where
  | stringLiteral
  | default
  | binary
  | hex
  deriving DecidableEq

inductive FormatError where
  | unmatched
  | missingArgument
  | notInteger
  | notPrintable
  | tooManyArguments
  | unexpected (ch : Char)
  | unexpectedBeforeClosing (ch : Char)
  | missingSpecifier
  | missingClosing

namespace FormatError

def message : FormatError → String
  | unmatched => "unmatched '\x7d'"
  | missingArgument => "missing argument to format"
  | notInteger => "argument must be signed or unsigned integer type"
  | notPrintable => "argument must be a bool, enum, address, contract, string, or bytes, int, uint"
  | tooManyArguments => "too many argument for format string"
  | unexpected ch => "unexpected format char '" ++ ch.toString ++ "'"
  | unexpectedBeforeClosing ch =>
    "unexpected format char '" ++ ch.toString ++ "', expected closing '\x7d'"
  | missingSpecifier => "missing format specifier"
  | missingClosing => "missing closing '\x7d'"

/-- Whether it is about a brace, and not about the arguments -/
def isOfBrace : FormatError → Bool
  | unmatched | unexpected _ | unexpectedBeforeClosing _ | missingSpecifier | missingClosing => true
  | missingArgument | notInteger | notPrintable | tooManyArguments => false

end FormatError

structure Diagnostic where
  loc : Loc
  error : FormatError

/-- The end of a specifier with a format character -/
def closingBrace (arg : FormatArg) (lastLoc : Loc) : List Item → Except Diagnostic (FormatArg × List Item)
  | (loc, ch) :: items => if ch = '}' then .ok (arg, items) else .error ⟨loc, .unexpectedBeforeClosing ch⟩
  | [] => .error ⟨lastLoc, .missingClosing⟩

def parseFormatSpecifier (loc : Loc) : List Item → Except Diagnostic (FormatArg × List Item)
  | (loc', ch) :: items =>
    if ch = '}' then .ok (.default, items)
    else if ch = ':' then
      match items with
      | (loc', ch) :: items =>
        if ch = 'x' then closingBrace .hex loc' items
        else if ch = 'b' then closingBrace .binary loc' items
        else if ch = '}' then .ok (.default, items)
        else .error ⟨loc', .unexpected ch⟩
      | [] => .error ⟨loc, .missingSpecifier⟩
    else .error ⟨loc', .unexpected ch⟩
  | [] => .error ⟨loc, .missingClosing⟩

theorem length_closingBrace {arg f : FormatArg} {loc : Loc} {items items' : List Item}
    (h : closingBrace arg loc items = .ok (f, items')) : items'.length ≤ items.length := by
  rcases items with _ | ⟨⟨l, ch⟩, items⟩
  · cases h
  · by_cases hch : ch = '}'
    · rw [closingBrace, if_pos hch] at h
      cases h
      simp
    · rw [closingBrace, if_neg hch] at h
      cases h

theorem length_parseFormatSpecifier {f : FormatArg} {loc : Loc} {items items' : List Item}
    (h : parseFormatSpecifier loc items = .ok (f, items')) : items'.length ≤ items.length := by
  unfold parseFormatSpecifier at h
  split at h
  · rename_i l ch items
    split at h
    · cases h
      simp
    · split at h
      · split at h
        · rename_i l' ch' items
          simp only [List.length_cons]
          split at h
          · have := length_closingBrace h
            omega
          · split at h
            · have := length_closingBrace h
              omega
            · split at h
              · cases h
                omega
              · cases h
        · cases h
      · cases h
  · cases h

/-- A resolved argument, and what is read of it -/
structure Argument (E : Type) where
  expr : E
  ty : Ty
  loc : Loc

/-- An element of `format_args`: a literal has the specifier `FormatArg::StringLiteral`. -/
inductive Piece (E : Type) where
  | literal (loc : Loc) (value : Text)
  | arg (specifier : FormatArg) (arg : Argument E)

/-- The check of an argument's type -/
def checkArgument (specifier : FormatArg) (ty : Ty) : Option FormatError :=
  if specifier = .binary ∨ specifier = .hex then
    match ty with
    | .uint _ | .int _ | .address _ => none
    | _ => some .notInteger
  else
    match ty with
    | .uint _ | .int _ | .bytes _ | .enum _ | .address _ | .contract _ | .string | .dynamicBytes | .bool => none
    | _ => some .notPrintable

section

variable {E : Type}

/-- The text before a specifier, and at the end -/
def pushLiteral (loc : Loc) (string : Text) (pieces : List (Piece E)) : List (Piece E) :=
  if string.isEmpty then pieces else pieces ++ [.literal loc string]

/-- The loop of `string_format`, and what comes after it -/
def formatLoop (callLoc : Loc) (items : List Item) (args : List (Argument E)) (pieces : List (Piece E))
    (string : Text) : Except Diagnostic (List (Piece E)) :=
  match items with
  | [] =>
    if args.isEmpty then .ok (pushLiteral callLoc string pieces) else .error ⟨callLoc, .tooManyArguments⟩
  | (loc, ch) :: items =>
    if ch = '}' then
      match items with
      | (_, c) :: items =>
        if c = '}' then formatLoop callLoc items args pieces (string ++ [ch]) else .error ⟨loc, .unmatched⟩
      | [] => .error ⟨loc, .unmatched⟩
    else if ch = '{' then
      if items.head?.map (·.2) = some '{' then
        formatLoop callLoc items.tail args pieces string
      else
        match _h : parseFormatSpecifier loc items with
        | .error e => .error e
        | .ok (specifier, items') =>
          match args with
          | [] => .error ⟨loc, .missingArgument⟩
          | arg :: args =>
            match checkArgument specifier arg.ty.derefAny with
            | some e => .error ⟨arg.loc, e⟩
            | none => formatLoop callLoc items' args (pushLiteral loc string pieces ++ [.arg specifier arg]) []
    else formatLoop callLoc items args pieces (string ++ [ch])
termination_by items.length
decreasing_by
  · simp only [List.length_cons]
    omega
  · simp only [List.length_cons, List.length_tail]
    omega
  · have h := length_parseFormatSpecifier _h
    simp only [List.length_cons]
    omega
  · simp only [List.length_cons]
    omega

/-- Without a literal it panics. -/
def stringFormat (loc : Loc) (literals : List StringLiteral) (args : List (Argument E)) :
    Option (Except Diagnostic (List (Piece E))) :=
  match literals with
  | [] => none
  | sl :: literals => some (formatLoop loc (FormatIterator.new sl literals).items args [] [])

/-! ## What a format string stands for -/

/-- What is output: a character of the text, or an argument in a format -/
inductive Output (E : Type) where
  | char (ch : Char)
  | arg (specifier : FormatArg) (arg : Argument E)

def Piece.output : Piece E → List (Output E)
  | .literal _ value => value.map .char
  | .arg specifier argument => [.arg specifier argument]

/-- The text of a specifier between its braces -/
inductive Specifier : Text → FormatArg → Prop where
  | empty : Specifier [] .default
  | colon : Specifier [':'] .default
  | hex : Specifier [':', 'x'] .hex
  | binary : Specifier [':', 'b'] .binary

inductive Spells : Text → List (Argument E) → List (Output E) → Prop where
  | nil : Spells [] [] []
  | char {ch : Char} {q : Text} {args : List (Argument E)} {out : List (Output E)} (hopen : ch ≠ '{')
      (hclose : ch ≠ '}') (h : Spells q args out) : Spells (ch :: q) args (.char ch :: out)
  | openBrace {q : Text} {args : List (Argument E)} {out : List (Output E)} (h : Spells q args out) :
      Spells ('{' :: '{' :: q) args (.char '{' :: out)
  | closeBrace {q : Text} {args : List (Argument E)} {out : List (Output E)} (h : Spells q args out) :
      Spells ('}' :: '}' :: q) args (.char '}' :: out)
  | arg {s : Text} {f : FormatArg} {q : Text} {arg : Argument E} {args : List (Argument E)} {out : List (Output E)}
      (hs : Specifier s f) (h : Spells q args out) :
      Spells ('{' :: (s ++ '}' :: q)) (arg :: args) (.arg f arg :: out)

end

/-- A brace that is neither doubled nor one of a specifier -/
inductive Malformed : Text → Prop where
  | closing {q : Text} (h : q.head? ≠ some '}') : Malformed ('}' :: q)
  | opening {q : Text} (h : q.head? ≠ some '{') (hs : ∀ s f q', Specifier s f → q ≠ s ++ '}' :: q') :
      Malformed ('{' :: q)

end Solang.Sema.Format
