import Solang.Lib.Text

/-!
# The lexer

`solang-parser/src/lexer.rs`. The characters that are left are a list with the offset of its
first one. The predicates of Unicode identifiers are those of a library, and are parameters.
Functions are `none` where the source panics, which it does at a slice between offsets that are
not boundaries of characters; every loop is a recursion on the characters that are left.
-/

namespace Solang.Parser

/-- The tokens of `KEYWORDS` -/
inductive Keyword where
  | address
  | anonymous
  | bool
  | break_
  | bytes (n : Nat)
  | dynamicBytes
  | byte
  | calldata
  | case
  | constant_
  | constructor
  | continue_
  | contract
  | default
  | delete
  | do_
  | else_
  | emit
  | enum
  | event
  | external
  | false_
  | for_
  | function
  | if_
  | import_
  | indexed
  | int (bits : Nat)
  | interface
  | internal
  | leave
  | library
  | mapping
  | memory
  | new
  | payable
  | pragma
  | private_
  | public_
  | pure
  | returns
  | return_
  | revert
  | storage
  | string
  | struct
  | switch
  | throw
  | true_
  | type
  | uint (bits : Nat)
  | view
  | while_
  | try_
  | catch_
  | receive
  | fallback
  | as
  | is
  | abstract_
  | virtual
  | override
  | using
  | modifier
  | immutable
  | unchecked
  | assembly
  | let_
  | persistent
  | temporary
  | instance_

/-- Operators and punctuation -/
inductive Symbol where
  | divide
  | semicolon
  | comma
  | openParenthesis
  | closeParenthesis
  | openCurlyBrace
  | closeCurlyBrace
  | bitwiseOr
  | bitwiseOrAssign
  | or
  | bitwiseXor
  | bitwiseXorAssign
  | bitwiseAnd
  | bitwiseAndAssign
  | and
  | addAssign
  | increment
  | add
  | subtractAssign
  | decrement
  | subtract
  | mulAssign
  | mul
  | power
  | divideAssign
  | moduloAssign
  | modulo
  | equal
  | assign
  | colonAssign
  | notEqual
  | not
  | shiftRight
  | shiftRightAssign
  | less
  | lessEqual
  | shiftLeft
  | shiftLeftAssign
  | more
  | moreEqual
  | member
  | colon
  | openBracket
  | closeBracket
  | bitwiseNot
  | question
  | arrow
  | yulArrow

/-- `KEYWORDS` -/
def keywords : List (String × Keyword) :=
  [("address", .address), ("anonymous", .anonymous), ("bool", .bool), ("break", .break_),
    ("bytes1", .bytes 1), ("bytes2", .bytes 2), ("bytes3", .bytes 3), ("bytes4", .bytes 4),
    ("bytes5", .bytes 5), ("bytes6", .bytes 6), ("bytes7", .bytes 7), ("bytes8", .bytes 8),
    ("bytes9", .bytes 9), ("bytes10", .bytes 10), ("bytes11", .bytes 11), ("bytes12", .bytes 12),
    ("bytes13", .bytes 13), ("bytes14", .bytes 14), ("bytes15", .bytes 15),
    ("bytes16", .bytes 16), ("bytes17", .bytes 17), ("bytes18", .bytes 18),
    ("bytes19", .bytes 19), ("bytes20", .bytes 20), ("bytes21", .bytes 21),
    ("bytes22", .bytes 22), ("bytes23", .bytes 23), ("bytes24", .bytes 24),
    ("bytes25", .bytes 25), ("bytes26", .bytes 26), ("bytes27", .bytes 27),
    ("bytes28", .bytes 28), ("bytes29", .bytes 29), ("bytes30", .bytes 30),
    ("bytes31", .bytes 31), ("bytes32", .bytes 32), ("bytes", .dynamicBytes), ("byte", .byte),
    ("calldata", .calldata), ("case", .case), ("constant", .constant_),
    ("constructor", .constructor), ("continue", .continue_), ("contract", .contract),
    ("default", .default), ("delete", .delete), ("do", .do_), ("else", .else_), ("emit", .emit),
    ("enum", .enum), ("event", .event), ("external", .external), ("false", .false_),
    ("for", .for_), ("function", .function), ("if", .if_), ("import", .import_),
    ("indexed", .indexed), ("int8", .int 8), ("int16", .int 16), ("int24", .int 24),
    ("int32", .int 32), ("int40", .int 40), ("int48", .int 48), ("int56", .int 56),
    ("int64", .int 64), ("int72", .int 72), ("int80", .int 80), ("int88", .int 88),
    ("int96", .int 96), ("int104", .int 104), ("int112", .int 112), ("int120", .int 120),
    ("int128", .int 128), ("int136", .int 136), ("int144", .int 144), ("int152", .int 152),
    ("int160", .int 160), ("int168", .int 168), ("int176", .int 176), ("int184", .int 184),
    ("int192", .int 192), ("int200", .int 200), ("int208", .int 208), ("int216", .int 216),
    ("int224", .int 224), ("int232", .int 232), ("int240", .int 240), ("int248", .int 248),
    ("int256", .int 256), ("interface", .interface), ("internal", .internal), ("int", .int 256),
    ("leave", .leave), ("library", .library), ("mapping", .mapping), ("memory", .memory),
    ("new", .new), ("payable", .payable), ("pragma", .pragma), ("private", .private_),
    ("public", .public_), ("pure", .pure), ("returns", .returns), ("return", .return_),
    ("revert", .revert), ("storage", .storage), ("string", .string), ("struct", .struct),
    ("switch", .switch), ("throw", .throw), ("true", .true_), ("type", .type),
    ("uint8", .uint 8), ("uint16", .uint 16), ("uint24", .uint 24), ("uint32", .uint 32),
    ("uint40", .uint 40), ("uint48", .uint 48), ("uint56", .uint 56), ("uint64", .uint 64),
    ("uint72", .uint 72), ("uint80", .uint 80), ("uint88", .uint 88), ("uint96", .uint 96),
    ("uint104", .uint 104), ("uint112", .uint 112), ("uint120", .uint 120),
    ("uint128", .uint 128), ("uint136", .uint 136), ("uint144", .uint 144),
    ("uint152", .uint 152), ("uint160", .uint 160), ("uint168", .uint 168),
    ("uint176", .uint 176), ("uint184", .uint 184), ("uint192", .uint 192),
    ("uint200", .uint 200), ("uint208", .uint 208), ("uint216", .uint 216),
    ("uint224", .uint 224), ("uint232", .uint 232), ("uint240", .uint 240),
    ("uint248", .uint 248), ("uint256", .uint 256), ("uint", .uint 256), ("view", .view),
    ("while", .while_), ("try", .try_), ("catch", .catch_), ("receive", .receive),
    ("fallback", .fallback), ("as", .as), ("is", .is), ("abstract", .abstract_),
    ("virtual", .virtual), ("override", .override), ("using", .using), ("modifier", .modifier),
    ("immutable", .immutable), ("unchecked", .unchecked), ("assembly", .assembly),
    ("let", .let_), ("persistent", .persistent), ("temporary", .temporary),
    ("instance", .instance_)]

/-- The text of a token is given without quotes and signs that the token stands for. -/
inductive Token where
  | identifier (text : Text)
  | stringLiteral (unicode : Bool) (text : Text)
  | addressLiteral (text : Text)
  | hexLiteral (text : Text)
  | number (integer exponent : Text)
  | rationalNumber (integer fraction exponent : Text)
  | hexNumber (text : Text)
  | annotationName (text : Text)
  | keyword (word : Keyword)
  | symbol (symbol : Symbol)

/-- `Loc::File`, in the file of the lexer -/
structure Loc where
  start : Nat
  stop : Nat

inductive LexicalError where
  | endOfFileInComment (loc : Loc)
  | endOfFileInString (loc : Loc)
  | endofFileInHex (loc : Loc)
  | missingNumber (loc : Loc)
  | invalidCharacterInHexLiteral (loc : Loc) (ch : Char)
  | unrecognisedToken (loc : Loc) (text : Text)
  | missingExponent (loc : Loc)

inductive Comment where
  | line (loc : Loc) (text : Text)
  | docLine (loc : Loc) (text : Text)
  | block (loc : Loc) (text : Text)
  | docBlock (loc : Loc) (text : Text)

abbrev Spanned := Nat × Token × Nat

structure Lexer where
  rest : Text
  offset : Nat
  comments : List Comment
  /-- While parsing version semver, do not parse rational numbers. -/
  parseSemver : Bool
  lastTokens : Option Token × Option Token
  errors : List LexicalError

/-! ## Characters -/

def doubleQuote : Char := Char.ofNat 34

def singleQuote : Char := Char.ofNat 39

def backslash : Char := Char.ofNat 92

def isQuote (ch : Char) : Bool := ch = doubleQuote || ch = singleQuote

def isNewline (ch : Char) : Bool := ch = Char.ofNat 10 || ch = Char.ofNat 13

def isAsciiDigit (ch : Char) : Bool := 48 ≤ ch.toNat && ch.toNat ≤ 57

def isAsciiHexdigit (ch : Char) : Bool :=
  isAsciiDigit ch || (65 ≤ ch.toNat && ch.toNat ≤ 70) || (97 ≤ ch.toNat && ch.toNat ≤ 102)

def isDigitOrSeparator (ch : Char) : Bool := isAsciiDigit ch || ch = '_'

def isHexdigitOrSeparator (ch : Char) : Bool := isAsciiHexdigit ch || ch = '_'

/-- `char::is_whitespace`: the property White_Space of Unicode -/
def isWhitespace (ch : Char) : Bool :=
  let n := ch.toNat
  (9 ≤ n && n ≤ 13) || n = 0x20 || n = 0x85 || n = 0xa0 || n = 0x1680 || (0x2000 ≤ n && n ≤ 0x200a) ||
    n = 0x2028 || n = 0x2029 || n = 0x202f || n = 0x205f || n = 0x3000

/-! ## Loops -/

/-- Pass the characters with this property; the offset of the last one that was passed -/
def eatWhile (p : Char → Bool) : Text → Nat → Nat → Text × Nat × Nat
  | [], offset, last => ([], offset, last)
  | ch :: rest, offset, last =>
    if p ch then eatWhile p rest (offset + ch.utf8Size) offset else (ch :: rest, offset, last)

/-- Pass the characters up to the first one with this property, and that one; its offset -/
def skipPast (p : Char → Bool) : Text → Nat → Option Nat × Text × Nat
  | [], offset => (none, [], offset)
  | ch :: rest, offset =>
    if p ch then (some offset, rest, offset + ch.utf8Size)
    else skipPast p rest (offset + ch.utf8Size)

/-- The loop of `string`; the offset of the closing quote -/
def stringLoop (quote : Char) : Bool → Text → Nat → Option Nat × Text × Nat
  | _, [], offset => (none, [], offset)
  | lastWasEscape, ch :: rest, offset =>
    if lastWasEscape then stringLoop quote false rest (offset + ch.utf8Size)
    else if ch = quote then (some offset, rest, offset + ch.utf8Size)
    else stringLoop quote (ch = backslash) rest (offset + ch.utf8Size)

/-- The digits of a hex literal up to the quote or to a character that is neither -/
def hexLoop (quote : Char) : Text → Nat → Option (Nat × Char) × Text × Nat
  | [], offset => (none, [], offset)
  | ch :: rest, offset =>
    if ch = quote || !isHexdigitOrSeparator ch then (some (offset, ch), rest, offset + ch.utf8Size)
    else hexLoop quote rest (offset + ch.utf8Size)

/-- The loop of a comment of more than one line; the offset of the last star -/
def blockLoop : Bool → Nat → Text → Nat → Option Nat × Text × Nat
  | _, _, [], offset => (none, [], offset)
  | seenStar, last, ch :: rest, offset =>
    if seenStar && ch = '/' then (some last, rest, offset + ch.utf8Size)
    else blockLoop (ch = '*') offset rest (offset + ch.utf8Size)

namespace Lexer

def new (input : Text) : Lexer := ⟨input, 0, [], false, (none, none), []⟩

/-- The next character is passed. -/
def advance (s : Lexer) : Lexer :=
  match s.rest with
  | [] => s
  | ch :: rest => { s with rest := rest, offset := s.offset + ch.utf8Size }

def moveTo (s : Lexer) (place : Text × Nat) : Lexer :=
  { s with rest := place.1, offset := place.2 }

def error (s : Lexer) (e : LexicalError) : Lexer := { s with errors := s.errors ++ [e] }

def comment (s : Lexer) (c : Comment) : Lexer := { s with comments := s.comments ++ [c] }

def eat (s : Lexer) (p : Char → Bool) (last : Nat) : Lexer × Nat :=
  let r := eatWhile p s.rest s.offset last
  (s.moveTo (r.1, r.2.1), r.2.2)

variable (input : Text)

/-! ## Numbers and strings -/

/-- The part of `parse_number` for a number that starts with `0x` -/
def hexNumber (s : Lexer) (start : Nat) : Option (Except LexicalError Spanned × Lexer) :=
  let s := s.advance
  match s.rest with
  | [] => some (.error (.endofFileInHex ⟨start, input.size⟩), s)
  | ch :: _ =>
    if isAsciiHexdigit ch then do
      let (s, last) := s.advance.eat isHexdigitOrSeparator s.offset
      let text ← input.slice start (last + 1)
      some (.ok (start, .hexNumber text, last + 1), s)
    else some (.error (.missingNumber ⟨start, start + 1⟩), s.advance)

/-- The fraction behind an integer: its offsets, and those of the last character of the number -/
def fraction (s : Lexer) (isRational : Bool) (last : Nat) : Option (Nat × Nat × Nat × Lexer) :=
  match s.rest with
  | '.' :: ch :: _ =>
    if isAsciiDigit ch && !isRational then
      let i := s.offset + 1
      let s := s.advance
      let (s', rationalEnd) := s.eat isDigitOrSeparator i
      some (i, rationalEnd, (s.eat isDigitOrSeparator last).2, s')
    else none
  | _ => none

/-- The exponent: where it starts, if there is one -/
def exponent (s : Lexer) (last : Nat) : Option Nat × Nat × Lexer :=
  match s.rest with
  | ch :: _ =>
    if ch = 'e' || ch = 'E' then
      let expStart := s.offset + 1
      let s := (s.advance.eat (· = '-') last).1
      let (s, last) := s.eat isDigitOrSeparator last
      (some expStart, last, s)
    else (none, last, s)
  | [] => (none, last, s)

/-- The end of `parse_number`: the exponent, and the texts of the token -/
def finishNumber (s : Lexer) (start endBeforeRational : Nat) (rational : Option (Nat × Nat))
    (oldEnd : Nat) : Option (Except LexicalError Spanned × Lexer) :=
  let (expStart, last, s) := s.exponent oldEnd
  let expFrom := expStart.getD (oldEnd + 1)
  if expStart.isSome && last < expFrom then
    some (.error (.missingExponent ⟨start, input.size⟩), s)
  else
    match rational with
    | some (rationalStart, rationalEnd) => do
      let integer ← input.slice start endBeforeRational
      let fraction ← input.slice rationalStart (rationalEnd + 1)
      let exp ← input.slice expFrom (last + 1)
      some (.ok (start, .rationalNumber integer fraction exp, last + 1), s)
    | none => do
      let integer ← input.slice start (oldEnd + 1)
      let exp ← input.slice expFrom (last + 1)
      some (.ok (start, .number integer exp, last + 1), s)

/-- `parse_number` -/
def parseNumber (s : Lexer) (start : Nat) (ch : Char) : Option (Except LexicalError Spanned × Lexer) :=
  if ch = '0' && s.rest.head? = some 'x' then hexNumber input s start
  else
    let isRational := ch == '.'
    let start := if isRational then start - 1 else start
    let (s, last) := s.eat isDigitOrSeparator start
    if s.parseSemver then do
      let integer ← input.slice start (last + 1)
      some (.ok (start, .number integer [], last + 1), s)
    else
      let endBeforeRational := if isRational then start else last + 1
      match s.fraction isRational last with
      | some (rationalStart, rationalEnd, last, s) =>
        finishNumber input s start endBeforeRational (some (rationalStart, rationalEnd)) last
      | none =>
        let rational := if isRational then some (start + 1, last) else none
        finishNumber input s start endBeforeRational rational last

def string (s : Lexer) (unicode : Bool) (tokenStart stringStart : Nat) (quote : Char) :
    Option (Except LexicalError Spanned × Lexer) :=
  let r := stringLoop quote false s.rest s.offset
  let s := s.moveTo r.2
  match r.1 with
  | none => some (.error (.endOfFileInString ⟨tokenStart, input.size⟩), s)
  | some last => do
    let text ← input.slice stringStart last
    some (.ok (tokenStart, .stringLiteral unicode text, last + 1), s)

variable (isXidStart isXidContinue : Char → Bool)

/-- `match_identifier` -/
def matchIdentifier (s : Lexer) (start : Nat) : Option (Text × Nat × Lexer) := do
  let s := (s.eat (fun ch => isXidContinue ch || ch = '$') start).1
  let stop := if s.rest.isEmpty then input.size else s.offset
  let id ← input.slice start stop
  some (id, stop, s)

/-! ## Tokens -/

/-- What an iteration of the loop of `next` ends with -/
inductive Iter where
  | again (s : Lexer)
  | done (token : Option Spanned) (s : Lexer)

/-- The token of a word -/
def word (id : Text) : Token :=
  match keywords.find? fun k => k.1.toList = id with
  | some k => .keyword k.2
  | none => .identifier id

/-- A literal of hex digits, behind its quote -/
def hexLiteral (s : Lexer) (start : Nat) (quote : Char) : Option Iter :=
  let r := hexLoop quote s.rest s.offset
  let s := s.moveTo r.2
  match r.1 with
  | none => some (.done none (s.error (.endOfFileInString ⟨start, input.size⟩)))
  | some (i, ch) =>
    if ch = quote then do
      let text ← input.slice start (i + 1)
      some (.done (some (start, .hexLiteral text, i + 1)) s)
    else
      -- eat up the remainder of the string
      let s := s.moveTo (skipPast (· = quote) s.rest s.offset).2
      some (.again (s.error (.invalidCharacterInHexLiteral ⟨i, i + 1⟩ ch)))

/-- An address, behind its quote -/
def addressLiteral (s : Lexer) (start : Nat) (quote : Char) : Option Iter :=
  let r := skipPast (· = quote) s.rest s.offset
  let s := s.moveTo r.2
  match r.1 with
  | none => some (.done none (s.error (.endOfFileInString ⟨start, input.size⟩)))
  | some i => do
    let text ← input.slice start (i + 1)
    some (.done (some (start, .addressLiteral text, i + 1)) s)

/-- A word, or a literal that starts with one -/
def identifier (s : Lexer) (start : Nat) : Option Iter := do
  let (id, stop, s) ← s.matchIdentifier input isXidContinue start
  match s.rest.head?.filter isQuote with
  | none => some (.done (some (start, word id, stop)) s)
  | some quote =>
    if id = "unicode".toList then do
      let (r, s) ← s.advance.string input true start (start + 8) quote
      match r with
      | .ok val => some (.done (some val) s)
      | .error e => some (.done (some (start, word id, stop)) (s.error e))
    else if id = "hex".toList then hexLiteral input s.advance start quote
    else if id = "address".toList then addressLiteral input s.advance start quote
    else some (.done (some (start, word id, stop)) s)

/-- A comment up to the end of the line, behind its two slashes -/
def lineComment (s : Lexer) (start : Nat) : Option Iter := do
  let third := s.rest.head?
  let s := s.advance
  let newline := third.any isNewline
  -- three slashes are a doc comment, more are not
  let docComment := third = some '/' && s.rest.head? ≠ some '/'
  let r := if newline then (some (start + 3), s.rest, s.offset) else skipPast isNewline s.rest s.offset
  let last := r.1.getD input.size
  let text ← input.slice start last
  let comment := if docComment then Comment.docLine ⟨start, last⟩ text else .line ⟨start, last⟩ text
  some (.again ((s.moveTo r.2).comment comment))

/-- A comment of more than one line, behind its start -/
def blockComment (s : Lexer) (start : Nat) : Option Iter :=
  let docCommentStart := s.rest.head? = some '*'
  let r := blockLoop false (start + 3) s.rest s.offset
  let s := s.moveTo r.2
  match r.1 with
  | none => some (.done none (s.error (.endOfFileInComment ⟨start, input.size⟩)))
  | some last => do
    let text ← input.slice start (last + 2)
    -- without anything in it this is no doc comment
    let comment := if docCommentStart && start + 2 < last then Comment.docBlock ⟨start, last + 2⟩ text
      else .block ⟨start, last + 2⟩ text
    some (.again (s.comment comment))

/-- The tokens that start with this character: with another one behind it, or by itself -/
def operator : Char → Option (List (Char × Symbol) × Symbol)
  | ',' => some ([], .comma)
  | '(' => some ([], .openParenthesis)
  | ')' => some ([], .closeParenthesis)
  | '{' => some ([], .openCurlyBrace)
  | '}' => some ([], .closeCurlyBrace)
  | '~' => some ([], .bitwiseNot)
  | '=' => some ([('=', .equal), ('>', .arrow)], .assign)
  | '!' => some ([('=', .notEqual)], .not)
  | '|' => some ([('=', .bitwiseOrAssign), ('|', .or)], .bitwiseOr)
  | '&' => some ([('=', .bitwiseAndAssign), ('&', .and)], .bitwiseAnd)
  | '^' => some ([('=', .bitwiseXorAssign)], .bitwiseXor)
  | '+' => some ([('=', .addAssign), ('+', .increment)], .add)
  | '-' => some ([('=', .subtractAssign), ('-', .decrement), ('>', .yulArrow)], .subtract)
  | '*' => some ([('=', .mulAssign), ('*', .power)], .mul)
  | '%' => some ([('=', .moduloAssign)], .modulo)
  | '[' => some ([], .openBracket)
  | ']' => some ([], .closeBracket)
  | ':' => some ([('=', .colonAssign)], .colon)
  | '?' => some ([], .question)
  | _ => none

/-- The token of a character, or of that and the next one -/
def operate (s : Lexer) (i : Nat) (pairs : List (Char × Symbol)) (single : Symbol) : Iter :=
  match s.rest.head?.bind fun ch => pairs.lookup ch with
  | some double => .done (some (i, .symbol double, i + 2)) s.advance
  | none => .done (some (i, .symbol single, i + 1)) s

/-- Less or more than: the sign twice is a shift, with or without an assignment. -/
def shift (s : Lexer) (i : Nat) (sign : Char) (shiftAssign shift orEqual single : Symbol) : Iter :=
  if s.rest.head? = some sign then
    let s := s.advance
    if s.rest.head? = some '=' then .done (some (i, .symbol shiftAssign, i + 3)) s.advance
    else .done (some (i, .symbol shift, i + 2)) s
  else if s.rest.head? = some '=' then .done (some (i, .symbol orEqual, i + 2)) s.advance
  else .done (some (i, .symbol single, i + 1)) s

/-- A slash: a comment, or a division -/
def slash (s : Lexer) (start : Nat) : Option Iter :=
  match s.rest with
  | '=' :: _ => some (.done (some (start, .symbol .divideAssign, start + 2)) s.advance)
  | '/' :: _ => lineComment input s.advance start
  | '*' :: _ => blockComment input s.advance start
  | _ => some (.done (some (start, .symbol .divide, start + 1)) s)

/-- A character that starts no token -/
def unrecognised (s : Lexer) (start : Nat) : Option Iter := do
  let r := skipPast isWhitespace s.rest s.offset
  let stop := r.1.getD input.size
  let text ← input.slice start stop
  some (.again ((s.moveTo r.2).error (.unrecognisedToken ⟨start, stop⟩ text)))

/-- An iteration of the loop of `next` -/
def iterate (s : Lexer) : Option Iter :=
  match s.rest with
  | [] => some (.done none s)
  | ch :: _ =>
    let start := s.offset
    let s := s.advance
    if ch = '_' || ch = '$' || isXidStart ch then identifier input isXidContinue s start
    else if isQuote ch then do
      let (r, s) ← s.string input false start (start + 1) ch
      match r with
      | .ok val => some (.done (some val) s)
      | .error e => some (.again (s.error e))
    else if ch = '/' then slash input s start
    else if isAsciiDigit ch then do
      let (r, s) ← s.parseNumber input start ch
      match r with
      | .ok val => some (.done (some val) s)
      | .error (.endofFileInHex loc) => some (.done none (s.error (.endofFileInHex loc)))
      | .error e => some (.again (s.error e))
    else if ch = '@' then do
      let (id, stop, s) ← s.matchIdentifier input isXidContinue start
      if id.size = 1 then some (.again (s.error (.unrecognisedToken ⟨start, start + 1⟩ id)))
      else do
        let name ← id.slice 1 id.size
        some (.done (some (start, .annotationName name, stop)) s)
    else if ch = ';' then
      some (.done (some (start, .symbol .semicolon, start + 1)) { s with parseSemver := false })
    else if ch = '<' then some (shift s start '<' .shiftLeftAssign .shiftLeft .lessEqual .less)
    else if ch = '>' then some (shift s start '>' .shiftRightAssign .shiftRight .moreEqual .more)
    else if ch = '.' then
      if s.rest.head?.any isAsciiDigit && !s.parseSemver then do
        let (r, s) ← s.parseNumber input (start + 1) '.'
        match r with
        | .ok val => some (.done (some val) s)
        | .error e => some (.done none (s.error e))
      else some (.done (some (start, .symbol .member, start + 1)) s)
    else
      match operator ch with
      | some (pairs, single) => some (operate s start pairs single)
      | none => if isWhitespace ch then some (.again s) else unrecognised input s start

/-- `Lexer::next`, for this many iterations -/
def nextToken : Nat → Lexer → Option (Option Spanned × Lexer)
  | 0, _ => none
  | fuel + 1, s => do
    match ← s.iterate input isXidStart isXidContinue with
    | .again s => nextToken fuel s
    | .done token s => some (token, s)

/-- `next` of the iterator: behind a pragma and its name there are versions. -/
def next (s : Lexer) : Option (Option Spanned × Lexer) := do
  let s := match s.lastTokens with
    | (some (.keyword .pragma), some (.identifier _)) => { s with parseSemver := true }
    | _ => s
  let (token, s) ← s.nextToken input isXidStart isXidContinue (s.rest.length + 1)
  some (token, { s with lastTokens := (s.lastTokens.2, token.map (·.2.1)) })

/-- The tokens up to the end -/
def collect : Nat → Lexer → Option (List Spanned × Lexer)
  | 0, _ => none
  | fuel + 1, s => do
    match ← s.next input isXidStart isXidContinue with
    | (none, s) => some ([], s)
    | (some token, s) => do
      let (tokens, s) ← collect fuel s
      some (token :: tokens, s)

end Lexer

/-- The tokens of the input, and the lexer with its comments and errors -/
def lex (isXidStart isXidContinue : Char → Bool) (input : Text) : Option (List Spanned × Lexer) :=
  (Lexer.new input).collect input isXidStart isXidContinue (input.length + 1)

end Solang.Parser
