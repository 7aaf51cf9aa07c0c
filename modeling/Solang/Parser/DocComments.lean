import Solang.Parser.LexerSteps

/-!
# Doc comments

`parse_doccomments` and `filter_comments` of `solang-parser/src/doccomment.rs`, for the comments of
the lexer. A function is `none` where the source panics, at a slice between offsets that are not
boundaries of characters.

Then what the comments say: their lines, where each of them stands in the source, and the name and
the value of a line with a tag.
-/

namespace Solang.Parser.Doc

structure DocCommentTag where
  tag : Text
  tagOffset : Nat
  value : Text
  valueOffset : Nat

inductive DocComment where
  | line (comment : DocCommentTag)
  | block (comments : List DocCommentTag)

def DocComment.comments : DocComment → List DocCommentTag
  | line comment => [comment]
  | block comments => comments

inductive CommentType where
  | line
  | block
  deriving DecidableEq

/-! ## Strings -/

def newline : Char := Char.ofNat 10

def carriageReturn : Char := Char.ofNat 13

/-- `str::find`: the offset of the first character with this property -/
def find (p : Char → Bool) : Text → Option Nat
  | [] => none
  | ch :: q => if p ch then some 0 else (find p q).map (ch.utf8Size + ·)

def trimEnd (t : Text) : Text := (t.reverse.dropWhile isWhitespace).reverse

def trim (t : Text) : Text := trimEnd (t.dropWhile isWhitespace)

/-- `split_inclusive` at newlines -/
def splitInclusive : Text → List Text
  | [] => []
  | ch :: q =>
    if ch = newline then [ch] :: splitInclusive q
    else
      match splitInclusive q with
      | [] => [[ch]]
      | piece :: pieces => (ch :: piece) :: pieces

/-- A line without its end, which is a newline with or without a carriage return before it -/
def stripLineEnd (piece : Text) : Text :=
  if piece.getLast? = some newline then
    let line := piece.dropLast
    if line.getLast? = some carriageReturn then line.dropLast else line
  else piece

/-- `str::lines` -/
def lines (t : Text) : List Text := (splitInclusive t).map stripLineEnd

/-! ## `filter_comments` -/

/-- A line of a block, unless it is all whitespace and asterisks -/
def findLine (start : Nat) (s : Text) : Option (List (Nat × Text)) :=
  match find (fun ch => !isWhitespace ch && ch ≠ '*') s with
  | none => some []
  | some i => do
    let text ← Text.drop i s
    some [(start + i, trimEnd text)]

/-- The loop over the lines of a block; the first one starts at `start`. -/
def blockLines (start : Nat) : List Text → Option (List (Nat × Text))
  | [] => some []
  | s :: rest => do
    let line ← findLine start s
    let lines ← blockLines (start + Text.size s + 1) rest
    some (line ++ lines)

/-- A comment that is not filtered out -/
def filterComment : Comment → Option (Option (CommentType × List (Nat × Text)))
  | .line .. | .block .. => some none
  | .docLine loc comment => do
    let leading := (find (fun ch => ch ≠ '/' && !isWhitespace ch) comment).getD 3
    let text ← Text.drop leading comment
    some (some (.line, [(loc.start + leading, trimEnd text)]))
  | .docBlock loc comment => do
    let text ← Text.slice comment 3 (Text.size comment - 2)
    let grouped ← blockLines (loc.start + 3) (lines text)
    some (some (.block, grouped))

def inRange (start stop : Nat) (c : Comment) : Bool := !(c.loc.start ≥ stop || c.loc.stop < start)

/-! ## `parse_doccomments` -/

/-- The offset of the last character of a name that starts at `offset` -/
def tagEnd (last offset : Nat) : Text → Nat
  | [] => last
  | ch :: q => if isWhitespace ch then last else tagEnd offset (offset + ch.utf8Size) q

/-- The tag of a line that starts with `@` -/
def readTag (startOffset : Nat) (line : Text) : Option DocCommentTag := do
  let stop := tagEnd 0 1 line.tail
  let rest ← Text.drop (stop + 1) line
  let leading := (rest.takeWhile isWhitespace).length
  let tag ← Text.slice line 1 (stop + 1)
  some ⟨tag, startOffset + 1, trim rest, startOffset + stop + leading + 1⟩

def DocCommentTag.pushLine (line : Text) (comment : DocCommentTag) : DocCommentTag :=
  { comment with value := comment.value ++ newline :: line }

/-- `last_mut` -/
def modifyLast {α : Type} (f : α → α) : List α → List α
  | [] => []
  | [a] => [f a]
  | a :: b :: l => a :: modifyLast f (b :: l)

def DocComment.pushLine (line : Text) : DocComment → DocComment
  | .line comment => .line (comment.pushLine line)
  | .block comments => .block (modifyLast (·.pushLine line) comments)

/-- A line without a tag, before which there is a comment -/
def appendLine (line : Text) (singleTags : List DocCommentTag) (tags : List DocComment) :
    List DocCommentTag × List DocComment :=
  let line := trim line
  if line.isEmpty then (singleTags, tags)
  else if singleTags.isEmpty then (singleTags, modifyLast (·.pushLine line) tags)
  else (modifyLast (·.pushLine line) singleTags, tags)

/-- The tag of a line without one -/
def notice (startOffset : Nat) (line : Text) : DocCommentTag :=
  let leading := (line.takeWhile isWhitespace).length
  ⟨"notice".toList, startOffset + startOffset + leading, trim line, startOffset + startOffset + leading⟩

/-- The body of the loop over the lines of a comment -/
def parseLine (singleTags : List DocCommentTag) (tags : List DocComment) (startOffset : Nat) (line : Text) :
    Option (List DocCommentTag × List DocComment) :=
  if line.head? = some '@' then do
    let tag ← readTag startOffset line
    some (singleTags ++ [tag], tags)
  else if !singleTags.isEmpty || !tags.isEmpty then some (appendLine line singleTags tags)
  else some ([notice startOffset line], tags)

def parseLines (singleTags : List DocCommentTag) (tags : List DocComment) :
    List (Nat × Text) → Option (List DocCommentTag × List DocComment)
  | [] => some (singleTags, tags)
  | (startOffset, line) :: rest => do
    let (singleTags, tags) ← parseLine singleTags tags startOffset line
    parseLines singleTags tags rest

def pushComment (ty : CommentType) (singleTags : List DocCommentTag) (tags : List DocComment) : List DocComment :=
  match ty, singleTags with
  | .line, [] => tags
  | .line, comment :: _ => tags ++ [.line comment]
  | .block, comments => tags ++ [.block comments]

/-- The loop over the comments -/
def parseComments (tags : List DocComment) : List Comment → Option (List DocComment)
  | [] => some tags
  | comment :: rest => do
    match ← filterComment comment with
    | none => parseComments tags rest
    | some (ty, commentLines) =>
      let (singleTags, tags) ← parseLines [] tags commentLines
      parseComments (pushComment ty singleTags tags) rest

def parseDoccomments (comments : List Comment) (start stop : Nat) : Option (List DocComment) :=
  parseComments [] (comments.filter (inRange start stop))

/-! ## What the comments say -/

/-- A line of a comment without its decoration: where it stands in the source, and how many lines before it
in the comment end with a carriage return and a newline -/
structure Line where
  place : Nat
  crlfs : Nat
  text : Text

def isDecoration (ch : Char) : Bool := ch = '/' || ch = '*' || isWhitespace ch

/-- Nothing is left without the decoration. -/
def blank (t : Text) : Bool := t.all isDecoration

def endsWithCrlf (piece : Text) : Bool :=
  piece.getLast? = some newline && piece.dropLast.getLast? = some carriageReturn

/-- The line, which starts at `place`, unless it is all decoration -/
def lineOf (decoration : Char → Bool) (place crlfs : Nat) (line : Text) : List Line :=
  let text := line.dropWhile decoration
  if text.isEmpty then [] else [⟨place + Text.size (line.takeWhile decoration), crlfs, trimEnd text⟩]

/-- The lines of a block from `place` on -/
def placeLines (place crlfs : Nat) : List Text → List Line
  | [] => []
  | piece :: rest =>
    lineOf (fun ch => isWhitespace ch || ch = '*') place crlfs (stripLineEnd piece) ++
      placeLines (place + Text.size piece) (crlfs + if endsWithCrlf piece then 1 else 0) rest

def linesOf : Comment → List Line
  | .line .. | .block .. => []
  | .docLine loc comment =>
    match lineOf (fun ch => ch = '/' || isWhitespace ch) loc.start 0 comment with
    | [] => [⟨loc.start + 3, 0, trimEnd (List.drop 3 comment)⟩]
    | lines => lines
  | .docBlock loc comment =>
    placeLines (loc.start + 3) 0 (splitInclusive (List.drop 3 comment).dropLast.dropLast)

/-- A doc comment, by its kind and its lines -/
def documented : Comment → Option (CommentType × List Line)
  | .line .. | .block .. => none
  | .docLine loc comment => some (.line, linesOf (.docLine loc comment))
  | .docBlock loc comment => some (.block, linesOf (.docBlock loc comment))

def hasTag (line : Text) : Bool := line.head? = some '@'

/-- The name behind the `@` -/
def nameOf (line : Text) : Text := line.tail.takeWhile (!isWhitespace ·)

/-- The whitespace between the name and the value -/
def gapOf (line : Text) : Text := (line.tail.dropWhile (!isWhitespace ·)).takeWhile isWhitespace

def valueOf (line : Text) : Text := if hasTag line then trim (line.tail.dropWhile (!isWhitespace ·)) else trim line

/-- The lines of a value -/
def valueLines : Text → List Text
  | [] => [[]]
  | ch :: q =>
    if ch = newline then [] :: valueLines q
    else
      match valueLines q with
      | [] => [[ch]]
      | line :: rest => (ch :: line) :: rest

def firstLine (t : Text) : Text := t.takeWhile (· ≠ newline)

/-- The text is at this offset of the source. -/
def Occurs (input : Text) (offset : Nat) (m : Text) : Prop := ∃ p q, input = p ++ m ++ q ∧ offset = Text.size p

/-- The tags that are returned -/
def tagsOf (docs : List DocComment) : List DocCommentTag := docs.flatMap (·.comments)

/-- The lines of the values -/
def held (tags : List DocCommentTag) : List Text := (tags.flatMap (valueLines ·.value)).filter (!blank ·)

/-- No text is lost: the lines of the values are those of the comments, and lines with a tag have their tags. -/
def Kept (tags : List DocCommentTag) (lines : List Text) : Prop :=
  held tags = (lines.map valueOf).filter (!blank ·) ∧
    ((lines.filter hasTag).map fun l => (nameOf l, valueOf l)).Sublist
      (tags.map fun t => (t.tag, firstLine t.value))

/-- The doc comments in the range -/
def groups (comments : List Comment) (start stop : Nat) : List (CommentType × List Line) :=
  (comments.filter (inRange start stop)).filterMap documented

/-- It ends, the tags and the first lines of the values are where they are said to be, and no text is lost. -/
def Correct (input : Text) (comments : List Comment) (start stop : Nat) : Prop :=
  ∃ docs, parseDoccomments comments start stop = some docs ∧
    (∀ t ∈ tagsOf docs, Occurs input t.tagOffset t.tag ∧ Occurs input t.valueOffset (firstLine t.value)) ∧
    Kept (tagsOf docs) ((groups comments start stop).flatMap fun g => g.2.map (·.text))

end Solang.Parser.Doc
