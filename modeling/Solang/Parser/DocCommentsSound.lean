import Solang.Parser.DocComments

/-!
# Which doc comments keep their text and their places

The tag of a line is cut one byte behind its last character; a line of a block is taken to be one
byte apart from the one before; the whitespace before a value is counted in characters; the first
line without a tag gets twice its offset; and a line without a tag is lost when the last comment
before it is a block without tags.
-/

namespace Solang.Parser.Doc

open Text (size size_append size_cons)

/-! ## Strings -/

section

variable {p : Char → Bool} {t : Text}

/-- `find` finds what `dropWhile` leaves. -/
theorem find_eq (p : Char → Bool) (t : Text) :
    find p t = if (t.dropWhile (!p ·)).isEmpty then none else some (size (t.takeWhile (!p ·))) := by
  induction t with
  | nil => rfl
  | cons ch t ih =>
    rw [find, List.dropWhile_cons, List.takeWhile_cons]
    by_cases hp : p ch = true
    · simp [hp]
    · simp only [hp, Bool.false_eq_true, if_false, Bool.not_false, if_true, ih, size_cons]
      split <;> rfl

theorem drop_takeWhile (p : Char → Bool) (t : Text) : Text.drop (size (t.takeWhile p)) t = some (t.dropWhile p) := by
  have h := Text.drop_append (t.takeWhile p) (t.dropWhile p)
  rwa [List.takeWhile_append_dropWhile] at h

theorem trimEnd_append (t : Text) : ∃ m, t = trimEnd t ++ m ∧ ∀ ch ∈ m, isWhitespace ch = true := by
  refine ⟨(t.reverse.takeWhile isWhitespace).reverse, ?_, fun ch hch => ?_⟩
  · rw [trimEnd, ← List.reverse_append, List.takeWhile_append_dropWhile, List.reverse_reverse]
  · exact List.mem_takeWhile_imp (List.mem_reverse.mp hch)

/-- No whitespace at the end -/
def Trimmed (t : Text) : Prop := ∀ ch, t.getLast? = some ch → isWhitespace ch = false

theorem trimmed_trimEnd (t : Text) : Trimmed (trimEnd t) := by
  intro ch h
  rw [trimEnd, List.getLast?_reverse] at h
  have := List.head?_dropWhile_not isWhitespace t.reverse
  rw [h] at this
  simpa using this

theorem Trimmed.trimEnd (h : Trimmed t) : trimEnd t = t := by
  have hr : t.reverse.dropWhile isWhitespace = t.reverse := by
    cases hrev : t.reverse with
    | nil => rfl
    | cons ch q =>
      have hlast : t.getLast? = some ch := by rw [List.getLast?_eq_head?_reverse, hrev, List.head?_cons]
      rw [List.dropWhile_cons, h ch hlast]
      rfl
  rw [Doc.trimEnd, hr, List.reverse_reverse]

theorem Trimmed.append_right {q : Text} (h : Trimmed (t ++ q)) : Trimmed q := by
  intro ch hq
  refine h ch ?_
  rw [List.getLast?_append, hq]
  rfl

theorem Trimmed.dropWhile (h : Trimmed t) (p : Char → Bool) : Trimmed (t.dropWhile p) := by
  refine Trimmed.append_right (t := t.takeWhile p) ?_
  rwa [List.takeWhile_append_dropWhile]

theorem Trimmed.trim (h : Trimmed t) : trim t = t.dropWhile isWhitespace := (h.dropWhile isWhitespace).trimEnd

/-- A line has no newline in it. -/
theorem valueLines_of_not_mem (h : newline ∉ t) : valueLines t = [t] := by
  induction t with
  | nil => rfl
  | cons ch t ih =>
    have hne : ch ≠ newline := fun heq => h (heq ▸ List.mem_cons_self)
    rw [valueLines, if_neg hne, ih fun hmem => h (List.mem_cons_of_mem _ hmem)]

theorem valueLines_ne_nil (t : Text) : valueLines t ≠ [] := by
  cases t with
  | nil => exact List.cons_ne_nil _ _
  | cons ch t =>
    rw [valueLines]
    split
    · exact List.cons_ne_nil _ _
    · split <;> exact List.cons_ne_nil _ _

theorem valueLines_append (t q : Text) : valueLines (t ++ newline :: q) = valueLines t ++ valueLines q := by
  induction t with
  | nil => rfl
  | cons ch t ih =>
    rw [List.cons_append, valueLines, ih, valueLines]
    split
    · rfl
    · cases h : valueLines t with
      | nil => exact absurd h (valueLines_ne_nil t)
      | cons line rest => rfl

theorem firstLine_append (t q : Text) : firstLine (t ++ newline :: q) = firstLine t := by
  induction t with
  | nil => rfl
  | cons ch t ih =>
    rw [List.cons_append, firstLine, List.takeWhile_cons, firstLine, List.takeWhile_cons]
    split
    · exact congrArg _ ih
    · rfl

theorem firstLine_of_not_mem (h : newline ∉ t) : firstLine t = t :=
  List.takeWhile_eq_self_iff.mpr fun ch hch => by
    have hne : ch ≠ newline := fun heq => h (heq ▸ hch)
    simpa using hne

end

/-! ## The lines of a comment -/

section

variable {input : Text} {offset : Nat}

variable {m p q body : Text} {place : Nat} {loc : Loc}

theorem Occurs.part (h : Occurs input offset (p ++ m ++ q)) : Occurs input (offset + size p) m := by
  obtain ⟨a, b, hin, hoffset⟩ := h
  refine ⟨a ++ p, q ++ b, by simp [hin], ?_⟩
  rw [size_append, hoffset]

theorem Occurs.left (h : Occurs input offset (m ++ q)) : Occurs input offset m := by
  have := Occurs.part (p := []) (m := m) (q := q) h
  simpa using this

theorem Occurs.right (h : Occurs input offset (p ++ m)) : Occurs input (offset + size p) m := by
  have hpart : Occurs input offset (p ++ m ++ []) := by rwa [List.append_nil]
  exact hpart.part

/-- What remains of a text is where its beginning ends. -/
theorem Occurs.dropWhile {m : Text} (h : Occurs input offset m) (p : Char → Bool) :
    Occurs input (offset + size (m.takeWhile p)) (m.dropWhile p) := by
  refine Occurs.right (p := m.takeWhile p) ?_
  rwa [List.takeWhile_append_dropWhile]

theorem Occurs.trimEnd {m : Text} (h : Occurs input offset m) : Occurs input offset (trimEnd m) := by
  obtain ⟨q, hq, -⟩ := trimEnd_append m
  rw [hq] at h
  exact h.left

/-- What the lexer says of its comments -/
def Lexed (input : Text) : Comment → Prop
  | .line .. | .block .. => True
  | .docLine loc comment => Occurs input loc.start comment ∧ newline ∉ comment ∧
      ∃ body, comment = '/' :: '/' :: '/' :: body
  | .docBlock loc comment => Occurs input loc.start comment ∧
      ∃ body, comment = '/' :: '*' :: '*' :: (body ++ ['*', '/'])

/-- A line as it is found -/
structure Line.Found (input : Text) (l : Line) : Prop where
  occurs : Occurs input l.place l.text
  trimmed : Trimmed l.text
  line : newline ∉ l.text

/-- A line with the offset that is recorded for it -/
def Line.coded (l : Line) : Nat × Text := (l.place - l.crlfs, l.text)

/-- The pieces of a text that is split at newlines -/
inductive Pieces : List Text → Prop where
  | nil : Pieces []
  | last {line : Text} (h : newline ∉ line) : Pieces [line]
  | cons {line : Text} {rest : List Text} (h : newline ∉ line) (hrest : Pieces rest) : Pieces ((line ++ [newline]) :: rest)

theorem pieces_splitInclusive (t : Text) : Pieces (splitInclusive t) ∧ (splitInclusive t).flatten = t := by
  induction t with
  | nil => exact ⟨.nil, rfl⟩
  | cons ch t ih =>
    rw [splitInclusive]
    split
    · rename_i hch
      rw [List.flatten_cons, ih.2, hch]
      exact ⟨@Pieces.cons [] _ List.not_mem_nil ih.1, rfl⟩
    · rename_i hch
      obtain ⟨hpieces, hflat⟩ := ih
      cases h : splitInclusive t with
      | nil =>
        rw [h] at hflat
        rw [← hflat]
        exact ⟨.last (by simpa using fun h => hch h.symm), rfl⟩
      | cons piece pieces =>
        rw [h] at hflat hpieces
        rw [← hflat]
        refine ⟨?_, rfl⟩
        cases hpieces with
        | last hline => exact .last (by simpa using ⟨fun h => hch h.symm, hline⟩)
        | @cons line _ hline hrest =>
          exact @Pieces.cons (ch :: line) _ (by simpa using ⟨fun h => hch h.symm, hline⟩) hrest

/-- A piece is its line, and an end of one or two bytes. -/
theorem stripLineEnd_piece {line : Text} (h : newline ∉ line) :
    ∃ m, line ++ [newline] = stripLineEnd (line ++ [newline]) ++ m ∧
      newline ∉ stripLineEnd (line ++ [newline]) ∧
      size m = 1 + if endsWithCrlf (line ++ [newline]) then 1 else 0 := by
  have hends : endsWithCrlf (line ++ [newline]) = decide (line.getLast? = some carriageReturn) := by
    simp [endsWithCrlf]
  have hstrip : stripLineEnd (line ++ [newline]) =
      if line.getLast? = some carriageReturn then line.dropLast else line := by
    simp [stripLineEnd]
  rw [hends, hstrip]
  by_cases hcr : line.getLast? = some carriageReturn
  · obtain ⟨line, rfl⟩ := List.getLast?_eq_some_iff.mp hcr
    rw [if_pos hcr, decide_eq_true hcr, List.dropLast_concat]
    refine ⟨[carriageReturn, newline], by simp, fun hmem => h (List.mem_append_left _ hmem), rfl⟩
  · rw [if_neg hcr, decide_eq_false hcr]
    exact ⟨[newline], rfl, h, rfl⟩

theorem stripLineEnd_last {line : Text} (h : newline ∉ line) : stripLineEnd line = line := by
  rw [stripLineEnd, if_neg]
  exact fun hlast => h (List.mem_of_getLast? hlast)

theorem lineOf_found (decoration : Char → Bool) (crlfs : Nat) {line : Text}
    (hoccurs : Occurs input place line) (hline : newline ∉ line) :
    ∀ l ∈ lineOf decoration place crlfs line, l.Found input := by
  intro l hl
  by_cases hempty : (line.dropWhile decoration).isEmpty = true
  · rw [lineOf, if_pos hempty] at hl
    cases hl
  · rw [lineOf, if_neg hempty] at hl
    rw [List.mem_singleton.mp hl]
    refine ⟨(hoccurs.dropWhile decoration).trimEnd, trimmed_trimEnd _, fun hmem => hline ?_⟩
    obtain ⟨m, hm, -⟩ := trimEnd_append (line.dropWhile decoration)
    have htext : newline ∈ line.dropWhile decoration := by
      rw [hm]
      exact List.mem_append_left _ hmem
    exact (List.dropWhile_sublist _).subset htext

/-- The line of a piece, as the loop reads it -/
theorem findLine_eq {start crlfs : Nat} (line : Text) (hstart : start + crlfs = place) :
    findLine start line =
    some ((lineOf (fun ch => isWhitespace ch || decide (ch = '*')) place crlfs line).map Line.coded) := by
  have hfun : (fun ch => !(!isWhitespace ch && decide (ch ≠ '*'))) = fun ch => isWhitespace ch || decide (ch = '*') := by
    funext ch
    simp
  rw [findLine, find_eq, hfun, lineOf]
  by_cases hempty : (line.dropWhile fun ch => isWhitespace ch || decide (ch = '*')).isEmpty = true
  · rw [if_pos hempty, if_pos hempty]
    rfl
  · have hoff (k : Nat) : place + k - crlfs = start + k := by omega
    rw [if_neg hempty, if_neg hempty]
    simp only [drop_takeWhile, Option.bind_eq_bind, Option.bind_some, List.map_singleton, Line.coded, hoff]

theorem blockLines_spec {pieces : List Text} (hpieces : Pieces pieces) (start crlfs : Nat)
    (hoccurs : Occurs input place pieces.flatten) (hstart : start + crlfs = place) :
    blockLines start (pieces.map stripLineEnd) = some ((placeLines place crlfs pieces).map Line.coded) ∧
      ∀ l ∈ placeLines place crlfs pieces, l.Found input := by
  induction hpieces generalizing place start crlfs with
  | nil => exact ⟨rfl, fun l hl => absurd hl List.not_mem_nil⟩
  | @last line hline =>
    rw [List.flatten_singleton] at hoccurs
    rw [List.map_singleton, stripLineEnd_last hline, placeLines, placeLines, List.append_nil, stripLineEnd_last hline]
    refine ⟨?_, lineOf_found _ _ hoccurs hline⟩
    rw [blockLines, findLine_eq line hstart, blockLines]
    simp
  | @cons line rest hline hrest ih =>
    obtain ⟨m, hm, hstrip, hsize⟩ := stripLineEnd_piece hline
    have hpiece : Occurs input place (stripLineEnd (line ++ [newline]) ++ (m ++ rest.flatten)) := by
      rw [List.flatten_cons] at hoccurs
      rwa [← List.append_assoc, ← hm]
    have hplace : size (line ++ [newline]) = size (stripLineEnd (line ++ [newline])) + size m := by
      rw [← size_append, ← hm]
    have hrestOccurs : Occurs input (place + size (line ++ [newline])) rest.flatten := by
      rw [List.flatten_cons] at hoccurs
      exact hoccurs.right
    have hnext : start + size (stripLineEnd (line ++ [newline])) + 1 +
        (crlfs + if endsWithCrlf (line ++ [newline]) then 1 else 0) = place + size (line ++ [newline]) := by
      rw [hplace, hsize]
      omega
    obtain ⟨hrun, hfound⟩ := ih _ _ hrestOccurs hnext
    rw [List.map_cons, placeLines]
    constructor
    · rw [blockLines, findLine_eq _ hstart, hrun]
      simp
    · intro l hl
      rcases List.mem_append.mp hl with hl | hl
      · exact lineOf_found _ _ hpiece.left hstrip l hl
      · exact hfound l hl

theorem linesOf_docLine {comment : Text} (hcomment : comment = '/' :: '/' :: '/' :: body)
    (hoccurs : Occurs input loc.start comment) (hline : newline ∉ comment) :
    filterComment (.docLine loc comment) = some (some (.line, (linesOf (.docLine loc comment)).map Line.coded)) ∧
      ∀ l ∈ linesOf (.docLine loc comment), l.Found input := by
  have hfun : (fun ch => !(decide (ch ≠ '/') && !isWhitespace ch)) = fun ch => decide (ch = '/') || isWhitespace ch := by
    funext ch
    simp
  have hfound := lineOf_found (fun ch => decide (ch = '/') || isWhitespace ch) 0 hoccurs hline
  rw [filterComment, find_eq, hfun, linesOf]
  by_cases hempty : (comment.dropWhile fun ch => decide (ch = '/') || isWhitespace ch).isEmpty = true
  · have hbody : Text.drop 3 comment = some body := hcomment ▸ Text.drop_append ['/', '/', '/'] body
    rw [if_pos hempty, lineOf, if_pos hempty, Option.getD_none, hbody]
    have hdrop : List.drop 3 comment = body := by rw [hcomment]; rfl
    rw [hdrop]
    refine ⟨rfl, fun l hl => ?_⟩
    rw [List.mem_singleton.mp hl]
    obtain ⟨m, hm, -⟩ := trimEnd_append body
    refine ⟨?_, trimmed_trimEnd _, fun hmem => hline ?_⟩
    · have hbodyOccurs : Occurs input loc.start (['/', '/', '/'] ++ body) := by
        rw [hcomment] at hoccurs
        exact hoccurs
      exact hbodyOccurs.right.trimEnd
    · have hmem' : newline ∈ body := by
        rw [hm]
        exact List.mem_append_left _ hmem
      rw [hcomment]
      simp [hmem']
  · rw [lineOf, if_neg hempty] at hfound
    rw [if_neg hempty, lineOf, if_neg hempty, Option.getD_some, drop_takeWhile]
    exact ⟨rfl, hfound⟩

theorem linesOf_docBlock {comment : Text}
    (hcomment : comment = ['/', '*', '*'] ++ (body ++ ['*', '/']))
    (hoccurs : Occurs input loc.start comment) :
    filterComment (.docBlock loc comment) = some (some (.block, (linesOf (.docBlock loc comment)).map Line.coded)) ∧
      ∀ l ∈ linesOf (.docBlock loc comment), l.Found input := by
  obtain ⟨hpieces, hflat⟩ := pieces_splitInclusive body
  have hbody : Occurs input (loc.start + 3) (splitInclusive body).flatten := by
    rw [hcomment] at hoccurs
    rw [hflat]
    exact hoccurs.right.left
  obtain ⟨hrun, hfound⟩ := blockLines_spec hpieces (loc.start + 3) 0 hbody rfl
  have hslice : Text.slice comment 3 (size comment - 2) = some body := by
    have hsize : size comment - 2 = size ['/', '*', '*'] + size body := by
      rw [hcomment, size_append, size_append, ← Nat.add_assoc]
      exact Nat.add_sub_cancel _ 2
    rw [hsize, hcomment]
    exact Text.slice_append ['/', '*', '*'] body ['*', '/']
  have hlist : (List.drop 3 comment).dropLast.dropLast = body := by
    rw [hcomment]
    change (body ++ ['*', '/']).dropLast.dropLast = body
    rw [show body ++ ['*', '/'] = body ++ ['*'] ++ ['/'] by simp, List.dropLast_concat, List.dropLast_concat]
  rw [filterComment, linesOf, hslice, hlist]
  refine ⟨?_, hfound⟩
  simp only [lines, hrun, Option.bind_eq_bind, Option.bind_some]

/-- What `filter_comments` gives for a comment -/
theorem filterComment_spec {c : Comment} (h : Lexed input c) :
    filterComment c = some ((documented c).map fun g => (g.1, g.2.map Line.coded)) ∧
      ∀ g, documented c = some g → ∀ l ∈ g.2, l.Found input := by
  cases c with
  | line loc comment | block loc comment => exact ⟨rfl, nofun⟩
  | docLine loc comment =>
    obtain ⟨hoccurs, hline, body, hcomment⟩ := h
    obtain ⟨hrun, hfound⟩ := linesOf_docLine hcomment hoccurs hline
    refine ⟨hrun, fun g hg => ?_⟩
    obtain rfl := Option.some.inj hg
    exact hfound
  | docBlock loc comment =>
    obtain ⟨hoccurs, body, hcomment⟩ := h
    obtain ⟨hrun, hfound⟩ := linesOf_docBlock hcomment hoccurs
    refine ⟨hrun, fun g hg => ?_⟩
    obtain rfl := Option.some.inj hg
    exact hfound

end

/-! ## The tag of a line -/

/-- The last character of the name, if there is one, has one byte. -/
def oneByteEnd (name : Text) : Bool := name.getLast?.all (·.utf8Size = 1)

theorem tagEnd_eq (last offset : Nat) (q : Text) : tagEnd last offset q =
    if (q.takeWhile (!isWhitespace ·)).isEmpty then last
    else offset + size (q.takeWhile (!isWhitespace ·)).dropLast := by
  induction q generalizing last offset with
  | nil => rfl
  | cons ch q ih =>
    rw [tagEnd, List.takeWhile_cons]
    by_cases hws : isWhitespace ch = true
    · simp [hws]
    · simp only [hws, Bool.false_eq_true, if_false, Bool.not_false, if_true, List.isEmpty_cons, ih]
      cases q.takeWhile (!isWhitespace ·) with
      | nil => rfl
      | cons c name =>
        simp only [List.isEmpty_cons, Bool.false_eq_true, if_false, List.dropLast_cons_cons, size_cons]
        omega

/-- A line with a tag is the `@`, the name, the whitespace, and the value. -/
theorem line_eq {line : Text} (h : hasTag line = true) :
    line = ['@'] ++ (nameOf line ++ line.tail.dropWhile (!isWhitespace ·)) := by
  rw [nameOf, List.takeWhile_append_dropWhile]
  obtain ⟨q, rfl⟩ := List.head?_eq_some_iff.mp (of_decide_eq_true h)
  rfl

/-- The tag that is read -/
def tagOf (startOffset : Nat) (line : Text) : DocCommentTag :=
  ⟨nameOf line, startOffset + 1, valueOf line, startOffset + size (nameOf line) + (gapOf line).length + 1⟩

theorem tagEnd_name {line : Text} (h : oneByteEnd (nameOf line) = true) :
    tagEnd 0 1 line.tail = size (nameOf line) := by
  rw [tagEnd_eq]
  change (if (nameOf line).isEmpty then 0 else 1 + size (nameOf line).dropLast) = size (nameOf line)
  rcases List.eq_nil_or_concat (nameOf line) with hname | ⟨name, ch, hname⟩
  · rw [hname]
    rfl
  · rw [hname] at h ⊢
    have hch : ch.utf8Size = 1 := by simpa [oneByteEnd] using h
    simp [hch, Nat.add_comm]

theorem tagEnd_inside {line : Text} (h : oneByteEnd (nameOf line) = false) :
    ∃ name ch, nameOf line = name ++ [ch] ∧ 1 < ch.utf8Size ∧ tagEnd 0 1 line.tail = 1 + size name := by
  have htag : tagEnd 0 1 line.tail = if (nameOf line).isEmpty then 0 else 1 + size (nameOf line).dropLast :=
    tagEnd_eq 0 1 line.tail
  rw [htag]
  rcases List.eq_nil_or_concat (nameOf line) with hname | ⟨name, ch, hname⟩
  · rw [hname] at h
    cases h
  · rw [hname] at h ⊢
    have hch : ch.utf8Size ≠ 1 := by simpa [oneByteEnd] using h
    have hpos := ch.utf8Size_pos
    exact ⟨name, ch, List.concat_eq_append, by omega, by simp⟩

theorem readTag_eq (startOffset : Nat) {line : Text} (h : hasTag line = true) :
    readTag startOffset line = if oneByteEnd (nameOf line) then some (tagOf startOffset line) else none := by
  have hline := line_eq h
  have hvalue : valueOf line = trim (line.tail.dropWhile (!isWhitespace ·)) := if_pos h
  unfold readTag
  by_cases hend : oneByteEnd (nameOf line) = true
  · have hdrop : Text.drop (size (nameOf line) + 1) line = some (line.tail.dropWhile (!isWhitespace ·)) := by
      have := Text.drop_append (['@'] ++ nameOf line) (line.tail.dropWhile (!isWhitespace ·))
      rw [List.append_assoc, ← hline, size_append] at this
      rwa [Nat.add_comm] at this
    have hslice : Text.slice line 1 (size (nameOf line) + 1) = some (nameOf line) := by
      have := Text.slice_append ['@'] (nameOf line) (line.tail.dropWhile (!isWhitespace ·))
      rw [← hline] at this
      rwa [Nat.add_comm (size (nameOf line))]
    simp only [tagEnd_name hend, hdrop, hslice, Option.bind_eq_bind, Option.bind_some, if_pos hend]
    rw [tagOf, hvalue]
    rfl
  · rw [Bool.not_eq_true] at hend
    obtain ⟨name, ch, hname, hch, hstop⟩ := tagEnd_inside hend
    have hdrop : Text.drop (1 + size name + 1) line = none := by
      have := Text.drop_inside (c := ch) (['@'] ++ name) Nat.zero_lt_one hch
        (line.tail.dropWhile (!isWhitespace ·))
      rw [size_append, show size ['@'] = 1 from rfl] at this
      rw [hline, hname]
      simpa using this
    simp only [hstop, hdrop, Option.bind_eq_bind, Option.bind_none, hend, Bool.false_eq_true, if_false]

/-! ## The loop over the lines -/

/-- Where a line without a tag goes: it is the first of all, or it is appended to the last tag, or there is none
because the last comment is a block without tags. -/
inductive Mode where
  | start
  | holding
  | empty
  deriving DecidableEq

def modeOf (singleTags : List DocCommentTag) (tags : List DocComment) : Mode :=
  if singleTags ≠ [] then .holding
  else
    match tags.getLast? with
    | none => .start
    | some doc => if doc.comments = [] then .empty else .holding

namespace Mode

def line (m : Mode) (text : Text) : Mode := if hasTag text ∨ m = .start then .holding else m

/-- The tag that is made for a line, if any -/
def newTag (m : Mode) (l : Line) : List DocCommentTag :=
  if hasTag l.text then [tagOf (l.place - l.crlfs) l.text]
  else if m = .start then [notice (l.place - l.crlfs) l.text]
  else []

/-- What is kept of a line in a value -/
def keeps (m : Mode) (l : Line) : List Text :=
  if hasTag l.text = false ∧ m = .empty then [] else [valueOf l.text].filter (!blank ·)

def lines (m : Mode) (ls : List Line) : Mode := ls.foldl (fun m l => m.line l.text) m

def newTags (m : Mode) : List Line → List DocCommentTag
  | [] => []
  | l :: ls => m.newTag l ++ newTags (m.line l.text) ls

def keepsAll (m : Mode) : List Line → List Text
  | [] => []
  | l :: ls => m.keeps l ++ keepsAll (m.line l.text) ls

/-- Behind a comment -/
def comment (m : Mode) (g : CommentType × List Line) : Mode :=
  if g.1 = .block ∧ m.newTags g.2 = [] then .empty else m.lines g.2

/-- The tags that are made for the comments -/
def made (m : Mode) : List (CommentType × List Line) → List DocCommentTag
  | [] => []
  | g :: gs => m.newTags g.2 ++ made (m.comment g) gs

/-- What is kept of the comments in the values -/
def kept (m : Mode) : List (CommentType × List Line) → List Text
  | [] => []
  | g :: gs => m.keepsAll g.2 ++ kept (m.comment g) gs

end Mode

/-- A tag, and the first line of its value -/
def DocCommentTag.core (t : DocCommentTag) : DocCommentTag := { t with value := firstLine t.value }

/-- A line whose tag cannot be cut -/
def Line.Broken (l : Line) : Prop := hasTag l.text = true ∧ oneByteEnd (nameOf l.text) = false

/-- All tags so far -/
def allTags (singleTags : List DocCommentTag) (tags : List DocComment) : List DocCommentTag := tagsOf tags ++ singleTags

section

variable {t : DocCommentTag} {l : List DocCommentTag} {x : Text} {singleTags : List DocCommentTag}
  {tags : List DocComment}

theorem modifyLast_concat {α : Type} (f : α → α) (l : List α) (a : α) : modifyLast f (l ++ [a]) = l ++ [f a] := by
  induction l with
  | nil => rfl
  | cons b l ih =>
    cases l with
    | nil => rfl
    | cons c l => exact congrArg _ ih

theorem held_append (l l' : List DocCommentTag) : held (l ++ l') = held l ++ held l' := by
  rw [held, List.flatMap_append, List.filter_append, held, held]

theorem held_pushLine (t : DocCommentTag) (h : newline ∉ x) :
    held [t.pushLine x] = held [t] ++ [x].filter (!blank ·) := by
  simp only [held, List.flatMap_singleton, DocCommentTag.pushLine, valueLines_append, List.filter_append,
    valueLines_of_not_mem h]

theorem core_pushLine (t : DocCommentTag) (x : Text) : (t.pushLine x).core = t.core := by
  simp only [DocCommentTag.core, DocCommentTag.pushLine, firstLine_append]

theorem tagsOf_append (docs docs' : List DocComment) : tagsOf (docs ++ docs') = tagsOf docs ++ tagsOf docs' :=
  List.flatMap_append

/-- The last tag of a comment gets the line. -/
theorem comments_pushLine (doc : DocComment) (x : Text) :
    (doc.pushLine x).comments = modifyLast (·.pushLine x) doc.comments := by
  cases doc <;> rfl

/-- A line that is appended to the last tag of all -/
theorem modifyLast_facts (hx : newline ∉ x) (hl : l ≠ []) :
    (modifyLast (·.pushLine x) l).map (·.core) = l.map (·.core) ∧
      held (modifyLast (·.pushLine x) l) = held l ++ [x].filter (!blank ·) ∧
      (modifyLast (·.pushLine x) l).length = l.length := by
  obtain rfl | ⟨l, t, h⟩ := List.eq_nil_or_concat l
  · exact absurd rfl hl
  · rw [h, List.concat_eq_append, modifyLast_concat]
    refine ⟨?_, ?_, ?_⟩
    · rw [List.map_append, List.map_append, List.map_singleton, List.map_singleton, core_pushLine]
    · rw [held_append, held_append, held_pushLine t hx, List.append_assoc]
    · rw [List.length_append, List.length_append, List.length_singleton, List.length_singleton]

/-- A step that makes no tag: what it keeps, and what stays as it is -/
structure Appended (gained : List Text) (s s' : List DocCommentTag × List DocComment) : Prop where
  cores : (allTags s'.1 s'.2).map (·.core) = (allTags s.1 s.2).map (·.core)
  held : held (allTags s'.1 s'.2) = held (allTags s.1 s.2) ++ gained
  mode : modeOf s'.1 s'.2 = modeOf s.1 s.2
  single : s'.1.length = s.1.length

theorem modeOf_of_ne (h : singleTags ≠ []) : modeOf singleTags tags = .holding := if_pos h

theorem modeOf_concat (docs : List DocComment) (doc : DocComment) :
    modeOf [] (docs ++ [doc]) = if doc.comments = [] then .empty else .holding := by
  rw [modeOf, if_neg (not_not.mpr rfl), List.getLast?_concat]

theorem allTags_concat (docs : List DocComment) (doc : DocComment) :
    allTags [] (docs ++ [doc]) = tagsOf docs ++ doc.comments := by
  rw [allTags, List.append_nil, tagsOf_append]
  exact congrArg _ (List.append_nil doc.comments)

/-- The last comment gets the line. -/
theorem pushLine_appended (hx : newline ∉ x) (docs : List DocComment) (doc : DocComment) :
    Appended (if modeOf [] (docs ++ [doc]) = .empty then [] else [x].filter (!blank ·)) ([], docs ++ [doc])
      ([], docs ++ [doc.pushLine x]) := by
  by_cases hdoc : doc.comments = []
  · have hpush : (doc.pushLine x).comments = [] := by
      rw [comments_pushLine, hdoc]
      rfl
    refine ⟨?_, ?_, ?_, rfl⟩
    · simp only [allTags_concat, hdoc, hpush]
    · simp only [allTags_concat, modeOf_concat, hdoc, hpush, if_true, List.append_nil]
    · simp only [modeOf_concat, hdoc, hpush]
  · obtain ⟨hcores, hheld, hlen⟩ := modifyLast_facts hx hdoc
    rw [← comments_pushLine] at hcores hheld hlen
    have hpush : (doc.pushLine x).comments ≠ [] :=
      fun h => hdoc (List.eq_nil_of_length_eq_zero (by rw [← hlen, h]; rfl))
    refine ⟨?_, ?_, ?_, rfl⟩
    · simp only [allTags_concat, List.map_append, hcores]
    · simp only [allTags_concat, modeOf_concat, held_append, hheld, List.append_assoc, if_neg hdoc]
      rfl
    · simp only [modeOf_concat, if_neg hdoc, if_neg hpush]

theorem appendLine_appended {line : Text} (hx : newline ∉ trim line) (hne : singleTags ≠ [] ∨ tags ≠ []) :
    Appended (if modeOf singleTags tags = .empty then [] else [trim line].filter (!blank ·)) (singleTags, tags)
      (appendLine line singleTags tags) := by
  unfold appendLine
  by_cases hline : trim line = []
  · rw [hline]
    exact ⟨rfl, by split <;> simp [blank], rfl, rfl⟩
  · have hempty : (trim line).isEmpty = false := List.isEmpty_eq_false_iff.mpr hline
    simp only [hempty, Bool.false_eq_true, if_false]
    by_cases hsingle : singleTags = []
    · subst hsingle
      obtain rfl | ⟨docs, doc, h⟩ := List.eq_nil_or_concat tags
      · exact absurd rfl (hne.resolve_left (not_not.mpr rfl))
      · rw [List.concat_eq_append] at h
        subst h
        simp only [List.isEmpty_nil, if_true, modifyLast_concat]
        exact pushLine_appended hx docs doc
    · have hisEmpty : singleTags.isEmpty = false := List.isEmpty_eq_false_iff.mpr hsingle
      obtain ⟨hcores, hheld, hlen⟩ := modifyLast_facts hx hsingle
      have hne' : modifyLast (·.pushLine (trim line)) singleTags ≠ [] :=
        fun h => hsingle (List.eq_nil_of_length_eq_zero (by rw [← hlen, h]; rfl))
      simp only [hisEmpty, Bool.false_eq_true, if_false, modeOf_of_ne hsingle]
      refine ⟨?_, ?_, ?_, hlen⟩
      · simp only [allTags, List.map_append, hcores]
      · simp only [allTags, held_append, hheld, List.append_assoc]
        rfl
      · rw [modeOf_of_ne hne', modeOf_of_ne hsingle]

/-- What is read: the tags that are made, what is kept, and the state that follows -/
structure Read (made : List DocCommentTag) (gained : List Text) (m : Mode) (s s' : List DocCommentTag × List DocComment) :
    Prop where
  cores : (allTags s'.1 s'.2).map (·.core) = (allTags s.1 s.2).map (·.core) ++ made.map (·.core)
  held : held (allTags s'.1 s'.2) = held (allTags s.1 s.2) ++ gained
  mode : modeOf s'.1 s'.2 = m
  single : s'.1.length = s.1.length + made.length

theorem Read.trans {made made' : List DocCommentTag} {gained gained' : List Text} {m m' : Mode}
    {s s' s'' : List DocCommentTag × List DocComment} (h : Read made gained m s s')
    (h' : Read made' gained' m' s' s'') : Read (made ++ made') (gained ++ gained') m' s s'' where
  cores := by rw [h'.cores, h.cores, List.map_append, List.append_assoc]
  held := by rw [h'.held, h.held, List.append_assoc]
  mode := h'.mode
  single := by rw [h'.single, h.single, List.length_append, Nat.add_assoc]

/-- A new tag -/
theorem read_newTag (ht : newline ∉ t.value) :
    Read [t] ([t.value].filter (!blank ·)) .holding (singleTags, tags) (singleTags ++ [t], tags) where
  cores := by simp [allTags]
  held := by
    have hvalue : held [t] = [t.value].filter (!blank ·) := by
      rw [held, List.flatMap_singleton, valueLines_of_not_mem ht]
    simp only [allTags, ← List.append_assoc, held_append, hvalue]
  mode := modeOf_of_ne (by simp)
  single := by simp

theorem not_mem_dropWhile (h : newline ∉ x) (p : Char → Bool) : newline ∉ x.dropWhile p :=
  fun hmem => h ((List.dropWhile_sublist p).subset hmem)

theorem not_mem_trim (h : newline ∉ x) : newline ∉ trim x := by
  obtain ⟨m, hm, -⟩ := trimEnd_append (x.dropWhile isWhitespace)
  intro hmem
  refine not_mem_dropWhile h isWhitespace ?_
  rw [hm]
  exact List.mem_append_left _ hmem

theorem not_mem_valueOf (h : newline ∉ x) : newline ∉ valueOf x := by
  unfold valueOf
  split
  · exact not_mem_trim (not_mem_dropWhile (fun hmem => h (List.mem_of_mem_tail hmem)) _)
  · exact not_mem_trim h

/-- A line that is read, or a tag that cannot be cut -/
def LineRead (l : Line) (s : List DocCommentTag × List DocComment) :
    Option (List DocCommentTag × List DocComment) → Prop
  | none => l.Broken
  | some s' => ¬ l.Broken ∧ Read ((modeOf s.1 s.2).newTag l) ((modeOf s.1 s.2).keeps l) ((modeOf s.1 s.2).line l.text) s s'

theorem modeOf_eq_start : modeOf singleTags tags = .start ↔ singleTags = [] ∧ tags = [] := by
  by_cases hsingle : singleTags = []
  · subst hsingle
    obtain rfl | ⟨docs, doc, h⟩ := List.eq_nil_or_concat tags
    · simp [modeOf]
    · rw [List.concat_eq_append] at h
      subst h
      rw [modeOf_concat]
      split <;> simp
  · rw [modeOf_of_ne hsingle]
    simp [hsingle]

theorem parseLine_read (l : Line) (hl : newline ∉ l.text) (singleTags : List DocCommentTag) (tags : List DocComment) :
    LineRead l (singleTags, tags) (parseLine singleTags tags (l.place - l.crlfs) l.text) := by
  unfold parseLine
  by_cases htag : hasTag l.text = true
  · rw [if_pos (of_decide_eq_true htag), readTag_eq _ htag]
    cases hend : oneByteEnd (nameOf l.text) with
    | false => exact ⟨htag, hend⟩
    | true =>
      refine ⟨fun h => ?_, ?_⟩
      · rw [h.2] at hend
        cases hend
      · have hkeeps : (modeOf singleTags tags).keeps l = [valueOf l.text].filter (!blank ·) :=
          if_neg fun h => by rw [h.1] at htag; cases htag
        rw [hkeeps, Mode.newTag, if_pos htag, Mode.line, if_pos (.inl htag)]
        exact read_newTag (not_mem_valueOf hl)
  · have hhead : ¬ l.text.head? = some '@' := fun h => htag (decide_eq_true h)
    have hvalue : valueOf l.text = trim l.text := if_neg htag
    have hbroken : ¬ l.Broken := fun h => htag h.1
    rw [if_neg hhead]
    by_cases hstart : modeOf singleTags tags = .start
    · obtain ⟨rfl, rfl⟩ := modeOf_eq_start.mp hstart
      refine ⟨hbroken, ?_⟩
      have hkeeps : (modeOf ([] : List DocCommentTag) []).keeps l = [valueOf l.text].filter (!blank ·) :=
        if_neg fun h => by rw [hstart] at h; cases h.2
      rw [hkeeps, Mode.newTag, if_neg htag, if_pos hstart, Mode.line, if_pos (.inr hstart), hvalue]
      exact read_newTag (t := notice _ _) (not_mem_trim hl)
    · have hne : singleTags ≠ [] ∨ tags ≠ [] := by
        by_contra hnil
        exact hstart (modeOf_eq_start.mpr (by simpa [not_or] using hnil))
      have hcond : (!singleTags.isEmpty || !tags.isEmpty) = true := by
        rcases hne with h | h <;> simp [h]
      rw [if_pos hcond]
      obtain ⟨hcores, hheld, hmode, hsingle⟩ := appendLine_appended (not_mem_trim hl) hne
      refine ⟨hbroken, ?_⟩
      have hkeeps : (modeOf singleTags tags).keeps l =
          if modeOf singleTags tags = .empty then [] else [trim l.text].filter (!blank ·) := by
        rw [Mode.keeps, hvalue]
        simp [htag]
      have hnew : (modeOf singleTags tags).newTag l = [] := by rw [Mode.newTag, if_neg htag, if_neg hstart]
      have hline : (modeOf singleTags tags).line l.text = modeOf singleTags tags :=
        if_neg (not_or.mpr ⟨htag, hstart⟩)
      rw [hkeeps, hnew, hline]
      exact ⟨hcores.trans (List.append_nil _).symm, hheld, hmode, hsingle⟩

/-- The lines of a comment that are read, or a tag that cannot be cut -/
def LinesRead (ls : List Line) (s : List DocCommentTag × List DocComment) :
    Option (List DocCommentTag × List DocComment) → Prop
  | none => ∃ l ∈ ls, l.Broken
  | some s' => (∀ l ∈ ls, ¬ l.Broken) ∧
      Read ((modeOf s.1 s.2).newTags ls) ((modeOf s.1 s.2).keepsAll ls) ((modeOf s.1 s.2).lines ls) s s'

theorem parseLines_read (ls : List Line) (hls : ∀ l ∈ ls, newline ∉ l.text) (singleTags : List DocCommentTag)
    (tags : List DocComment) : LinesRead ls (singleTags, tags) (parseLines singleTags tags (ls.map Line.coded)) := by
  induction ls generalizing singleTags tags with
  | nil =>
    exact ⟨fun l hl => absurd hl List.not_mem_nil, ⟨(List.append_nil _).symm, (List.append_nil _).symm, rfl, rfl⟩⟩
  | cons l ls ih =>
    obtain ⟨hl, hls⟩ := List.forall_mem_cons.mp hls
    have hread := parseLine_read l hl singleTags tags
    rw [List.map_cons, Line.coded, parseLines]
    cases hline : parseLine singleTags tags (l.place - l.crlfs) l.text with
    | none =>
      rw [hline] at hread
      exact ⟨l, List.mem_cons_self, hread⟩
    | some s =>
      rw [hline] at hread
      obtain ⟨hbroken, hread⟩ := hread
      have hrest := ih hls s.1 s.2
      change LinesRead (l :: ls) (singleTags, tags) (parseLines s.1 s.2 (ls.map Line.coded))
      cases hlines : parseLines s.1 s.2 (ls.map Line.coded) with
      | none =>
        rw [hlines] at hrest
        obtain ⟨l', hl', hbroken'⟩ := hrest
        exact ⟨l', List.mem_cons_of_mem _ hl', hbroken'⟩
      | some s' =>
        rw [hlines] at hrest
        obtain ⟨hunbroken, hrest⟩ := hrest
        rw [hread.mode] at hrest
        exact ⟨List.forall_mem_cons.mpr ⟨hbroken, hunbroken⟩, hread.trans hrest⟩

/-! ## The loop over the comments -/

theorem length_newTags_le (m : Mode) (ls : List Line) : (m.newTags ls).length ≤ ls.length := by
  induction ls generalizing m with
  | nil => exact Nat.le_refl _
  | cons l ls ih =>
    have hl : (m.newTag l).length ≤ 1 := by
      unfold Mode.newTag
      split
      · exact Nat.le_refl _
      · split
        · exact Nat.le_refl _
        · exact Nat.zero_le _
    have hls := ih (m.line l.text)
    rw [Mode.newTags, List.length_append, List.length_cons]
    omega

theorem length_of_documented {c : Comment} {g : CommentType × List Line} (h : documented c = some g)
    (hline : g.1 = .line) : g.2.length ≤ 1 := by
  cases c with
  | line | block => cases h
  | docLine loc comment =>
    obtain rfl := Option.some.inj h
    change (linesOf (.docLine loc comment)).length ≤ 1
    unfold linesOf lineOf
    by_cases hempty : (comment.dropWhile fun ch => decide (ch = '/') || isWhitespace ch).isEmpty = true
    · simp [hempty]
    · simp [hempty]
  | docBlock loc comment =>
    obtain rfl := Option.some.inj h
    cases hline

/-- The comments that are read, or a tag that cannot be cut -/
def CommentsRead (gs : List (CommentType × List Line)) (tags : List DocComment) : Option (List DocComment) → Prop
  | none => ∃ g ∈ gs, ∃ l ∈ g.2, l.Broken
  | some docs => (∀ g ∈ gs, ∀ l ∈ g.2, ¬ l.Broken) ∧
      (tagsOf docs).map (·.core) = (tagsOf tags).map (·.core) ++ ((modeOf [] tags).made gs).map (·.core) ∧
      held (tagsOf docs) = held (tagsOf tags) ++ (modeOf [] tags).kept gs

theorem tagsOf_pushComment {ty : CommentType} (h : ty = .line → singleTags.length ≤ 1) :
    tagsOf (pushComment ty singleTags tags) = allTags singleTags tags := by
  cases ty with
  | block =>
    rw [pushComment, tagsOf_append, allTags]
    exact congrArg _ (List.append_nil singleTags)
  | line =>
    have hlen := h rfl
    rcases singleTags with _ | ⟨t, _ | ⟨t', rest⟩⟩
    · exact (List.append_nil _).symm
    · rw [pushComment, tagsOf_append, allTags]
      rfl
    · simp at hlen

@[simp] theorem comments_block (comments : List DocCommentTag) : (DocComment.block comments).comments = comments := rfl

@[simp] theorem comments_line (comment : DocCommentTag) : (DocComment.line comment).comments = [comment] := rfl

theorem modeOf_pushComment (ty : CommentType) (singleTags : List DocCommentTag) (tags : List DocComment) :
    modeOf [] (pushComment ty singleTags tags) =
      if ty = .block ∧ singleTags = [] then .empty else modeOf singleTags tags := by
  cases ty with
  | block =>
    rw [pushComment, modeOf_concat, comments_block]
    by_cases hsingle : singleTags = []
    · rw [if_pos hsingle, if_pos ⟨rfl, hsingle⟩]
    · rw [if_neg hsingle, if_neg fun h => hsingle h.2, modeOf_of_ne hsingle]
  | line =>
    rw [if_neg fun h => by cases h.1]
    cases singleTags with
    | nil => rfl
    | cons t rest =>
      rw [pushComment, modeOf_concat, comments_line, modeOf_of_ne (List.cons_ne_nil _ _),
        if_neg (List.cons_ne_nil _ _)]

theorem parseComments_read {input : Text} {comments : List Comment} (hlexed : ∀ c ∈ comments, Lexed input c)
    (tags : List DocComment) : CommentsRead (comments.filterMap documented) tags (parseComments tags comments) := by
  induction comments generalizing tags with
  | nil => exact ⟨fun g hg => absurd hg List.not_mem_nil, (List.append_nil _).symm, (List.append_nil _).symm⟩
  | cons c comments ih =>
    obtain ⟨hc, hcomments⟩ := List.forall_mem_cons.mp hlexed
    obtain ⟨hfilter, hfound⟩ := filterComment_spec hc
    rw [parseComments, hfilter]
    cases hdoc : documented c with
    | none =>
      rw [List.filterMap_cons_none hdoc]
      exact ih hcomments tags
    | some g =>
      rw [List.filterMap_cons_some hdoc]
      have hlines := parseLines_read g.2 (fun l hl => (hfound g hdoc l hl).line) [] tags
      cases hrun : parseLines [] tags (g.2.map Line.coded) with
      | none =>
        rw [hrun] at hlines
        simp only [Option.map_some, Option.bind_eq_bind, Option.bind_some, hrun, Option.bind_none]
        exact ⟨g, List.mem_cons_self, hlines⟩
      | some s =>
        rw [hrun] at hlines
        obtain ⟨hunbroken, hread⟩ := hlines
        have hlen : s.1.length = ((modeOf [] tags).newTags g.2).length := hread.single.trans (Nat.zero_add _)
        have htags : tagsOf (pushComment g.1 s.1 s.2) = allTags s.1 s.2 := by
          refine tagsOf_pushComment fun hty => ?_
          rw [hlen]
          exact Nat.le_trans (length_newTags_le _ _) (length_of_documented hdoc hty)
        have hmode : modeOf [] (pushComment g.1 s.1 s.2) = (modeOf [] tags).comment g := by
          rw [modeOf_pushComment, hread.mode, Mode.comment]
          simp only [← List.length_eq_zero_iff, hlen]
        have hrest := ih hcomments (pushComment g.1 s.1 s.2)
        simp only [Option.map_some, Option.bind_eq_bind, Option.bind_some, hrun]
        cases hcs : parseComments (pushComment g.1 s.1 s.2) comments with
        | none =>
          rw [hcs] at hrest
          obtain ⟨g', hg', hbroken⟩ := hrest
          exact ⟨g', List.mem_cons_of_mem _ hg', hbroken⟩
        | some docs =>
          rw [hcs] at hrest
          obtain ⟨hunbroken', hcores, hheld⟩ := hrest
          have hstart : allTags [] tags = tagsOf tags := List.append_nil _
          rw [hmode, htags] at hcores hheld
          refine ⟨List.forall_mem_cons.mpr ⟨hunbroken, hunbroken'⟩, ?_, ?_⟩
          · rw [hcores, hread.cores, hstart, Mode.made, List.map_append, List.append_assoc]
          · rw [hheld, hread.held, hstart, Mode.kept, List.append_assoc]

end

/-! ## When nothing is lost and everything is where it is said to be -/

section

variable {input : Text}

def TagPlaced (input : Text) (t : DocCommentTag) : Prop :=
  Occurs input t.tagOffset t.tag ∧ Occurs input t.valueOffset (firstLine t.value)

/-- What is needed of a line. With a tag, the last character of the name has one byte, and either no line before it
in the comment ends with a carriage return and the whitespace before the value has one byte a character, or the
source has the same text at the offset that is recorded. Without a tag, the first line of all needs the text at
twice its offset, and behind a block without tags nothing may be left of the line. -/
def MetLine (input : Text) (m : Mode) (l : Line) : Prop :=
  if hasTag l.text then
    oneByteEnd (nameOf l.text) = true ∧
      (l.crlfs = 0 ∨ Occurs input (l.place - l.crlfs + 1) (nameOf l.text)) ∧
      (l.crlfs = 0 ∧ size (gapOf l.text) = (gapOf l.text).length ∨
        Occurs input (l.place - l.crlfs + size (nameOf l.text) + (gapOf l.text).length + 1) (valueOf l.text))
  else
    match m with
    | .start => TagPlaced input (notice (l.place - l.crlfs) l.text)
    | .holding => True
    | .empty => blank (valueOf l.text) = true

def MetLines (input : Text) (m : Mode) : List Line → Prop
  | [] => True
  | l :: ls => MetLine input m l ∧ MetLines input (m.line l.text) ls

def Met (input : Text) (m : Mode) : List (CommentType × List Line) → Prop
  | [] => True
  | g :: gs => MetLines input m g.2 ∧ Met input (m.comment g) gs

/-- What is to be kept of the lines in the values -/
def wanted (ls : List Line) : List Text := (ls.map fun l => valueOf l.text).filter (!blank ·)

variable {α : Type} {ls : List Line} {gs : List (CommentType × List Line)}

theorem append_inj_of_le {a b c d : List α} (hac : a.length ≤ c.length) (hbd : b.length ≤ d.length) :
    a ++ b = c ++ d ↔ a = c ∧ b = d := by
  refine ⟨fun h => ?_, fun ⟨h, h'⟩ => by rw [h, h']⟩
  have hlen := congrArg List.length h
  rw [List.length_append, List.length_append] at hlen
  exact List.append_inj h (by omega)

theorem wanted_cons (l : Line) (ls : List Line) : wanted (l :: ls) = [valueOf l.text].filter (!blank ·) ++ wanted ls := by
  rw [wanted, List.map_cons, ← List.singleton_append, List.filter_append]
  rfl

theorem length_keeps_le (m : Mode) (l : Line) : (m.keeps l).length ≤ ([valueOf l.text].filter (!blank ·)).length := by
  unfold Mode.keeps
  split
  · exact Nat.zero_le _
  · exact Nat.le_refl _

theorem length_keepsAll_le (m : Mode) (ls : List Line) : (m.keepsAll ls).length ≤ (wanted ls).length := by
  induction ls generalizing m with
  | nil => exact Nat.le_refl _
  | cons l ls ih =>
    rw [Mode.keepsAll, wanted_cons, List.length_append, List.length_append]
    exact Nat.add_le_add (length_keeps_le m l) (ih _)

/-- The places of the name and the value -/
theorem Line.Found.tag {l : Line} (h : l.Found input) (htag : hasTag l.text = true) :
    Occurs input (l.place + 1) (nameOf l.text) ∧
      Occurs input (l.place + size (nameOf l.text) + size (gapOf l.text) + 1) (valueOf l.text) := by
  have hoccurs := h.occurs
  rw [line_eq htag] at hoccurs
  have hbehind : Occurs input (l.place + 1) (nameOf l.text ++ l.text.tail.dropWhile (!isWhitespace ·)) :=
    hoccurs.right
  refine ⟨hbehind.left, ?_⟩
  have htrimmed : Trimmed (l.text.tail.dropWhile (!isWhitespace ·)) := by
    have ht := h.trimmed
    rw [line_eq htag, ← List.append_assoc] at ht
    exact ht.append_right
  have hvalue : valueOf l.text = (l.text.tail.dropWhile (!isWhitespace ·)).dropWhile isWhitespace := by
    rw [valueOf, if_pos htag, htrimmed.trim]
  have hat := hbehind.right.dropWhile isWhitespace
  rw [hvalue]
  have hplace : l.place + size (nameOf l.text) + size (gapOf l.text) + 1 =
      l.place + 1 + size (nameOf l.text) + size ((l.text.tail.dropWhile (!isWhitespace ·)).takeWhile isWhitespace) := by
    rw [gapOf]
    omega
  rw [hplace]
  exact hat

theorem metLine_iff (m : Mode) {l : Line} (h : l.Found input) : MetLine input m l ↔
    ¬ l.Broken ∧ (∀ t ∈ m.newTag l, TagPlaced input t) ∧ m.keeps l = [valueOf l.text].filter (!blank ·) := by
  unfold MetLine
  by_cases htag : hasTag l.text = true
  · have hkeeps : m.keeps l = [valueOf l.text].filter (!blank ·) :=
      if_neg fun h => by rw [h.1] at htag; cases htag
    have hbroken : ¬ l.Broken ↔ oneByteEnd (nameOf l.text) = true := by simp [Line.Broken, htag]
    have hnew : m.newTag l = [tagOf (l.place - l.crlfs) l.text] := if_pos htag
    rw [if_pos htag, hbroken, hnew, List.forall_mem_singleton, and_iff_left hkeeps]
    refine and_congr_right fun _ => ?_
    obtain ⟨hname, hvalue⟩ := h.tag htag
    have hfirst : firstLine (valueOf l.text) = valueOf l.text := firstLine_of_not_mem (not_mem_valueOf h.line)
    rw [TagPlaced, tagOf, hfirst]
    refine and_congr (or_iff_right_of_imp fun hcrlfs => ?_) (or_iff_right_of_imp fun ⟨hcrlfs, hgap⟩ => ?_)
    · rwa [hcrlfs]
    · rwa [hcrlfs, ← hgap]
  · have hbroken : ¬ l.Broken := fun h => htag h.1
    rw [if_neg htag, and_iff_right hbroken, Mode.newTag, if_neg htag, Mode.keeps]
    rw [Bool.not_eq_true] at htag
    cases m with
    | start | holding => simp [htag]
    | empty =>
      cases hblank : blank (valueOf l.text) <;> simp [htag, hblank]

theorem metLines_iff (m : Mode) (h : ∀ l ∈ ls, l.Found input) : MetLines input m ls ↔
    (∀ l ∈ ls, ¬ l.Broken) ∧ (∀ t ∈ m.newTags ls, TagPlaced input t) ∧ m.keepsAll ls = wanted ls := by
  induction ls generalizing m with
  | nil => simp [MetLines, Mode.newTags, Mode.keepsAll, wanted]
  | cons l ls ih =>
    obtain ⟨hl, hls⟩ := List.forall_mem_cons.mp h
    rw [MetLines, metLine_iff m hl, ih _ hls, Mode.newTags, Mode.keepsAll, wanted_cons, List.forall_mem_cons,
      List.forall_mem_append, append_inj_of_le (length_keeps_le m l) (length_keepsAll_le _ ls)]
    tauto

theorem length_kept_le (m : Mode) (gs : List (CommentType × List Line)) :
    (m.kept gs).length ≤ (gs.flatMap fun g => wanted g.2).length := by
  induction gs generalizing m with
  | nil => exact Nat.le_refl _
  | cons g gs ih =>
    rw [Mode.kept, List.flatMap_cons, List.length_append, List.length_append]
    exact Nat.add_le_add (length_keepsAll_le m g.2) (ih _)

theorem met_iff (m : Mode) (h : ∀ g ∈ gs, ∀ l ∈ g.2, l.Found input) :
    Met input m gs ↔ (∀ g ∈ gs, ∀ l ∈ g.2, ¬ l.Broken) ∧ (∀ t ∈ m.made gs, TagPlaced input t) ∧
      m.kept gs = gs.flatMap fun g => wanted g.2 := by
  induction gs generalizing m with
  | nil => simp [Met, Mode.made, Mode.kept]
  | cons g gs ih =>
    obtain ⟨hg, hgs⟩ := List.forall_mem_cons.mp h
    rw [Met, metLines_iff m hg, ih _ hgs, Mode.made, Mode.kept, List.flatMap_cons, List.forall_mem_cons,
      List.forall_mem_append, append_inj_of_le (length_keepsAll_le m g.2) (length_kept_le _ gs)]
    tauto

/-- The lines with a tag have their tags. -/
theorem names_newTags (m : Mode) (h : ∀ l ∈ ls, newline ∉ l.text) :
    (((ls.map (·.text)).filter hasTag).map fun l => (nameOf l, valueOf l)).Sublist
      ((m.newTags ls).map fun t => (t.tag, firstLine t.value)) := by
  induction ls generalizing m with
  | nil => exact List.nil_sublist _
  | cons l ls ih =>
    obtain ⟨hl, hls⟩ := List.forall_mem_cons.mp h
    rw [Mode.newTags, List.map_append, List.map_cons]
    by_cases htag : hasTag l.text = true
    · rw [List.filter_cons_of_pos htag, List.map_cons, Mode.newTag, if_pos htag, List.map_singleton, tagOf,
        firstLine_of_not_mem (not_mem_valueOf hl)]
      exact (ih _ hls).cons_cons _
    · rw [List.filter_cons_of_neg htag]
      exact (ih _ hls).trans (List.sublist_append_right _ _)

theorem names_made (m : Mode) (h : ∀ g ∈ gs, ∀ l ∈ g.2, newline ∉ l.text) :
    (((gs.flatMap fun g => g.2.map (·.text)).filter hasTag).map fun l => (nameOf l, valueOf l)).Sublist
      ((m.made gs).map fun t => (t.tag, firstLine t.value)) := by
  induction gs generalizing m with
  | nil => exact List.nil_sublist _
  | cons g gs ih =>
    obtain ⟨hg, hgs⟩ := List.forall_mem_cons.mp h
    rw [Mode.made, List.map_append, List.flatMap_cons, List.filter_append, List.map_append]
    exact (names_newTags m hg).append (ih _ hgs)

theorem wanted_groups (gs : List (CommentType × List Line)) : (gs.flatMap fun g => wanted g.2) =
    ((gs.flatMap fun g => g.2.map (·.text)).map valueOf).filter (!blank ·) := by
  induction gs with
  | nil => rfl
  | cons g gs ih =>
    rw [List.flatMap_cons, List.flatMap_cons, List.map_append, List.filter_append, ih, wanted, List.map_map]
    rfl

/-- A property of the first lines holds of both lists of tags or of none. -/
theorem map_core {l l' : List DocCommentTag} (h : l.map (·.core) = l'.map (·.core))
    (f : DocCommentTag → α) (hf : ∀ t, f t.core = f t) : l.map f = l'.map f := by
  have hcomp (l : List DocCommentTag) : (l.map (·.core)).map f = l.map f := by
    rw [List.map_map]
    exact List.map_congr_left fun t _ => hf t
  rw [← hcomp, h, hcomp]

theorem firstLine_firstLine (t : Text) : firstLine (firstLine t) = firstLine t := List.takeWhile_idem

theorem tagPlaced_core (t : DocCommentTag) : TagPlaced input t.core ↔ TagPlaced input t := by
  rw [TagPlaced, TagPlaced, DocCommentTag.core, firstLine_firstLine]

theorem correct_iff_of_lexed {comments : List Comment} (hlexed : ∀ c ∈ comments, Lexed input c) (start stop : Nat) :
    Correct input comments start stop ↔ Met input .start (groups comments start stop) := by
  have hrange : ∀ c ∈ comments.filter (inRange start stop), Lexed input c :=
    fun c hc => hlexed c (List.mem_of_mem_filter hc)
  have hfound : ∀ g ∈ groups comments start stop, ∀ l ∈ g.2, l.Found input := by
    intro g hg
    obtain ⟨c, hc, hdoc⟩ := List.mem_filterMap.mp hg
    exact (filterComment_spec (hrange c hc)).2 g hdoc
  have hread := parseComments_read hrange []
  rw [met_iff .start hfound]
  unfold Correct parseDoccomments
  cases hrun : parseComments [] (comments.filter (inRange start stop)) with
  | none =>
    rw [hrun] at hread
    obtain ⟨g, hg, l, hl, hbroken⟩ := hread
    constructor
    · rintro ⟨docs, h, -⟩
      cases h
    · exact fun h => absurd hbroken (h.1 g hg l hl)
  | some docs =>
    rw [hrun] at hread
    obtain ⟨hunbroken, hcores, hheld⟩ := hread
    have hmade : (tagsOf docs).map (·.core) = (Mode.start.made (groups comments start stop)).map (·.core) := hcores
    have hkept : held (tagsOf docs) = Mode.start.kept (groups comments start stop) := hheld
    have hplaced : (∀ t ∈ tagsOf docs, TagPlaced input t) ↔
        ∀ t ∈ Mode.start.made (groups comments start stop), TagPlaced input t := by
      have hmap := map_core hmade (TagPlaced input) fun t => propext (tagPlaced_core t)
      have hall (l : List DocCommentTag) : (∀ t ∈ l, TagPlaced input t) ↔ ∀ q ∈ l.map (TagPlaced input), q := by
        rw [List.forall_mem_map]
      rw [hall, hall, hmap]
    have hnames := names_made .start fun g hg l hl => (hfound g hg l hl).line
    rw [← map_core hmade (fun t => (t.tag, firstLine t.value)) fun t =>
      congrArg (Prod.mk t.tag) (firstLine_firstLine t.value)] at hnames
    rw [wanted_groups, ← hkept, ← hplaced]
    constructor
    · rintro ⟨_, h, hplaced, hheld, -⟩
      cases h
      exact ⟨hunbroken, hplaced, hheld⟩
    · rintro ⟨-, hplaced, hheld⟩
      exact ⟨docs, rfl, hplaced, hheld, hnames⟩

end

end Solang.Parser.Doc
