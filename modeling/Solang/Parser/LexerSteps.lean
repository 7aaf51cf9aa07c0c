import Solang.Parser.LexerLoops

/-!
# What the lexer makes of its input

`Laid clean pos text tokens comments`: the text from `pos` on is these tokens and these comments
one after the other, and between them what is neither; that is whitespace if the text is clean.
Each iteration of the lexer lays out the characters that it passes.
-/

namespace Solang.Parser

open Text Lexer

def Comment.loc : Comment → Loc
  | .line loc _ | .docLine loc _ | .block loc _ | .docBlock loc _ => loc

def Comment.text : Comment → Text
  | .line _ text | .docLine _ text | .block _ text | .docBlock _ text => text

inductive Laid (clean : Prop) : Nat → Text → List Spanned → List Comment → Prop where
  | nil {pos : Nat} : Laid clean pos [] [] []
  | gap {pos : Nat} {m text : Text} {ts : List Spanned} {cs : List Comment} :
      (clean → ∀ ch ∈ m, isWhitespace ch = true) → Laid clean (pos + size m) text ts cs →
      Laid clean pos (m ++ text) ts cs
  | token {pos : Nat} {m text : Text} {ts : List Spanned} {cs : List Comment} {t : Token} :
      m ≠ [] → t.Carries m → Laid clean (pos + size m) text ts cs →
      Laid clean pos (m ++ text) ((pos, t, pos + size m) :: ts) cs
  | comment {pos : Nat} {m text : Text} {ts : List Spanned} {cs : List Comment} {c : Comment} :
      m ≠ [] → c.loc = ⟨pos, pos + size m⟩ → c.text = m → Laid clean (pos + size m) text ts cs →
      Laid clean pos (m ++ text) ts (c :: cs)

section Laid

variable {clean clean' : Prop} {pos : Nat} {text text' : Text} {ts ts' : List Spanned}
  {cs cs' : List Comment}

theorem Laid.append (h : Laid clean pos text ts cs)
    (h' : Laid clean (pos + size text) text' ts' cs') :
    Laid clean pos (text ++ text') (ts ++ ts') (cs ++ cs') := by
  induction h with
  | nil => simpa using h'
  | gap hws _ ih =>
    rw [List.append_assoc]
    refine .gap hws (ih ?_)
    rwa [size_append, ← Nat.add_assoc] at h'
  | token hne hc _ ih =>
    rw [List.append_assoc]
    refine .token hne hc (ih ?_)
    rwa [size_append, ← Nat.add_assoc] at h'
  | comment hne hl ht _ ih =>
    rw [List.append_assoc]
    refine .comment hne hl ht (ih ?_)
    rwa [size_append, ← Nat.add_assoc] at h'

theorem Laid.weaken (h : Laid clean pos text ts cs) (hc : clean' → clean) :
    Laid clean' pos text ts cs := by
  induction h with
  | nil => exact .nil
  | gap hws _ ih => exact .gap (fun h => hws (hc h)) ih
  | token hne hcar _ ih => exact .token hne hcar ih
  | comment hne hl ht _ ih => exact .comment hne hl ht ih

end Laid

/-! ## Steps -/

/-- The lexer passes some characters, with these tokens and these errors. -/
def Stepped (s s' : Lexer) (ts : List Spanned) (es : List LexicalError) : Prop :=
  ∃ m cs, s.rest = m ++ s'.rest ∧ s'.offset = s.offset + size m ∧ s'.comments = s.comments ++ cs ∧
    s'.errors = s.errors ++ es ∧ Laid (es = []) s.offset m ts cs

variable {input done head m : Text} {s s0 s' s'' : Lexer} {ts ts' : List Spanned}
  {es es' : List LexicalError} {t : Token} {ch quote : Char}

theorem Stepped.trans (h : Stepped s s' ts es) (h' : Stepped s' s'' ts' es') :
    Stepped s s'' (ts ++ ts') (es ++ es') := by
  obtain ⟨m, cs, hrest, hoff, hcom, herr, hlaid⟩ := h
  obtain ⟨m', cs', hrest', hoff', hcom', herr', hlaid'⟩ := h'
  refine ⟨m ++ m', cs ++ cs', ?_, ?_, ?_, ?_, ?_⟩
  · rw [hrest, hrest', List.append_assoc]
  · rw [hoff', hoff, size_append]
    omega
  · rw [hcom', hcom, List.append_assoc]
  · rw [herr', herr, List.append_assoc]
  · refine (hlaid.weaken fun h => (List.append_eq_nil_iff.mp h).1).append ?_
    rw [← hoff]
    exact hlaid'.weaken fun h => (List.append_eq_nil_iff.mp h).2

theorem stepped_token (h : Moves s s' m) (hm : m ≠ []) (ht : t.Carries m) :
    Stepped s s' [(s.offset, t, s'.offset)] [] := by
  refine ⟨m, [], h.rest, h.offset, by simp [h.comments], by simp [h.errors], ?_⟩
  rw [h.offset]
  have hlaid : Laid ([] = ([] : List LexicalError)) s.offset (m ++ [])
      [(s.offset, t, s.offset + size m)] [] := .token hm ht .nil
  rwa [List.append_nil] at hlaid

/-- Characters between the tokens -/
theorem stepped_gap (h : Moves s s' m) (hws : ∀ ch ∈ m, isWhitespace ch = true) :
    Stepped s s' [] [] := by
  refine ⟨m, [], h.rest, h.offset, by simp [h.comments], by simp [h.errors], ?_⟩
  have hlaid : Laid ([] = ([] : List LexicalError)) s.offset (m ++ []) [] [] :=
    .gap (fun _ => hws) .nil
  rwa [List.append_nil] at hlaid

/-- With an error anything may be passed. -/
theorem stepped_error (h : Moves s s' m) (e : LexicalError) : Stepped s (s'.error e) [] [e] := by
  refine ⟨m, [], h.rest, h.offset, by simp [h.comments, error], by simp [h.errors, error], ?_⟩
  have hlaid : Laid ([e] = []) s.offset (m ++ []) [] [] := .gap nofun .nil
  rwa [List.append_nil] at hlaid

theorem stepped_comment {c : Comment} (h : Moves s s' m) (hm : m ≠ [])
    (hloc : c.loc = ⟨s.offset, s'.offset⟩) (htext : c.text = m) :
    Stepped s (s'.comment c) [] [] := by
  refine ⟨m, [c], h.rest, h.offset, by simp [h.comments, comment], by simp [h.errors, comment], ?_⟩
  rw [h.offset] at hloc
  have hlaid : Laid ([] = ([] : List LexicalError)) s.offset (m ++ []) [] [c] :=
    .comment hm hloc htext .nil
  rwa [List.append_nil] at hlaid

/-- What an iteration does: the loop goes on with fewer characters, or ends with a token, or at the
end of the input unless there is an error. -/
def IterOk (s : Lexer) : Iter → Prop
  | .again s' => ∃ es, Stepped s s' [] es ∧ s'.rest.length < s.rest.length
  | .done (some t) s' => ∃ es, Stepped s s' [t] es ∧ s'.rest.length < s.rest.length
  | .done none s' => ∃ es, Stepped s s' [] es ∧ (es = [] → s'.rest = [])

theorem Moves.shorter (h : Moves s s' m) (hm : m ≠ []) : s'.rest.length < s.rest.length := by
  rw [h.rest, List.length_append]
  have hpos := List.length_pos_iff.mpr hm
  omega

theorem iterOk_token (h : Moves s s' m) (hm : m ≠ []) (ht : t.Carries m) {start stop : Nat}
    (hstart : start = s.offset) (hstop : stop = s'.offset) :
    IterOk s (.done (some (start, t, stop)) s') := by
  subst hstart hstop
  exact ⟨[], stepped_token h hm ht, h.shorter hm⟩

theorem iterOk_again (h : Moves s s' m) (hm : m ≠ []) (e : LexicalError) :
    IterOk s (.again (s'.error e)) :=
  ⟨[e], stepped_error h e, h.shorter hm⟩

theorem iterOk_stop (h : Moves s s' m) (e : LexicalError) : IterOk s (.done none (s'.error e)) :=
  ⟨[e], stepped_error h e, nofun⟩

/-! ## Strings -/

/-- All characters that are left -/
theorem moves_rest {offset : Nat} (hoff : offset = s.offset + size s.rest) :
    Moves s (s.moveTo ([], offset)) s.rest :=
  moves_moveTo (by simp) hoff

theorem string_spec (unicode : Bool) (hat : At input (done ++ head) s) (hq : isQuote quote = true)
    (hhead : head = (if unicode then "unicode".toList else []) ++ [quote]) {stringStart : Nat}
    (hstart : stringStart = s.offset) :
    ∃ r s', s.string input unicode (size done) stringStart quote = some (r, s') ∧
      Parsed done head s s' r := by
  unfold string
  rcases hloop : stringLoop quote false s.rest s.offset with ⟨res, rest, offset⟩
  cases res with
  | none =>
    obtain ⟨rfl, hoff⟩ := stringLoop_none hloop
    exact ⟨_, _, rfl, parsed_error (moves_rest hoff)⟩
  | some last =>
    obtain ⟨m, hrest, hlast, hoff⟩ := stringLoop_some hloop
    rw [utf8Size_quote hq] at hoff
    have hinner : Moves s (s.moveTo (quote :: rest, last)) m := moves_moveTo hrest hlast
    have hslice : input.slice stringStart last = some m :=
      (hat.move hinner).slice (by rw [hstart, hat.2]) rfl
    simp only [hslice]
    have hmoves : Moves s (s.moveTo (rest, offset)) (m ++ [quote]) := by
      refine moves_moveTo (by simp [hrest]) ?_
      rw [size_append, size_cons, size_nil, utf8Size_quote hq]
      omega
    refine ⟨_, _, rfl, _, hmoves, ?_⟩
    rintro _ ⟨⟩
    refine ⟨.stringLiteral unicode m, ?_, quote, hq,
      by simp only [hhead, List.append_assoc, List.cons_append, List.nil_append]⟩
    show _ = (size done, _, offset)
    rw [hoff]

/-! ## Words -/

theorem carries_word (id : Text) : (word id).Carries id := by
  unfold word
  split
  next k hk =>
    have hid := List.find?_some hk
    exact ⟨k.1, List.mem_of_find?_eq_some hk, of_decide_eq_true hid⟩
  next => rfl

section Words

variable (hat0 : At input done s0) (h : Moves s0 s head)
  (hne : head ≠ [])

include hat0 h

theorem matchIdentifier_spec (isXidContinue : Char → Bool) :
    ∃ m s', s.matchIdentifier input isXidContinue (size done) = some (head ++ m, s'.offset, s') ∧
      Moves s0 s' (head ++ m) := by
  unfold matchIdentifier
  obtain ⟨m, hm⟩ := eat_moves (fun ch => isXidContinue ch || ch = '$') s (size done)
  generalize (s.eat (fun ch => isXidContinue ch || ch = '$') (size done)).1 = s' at hm ⊢
  have hmoves := h.trans hm
  have hat := hat0.move hmoves
  have hstop : (if s'.rest.isEmpty then input.size else s'.offset) = s'.offset := by
    split
    next hempty =>
      rw [hat.1, hat.2, List.isEmpty_iff.mp hempty, List.append_nil]
    next => rfl
  simp only [hstop, hat.slice rfl rfl]
  exact ⟨m, s', rfl, hmoves⟩

include hne

variable (hq : isQuote quote = true)

include hq

theorem hexLiteral_spec : ∃ it, s.hexLiteral input (size done) quote = some it ∧ IterOk s0 it := by
  unfold hexLiteral
  rcases hloop : hexLoop quote s.rest s.offset with ⟨res, rest, offset⟩
  cases res with
  | none =>
    obtain ⟨rfl, hoff⟩ := hexLoop_none hloop
    exact ⟨_, rfl, iterOk_stop (h.trans (moves_rest hoff)) _⟩
  | some r =>
    obtain ⟨i, ch⟩ := r
    obtain ⟨m, hrest, hi, hoff⟩ := hexLoop_some hloop
    have hmoves : Moves s (s.moveTo (rest, offset)) (m ++ [ch]) := by
      refine moves_moveTo (by simp [hrest]) ?_
      rw [size_append, size_cons, size_nil]
      omega
    have hall := h.trans hmoves
    by_cases hc : ch = quote
    · subst hc
      have hone := utf8Size_quote hq
      have hstop : i + 1 = (s.moveTo (rest, offset)).offset := by
        show i + 1 = offset
        omega
      have hcarry : Token.Carries (head ++ (m ++ [ch])) (.hexLiteral (head ++ (m ++ [ch]))) := rfl
      simp only [if_true, (hat0.move hall).slice rfl hstop]
      exact ⟨_, rfl, iterOk_token hall (by simp [hne]) hcarry hat0.2.symm hstop⟩
    · simp only [hc, if_false]
      refine ⟨_, rfl, ?_⟩
      -- the rest of the string is passed as well
      rcases hskip : skipPast (· = quote) rest offset with ⟨res, rest', offset'⟩
      obtain ⟨m', hm'⟩ : ∃ m', Moves (s.moveTo (rest, offset)) ((s.moveTo (rest, offset)).moveTo
          (rest', offset')) m' := by
        cases res with
        | none =>
          obtain ⟨rfl, hoff'⟩ := skipPast_none hskip
          exact ⟨_, moves_rest hoff'⟩
        | some j =>
          obtain ⟨m', c, hrest', -, hj, hoff'⟩ := skipPast_some hskip
          refine ⟨m' ++ [c], moves_moveTo (show rest = _ by simpa using hrest') ?_⟩
          rw [size_append, size_cons, size_nil]
          show offset' = offset + (size m' + (c.utf8Size + 0))
          omega
      have hiter := iterOk_again (hall.trans hm') (by simp [hne])
        (.invalidCharacterInHexLiteral ⟨i, i + 1⟩ ch)
      have hskip' : skipPast (fun x => decide (x = quote)) (s.moveTo (rest, offset)).rest
          (s.moveTo (rest, offset)).offset = (res, rest', offset') := hskip
      rw [hskip']
      exact hiter

theorem addressLiteral_spec :
    ∃ it, s.addressLiteral input (size done) quote = some it ∧ IterOk s0 it := by
  unfold addressLiteral
  rcases hskip : skipPast (· = quote) s.rest s.offset with ⟨res, rest, offset⟩
  cases res with
  | none =>
    obtain ⟨rfl, hoff⟩ := skipPast_none hskip
    exact ⟨_, rfl, iterOk_stop (h.trans (moves_rest hoff)) _⟩
  | some i =>
    obtain ⟨m, c, hrest, hc, hi, hoff⟩ := skipPast_some hskip
    have hone : c.utf8Size = 1 := by
      rw [of_decide_eq_true hc]
      exact utf8Size_quote hq
    have hmoves : Moves s (s.moveTo (rest, offset)) (m ++ [c]) := by
      refine moves_moveTo (by simp [hrest]) ?_
      rw [size_append, size_cons, size_nil]
      omega
    have hall := h.trans hmoves
    have hstop : i + 1 = (s.moveTo (rest, offset)).offset := by
      show i + 1 = offset
      omega
    have hcarry : Token.Carries (head ++ (m ++ [c])) (.addressLiteral (head ++ (m ++ [c]))) := rfl
    simp only [(hat0.move hall).slice rfl hstop]
    exact ⟨_, rfl, iterOk_token hall (by simp [hne]) hcarry hat0.2.symm hstop⟩

omit hq in
theorem identifier_spec (isXidContinue : Char → Bool) :
    ∃ it, s.identifier input isXidContinue (size done) = some it ∧ IterOk s0 it := by
  unfold identifier
  obtain ⟨m, s1, hid, h1⟩ := matchIdentifier_spec hat0 h isXidContinue
  simp only [hid, Option.bind_eq_bind, Option.bind_some]
  have hword : IterOk s0 (.done (some (size done, word (head ++ m), s1.offset)) s1) :=
    iterOk_token h1 (by simp [hne]) (carries_word _) hat0.2.symm rfl
  cases hpeek : s1.rest.head?.filter isQuote with
  | none => exact ⟨_, rfl, hword⟩
  | some quote =>
    obtain ⟨hhead, hq⟩ := Option.filter_eq_some_iff.mp hpeek
    obtain ⟨rest, hrest⟩ : ∃ rest, s1.rest = quote :: rest := by
      cases hr : s1.rest with
      | nil => simp [hr] at hhead
      | cons c rest =>
        rw [hr] at hhead
        obtain rfl : c = quote := by simpa using hhead
        exact ⟨rest, rfl⟩
    have h2 := h1.trans (moves_advance hrest)
    have hne2 : head ++ m ++ [quote] ≠ [] := by simp
    simp only
    split
    next hu =>
      have hsize : size (head ++ m ++ [quote]) = 8 := by
        rw [size_append, hu, size_cons, size_nil, utf8Size_quote hq]
        rfl
      have hat2 := hat0.move h2
      obtain ⟨r, s', hstring, m', hm', hok⟩ := string_spec true hat2 hq
        (show head ++ m ++ [quote] = _ by rw [hu]; rfl)
        (show size done + 8 = s1.advance.offset by rw [hat2.2, size_append, hsize])
      simp only [hstring, Option.bind_some]
      cases r with
      | ok val =>
        obtain ⟨t, rfl, hcarry⟩ := hok val rfl
        exact ⟨_, rfl, iterOk_token (h2.trans hm') (by simp) hcarry hat0.2.symm rfl⟩
      | error e =>
        -- the word stands for itself, and what follows is passed
        have hstep := (stepped_token h1 (by simp [hne]) (carries_word _)).trans
          (stepped_error ((moves_advance hrest).trans hm') e)
        rw [hat0.2] at hstep
        exact ⟨_, rfl, _, hstep, (h2.trans hm').shorter (by simp)⟩
    next =>
      split
      next => exact hexLiteral_spec hat0 h2 hne2 hq
      next =>
        split
        next => exact addressLiteral_spec hat0 h2 hne2 hq
        next => exact ⟨_, rfl, hword⟩

end Words

end Solang.Parser
