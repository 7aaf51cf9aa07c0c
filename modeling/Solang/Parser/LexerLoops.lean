import Solang.Parser.Lexer

/-!
# What the loops of the lexer pass

Every function of the lexer passes some characters: `Moves s s' m` says that these are `m`.
The offsets that it works with are those of boundaries between them.
-/

namespace Solang.Parser

open Text

variable {p : Char → Bool} {quote : Char} {rest r m : Text} {offset offset' last last' i : Nat}

/-! ## ASCII -/

theorem utf8Size_of_lt {ch : Char} (h : ch.toNat < 128) : ch.utf8Size = 1 := by
  have hval : ch.val ≤ 0x7f := by
    rw [UInt32.le_iff_toNat_le]
    have hn : ch.val.toNat < 128 := h
    have h7 : (0x7f : UInt32).toNat = 127 := rfl
    omega
  exact Char.utf8Size_eq_one_iff.mpr hval

theorem utf8Size_digit {ch : Char} (h : isAsciiDigit ch = true) : ch.utf8Size = 1 := by
  simp only [isAsciiDigit, Bool.and_eq_true, decide_eq_true_eq] at h
  exact utf8Size_of_lt (by omega)

theorem utf8Size_hexdigit {ch : Char} (h : isAsciiHexdigit ch = true) : ch.utf8Size = 1 := by
  simp only [isAsciiHexdigit, isAsciiDigit, Bool.or_eq_true, Bool.and_eq_true, decide_eq_true_eq] at h
  exact utf8Size_of_lt (by omega)

theorem utf8Size_separated {ch : Char} (h : isDigitOrSeparator ch = true) : ch.utf8Size = 1 := by
  simp only [isDigitOrSeparator, Bool.or_eq_true, decide_eq_true_eq] at h
  obtain h | rfl := h
  · exact utf8Size_digit h
  · rfl

theorem utf8Size_hexSeparated {ch : Char} (h : isHexdigitOrSeparator ch = true) :
    ch.utf8Size = 1 := by
  simp only [isHexdigitOrSeparator, Bool.or_eq_true, decide_eq_true_eq] at h
  obtain h | rfl := h
  · exact utf8Size_hexdigit h
  · rfl

theorem utf8Size_quote {ch : Char} (h : isQuote ch = true) : ch.utf8Size = 1 := by
  simp only [isQuote, Bool.or_eq_true, decide_eq_true_eq] at h
  obtain rfl | rfl := h <;> rfl

theorem utf8Size_newline {ch : Char} (h : isNewline ch = true) : ch.utf8Size = 1 := by
  simp only [isNewline, Bool.or_eq_true, decide_eq_true_eq] at h
  obtain rfl | rfl := h <;> rfl

theorem isWhitespace_newline {ch : Char} (h : isNewline ch = true) : isWhitespace ch = true := by
  simp only [isNewline, Bool.or_eq_true, decide_eq_true_eq] at h
  obtain rfl | rfl := h <;> rfl

/-! ## Loops -/

/-- The offset that the loop returns is that of the last character, if there is one. -/
theorem eatWhile_spec (hp : ∀ ch, p ch = true → ch.utf8Size = 1)
    (h : eatWhile p rest offset last = (r, offset', last')) :
    ∃ m, rest = m ++ r ∧ offset' = offset + size m ∧ (∀ ch ∈ m, p ch = true) ∧
      (m = [] → last' = last) ∧ (m ≠ [] → last' + 1 = offset') := by
  induction rest generalizing offset last with
  | nil =>
    cases h
    exact ⟨[], rfl, rfl, by simp, fun _ => rfl, fun h => absurd rfl h⟩
  | cons ch rest ih =>
    simp only [eatWhile] at h
    split at h
    next hc =>
      obtain ⟨m, rfl, hoff, hall, hnil, hcons⟩ := ih h
      have hone := hp ch hc
      refine ⟨ch :: m, rfl, ?_, ?_, by simp, fun _ => ?_⟩
      · rw [size_cons]
        omega
      · simpa using ⟨hc, hall⟩
      · by_cases hm : m = []
        · have hlast := hnil hm
          rw [hm] at hoff
          rw [size_nil] at hoff
          omega
        · exact hcons hm
    next =>
      cases h
      exact ⟨[], rfl, rfl, by simp, fun _ => rfl, fun h => absurd rfl h⟩

/-- Where only the characters matter -/
theorem eatWhile_rest (p : Char → Bool) (rest : Text) (offset last : Nat) :
    ∃ m, rest = m ++ (eatWhile p rest offset last).1 ∧
      (eatWhile p rest offset last).2.1 = offset + size m := by
  induction rest generalizing offset last with
  | nil => exact ⟨[], rfl, rfl⟩
  | cons ch rest ih =>
    simp only [eatWhile]
    split
    next =>
      obtain ⟨m, hm, hoff⟩ := ih (offset + ch.utf8Size) offset
      refine ⟨ch :: m, ?_, ?_⟩
      · rw [List.cons_append, ← hm]
      · rw [hoff, size_cons]
        omega
    next => exact ⟨[], rfl, rfl⟩

/-- Where the loop stops does not depend on the offset that it starts with. -/
theorem eatWhile_congr (p : Char → Bool) (rest : Text) (offset last last' : Nat) :
    (eatWhile p rest offset last).1 = (eatWhile p rest offset last').1 ∧
      (eatWhile p rest offset last).2.1 = (eatWhile p rest offset last').2.1 := by
  cases rest with
  | nil => exact ⟨rfl, rfl⟩
  | cons ch rest =>
    simp only [eatWhile]
    split <;> exact ⟨rfl, rfl⟩

theorem skipPast_some (h : skipPast p rest offset = (some i, r, offset')) :
    ∃ m ch, rest = m ++ ch :: r ∧ p ch = true ∧ i = offset + size m ∧ offset' = i + ch.utf8Size := by
  induction rest generalizing offset with
  | nil => cases h
  | cons ch rest ih =>
    simp only [skipPast] at h
    split at h
    next hc =>
      cases h
      exact ⟨[], ch, rfl, hc, rfl, rfl⟩
    next =>
      obtain ⟨m, c, rfl, hc, hi, hoff⟩ := ih h
      refine ⟨ch :: m, c, rfl, hc, ?_, hoff⟩
      rw [size_cons]
      omega

theorem skipPast_none (h : skipPast p rest offset = (none, r, offset')) :
    r = [] ∧ offset' = offset + size rest := by
  induction rest generalizing offset with
  | nil =>
    cases h
    exact ⟨rfl, rfl⟩
  | cons ch rest ih =>
    simp only [skipPast] at h
    split at h
    next => cases h
    next =>
      obtain ⟨hr, hoff⟩ := ih h
      refine ⟨hr, ?_⟩
      rw [size_cons]
      omega

variable {escape star : Bool} {input done : Text}

theorem stringLoop_some (h : stringLoop quote escape rest offset = (some i, r, offset')) :
    ∃ m, rest = m ++ quote :: r ∧ i = offset + size m ∧ offset' = i + quote.utf8Size := by
  induction rest generalizing offset escape with
  | nil => cases h
  | cons ch rest ih =>
    simp only [stringLoop] at h
    split at h
    next =>
      obtain ⟨m, rfl, hi, hoff⟩ := ih h
      refine ⟨ch :: m, rfl, ?_, hoff⟩
      rw [size_cons]
      omega
    next =>
      split at h
      next hq =>
        cases h
        exact ⟨[], by rw [hq]; rfl, rfl, by rw [hq]⟩
      next =>
        obtain ⟨m, rfl, hi, hoff⟩ := ih h
        refine ⟨ch :: m, rfl, ?_, hoff⟩
        rw [size_cons]
        omega

theorem stringLoop_none (h : stringLoop quote escape rest offset = (none, r, offset')) :
    r = [] ∧ offset' = offset + size rest := by
  induction rest generalizing offset escape with
  | nil =>
    cases h
    exact ⟨rfl, rfl⟩
  | cons ch rest ih =>
    rw [size_cons]
    simp only [stringLoop] at h
    split at h
    next =>
      obtain ⟨hr, hoff⟩ := ih h
      exact ⟨hr, by omega⟩
    next =>
      split at h
      next => cases h
      next =>
        obtain ⟨hr, hoff⟩ := ih h
        exact ⟨hr, by omega⟩

theorem hexLoop_some {ch : Char} (h : hexLoop quote rest offset = (some (i, ch), r, offset')) :
    ∃ m, rest = m ++ ch :: r ∧ i = offset + size m ∧ offset' = i + ch.utf8Size := by
  induction rest generalizing offset with
  | nil => cases h
  | cons c rest ih =>
    simp only [hexLoop] at h
    split at h
    next =>
      cases h
      exact ⟨[], rfl, rfl, rfl⟩
    next =>
      obtain ⟨m, rfl, hi, hoff⟩ := ih h
      refine ⟨c :: m, rfl, ?_, hoff⟩
      rw [size_cons]
      omega

theorem hexLoop_none (h : hexLoop quote rest offset = (none, r, offset')) :
    r = [] ∧ offset' = offset + size rest := by
  induction rest generalizing offset with
  | nil =>
    cases h
    exact ⟨rfl, rfl⟩
  | cons c rest ih =>
    simp only [hexLoop] at h
    split at h
    next => cases h
    next =>
      obtain ⟨hr, hoff⟩ := ih h
      refine ⟨hr, ?_⟩
      rw [size_cons]
      omega

/-- The star is the character before the slash. -/
theorem blockLoop_some (hstar : star = true → last + 1 = offset)
    (h : blockLoop star last rest offset = (some last', r, offset')) :
    ∃ m, rest = m ++ '/' :: r ∧ offset' = offset + size m + 1 ∧ last' + 2 = offset' := by
  induction rest generalizing offset last star with
  | nil => cases h
  | cons ch rest ih =>
    simp only [blockLoop] at h
    split at h
    next hc =>
      simp only [Bool.and_eq_true, decide_eq_true_eq] at hc
      obtain ⟨hs, rfl⟩ := hc
      have hone := hstar hs
      cases h
      exact ⟨[], rfl, rfl, by have : Char.utf8Size '/' = 1 := rfl; omega⟩
    next =>
      have hnext : decide (ch = '*') = true → offset + 1 = offset + ch.utf8Size := by
        intro hs
        rw [of_decide_eq_true hs]
        rfl
      obtain ⟨m, rfl, hoff, hl⟩ := ih hnext h
      refine ⟨ch :: m, rfl, ?_, hl⟩
      rw [size_cons]
      omega

theorem blockLoop_none (h : blockLoop star last rest offset = (none, r, offset')) :
    r = [] ∧ offset' = offset + size rest := by
  induction rest generalizing offset last star with
  | nil =>
    cases h
    exact ⟨rfl, rfl⟩
  | cons ch rest ih =>
    simp only [blockLoop] at h
    split at h
    next => cases h
    next =>
      obtain ⟨hr, hoff⟩ := ih h
      refine ⟨hr, ?_⟩
      rw [size_cons]
      omega

/-! ## Moves -/

/-- The lexer passes these characters. -/
structure Moves (s s' : Lexer) (m : Text) : Prop where
  rest : s.rest = m ++ s'.rest
  offset : s'.offset = s.offset + size m
  comments : s'.comments = s.comments
  errors : s'.errors = s.errors

variable {s s' s'' : Lexer} {m' : Text} {ch : Char}

theorem Moves.refl (s : Lexer) : Moves s s [] := ⟨rfl, rfl, rfl, rfl⟩

theorem Moves.trans (h : Moves s s' m) (h' : Moves s' s'' m') : Moves s s'' (m ++ m') where
  rest := by rw [h.rest, h'.rest, List.append_assoc]
  offset := by
    rw [h'.offset, h.offset, size_append]
    omega
  comments := h'.comments.trans h.comments
  errors := h'.errors.trans h.errors

theorem moves_advance (h : s.rest = ch :: rest) : Moves s s.advance [ch] := by
  unfold Lexer.advance
  rw [h]
  exact ⟨h, rfl, rfl, rfl⟩

theorem moves_moveTo (hrest : s.rest = m ++ r) (hoff : offset = s.offset + size m) :
    Moves s (s.moveTo (r, offset)) m :=
  ⟨hrest, hoff, rfl, rfl⟩

/-- A loop over characters of one byte each, when the last one was just passed -/
theorem eat_spec (hp : ∀ ch, p ch = true → ch.utf8Size = 1) (s : Lexer) (last : Nat) :
    ∃ m, Moves s (s.eat p last).1 m ∧ (∀ ch ∈ m, p ch = true) ∧
      (m = [] → (s.eat p last).2 = last) ∧ (m ≠ [] → (s.eat p last).2 + 1 = (s.eat p last).1.offset) ∧
      (s.eat p last).1.parseSemver = s.parseSemver := by
  obtain ⟨m, hm, hoff, hall, hnil, hcons⟩ := eatWhile_spec hp
    (rfl : eatWhile p s.rest s.offset last = _)
  exact ⟨m, moves_moveTo hm hoff, hall, hnil, hcons, rfl⟩

theorem eat_moves (p : Char → Bool) (s : Lexer) (last : Nat) : ∃ m, Moves s (s.eat p last).1 m := by
  obtain ⟨m, hm, hoff⟩ := eatWhile_rest p s.rest s.offset last
  exact ⟨m, moves_moveTo hm hoff⟩

theorem eat_congr (p : Char → Bool) (s : Lexer) (last last' : Nat) :
    (s.eat p last).1 = (s.eat p last').1 := by
  obtain ⟨h1, h2⟩ := eatWhile_congr p s.rest s.offset last last'
  simp only [Lexer.eat, h1, h2]

/-- The loop passes a character that it was seen to pass. -/
theorem eat_ne_nil (hrest : s.rest = ch :: rest) (hc : p ch = true)
    (hm : Moves s (s.eat p last).1 m) : m ≠ [] := by
  rintro rfl
  have hr := hm.rest
  obtain ⟨k, hk, -⟩ := eatWhile_rest p rest (s.offset + ch.utf8Size) s.offset
  have heq : (s.eat p last).1.rest = (eatWhile p rest (s.offset + ch.utf8Size) s.offset).1 := by
    simp only [Lexer.eat, Lexer.moveTo, hrest, eatWhile, hc, if_true]
  rw [List.nil_append, hrest, heq] at hr
  rw [← hr] at hk
  have hlen := congrArg List.length hk
  simp only [List.length_append, List.length_cons] at hlen
  omega

/-- The offset of the last character, when the loop starts right behind it -/
theorem eat_last (hp : ∀ ch, p ch = true → ch.utf8Size = 1) (s : Lexer)
    (hlast : last + 1 = s.offset) :
    ∃ m, Moves s (s.eat p last).1 m ∧ (∀ ch ∈ m, p ch = true) ∧
      (s.eat p last).2 + 1 = (s.eat p last).1.offset ∧
      (s.eat p last).1.parseSemver = s.parseSemver := by
  obtain ⟨m, hmoves, hall, hnil, hcons, hsem⟩ := eat_spec hp s last
  refine ⟨m, hmoves, hall, ?_, hsem⟩
  by_cases hm : m = []
  · rw [hnil hm, hmoves.offset, hm, size_nil]
    exact hlast
  · exact hcons hm

/-! ## Slices -/

/-- The lexer stands behind these characters of the input. -/
def At (input done : Text) (s : Lexer) : Prop := input = done ++ s.rest ∧ s.offset = size done

theorem At.move (h : At input done s) (hm : Moves s s' m) :
    At input (done ++ m) s' := by
  obtain ⟨hin, hoff⟩ := h
  refine ⟨?_, ?_⟩
  · rw [hin, hm.rest, List.append_assoc]
  · rw [hm.offset, hoff, size_append]

/-- The characters that were passed since a boundary -/
theorem At.slice {input done : Text} (h : At input (done ++ m) s) {start stop : Nat}
    (hstart : start = size done) (hstop : stop = s.offset) : input.slice start stop = some m := by
  obtain ⟨hin, hoff⟩ := h
  rw [hstop, hoff, hstart, hin, List.append_assoc, size_append]
  exact slice_append done m s.rest

theorem At.slice_empty (h : At input (done ++ m) s) :
    input.slice (size done) (size done) = some [] := by
  rw [h.1, List.append_assoc]
  exact slice_append done [] (m ++ s.rest)

end Solang.Parser

/-!
## Numbers and strings
-/

namespace Solang.Parser

open Text Lexer

/-- The token is of this text. A number is its parts with the signs between them, a string is
without its quotes. -/
def Token.Carries (text : Text) : Token → Prop
  | .identifier t | .hexNumber t | .hexLiteral t | .addressLiteral t => t = text
  | .number i e => (text = i ∧ e = []) ∨ ∃ c, (c = 'e' ∨ c = 'E') ∧ text = i ++ c :: e
  | .rationalNumber i f e =>
    (text = i ++ '.' :: f ∧ e = []) ∨ ∃ c, (c = 'e' ∨ c = 'E') ∧ text = i ++ '.' :: f ++ c :: e
  | .stringLiteral unicode t =>
    ∃ q, isQuote q = true ∧ text = (if unicode then "unicode".toList else []) ++ q :: t ++ [q]
  | .annotationName t => text = '@' :: t
  | .keyword k => ∃ w, (w, k) ∈ keywords ∧ w.toList = text
  | .symbol _ => True

variable {input done : Text} {s s' : Lexer} {m : Text} {ch : Char}

/-- A result of `parse_number` or `string`: the token is all that was passed since its start. -/
def Parsed (done : Text) (head : Text) (s s' : Lexer) (r : Except LexicalError Spanned) : Prop :=
  ∃ m, Moves s s' m ∧ ∀ val, r = .ok val →
    ∃ t : Token, val = (size done, t, s'.offset) ∧ t.Carries (head ++ m)

variable {head text : Text} {last last' : Nat} {expStart : Option Nat}

theorem parsed_error {e : LexicalError} (h : Moves s s' m) :
    Parsed done head s s' (.error e) := ⟨m, h, nofun⟩

/-! ### Hexadecimal numbers -/

theorem hexNumber_spec (h : At input (done ++ ['0']) s) (hx : s.rest.head? = some 'x') :
    ∃ r s', hexNumber input s (size done) = some (r, s') ∧ Parsed done ['0'] s s' r := by
  obtain ⟨rest, hrest⟩ : ∃ rest, s.rest = 'x' :: rest := by
    cases hr : s.rest with
    | nil => simp [hr] at hx
    | cons c rest =>
      rw [hr] at hx
      obtain rfl : c = 'x' := by simpa using hx
      exact ⟨rest, rfl⟩
  have h1 := moves_advance hrest
  unfold hexNumber
  simp only
  cases hr : s.advance.rest with
  | nil => exact ⟨_, _, rfl, parsed_error h1⟩
  | cons ch cs =>
    have h2 := moves_advance hr
    by_cases hd : isAsciiHexdigit ch = true
    · simp only [hd, if_true]
      have hone := utf8Size_hexdigit hd
      have hlast : s.advance.offset + 1 = s.advance.advance.offset := by
        rw [h2.offset, size_cons, size_nil, hone]
      obtain ⟨m, h3, -, hend, -⟩ := eat_last (fun _ => utf8Size_hexSeparated) s.advance.advance hlast
      have hmoves := (h1.trans h2).trans h3
      have hat := h.move hmoves
      rw [List.append_assoc] at hat
      simp only [hat.slice rfl hend]
      refine ⟨_, _, rfl, _, hmoves, ?_⟩
      rintro _ ⟨⟩
      exact ⟨.hexNumber _, by rw [hend], rfl⟩
    · simp only [hd]
      exact ⟨_, _, rfl, parsed_error (h1.trans h2)⟩

/-! ### Decimal numbers -/

/-- The fraction is a point and digits. -/
theorem fraction_spec {isRational : Bool} {rationalStart rationalEnd : Nat}
    (h : s.fraction isRational last = some (rationalStart, rationalEnd, last', s')) :
    isRational = false ∧ ∃ m, Moves s s' ('.' :: m) ∧ rationalStart = s.offset + 1 ∧
      rationalEnd + 1 = s'.offset ∧ last' + 1 = s'.offset := by
  unfold fraction at h
  split at h
  next ch cs hrest =>
    split at h
    next hc =>
      simp only [Bool.and_eq_true, Bool.not_eq_true'] at hc
      have h1 := moves_advance hrest
      have hnext : s.advance.rest = ch :: cs := by
        have hr := h1.rest
        rw [hrest] at hr
        exact (List.cons.inj hr).2.symm
      have hdigit : isDigitOrSeparator ch = true := by simp [isDigitOrSeparator, hc.1]
      obtain ⟨m, h2, -, -, hcons, -⟩ := eat_spec (p := isDigitOrSeparator)
        (fun _ => utf8Size_separated) s.advance (s.offset + 1)
      obtain ⟨m', h2', -, -, hcons', -⟩ := eat_spec (p := isDigitOrSeparator)
        (fun _ => utf8Size_separated) s.advance last
      have hend := hcons' (eat_ne_nil hnext hdigit h2')
      rw [eat_congr _ _ last (s.offset + 1)] at hend
      cases h
      exact ⟨hc.2, m, h1.trans h2, rfl, hcons (eat_ne_nil hnext hdigit h2), hend⟩
    next => cases h
  next => cases h

/-- The exponent is a letter, signs and digits, if there is one with digits. -/
theorem exponent_spec (hlast : last + 1 = s.offset) (h : s.exponent last = (expStart, last', s')) :
    (expStart = none ∧ s' = s ∧ last' = last) ∨
      ∃ c m, (c = 'e' ∨ c = 'E') ∧ expStart = some (s.offset + 1) ∧ Moves s s' (c :: m) ∧
        (s.offset < last' → last' + 1 = s'.offset) := by
  unfold exponent at h
  split at h
  next ch cs hrest =>
    split at h
    next hc =>
      right
      simp only [Bool.or_eq_true, decide_eq_true_eq] at hc
      have h1 := moves_advance hrest
      have hminus : ∀ c : Char, decide (c = '-') = true → c.utf8Size = 1 := by
        intro c hc
        rw [of_decide_eq_true hc]
        rfl
      obtain ⟨m, h2, -⟩ := eat_spec hminus s.advance last
      obtain ⟨m', h3, -, hnil, hcons, -⟩ := eat_spec (p := isDigitOrSeparator)
        (fun _ => utf8Size_separated) (s.advance.eat (fun c => decide (c = '-')) last).1 last
      cases h
      refine ⟨ch, m ++ m', hc, rfl, (h1.trans h2).trans h3, fun hlt => ?_⟩
      refine hcons fun hm => ?_
      have hlt : s.offset < ((s.advance.eat (fun c => decide (c = '-')) last).1.eat
        isDigitOrSeparator last).2 := hlt
      rw [hnil hm] at hlt
      omega
    next =>
      cases h
      exact .inl ⟨rfl, rfl, rfl⟩
  next =>
    cases h
    exact .inl ⟨rfl, rfl, rfl⟩

/-- What was passed ends where the exponent does. -/
theorem slice_exponent (h : At input (done ++ text) s) (hlast : last + 1 = s.offset)
    (hexp : s.exponent last = (expStart, last', s'))
    (hok : (expStart.isSome && last' < expStart.getD (last + 1)) = false) :
    ∃ exp m, Moves s s' m ∧ last' + 1 = s'.offset ∧
      input.slice (expStart.getD (last + 1)) (last' + 1) = some exp ∧
      ((m = [] ∧ exp = []) ∨ ∃ c, (c = 'e' ∨ c = 'E') ∧ m = c :: exp) := by
  obtain ⟨rfl, rfl, rfl⟩ | ⟨c, m, hc, rfl, hmoves, hend⟩ := exponent_spec hlast hexp
  · refine ⟨[], [], Moves.refl _, hlast, ?_, .inl ⟨rfl, rfl⟩⟩
    have h0 : At input (done ++ text ++ []) s' := by rwa [List.append_nil]
    exact h0.slice (by rw [Option.getD_none, hlast, h.2]) hlast
  · simp only [Option.isSome_some, Option.getD_some, Bool.true_and, decide_eq_false_iff_not] at hok
    have hlast' := hend (by omega)
    have hone : c.utf8Size = 1 := by
      obtain rfl | rfl := hc <;> rfl
    refine ⟨m, c :: m, hmoves, hlast', ?_, .inr ⟨c, hc, rfl⟩⟩
    have hat := h.move hmoves
    rw [List.append_cons] at hat
    refine hat.slice ?_ hlast'
    rw [Option.getD_some, size_append, size_cons, size_nil, hone, ← h.2]

/-- The parts of a number up to its exponent -/
def Parts (input done text : Text) (endBeforeRational : Nat) : Option (Nat × Nat) → Prop
  | none => True
  | some (rationalStart, rationalEnd) => ∃ integer fraction, text = integer ++ '.' :: fraction ∧
    input.slice (size done) endBeforeRational = some integer ∧
    input.slice rationalStart (rationalEnd + 1) = some fraction

theorem finishNumber_spec {endBeforeRational oldEnd : Nat} {rational : Option (Nat × Nat)}
    (h : At input (done ++ text) s) (hlast : oldEnd + 1 = s.offset)
    (hparts : Parts input done text endBeforeRational rational) :
    ∃ r s', s.finishNumber input (size done) endBeforeRational rational oldEnd = some (r, s') ∧
      Parsed done text s s' r := by
  unfold finishNumber
  rcases hexp : s.exponent oldEnd with ⟨expStart, last, s'⟩
  by_cases hok : (expStart.isSome && last < expStart.getD (oldEnd + 1)) = true
  · simp only [hok, if_true]
    refine ⟨_, _, rfl, ?_⟩
    obtain ⟨-, rfl, -⟩ | ⟨c, m, -, -, hmoves, -⟩ := exponent_spec hlast hexp
    · exact parsed_error (Moves.refl _)
    · exact parsed_error hmoves
  · obtain ⟨exp, m, hmoves, hend, hslice, hexp⟩ := slice_exponent h hlast hexp (by simpa using hok)
    simp only [hok, hslice]
    cases rational with
    | none =>
      simp only [h.slice rfl hlast]
      refine ⟨_, _, rfl, m, hmoves, ?_⟩
      rintro _ ⟨⟩
      refine ⟨.number text exp, by rw [hend], ?_⟩
      obtain ⟨rfl, rfl⟩ | ⟨c, hc, rfl⟩ := hexp
      · exact .inl ⟨List.append_nil _, rfl⟩
      · exact .inr ⟨c, hc, rfl⟩
    | some r =>
      obtain ⟨integer, fraction, rfl, hint, hfrac⟩ := hparts
      simp only [hint, hfrac]
      refine ⟨_, _, rfl, m, hmoves, ?_⟩
      rintro _ ⟨⟩
      refine ⟨.rationalNumber integer fraction exp, by rw [hend], ?_⟩
      obtain ⟨rfl, rfl⟩ | ⟨c, hc, rfl⟩ := hexp
      · exact .inl ⟨List.append_nil _, rfl⟩
      · exact .inr ⟨c, hc, rfl⟩

theorem Parsed.of_move {s1 : Lexer} {r : Except LexicalError Spanned} (h : Moves s s1 m)
    (hp : Parsed done (head ++ m) s1 s' r) : Parsed done head s s' r := by
  obtain ⟨m', hmoves, hok⟩ := hp
  refine ⟨m ++ m', h.trans hmoves, fun val hval => ?_⟩
  rw [← List.append_assoc]
  exact hok val hval

/-- A decimal number: digits, with a point before them if the number is rational already -/
theorem parseNumber_spec {start : Nat} (h : At input (done ++ [ch]) s)
    (hch : (isAsciiDigit ch = true ∧ start = size done) ∨ (ch = '.' ∧ start = size done + 1)) :
    ∃ r s', s.parseNumber input start ch = some (r, s') ∧ Parsed done [ch] s s' r := by
  have hone : ch.utf8Size = 1 := by
    obtain ⟨hd, -⟩ | ⟨rfl, -⟩ := hch
    · exact utf8Size_digit hd
    · rfl
  unfold parseNumber
  split
  next hx =>
    simp only [Bool.and_eq_true, decide_eq_true_eq] at hx
    obtain ⟨rfl, hx⟩ := hx
    obtain rfl : start = size done := by
      obtain ⟨-, h⟩ | ⟨h, -⟩ := hch
      · exact h
      · cases h
    exact hexNumber_spec h hx
  next =>
    have hstart : (if (ch == '.') = true then start - 1 else start) = size done := by
      obtain ⟨hd, rfl⟩ | ⟨rfl, rfl⟩ := hch
      · rw [if_neg]
        rintro hdot
        rw [beq_iff_eq.mp hdot] at hd
        cases hd
      · simp
    simp only [hstart]
    have hoff : size done + 1 = s.offset := by
      rw [h.2, size_append, size_cons, size_nil, hone]
    obtain ⟨m1, h1, -, hend1, -⟩ := eat_last (p := isDigitOrSeparator)
      (fun _ => utf8Size_separated) s hoff
    generalize s.eat isDigitOrSeparator (size done) = e at h1 hend1 ⊢
    obtain ⟨s1, last1⟩ := e
    have hat1 := h.move h1
    rw [List.append_assoc] at hat1
    by_cases hsem : s1.parseSemver = true
    · -- a part of a version
      simp only [hsem, if_true, hat1.slice rfl hend1]
      refine ⟨_, _, rfl, m1, h1, ?_⟩
      rintro _ ⟨⟩
      exact ⟨.number _ [], by rw [hend1], .inl ⟨rfl, rfl⟩⟩
    · simp only [hsem]
      cases hf : s1.fraction (ch == '.') last1 with
      | some f =>
        obtain ⟨rationalStart, rationalEnd, last, s2⟩ := f
        obtain ⟨hrat, m2, h2, rfl, hre, hl⟩ := fraction_spec hf
        have hat2 := hat1.move h2
        rw [List.append_assoc] at hat2
        have hparts : Parts input done ([ch] ++ m1 ++ '.' :: m2) (last1 + 1)
            (some (s1.offset + 1, rationalEnd)) := by
          refine ⟨[ch] ++ m1, m2, rfl, hat1.slice rfl hend1, ?_⟩
          have hat3 : At input ((done ++ ([ch] ++ m1) ++ ['.']) ++ m2) s2 := by
            simpa [List.append_assoc] using hat2
          refine hat3.slice ?_ hre
          have hdot : Char.utf8Size '.' = 1 := rfl
          rw [size_append, size_cons, size_nil, hdot, ← hat1.2]
        simp only [hrat]
        obtain ⟨r, s', hr, hp⟩ := finishNumber_spec hat2 hl hparts
        exact ⟨r, s', hr, (Parsed.of_move h2 hp).of_move h1⟩
      | none =>
        have hparts : Parts input done ([ch] ++ m1) (if (ch == '.') = true then size done else last1 + 1)
            (if (ch == '.') = true then some (size done + 1, last1) else none) := by
          by_cases hdot : ch = '.'
          · subst hdot
            simp only [beq_self_eq_true, if_true]
            refine ⟨[], m1, rfl, hat1.slice_empty, ?_⟩
            · have hat : At input ((done ++ ['.']) ++ m1) s1 := by
                simpa [List.append_assoc] using hat1
              exact hat.slice (by rw [size_append, size_cons, size_nil, hone]) hend1
          · have hne : (ch == '.') = false := by simpa using hdot
            simp only [hne, Bool.false_eq_true, if_false]
            trivial
        obtain ⟨r, s', hr, hp⟩ := finishNumber_spec hat1 hend1 hparts
        exact ⟨r, s', hr, hp.of_move h1⟩

end Solang.Parser
