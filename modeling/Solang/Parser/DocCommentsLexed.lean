import Solang.Parser.DocCommentsSound
import Solang.Parser.LexerCorrect

/-!
# The doc comments of the lexer

Two functions of the lexer add comments. A doc comment starts with three slashes and ends before a newline,
or it starts with two stars and ends with a third one.
-/

namespace Solang.Parser.Doc

open Text Lexer

variable {input done : Text} {s s' : Lexer} {it : Iter} {start : Nat} {ch quote : Char}

/-! ## What adds no comment -/

/-- Behind an iteration -/
def lexerOf : Iter → Lexer
  | .again s | .done _ s => s

@[simp] theorem comments_advance (s : Lexer) : s.advance.comments = s.comments := by
  unfold advance
  split <;> rfl

theorem comments_string {unicode : Bool} {tokenStart stringStart : Nat} {r : Except LexicalError Spanned}
    (h : s.string input unicode tokenStart stringStart quote = some (r, s')) : s'.comments = s.comments := by
  unfold Lexer.string at h
  dsimp only at h
  split at h
  · cases h
    rfl
  · obtain ⟨text, -, h⟩ := Option.bind_eq_some_iff.mp h
    cases h
    rfl

theorem comments_matchIdentifier {isXidContinue : Char → Bool} {id : Text} {stop : Nat}
    (h : s.matchIdentifier input isXidContinue start = some (id, stop, s')) : s'.comments = s.comments := by
  obtain ⟨text, -, h⟩ := Option.bind_eq_some_iff.mp h
  cases h
  rfl

theorem comments_hexLiteral (h : s.hexLiteral input start quote = some it) : (lexerOf it).comments = s.comments := by
  unfold hexLiteral at h
  dsimp only at h
  split at h
  · cases h
    rfl
  · split at h
    · obtain ⟨text, -, h⟩ := Option.bind_eq_some_iff.mp h
      cases h
      rfl
    · cases h
      rfl

theorem comments_addressLiteral (h : s.addressLiteral input start quote = some it) :
    (lexerOf it).comments = s.comments := by
  unfold addressLiteral at h
  dsimp only at h
  split at h
  · cases h
    rfl
  · obtain ⟨text, -, h⟩ := Option.bind_eq_some_iff.mp h
    cases h
    rfl

theorem comments_identifier {isXidContinue : Char → Bool} (h : s.identifier input isXidContinue start = some it) :
    (lexerOf it).comments = s.comments := by
  obtain ⟨⟨id, stop, s1⟩, hid, h⟩ := Option.bind_eq_some_iff.mp h
  rw [← comments_matchIdentifier hid]
  dsimp only at h
  split at h
  · cases h
    rfl
  · split at h
    · obtain ⟨⟨r, s2⟩, hstring, h⟩ := Option.bind_eq_some_iff.mp h
      refine Eq.trans ?_ ((comments_string hstring).trans (comments_advance s1))
      cases r <;> cases h <;> rfl
    · split at h
      · exact (comments_hexLiteral h).trans (comments_advance s1)
      · split at h
        · exact (comments_addressLiteral h).trans (comments_advance s1)
        · cases h
          rfl

theorem comments_operate (s : Lexer) (i : Nat) (pairs : List (Char × Symbol)) (single : Symbol) :
    (lexerOf (s.operate i pairs single)).comments = s.comments := by
  unfold operate
  split <;> simp [lexerOf]

theorem comments_shift (s : Lexer) (i : Nat) (sign : Char) (shiftAssign shift orEqual single : Symbol) :
    (lexerOf (s.shift i sign shiftAssign shift orEqual single)).comments = s.comments := by
  unfold Lexer.shift
  dsimp only
  split
  · split <;> simp [lexerOf]
  · split <;> simp [lexerOf]

theorem comments_unrecognised (h : s.unrecognised input start = some it) : (lexerOf it).comments = s.comments := by
  obtain ⟨text, -, h⟩ := Option.bind_eq_some_iff.mp h
  cases h
  rfl

/-! ## Comments -/

/-- The iteration adds only comments that are as the lexer says. -/
def Adds (input : Text) (s s' : Lexer) : Prop := ∃ cs, s'.comments = s.comments ++ cs ∧ ∀ c ∈ cs, Lexed input c

theorem adds_of_eq (h : s'.comments = s.comments) : Adds input s s' :=
  ⟨[], by rw [h, List.append_nil], fun c hc => absurd hc List.not_mem_nil⟩

theorem Adds.trans {s'' : Lexer} (h : Adds input s s') (h' : Adds input s' s'') : Adds input s s'' := by
  obtain ⟨cs, hcs, hall⟩ := h
  obtain ⟨cs', hcs', hall'⟩ := h'
  exact ⟨cs ++ cs', by rw [hcs', hcs, List.append_assoc], List.forall_mem_append.mpr ⟨hall, hall'⟩⟩

variable {r m : Text} {offset offset' fuel : Nat} {token : Option Spanned} {tokens : List Spanned}

/-- What is passed up to a character has none like it. -/
theorem skipPast_before {p : Char → Bool} {rest : Text} {i : Option Nat}
    (h : skipPast p rest offset = (i, r, offset')) :
    ∃ m q, rest = m ++ q ∧ i.getD (offset + size rest) = offset + size m ∧ ∀ ch ∈ m, p ch = false := by
  induction rest generalizing offset with
  | nil =>
    cases h
    exact ⟨[], [], rfl, rfl, fun ch hch => absurd hch List.not_mem_nil⟩
  | cons ch rest ih =>
    rw [skipPast] at h
    split at h
    · cases h
      exact ⟨[], _, rfl, rfl, fun ch hch => absurd hch List.not_mem_nil⟩
    · rename_i hch
      obtain ⟨m, q, rfl, hi, hall⟩ := ih h
      refine ⟨ch :: m, q, rfl, ?_, List.forall_mem_cons.mpr ⟨by simpa using hch, hall⟩⟩
      rw [size_cons, size_cons, ← Nat.add_assoc, ← Nat.add_assoc]
      exact hi

/-- A star is the last character before the slash at the end. -/
theorem blockLoop_star {star : Bool} {last last' : Nat}
    (h : blockLoop star last (m ++ '/' :: r) offset = (some last', r, offset')) :
    m.getLast? = some '*' ∨ m = [] ∧ star = true := by
  induction m generalizing star last offset with
  | nil =>
    rw [List.nil_append, blockLoop] at h
    split at h
    · rename_i hslash
      exact .inr ⟨rfl, (Bool.and_eq_true_iff.mp hslash).1⟩
    · obtain ⟨m, hm, -⟩ := blockLoop_some (fun h => by cases h) h
      have := congrArg List.length hm
      simp at this
      omega
  | cons ch m ih =>
    rw [List.cons_append, blockLoop] at h
    split at h
    · have := congrArg (fun r => List.length r.2.1) h
      simp at this
      omega
    · rcases ih h with hm | ⟨rfl, hch⟩
      · rw [List.getLast?_cons, hm]
        exact .inl rfl
      · rw [List.getLast?_singleton, of_decide_eq_true hch]
        exact .inl rfl

theorem occurs_of_at (h : At input (done ++ m) s) :
    Occurs input (size done) m := ⟨done, s.rest, h.1, rfl⟩

theorem lineComment_adds (hat : At input (done ++ ['/', '/']) s) (h : s.lineComment input (size done) = some it) :
    Adds input s (lexerOf it) := by
  obtain ⟨text, htext, h⟩ := Option.bind_eq_some_iff.mp h
  cases h
  refine ⟨[_], congrArg (· ++ [_]) (comments_advance s), List.forall_mem_singleton.mpr ?_⟩
  split
  · rename_i hdoc
    obtain ⟨hthird, -⟩ := Bool.and_eq_true_iff.mp hdoc
    rw [decide_eq_true_iff] at hthird
    obtain ⟨rest, hrest⟩ := head_cons hthird
    obtain ⟨m, q, hm, hstop, hall⟩ := skipPast_before
      (rfl : skipPast isNewline s.advance.rest s.advance.offset = (_, _, _))
    have hmoves : Moves s.advance (s.advance.moveTo (q, s.advance.offset + size m)) m := moves_moveTo hm rfl
    have hat' := (hat.move (moves_advance hrest)).move hmoves
    have hend : size input = s.advance.offset + size s.advance.rest := by
      obtain ⟨hin, hoffset⟩ := hat.move (moves_advance hrest)
      rw [hoffset, hin, size_append]
    rw [← hend] at hstop
    rw [hthird] at htext
    rw [List.append_assoc, List.append_assoc] at hat'
    have hslice := hat'.slice rfl hstop
    obtain rfl := Option.some.inj (hslice.symm.trans htext)
    have hline : newline ∉ m := by
      intro hmem
      cases (hall newline hmem).symm.trans (rfl : isNewline newline = true)
    refine ⟨occurs_of_at hat', ?_, m, rfl⟩
    · simpa using ⟨by decide, hline⟩
  · trivial

theorem blockComment_adds (hat : At input (done ++ ['/', '*']) s) (h : s.blockComment input (size done) = some it) :
    Adds input s (lexerOf it) := by
  unfold blockComment at h
  dsimp only at h
  split at h
  · cases h
    exact adds_of_eq rfl
  · rename_i last hloop
    obtain ⟨text, htext, h⟩ := Option.bind_eq_some_iff.mp h
    cases h
    refine ⟨[_], rfl, List.forall_mem_singleton.mpr ?_⟩
    split
    · rename_i hdoc
      obtain ⟨hstar, hlong⟩ := Bool.and_eq_true_iff.mp hdoc
      obtain ⟨rest, hrest⟩ := head_cons (of_decide_eq_true hstar)
      rcases hr : blockLoop false (size done + 3) s.rest s.offset with ⟨res, r, offset⟩
      rw [hr] at hloop
      obtain rfl : res = some last := hloop
      obtain ⟨m, hm, hoffset, hlast⟩ := blockLoop_some (fun h => by cases h) hr
      have hend : m.getLast? = some '*' := by
        rw [hm] at hr
        exact (blockLoop_star hr).resolve_right fun h => by cases h.2
      have hmoves : Moves s (s.moveTo (r, offset)) (m ++ ['/']) := by
        refine moves_moveTo (by simp [hm]) ?_
        rw [size_append, hoffset]
        rfl
      have hat' := hat.move hmoves
      rw [List.append_assoc] at hat'
      have hslice := hat'.slice rfl (show last + 2 = (s.moveTo (r, offset)).offset from hlast)
      obtain rfl := Option.some.inj (hslice.symm.trans htext)
      -- the star that makes it a doc comment is not the one at the end
      obtain ⟨m, rfl⟩ : ∃ m', m = '*' :: m' := by
        cases m with
        | nil => cases hend
        | cons c m => exact ⟨m, by rw [hrest] at hm; rw [(List.cons.inj hm).1]⟩
      have hlong' : m ≠ [] := by
        rintro rfl
        have hs : s.offset = size done + 2 := by rw [hat.2, size_append]; rfl
        have hone : size ['*'] = 1 := rfl
        have := of_decide_eq_true hlong
        omega
      obtain ⟨body, rfl⟩ : ∃ body, m = body ++ ['*'] := by
        rw [List.getLast?_cons_of_ne_nil hlong'] at hend
        exact List.getLast?_eq_some_iff.mp hend
      refine ⟨occurs_of_at hat', body, ?_⟩
      simp
    · trivial

theorem slash_adds (hat : At input (done ++ ['/']) s) (h : s.slash input (size done) = some it) :
    Adds input s (lexerOf it) := by
  unfold slash at h
  split at h
  · cases h
    exact adds_of_eq (comments_advance s)
  · rename_i rest hrest
    have hat' := hat.move (moves_advance hrest)
    rw [List.append_assoc] at hat'
    exact (adds_of_eq (comments_advance s)).trans (lineComment_adds hat' h)
  · rename_i rest hrest
    have hat' := hat.move (moves_advance hrest)
    rw [List.append_assoc] at hat'
    exact (adds_of_eq (comments_advance s)).trans (blockComment_adds hat' h)
  · cases h
    exact adds_of_eq rfl

theorem of_ite {c P : Prop} [Decidable c] {a b : Option Iter} (h : (if c then a else b) = some it)
    (ha : c → a = some it → P) (hb : ¬c → b = some it → P) : P := by
  by_cases hc : c
  · exact ha hc (by rwa [if_pos hc] at h)
  · exact hb hc (by rwa [if_neg hc] at h)

variable {isXidStart isXidContinue : Char → Bool}

theorem iterate_adds (hat : At input done s) (h : s.iterate input isXidStart isXidContinue = some it) :
    Adds input s (lexerOf it) := by
  unfold iterate at h
  cases hrest : s.rest with
  | nil =>
    rw [hrest] at h
    cases h
    exact adds_of_eq rfl
  | cons ch rest =>
    rw [hrest] at h
    dsimp only at h
    have hmoves := moves_advance hrest
    have hat' := hat.move hmoves
    refine (adds_of_eq (comments_advance s)).trans ?_
    rw [hat.2] at h
    refine of_ite h (fun _ h => adds_of_eq (comments_identifier h)) fun _ h => ?_
    refine of_ite h (fun _ h => ?_) fun _ h => ?_
    · obtain ⟨⟨r, s1⟩, hstring, h⟩ := Option.bind_eq_some_iff.mp h
      refine adds_of_eq (Eq.trans ?_ (comments_string hstring))
      cases r <;> cases h <;> rfl
    refine of_ite h (fun hch h => slash_adds (hch ▸ hat') h) fun _ h => ?_
    refine of_ite h (fun hdigit h => ?_) fun _ h => ?_
    · obtain ⟨r, s1, hnumber, m, hm, -⟩ := parseNumber_spec hat' (.inl ⟨hdigit, rfl⟩)
      rw [hnumber] at h
      refine adds_of_eq (Eq.trans ?_ hm.comments)
      simp only [Option.bind_eq_bind, Option.bind_some] at h
      split at h <;> cases h <;> rfl
    refine of_ite h (fun _ h => ?_) fun _ h => ?_
    · obtain ⟨⟨id, stop, s1⟩, hid, h⟩ := Option.bind_eq_some_iff.mp h
      refine adds_of_eq (Eq.trans ?_ (comments_matchIdentifier hid))
      refine of_ite h (fun _ h => ?_) fun _ h => ?_
      · cases h
        rfl
      · obtain ⟨name, -, h⟩ := Option.bind_eq_some_iff.mp h
        cases h
        rfl
    refine of_ite h (fun _ h => ?_) fun _ h => ?_
    · cases h
      exact adds_of_eq rfl
    refine of_ite h (fun _ h => ?_) fun _ h => ?_
    · cases h
      exact adds_of_eq (comments_shift ..)
    refine of_ite h (fun _ h => ?_) fun _ h => ?_
    · cases h
      exact adds_of_eq (comments_shift ..)
    refine of_ite h (fun hch h => ?_) fun _ h => ?_
    · refine of_ite h (fun _ h => ?_) fun _ h => ?_
      · rw [hch] at hat'
        obtain ⟨r, s1, hnumber, m, hm, -⟩ := parseNumber_spec hat' (.inr ⟨rfl, rfl⟩)
        rw [hnumber] at h
        refine adds_of_eq (Eq.trans ?_ hm.comments)
        cases r <;> cases h <;> rfl
      · cases h
        exact adds_of_eq rfl
    cases hop : operator ch with
    | some pairs =>
      rw [hop] at h
      cases h
      exact adds_of_eq (comments_operate ..)
    | none =>
      rw [hop] at h
      refine of_ite h (fun _ h => ?_) fun _ h => adds_of_eq (comments_unrecognised h)
      cases h
      exact adds_of_eq rfl

theorem nextToken_adds (hat : At input done s)
    (h : nextToken input isXidStart isXidContinue fuel s = some (token, s')) : Adds input s s' := by
  induction fuel generalizing s done with
  | zero => cases h
  | succ fuel ih =>
    obtain ⟨it, hit, h⟩ := Option.bind_eq_some_iff.mp h
    have hadds := iterate_adds hat hit
    obtain ⟨it', hit', hok⟩ := iterate_spec isXidStart isXidContinue hat
    obtain rfl : it = it' := Option.some.inj (hit.symm.trans hit')
    cases it with
    | again s1 =>
      obtain ⟨es, hstep, -⟩ := hok
      obtain ⟨done', hat'⟩ := hat.step hstep
      exact hadds.trans (ih hat' h)
    | done token s1 =>
      cases h
      exact hadds

theorem next_adds (hat : At input done s)
    (h : s.next input isXidStart isXidContinue = some (token, s')) : Adds input s s' := by
  obtain ⟨⟨token, s1⟩, hnext, h⟩ := Option.bind_eq_some_iff.mp h
  cases h
  split at hnext
  · show Adds input { s with parseSemver := true } s1
    exact nextToken_adds hat hnext
  · show Adds input s s1
    exact nextToken_adds hat hnext

theorem collect_adds (hat : At input done s)
    (h : collect input isXidStart isXidContinue fuel s = some (tokens, s')) : Adds input s s' := by
  induction fuel generalizing s done tokens with
  | zero => cases h
  | succ fuel ih =>
    obtain ⟨⟨token, s1⟩, hnext, h⟩ := Option.bind_eq_some_iff.mp h
    have hadds := next_adds hat hnext
    obtain ⟨token', s1', hnext', hok⟩ := next_spec isXidStart isXidContinue hat
    cases hnext.symm.trans hnext'
    cases token with
    | none =>
      cases h
      exact hadds
    | some t =>
      obtain ⟨es, hstep, -⟩ := hok
      obtain ⟨done', hat'⟩ := hat.step hstep
      obtain ⟨⟨tokens, s2⟩, hcollect, h⟩ := Option.bind_eq_some_iff.mp h
      cases h
      exact hadds.trans (ih hat' hcollect)

/-- The comments of the lexer -/
theorem lexed_comments (h : lex isXidStart isXidContinue input = some (tokens, s)) :
    ∀ c ∈ s.comments, Lexed input c := by
  have hat : At input [] (new input) := ⟨rfl, rfl⟩
  obtain ⟨cs, hcs, hall⟩ := collect_adds hat h
  rw [hcs]
  exact hall

/-- The comments keep their text and their places when their lines do. -/
theorem correct_iff_met {tokens : List Spanned} (h : lex isXidStart isXidContinue input = some (tokens, s))
    (start stop : Nat) : Correct input s.comments start stop ↔ Met input .start (groups s.comments start stop) :=
  correct_iff_of_lexed (lexed_comments h) start stop

namespace Sample

def tagged : Text := ['/', '/', '/', ' ', '@', 'a', ' ', 'b']

/-- The name ends with a character of two bytes. -/
def accented : Text := ['/', '/', '/', ' ', '@', 'é']

theorem correct_iff_met_tagged : ∃ tokens s, lex Char.isAlpha Char.isAlpha tagged = some (tokens, s) ∧
    s.comments.length = 1 ∧ Correct tagged s.comments 0 8 :=
  ⟨_, _, rfl, rfl, (@correct_iff_met tagged _ Char.isAlpha Char.isAlpha _ rfl 0 8).mpr
    ⟨⟨⟨rfl, .inl rfl, .inl ⟨rfl, rfl⟩⟩, trivial⟩, trivial⟩⟩

theorem accented_tag_panics : ∃ tokens s, lex Char.isAlpha Char.isAlpha accented = some (tokens, s) ∧
    s.comments.length = 1 ∧ ¬ Correct accented s.comments 0 7 := by
  refine ⟨_, _, rfl, rfl, ?_⟩
  rintro ⟨docs, h, -⟩
  cases h

end Sample

end Solang.Parser.Doc
