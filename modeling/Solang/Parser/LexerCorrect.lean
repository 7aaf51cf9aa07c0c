import Solang.Parser.LexerSteps

/-!
# The tokens and comments cover the input

An iteration of the lexer, whatever the next character is, and then all of them.
-/

namespace Solang.Parser

open Text Lexer

variable {input done head m : Text} {s s0 s' : Lexer} {ch : Char}

theorem head_cons {rest : Text} (h : rest.head? = some ch) : ∃ rest', rest = ch :: rest' := by
  cases rest with
  | nil => cases h
  | cons c rest =>
    obtain rfl : c = ch := by simpa using h
    exact ⟨rest, rfl⟩

/-! ## Comments -/

variable {s1 : Lexer} {token : Option Spanned} {fuel : Nat}

/-- A comment, with what is left of its line -/
theorem iterOk_comment {gap : Text} {c : Comment} (h1 : Moves s0 s1 m) (hm : m ≠ [])
    (hloc : c.loc = ⟨s0.offset, s1.offset⟩) (htext : c.text = m) (hgap : Moves s1 s' gap)
    (hws : ∀ ch ∈ gap, isWhitespace ch = true) : IterOk s0 (.again (s'.comment c)) := by
  have hmoves : Moves (s1.comment c) (s'.comment c) gap := by
    refine ⟨hgap.rest, hgap.offset, ?_, hgap.errors⟩
    show s'.comments ++ [c] = s1.comments ++ [c]
    rw [hgap.comments]
  refine ⟨_, (stepped_comment h1 hm hloc htext).trans (stepped_gap hmoves hws), ?_⟩
  exact (h1.trans hgap).shorter (by simp [hm])

section Comments

variable (hat0 : At input done s0) (h : Moves s0 s head)

include hat0 h

theorem blockComment_spec :
    ∃ it, s.blockComment input (size done) = some it ∧ IterOk s0 it := by
  unfold blockComment
  rcases hloop : blockLoop false (size done + 3) s.rest s.offset with ⟨res, rest, offset⟩
  cases res with
  | none =>
    obtain ⟨rfl, hoff⟩ := blockLoop_none hloop
    exact ⟨_, rfl, iterOk_stop (h.trans (moves_rest hoff)) _⟩
  | some last =>
    obtain ⟨m, hrest, hoff, hlast⟩ := blockLoop_some (by simp) hloop
    have hmoves : Moves s (s.moveTo (rest, offset)) (m ++ ['/']) := by
      refine moves_moveTo (by simp [hrest]) ?_
      rw [size_append, hoff]
      rfl
    have hall := h.trans hmoves
    simp only [(hat0.move hall).slice rfl (show last + 2 = (s.moveTo (rest, offset)).offset from hlast)]
    refine ⟨_, rfl, iterOk_comment hall (by simp) ?_ ?_ (Moves.refl _) (by simp)⟩
    · rw [hat0.2, hlast]
      split <;> rfl
    · split <;> rfl

variable (hsize : size head = 2)

include hsize

/-- A comment on one line ends before the newline, unless that follows the slashes at once. -/
theorem lineComment_end {s1 : Lexer} (doc : Bool) (h1 : Moves s s1 m) {gap : Text} {last : Nat}
    (hlast : last = s1.offset) (hgap : Moves s1 s' gap) (hws : ∀ ch ∈ gap, isWhitespace ch = true) :
    ∃ it, (do
      let text ← input.slice (size done) last
      let comment := if doc then Comment.docLine ⟨size done, last⟩ text else .line ⟨size done, last⟩ text
      some (Iter.again (s'.comment comment))) = some it ∧ IterOk s0 it := by
  have hall := h.trans h1
  have hslice := (hat0.move hall).slice rfl hlast
  refine ⟨_, by rw [hslice]; rfl, ?_⟩
  have hne : head ++ m ≠ [] := by
    intro hnil
    rw [(List.append_eq_nil_iff.mp hnil).1] at hsize
    cases hsize
  refine iterOk_comment hall hne ?_ ?_ hgap hws
  · rw [hat0.2, hlast]
    split <;> rfl
  · split <;> rfl

theorem lineComment_spec :
    ∃ it, s.lineComment input (size done) = some it ∧ IterOk s0 it := by
  have hoff : s.offset = size done + 2 := by rw [h.offset, hat0.2, hsize]
  unfold lineComment
  cases hrest : s.rest with
  | nil =>
    have hstop : input.size = s.offset := by
      rw [(hat0.move h).1, (hat0.move h).2, hrest, List.append_nil]
    have hadv : s.advance = s := by
      unfold advance
      rw [hrest]
    simp only [hadv, hrest, skipPast]
    exact lineComment_end hat0 h hsize _ (Moves.refl s) hstop
      (moves_moveTo (show s.rest = [] ++ [] from hrest) rfl) (by simp)
  | cons ch rest =>
    have hadv := moves_advance hrest
    simp only [List.head?_cons, Option.any_some]
    by_cases hnl : isNewline ch = true
    · simp only [hnl, if_true]
      refine lineComment_end hat0 h hsize _ hadv ?_ (Moves.refl s.advance) (by simp)
      show size done + 3 = s.advance.offset
      rw [hadv.offset, size_cons, size_nil, utf8Size_newline hnl]
      omega
    · simp only [hnl]
      rcases hskip : skipPast isNewline s.advance.rest s.advance.offset with ⟨res, rest', offset'⟩
      cases res with
      | none =>
        obtain ⟨rfl, hoff'⟩ := skipPast_none hskip
        have hall := hadv.trans (moves_rest hoff')
        have hat := hat0.move (h.trans hall)
        refine lineComment_end hat0 h hsize _ hall ?_ (Moves.refl _) (by simp)
        show input.size = offset'
        rw [hat.1]
        show size (_ ++ []) = (s.advance.moveTo ([], offset')).offset
        rw [List.append_nil, hat.2]
      | some i =>
        obtain ⟨m, c, hrest', hc, hi, hoff'⟩ := skipPast_some hskip
        have hinner : Moves s.advance (s.advance.moveTo (c :: rest', i)) m := moves_moveTo hrest' hi
        have hgap : Moves (s.advance.moveTo (c :: rest', i)) (s.advance.moveTo (rest', offset')) [c] :=
          ⟨rfl, hoff', rfl, rfl⟩
        refine lineComment_end hat0 h hsize _ (hadv.trans hinner) rfl hgap ?_
        simpa using isWhitespace_newline hc

end Comments

/-! ## Operators -/

theorem operator_ascii {pairs : List (Char × Symbol)} {single : Symbol}
    (h : operator ch = some (pairs, single)) :
    ch.utf8Size = 1 ∧ ∀ p ∈ pairs, p.1.utf8Size = 1 := by
  unfold operator at h
  split at h
  all_goals first | (cases h; decide) | cases h

theorem iterOk_symbol {symbol : Symbol} {stop : Nat} (h : Moves s0 s m) (hm : m ≠ [])
    (hstop : stop = s.offset) : IterOk s0 (.done (some (s0.offset, .symbol symbol, stop)) s) :=
  iterOk_token (t := .symbol symbol) h hm trivial rfl hstop

section Operators

variable (h : Moves s0 s [ch]) (hone : ch.utf8Size = 1)

include h hone

/-- The token of the character by itself -/
theorem iterOk_single (symbol : Symbol) :
    IterOk s0 (.done (some (s0.offset, .symbol symbol, s0.offset + 1)) s) := by
  refine iterOk_symbol h (by simp) ?_
  rw [h.offset, size_cons, size_nil, hone]

/-- The token of the character and the next one -/
theorem iterOk_double {c : Char} {rest : Text} (hrest : s.rest = c :: rest) (hc : c.utf8Size = 1)
    (symbol : Symbol) :
    IterOk s0 (.done (some (s0.offset, .symbol symbol, s0.offset + 2)) s.advance) := by
  have hall := h.trans (moves_advance hrest)
  refine iterOk_symbol hall (by simp) ?_
  rw [hall.offset]
  simp only [List.cons_append, List.nil_append, size_cons, size_nil, hone, hc]

theorem operate_spec {pairs : List (Char × Symbol)} (hpairs : ∀ p ∈ pairs, p.1.utf8Size = 1)
    (single : Symbol) : IterOk s0 (operate s s0.offset pairs single) := by
  unfold operate
  split
  next double hbind =>
    obtain ⟨c, hhead, hlookup⟩ := Option.bind_eq_some_iff.mp hbind
    obtain ⟨rest, hrest⟩ := head_cons hhead
    obtain ⟨l, l', rfl, -⟩ := List.lookup_eq_some_iff.mp hlookup
    exact iterOk_double h hone hrest (hpairs (c, double) (by simp)) double
  next => exact iterOk_single h hone single

theorem shift_spec (shiftAssign shift orEqual single : Symbol) :
    IterOk s0 (Lexer.shift s s0.offset ch shiftAssign shift orEqual single) := by
  unfold Lexer.shift
  simp only
  split
  next hhead =>
    obtain ⟨rest, hrest⟩ := head_cons hhead
    split
    next hassign =>
      obtain ⟨rest', hrest'⟩ := head_cons hassign
      have hall := (h.trans (moves_advance hrest)).trans (moves_advance hrest')
      refine iterOk_symbol hall (by simp) ?_
      rw [hall.offset]
      simp only [List.cons_append, List.nil_append, size_cons, size_nil, hone]
      rfl
    next => exact iterOk_double h hone hrest hone shift
  next =>
    split
    next hassign =>
      obtain ⟨rest, hrest⟩ := head_cons hassign
      exact iterOk_double h hone hrest rfl orEqual
    next => exact iterOk_single h hone single

end Operators

/-! ## Iterations -/

theorem slash_spec (hat0 : At input done s0) (h : Moves s0 s ['/']) :
    ∃ it, s.slash input s0.offset = some it ∧ IterOk s0 it := by
  unfold slash
  split
  next rest hrest => exact ⟨_, rfl, iterOk_double h rfl hrest rfl _⟩
  next rest hrest =>
    rw [hat0.2]
    exact lineComment_spec hat0 (h.trans (moves_advance hrest)) rfl
  next rest hrest =>
    rw [hat0.2]
    exact blockComment_spec hat0 (h.trans (moves_advance hrest))
  next => exact ⟨_, rfl, iterOk_single h rfl _⟩

theorem unrecognised_spec (hat0 : At input done s0) (h : Moves s0 s head) (hne : head ≠ []) :
    ∃ it, s.unrecognised input (size done) = some it ∧ IterOk s0 it := by
  unfold unrecognised
  rcases hskip : skipPast isWhitespace s.rest s.offset with ⟨res, rest, offset⟩
  cases res with
  | none =>
    obtain ⟨rfl, hoff⟩ := skipPast_none hskip
    have hall := h.trans (moves_rest hoff)
    have hat := hat0.move hall
    have hstop : input.size = (s.moveTo ([], offset)).offset := by
      rw [hat.2, hat.1]
      show size (_ ++ []) = _
      rw [List.append_nil]
    simp only [Option.getD_none, hat.slice rfl hstop]
    exact ⟨_, rfl, iterOk_again hall (by simp [hne]) _⟩
  | some i =>
    obtain ⟨m, c, hrest, -, hi, hoff⟩ := skipPast_some hskip
    have hinner : Moves s (s.moveTo (c :: rest, i)) m := moves_moveTo hrest hi
    have hmoves : Moves s (s.moveTo (rest, offset)) (m ++ [c]) := by
      refine moves_moveTo (by simp [hrest]) ?_
      rw [size_append, size_cons, size_nil]
      omega
    have hslice := (hat0.move (h.trans hinner)).slice rfl (show i = _ from rfl)
    simp only [Option.getD_some, hslice]
    exact ⟨_, rfl, iterOk_again (h.trans hmoves) (by simp [hne]) _⟩

theorem annotation_spec (isXidContinue : Char → Bool) (hat0 : At input done s0)
    (h : Moves s0 s ['@']) :
    ∃ it, (do
      let (id, stop, s) ← s.matchIdentifier input isXidContinue (size done)
      if id.size = 1 then
        some (Iter.again (s.error (.unrecognisedToken ⟨size done, size done + 1⟩ id)))
      else do
        let name ← id.slice 1 id.size
        some (.done (some (size done, .annotationName name, stop)) s)) = some it ∧ IterOk s0 it := by
  obtain ⟨m, s1, hid, h1⟩ := matchIdentifier_spec hat0 h isXidContinue
  simp only [hid, Option.bind_eq_bind, Option.bind_some]
  split
  next => exact ⟨_, rfl, iterOk_again h1 (by simp) _⟩
  next =>
    have hslice : Text.slice (['@'] ++ m) 1 (size (['@'] ++ m)) = some m := by
      have hs := slice_append ['@'] m []
      rwa [List.append_nil, ← size_append] at hs
    have hcarry : Token.Carries (['@'] ++ m) (.annotationName m) := rfl
    simp only [hslice, Option.bind_some]
    exact ⟨_, rfl, iterOk_token h1 (by simp) hcarry hat0.2.symm rfl⟩

/-- A number or a string that was parsed -/
theorem iterOk_parsed {val : Spanned} (hat0 : At input done s0) (h : Moves s0 s head) (hne : head ≠ [])
    (hp : Parsed done head s s' (.ok val)) : IterOk s0 (.done (some val) s') := by
  obtain ⟨m, hm, hok⟩ := hp
  obtain ⟨t, rfl, hcarry⟩ := hok val rfl
  exact iterOk_token (h.trans hm) (by simp [hne]) hcarry hat0.2.symm rfl

theorem string_iter (hat : At input done s) (h : Moves s s' [ch]) (hq : isQuote ch = true) :
    ∃ it, (do
      let (r, s) ← s'.string input false (size done) (size done + 1) ch
      match r with
      | .ok val => some (Iter.done (some val) s)
      | .error e => some (.again (s.error e))) = some it ∧ IterOk s it := by
  have hat1 := hat.move h
  have hstart : size done + 1 = s'.offset := by
    rw [hat1.2, size_append, size_cons, size_nil, utf8Size_quote hq]
  obtain ⟨r, s1, hstring, hp⟩ := string_spec false hat1 hq rfl hstart
  simp only [hstring, Option.bind_eq_bind, Option.bind_some]
  cases r with
  | ok val => exact ⟨_, rfl, iterOk_parsed hat h (by simp) hp⟩
  | error e =>
    obtain ⟨m, hm, -⟩ := hp
    exact ⟨_, rfl, iterOk_again (h.trans hm) (by simp) e⟩

theorem number_iter (hat : At input done s) (h : Moves s s' [ch]) (hd : isAsciiDigit ch = true) :
    ∃ it, (do
      let (r, s) ← s'.parseNumber input (size done) ch
      match r with
      | .ok val => some (Iter.done (some val) s)
      | .error (.endofFileInHex loc) => some (.done none (s.error (.endofFileInHex loc)))
      | .error e => some (.again (s.error e))) = some it ∧ IterOk s it := by
  obtain ⟨r, s1, hnumber, hp⟩ := parseNumber_spec (hat.move h) (.inl ⟨hd, rfl⟩)
  simp only [hnumber, Option.bind_eq_bind, Option.bind_some]
  cases r with
  | ok val => exact ⟨_, rfl, iterOk_parsed hat h (by simp) hp⟩
  | error e =>
    obtain ⟨m, hm, -⟩ := hp
    split
    next heq => cases heq
    next loc heq =>
      exact ⟨_, rfl, iterOk_stop (h.trans hm) _⟩
    next => exact ⟨_, rfl, iterOk_again (h.trans hm) (by simp) _⟩

/-- A point: a number if a digit follows, unless this is a version -/
theorem point_iter (hat : At input done s) (h : Moves s s' ['.']) :
    ∃ it, (if s'.rest.head?.any isAsciiDigit && !s'.parseSemver then do
        let (r, s) ← s'.parseNumber input (size done + 1) '.'
        match r with
        | .ok val => some (Iter.done (some val) s)
        | .error e => some (.done none (s.error e))
      else some (.done (some (size done, .symbol .member, size done + 1)) s')) = some it ∧
      IterOk s it := by
  split
  next =>
    obtain ⟨r, s1, hnumber, hp⟩ := parseNumber_spec (hat.move h) (.inr ⟨rfl, rfl⟩)
    simp only [hnumber, Option.bind_eq_bind, Option.bind_some]
    cases r with
    | ok val => exact ⟨_, rfl, iterOk_parsed hat h (by simp) hp⟩
    | error e =>
      obtain ⟨m, hm, -⟩ := hp
      exact ⟨_, rfl, iterOk_stop (h.trans hm) e⟩
  next =>
    rw [← hat.2]
    exact ⟨_, rfl, iterOk_single h rfl _⟩

/-- A character that is in none of the other cases -/
theorem operator_iter (hat : At input done s) (h : Moves s s' [ch]) :
    ∃ it, (match operator ch with
      | some (pairs, single) => some (operate s' (size done) pairs single)
      | none => if isWhitespace ch then some (.again s') else s'.unrecognised input (size done)) =
        some it ∧ IterOk s it := by
  split
  next pairs single hop =>
    obtain ⟨hone, hpairs⟩ := operator_ascii hop
    rw [← hat.2]
    exact ⟨_, rfl, operate_spec h hone hpairs single⟩
  next =>
    split
    next hws => exact ⟨_, rfl, [], stepped_gap h (by simpa using hws), h.shorter (by simp)⟩
    next => exact unrecognised_spec hat h (by simp)

theorem iterOk_ite {c : Prop} [Decidable c] {a b : Option Iter}
    (ha : c → ∃ it, a = some it ∧ IterOk s it) (hb : ¬c → ∃ it, b = some it ∧ IterOk s it) :
    ∃ it, (if c then a else b) = some it ∧ IterOk s it := by
  by_cases hc : c
  · rw [if_pos hc]
    exact ha hc
  · rw [if_neg hc]
    exact hb hc

theorem iterate_spec (isXidStart isXidContinue : Char → Bool) (hat : At input done s) :
    ∃ it, s.iterate input isXidStart isXidContinue = some it ∧ IterOk s it := by
  unfold iterate
  cases hrest : s.rest with
  | nil => exact ⟨_, rfl, [], stepped_gap (Moves.refl s) (by simp), fun _ => hrest⟩
  | cons ch rest =>
    have h := moves_advance hrest
    have hoff := hat.2
    dsimp only
    rw [hat.2]
    refine iterOk_ite (fun _ => identifier_spec hat h (by simp) isXidContinue) fun _ => ?_
    refine iterOk_ite (fun hq => string_iter hat h hq) fun _ => ?_
    refine iterOk_ite (fun hc => ?_) fun _ => ?_
    · subst hc
      exact hoff ▸ slash_spec hat h
    refine iterOk_ite (fun hd => number_iter hat h hd) fun _ => ?_
    refine iterOk_ite (fun hc => ?_) fun _ => ?_
    · subst hc
      exact annotation_spec isXidContinue hat h
    refine iterOk_ite (fun hc => ?_) fun _ => ?_
    · subst hc
      have hmoves : Moves s { s.advance with parseSemver := false } [';'] :=
        ⟨h.rest, h.offset, h.comments, h.errors⟩
      exact ⟨_, rfl, hoff ▸ iterOk_single hmoves rfl _⟩
    refine iterOk_ite (fun hc => ?_) fun _ => ?_
    · subst hc
      exact ⟨_, rfl, hoff ▸ shift_spec h rfl _ _ _ _⟩
    refine iterOk_ite (fun hc => ?_) fun _ => ?_
    · subst hc
      exact ⟨_, rfl, hoff ▸ shift_spec h rfl _ _ _ _⟩
    refine iterOk_ite (fun hc => ?_) fun _ => ?_
    · subst hc
      exact point_iter hat h
    exact operator_iter hat h

/-! ## Runs -/

theorem At.step {ts : List Spanned} {es : List LexicalError} (hat : At input done s)
    (h : Stepped s s' ts es) : ∃ done', At input done' s' := by
  obtain ⟨m, cs, hrest, hoff, -⟩ := h
  refine ⟨done ++ m, ?_, ?_⟩
  · rw [hat.1, hrest, List.append_assoc]
  · rw [hoff, hat.2, size_append]

/-- Iterations before the last one -/
theorem IterOk.before {es : List LexicalError} (h : Stepped s s1 [] es)
    (hlen : s1.rest.length < s.rest.length) (hiter : IterOk s1 (.done token s')) :
    IterOk s (.done token s') := by
  cases token with
  | none =>
    obtain ⟨es', h', hend⟩ := hiter
    exact ⟨_, h.trans h', fun hnil => hend (List.append_eq_nil_iff.mp hnil).2⟩
  | some t =>
    obtain ⟨es', h', hlen'⟩ := hiter
    exact ⟨_, h.trans h', Nat.lt_trans hlen' hlen⟩

variable (isXidStart isXidContinue : Char → Bool)

/-- Each iteration that goes on passes a character. -/
theorem nextToken_spec (hfuel : s.rest.length < fuel) (hat : At input done s) :
    ∃ token s', nextToken input isXidStart isXidContinue fuel s = some (token, s') ∧
      IterOk s (.done token s') := by
  induction fuel generalizing s done with
  | zero => omega
  | succ fuel ih =>
    unfold nextToken
    obtain ⟨it, hit, hok⟩ := iterate_spec isXidStart isXidContinue hat
    simp only [hit, Option.bind_eq_bind, Option.bind_some]
    cases it with
    | again s1 =>
      obtain ⟨es, hstep, hlen⟩ := hok
      obtain ⟨done', hat'⟩ := hat.step hstep
      obtain ⟨token, s', hnext, hiter⟩ := ih (by omega) hat'
      exact ⟨token, s', hnext, hiter.before hstep hlen⟩
    | done token s1 => exact ⟨token, s1, rfl, hok⟩

/-- Neither the versions of a pragma nor the last tokens matter for what is passed. -/
theorem IterOk.same {s1' : Lexer} (h : IterOk s1 (.done token s'))
    (hs : s.rest = s1.rest ∧ s.offset = s1.offset ∧ s.comments = s1.comments ∧ s.errors = s1.errors)
    (hs' : s1'.rest = s'.rest ∧ s1'.offset = s'.offset ∧ s1'.comments = s'.comments ∧
      s1'.errors = s'.errors) : IterOk s (.done token s1') := by
  obtain ⟨hr, ho, hc, he⟩ := hs
  obtain ⟨hr', ho', hc', he'⟩ := hs'
  cases token <;> simpa only [IterOk, Stepped, hr, ho, hc, he, hr', ho', hc', he'] using h

theorem next_spec (hat : At input done s) :
    ∃ token s', s.next input isXidStart isXidContinue = some (token, s') ∧
      IterOk s (.done token s') := by
  unfold next
  have hkey : ∀ s1 : Lexer, s.rest = s1.rest ∧ s.offset = s1.offset ∧ s.comments = s1.comments ∧
      s.errors = s1.errors → ∃ token s',
        ((s1.nextToken input isXidStart isXidContinue (s1.rest.length + 1)).bind fun r =>
          some (r.1, { r.2 with lastTokens := (r.2.lastTokens.2, r.1.map (·.2.1)) })) =
            some (token, s') ∧ IterOk s (.done token s') := by
    intro s1 hsame
    have hat1 : At input done s1 := by
      unfold At
      rw [← hsame.1, ← hsame.2.1]
      exact hat
    obtain ⟨token, s', hnext, hiter⟩ :=
      nextToken_spec isXidStart isXidContinue (Nat.lt_succ_self s1.rest.length) hat1
    simp only [hnext, Option.bind_some]
    exact ⟨_, _, rfl, hiter.same hsame ⟨rfl, rfl, rfl, rfl⟩⟩
  dsimp only
  split
  · exact hkey _ ⟨rfl, rfl, rfl, rfl⟩
  · exact hkey _ ⟨rfl, rfl, rfl, rfl⟩

theorem collect_spec (hfuel : s.rest.length < fuel) (hat : At input done s) :
    ∃ tokens s' es, collect input isXidStart isXidContinue fuel s = some (tokens, s') ∧
      Stepped s s' tokens es ∧ (es = [] → s'.rest = []) := by
  induction fuel generalizing s done with
  | zero => omega
  | succ fuel ih =>
    unfold collect
    obtain ⟨token, s1, hnext, hiter⟩ := next_spec isXidStart isXidContinue hat
    simp only [hnext, Option.bind_eq_bind, Option.bind_some]
    cases token with
    | none =>
      obtain ⟨es, hstep, hend⟩ := hiter
      exact ⟨[], s1, es, rfl, hstep, hend⟩
    | some t =>
      obtain ⟨es, hstep, hlen⟩ := hiter
      obtain ⟨done', hat'⟩ := hat.step hstep
      obtain ⟨tokens, s', es', hcollect, hstep', hend⟩ := ih (by omega) hat'
      simp only [hcollect, Option.bind_some]
      refine ⟨_, _, _, rfl, hstep.trans hstep', fun hnil => hend (List.append_eq_nil_iff.mp hnil).2⟩

/-! ## Spans -/

/-- The characters `m` of the input are between these offsets. -/
def Spans (input : Text) (start stop : Nat) (m : Text) : Prop :=
  ∃ p q, input = p ++ m ++ q ∧ start = size p ∧ stop = size p + size m

/-- The offset is between these. -/
def Inside (offset start stop : Nat) : Prop := start ≤ offset ∧ offset < stop

/-- What the lexer returns for its input -/
structure Covers (input : Text) (tokens : List Spanned) (comments : List Comment)
    (errors : List LexicalError) : Prop where
  /-- Tokens are characters of the input, and they are what the token says. -/
  token : ∀ t ∈ tokens, ∃ m, m ≠ [] ∧ Spans input t.1 t.2.2 m ∧ t.2.1.Carries m
  comment : ∀ c ∈ comments, c.text ≠ [] ∧ Spans input c.loc.start c.loc.stop c.text
  tokens_increase : tokens.Pairwise fun t t' => t.2.2 ≤ t'.1
  comments_increase : comments.Pairwise fun c c' => c.loc.stop ≤ c'.loc.start
  disjoint : ∀ t ∈ tokens, ∀ c ∈ comments, t.2.2 ≤ c.loc.start ∨ c.loc.stop ≤ t.1
  outside : errors = [] → ∀ p ch q, input = p ++ ch :: q →
    (∀ t ∈ tokens, ¬Inside (size p) t.1 t.2.2) →
    (∀ c ∈ comments, ¬Inside (size p) c.loc.start c.loc.stop) → isWhitespace ch = true

section Spans

variable {clean : Prop} {pos : Nat} {text : Text} {ts : List Spanned} {cs : List Comment}

/-- Everything starts at or behind the position. -/
theorem Laid.le (h : Laid clean pos text ts cs) :
    (∀ t ∈ ts, pos ≤ t.1) ∧ ∀ c ∈ cs, pos ≤ c.loc.start := by
  induction h with
  | nil => simp
  | gap _ _ ih =>
    exact ⟨fun t ht => Nat.le_of_add_right_le (ih.1 t ht),
      fun c hc => Nat.le_of_add_right_le (ih.2 c hc)⟩
  | token _ _ _ ih =>
    refine ⟨fun t ht => ?_, fun c hc => Nat.le_of_add_right_le (ih.2 c hc)⟩
    obtain rfl | ht := List.mem_cons.mp ht
    · exact Nat.le_refl _
    · exact Nat.le_of_add_right_le (ih.1 t ht)
  | comment _ hloc _ _ ih =>
    refine ⟨fun t ht => Nat.le_of_add_right_le (ih.1 t ht), fun c hc => ?_⟩
    obtain rfl | hc := List.mem_cons.mp hc
    · exact Nat.le_of_eq (by rw [hloc])
    · exact Nat.le_of_add_right_le (ih.2 c hc)

theorem Laid.increase (h : Laid clean pos text ts cs) :
    ts.Pairwise (fun t t' => t.2.2 ≤ t'.1) ∧ cs.Pairwise (fun c c' => c.loc.stop ≤ c'.loc.start) ∧
      ∀ t ∈ ts, ∀ c ∈ cs, t.2.2 ≤ c.loc.start ∨ c.loc.stop ≤ t.1 := by
  induction h with
  | nil => simp
  | gap _ _ ih => exact ih
  | token _ _ hlaid ih =>
    obtain ⟨ht, hc, hdis⟩ := ih
    refine ⟨List.pairwise_cons.mpr ⟨hlaid.le.1, ht⟩, hc, fun t hmem c hmem' => ?_⟩
    obtain rfl | hmem := List.mem_cons.mp hmem
    · exact .inl (hlaid.le.2 c hmem')
    · exact hdis t hmem c hmem'
  | comment _ hloc _ hlaid ih =>
    obtain ⟨ht, hc, hdis⟩ := ih
    refine ⟨ht, List.pairwise_cons.mpr ⟨fun c hmem => ?_, hc⟩, fun t hmem c hmem' => ?_⟩
    · rw [hloc]
      exact hlaid.le.2 c hmem
    · obtain rfl | hmem' := List.mem_cons.mp hmem'
      · rw [hloc]
        exact .inr (hlaid.le.1 t hmem)
      · exact hdis t hmem c hmem'

/-- The text stands behind `p` in the input. -/
theorem Laid.spans {p q : Text} (h : Laid clean pos text ts cs) (hpos : pos = size p)
    (hin : input = p ++ text ++ q) :
    (∀ t ∈ ts, ∃ m, m ≠ [] ∧ Spans input t.1 t.2.2 m ∧ t.2.1.Carries m) ∧
      ∀ c ∈ cs, c.text ≠ [] ∧ Spans input c.loc.start c.loc.stop c.text := by
  induction h generalizing p with
  | nil => simp
  | @gap _ m _ _ _ _ _ ih =>
    exact ih (p := p ++ m) (by rw [hpos, size_append]) (by simp [hin])
  | @token pos m text _ _ _ hne hcar _ ih =>
    obtain ⟨ht, hc⟩ := ih (p := p ++ m) (by rw [hpos, size_append]) (by simp [hin])
    refine ⟨fun t hmem => ?_, hc⟩
    obtain rfl | hmem := List.mem_cons.mp hmem
    · exact ⟨m, hne, ⟨p, text ++ q, by simp [hin], hpos, by rw [hpos]⟩, hcar⟩
    · exact ht t hmem
  | @comment pos m text _ _ _ hne hloc htext _ ih =>
    obtain ⟨ht, hc⟩ := ih (p := p ++ m) (by rw [hpos, size_append]) (by simp [hin])
    refine ⟨ht, fun c hmem => ?_⟩
    obtain rfl | hmem := List.mem_cons.mp hmem
    · rw [htext, hloc]
      exact ⟨hne, p, text ++ q, by simp [hin], hpos, by rw [hpos]⟩
    · exact hc c hmem

/-- A character is in the gap, the token or the comment that comes first, or behind it. -/
theorem split_at {p q : Text} (h : m ++ text = p ++ ch :: q) :
    (ch ∈ m ∧ size p < size m) ∨ ∃ p', p = m ++ p' ∧ text = p' ++ ch :: q := by
  obtain ⟨p', rfl, htext⟩ | ⟨l, rfl, hl⟩ := List.append_eq_append_iff.mp h
  · exact .inr ⟨p', rfl, htext⟩
  · cases l with
    | nil => exact .inr ⟨[], by simp, by simpa using hl.symm⟩
    | cons c l =>
      obtain ⟨rfl, -⟩ := List.cons.inj hl
      refine .inl ⟨by simp, ?_⟩
      have hc := ch.utf8Size_pos
      rw [size_append, size_cons]
      omega

theorem Laid.outside {p q : Text} (h : Laid clean pos text ts cs) (hclean : clean)
    (htext : text = p ++ ch :: q) (ht : ∀ t ∈ ts, ¬Inside (pos + size p) t.1 t.2.2)
    (hc : ∀ c ∈ cs, ¬Inside (pos + size p) c.loc.start c.loc.stop) : isWhitespace ch = true := by
  induction h generalizing p with
  | nil => simp at htext
  | gap hws _ ih =>
    obtain ⟨hmem, -⟩ | ⟨p', rfl, hrest⟩ := split_at htext
    · exact hws hclean ch hmem
    · rw [size_append, ← Nat.add_assoc] at ht hc
      exact ih hrest ht hc
  | token _ _ _ ih =>
    obtain ⟨-, hlt⟩ | ⟨p', rfl, hrest⟩ := split_at htext
    · exact absurd ⟨Nat.le_add_right _ _, Nat.add_lt_add_left hlt _⟩ (ht _ List.mem_cons_self)
    · rw [size_append, ← Nat.add_assoc] at ht hc
      exact ih hrest (fun t hmem => ht t (List.mem_cons_of_mem _ hmem)) hc
  | comment _ hloc _ _ ih =>
    obtain ⟨-, hlt⟩ | ⟨p', rfl, hrest⟩ := split_at htext
    · have hno := hc _ List.mem_cons_self
      rw [hloc] at hno
      exact absurd ⟨Nat.le_add_right _ _, Nat.add_lt_add_left hlt _⟩ hno
    · rw [size_append, ← Nat.add_assoc] at ht hc
      exact ih hrest ht (fun c hmem => hc c (List.mem_cons_of_mem _ hmem))

end Spans

theorem lex_covers (input : Text) :
    ∃ tokens s, lex isXidStart isXidContinue input = some (tokens, s) ∧
      Covers input tokens s.comments s.errors := by
  have hat : At input [] (new input) := ⟨rfl, rfl⟩
  obtain ⟨tokens, s, es, hlex, ⟨m, cs, hrest, hoff, hcom, herr, hlaid⟩, hend⟩ :=
    collect_spec isXidStart isXidContinue (Nat.lt_succ_self input.length) hat
  refine ⟨tokens, s, hlex, ?_⟩
  have hcs : s.comments = cs := hcom
  have hes : s.errors = es := herr
  have hin : input = m ++ s.rest := hrest
  rw [hcs, hes]
  have hspans := hlaid.spans (p := []) (q := s.rest) rfl hin
  have hinc := hlaid.increase
  refine ⟨hspans.1, hspans.2, hinc.1, hinc.2.1, hinc.2.2, fun hnil p ch q hp ht hc => ?_⟩
  -- without an error the lexer has come to the end
  rw [hend hnil, List.append_nil] at hin
  have hzero : (new input).offset + size p = size p := Nat.zero_add _
  exact hlaid.outside hnil (hin.symm.trans hp) (by rwa [hzero]) (by rwa [hzero])

end Solang.Parser
