import Solang.Parser.Lexer

/-!
# String literals

`unescape` and `get_digits` of `sema/expression/strings.rs`, for the text of a literal without its
quotes. Locations are in the file of the literal. A result is `none` where `unreachable!` is
reached.

Then what a literal stands for: its escapes are those that the lexer passes, and `Denotes` gives the
bytes of a text whose escapes are well formed.
-/

namespace Solang.Sema.Strings

open Solang.Parser (Loc backslash singleQuote doubleQuote)

structure Diagnostic where
  loc : Loc
  message : String

/-- `CharIndices`: the characters that are left, and the offset of the first one -/
structure CharIndices where
  rest : Text
  offset : Nat

def CharIndices.next (s : CharIndices) : Option ((Nat × Char) × CharIndices) :=
  match s.rest with
  | [] => none
  | ch :: rest => some ((s.offset, ch), ⟨rest, s.offset + ch.utf8Size⟩)

/-- `char::to_digit` in base 16 -/
def toDigit (ch : Char) : Option Nat :=
  let n := ch.toNat
  if 48 ≤ n ∧ n ≤ 57 then some (n - 48)
  else if 97 ≤ n ∧ n ≤ 102 then some (n - 87)
  else if 65 ≤ n ∧ n ≤ 70 then some (n - 55)
  else none

/-- The loop of `get_digits`. The offset of an error is `none` for `usize::MAX`. -/
def digitsLoop : Nat → Nat → CharIndices → Except (Option Nat) Nat × CharIndices
  | 0, n, s => (.ok n, s)
  | len + 1, n, s =>
    match s.next with
    | none => (.error none, s)
    | some ((_, ch), s) =>
      match toDigit ch with
      | some v => digitsLoop len (n <<< 4 + v) s
      | none =>
        match s.next with
        | some ((i, _), s) => (.error (some i), s)
        | none => (.error none, s)

def getDigits (s : CharIndices) (len : Nat) : Except (Option Nat) Nat × CharIndices := digitsLoop len 0 s

/-- `char::from_u32` -/
def fromU32 (n : Nat) : Option Char := if n.isValidChar then some (Char.ofNat n) else none

/-- The escapes of one character -/
def simpleEscapes : List (Char × List UInt8) :=
  [(Char.ofNat 10, []), (backslash, [0x5c]), (singleQuote, [0x27]), (doubleQuote, [0x22]), ('b', [0x08]),
    ('f', [0x0c]), ('n', [0x0a]), ('r', [0x0d]), ('t', [0x09]), ('v', [0x0b])]

structure Unescaped where
  valid : Bool
  bytes : List UInt8
  diagnostics : List Diagnostic

namespace Unescaped

def push (out : Unescaped) (bytes : List UInt8) : Unescaped := { out with bytes := out.bytes ++ bytes }

def error (out : Unescaped) (start stop : Nat) (message : String) : Unescaped :=
  { out with valid := false, diagnostics := out.diagnostics ++ [⟨⟨start, stop⟩, message⟩] }

end Unescaped

section

/-! The length of the literal in bytes, and where it starts -/

variable (len start : Nat)

/-- The escape of the character `ch`, which stands at `i` behind a backslash -/
def escape (i : Nat) (ch : Char) (s : CharIndices) (out : Unescaped) : CharIndices × Unescaped :=
  match simpleEscapes.lookup ch with
  | some bytes => (s, out.push bytes)
  | none =>
    if ch = 'x' then
      match getDigits s 2 with
      | (.ok n, s) => (s, out.push [UInt8.ofNat n])
      | (.error offset, s) =>
        (s, out.error (start + i) (start + min len (offset.getD len))
          "\\x escape should be followed by two hex digits")
    else if ch = 'u' then
      match getDigits s 4 with
      | (.ok codepoint, s) =>
        match fromU32 codepoint with
        | some ch => (s, out.push (String.utf8EncodeChar ch))
        | none => (s, out.error (start + i) (start + i + 6) "Found an invalid unicode character")
      | (.error offset, s) =>
        (s, out.error (start + i) (start + min len (offset.getD len))
          "\\u escape should be followed by four hex digits")
    else
      (s, out.error (start + i) (start + i + ch.utf8Size)
        ("unknown escape character '" ++ ch.toString ++ "'"))

theorem length_digitsLoop (k n : Nat) (s : CharIndices) :
    (digitsLoop k n s).2.rest.length ≤ s.rest.length := by
  induction k generalizing n s with
  | zero => exact Nat.le_refl _
  | succ k ih =>
    obtain ⟨rest, offset⟩ := s
    rcases rest with _ | ⟨ch, rest⟩
    · exact Nat.le_refl _
    · simp only [digitsLoop, CharIndices.next]
      split
      · exact Nat.le_succ_of_le (ih _ _)
      · rcases rest with _ | ⟨c, rest⟩
        · exact Nat.zero_le _
        · exact Nat.le_add_right _ 2

theorem length_escape (i : Nat) (ch : Char) (s : CharIndices) (out : Unescaped) :
    (escape len start i ch s out).1.rest.length ≤ s.rest.length := by
  have h2 := length_digitsLoop 2 0 s
  have h4 := length_digitsLoop 4 0 s
  unfold escape
  split
  · exact Nat.le_refl _
  · split
    · unfold getDigits
      split <;> simp_all
    · split
      · unfold getDigits
        split
        · split <;> simp_all
        · simp_all
      · exact Nat.le_refl _

/-- The loop of `unescape` -/
def unescapeLoop (s : CharIndices) (out : Unescaped) : Option Unescaped :=
  match s with
  | ⟨[], _⟩ => some out
  | ⟨ch :: rest, offset⟩ =>
    if ch ≠ backslash then
      unescapeLoop ⟨rest, offset + ch.utf8Size⟩ (out.push (String.utf8EncodeChar ch))
    else
      match rest with
      | [] => none
      | c :: rest =>
        let i := offset + ch.utf8Size
        let r := escape len start i c ⟨rest, i + c.utf8Size⟩ out
        unescapeLoop r.1 r.2
termination_by s.rest.length
decreasing_by
  · simp
  · have h := length_escape len start (offset + ch.utf8Size) c ⟨rest, offset + ch.utf8Size + c.utf8Size⟩ out
    simp only [List.length_cons] at h ⊢
    omega

end

def unescape (literal : Text) (start : Nat) : Option Unescaped :=
  unescapeLoop literal.size start ⟨literal, 0⟩ ⟨true, [], []⟩

/-! ## What a literal stands for -/

/-- The number that is written as `n` and this many digits more -/
def hexValue : Nat → Nat → Text → Option Nat
  | 0, n, _ => some n
  | _ + 1, _, [] => none
  | count + 1, n, ch :: q => (toDigit ch).bind fun v => hexValue count (16 * n + v) q

/-- The bytes of an escape, and the number of the digits that belong to it. Without them it is
malformed. -/
def meaning (c : Char) (q : Text) : Option (List UInt8 × Nat) :=
  match simpleEscapes.lookup c with
  | some bytes => some (bytes, 0)
  | none =>
    if c = 'x' then (hexValue 2 0 q).map fun n => ([UInt8.ofNat n], 2)
    else if c = 'u' then ((hexValue 4 0 q).bind fromU32).map fun ch => (String.utf8EncodeChar ch, 4)
    else none

inductive Denotes : Text → List UInt8 → Prop where
  | nil : Denotes [] []
  | plain {ch : Char} {q : Text} {bytes : List UInt8} (hch : ch ≠ backslash) (h : Denotes q bytes) :
      Denotes (ch :: q) (String.utf8EncodeChar ch ++ bytes)
  | escape {c : Char} {q : Text} {bs bytes : List UInt8} {k : Nat} (hc : meaning c q = some (bs, k))
      (h : Denotes (List.drop k q) bytes) : Denotes (backslash :: c :: q) (bs ++ bytes)

/-- `last_was_escape` of the lexer behind this text -/
def lastWasEscape (p : Text) : Bool := p.foldl (fun e ch => !e && ch = backslash) false

/-- The lexer passes a malformed escape behind `p`. -/
def MalformedAt (text p : Text) : Prop :=
  ∃ c q, text = p ++ backslash :: c :: q ∧ lastWasEscape p = false ∧ meaning c q = none

end Solang.Sema.Strings

/-!
## Which literals are unescaped as they read

The digit reader of `unescape` takes the character in the place of a missing digit and the one
after it, whatever they are. `Reader` says a character at a time where that leads: it is between
two elements of the text, behind a backslash, at the digits of an escape, or at the character to
be passed over. The loop reports the malformed escapes that stand where the reader is between
two elements, and it is at `unreachable!` when the text ends behind a backslash.
-/

namespace Solang.Sema.Strings

open Solang.Parser (backslash doubleQuote lex)

inductive Reader where
  | text
  | escape
  | digits (left : Nat)
  | passed
  deriving DecidableEq

def Reader.next : Reader → Char → Reader
  | .text, ch => if ch = backslash then .escape else .text
  | .escape, ch => if ch = 'x' then .digits 2 else if ch = 'u' then .digits 4 else .text
  | .digits left, ch => if (toDigit ch).isNone then .passed else if left ≤ 1 then .text else .digits (left - 1)
  | .passed, _ => .text

def Reader.run (r : Reader) (p : Text) : Reader := p.foldl Reader.next r

/-- Where the reader is behind this text -/
def readerAfter (p : Text) : Reader := Reader.text.run p

/-- The reader comes to a malformed escape behind `p`. -/
def ReportedAt (text p : Text) : Prop :=
  ∃ c q, text = p ++ backslash :: c :: q ∧ readerAfter p = .text ∧ meaning c q = none

/-! ### The escapes that the reader comes to -/

def malformedHead : Text → Bool
  | [] => false
  | c :: q => (meaning c q).isNone

/-- The offsets of the malformed escapes that the reader comes to -/
def starts : Reader → Nat → Text → List Nat
  | _, _, [] => []
  | r, offset, ch :: q =>
    (if r = .text ∧ ch = backslash ∧ malformedHead q then [offset] else []) ++
      starts (r.next ch) (offset + ch.utf8Size) q

@[simp] theorem run_nil (r : Reader) : r.run [] = r := rfl

@[simp] theorem run_cons (r : Reader) (ch : Char) (q : Text) : r.run (ch :: q) = (r.next ch).run q := rfl

theorem starts_of_ne {r : Reader} (h : r ≠ .text) (offset : Nat) (ch : Char) (q : Text) :
    starts r offset (ch :: q) = starts (r.next ch) (offset + ch.utf8Size) q := by
  rw [starts, if_neg fun h' => h h'.1, List.nil_append]

theorem mem_starts {i : Nat} (r : Reader) (offset : Nat) (q : Text) : i ∈ starts r offset q ↔
    ∃ p c q', q = p ++ backslash :: c :: q' ∧ r.run p = .text ∧ meaning c q' = none ∧ i = offset + p.size := by
  induction q generalizing r offset with
  | nil =>
    refine ⟨fun h => absurd h List.not_mem_nil, ?_⟩
    rintro ⟨p, c, q', h, -⟩
    exact absurd h.symm (List.append_ne_nil_of_right_ne_nil _ (List.cons_ne_nil _ _))
  | cons ch q ih =>
    rw [starts, List.mem_append, ih]
    constructor
    · rintro (h | ⟨p, c, q', rfl, hr, hc, rfl⟩)
      · split at h
        · rename_i hhead
          obtain ⟨hr, rfl, hm⟩ := hhead
          rcases q with _ | ⟨c, q⟩
          · cases hm
          · exact ⟨[], c, q, rfl, hr, Option.isNone_iff_eq_none.mp hm, List.mem_singleton.mp h⟩
        · exact absurd h List.not_mem_nil
      · exact ⟨ch :: p, c, q', rfl, hr, hc, by rw [Text.size_cons]; omega⟩
    · rintro ⟨p, c, q', hq, hr, hc, rfl⟩
      rcases p with _ | ⟨ch', p⟩
      · obtain ⟨rfl, rfl⟩ := List.cons.inj hq
        refine Or.inl ?_
        rw [if_pos ⟨hr, rfl, Option.isNone_iff_eq_none.mpr hc⟩]
        exact List.mem_singleton_self _
      · obtain ⟨rfl, rfl⟩ := List.cons.inj hq
        exact Or.inr ⟨p, c, q', rfl, hr, hc, by rw [Text.size_cons]; omega⟩

/-! ### Digits -/

/-- The reader at the digits of an escape is where the digit reader ends. -/
theorem digits_run (k n : Nat) (s : CharIndices) :
    starts (.digits (k + 1)) s.offset s.rest =
      starts .text (digitsLoop (k + 1) n s).2.offset (digitsLoop (k + 1) n s).2.rest ∧
    ((Reader.digits (k + 1)).run s.rest = .escape ↔
      Reader.text.run (digitsLoop (k + 1) n s).2.rest = .escape) := by
  induction k generalizing n s with
  | zero =>
    obtain ⟨_ | ⟨ch, rest⟩, offset⟩ := s
    · simp [digitsLoop, CharIndices.next, starts]
    · rw [run_cons, starts_of_ne (by simp)]
      cases hd : toDigit ch with
      | some v => simp [digitsLoop, CharIndices.next, Reader.next, hd]
      | none => rcases rest with _ | ⟨c, rest⟩ <;> simp [digitsLoop, CharIndices.next, Reader.next, hd, starts]
  | succ k ih =>
    obtain ⟨_ | ⟨ch, rest⟩, offset⟩ := s
    · simp [digitsLoop, CharIndices.next, starts]
    · rw [run_cons, starts_of_ne (by simp)]
      cases hd : toDigit ch with
      | some v =>
        have h := ih (n <<< 4 + v) ⟨rest, offset + ch.utf8Size⟩
        rw [digitsLoop]
        simpa [CharIndices.next, Reader.next, hd] using h
      | none => rcases rest with _ | ⟨c, rest⟩ <;> simp [digitsLoop, CharIndices.next, Reader.next, hd, starts]

theorem digits_value (k n : Nat) (s : CharIndices) :
    match digitsLoop k n s with
    | (.ok v, s') => hexValue k n s.rest = some v ∧ s'.rest = List.drop k s.rest
    | (.error _, _) => hexValue k n s.rest = none := by
  induction k generalizing n s with
  | zero => exact ⟨rfl, rfl⟩
  | succ k ih =>
    obtain ⟨_ | ⟨ch, rest⟩, offset⟩ := s
    · rfl
    · simp only [digitsLoop, CharIndices.next]
      cases hd : toDigit ch with
      | some v =>
        have h := ih (n <<< 4 + v) ⟨rest, offset + ch.utf8Size⟩
        have hn : n <<< 4 + v = 16 * n + v := by rw [Nat.shiftLeft_eq, Nat.mul_comm]
        simpa [hexValue, hd, hn] using h
      | none => rcases rest with _ | ⟨c, rest⟩ <;> simp [hexValue, hd]

/-! ### An escape -/

section

variable {len start : Nat}

/-- What is done with the escape of `ch` before the characters `s`: it is read up to `s'`. -/
structure EscapeRead (start i : Nat) (ch : Char) (s s' : CharIndices) (out out' : Unescaped) : Prop where
  out : ∃ ds bs, out' = ⟨out.valid && ds.isEmpty, out.bytes ++ bs, out.diagnostics ++ ds⟩ ∧
    ds.map (·.loc.start) = (if (meaning ch s.rest).isNone then [start + i] else []) ∧
    ∀ b k, meaning ch s.rest = some (b, k) → bs = b ∧ s'.rest = List.drop k s.rest
  starts : starts (Reader.escape.next ch) s.offset s.rest = starts .text s'.offset s'.rest
  ends : (Reader.escape.next ch).run s.rest = .escape ↔ Reader.text.run s'.rest = .escape

variable {out : Unescaped} {ch : Char} {s s' : CharIndices}

theorem out_push {b : List UInt8} {k i : Nat} (hm : meaning ch s.rest = some (b, k))
    (hs : s'.rest = List.drop k s.rest) :
    ∃ ds bs, out.push b = ⟨out.valid && ds.isEmpty, out.bytes ++ bs, out.diagnostics ++ ds⟩ ∧
      ds.map (·.loc.start) = (if (meaning ch s.rest).isNone then [start + i] else []) ∧
      ∀ b k, meaning ch s.rest = some (b, k) → bs = b ∧ s'.rest = List.drop k s.rest := by
  refine ⟨[], b, by simp [Unescaped.push], by simp [hm], fun b' k' h => ?_⟩
  obtain ⟨rfl, rfl⟩ := Prod.mk.inj (Option.some.inj (hm.symm.trans h))
  exact ⟨rfl, hs⟩

theorem out_error {i stop : Nat} {message : String} (hm : meaning ch s.rest = none) :
    ∃ ds bs, out.error (start + i) stop message = ⟨out.valid && ds.isEmpty, out.bytes ++ bs, out.diagnostics ++ ds⟩ ∧
      ds.map (·.loc.start) = (if (meaning ch s.rest).isNone then [start + i] else []) ∧
      ∀ b k, meaning ch s.rest = some (b, k) → bs = b ∧ s'.rest = List.drop k s.rest :=
  ⟨[_], [], by simp [Unescaped.error]; rfl, by simp [hm], fun b k h => by rw [hm] at h; cases h⟩

theorem lookup_x : simpleEscapes.lookup 'x' = none := by decide

theorem lookup_u : simpleEscapes.lookup 'u' = none := by decide

theorem escape_spec (i : Nat) (ch : Char) (s : CharIndices) (out : Unescaped) :
    EscapeRead start i ch s (escape len start i ch s out).1 out (escape len start i ch s out).2 := by
  unfold escape
  cases hl : simpleEscapes.lookup ch with
  | some bytes =>
    have hx : ch ≠ 'x' := by rintro rfl; rw [lookup_x] at hl; cases hl
    have hu : ch ≠ 'u' := by rintro rfl; rw [lookup_u] at hl; cases hl
    have hm : meaning ch s.rest = some (bytes, 0) := by simp [meaning, hl]
    have hnext : Reader.escape.next ch = .text := by simp [Reader.next, hx, hu]
    exact ⟨out_push hm rfl, by rw [hnext], by rw [hnext]⟩
  | none =>
    by_cases hx : ch = 'x'
    · subst hx
      have hrun := digits_run 1 0 s
      have hval := digits_value 2 0 s
      simp only [if_true, getDigits]
      rcases h : digitsLoop 2 0 s with ⟨_ | n, s'⟩
      · rw [h] at hrun hval
        exact ⟨out_error (by simp [meaning, hl, hval]), hrun.1, hrun.2⟩
      · rw [h] at hrun hval
        exact ⟨out_push (by simp [meaning, hl, hval.1]) hval.2, hrun.1, hrun.2⟩
    · by_cases hu : ch = 'u'
      · subst hu
        have hrun := digits_run 3 0 s
        have hval := digits_value 4 0 s
        simp only [if_neg hx, if_true, getDigits]
        rcases h : digitsLoop 4 0 s with ⟨_ | n, s'⟩
        · rw [h] at hrun hval
          exact ⟨out_error (by simp [meaning, hl, hval]), hrun.1, hrun.2⟩
        · rw [h] at hrun hval
          cases hc : fromU32 n with
          | none =>
            simp only [hc]
            exact ⟨out_error (by simp [meaning, hl, hval.1, hc]), hrun.1, hrun.2⟩
          | some c =>
            simp only [hc]
            exact ⟨out_push (by simp [meaning, hl, hval.1, hc]) hval.2, hrun.1, hrun.2⟩
      · have hnext : Reader.escape.next ch = .text := by simp [Reader.next, hx, hu]
        simp only [if_neg hx, if_neg hu]
        exact ⟨out_error (by simp [meaning, hl, hx, hu]), by rw [hnext], by rw [hnext]⟩

end

/-! ### The loop -/

/-- What the loop does from `s` on -/
def Reads (start : Nat) (s : CharIndices) (out : Unescaped) : Option Unescaped → Prop
  | none => Reader.text.run s.rest = .escape
  | some out' => Reader.text.run s.rest ≠ .escape ∧ ∃ ds bs,
      out' = ⟨out.valid && ds.isEmpty, out.bytes ++ bs, out.diagnostics ++ ds⟩ ∧
      ds.map (·.loc.start) = (starts .text s.offset s.rest).map (start + 1 + ·) ∧
      (ds = [] → Denotes s.rest bs)

section

variable {start : Nat} {s s' : CharIndices} {out : Unescaped} {r : Option Unescaped}

/-- An element of the text, and then what follows it -/
theorem Reads.step {ds : List Diagnostic} {bs : List UInt8}
    (h : Reads start s' ⟨out.valid && ds.isEmpty, out.bytes ++ bs, out.diagnostics ++ ds⟩ r)
    (hends : Reader.text.run s.rest = .escape ↔ Reader.text.run s'.rest = .escape)
    (hstarts : (starts .text s.offset s.rest).map (start + 1 + ·) =
      ds.map (·.loc.start) ++ (starts .text s'.offset s'.rest).map (start + 1 + ·))
    (hdenotes : ds = [] → ∀ bytes, Denotes s'.rest bytes → Denotes s.rest (bs ++ bytes)) : Reads start s out r := by
  cases r with
  | none => exact hends.mpr h
  | some out' =>
    obtain ⟨hne, ds', bs', rfl, hds, hbs⟩ := h
    refine ⟨fun h => hne (hends.mp h), ds ++ ds', bs ++ bs', ?_, ?_, fun hnil => ?_⟩
    · cases ds <;> simp
    · rw [List.map_append, hds, hstarts]
    · obtain ⟨rfl, rfl⟩ := List.append_eq_nil_iff.mp hnil
      exact hdenotes rfl bs' (hbs rfl)

theorem unescapeLoop_spec (len : Nat) (s : CharIndices) (out : Unescaped) :
    Reads start s out (unescapeLoop len start s out) := by
  fun_induction unescapeLoop len start s out with
  | case1 out offset => exact ⟨by simp, [], [], by simp, rfl, fun _ => .nil⟩
  | case2 out ch rest offset hch ih =>
    have hnext : Reader.text.next ch = .text := if_neg hch
    refine @Reads.step _ _ _ _ _ [] (String.utf8EncodeChar ch) (by simpa [Unescaped.push] using ih) ?_ ?_ ?_
    · rw [run_cons, hnext]
    · rw [starts, hnext, if_neg fun h => hch h.2.1]
      rfl
    · exact fun _ bytes h => .plain hch h
  | case3 out ch offset hch =>
    obtain rfl : ch = backslash := not_not.mp hch
    rfl
  | case4 out ch offset hch c rest i r ih =>
    obtain rfl : ch = backslash := not_not.mp hch
    obtain ⟨⟨ds, bs, hout, hds, hmeaning⟩, hstarts, hends⟩ :=
      @escape_spec len start i c ⟨rest, i + c.utf8Size⟩ out
    generalize unescapeLoop len start r.1 r.2 = result at ih ⊢
    rw [hout] at ih
    refine Reads.step ih ?_ ?_ ?_
    · exact hends
    · rw [starts, starts_of_ne (by simp [Reader.next]), hds, List.map_append]
      refine congrArg₂ (· ++ ·) ?_ (congrArg _ hstarts)
      have hi : i = offset + 1 := rfl
      by_cases hm : (meaning c rest).isNone
      · rw [if_pos ⟨rfl, rfl, hm⟩, if_pos hm, hi, List.map_singleton, Nat.add_comm offset, ← Nat.add_assoc]
      · rw [if_neg fun h => hm h.2.2, if_neg hm]
        rfl
    · intro hnil bytes h
      have hm : (meaning c rest).isNone = false := by
        cases hm : (meaning c rest).isNone with
        | false => rfl
        | true =>
          rw [hnil, if_pos hm] at hds
          cases hds
      cases hc : meaning c rest with
      | none => rw [hc] at hm; cases hm
      | some m =>
        obtain ⟨hb, hrest⟩ := hmeaning m.1 m.2 hc
        rw [hrest] at h
        rw [hb]
        exact .escape hc h

end

/-! ### The literals that are unescaped as they read -/

/-- Where the text of a literal starts in its file. Callers pass the start of the token. -/
def textStart (unicode : Bool) (tokenStart : Nat) : Nat := tokenStart + if unicode then 8 else 1

/-- `unescape` ends, reports every malformed escape where it stands, and gives what the text stands
for unless it reports something. -/
def Faithful (unicode : Bool) (tokenStart : Nat) (text : Text) : Prop :=
  ∃ out, unescape text tokenStart = some out ∧
    (∀ p, MalformedAt text p → ∃ d ∈ out.diagnostics, d.loc.start = textStart unicode tokenStart + p.size) ∧
    (out.diagnostics = [] → Denotes text out.bytes)

/-- The reader is between two elements at every malformed escape, and the text does not end where it
is behind a backslash. Behind `unicode` the locations are seven bytes short. -/
def Met (unicode : Bool) (text : Text) : Prop :=
  readerAfter text ≠ .escape ∧ ∀ p, MalformedAt text p →
    if unicode then ∃ p', ReportedAt text p' ∧ p'.size = p.size + 7 else readerAfter p = .text

theorem mem_starts_text {text : Text} {i : Nat} :
    i ∈ starts .text 0 text ↔ ∃ p, ReportedAt text p ∧ p.size = i := by
  rw [mem_starts]
  constructor
  · rintro ⟨p, c, q, ht, hr, hm, rfl⟩
    exact ⟨p, ⟨c, q, ht, hr, hm⟩, (Nat.zero_add _).symm⟩
  · rintro ⟨p, ⟨c, q, ht, hr, hm⟩, rfl⟩
    exact ⟨p, c, q, ht, hr, hm, (Nat.zero_add _).symm⟩

/-- Texts before one place are one text. -/
theorem prefix_eq_of_size {p p' q q' : Text} (h : p ++ q = p' ++ q') (hsize : p.size = p'.size) : p = p' := by
  have hp := Text.take_append p q
  rw [h, hsize, Text.take_append] at hp
  exact (Option.some.inj hp).symm

/-- Where a diagnostic of the literal starts -/
theorem exists_diagnostic_iff {tokenStart i : Nat} {text : Text} {ds : List Diagnostic}
    (hds : ds.map (·.loc.start) = (starts .text 0 text).map (tokenStart + 1 + ·)) :
    (∃ d ∈ ds, d.loc.start = tokenStart + 1 + i) ↔ ∃ p, ReportedAt text p ∧ p.size = i := by
  rw [← mem_starts_text]
  have hmem : (∃ d ∈ ds, d.loc.start = tokenStart + 1 + i) ↔ tokenStart + 1 + i ∈ ds.map (·.loc.start) :=
    List.mem_map.symm
  rw [hmem, hds, List.mem_map]
  exact ⟨fun ⟨j, hj, h⟩ => Nat.add_left_cancel h ▸ hj, fun h => ⟨i, h, rfl⟩⟩

theorem faithful_iff (unicode : Bool) (tokenStart : Nat) (text : Text) :
    Faithful unicode tokenStart text ↔ Met unicode text := by
  have hspec := @unescapeLoop_spec tokenStart text.size ⟨text, 0⟩ ⟨true, [], []⟩
  unfold Faithful Met unescape
  cases hrun : unescapeLoop text.size tokenStart ⟨text, 0⟩ ⟨true, [], []⟩ with
  | none =>
    rw [hrun] at hspec
    exact ⟨fun ⟨_, h, _⟩ => (by cases h), fun h => absurd hspec h.1⟩
  | some out =>
    rw [hrun] at hspec
    obtain ⟨hne, ds, bs, rfl, hds, hdenotes⟩ := hspec
    have hat : ∀ p : Text, (∃ d ∈ ds, d.loc.start = textStart unicode tokenStart + p.size) ↔
        ∃ p', ReportedAt text p' ∧ p'.size = p.size + if unicode then 7 else 0 := by
      intro p
      rw [← exists_diagnostic_iff hds]
      have hplace : textStart unicode tokenStart + p.size =
          tokenStart + 1 + (p.size + if unicode then 7 else 0) := by
        unfold textStart
        cases unicode <;> (simp only [Bool.false_eq_true, if_true, if_false]; omega)
      rw [hplace]
    have hmet : ∀ p, MalformedAt text p → ((∃ d ∈ ds, d.loc.start = textStart unicode tokenStart + p.size) ↔
        if unicode then ∃ p', ReportedAt text p' ∧ p'.size = p.size + 7 else readerAfter p = .text) := by
      rintro p ⟨c, q, ht, hl, hm⟩
      rw [hat]
      cases unicode with
      | true => rfl
      | false =>
        constructor
        · rintro ⟨p', ⟨c', q', ht', hr, -⟩, hsize⟩
          rw [prefix_eq_of_size (ht.symm.trans ht') hsize.symm]
          exact hr
        · exact fun hr => ⟨p, ⟨c, q, ht, hr, hm⟩, rfl⟩
    constructor
    · rintro ⟨out, hout, hall, -⟩
      obtain rfl := Option.some.inj hout
      exact ⟨hne, fun p hp => (hmet p hp).mp (hall p hp)⟩
    · exact fun h => ⟨_, rfl, fun p hp => (hmet p hp).mpr (h.2 p hp), hdenotes⟩

namespace Sample

/-- A backslash, `xg` and two backslashes -/
def literal : Text := [backslash, 'x', 'g', backslash, backslash]

def input : Text := doubleQuote :: literal ++ [doubleQuote]

/-- The lexer accepts the literal. Its first escape takes one of the two backslashes, and the other
one is the last character. -/
theorem swallowed_backslash :
    (∃ s, lex (fun _ => false) (fun _ => false) input = some ([(0, .stringLiteral false literal, 7)], s) ∧
      s.errors.length = 0) ∧ ¬ Faithful false 0 literal := by
  refine ⟨⟨_, rfl, rfl⟩, ?_⟩
  rintro ⟨out, hout, -⟩
  have hspec := @unescapeLoop_spec 0 literal.size ⟨literal, 0⟩ ⟨true, [], []⟩
  unfold unescape at hout
  rw [hout] at hspec
  exact hspec.1 (by decide)

end Sample

end Solang.Sema.Strings
