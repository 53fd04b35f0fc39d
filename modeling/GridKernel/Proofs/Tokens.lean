import GridKernel.Proofs.Names
import GridKernel.Proofs.ShortestDecimals

/-! Tokens of C. A text is read from the left, each token as long as the characters allow, and
blanks between tokens are skipped. Of the constants of C only decimal ones are read, integers and
digits with a point among them; the latter denote the double-precision word nearest to them. -/
namespace GridKernel.Source

open Json (takeWhile_append_of_stop)

inductive Token where
  | name (text : String)
  | number (q : ℚ)
  | mark (text : String)
deriving DecidableEq

/-- The operators and punctuators of C with the openings of comments, longer ones first. -/
def punctuators : List String :=
  ["%:%:", "...", "<<=", ">>=", "//", "/*", "->", "++", "--", "<<", ">>", "<=", ">=", "==", "!=",
    "&&", "||", "*=", "/=", "%=", "+=", "-=", "&=", "^=", "|=", "##", "<:", ":>", "<%", "%>", "%:",
    "[", "]", "(", ")", "\x7b", "\x7d", ".", "&", "*", "+", "-", "~", "!", "/", "%", "<", ">", "^",
    "|", "?", ":", ";", "=", ",", "#"]

/-- The longest punctuator at the front of a text. -/
def punctuator? (cs : List Char) : Option String :=
  punctuators.find? fun p => p.toList.isPrefixOf cs

/-- The value of a decimal constant. Digits after a zero would be read to base eight. -/
def constant? (cs : List Char) : Option ℚ :=
  let whole := cs.takeWhile Char.isDigit
  match cs.dropWhile Char.isDigit with
  | [] =>
    if whole.head? = some '0' ∧ whole ≠ ['0'] then none else some (Nat.ofDigitChars 10 whole 0)
  | '.' :: fraction =>
    if whole ≠ [] ∧ fraction ≠ [] ∧ fraction.all Char.isDigit then
      (Binary64.ofRatio false (Nat.ofDigitChars 10 (whole ++ fraction) 0)
        (10 ^ fraction.length)).exact
    else none
  | _ => none

/-- The characters that go on with a constant. -/
def isNumberPart (c : Char) : Bool := Identifier.isPart c || c == '.'

/-- The first token of a text that begins with no blank, with the number of its further
characters. -/
def scan (c : Char) (cs : List Char) : Option (Token × Nat) :=
  if Identifier.isStart c then
    let tail := cs.takeWhile Identifier.isPart
    some (.name (String.ofList (c :: tail)), tail.length)
  else if c.isDigit || c == '.' && cs.head?.any Char.isDigit then
    let tail := cs.takeWhile isNumberPart
    (constant? (c :: tail)).map fun q => (.number q, tail.length)
  else (punctuator? (c :: cs)).map fun p => (.mark p, p.length - 1)

/-- The tokens of a text, if it has only tokens and blanks. -/
def lex : List Char → Option (List Token)
  | [] => some []
  | c :: cs =>
    if c.isWhitespace then lex cs
    else
      match scan c cs with
      | some (t, n) => (lex (cs.drop n)).map (t :: ·)
      | none => none
termination_by cs => cs.length

theorem lex_nil : lex [] = some [] := by
  unfold lex
  rfl

theorem lex_blank (cs : List Char) : lex (' ' :: cs) = lex cs := by
  conv_lhs => unfold lex
  rfl

/-- A token is read in front of what is left after it. -/
theorem lex_of_scan {c : Char} {cs rest : List Char} {t : Token} (hc : c.isWhitespace = false)
    (h : scan c (cs ++ rest) = some (t, cs.length)) :
    lex (c :: (cs ++ rest)) = (lex rest).map (t :: ·) := by
  conv_lhs => unfold lex
  simp only [hc, Bool.false_eq_true, if_false, h, List.drop_left]

/-- A text that no name and no number in front of it runs into. -/
def Apart (cs : List Char) : Prop := ∀ c ∈ cs.head?, isNumberPart c = false

theorem apart_nil : Apart [] := by
  intro c hc
  cases hc

theorem apart_cons {c : Char} (cs : List Char) (hc : isNumberPart c = false) : Apart (c :: cs) := by
  rintro d ⟨⟩
  exact hc

theorem Apart.isPart {cs : List Char} (h : Apart cs) :
    ∀ c ∈ cs.head?, Identifier.isPart c = false := by
  intro c hc
  exact (Bool.or_eq_false_iff.1 (h c hc)).1

section Characters
variable {c : Char}

theorem isPart_of_isDigit (h : c.isDigit) : Identifier.isPart c := by
  simp [Identifier.isPart, Char.isAlphanum, h]

theorem isNumberPart_of_isDigit (h : c.isDigit) : isNumberPart c := by
  simp [isNumberPart, isPart_of_isDigit h]

theorem not_isStart_of_isDigit (h : c.isDigit) : Identifier.isStart c = false := by
  have hrange : 48 ≤ c.toNat ∧ c.toNat ≤ 57 := by
    simpa [Char.isDigit, UInt32.le_iff_toNat_le] using h
  have hval : c.toNat = c.val.toNat := rfl
  have hne : c ≠ '_' := by
    rintro rfl
    cases h
  show ((decide (65 ≤ c.val ∧ c.val ≤ 90) || decide (97 ≤ c.val) && decide (c.val ≤ 122)) ||
    c == '_') = false
  simp [UInt32.le_iff_toNat_le, hne]
  omega

/-- A character of a name is no other character. -/
theorem ne_of_isPart (h : Identifier.isPart c) {d : Char} (hd : Identifier.isPart d = false) :
    c ≠ d := by
  rintro rfl
  rw [h] at hd
  cases hd

theorem not_isWhitespace_of_isPart (h : Identifier.isPart c) : c.isWhitespace = false := by
  simp [Char.isWhitespace, ne_of_isPart h (d := ' ') rfl, ne_of_isPart h (d := '\t') rfl,
    ne_of_isPart h (d := '\r') rfl, ne_of_isPart h (d := '\n') rfl]

end Characters

/-- A name is read whole. -/
theorem lex_name {s : String} (h : Identifier.isValid s) {rest : List Char} (hrest : Apart rest) :
    lex (s.toList ++ rest) = (lex rest).map (.name s :: ·) := by
  obtain ⟨c, cs, hs, hc, hcs⟩ := Identifier.isValid_iff.1 h
  have hword : String.ofList (c :: cs) = s := by rw [← hs, String.ofList_toList]
  have hpart := Identifier.isPart_of_isStart hc
  rw [hs]
  apply lex_of_scan (not_isWhitespace_of_isPart hpart)
  unfold scan
  rw [if_pos hc, takeWhile_append_of_stop hcs hrest.isPart]
  dsimp only
  rw [hword]

/-- A constant is read whole. -/
theorem lex_number {cs : List Char} {q : ℚ} (hdigit : ∃ c ∈ cs.head?, c.isDigit)
    (hcs : ∀ c ∈ cs, isNumberPart c) (hq : constant? cs = some q) {rest : List Char}
    (hrest : Apart rest) : lex (cs ++ rest) = (lex rest).map (.number q :: ·) := by
  obtain ⟨c, hhead, hc⟩ := hdigit
  obtain ⟨tail, rfl⟩ : ∃ tail, cs = c :: tail := by
    cases cs with
    | nil => cases hhead
    | cons d tail =>
      cases hhead
      exact ⟨tail, rfl⟩
  apply lex_of_scan (not_isWhitespace_of_isPart (isPart_of_isDigit hc))
  unfold scan
  rw [if_neg (by simp [not_isStart_of_isDigit hc]), if_pos (by simp [hc]),
    takeWhile_append_of_stop (fun d hd => hcs d (List.mem_cons_of_mem c hd)) hrest]
  dsimp only
  rw [hq]
  rfl

/-- The digits of a number denote it. -/
theorem constant?_toDigits (n : Nat) : constant? (Nat.toDigits 10 n) = some (n : ℚ) := by
  have htake : (Nat.toDigits 10 n ++ []).takeWhile Char.isDigit = Nat.toDigits 10 n :=
    takeWhile_append_of_stop Json.Numeral.isDigit_toDigits (by simp)
  have hdrop : (Nat.toDigits 10 n ++ []).dropWhile Char.isDigit = [] :=
    List.dropWhile_append_of_pos Json.Numeral.isDigit_toDigits
  rw [List.append_nil] at htake hdrop
  have hzero : ¬ ((Nat.toDigits 10 n).head? = some '0' ∧ Nat.toDigits 10 n ≠ ['0']) := by
    rintro ⟨hhead, hne⟩
    rcases Json.Numeral.whole_toDigits n with hzero | ⟨-, hhead', -⟩
    · exact hne hzero
    · exact hhead' hhead
  unfold constant?
  simp only [htake, hdrop, if_neg hzero, Nat.ofDigitChars_ten_toDigits]

/-- Digits with a point among them denote the word nearest to them. -/
theorem constant?_rounds {whole fraction : List Char} {x : Binary64}
    (h : Binary64.Rounds whole fraction x) : constant? (whole ++ '.' :: fraction) = x.exact := by
  have hwhole : ∀ c ∈ whole, c.isDigit := fun c hc => h.digits c (List.mem_append_left _ hc)
  have hfraction : fraction.all Char.isDigit :=
    List.all_eq_true.2 fun c hc => h.digits c (List.mem_append_right _ hc)
  have htake : (whole ++ '.' :: fraction).takeWhile Char.isDigit = whole :=
    takeWhile_append_of_stop hwhole (by rintro c ⟨⟩; rfl)
  have hdrop : (whole ++ '.' :: fraction).dropWhile Char.isDigit = '.' :: fraction := by
    rw [List.dropWhile_append_of_pos hwhole]
    rfl
  unfold constant?
  simp only [htake, hdrop, h.rounds]
  exact if_pos ⟨h.whole_ne_nil, h.fraction_ne_nil, hfraction⟩

/-- A punctuator is read where no name and no constant begins. -/
theorem lex_of_punctuator? {c : Char} (cs : List Char) {rest : List Char} {p : String}
    (hc : isNumberPart c = false ∧ c.isWhitespace = false)
    (hp : punctuator? (c :: (cs ++ rest)) = some p) (hlength : p.length = cs.length + 1) :
    lex (c :: (cs ++ rest)) = (lex rest).map (.mark p :: ·) := by
  obtain ⟨hpart, hblank⟩ := hc
  obtain ⟨hpart, hpoint⟩ := Bool.or_eq_false_iff.1 hpart
  have hstart : Identifier.isStart c = false := by
    by_contra hstart
    rw [Identifier.isPart_of_isStart (by simpa using hstart)] at hpart
    cases hpart
  have hdigit : c.isDigit = false := by
    by_contra hdigit
    rw [isPart_of_isDigit (by simpa using hdigit)] at hpart
    cases hpart
  apply lex_of_scan hblank
  unfold scan
  rw [hstart, hdigit, hpoint, if_neg (by decide), if_neg (by simp), hp, Option.map_some, hlength]
  rfl

theorem lex_open (cs : List Char) : lex ('(' :: cs) = (lex cs).map (.mark "(" :: ·) :=
  lex_of_punctuator? [] (by decide) rfl rfl

theorem lex_close (cs : List Char) : lex (')' :: cs) = (lex cs).map (.mark ")" :: ·) :=
  lex_of_punctuator? [] (by decide) rfl rfl

theorem lex_openSubscript (cs : List Char) : lex ('[' :: cs) = (lex cs).map (.mark "[" :: ·) :=
  lex_of_punctuator? [] (by decide) rfl rfl

theorem lex_closeSubscript (cs : List Char) : lex (']' :: cs) = (lex cs).map (.mark "]" :: ·) :=
  lex_of_punctuator? [] (by decide) rfl rfl

/-- Two minus signs in a row are one token. -/
theorem lex_decrement (cs : List Char) :
    lex ('-' :: '-' :: cs) = (lex cs).map (.mark "--" :: ·) :=
  lex_of_punctuator? ['-'] (by decide) rfl rfl

/-- A minus sign is read alone in front of what does not go on with it. -/
theorem lex_minus {cs : List Char} (h : ∀ c ∈ cs.head?, c ≠ '-' ∧ c ≠ '>' ∧ c ≠ '=') :
    lex ('-' :: cs) = (lex cs).map (.mark "-" :: ·) := by
  apply lex_of_punctuator? [] (by decide) _ rfl
  cases cs with
  | nil => rfl
  | cons c cs =>
    obtain ⟨hminus, harrow, hequal⟩ := h c rfl
    simp [punctuator?, punctuators, hminus.symm, harrow.symm, hequal.symm]

end GridKernel.Source
