import GridKernel.Proofs.Numerals

/-!
The grammar of JSON texts, and the reader that accepts all of it. `StringText` derives a string to
its closing quote, and `Text` a value, or a part of a list or an object to its closing bracket, with
any blanks between the tokens. Whatever has a derivation is read as what it derives.
-/
namespace GridKernel.Json

/-! Strings. -/

/-- What follows the opening quote of a string, and what it says. -/
inductive StringText : List Char → List Piece → Prop where
  | close : StringText ['"'] []
  | raw {c : Char} {cs : List Char} {ps : List Piece} (hquote : c ≠ '"') (hbackslash : c ≠ '\\')
      (hcontrol : ¬ c < ' ') (h : StringText cs ps) : StringText (c :: cs) (.char c :: ps)
  | escaped {e c : Char} {cs : List Char} {ps : List Piece} (he : escaped? e = some c)
      (h : StringText cs ps) : StringText ('\\' :: e :: cs) (.char c :: ps)
  | unit {a b c d : Char} {n : Nat} {cs : List Char} {ps : List Piece}
      (hn : codeUnit? a b c d = some n) (h : StringText cs ps) :
      StringText ('\\' :: 'u' :: a :: b :: c :: d :: cs) (.ofCodeUnit n :: ps)

theorem StringText.read {cs : List Char} {ps : List Piece} (h : StringText cs ps)
    (before : List Piece) (rest : List Char) :
    readString before (cs ++ rest) = some (join? [] (before.reverse ++ ps), rest) := by
  induction h generalizing before with
  | close => simp [readString]
  | raw hquote hbackslash hcontrol h ih =>
    simp [readString, hbackslash, hcontrol, ih]
  | @escaped e c cs ps he h ih =>
    have hunit : e ≠ 'u' := by
      rintro rfl
      cases he
    simp [readString, hunit, he, ih]
  | unit hn h ih => simp [readString, hn, ih]

/-! Blanks. -/

def Blank (cs : List Char) : Prop := ∀ c ∈ cs, isBlank c

theorem blank_nil : Blank [] := by
  intro c hc
  cases hc

theorem skipBlanks_append {blanks : List Char} (h : Blank blanks) (cs : List Char) :
    skipBlanks (blanks ++ cs) = skipBlanks cs :=
  List.dropWhile_append_of_pos h

theorem skipBlanks_skipBlanks (cs : List Char) : skipBlanks (skipBlanks cs) = skipBlanks cs := by
  induction cs with
  | nil => rfl
  | cons c cs ih =>
    by_cases hc : isBlank c
    · simpa [skipBlanks, hc] using ih
    · simp [skipBlanks, hc]

theorem isBlank_cases {c : Char} (h : isBlank c) : c = ' ' ∨ c = '\t' ∨ c = '\n' ∨ c = '\r' := by
  simpa [isBlank, or_assoc] using h

/-- No number goes on with a blank. -/
theorem Delimited.append {blanks rest : List Char} (h : Blank blanks) (hrest : Delimited rest) :
    Delimited (blanks ++ rest) := by
  cases blanks with
  | nil => exact hrest
  | cons c cs =>
    apply delimited_cons
    rcases isBlank_cases (h c List.mem_cons_self) with rfl | rfl | rfl | rfl <;> decide

theorem readValue_skipBlanks (fuel : Nat) (cs : List Char) :
    readValue fuel (skipBlanks cs) = readValue fuel cs := by
  cases fuel with
  | zero => rfl
  | succ fuel => simp only [readValue, skipBlanks_skipBlanks]

theorem readItems_skipBlanks (fuel : Nat) (items : List Json) (cs : List Char) :
    readItems fuel items (skipBlanks cs) = readItems fuel items cs := by
  cases fuel with
  | zero => rfl
  | succ fuel => simp only [readItems, readValue_skipBlanks]

theorem readFields_skipBlanks (fuel : Nat) (fields : List (Option String × Json))
    (cs : List Char) : readFields fuel fields (skipBlanks cs) = readFields fuel fields cs := by
  cases fuel with
  | zero => rfl
  | succ fuel => simp only [readFields, skipBlanks_skipBlanks]

/-! Values. -/

/-- What a text is derived from: a value; a value between blanks; a key with its value; what follows
the opening bracket of a list or an object. -/
inductive Part where
  | value (j : Json)
  | item (j : Json)
  | field (key : Option String) (j : Json)
  | items (js : List Json)
  | fields (fs : List (Option String × Json))

inductive Text : List Char → Part → Prop where
  | null : Text ['n', 'u', 'l', 'l'] (.value .null)
  | true : Text ['t', 'r', 'u', 'e'] (.value (.bool .true))
  | false : Text ['f', 'a', 'l', 's', 'e'] (.value (.bool .false))
  | number {n : Numeral} {cs : List Char} (h : n.HasText cs) : Text cs (.value (.number n))
  | string {ps : List Piece} {cs : List Char} (h : StringText cs ps) :
      Text ('"' :: cs) (.value (.string (join? [] ps)))
  | emptyArray {blanks : List Char} (h : Blank blanks) :
      Text ('[' :: (blanks ++ [']'])) (.value (.array []))
  | array {cs : List Char} {js : List Json} (h : Text cs (.items js)) :
      Text ('[' :: cs) (.value (.array js))
  | emptyObject {blanks : List Char} (h : Blank blanks) :
      Text ('\x7b' :: (blanks ++ ['\x7d'])) (.value (.object []))
  | object {cs : List Char} {fs : List (Option String × Json)} (h : Text cs (.fields fs)) :
      Text ('\x7b' :: cs) (.value (.object fs))
  | item {front back cs : List Char} {j : Json} (hfront : Blank front) (h : Text cs (.value j))
      (hback : Blank back) : Text (front ++ (cs ++ back)) (.item j)
  | field {front back key cs : List Char} {ps : List Piece} {j : Json} (hfront : Blank front)
      (hkey : StringText key ps) (hback : Blank back) (h : Text cs (.item j)) :
      Text (front ++ '"' :: (key ++ (back ++ ':' :: cs))) (.field (join? [] ps) j)
  | lastItem {cs : List Char} {j : Json} (h : Text cs (.item j)) : Text (cs ++ [']']) (.items [j])
  | items {cs rest : List Char} {j : Json} {js : List Json} (h : Text cs (.item j))
      (hs : Text rest (.items js)) : Text (cs ++ ',' :: rest) (.items (j :: js))
  | lastField {cs : List Char} {key : Option String} {j : Json} (h : Text cs (.field key j)) :
      Text (cs ++ ['\x7d']) (.fields [(key, j)])
  | fields {cs rest : List Char} {key : Option String} {j : Json}
      {fs : List (Option String × Json)} (h : Text cs (.field key j)) (hs : Text rest (.fields fs)) :
      Text (cs ++ ',' :: rest) (.fields ((key, j) :: fs))

/-- How a text is read: a value in front of anything that cannot extend a number, a field up to the
comma or the brace after it, items and fields with their closing bracket. -/
def Part.ReadFrom (cs : List Char) : Part → Prop
  | value j => ∀ fuel rest, 2 * cs.length ≤ fuel → Delimited rest →
      readValue fuel (cs ++ rest) = some (j, rest)
  | item j => ∀ fuel rest, 2 * cs.length ≤ fuel → Delimited rest →
      ∃ after, readValue fuel (cs ++ rest) = some (j, after) ∧ skipBlanks after = skipBlanks rest
  | field key j => ∀ fuel fields rest, 2 * cs.length ≤ fuel →
      readFields (fuel + 1) fields (cs ++ ',' :: rest) = readFields fuel ((key, j) :: fields) rest ∧
        readFields (fuel + 1) fields (cs ++ '\x7d' :: rest) =
          some (.object ((key, j) :: fields).reverse, rest)
  | items js => ∀ fuel items rest, 2 * cs.length ≤ fuel →
      readItems fuel items (cs ++ rest) = some (.array (items.reverse ++ js), rest)
  | fields fs => ∀ fuel fields rest, 2 * cs.length ≤ fuel →
      readFields fuel fields (cs ++ rest) = some (.object (fields.reverse ++ fs), rest)

/-- What begins with a sign or a digit is read as a number. -/
theorem readValue_eq_readNumber {fuel : Nat} {c : Char} {cs : List Char}
    (hc : c = '-' ∨ c.isDigit) : readValue (fuel + 1) (c :: cs) = readNumber (c :: cs) := by
  have hblank : skipBlanks (c :: cs) = c :: cs := by
    have : isBlank c = false := by
      rw [Bool.eq_false_iff]
      intro hblank
      rcases isBlank_cases hblank with rfl | rfl | rfl | rfl <;> revert hc <;> decide
    simp [skipBlanks, this]
  rw [readValue, hblank]
  split
  -- No other value begins so.
  iterate 6
    rename_i heq
    obtain ⟨rfl, -⟩ := List.cons.inj heq
    obtain hsign | hdigit := hc
    · cases hsign
    · cases hdigit
  rfl

/-- No item begins with the bracket that closes a list. -/
theorem readItems_bracket (fuel : Nat) (items : List Json) (cs : List Char) :
    readItems fuel items (']' :: cs) = none := by
  cases fuel with
  | zero => rfl
  | succ fuel =>
    have hvalue : readValue fuel (']' :: cs) = none := by cases fuel <;> rfl
    simp only [readItems, hvalue]

/-- No field begins with the brace that closes an object. -/
theorem readFields_brace (fuel : Nat) (fields : List (Option String × Json)) (cs : List Char) :
    readFields fuel fields ('\x7d' :: cs) = none := by
  cases fuel <;> rfl

theorem delimited_comma (cs : List Char) : Delimited (',' :: cs) := delimited_cons (by decide)

theorem delimited_bracket (cs : List Char) : Delimited (']' :: cs) := delimited_cons (by decide)

theorem delimited_brace (cs : List Char) : Delimited ('\x7d' :: cs) := delimited_cons (by decide)

namespace Part

theorem readFrom_number {n : Numeral} {cs : List Char} (h : n.HasText cs) :
    (value (.number n)).ReadFrom cs := by
  intro fuel rest hfuel hrest
  obtain ⟨c, ds, htext, hc⟩ : ∃ c ds, cs = c :: ds ∧ (c = '-' ∨ c.isDigit) := by
    obtain ⟨d, ds, hwhole, hd⟩ := h.wellFormed.exists_digit
    obtain ⟨exponent, -, rfl⟩ := h.text
    rw [hwhole]
    cases n.negative with
    | true => exact ⟨'-', _, rfl, .inl rfl⟩
    | false => exact ⟨d, _, rfl, .inr hd⟩
  have hread := readNumber_append h hrest
  subst htext
  obtain ⟨fuel, rfl⟩ : ∃ n, fuel = n + 1 := ⟨fuel - 1, by simp at hfuel; omega⟩
  exact (readValue_eq_readNumber hc).trans hread

theorem readFrom_string {ps : List Piece} {cs : List Char} (h : StringText cs ps) :
    (value (.string (join? [] ps))).ReadFrom ('"' :: cs) := by
  intro fuel rest hfuel _
  obtain ⟨fuel, rfl⟩ : ∃ n, fuel = n + 1 := ⟨fuel - 1, by simp at hfuel; omega⟩
  have hread := h.read [] rest
  simp [readValue, skipBlanks, isBlank, hread]

theorem readFrom_emptyArray {blanks : List Char} (h : Blank blanks) :
    (value (.array [])).ReadFrom ('[' :: (blanks ++ [']'])) := by
  intro fuel rest hfuel _
  obtain ⟨fuel, rfl⟩ : ∃ n, fuel = n + 1 := ⟨fuel - 1, by simp at hfuel; omega⟩
  have hclose : skipBlanks (blanks ++ ']' :: rest) = ']' :: rest := skipBlanks_append h _
  have hopen : skipBlanks ('[' :: (blanks ++ ']' :: rest)) = '[' :: (blanks ++ ']' :: rest) := rfl
  simp [readValue, hopen, hclose]

theorem readFrom_emptyObject {blanks : List Char} (h : Blank blanks) :
    (value (.object [])).ReadFrom ('\x7b' :: (blanks ++ ['\x7d'])) := by
  intro fuel rest hfuel _
  obtain ⟨fuel, rfl⟩ : ∃ n, fuel = n + 1 := ⟨fuel - 1, by simp at hfuel; omega⟩
  have hclose : skipBlanks (blanks ++ '\x7d' :: rest) = '\x7d' :: rest := skipBlanks_append h _
  have hopen : skipBlanks ('\x7b' :: (blanks ++ '\x7d' :: rest)) =
      '\x7b' :: (blanks ++ '\x7d' :: rest) := rfl
  simp [readValue, hopen, hclose]

/-- A list that goes on is not closed at once, so its items are read. -/
theorem readFrom_array {cs : List Char} {js : List Json} (h : (items js).ReadFrom cs) :
    (value (.array js)).ReadFrom ('[' :: cs) := by
  intro fuel rest hfuel _
  simp only [List.length_cons] at hfuel
  obtain ⟨fuel, rfl⟩ : ∃ n, fuel = n + 1 := ⟨fuel - 1, by omega⟩
  have hitems := h fuel [] rest (by omega)
  rw [← readItems_skipBlanks] at hitems
  have hopen : skipBlanks ('[' :: cs ++ rest) = '[' :: (cs ++ rest) := rfl
  simp only [readValue, hopen]
  split
  · rename_i heq
    rw [heq, readItems_bracket] at hitems
    cases hitems
  · exact hitems

theorem readFrom_object {cs : List Char} {fs : List (Option String × Json)}
    (h : (fields fs).ReadFrom cs) : (value (.object fs)).ReadFrom ('\x7b' :: cs) := by
  intro fuel rest hfuel _
  simp only [List.length_cons] at hfuel
  obtain ⟨fuel, rfl⟩ : ∃ n, fuel = n + 1 := ⟨fuel - 1, by omega⟩
  have hfields := h fuel [] rest (by omega)
  rw [← readFields_skipBlanks] at hfields
  have hopen : skipBlanks ('\x7b' :: cs ++ rest) = '\x7b' :: (cs ++ rest) := rfl
  simp only [readValue, hopen]
  split
  · rename_i heq
    rw [heq, readFields_brace] at hfields
    cases hfields
  · exact hfields

theorem readFrom_item {front back cs : List Char} {j : Json} (hfront : Blank front)
    (h : (value j).ReadFrom cs) (hback : Blank back) :
    (item j).ReadFrom (front ++ (cs ++ back)) := by
  intro fuel rest hfuel hrest
  simp only [List.length_append] at hfuel
  have hread := h fuel (back ++ rest) (by omega) (hrest.append hback)
  refine ⟨back ++ rest, ?_, skipBlanks_append hback rest⟩
  rw [List.append_assoc, List.append_assoc, ← readValue_skipBlanks, skipBlanks_append hfront,
    readValue_skipBlanks, hread]

theorem readFrom_field {front back key cs : List Char} {ps : List Piece} {j : Json}
    (hfront : Blank front) (hkey : StringText key ps) (hback : Blank back)
    (h : (item j).ReadFrom cs) :
    (field (join? [] ps) j).ReadFrom (front ++ '"' :: (key ++ (back ++ ':' :: cs))) := by
  intro fuel fields rest hfuel
  simp only [List.length_append, List.length_cons] at hfuel
  have hquote : ∀ after, skipBlanks (front ++ '"' :: after) = '"' :: after :=
    fun after => skipBlanks_append hfront _
  have hcolon : ∀ after, skipBlanks (back ++ ':' :: after) = ':' :: after :=
    fun after => skipBlanks_append hback _
  constructor
  · obtain ⟨after, hread, hafter⟩ := h fuel (',' :: rest) (by omega) (delimited_comma rest)
    have hcomma : skipBlanks after = ',' :: rest := hafter
    simp [readFields, hquote, hkey.read, hcolon, hread, hcomma]
  · obtain ⟨after, hread, hafter⟩ := h fuel ('\x7d' :: rest) (by omega) (delimited_brace rest)
    have hbrace : skipBlanks after = '\x7d' :: rest := hafter
    simp [readFields, hquote, hkey.read, hcolon, hread, hbrace]

theorem readFrom_lastItem {cs : List Char} {j : Json} (h : (item j).ReadFrom cs) :
    (items [j]).ReadFrom (cs ++ [']']) := by
  intro fuel items rest hfuel
  simp only [List.length_append, List.length_singleton] at hfuel
  obtain ⟨fuel, rfl⟩ : ∃ n, fuel = n + 1 := ⟨fuel - 1, by omega⟩
  obtain ⟨after, hread, hafter⟩ := h fuel (']' :: rest) (by omega) (delimited_bracket rest)
  have hbracket : skipBlanks after = ']' :: rest := hafter
  simp [readItems, hread, hbracket]

theorem readFrom_items {cs more : List Char} {j : Json} {js : List Json}
    (h : (item j).ReadFrom cs) (hs : (items js).ReadFrom more) :
    (items (j :: js)).ReadFrom (cs ++ ',' :: more) := by
  intro fuel items rest hfuel
  simp only [List.length_append, List.length_cons] at hfuel
  obtain ⟨fuel, rfl⟩ : ∃ n, fuel = n + 1 := ⟨fuel - 1, by omega⟩
  obtain ⟨after, hread, hafter⟩ := h fuel (',' :: (more ++ rest)) (by omega) (delimited_comma _)
  have hcomma : skipBlanks after = ',' :: (more ++ rest) := hafter
  have hmore := hs fuel (j :: items) rest (by omega)
  simp [readItems, hread, hcomma, hmore]

theorem readFrom_lastField {cs : List Char} {key : Option String} {j : Json}
    (h : (field key j).ReadFrom cs) : (fields [(key, j)]).ReadFrom (cs ++ ['\x7d']) := by
  intro fuel fields rest hfuel
  simp only [List.length_append, List.length_singleton] at hfuel
  obtain ⟨fuel, rfl⟩ : ∃ n, fuel = n + 1 := ⟨fuel - 1, by omega⟩
  simpa using (h fuel fields rest (by omega)).2

theorem readFrom_fields {cs more : List Char} {key : Option String} {j : Json}
    {fs : List (Option String × Json)} (h : (field key j).ReadFrom cs)
    (hs : (fields fs).ReadFrom more) : (fields ((key, j) :: fs)).ReadFrom (cs ++ ',' :: more) := by
  intro fuel fields rest hfuel
  simp only [List.length_append, List.length_cons] at hfuel
  obtain ⟨fuel, rfl⟩ : ∃ n, fuel = n + 1 := ⟨fuel - 1, by omega⟩
  have hmore := hs fuel ((key, j) :: fields) rest (by omega)
  simpa [hmore] using (h fuel fields (more ++ rest) (by omega)).1

end Part

/-- A text is read as what it is derived from. -/
theorem Text.readFrom {cs : List Char} {p : Part} (h : Text cs p) : p.ReadFrom cs := by
  induction h with
  | null | true | false =>
    intro fuel rest hfuel _
    obtain ⟨fuel, rfl⟩ : ∃ n, fuel = n + 1 := ⟨fuel - 1, by simp at hfuel; omega⟩
    rfl
  | number h => exact Part.readFrom_number h
  | string h => exact Part.readFrom_string h
  | emptyArray h => exact Part.readFrom_emptyArray h
  | array _ ih => exact Part.readFrom_array ih
  | emptyObject h => exact Part.readFrom_emptyObject h
  | object _ ih => exact Part.readFrom_object ih
  | item hfront _ hback ih => exact Part.readFrom_item hfront ih hback
  | field hfront hkey hback _ ih => exact Part.readFrom_field hfront hkey hback ih
  | lastItem _ ih => exact Part.readFrom_lastItem ih
  | items _ _ ih ihs => exact Part.readFrom_items ih ihs
  | lastField _ ih => exact Part.readFrom_lastField ih
  | fields _ _ ih ihs => exact Part.readFrom_fields ih ihs

/-- A text of a value, with blanks around it, has that value. -/
theorem read?_of_text {text : String} {j : Json} (h : Text text.toList (.item j)) :
    read? text = some j := by
  have hread := h.readFrom (2 * text.toList.length + 2) [] (by omega) delimited_nil
  obtain ⟨after, hvalue, hafter⟩ := hread
  rw [List.append_nil] at hvalue
  have hempty : skipBlanks after = [] := hafter
  simp [read?, hvalue, hempty]

end GridKernel.Json
