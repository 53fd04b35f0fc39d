import GridKernel.Json.Printer
import GridKernel.Proofs.JsonGrammar

/-!
Printed values read back. The compact text and the pretty text of a value are in the grammar, as
long as its strings are given and its numbers are well formed, so they read as the value.
-/
namespace GridKernel.Json

/-! Strings. -/

/-- A control character is read from the four digits that it is written with. -/
theorem ofCodeUnit_control {c : Char} (h : c < ' ') :
    ∃ n, codeUnit? '0' '0' (Nat.digitChar (c.toNat / 16)) (Nat.digitChar (c.toNat % 16)) = some n ∧
      Piece.ofCodeUnit n = .char c := by
  have hlt : c.toNat < 32 := h
  have hdigits : ∀ n < 32, codeUnit? '0' '0' (Nat.digitChar (n / 16)) (Nat.digitChar (n % 16)) =
      some n := by decide
  have hpiece : ∀ n < 32, Piece.ofCodeUnit n = .char (Char.ofNat n) := by decide
  refine ⟨c.toNat, hdigits _ hlt, ?_⟩
  rw [hpiece _ hlt, Char.ofNat_toNat]

/-- What stands for a character in a string says that character. -/
theorem StringText.escape (c : Char) {cs : List Char} {ps : List Piece} (h : StringText cs ps) :
    StringText ((Json.escape c).toList ++ cs) (.char c :: ps) := by
  unfold Json.escape
  split
  iterate 7 exact .escaped rfl h
  rename_i hquote hbackslash _ _ _ _ _
  split
  · rename_i hcontrol
    obtain ⟨n, hunit, hpiece⟩ := ofCodeUnit_control hcontrol
    rw [← hpiece]
    simpa [hexText] using StringText.unit hunit h
  · rename_i hraw
    simpa using StringText.raw hquote hbackslash hraw h

theorem stringText_chars (cs : List Char) :
    StringText (cs.flatMap (fun c => (escape c).toList) ++ ['"']) (cs.map .char) := by
  induction cs with
  | nil => exact .close
  | cons c cs ih =>
    rw [List.flatMap_cons, List.append_assoc]
    exact ih.escape c

theorem toList_quote (s : String) :
    (quote s).toList = '"' :: (s.toList.flatMap (fun c => (escape c).toList) ++ ['"']) := by
  have hfold : ∀ (cs : List Char) (text : String),
      (cs.foldl (fun text c => text ++ escape c) text).toList =
        text.toList ++ cs.flatMap fun c => (escape c).toList := by
    intro cs
    induction cs with
    | nil => intro text; simp
    | cons c cs ih =>
      intro text
      simp [ih, List.append_assoc]
  simp [quote, hfold]

theorem join?_chars (text cs : List Char) :
    join? text (cs.map .char) = some (String.ofList (text.reverse ++ cs)) := by
  induction cs generalizing text with
  | nil => simp [join?]
  | cons c cs ih => simp [join?, ih]

theorem join?_toList (s : String) : join? [] (s.toList.map .char) = some s := by
  simpa using join?_chars [] s.toList

theorem text_quote (s : String) : Text (quote s).toList (.value (string (some s))) := by
  rw [toList_quote, ← join?_toList s]
  exact .string (stringText_chars s.toList)

/-- A quoted key with its colon. -/
theorem text_keyed {front cs : List Char} (hfront : Blank front) (key : String) {j : Json}
    (h : Text cs (.item j)) :
    Text (front ++ ((quote key).toList ++ ':' :: cs)) (.field (some key) j) := by
  have hfield := Text.field hfront (stringText_chars key.toList) blank_nil h
  rw [join?_toList] at hfield
  simpa [toList_quote] using hfield

theorem Text.bare {cs : List Char} {j : Json} (h : Text cs (.value j)) : Text cs (.item j) := by
  simpa using Text.item blank_nil h blank_nil

/-! Values with a text. -/

mutual

/-- Whether a value has a text: its strings and keys are given and its numbers are well formed. -/
def Printable : Json → Prop
  | number n => n.WellFormed
  | string text? => text?.isSome
  | array items => PrintableItems items
  | object fields => PrintableFields fields
  | _ => True
termination_by structural j => j

def PrintableItems : List Json → Prop
  | [] => True
  | j :: js => j.Printable ∧ PrintableItems js
termination_by structural js => js

def PrintableFields : List (Option String × Json) → Prop
  | [] => True
  | f :: fs => PrintableField f ∧ PrintableFields fs
termination_by structural fs => fs

def PrintableField : Option String × Json → Prop
  | (key, value) => key.isSome ∧ value.Printable
termination_by structural f => f

end

@[simp] theorem printable_null : null.Printable := trivial

@[simp] theorem printable_bool (b : Bool) : (bool b).Printable := trivial

@[simp] theorem printable_str (s : String) : (str s).Printable := rfl

@[simp] theorem printable_nat (n : Nat) : (nat n).Printable := Numeral.wellFormed_ofNat n

@[simp] theorem printable_int (n : Int) : (int n).Printable := Numeral.wellFormed_ofInt n

@[simp] theorem printable_double (x : Binary64) : (double x).Printable := by
  unfold double
  split
  · exact Numeral.wellFormed_ofBinary64 x
  · trivial

@[simp] theorem printable_array (items : List Json) :
    (array items).Printable ↔ ∀ j ∈ items, j.Printable := by
  show PrintableItems items ↔ _
  induction items with
  | nil => simp [PrintableItems]
  | cons j js ih => simp [PrintableItems, ih]

@[simp] theorem printable_obj (fields : List (String × Json)) :
    (obj fields).Printable ↔ ∀ f ∈ fields, f.2.Printable := by
  show PrintableFields _ ↔ _
  induction fields with
  | nil => simp [PrintableFields]
  | cons f fs ih => simp [PrintableFields, PrintableField, ih]

/-! Compact texts. -/

mutual

theorem text_compact : ∀ j : Json, j.Printable → Text j.compact.toList (.value j)
  | null, _ => .null
  | bool true, _ => .true
  | bool false, _ => .false
  | number n, h => .number (Numeral.WellFormed.hasText h)
  | string (some s), _ => text_quote s
  | array [], _ => .emptyArray blank_nil
  | array (j :: js), h => by
    have hitems := textItems_compact (j :: js) (List.cons_ne_nil j js) h
    simpa [compact] using Text.array hitems
  | object [], _ => .emptyObject blank_nil
  | object (f :: fs), h => by
    have hfields := textFields_compact (f :: fs) (List.cons_ne_nil f fs) h
    simpa [compact] using Text.object hfields
termination_by structural j => j

theorem textItems_compact : ∀ js : List Json, js ≠ [] → PrintableItems js →
    Text ((compactItems true js).toList ++ [']']) (.items js)
  | [], hne, _ => absurd rfl hne
  | [j], _, h => by
    have hvalue := text_compact j h.1
    simpa [compactItems] using Text.lastItem hvalue.bare
  | j :: k :: js, _, h => by
    have hvalue := text_compact j h.1
    have hrest := textItems_compact (k :: js) (List.cons_ne_nil k js) h.2
    simpa [compactItems] using Text.items hvalue.bare hrest
termination_by structural js => js

theorem textFields_compact : ∀ fs : List (Option String × Json), fs ≠ [] → PrintableFields fs →
    Text ((compactFields true fs).toList ++ ['\x7d']) (.fields fs)
  | [], hne, _ => absurd rfl hne
  | [(some key, value)], _, h => by
    have hfield := text_keyed blank_nil key (text_compact value h.1.2).bare
    simpa [compactFields, compactField] using Text.lastField hfield
  | (some key, value) :: g :: fs, _, h => by
    have hfield := text_keyed blank_nil key (text_compact value h.1.2).bare
    have hrest := textFields_compact (g :: fs) (List.cons_ne_nil g fs) h.2
    simpa [compactFields, compactField] using Text.fields hfield hrest
termination_by structural fs => fs

end

/-- A printable value is the value of its compact text. -/
theorem read?_compact {j : Json} (h : j.Printable) : read? j.compact = some j :=
  read?_of_text (text_compact j h).bare

/-! Pretty texts. -/

theorem blank_space : Blank [' '] := by
  intro c hc
  rw [List.mem_singleton.1 hc]
  rfl

theorem blank_newLine (depth : Nat) : Blank (newLine depth).toList := by
  intro c hc
  simp only [newLine, String.toList_append, String.toList_ofList, List.mem_append,
    List.mem_replicate] at hc
  rcases hc with hc | ⟨-, rfl⟩
  · rw [List.mem_singleton.1 hc]
    rfl
  · rfl

mutual

theorem text_prettyAt : ∀ (j : Json) (depth : Nat), j.Printable →
    Text (prettyAt depth j).toList (.value j)
  | null, _, _ => by simpa [prettyAt] using Text.null
  | bool true, _, _ => by simpa [prettyAt] using Text.true
  | bool false, _, _ => by simpa [prettyAt] using Text.false
  | number n, _, h => .number (Numeral.WellFormed.hasText h)
  | string (some s), _, _ => text_quote s
  | array [], _, _ => by simpa [prettyAt] using Text.emptyArray blank_nil
  | array (j :: js), depth, h => by
    have hitems := textItems_pretty (j :: js) (depth + 1) (blank_newLine depth)
      (List.cons_ne_nil j js) h
    simpa [prettyAt] using Text.array hitems
  | object [], _, _ => by simpa [prettyAt] using Text.emptyObject blank_nil
  | object (f :: fs), depth, h => by
    have hfields := textFields_pretty (f :: fs) (depth + 1) (blank_newLine depth)
      (List.cons_ne_nil f fs) h
    simpa [prettyAt] using Text.object hfields
termination_by structural j => j

theorem textItems_pretty : ∀ (js : List Json) (depth : Nat) {back : List Char}, Blank back →
    js ≠ [] → PrintableItems js →
    Text ((prettyItems true depth js).toList ++ (back ++ [']'])) (.items js)
  | [], _, _, _, hne, _ => absurd rfl hne
  | [j], depth, back, hback, _, h => by
    have hitem := Text.item (blank_newLine depth) (text_prettyAt j depth h.1) hback
    simpa [prettyItems] using Text.lastItem hitem
  | j :: k :: js, depth, back, hback, _, h => by
    have hitem := Text.item (blank_newLine depth) (text_prettyAt j depth h.1) blank_nil
    have hrest := textItems_pretty (k :: js) depth hback (List.cons_ne_nil k js) h.2
    simpa [prettyItems] using Text.items hitem hrest
termination_by structural js => js

theorem textFields_pretty : ∀ (fs : List (Option String × Json)) (depth : Nat) {back : List Char},
    Blank back → fs ≠ [] → PrintableFields fs →
    Text ((prettyFields true depth fs).toList ++ (back ++ ['\x7d'])) (.fields fs)
  | [], _, _, _, hne, _ => absurd rfl hne
  | [(some key, value)], depth, back, hback, _, h => by
    have hitem := Text.item blank_space (text_prettyAt value depth h.1.2) hback
    have hfield := text_keyed (blank_newLine depth) key hitem
    simpa [prettyFields, prettyField] using Text.lastField hfield
  | (some key, value) :: g :: fs, depth, back, hback, _, h => by
    have hitem := Text.item blank_space (text_prettyAt value depth h.1.2) blank_nil
    have hfield := text_keyed (blank_newLine depth) key hitem
    have hrest := textFields_pretty (g :: fs) depth hback (List.cons_ne_nil g fs) h.2
    simpa [prettyFields, prettyField] using Text.fields hfield hrest
termination_by structural fs => fs

end

end GridKernel.Json
