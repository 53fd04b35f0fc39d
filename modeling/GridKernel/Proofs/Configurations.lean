import GridKernel.Proofs.WireForms

/-! Configurations as texts. What a configuration prints reads back, and so does every text of its
fields in another order, with fields that no record declares, or without fields that have their
default. `Edited` says how fields may differ from what is printed, at both levels of the text. -/
namespace GridKernel

namespace Wire

variable {known : List String} {absent : String → Prop} {fs gs : List (String × Json)} {n : String}

/-- Fields that come from others by reordering, by inserting fields under unknown names and by
removing fields that may be absent. -/
inductive Edited (known : List String) (absent : String → Prop) (fs : List (String × Json)) :
    List (String × Json) → Prop where
  | printed : Edited known absent fs fs
  | reordered {gs hs : List (String × Json)} (h : Edited known absent fs gs) (hperm : gs.Perm hs) :
      Edited known absent fs hs
  | inserted {before after : List (String × Json)} {key : String} (value : Json)
      (h : Edited known absent fs (before ++ after)) (hkey : key ∉ known) :
      Edited known absent fs (before ++ (key, value) :: after)
  | removed {before after : List (String × Json)} {key : String} {value : Json}
      (h : Edited known absent fs (before ++ (key, value) :: after)) (hkey : absent key) :
      Edited known absent fs (before ++ after)

/-- The fields under a name. -/
def named (n : String) (fs : List (String × Json)) : List (String × Json) :=
  fs.filter fun f => f.1 == n

theorem named_append (n : String) (fs gs : List (String × Json)) :
    named n (fs ++ gs) = named n fs ++ named n gs := List.filter_append ..

theorem named_cons_of_ne {key : String} (h : key ≠ n) (value : Json) :
    named n ((key, value) :: fs) = named n fs := by
  simp [named, h]

theorem named_cons_self (value : Json) : named n ((n, value) :: fs) = (n, value) :: named n fs := by
  simp [named]

/-- An edit leaves the one field under a known name, or removes it. -/
theorem Edited.named_eq (h : Edited known absent fs gs) (hn : n ∈ known) {v : Json}
    (hfs : named n fs = [(n, v)]) : named n gs = [(n, v)] ∨ absent n ∧ named n gs = [] := by
  induction h with
  | printed => exact .inl hfs
  | reordered h hperm ih =>
    have hnamed := hperm.filter fun f => f.1 == n
    rcases ih with ih | ⟨habsent, ih⟩
    · left
      rw [named] at ih
      rw [ih] at hnamed
      exact (List.singleton_perm.1 hnamed).symm
    · right
      rw [named] at ih
      rw [ih] at hnamed
      exact ⟨habsent, (List.nil_perm.1 hnamed)⟩
  | @inserted before after key value h hkey ih =>
    have hne : key ≠ n := fun heq => hkey (heq ▸ hn)
    rwa [named_append, named_cons_of_ne hne, ← named_append]
  | @removed before after key value h hkey ih =>
    by_cases hname : key = n
    · subst hname
      rw [named_append, named_cons_self] at ih
      rcases ih with ih | ⟨-, ih⟩
      · obtain ⟨hbefore, hafter⟩ : named key before = [] ∧ named key after = [] := by
          have hlength := congrArg List.length ih
          simp only [List.length_append, List.length_cons, List.length_nil] at hlength
          exact ⟨List.eq_nil_of_length_eq_zero (by omega), List.eq_nil_of_length_eq_zero (by omega)⟩
        exact .inr ⟨hkey, by rw [named_append, hbefore, hafter, List.append_nil]⟩
      · simp at ih
    · rwa [named_append, named_cons_of_ne hname, ← named_append] at ih

/-- A record finds the one field under a name. -/
theorem lookup?_eq_given {fields : List (Option String × Json)} {v : Json}
    (h : fields.filter (fun f => f.1 == some n) = [(some n, v)]) :
    lookup? n fields = some (.given v) := by
  unfold lookup?
  split
  · rename_i hnil
    cases hnil.symm.trans h
  · rename_i hone
    cases hone.symm.trans h
    rfl
  · rename_i hone
    exact absurd h (hone _ _)

theorem lookup?_eq_omitted {fields : List (Option String × Json)}
    (h : fields.filter (fun f => f.1 == some n) = []) : lookup? n fields = some .omitted := by
  unfold lookup?
  split
  · rfl
  · rename_i hone
    cases hone.symm.trans h
  · rename_i hnil _
    exact absurd h hnil

/-- What a record finds under a known name after an edit: the value, or nothing where the field may
be absent. -/
theorem Edited.lookup?_eq (h : Edited known absent fs gs) (hn : n ∈ known) {v : Json}
    (hfs : named n fs = [(n, v)]) :
    ∃ f, lookup? n (gs.map fun (key, value) => (some key, value)) = some f ∧
      (f = .given v ∨ absent n ∧ f = .omitted) := by
  have hfilter : (gs.map fun (key, value) => (some key, value)).filter
      (fun f => f.1 == some n) = (named n gs).map fun (key, value) => (some key, value) := by
    rw [List.filter_map, named]
    rfl
  rcases h.named_eq hn hfs with heq | ⟨habsent, heq⟩
  · rw [heq] at hfilter
    exact ⟨.given v, lookup?_eq_given hfilter, .inl rfl⟩
  · rw [heq] at hfilter
    exact ⟨.omitted, lookup?_eq_omitted hfilter, .inr ⟨habsent, rfl⟩⟩

theorem defaulted_eq_some {α : Type} {read : Json → Option α} {f : Field} {v : Json} {x value : α}
    {P : Prop} (hf : f = .given v ∨ P ∧ f = .omitted) (hread : read v = some x)
    (hdefault : P → x = value) : defaulted value read f = some x := by
  rcases hf with rfl | ⟨hP, rfl⟩
  · exact hread
  · rw [hdefault hP]
    rfl

/-! Halo rules. -/

/-- The printed fields of the halo of a configuration. -/
def ruleFields (rule? : Option WidthRule) : List (String × Json) :=
  [("side_mapping", orNull (fun r => .str r.tag) rule?)]

/-- Fields of a halo that differ from the printed ones by edits. -/
def EditedRule (rule? : Option WidthRule) : List (String × Json) → Prop :=
  Edited ["side_mapping"] (fun n => n = "side_mapping" ∧ rule? = none) (ruleFields rule?)

theorem optional_rule (rule? : Option WidthRule) (depth : Nat) :
    optional (choice WidthRule.all WidthRule.tag depth)
      (.given (orNull (fun r => .str r.tag) rule?)) = some rule? := by
  cases rule? with
  | none => rfl
  | some rule =>
    have hchoice : choice WidthRule.all WidthRule.tag depth (.str rule.tag) = some rule :=
      choice_tag (by cases rule <;> rfl) depth
    show (choice WidthRule.all WidthRule.tag depth (.str rule.tag)).map some = some (some rule)
    rw [hchoice]
    rfl

theorem decodeWidthRule_edited {rule? : Option WidthRule} {halo : List (String × Json)}
    (h : EditedRule rule? halo) (depth : Nat) :
    decodeWidthRule (depth + 1) (.obj halo) = some rule? := by
  obtain ⟨f, hlookup, hf⟩ := h.lookup?_eq List.mem_cons_self (named_cons_self _)
  have hrecord : record ["side_mapping"] (depth + 1) (.obj halo) = some (depth, [f]) := by
    simp [record_obj, hlookup]
  unfold decodeWidthRule
  rw [hrecord]
  rcases hf with rfl | ⟨⟨-, rfl⟩, rfl⟩
  · exact optional_rule rule? depth
  · rfl

theorem mapM_size (ns : List UInt64) : (ns.map fun n => Json.nat n.toNat).mapM size = some ns := by
  induction ns with
  | nil => rfl
  | cons n ns ih => rw [List.map_cons, List.mapM_cons, size_nat, ih]; rfl

/-! Configurations. -/

/-- The fields of a configuration. -/
def specsNames : List String :=
  ["name", "nt", "shape", "space_border", "forward", "time_order", "halo"]

/-- The printed fields of a configuration, with the given fields of its halo. -/
def specsFields (s : March.Specs) (halo : List (String × Json)) : List (String × Json) :=
  [("name", .str s.name), ("nt", .nat s.steps.toNat),
    ("shape", .array (s.shape.map fun n => .nat n.toNat)), ("space_border", .nat s.border.toNat),
    ("forward", .bool s.forward), ("time_order", .nat s.order.toNat), ("halo", .obj halo)]

/-- The fields that have their default. -/
def IsDefault (s : March.Specs) (n : String) : Prop :=
  n = "space_border" ∧ s.border = 0 ∨ n = "forward" ∧ s.forward = true ∨
    n = "time_order" ∧ s.order = 0 ∨ n = "halo" ∧ s.rule? = none

/-- Fields that differ from the printed ones by edits, those of the halo included. -/
def EditedSpecs (s : March.Specs) (fields : List (String × Json)) : Prop :=
  ∃ halo, EditedRule s.rule? halo ∧
    Edited specsNames (IsDefault s) (specsFields s halo) fields

theorem decodeSpecs_edited {s : March.Specs} {fields : List (String × Json)}
    (h : EditedSpecs s fields) (depth : Nat) : decodeSpecs (depth + 2) (.obj fields) = some s := by
  obtain ⟨halo, hhalo, hfields⟩ := h
  have hfind : ∀ n v, n ∈ specsNames → named n (specsFields s halo) = [(n, v)] →
      ∃ f, lookup? n (fields.map fun (key, value) => (some key, value)) = some f ∧
        (f = .given v ∨ IsDefault s n ∧ f = .omitted) := fun n v hn hv => hfields.lookup?_eq hn hv
  obtain ⟨name, hname, hnameGiven⟩ := hfind "name" _ (by decide) rfl
  obtain ⟨steps, hsteps, hstepsGiven⟩ := hfind "nt" _ (by decide) rfl
  obtain ⟨shape, hshape, hshapeGiven⟩ := hfind "shape" _ (by decide) rfl
  obtain ⟨border, hborder, hborderFound⟩ := hfind "space_border" _ (by decide) rfl
  obtain ⟨forward, hforward, hforwardFound⟩ := hfind "forward" _ (by decide) rfl
  obtain ⟨order, horder, horderFound⟩ := hfind "time_order" _ (by decide) rfl
  obtain ⟨rule, hrule, hruleFound⟩ := hfind "halo" _ (by decide) rfl
  have hrecord : record ["name", "nt", "shape", "space_border", "forward", "time_order", "halo"]
      (depth + 2) (.obj fields) =
      some (depth + 1, [name, steps, shape, border, forward, order, rule]) := by
    simp [record_obj, hname, hsteps, hshape, hborder, hforward, horder, hrule]
  -- the first three fields have no default
  obtain rfl : name = .given (.str s.name) := by simpa [IsDefault] using hnameGiven
  obtain rfl : steps = .given (.nat s.steps.toNat) := by simpa [IsDefault] using hstepsGiven
  obtain rfl : shape = .given (.array (s.shape.map fun n => .nat n.toNat)) := by
    simpa [IsDefault] using hshapeGiven
  have hborder : defaulted 0 size border = some s.border :=
    defaulted_eq_some hborderFound (size_nat _) (by simp [IsDefault])
  have hforward : defaulted true flag forward = some s.forward :=
    defaulted_eq_some hforwardFound rfl (by simp [IsDefault])
  have horder : defaulted 0 size order = some s.order :=
    defaulted_eq_some horderFound (size_nat _) (by simp [IsDefault])
  have hrule : defaulted none (decodeWidthRule (depth + 1)) rule = some s.rule? :=
    defaulted_eq_some hruleFound (decodeWidthRule_edited hhalo depth) (by simp [IsDefault])
  have hlist : list (fun _ => size) (depth + 1) (.array (s.shape.map fun n => .nat n.toNat)) =
      some s.shape := mapM_size s.shape
  unfold decodeSpecs
  rw [hrecord]
  dsimp only
  rw [required_given, required_given, required_given, text_str, size_nat, hlist, hborder, hforward,
    horder, hrule]
  rfl

end Wire

namespace March.Specs

open Wire

variable {s : Specs}

/-- A text of the fields of a configuration, edited or not, reads as the configuration. -/
theorem ofText_of_edited {fields : List (String × Json)} (h : EditedSpecs s fields) {text : String}
    (htext : Json.Text text.toList (.item (.obj fields))) : ofText text = .ok s := by
  have hparse : parse? (fun _ => decodeSpecs) text = some s := by
    rw [parse?, Json.read?_of_text htext, Option.bind_some]
    exact decodeSpecs_edited h 125
  rw [ofText, hparse]

theorem printable_specs (s : Specs) : (encodeSpecs s).Printable := by
  cases hrule : s.rule? <;> simp [encodeSpecs, encodeWidthRule, orNull, hrule]

/-- A configuration reads back from what it prints, and from every text of the printed fields after
edits: in any order at both levels, with any further fields, and without fields that have their
default. -/
theorem ofText_edited (s : Specs) :
    ofText s.toText = .ok s ∧
      Json.Text s.toText.toList (.item (.obj (specsFields s (ruleFields s.rule?)))) ∧
      ∀ fields, EditedSpecs s fields → ∀ text : String,
        Json.Text text.toList (.item (.obj fields)) → ofText text = .ok s := by
  have htext : Json.Text s.toText.toList (.item (.obj (specsFields s (ruleFields s.rule?)))) :=
    (Json.text_prettyAt (encodeSpecs s) 0 (printable_specs s)).bare
  have hprinted : EditedSpecs s (specsFields s (ruleFields s.rule?)) :=
    ⟨ruleFields s.rule?, .printed, .printed⟩
  exact ⟨ofText_of_edited hprinted htext, htext, fun _ h _ => ofText_of_edited h⟩

def adjoint : Specs := { name := "adjoint", steps := 10, shape := [8] }

/-- A number past the range of words. -/
def beyond : Json.Numeral := ⟨false, ['1'], [], some (false, ['4', '0', '0'])⟩

theorem wellFormed_beyond : beyond.WellFormed := by
  constructor
  · exact .inr (by simp [beyond])
  · simp [beyond]
  · simp [beyond]

/-- The fields of a configuration without those that have their default, behind others. -/
def adjointFields : List (String × Json) :=
  [("note", .array [.number beyond]), ("halo", .obj [("comment", .null)])] ++
    [("name", .str "adjoint"), ("nt", .nat 10), ("shape", .array [.nat 8])]

theorem edited_adjointFields : EditedSpecs adjoint adjointFields := by
  have hrule : EditedRule none ([] ++ []) := .removed .printed ⟨rfl, rfl⟩
  have hhalo : EditedRule none ([] ++ [("comment", .null)]) := .inserted _ hrule (by decide)
  refine ⟨_, hhalo, ?_⟩
  let front : List (String × Json) :=
    [("name", .str "adjoint"), ("nt", .nat 10), ("shape", .array [.nat 8])]
  let halo : String × Json := ("halo", .obj [("comment", .null)])
  let edited := Edited specsNames (IsDefault adjoint) (specsFields adjoint [("comment", .null)])
  have hborder : edited (front ++ [("forward", .bool true), ("time_order", .nat 0), halo]) :=
    .removed .printed (.inl ⟨rfl, rfl⟩)
  have hforward : edited (front ++ [("time_order", .nat 0), halo]) :=
    .removed hborder (.inr (.inl ⟨rfl, rfl⟩))
  have horder : edited (front ++ [halo]) := .removed hforward (.inr (.inr (.inl ⟨rfl, rfl⟩)))
  have hnote : edited (front ++ [("note", .array [.number beyond]), halo]) :=
    .inserted _ horder (by decide)
  exact .reordered hnote List.perm_append_comm

/-- A configuration in another order, with further fields at both levels. -/
theorem ofText_edited_adjoint :
    ofText ("\x7b\"note\":[1e400],\"halo\":\x7b\"comment\":null\x7d," ++
      "\"name\":\"adjoint\",\"nt\":10,\"shape\":[8]\x7d") = .ok adjoint := by
  have hprintable : (Json.obj adjointFields).Printable := by
    have hbeyond : (Json.number beyond).Printable := wellFormed_beyond
    simp [adjointFields, hbeyond]
  have htext := (Json.text_compact (.obj adjointFields) hprintable).bare
  exact (ofText_edited adjoint).2.2 _ edited_adjointFields _ htext

end March.Specs

end GridKernel
