import GridKernel.Proofs.Folding
import GridKernel.Proofs.KernelScopes
import GridKernel.Stmt.Listing

/-! Lines of listings. A statement is listed when the allocated extents in its views are words. Its
lines are then those of the statements inside it, each indented by the loops, branches and kernels
around its statement, and the lines of a body stand between braces. Lists leave no trace. -/
namespace GridKernel

/-- The line of an assignment. -/
def Equation.line (eqn : Equation) : String := s!"{eqn.lhs.text} = {eqn.rhs.text};"

namespace GridArray

/-- Every axis but the first has a width and an extent, and they add up to a word. -/
def Viewable (a : GridArray) : Prop :=
  ∀ axis, 0 < axis → axis < a.rank →
    axis < a.halo.length ∧ axis < a.shape.length ∧ ¬ a.ExtentOverflows axis

/-- An axis is allocated when it has entries that add up to a word, and only then. -/
theorem exists_allocated {a : GridArray} {axis : Nat} : (∃ e, a.allocated axis = .ok e) ↔
    axis < a.halo.length ∧ axis < a.shape.length ∧ ¬ a.ExtentOverflows axis := by
  constructor
  · rintro ⟨e, he⟩
    refine ⟨?_, ?_, fun hover => ?_⟩
    · obtain ⟨halo, hhalo, -⟩ := bind_eq_ok.1 he
      exact (List.getElem?_eq_some_iff.1 (entryAt_eq_ok.1 hhalo)).1
    · obtain ⟨halo, -, hsize⟩ := bind_eq_ok.1 he
      obtain ⟨size, hsize, -⟩ := bind_eq_ok.1 hsize
      exact (List.getElem?_eq_some_iff.1 (entryAt_eq_ok.1 hsize)).1
    · rw [allocated_overflows.2 hover] at he
      cases he
  · rintro ⟨hhalo, hshape, hover⟩
    have hsum := allocated_of_entries (List.getElem?_eq_getElem hhalo)
      (List.getElem?_eq_getElem hshape)
    cases h : a.allocated axis with
    | ok e => exact ⟨e, rfl⟩
    | error fault =>
      have hfault : fault = .overflow := by
        rw [hsum, bind_eq_error] at h
        rcases h with h | ⟨width, -, h⟩
        · rw [Word.addSize, Word.size] at h
          split at h <;> cases h
          rfl
        · exact ((@BinaryOp.build_overflowsIff .add _ _ fault).1 h).1
      rw [hfault] at h
      exact absurd (allocated_overflows.1 h) hover

/-- The text of a view, or nothing when its extents have none. -/
def viewLine (a : GridArray) : String := (a.viewText.toOption).getD ""

theorem viewable_iff {a : GridArray} : a.Viewable ↔ ∃ t, a.viewText = .ok t := by
  have haxes : (∃ es, ((List.range a.rank).drop 1).mapM a.allocated = .ok es) ↔ a.Viewable := by
    have hmem (axis : Nat) : axis ∈ (List.range a.rank).drop 1 ↔ 0 < axis ∧ axis < a.rank := by
      cases a.rank with
      | zero => simp
      | succ n =>
        rw [List.range_succ_eq_map, List.drop_one, List.tail_cons, List.mem_map]
        constructor
        · rintro ⟨k, hk, rfl⟩
          have hlt := List.mem_range.1 hk
          omega
        · rintro ⟨hpos, hlt⟩
          exact ⟨axis - 1, List.mem_range.2 (by omega), by omega⟩
    constructor
    · rintro ⟨es, hes⟩ axis hpos hlt
      obtain ⟨e, -, he⟩ := forall₂_mem_left (mapM_eq_ok.1 hes) ((hmem axis).2 ⟨hpos, hlt⟩)
      exact exists_allocated.1 ⟨e, he⟩
    · intro h
      obtain ⟨es, hes⟩ := exists_forall₂ fun axis haxis =>
        exists_allocated.2 (h axis ((hmem axis).1 haxis).1 ((hmem axis).1 haxis).2)
      exact ⟨es, mapM_eq_ok.2 hes⟩
  rw [← haxes]
  constructor
  · rintro ⟨es, hes⟩
    exact ⟨_, by rw [viewText, hes]; rfl⟩
  · rintro ⟨t, ht⟩
    obtain ⟨es, hes, -⟩ := bind_eq_ok.1 ht
    exact ⟨es, hes⟩

theorem viewText_eq_ok {a : GridArray} {t : String} :
    a.viewText = .ok t ↔ a.Viewable ∧ t = a.viewLine := by
  rw [viewable_iff, viewLine]
  cases h : a.viewText with
  | error e => simp
  | ok u => simp [Except.toOption, eq_comm]

/-- The text of a view: the element type, a pointer and the extents, twice. -/
theorem exists_viewText {a : GridArray} (h : a.Viewable) :
    ∃ es, ((List.range a.rank).drop 1).mapM a.allocated = .ok es ∧
      a.viewLine = a.element.keyword ++ (" (*restrict " ++ (a.name ++ ")" ++ Expr.subscripts es ++
        " = (" ++ a.element.keyword ++ " (*)" ++ Expr.subscripts es ++ ") " ++ a.name ++
        "_vec;")) := by
  obtain ⟨t, ht⟩ := viewable_iff.1 h
  rw [← (viewText_eq_ok.1 ht).2]
  obtain ⟨es, hes, ht⟩ := bind_eq_ok.1 ht
  obtain rfl := Except.ok.inj ht
  refine ⟨es, hes, ?_⟩
  simp only [← String.append_assoc]
  rfl

end GridArray

namespace Stmt

/-- The texts of the lines that a statement has itself, outside the statements inside it. -/
def ownTexts : Stmt → List String
  | assign target value => [Equation.line ⟨target, value⟩]
  | declare s => [s!"{s.element.keyword} {s.name};"]
  | view a => [a.viewLine]
  | block _ => []
  | loop h _ => [h.text, "\x7b", "\x7d"]
  | when c _ => [s!"if ({c.text})", "\x7b", "\x7d"]
  | ifElse c _ _ => [s!"if ({c.text})", "\x7b", "\x7d", "else", "\x7b", "\x7d"]
  | kernel s _ => [s.text, "\x7b", "\x7d"]

mutual

/-- The lines of a statement whose views have texts. -/
def layout (depth : Nat) : Stmt → List Line
  | block body => layoutAll depth body
  | loop h body => braced depth h.text (body.layout (depth + 1))
  | when c body => braced depth s!"if ({c.text})" (body.layout (depth + 1))
  | ifElse c t e => braced depth s!"if ({c.text})" (t.layout (depth + 1)) ++
      braced depth "else" (e.layout (depth + 1))
  | kernel s body => braced depth s.text (body.layout (depth + 1))
  | s => s.ownTexts.map (Line.mk depth)
termination_by structural s => s

def layoutAll (depth : Nat) : List Stmt → List Line
  | [] => []
  | s :: ss => s.layout depth ++ layoutAll depth ss
termination_by structural ss => ss

end

/-- Lines made from those of a part come with the condition for the part. -/
theorem map_lines_eq_ok {P : Prop} {r : Result (List Line)} {part ls : List Line}
    (f : List Line → List Line) (h : ∀ {ls}, r = .ok ls ↔ P ∧ ls = part) :
    (do return f (← r) : Result (List Line)) = .ok ls ↔ P ∧ ls = f part := by
  simp only [bind_eq_ok, h, pure_eq_ok]
  constructor
  · rintro ⟨_, ⟨hP, rfl⟩, heq⟩
    exact ⟨hP, (Except.ok.inj heq).symm⟩
  · rintro ⟨hP, rfl⟩
    exact ⟨part, ⟨hP, rfl⟩, rfl⟩

/-- Lines made from those of two parts come with both conditions. -/
theorem map_lines₂_eq_ok {P Q : Prop} {r r' : Result (List Line)} {part part' ls : List Line}
    (f : List Line → List Line → List Line) (h : ∀ {ls}, r = .ok ls ↔ P ∧ ls = part)
    (h' : ∀ {ls}, r' = .ok ls ↔ Q ∧ ls = part') :
    (do return f (← r) (← r') : Result (List Line)) = .ok ls ↔ (P ∧ Q) ∧ ls = f part part' := by
  rw [bind_eq_ok]
  simp only [h, map_lines_eq_ok (f _) h']
  constructor
  · rintro ⟨_, ⟨hP, rfl⟩, hQ, heq⟩
    exact ⟨⟨hP, hQ⟩, heq⟩
  · rintro ⟨⟨hP, hQ⟩, rfl⟩
    exact ⟨part, ⟨hP, rfl⟩, hQ, rfl⟩

mutual

/-- A statement is listed when its views are, and only then. -/
theorem lines_eq_ok : (s : Stmt) → ∀ {depth : Nat} {ls : List Line}, s.lines depth = .ok ls ↔
    (∀ a, .view a ∈ s.nodes → a.Viewable) ∧ ls = s.layout depth
  | .assign target value, depth, ls => by
    simp [lines, nodes, layout, ownTexts, Equation.line, eq_comm]
  | .declare t, depth, ls => by simp [lines, nodes, layout, ownTexts, eq_comm]
  | .view a, depth, ls => by
    have hnodes : (∀ b, .view b ∈ (view a).nodes → b.Viewable) ↔ a.Viewable := by simp [nodes]
    rw [hnodes, lines, bind_eq_ok]
    simp only [GridArray.viewText_eq_ok, pure_eq_ok, layout, ownTexts]
    constructor
    · rintro ⟨_, ⟨ha, rfl⟩, heq⟩
      exact ⟨ha, (Except.ok.inj heq).symm⟩
    · rintro ⟨ha, rfl⟩
      exact ⟨_, ⟨ha, rfl⟩, rfl⟩
  | .block ss, depth, ls => by simp [lines, nodes, layout, linesAll_eq_ok ss]
  | .loop head body, depth, ls => by
    rw [lines, map_lines_eq_ok (braced depth head.text) (lines_eq_ok body)]
    simp [nodes, layout]
  | .when c body, depth, ls => by
    rw [lines, map_lines_eq_ok (braced depth _) (lines_eq_ok body)]
    simp [nodes, layout]
  | .ifElse c t e, depth, ls => by
    rw [lines, map_lines₂_eq_ok (fun ts es => braced depth _ ts ++ braced depth "else" es)
      (lines_eq_ok t) (lines_eq_ok e)]
    simp [nodes, layout, or_imp, forall_and]
  | .kernel signature body, depth, ls => by
    rw [lines, map_lines_eq_ok (braced depth signature.text) (lines_eq_ok body)]
    simp [nodes, layout]
termination_by structural s => s

theorem linesAll_eq_ok : (ss : List Stmt) → ∀ {depth : Nat} {ls : List Line},
    linesAll depth ss = .ok ls ↔
      (∀ a, .view a ∈ nodesAll ss → a.Viewable) ∧ ls = layoutAll depth ss
  | [], depth, ls => by simp [linesAll, nodesAll, layoutAll, eq_comm]
  | s :: ss, depth, ls => by
    rw [linesAll, map_lines₂_eq_ok (· ++ ·) (lines_eq_ok s) (linesAll_eq_ok ss)]
    simp [nodesAll, layoutAll, or_imp, forall_and]
termination_by structural ss => ss

end

/-- Loops, branches and kernels indent the statements inside them. -/
def indents : Stmt → Bool
  | loop _ _ | when _ _ | ifElse _ _ _ | kernel _ _ => true
  | _ => false

/-- The number of loops, branches and kernels around a place. -/
def enclosing (s : Stmt) (place : List Nat) : Nat :=
  (List.range place.length).countP fun n => (s.at? (place.take n)).any indents

theorem enclosing_cons {s x : Stmt} {i : Nat} (h : s.children[i]? = some x) (place : List Nat) :
    s.enclosing (i :: place) = s.indents.toNat + x.enclosing place := by
  unfold enclosing
  rw [List.length_cons, List.range_succ_eq_map, List.countP_cons, List.countP_map,
    Nat.add_comm]
  congr 1
  · cases hindents : s.indents <;> simp [at?, hindents]
  · congr 1
    funext n
    simp [at?, h]

mutual

/-- A statement and all statements inside it, each with the loops, branches and kernels around it
counted. -/
def levels (depth : Nat) : Stmt → List (Nat × Stmt)
  | loop h body => (depth, loop h body) :: body.levels (depth + 1)
  | when c body => (depth, when c body) :: body.levels (depth + 1)
  | ifElse c t e => (depth, ifElse c t e) :: (t.levels (depth + 1) ++ e.levels (depth + 1))
  | block body => (depth, block body) :: levelsAll depth body
  | kernel s body => (depth, kernel s body) :: body.levels (depth + 1)
  | s => [(depth, s)]
termination_by structural s => s

def levelsAll (depth : Nat) : List Stmt → List (Nat × Stmt)
  | [] => []
  | s :: ss => s.levels depth ++ levelsAll depth ss
termination_by structural ss => ss

end

theorem levels_eq (depth : Nat) (s : Stmt) :
    s.levels depth = (depth, s) :: levelsAll (depth + s.indents.toNat) s.children := by
  cases s <;> simp [levels, levelsAll, children, indents]

theorem mem_levelsAll {depth : Nat} {ss : List Stmt} {p : Nat × Stmt} :
    p ∈ levelsAll depth ss ↔ ∃ s ∈ ss, p ∈ s.levels depth := by
  induction ss with
  | nil => simp [levelsAll]
  | cons s ss ih => simp [levelsAll, ih]

/-- The levels of a statement are the places in it. -/
theorem mem_levels_iff {s x : Stmt} {depth d : Nat} :
    (d, x) ∈ s.levels depth ↔ ∃ place, s.at? place = some x ∧ d = depth + s.enclosing place := by
  -- the recursion is on the size: a place goes through a list of children, not through a constructor
  rw [levels_eq, List.mem_cons, mem_levelsAll]
  constructor
  · rintro (h | ⟨y, hy, hx⟩)
    · obtain ⟨rfl, rfl⟩ := Prod.mk.inj h
      exact ⟨[], rfl, rfl⟩
    · have hlt := sizeOf_lt_of_mem_children hy
      obtain ⟨place, hplace, rfl⟩ := mem_levels_iff.1 hx
      obtain ⟨i, hi⟩ := List.getElem?_of_mem hy
      exact ⟨i :: place, by rw [at?, hi, Option.bind_some, hplace],
        by rw [enclosing_cons hi, Nat.add_assoc]⟩
  · rintro ⟨place, hplace, rfl⟩
    cases place with
    | nil =>
      obtain rfl := Option.some.inj hplace
      exact .inl rfl
    | cons i place =>
      obtain ⟨y, hy, hplace⟩ := Option.bind_eq_some_iff.1 hplace
      have hmem := List.mem_of_getElem? hy
      have hlt := sizeOf_lt_of_mem_children hmem
      refine .inr ⟨y, hmem, mem_levels_iff.2 ⟨place, hplace, ?_⟩⟩
      rw [enclosing_cons hy, Nat.add_assoc]
termination_by sizeOf s

mutual

theorem levels_nodes (depth : Nat) : (s : Stmt) → (s.levels depth).map Prod.snd = s.nodes
  | .loop h body => by simp [levels, nodes, levels_nodes _ body]
  | .when c body => by simp [levels, nodes, levels_nodes _ body]
  | .ifElse c t e => by simp [levels, nodes, levels_nodes _ t, levels_nodes _ e]
  | .block body => by simp [levels, nodes, levelsAll_nodes _ body]
  | .kernel s body => by simp [levels, nodes, levels_nodes _ body]
  | .assign _ _ | .declare _ | .view _ => rfl
termination_by structural s => s

theorem levelsAll_nodes (depth : Nat) :
    (ss : List Stmt) → (levelsAll depth ss).map Prod.snd = nodesAll ss
  | [] => rfl
  | s :: ss => by simp [levelsAll, nodesAll, levels_nodes _ s, levelsAll_nodes _ ss]
termination_by structural ss => ss

end

/-- The lines that a statement has itself at a depth. -/
def ownLines (p : Nat × Stmt) : List Line := p.2.ownTexts.map (Line.mk p.1)

/-- The lines of a head over a body are its own and those of the body. -/
theorem perm_braced (depth : Nat) (head : String) {body own : List Line} (h : body.Perm own) :
    (braced depth head body).Perm
      ([⟨depth, head⟩, ⟨depth, "\x7b"⟩, ⟨depth, "\x7d"⟩] ++ own) :=
  ((List.perm_append_singleton _ _).trans (h.cons _)).cons _ |>.cons _

mutual

/-- The lines of a statement are those of all statements inside it, each at its depth. -/
theorem perm_layout (depth : Nat) :
    (s : Stmt) → (s.layout depth).Perm ((s.levels depth).flatMap ownLines)
  | .loop h body => perm_braced depth h.text (perm_layout (depth + 1) body)
  | .when c body => perm_braced depth _ (perm_layout (depth + 1) body)
  | .ifElse c t e => by
    have hboth := (perm_braced depth s!"if ({c.text})" (perm_layout (depth + 1) t)).append
      (perm_braced depth "else" (perm_layout (depth + 1) e))
    refine hboth.trans ?_
    -- the own lines of the else part stand before the lines of the other branch in `levels`
    rw [levels, List.flatMap_cons, List.flatMap_append, List.append_assoc]
    exact (List.perm_append_comm_assoc _ _ _).append_left _
  | .block body => perm_layoutAll depth body
  | .kernel s body => perm_braced depth s.text (perm_layout (depth + 1) body)
  | .assign _ _ | .declare _ | .view _ => .refl _
termination_by structural s => s

theorem perm_layoutAll (depth : Nat) :
    (ss : List Stmt) → (layoutAll depth ss).Perm ((levelsAll depth ss).flatMap ownLines)
  | [] => .refl _
  | s :: ss => by
    rw [layoutAll, levelsAll, List.flatMap_append]
    exact (perm_layout depth s).append (perm_layoutAll depth ss)
termination_by structural ss => ss

end

/-- Lines at a depth with balanced braces: a brace closes the last one that is open, and stands at
its depth. -/
inductive Nested : Nat → List Line → Prop where
  | nil (depth : Nat) : Nested depth []
  | plain {depth : Nat} {text : String} {rest : List Line} (opens : text ≠ "\x7b")
    (closes : text ≠ "\x7d") (after : Nested depth rest) : Nested depth (⟨depth, text⟩ :: rest)
  | braces {depth : Nat} {body rest : List Line} (inside : Nested (depth + 1) body)
    (after : Nested depth rest) :
    Nested depth (⟨depth, "\x7b"⟩ :: (body ++ ⟨depth, "\x7d"⟩ :: rest))

theorem Nested.append {depth : Nat} {ls rest : List Line} (h : Nested depth ls)
    (hrest : Nested depth rest) : Nested depth (ls ++ rest) := by
  induction h with
  | nil => exact hrest
  | plain opens closes after ih => exact .plain opens closes (ih hrest)
  | braces inside after ihInside ihAfter =>
    rw [List.cons_append, List.append_assoc]
    exact .braces inside (ihAfter hrest)

theorem nested_braced {depth : Nat} {head : String} {body : List Line} (opens : head ≠ "\x7b")
    (closes : head ≠ "\x7d") (h : Nested (depth + 1) body) :
    Nested depth (braced depth head body) :=
  .plain opens closes (.braces h (.nil depth))

/-- The last character of a text. -/
def Ends (c : Char) (text : String) : Prop := text.toList.getLast? = some c

instance (c : Char) (text : String) : Decidable (Ends c text) := inferInstanceAs (Decidable (_ = _))

theorem Ends.append {c : Char} {rest : String} (h : Ends c rest) (text : String) :
    Ends c (text ++ rest) := by
  rw [Ends, String.toList_append, List.getLast?_append, h, Option.some_or]

/-- A text with a last character other than a brace is no brace. -/
theorem Ends.ne_brace {c : Char} {text : String} (h : Ends c text) (hopen : c ≠ '\x7b')
    (hclose : c ≠ '\x7d') : text ≠ "\x7b" ∧ text ≠ "\x7d" := by
  constructor
  · rintro rfl
    exact hopen (Option.some.inj h).symm
  · rintro rfl
    exact hclose (Option.some.inj h).symm

theorem ends_semicolon : Ends ';' ";" := rfl

theorem ends_parenthesis : Ends ')' ")" := rfl

theorem ends_line (eqn : Equation) : Ends ';' eqn.line := ends_semicolon.append _

theorem ends_declare (s : Scalar) : Ends ';' s!"{s.element.keyword} {s.name};" :=
  ends_semicolon.append _

theorem ends_view {a : GridArray} (h : a.Viewable) : Ends ';' a.viewLine := by
  obtain ⟨es, -, ht⟩ := GridArray.exists_viewText h
  have hvec : Ends ';' "_vec;" := rfl
  rw [ht]
  exact ((hvec.append _).append _).append _

theorem ends_loop (h : LoopHead) : Ends ')' h.text :=
  (ends_parenthesis.append _).append _

theorem ends_condition (c : Expr) : Ends ')' s!"if ({c.text})" := ends_parenthesis.append _

theorem ends_signature (s : Signature) : Ends ')' s.text := ends_parenthesis.append _

mutual

theorem nested_layout {depth : Nat} :
    (s : Stmt) → (∀ a, .view a ∈ s.nodes → a.Viewable) → Nested depth (s.layout depth)
  | .assign target value, _ => by
    obtain ⟨hopen, hclose⟩ := (ends_line ⟨target, value⟩).ne_brace (by decide) (by decide)
    exact .plain hopen hclose (.nil depth)
  | .declare t, _ => by
    obtain ⟨hopen, hclose⟩ := (ends_declare t).ne_brace (by decide) (by decide)
    exact .plain hopen hclose (.nil depth)
  | .view a, h => by
    have ha : a.Viewable := h a (by simp [nodes])
    obtain ⟨hopen, hclose⟩ := (ends_view ha).ne_brace (by decide) (by decide)
    exact .plain hopen hclose (.nil depth)
  | .block ss, h => nested_layoutAll ss fun a ha => h a (by simp [nodes, ha])
  | .loop head body, h => by
    obtain ⟨hopen, hclose⟩ := (ends_loop head).ne_brace (by decide) (by decide)
    exact nested_braced hopen hclose (nested_layout body fun a ha => h a (by simp [nodes, ha]))
  | .when c body, h => by
    obtain ⟨hopen, hclose⟩ := (ends_condition c).ne_brace (by decide) (by decide)
    exact nested_braced hopen hclose (nested_layout body fun a ha => h a (by simp [nodes, ha]))
  | .ifElse c t e, h => by
    obtain ⟨hopen, hclose⟩ := (ends_condition c).ne_brace (by decide) (by decide)
    exact (nested_braced hopen hclose
      (nested_layout t fun a ha => h a (by simp [nodes, ha]))).append
        (nested_braced (by decide) (by decide)
          (nested_layout e fun a ha => h a (by simp [nodes, ha])))
  | .kernel signature body, h => by
    obtain ⟨hopen, hclose⟩ := (ends_signature signature).ne_brace (by decide) (by decide)
    exact nested_braced hopen hclose (nested_layout body fun a ha => h a (by simp [nodes, ha]))
termination_by structural s => s

theorem nested_layoutAll {depth : Nat} : (ss : List Stmt) →
    (∀ a, .view a ∈ nodesAll ss → a.Viewable) → Nested depth (layoutAll depth ss)
  | [], _ => .nil depth
  | s :: ss, h =>
    (nested_layout s fun a ha => h a (by simp [nodesAll, ha])).append
      (nested_layoutAll ss fun a ha => h a (by simp [nodesAll, ha]))
termination_by structural ss => ss

end

section Picking
variable {q : String → Bool} {pick : Stmt → Option String}

/-- Of the own lines of a statement only the first is picked, if any. -/
def Picks (q : String → Bool) (pick : Stmt → Option String) (s : Stmt) : Prop :=
  s.ownTexts.filter q = (pick s).toList

theorem filter_braced (hbraces : q "\x7b" = false ∧ q "\x7d" = false) (depth : Nat) (head : String)
    (body : List Line) : ((braced depth head body).map Line.text).filter q =
      [head].filter q ++ (body.map Line.text).filter q := by
  simp only [braced, List.map_cons, List.map_append, List.map_nil, List.filter_cons,
    List.filter_append, hbraces.1, hbraces.2]
  cases q head <;> simp

theorem filter_braces (hbraces : q "\x7b" = false ∧ q "\x7d" = false) (head : String)
    (rest : List String) : (head :: "\x7b" :: "\x7d" :: rest).filter q =
      [head].filter q ++ rest.filter q := by
  simp only [List.filter_cons, hbraces.1, hbraces.2]
  cases q head <;> simp

theorem filterMap_cons_toList {α β : Type} (f : α → Option β) (x : α) (xs : List α) :
    (x :: xs).filterMap f = (f x).toList ++ xs.filterMap f := by
  cases h : f x <;> simp [h]

theorem filter_own {s : Stmt} (h : Picks q pick s) (depth : Nat) :
    ((s.ownTexts.map (Line.mk depth)).map Line.text).filter q = [s].filterMap pick := by
  have htexts : (s.ownTexts.map (Line.mk depth)).map Line.text = s.ownTexts := by
    simp [Function.comp_def]
  rw [htexts, h, filterMap_cons_toList, List.filterMap_nil, List.append_nil]

/-- A statement that is a head over a body. -/
theorem filter_headed (hbraces : q "\x7b" = false ∧ q "\x7d" = false) {s body : Stmt}
    {head : String} (depth : Nat) (hown : s.ownTexts = [head, "\x7b", "\x7d"]) (hpick : Picks q pick s)
    {ls : List Line} (hbody : (ls.map Line.text).filter q = body.nodes.filterMap pick) :
    ((braced depth head ls).map Line.text).filter q = (s :: body.nodes).filterMap pick := by
  rw [Picks, hown, filter_braces hbraces, List.filter_nil, List.append_nil] at hpick
  rw [filter_braced hbraces, hpick, hbody, filterMap_cons_toList]

mutual

/-- The picked lines of a statement are in the order of the statements that have them. -/
theorem filter_layout (hbraces : q "\x7b" = false ∧ q "\x7d" = false) (helse : q "else" = false)
    (depth : Nat) : (s : Stmt) → (∀ x ∈ s.nodes, Picks q pick x) →
      ((s.layout depth).map Line.text).filter q = s.nodes.filterMap pick
  | .assign target value, h => filter_own (h _ (List.mem_singleton_self _)) depth
  | .declare t, h => filter_own (h _ (List.mem_singleton_self _)) depth
  | .view a, h => filter_own (h _ (List.mem_singleton_self _)) depth
  | .block ss, h => by
    have hown : Picks q pick (.block ss) := h _ (by simp [nodes])
    have hnone : pick (.block ss) = none := by simpa [Picks, ownTexts] using hown.symm
    rw [layout, filter_layoutAll hbraces helse depth ss fun x hx => h x (by simp [nodes, hx]),
      nodes, List.filterMap_cons_none hnone]
  | .loop head body, h =>
    filter_headed hbraces depth rfl (h _ (List.mem_cons_self ..))
      (filter_layout hbraces helse _ body fun x hx => h x (List.mem_cons_of_mem _ hx))
  | .when c body, h =>
    filter_headed hbraces depth rfl (h _ (List.mem_cons_self ..))
      (filter_layout hbraces helse _ body fun x hx => h x (List.mem_cons_of_mem _ hx))
  | .ifElse c t e, h => by
    have hown : Picks q pick (.ifElse c t e) := h _ (by simp [nodes])
    rw [Picks, ownTexts, filter_braces hbraces, filter_braces hbraces] at hown
    have hthen := filter_layout hbraces helse (depth + 1) t fun x hx => h x (by simp [nodes, hx])
    have hother := filter_layout hbraces helse (depth + 1) e fun x hx => h x (by simp [nodes, hx])
    have hword : ["else"].filter q = [] := by simp [helse]
    rw [hword, List.filter_nil, List.append_nil, List.append_nil] at hown
    rw [layout, List.map_append, List.filter_append, filter_braced hbraces, filter_braced hbraces,
      hown, hword, hthen, hother, nodes, filterMap_cons_toList, List.filterMap_append,
      List.nil_append, List.append_assoc]
  | .kernel signature body, h =>
    filter_headed hbraces depth rfl (h _ (List.mem_cons_self ..))
      (filter_layout hbraces helse _ body fun x hx => h x (List.mem_cons_of_mem _ hx))
termination_by structural s => s

theorem filter_layoutAll (hbraces : q "\x7b" = false ∧ q "\x7d" = false) (helse : q "else" = false)
    (depth : Nat) : (ss : List Stmt) → (∀ x ∈ nodesAll ss, Picks q pick x) →
      ((layoutAll depth ss).map Line.text).filter q = (nodesAll ss).filterMap pick
  | [], _ => rfl
  | s :: ss, h => by
    rw [layoutAll, nodesAll, List.map_append, List.filter_append, List.filterMap_append,
      filter_layout hbraces helse depth s fun x hx => h x (by simp [nodesAll, hx]),
      filter_layoutAll hbraces helse depth ss fun x hx => h x (by simp [nodesAll, hx])]
termination_by structural ss => ss

end

end Picking

/-- Statements that differ in how their lists are nested, or in empty lists. -/
inductive Regroups : Stmt → Stmt → Prop where
  | refl (s : Stmt) : Regroups s s
  | symm {s t : Stmt} (h : Regroups s t) : Regroups t s
  | trans {s t u : Stmt} (h : Regroups s t) (h' : Regroups t u) : Regroups s u
  | wrap (s : Stmt) : Regroups s (.block [s])
  | flatten (before inner after : List Stmt) :
    Regroups (.block (before ++ .block inner :: after)) (.block (before ++ inner ++ after))
  | entry {s t : Stmt} (before after : List Stmt) (h : Regroups s t) :
    Regroups (.block (before ++ s :: after)) (.block (before ++ t :: after))
  | loop {s t : Stmt} (head : LoopHead) (h : Regroups s t) : Regroups (.loop head s) (.loop head t)
  | when {s t : Stmt} (c : Expr) (h : Regroups s t) : Regroups (.when c s) (.when c t)
  | ifElse {s t s' t' : Stmt} (c : Expr) (h : Regroups s t) (h' : Regroups s' t') :
    Regroups (.ifElse c s s') (.ifElse c t t')
  | kernel {s t : Stmt} (signature : Signature) (h : Regroups s t) :
    Regroups (.kernel signature s) (.kernel signature t)

theorem linesAll_append (depth : Nat) (ss ts : List Stmt) :
    linesAll depth (ss ++ ts) = do return (← linesAll depth ss) ++ (← linesAll depth ts) := by
  induction ss with
  | nil => exact (bind_pure _).symm
  | cons s ss ih => simp only [List.cons_append, linesAll, ih, bind_assoc, pure_bind,
      List.append_assoc]

/-- Nesting, flattening and inserting lists changes no line. -/
theorem Regroups.lines {s t : Stmt} (h : Regroups s t) (depth : Nat) :
    s.lines depth = t.lines depth := by
  induction h generalizing depth with
  | refl s => rfl
  | symm h ih => exact (ih depth).symm
  | trans h h' ih ih' => exact (ih depth).trans (ih' depth)
  | wrap s =>
    simp only [Stmt.lines, linesAll, ok_bind, List.append_nil]
    exact (bind_pure _).symm
  | flatten before inner after =>
    simp only [Stmt.lines, linesAll_append, linesAll, bind_assoc, pure_bind, List.append_assoc]
  | entry before after h ih => simp only [Stmt.lines, linesAll_append, linesAll, ih]
  | loop head h ih => rw [Stmt.lines, Stmt.lines, ih]
  | when c h ih => rw [Stmt.lines, Stmt.lines, ih]
  | ifElse c h h' ih ih' => rw [Stmt.lines, Stmt.lines, ih, ih']
  | kernel signature h ih => rw [Stmt.lines, Stmt.lines, ih]

end Stmt

end GridKernel
