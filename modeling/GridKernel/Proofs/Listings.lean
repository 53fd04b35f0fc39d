import GridKernel.Proofs.ListingTexts

/-! Reading listings. The text of a listing gives its lines back with their indentation, and the
lines of assignments and of loops can be told from all others. -/
namespace GridKernel

namespace Stmt

/-- The lines of a text whose lines line feeds end, each after the number of blanks in front. -/
def readLines (text : String) : List (Nat × String) :=
  (text.toList.splitOn '\n').dropLast.map fun cs =>
    ((cs.takeWhile (· == ' ')).length, String.ofList (cs.dropWhile (· == ' ')))

theorem splitOn_lines {ls : List (List Char)} (h : ∀ cs ∈ ls, '\n' ∉ cs) :
    (ls.flatMap (· ++ ['\n'])).splitOn '\n' = ls ++ [[]] := by
  induction ls with
  | nil => rfl
  | cons cs ls ih =>
    have hfirst : ∀ c ∈ cs, (c == '\n') = false := by
      intro c hc
      rw [beq_eq_false_iff_ne]
      rintro rfl
      exact h cs (by simp) hc
    rw [List.flatMap_cons, List.append_assoc, List.singleton_append, List.splitOn,
      List.splitOnP_append_cons_of_forall_mem hfirst _ (by rfl), ← List.splitOn,
      ih fun ds hds => h ds (by simp [hds]), List.cons_append]

theorem toList_render (l : Line) :
    l.render.toList = List.replicate (2 * l.depth) ' ' ++ l.text.toList ++ ['\n'] := by
  simp [Line.render]

/-- The indentation of a line is the blanks in front of a text that begins with none. -/
theorem read_indented {text : String} (h : Starts text) (n : Nat) :
    let cs := List.replicate n ' ' ++ text.toList
    ((cs.takeWhile (· == ' ')).length, String.ofList (cs.dropWhile (· == ' '))) = (n, text) := by
  obtain ⟨c, hc, hblank⟩ := h
  have htext := (List.cons_head?_tail hc).symm
  have hblanks : ∀ d ∈ List.replicate n ' ', (d == ' ') = true := by
    intro d hd
    rw [List.eq_of_mem_replicate hd]
    rfl
  have hstop : (c == ' ') = false := beq_eq_false_iff_ne.2 hblank
  have htake : text.toList.takeWhile (· == ' ') = [] := by
    rw [htext, List.takeWhile_cons, hstop]
    rfl
  have hdrop : text.toList.dropWhile (· == ' ') = text.toList := by
    rw [htext, List.dropWhile_cons, hstop]
    rfl
  simp only [List.takeWhile_append_of_pos hblanks, List.dropWhile_append_of_pos hblanks, htake,
    hdrop, List.append_nil, List.length_replicate, String.ofList_toList]

/-- Rendered lines are read with their indentation. -/
theorem readLines_render {ls : List Line} (h : ∀ l ∈ ls, Legible l.text) :
    readLines (String.join (ls.map Line.render)) = ls.map fun l => (2 * l.depth, l.text) := by
  have htext : (String.join (ls.map Line.render)).toList = (ls.map fun l =>
      List.replicate (2 * l.depth) ' ' ++ l.text.toList).flatMap (· ++ ['\n']) := by
    simp only [String.toList_join, List.flatMap_map, toList_render]
  have hlines : ∀ cs ∈ ls.map fun l => List.replicate (2 * l.depth) ' ' ++ l.text.toList,
      '\n' ∉ cs := by
    intro cs hcs
    obtain ⟨l, hl, rfl⟩ := List.mem_map.1 hcs
    have hline : '\n' ∉ l.text.toList := (h l hl).1
    simp [hline]
  rw [readLines, htext, splitOn_lines hlines, List.dropLast_concat, List.map_map]
  exact List.map_congr_left fun l hl => read_indented (h l hl).2 _

/-- A line that ends with a semicolon and has an equals sign, but no pointer. -/
def IsAssignment (text : String) : Prop :=
  Ends ';' text ∧ '=' ∈ text.toList ∧ ¬ ['(', '*'] <:+: text.toList

/-- A line that begins with the word for loops and ends with a parenthesis. -/
def IsLoop (text : String) : Prop := "for (".toList <+: text.toList ∧ Ends ')' text

instance : DecidablePred IsAssignment := fun _ => inferInstanceAs (Decidable (_ ∧ _ ∧ ¬ _))

instance : DecidablePred IsLoop := fun _ => inferInstanceAs (Decidable (_ ∧ _))

theorem isAssignment_line {eqn : Equation} (hl : eqn.lhs.Named) (hr : eqn.rhs.Named) :
    IsAssignment eqn.line := by
  refine ⟨ends_line eqn, ?_, fun hpointer => ?_⟩
  · show '=' ∈ (eqn.lhs.text ++ " = " ++ eqn.rhs.text ++ ";").toList
    simp
  · have hchain := List.IsChain.infix (Equation.tame_line hl hr).1.chain hpointer
    simp at hchain

/-- A line with another last character is no assignment. -/
theorem not_isAssignment_of_ends {c : Char} {text : String} (h : Ends c text) (hc : c ≠ ';') :
    ¬ IsAssignment text := fun hassign => hc (Option.some.inj (h.symm.trans hassign.1))

theorem not_isLoop_of_ends {c : Char} {text : String} (h : Ends c text) (hc : c ≠ ')') :
    ¬ IsLoop text := fun hloop => hc (Option.some.inj (h.symm.trans hloop.2))

/-- A declaration has no equals sign. -/
theorem not_isAssignment_declare {t : Scalar} (h : Identifier.isValid t.name) :
    ¬ IsAssignment s!"{t.element.keyword} {t.name};" := by
  rintro ⟨-, hequals, -⟩
  have hmem : '=' ∈ (t.element.keyword ++ " " ++ t.name ++ ";").toList := hequals
  simp only [String.toList_append, List.mem_append] at hmem
  rcases hmem with ((hmem | hmem) | hmem) | hmem
  · exact (atomic_keyword t.element).ne hmem (by decide) rfl
  · exact absurd hmem (by decide)
  · exact (Atomic.of_name h).ne hmem (by decide) rfl
  · exact absurd hmem (by decide)

/-- A view has a pointer. -/
theorem not_isAssignment_view {a : GridArray} (ha : a.Viewable) : ¬ IsAssignment a.viewLine := by
  obtain ⟨es, -, htext⟩ := GridArray.exists_viewText ha
  rintro ⟨-, -, hpointer⟩
  apply hpointer
  rw [htext, String.toList_append, String.toList_append]
  have hinside : ['(', '*'] <:+: " (*restrict ".toList := by decide
  exact (hinside.trans (List.prefix_append _ _).isInfix).trans (List.suffix_append _ _).isInfix

theorem isLoop_head (h : LoopHead) : IsLoop h.text := by
  have hword : "for (".toList <+: "for (int ".toList := by decide
  refine ⟨?_, ends_loop h⟩
  simp only [LoopHead.text_eq, String.toList_append, List.append_assoc]
  exact hword.trans (List.prefix_append _ _)

theorem not_isLoop_condition (c : Expr) : ¬ IsLoop s!"if ({c.text})" := by
  rintro ⟨⟨rest, hrest⟩, -⟩
  have hfirst : ("for (".toList ++ rest).head? = ("if (" ++ c.text ++ ")").toList.head? :=
    congrArg List.head? hrest
  simp at hfirst

theorem not_isLoop_signature (s : Signature) : ¬ IsLoop s.text := by
  rintro ⟨⟨rest, hrest⟩, -⟩
  obtain ⟨word, hword, after, htext⟩ := s.exists_word
  rw [htext] at hrest
  simp only [List.mem_cons, List.not_mem_nil, or_false] at hword
  -- a blank ends the word, and `float` is the only one that begins as `for` does
  rcases hword with rfl | rfl | rfl | rfl | rfl | rfl <;> simp at hrest

/-- The lines that can be told to be assignments are those of assignments. -/
theorem picks_assignment {s : Stmt} (hs : s.OwnNamed) (hview : ∀ a, s = .view a → a.Viewable) :
    Picks (fun t => decide (IsAssignment t)) (fun x => x.assignment?.map Equation.line) s := by
  have hopen : ¬ IsAssignment "\x7b" := by decide
  have hclose : ¬ IsAssignment "\x7d" := by decide
  have helse : ¬ IsAssignment "else" := by decide
  cases s with
  | assign target value =>
    have hline : IsAssignment (Equation.line ⟨target, value⟩) :=
      isAssignment_line (hs.exprs _ (by simp [shown, exprs])) (hs.exprs _ (by simp [shown, exprs]))
    simp [Picks, ownTexts, hline, assignment?]
  | declare t =>
    have hline := not_isAssignment_declare (hs.names t.name (by simp [ownNames]))
    simpa [Picks, ownTexts, assignment?] using hline
  | view a => simpa [Picks, ownTexts, assignment?] using not_isAssignment_view (hview a rfl)
  | block ss => rfl
  | loop h body =>
    have hhead := not_isAssignment_of_ends (ends_loop h) (by decide)
    simpa [Picks, ownTexts, assignment?, hopen, hclose] using hhead
  | when c body =>
    have hhead := not_isAssignment_of_ends (ends_condition c) (by decide)
    simpa [Picks, ownTexts, assignment?, hopen, hclose] using hhead
  | ifElse c t e =>
    have hhead := not_isAssignment_of_ends (ends_condition c) (by decide)
    simpa [Picks, ownTexts, assignment?, hopen, hclose, helse] using hhead
  | kernel signature body =>
    have hhead := not_isAssignment_of_ends (ends_signature signature) (by decide)
    simpa [Picks, ownTexts, assignment?, hopen, hclose] using hhead

/-- The lines that can be told to be heads of loops are those of loops. -/
theorem picks_loop {s : Stmt} (hview : ∀ a, s = .view a → a.Viewable) :
    Picks (fun t => decide (IsLoop t)) (fun x => x.loop?.map LoopHead.text) s := by
  have hopen : ¬ IsLoop "\x7b" := by decide
  have hclose : ¬ IsLoop "\x7d" := by decide
  have helse : ¬ IsLoop "else" := by decide
  cases s with
  | assign target value =>
    have hline := not_isLoop_of_ends (ends_line ⟨target, value⟩) (by decide)
    simpa [Picks, ownTexts, loop?] using hline
  | declare t =>
    have hline := not_isLoop_of_ends (ends_declare t) (by decide)
    simpa [Picks, ownTexts, loop?] using hline
  | view a =>
    have hline := not_isLoop_of_ends (ends_view (hview a rfl)) (by decide)
    simpa [Picks, ownTexts, loop?] using hline
  | block ss => rfl
  | loop h body => simp [Picks, ownTexts, loop?, hopen, hclose, isLoop_head h]
  | when c body => simpa [Picks, ownTexts, loop?, hopen, hclose] using not_isLoop_condition c
  | ifElse c t e =>
    simpa [Picks, ownTexts, loop?, hopen, hclose, helse] using not_isLoop_condition c
  | kernel signature body =>
    simpa [Picks, ownTexts, loop?, hopen, hclose] using not_isLoop_signature signature

theorem nodesAll_append (ss ts : List Stmt) : nodesAll (ss ++ ts) = nodesAll ss ++ nodesAll ts := by
  induction ss with
  | nil => rfl
  | cons s ss ih => rw [List.cons_append, nodesAll, nodesAll, ih, List.append_assoc]

/-- The one on top of a stack, then everything inside it. -/
theorem nodesAll_stack (s : Stmt) (stack : List Stmt) :
    nodesAll (s :: stack) = s :: nodesAll (s.children ++ stack) := by
  rw [nodesAll, nodes_eq, List.cons_append, nodesAll_append]

/-- The statements that a stack visits: the one on top makes room for its children, the first of
them on top. -/
def visits : List Stmt → List Stmt
  | [] => []
  | s :: stack => s :: visits (s.children ++ stack)
termination_by stack => (nodesAll stack).length
decreasing_by
  rw [nodesAll_stack, List.length_cons]
  exact Nat.lt_succ_self _

theorem visits_eq (stack : List Stmt) : visits stack = nodesAll stack := by
  fun_induction visits stack with
  | case1 => rfl
  | case2 s stack ih => rw [ih, nodesAll_stack]

/-- A stack visits the statements in program order. -/
theorem visits_nodes (s : Stmt) : visits [s] = s.nodes := by
  rw [visits_eq, nodesAll, nodesAll, List.append_nil]

/-- Lines that show a statement. -/
structure Shows (s : Stmt) (ls : List Line) : Prop where
  /-- They are the own lines of all statements inside it, at their levels. -/
  own : ls.Perm ((s.levels 0).flatMap ownLines)
  leveled : (s.levels 0).map Prod.snd = s.nodes
  /-- Loops, branches and kernels around a statement indent its lines. -/
  indented : ∀ l ∈ ls, ∃ place x, s.at? place = some x ∧ l.text ∈ x.ownTexts ∧
    l.depth = s.enclosing place
  nested : Nested 0 ls
  assignments : (ls.map Line.text).filter (IsAssignment ·) = s.assignments.map Equation.line
  loops : (ls.map Line.text).filter (IsLoop ·) = s.loops.map LoopHead.text

theorem listing_eq_ok {s : Stmt} {text : String} : s.listing = .ok text ↔
    (∀ a, .view a ∈ s.nodes → a.Viewable) ∧
      text = String.join ((s.layout 0).map Line.render) := by
  rw [listing, bind_eq_ok]
  simp only [lines_eq_ok]
  constructor
  · rintro ⟨_, ⟨hviews, rfl⟩, htext⟩
    exact ⟨hviews, (Except.ok.inj htext).symm⟩
  · rintro ⟨hviews, rfl⟩
    exact ⟨_, ⟨hviews, rfl⟩, rfl⟩

/-- A line is of a statement at some place, and indented by what is around it. -/
theorem mem_layout {s : Stmt} {l : Line} (hl : l ∈ s.layout 0) :
    ∃ place x, s.at? place = some x ∧ l.text ∈ x.ownTexts ∧ l.depth = s.enclosing place := by
  obtain ⟨⟨d, x⟩, hx, hl⟩ := List.mem_flatMap.1 ((perm_layout 0 s).mem_iff.1 hl)
  obtain ⟨t, ht, rfl⟩ := List.mem_map.1 hl
  obtain ⟨place, hplace, rfl⟩ := mem_levels_iff.1 hx
  exact ⟨place, x, hplace, ht, Nat.zero_add _⟩

section Layout
variable {s : Stmt} (hs : s.Named) (hviews : ∀ a, .view a ∈ s.nodes → a.Viewable)
include hviews

theorem viewable_of_mem {x : Stmt} (hx : x ∈ s.nodes) : ∀ a, x = .view a → a.Viewable := by
  rintro a rfl
  exact hviews a hx

include hs

theorem legible_layout : ∀ l ∈ s.layout 0, Legible l.text := by
  intro l hl
  obtain ⟨place, x, hplace, ht, -⟩ := mem_layout hl
  have hmem : x ∈ s.nodes := mem_nodes_iff_at?.2 ⟨place, hplace⟩
  exact (hs x hmem).legible (viewable_of_mem hviews hmem) _ ht

theorem shows_layout : s.Shows (s.layout 0) where
  own := perm_layout 0 s
  leveled := levels_nodes 0 s
  indented := fun _ => mem_layout
  nested := nested_layout s hviews
  assignments := by
    have hpicks : ∀ x ∈ s.nodes,
        Picks (IsAssignment ·) (fun x => x.assignment?.map Equation.line) x :=
      fun x hx => picks_assignment (hs x hx) (viewable_of_mem hviews hx)
    rw [filter_layout (by decide) (by decide) 0 s hpicks, Stmt.assignments, List.map_filterMap]
  loops := by
    have hpicks : ∀ x ∈ s.nodes, Picks (IsLoop ·) (fun x => x.loop?.map LoopHead.text) x :=
      fun x hx => picks_loop (viewable_of_mem hviews hx)
    rw [filter_layout (by decide) (by decide) 0 s hpicks, Stmt.loops, List.map_filterMap]

end Layout

/-- A statement in which all names are identifiers is listed exactly when the allocated extents of
its views past the first are words. The text is then read as lines that show the statement. Its
assignments and loops are in the order in which a stack visits them, and how its lists are nested
makes no difference. -/
theorem listing_shows {s : Stmt} (hs : s.Named) :
    ((∃ text, s.listing = .ok text) ↔ ∀ a, .view a ∈ s.nodes → a.Viewable) ∧
      (∀ text, s.listing = .ok text → ∃ ls : List Line,
        text = String.join (ls.map Line.render) ∧
        readLines text = ls.map (fun l => (2 * l.depth, l.text)) ∧ s.Shows ls) ∧
      (s.assignments = (visits [s]).filterMap assignment? ∧
        s.loops = (visits [s]).filterMap loop?) ∧
      ∀ t, Regroups s t → t.listing = s.listing := by
  refine ⟨⟨?_, ?_⟩, ?_, ⟨?_, ?_⟩, ?_⟩
  · rintro ⟨text, htext⟩
    exact (listing_eq_ok.1 htext).1
  · intro hviews
    exact ⟨_, listing_eq_ok.2 ⟨hviews, rfl⟩⟩
  · intro text htext
    obtain ⟨hviews, rfl⟩ := listing_eq_ok.1 htext
    exact ⟨s.layout 0, rfl, readLines_render (legible_layout hs hviews), shows_layout hs hviews⟩
  · rw [visits_nodes, Stmt.assignments]
  · rw [visits_nodes, Stmt.loops]
  · intro t h
    rw [listing, listing, h.lines]

/-- A field with a halo along its second axis. -/
def haloed : GridArray :=
  ⟨"f", .float64, [⟨"y", .spatial⟩, ⟨"x", .spatial⟩], [.int 4, .int 6], [.none, ⟨1, 1⟩], .external⟩

/-- No word counts the cells of the longest row together with its halo. -/
example : (view { haloed with shape := [.int 4, .int Int64.maxValue] }).listing =
    .error .overflow := rfl

/-- A kernel that raises the first row of a field to a floor, and copies what is above it. -/
def flooring : Stmt :=
  let x : Dimension := ⟨"x", .spatial⟩
  let floor : Scalar := ⟨"low", .float64⟩
  let cell (row : Int64) : Expr := .access haloed [.int row, .dim x]
  kernel ⟨"raise", none, [.array haloed, .scalar floor], [.static]⟩ (block
    [view haloed, block [], loop ⟨x, .upTo (.int 6), [], .parallel⟩
      (ifElse (.binary .lt (cell 0) (.scalar floor))
        (block [block [assign (cell 0) (.scalar floor)]])
        (assign (cell 1) (cell 0)))])

/-- Both branches are listed inside one loop, with or without an empty list behind the kernel. -/
theorem listing_shows_flooring :
    flooring.Named ∧ (∃ text, flooring.listing = .ok text ∧
      ((readLines text).map Prod.snd).filter (IsAssignment ·) =
        ["f[0][x] = low;", "f[1][x] = f[0][x];"] ∧
      ((readLines text).map Prod.snd).filter (IsLoop ·) = ["for (int x = 0; x < 6; x += 1)"]) ∧
    (block [flooring, block []]).listing = flooring.listing := by
  have hnamed : flooring.Named := by decide
  obtain ⟨hlisted, hshows, -, hregroups⟩ := listing_shows hnamed
  have hviews : ∀ a, .view a ∈ flooring.nodes → a.Viewable := by
    intro a ha
    have hview : a = haloed := by simpa [flooring, nodes, nodesAll] using ha
    subst hview
    exact GridArray.viewable_iff.2 ⟨_, rfl⟩
  obtain ⟨text, htext⟩ := hlisted.2 hviews
  obtain ⟨ls, -, hread, hshown⟩ := hshows text htext
  have htexts : (readLines text).map Prod.snd = ls.map Line.text := by
    rw [hread, List.map_map]
    rfl
  refine ⟨hnamed, ⟨text, htext, ?_, ?_⟩, hregroups _ ?_⟩
  · rw [htexts, hshown.assignments]
    rfl
  · rw [htexts, hshown.loops]
    rfl
  · exact (Regroups.wrap flooring).trans (.symm (.flatten [flooring] [] []))

end Stmt

end GridKernel
