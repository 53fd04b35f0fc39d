import GridKernel.Proofs.Gather
import GridKernel.Proofs.Occurrences

/-! Signatures of gathers. A gather is refused only for what its pins bring in: a name that no axis
has, an untyped name, or a name of two entities. Its parameters are the array and its destination,
the other arrays of the pinned indices, and the scalars of the first source indices. -/
namespace GridKernel

namespace Expr

/-- The uses in an expression around which nothing is declared. -/
def uses (e : Expr) : List Use := e.nodes.filterMap (Use.ofExpr? [])

/-- The arrays from outside and the scalars in an expression, an array before its indices. -/
def externals (e : Expr) : List Parameter := e.uses.filterMap Use.entity?

variable {e : Expr}

theorem entity_mem_uses_iff {p : Parameter} : .entity p ∈ e.uses ↔ p ∈ e.externals := by
  constructor
  · exact fun h => List.mem_filterMap.2 ⟨_, h, rfl⟩
  · intro h
    obtain ⟨u, hu, hp⟩ := List.mem_filterMap.1 h
    cases u with
    | entity q =>
      obtain rfl := Option.some.inj hp
      exact hu
    | unknown n => cases hp

theorem symbol_mem_nodes_iff {n : String} : .symbol n ∈ e.nodes ↔ .unknown n ∈ e.uses := by
  constructor
  · exact fun h => List.mem_filterMap.2 ⟨_, h, rfl⟩
  · intro h
    obtain ⟨x, hx, hu⟩ := List.mem_filterMap.1 h
    cases x with
    | symbol s =>
      obtain rfl := Use.unknown.inj (Option.some.inj hu)
      exact hx
    | access a es =>
      cases hscope : a.scope <;> simp [Use.ofExpr?, Use.ofArray?, hscope] at hu
    | scalar t => simp [Use.ofExpr?] at hu
    | _ => cases hu

/-- An entity of an expression is among its names. -/
theorem name_mem_names {p : Parameter} (h : p ∈ e.externals) : p.name ∈ e.names := by
  obtain ⟨x, hx, hu⟩ := List.mem_filterMap.1 (entity_mem_uses_iff.2 h)
  refine List.mem_filterMap.2 ⟨x, hx, ?_⟩
  cases x with
  | access a es =>
    cases hscope : a.scope with
    | external =>
      simp only [Use.ofExpr?, Use.ofArray?, hscope, Option.some.injEq, Use.entity.injEq] at hu
      rw [← hu]
      rfl
    | internal => simp [Use.ofExpr?, Use.ofArray?, hscope] at hu
  | scalar t =>
    simp only [Use.ofExpr?, List.not_mem_nil, if_false, Option.some.injEq, Use.entity.injEq] at hu
    rw [← hu]
    rfl
  | _ => cases hu

end Expr

namespace Stmt

variable {s : Stmt}

theorem occurrences_nest {heads : List LoopHead}
    (h : ∀ head ∈ heads, ∀ body, (loop head body).occurrences = body.occurrences) :
    (s.nest heads).occurrences = s.occurrences := by
  induction heads generalizing s with
  | nil => rfl
  | cons head heads ih =>
    have hnest : s.nest (head :: heads) = (loop head s).nest heads := rfl
    rw [hnest, ih fun inner hinner => h inner (by simp [hinner]), h head (by simp)]

theorem loops_nest (heads : List LoopHead) : (s.nest heads).loops = heads.reverse ++ s.loops := by
  induction heads generalizing s with
  | nil => rfl
  | cons head heads ih =>
    have hnest : s.nest (head :: heads) = (loop head s).nest heads := rfl
    rw [hnest, ih, loops_loop, List.reverse_cons, List.append_assoc, List.singleton_append]

theorem parameters_found_iff : (∃ ps, s.parameters = .ok ps) ↔ Consistent s.uses := by
  rw [← foldlM_addUse_eq_ok_iff]
  constructor
  · rintro ⟨ps, h⟩
    obtain ⟨met, hmet, -⟩ := bind_eq_ok.1 h
    exact ⟨met, hmet⟩
  · rintro ⟨met, hmet⟩
    exact ⟨_, bind_eq_ok.2 ⟨met, hmet, rfl⟩⟩

/-- The parameters are the arrays and then the scalars of the uses, each at its first use. -/
theorem eq_of_parameters {ps : List Parameter} (h : s.parameters = .ok ps) :
    ps = ((s.uses.filterMap Use.entity?).filter Parameter.isArray).eraseDupsBy Parameter.same ++
      ((s.uses.filterMap Use.entity?).filter (!·.isArray)).eraseDupsBy Parameter.same := by
  have hsame : ∀ p q : Parameter, p.same q → p.isArray = q.isArray := fun p q h =>
    (Parameter.eq_of_same h).2
  obtain ⟨met, hmet, h⟩ := bind_eq_ok.1 h
  obtain rfl := Except.ok.inj h
  have hall := eq_of_foldlM_addUse hmet
  simp only [Parameter.isNew_nil, List.filter_true, List.nil_append] at hall
  rw [hall, filter_eraseDupsBy hsame, filter_eraseDupsBy fun p q h => by rw [hsame p q h]]

end Stmt

/-- The class that pins give an axis. -/
def Pins.classOf (pins : Pins) (d : Dimension) : AxisClass :=
  ((pins.find? d.name).map AxisClass.pinned).getD .free

/-- Some name is pinned to an index. -/
def Pins.Holds (pins : Pins) (index : Expr) : Prop := ∃ n, pins.find? n = some index

namespace Pins

variable {pins : Pins} {dims : List Dimension} {index : Expr}

theorem key_of_find? {n : String} (h : pins.find? n = some index) : n ∈ pins.map Prod.fst := by
  induction pins with
  | nil => cases h
  | cons p pins ih =>
    rw [find?] at h
    rcases Option.or_eq_some_iff.1 h with h | ⟨-, h⟩
    · exact List.mem_cons_of_mem _ (ih h)
    · split at h
      · rename_i hkey
        rw [List.map_cons, hkey]
        exact List.mem_cons_self
      · cases h

/-- Pinned axes have the indices of the pins, where every pin is of an axis. -/
theorem holds_iff (h : ∀ key ∈ pins.map Prod.fst, key ∈ dims.map Dimension.name) :
    pins.Holds index ↔ .pinned index ∈ dims.map pins.classOf := by
  have hclass : ∀ d, pins.classOf d = .pinned index ↔ pins.find? d.name = some index := by
    intro d
    unfold classOf
    cases pins.find? d.name <;> simp
  simp only [List.mem_map, hclass]
  constructor
  · rintro ⟨n, hn⟩
    obtain ⟨d, hd, rfl⟩ := List.mem_map.1 (h n (key_of_find? hn))
    exact ⟨d, hd, hn⟩
  · rintro ⟨d, -, hd⟩
    exact ⟨d.name, hd⟩

theorem leastName_eq_none {ns : List String} : leastName ns = none ↔ ns = [] := by
  cases ns with
  | nil => simp [leastName]
  | cons n ns => cases h : leastName ns <;> simp [leastName, h]

theorem unknownName?_eq_none_iff {names : List String} :
    unknownName? dims names = none ↔ ∀ n ∈ names, n ∈ dims.map Dimension.name := by
  rw [unknownName?, leastName_eq_none, List.filter_eq_nil_iff]
  simp

/-- Axes are split when every pin is of one of them. -/
theorem splitAxes_eq_ok_iff {classes : List AxisClass} : splitAxes dims pins = .ok classes ↔
    (∀ key ∈ pins.map Prod.fst, key ∈ dims.map Dimension.name) ∧
      classes = dims.map pins.classOf := by
  rw [← unknownName?_eq_none_iff, splitAxes]
  cases unknownName? dims (pins.map Prod.fst) with
  | none =>
    rw [Except.ok.injEq]
    exact ⟨fun h => ⟨rfl, h.symm⟩, fun h => h.2.symm⟩
  | some n => simp [refuse]

end Pins

namespace Region

variable {a : GridArray} {pins : Pins} {classes : List AxisClass} {name : String}
  {axes : List Axis}

theorem occurrences_targetIndex (x : Axis) : x.targetIndex.occurrences = [] := by
  unfold Axis.targetIndex
  split <;> rfl

theorem occurrences_sourceIndex (x : Axis) :
    x.sourceIndex.occurrences = x.origin.occurrences := by
  unfold Axis.sourceIndex
  split <;> rfl

theorem occurrencesAll_eq_flatMap (es : List Expr) :
    Expr.occurrencesAll es = es.flatMap Expr.occurrences := by
  induction es with
  | nil => rfl
  | cons e es ih => rw [Expr.occurrencesAll, List.flatMap_cons, ih]

/-- A gather uses both arrays, each again at the copied cell, and then what the first source indices
use. -/
theorem uses_statements (h : Planned a classes name axes) (ha : a.scope = .external) :
    (statements a (destination a name axes) axes).uses =
      [.entity (.array a), .entity (.array (destination a name axes)),
        .entity (.array (destination a name axes)), .entity (.array a)] ++
        axes.flatMap fun x => x.origin.uses := by
  have hheads : ∀ head ∈ axes.reverse.filterMap Axis.loop?, ∀ body,
      (Stmt.loop head body).occurrences = body.occurrences := by
    intro head hhead body
    obtain ⟨x, hx, hloop⟩ := List.mem_filterMap.1 hhead
    obtain ⟨d, -, c, -, hlaid⟩ := h.laidOut_of_mem (List.mem_reverse.1 hx)
    obtain rfl := Axis.loop?_eq_some hloop
    cases hlaid <;> rfl
  have horigins : (axes.flatMap fun x => x.origin.occurrences).filter (Use.isExternal []) =
      axes.flatMap fun x => x.origin.uses := by
    rw [List.filter_flatMap]
    exact congrArg (axes.flatMap ·) (funext fun x => (x.origin.uses_eq []).symm)
  have hsource : Use.isExternal [] (.entity (.array a)) = true := by simp [Use.isExternal, ha]
  have htarget : Use.isExternal [] (.entity (.array (destination a name axes))) = true := by
    simp [Use.isExternal, destination]
  rw [Stmt.uses_eq_stream, Stmt.stream, declaredNames_statements, ← horigins]
  simp only [statements, Stmt.occurrences, Stmt.occurrencesAll, Stmt.occurrences_nest hheads,
    Expr.occurrences, occurrencesAll_eq_flatMap, List.flatMap_map, occurrences_targetIndex,
    occurrences_sourceIndex, List.flatMap_eq_nil_iff.2 fun _ _ => rfl]
  simp [hsource, htarget]

/-- The entities under the names that a gather draws. -/
inductive Drawn (a : GridArray) (name : String) (axes : List Axis) : Parameter → Prop where
  | target : Drawn a name axes (.array (destination a name axes))
  | offset {o : String} (h : o ∈ axes.flatMap Axis.names) : Drawn a name axes (.scalar ⟨o, .int32⟩)

namespace Drawn

variable {p q : Parameter}

theorem fresh (hp : Drawn a name axes p) (h : Planned a classes name axes) :
    p.name ∉ a.namesInUse classes := by
  cases hp with
  | target => exact h.fresh name (by simp)
  | offset ho => exact h.fresh _ (List.mem_cons_of_mem _ ho)

theorem same (hp : Drawn a name axes p) (hq : Drawn a name axes q) (h : Planned a classes name axes)
    (hname : p.name = q.name) : p.same q := by
  have hapart := (List.nodup_cons.1 h.nodup).1
  cases hp with
  | target =>
    cases hq with
    | target => exact Parameter.same_self _
    | offset ho =>
      obtain rfl : name = _ := hname
      exact absurd ho hapart
  | offset ho =>
    cases hq with
    | target =>
      obtain rfl : _ = name := hname
      exact absurd ho hapart
    | offset ho' =>
      obtain rfl : _ = _ := hname
      exact Parameter.same_self _

end Drawn

/-- The source of a gather, or an entity of a pinned index. -/
def Involves (a : GridArray) (pins : Pins) (p : Parameter) : Prop :=
  p = .array a ∨ ∃ index, pins.Holds index ∧ p ∈ index.externals

/-- What a first source index uses is used in a pinned index, or is the offset of a free axis. -/
theorem Planned.origin_cases (h : Planned a classes name axes) {x : Axis} (hx : x ∈ axes) {u : Use}
    (hu : u ∈ x.origin.uses) : (∃ e, .pinned e ∈ classes ∧ u ∈ e.uses) ∨
      ∃ o ∈ axes.flatMap Axis.names, u = .entity (.scalar ⟨o, .int32⟩) := by
  obtain ⟨d, -, c, hc, hlaid⟩ := h.laidOut_of_mem hx
  cases hlaid with
  | pinned n e => exact .inl ⟨e, hc, hu⟩
  | free n o =>
    refine .inr ⟨o, List.mem_flatMap.2 ⟨_, hx, ?_⟩, List.mem_singleton.1 hu⟩
    simp [Axis.names, Expr.names, Expr.nodes, Expr.name?]

/-- Every pinned index is the first source index of an axis. -/
theorem Planned.exists_origin (h : Planned a classes name axes)
    (hlength : a.dims.length = classes.length) {e : Expr} (he : .pinned e ∈ classes) :
    ∃ x ∈ axes, x.origin = e := by
  have hclasses : (a.dims.zip classes).map Prod.snd = classes := List.map_snd_zip (by omega)
  rw [← hclasses] at he
  obtain ⟨p, hp, hclass⟩ := List.mem_map.1 he
  obtain ⟨x, hx, hlaid⟩ := forall₂_mem_left h.laidOut hp
  rw [hclass] at hlaid
  cases hlaid with
  | pinned n e => exact ⟨_, hx, rfl⟩

/-- The entities of a pinned index have names in use. -/
theorem name_mem_namesInUse {e : Expr} (he : .pinned e ∈ classes) {p : Parameter}
    (hp : p ∈ e.externals) : p.name ∈ a.namesInUse classes := by
  have hindex : e ∈ classes.filterMap AxisClass.index? := List.mem_filterMap.2 ⟨_, he, rfl⟩
  refine List.mem_cons_of_mem _ (List.mem_append_right _ ?_)
  exact List.mem_flatMap.2 ⟨e, hindex, Expr.name_mem_names hp⟩

theorem mem_uses_statements (h : Planned a classes name axes) (ha : a.scope = .external) {u : Use} :
    u ∈ (statements a (destination a name axes) axes).uses ↔
      u = .entity (.array a) ∨ u = .entity (.array (destination a name axes)) ∨
        ∃ x ∈ axes, u ∈ x.origin.uses := by
  rw [uses_statements h ha]
  simp only [List.mem_append, List.mem_cons, List.not_mem_nil, or_false, List.mem_flatMap]
  tauto

/-- The entities of a gather are those that it involves and those under the names that it draws. -/
theorem entity_cases (hknown : ∀ key ∈ pins.map Prod.fst, key ∈ a.dims.map Dimension.name)
    (h : Planned a (a.dims.map pins.classOf) name axes) (ha : a.scope = .external) {p : Parameter}
    (hp : .entity p ∈ (statements a (destination a name axes) axes).uses) :
    Involves a pins p ∨ Drawn a name axes p := by
  rcases (mem_uses_statements h ha).1 hp with heq | heq | ⟨x, hx, hu⟩
  · exact .inl (.inl (Use.entity.inj heq))
  · rw [Use.entity.inj heq]
    exact .inr .target
  · rcases h.origin_cases hx hu with ⟨e, he, hu⟩ | ⟨o, ho, heq⟩
    · exact .inl (.inr ⟨e, (Pins.holds_iff hknown).2 he, Expr.entity_mem_uses_iff.1 hu⟩)
    · rw [Use.entity.inj heq]
      exact .inr (.offset ho)

theorem Involves.name_mem {p : Parameter} (hp : Involves a pins p)
    (hknown : ∀ key ∈ pins.map Prod.fst, key ∈ a.dims.map Dimension.name) :
    p.name ∈ a.namesInUse (a.dims.map pins.classOf) := by
  rcases hp with rfl | ⟨e, he, hp⟩
  · exact List.mem_cons_self
  · exact name_mem_namesInUse ((Pins.holds_iff hknown).1 he) hp

/-- The uses of a gather are consistent where its pins bring in no untyped name and no name of two
entities. -/
theorem consistent_iff (hknown : ∀ key ∈ pins.map Prod.fst, key ∈ a.dims.map Dimension.name)
    (h : Planned a (a.dims.map pins.classOf) name axes) (ha : a.scope = .external) :
    Consistent (statements a (destination a name axes) axes).uses ↔
      (∀ index, pins.Holds index → ∀ n, .symbol n ∉ index.nodes) ∧
        ∀ p q, Involves a pins p → Involves a pins q → p.name = q.name → p.same q := by
  have hpinned : ∀ index, pins.Holds index → ∀ u ∈ index.uses,
      u ∈ (statements a (destination a name axes) axes).uses := by
    intro index hindex u hu
    obtain ⟨x, hx, rfl⟩ := h.exists_origin (by simp) ((Pins.holds_iff hknown).1 hindex)
    exact (mem_uses_statements h ha).2 (.inr (.inr ⟨x, hx, hu⟩))
  have hinvolved : ∀ p, Involves a pins p →
      .entity p ∈ (statements a (destination a name axes) axes).uses := by
    rintro p (rfl | ⟨index, hindex, hp⟩)
    · exact (mem_uses_statements h ha).2 (.inl rfl)
    · exact hpinned index hindex _ (Expr.entity_mem_uses_iff.2 hp)
  constructor
  · rintro ⟨hentity, hsame⟩
    refine ⟨fun index hindex n hn => ?_, fun p q hp hq => hsame p q (hinvolved p hp)
      (hinvolved q hq)⟩
    obtain ⟨p, hp⟩ := hentity _ (hpinned index hindex _ (Expr.symbol_mem_nodes_iff.1 hn))
    cases hp
  · rintro ⟨hsymbol, hsame⟩
    refine ⟨fun u hu => ?_, fun p q hp hq hname => ?_⟩
    · cases u with
      | entity p => exact ⟨p, rfl⟩
      | unknown n =>
        rcases (mem_uses_statements h ha).1 hu with heq | heq | ⟨x, hx, hu⟩
        · cases heq
        · cases heq
        · rcases h.origin_cases hx hu with ⟨e, he, hu⟩ | ⟨o, -, heq⟩
          · have hn := Expr.symbol_mem_nodes_iff.2 hu
            exact absurd hn (hsymbol e ((Pins.holds_iff hknown).2 he) n)
          · cases heq
    · -- a drawn name is not in use, so a clash is among the entities involved or among those drawn
      rcases entity_cases hknown h ha hp with hp | hp <;>
        rcases entity_cases hknown h ha hq with hq | hq
      · exact hsame p q hp hq hname
      · exact absurd (hname ▸ hp.name_mem hknown) (hq.fresh h)
      · exact absurd (hname ▸ hq.name_mem hknown) (hp.fresh h)
      · exact hp.same hq h hname

/-- The entities of the first source indices, in the order of the axes. -/
def originEntities (axes : List Axis) : List Parameter := axes.flatMap fun x => x.origin.externals

/-- Two entities that are each met twice are kept once, in front of the others. -/
theorem eraseDupsBy_twice {p q : Parameter} {rest : List Parameter} (hpq : q.same p = false)
    (hq : ∀ r ∈ rest, r.same q = false) :
    ([p, q, q, p] ++ rest).eraseDupsBy Parameter.same =
      p :: q :: (rest.filter fun r => !r.same p).eraseDupsBy Parameter.same := by
  have hrest : (rest.filter fun r => decide (r.same p = false)).filter
      (fun r => decide (r.same q = false)) = rest.filter fun r => !r.same p := by
    rw [List.filter_filter]
    refine List.filter_congr fun r hr => ?_
    rw [hq r hr]
    cases r.same p <;> rfl
  simp only [List.cons_append, List.nil_append, List.eraseDupsBy_cons, List.filter_cons, hpq,
    Parameter.same_self, decide_true, Bool.true_eq_false, decide_false, Bool.false_eq_true,
    if_true, if_false, hrest]

/-- The name of the destination is apart from those of the first source indices. -/
theorem not_same_destination (h : Planned a classes name axes) {p : Parameter}
    (hp : p ∈ originEntities axes) : p.same (.array (destination a name axes)) = false := by
  rw [Bool.eq_false_iff]
  intro hsame
  have hname : p.name = name := (Parameter.eq_of_same hsame).1
  obtain ⟨x, hx, hp⟩ := List.mem_flatMap.1 hp
  rcases h.origin_cases hx (Expr.entity_mem_uses_iff.2 hp) with ⟨e, he, hu⟩ | ⟨o, ho, heq⟩
  · have hused := name_mem_namesInUse (a := a) he (Expr.entity_mem_uses_iff.1 hu)
    exact h.fresh name (by simp) (hname ▸ hused)
  · obtain rfl := Use.entity.inj heq
    obtain rfl : o = name := hname
    exact (List.nodup_cons.1 h.nodup).1 ho

/-- The parameters of a gather are the array, its destination, the other arrays of the first source
indices and then their scalars, each at its first occurrence. -/
theorem eq_of_parameters_statements (h : Planned a classes name axes) (ha : a.scope = .external)
    {ps : List Parameter}
    (hps : (statements a (destination a name axes) axes).parameters = .ok ps) :
    ps = .array a :: .array (destination a name axes) ::
      ((originEntities axes).filter fun p => p.isArray && !p.same (.array a)).eraseDupsBy
        Parameter.same ++
      ((originEntities axes).filter (!·.isArray)).eraseDupsBy Parameter.same := by
  have hentities : (statements a (destination a name axes) axes).uses.filterMap Use.entity? =
      [.array a, .array (destination a name axes), .array (destination a name axes), .array a] ++
        originEntities axes := by
    rw [uses_statements h ha, List.filterMap_append, List.filterMap_flatMap]
    rfl
  have hapart : (Parameter.array (destination a name axes)).same (.array a) = false := by
    rw [Bool.eq_false_iff]
    exact fun hsame => h.name_ne (Parameter.eq_of_same hsame).1.symm
  have hothers : ∀ p ∈ (originEntities axes).filter Parameter.isArray,
      p.same (.array (destination a name axes)) = false :=
    fun p hp => not_same_destination h (List.mem_of_mem_filter hp)
  have harrays := eraseDupsBy_twice hapart hothers
  rw [List.filter_filter] at harrays
  rw [Stmt.eq_of_parameters hps, hentities, List.filter_append, List.filter_append]
  simp only [Bool.and_comm] at harrays ⊢
  exact congrArg₂ (· ++ ·) harrays rfl

/-- The loop over a free axis. -/
def Axis.head (x : Axis) : LoopHead := ⟨x.source, .upTo x.extent, [x.target], .parallel⟩

/-- A gather has one loop for each free axis, the last axis innermost. -/
theorem loops_statements (h : Planned a classes name axes) :
    (statements a (destination a name axes) axes).loops =
      (axes.filter (!·.pinned)).map Axis.head := by
  have hloop : ∀ x ∈ axes, x.loop? = if !x.pinned then some x.head else none := by
    intro x hx
    obtain ⟨d, -, c, -, hlaid⟩ := h.laidOut_of_mem hx
    cases hlaid <;> rfl
  rw [statements, Stmt.loops_block]
  have hviews : ∀ b : GridArray, (Stmt.view b).loops = [] := fun b => rfl
  simp only [List.flatMap_cons, List.flatMap_nil, hviews, List.nil_append, List.append_nil,
    Stmt.loops_nest, Stmt.loops_assign, List.filterMap_reverse, List.reverse_reverse]
  rw [List.filterMap_congr hloop, ← List.filterMap_eq_map, List.filterMap_filter]
  rfl

/-- One axis of a gather: a pinned one is the cell at its index, and a free one begins at an offset
and has an extent of its own. -/
def Gathers (pins : Pins) (d : Dimension) (x : Axis) : Prop :=
  x.source = d ∧ (∃ n, x.target = .incremented n d (.int 0) (.int 1)) ∧
    match pins.find? d.name with
    | some index => x.pinned ∧ x.origin = index ∧ x.extent = .int 1
    | none => ¬ x.pinned ∧ (∃ o, x.origin = .scalar ⟨o, .int32⟩) ∧ x.extent = .size x.target.name

theorem Planned.gathers (h : Planned a (a.dims.map pins.classOf) name axes) :
    List.Forall₂ (Gathers pins) a.dims axes := by
  have hlaid := h.laidOut
  rw [← List.map_prod_left_eq_zip, List.forall₂_map_left_iff] at hlaid
  refine hlaid.imp fun d x hx => ?_
  unfold Pins.classOf at hx
  unfold Gathers
  cases hfind : pins.find? d.name with
  | some index =>
    rw [hfind] at hx
    cases hx with
    | pinned n => exact ⟨rfl, ⟨n, rfl⟩, rfl, rfl, rfl⟩
  | none =>
    rw [hfind] at hx
    cases hx with
    | free n o => exact ⟨rfl, ⟨n, rfl⟩, nofun, ⟨o, rfl⟩, rfl⟩

theorem gather_eq_ok_iff (hplan : plan a (a.dims.map pins.classOf) = (name, axes)) {k : Kernel} :
    gather a pins = .ok k ↔
      (∀ key ∈ pins.map Prod.fst, key ∈ a.dims.map Dimension.name) ∧
        ∃ ps, (statements a (destination a name axes) axes).parameters = .ok ps ∧
          ⟨⟨"copy", none, ps, [.static]⟩, statements a (destination a name axes) axes⟩ = k := by
  have hsplit := (planned hplan).gatherSplit_eq hplan
  rw [gather, bind_eq_ok]
  constructor
  · rintro ⟨classes, hclasses, hk⟩
    obtain ⟨hknown, rfl⟩ := Pins.splitAxes_eq_ok_iff.1 hclasses
    rw [hsplit] at hk
    obtain ⟨ps, hps, hk⟩ := bind_eq_ok.1 hk
    exact ⟨hknown, ps, hps, Except.ok.inj hk⟩
  · rintro ⟨hknown, ps, hps, rfl⟩
    refine ⟨_, Pins.splitAxes_eq_ok_iff.2 ⟨hknown, rfl⟩, ?_⟩
    rw [hsplit]
    exact bind_eq_ok.2 ⟨ps, hps, rfl⟩

/-- A gather of an array from outside is built when every pin is of an axis, no pinned index has an
untyped name and the array and the entities of the pinned indices have names of their own. Its
destination has one cell along the pinned axes and an extent of its own along the others. These have
the loops, the last one innermost. The parameters are the array, its destination, the other arrays
of the pinned indices and the scalars of the first source indices, offsets among them. -/
theorem gather_signature (ha : a.scope = .external) (pins : Pins) :
    ((∃ k, gather a pins = .ok k) ↔
      (∀ key ∈ pins.map Prod.fst, key ∈ a.dims.map Dimension.name) ∧
        (∀ index, pins.Holds index → ∀ n, .symbol n ∉ index.nodes) ∧
        ∀ p q, Involves a pins p → Involves a pins q → p.name = q.name → p.same q) ∧
    ∀ k, gather a pins = .ok k → ∃ name axes, Planned a (a.dims.map pins.classOf) name axes ∧
      List.Forall₂ (Gathers pins) a.dims axes ∧
      k.body = statements a (destination a name axes) axes ∧
      k.body.loops = (axes.filter (!·.pinned)).map Axis.head ∧
      k.signature.parameters = .array a :: .array (destination a name axes) ::
        ((originEntities axes).filter fun p => p.isArray && !p.same (.array a)).eraseDupsBy
          Parameter.same ++
        ((originEntities axes).filter (!·.isArray)).eraseDupsBy Parameter.same := by
  rcases hplan : plan a (a.dims.map pins.classOf) with ⟨name, axes⟩
  have h := planned hplan
  constructor
  · simp only [gather_eq_ok_iff hplan, exists_and_left]
    refine and_congr_right fun hknown => ?_
    rw [← consistent_iff hknown h ha, ← Stmt.parameters_found_iff]
    constructor
    · rintro ⟨k, ps, hps, -⟩
      exact ⟨ps, hps⟩
    · rintro ⟨ps, hps⟩
      exact ⟨_, ps, hps, rfl⟩
  · intro k hk
    obtain ⟨-, ps, hps, rfl⟩ := (gather_eq_ok_iff hplan).1 hk
    exact ⟨name, axes, h, h.gathers, rfl, loops_statements h, eq_of_parameters_statements h ha hps⟩

/-- A table of columns. -/
def columnTable : GridArray :=
  ⟨"w", .int32, [⟨"z", .spatial⟩], [.int 8], [.none], .external⟩

/-- The column that a table gives, moved by a scalar. -/
def tabulated : Expr := .binary .add (.scalar columnIndex) (.access columnTable [.int 0])

def tabulatedEntities : List Parameter :=
  [.array columns, .scalar columnIndex, .array columnTable]

/-- A column is looked up in a table; an index under the name of the source is refused. -/
theorem gather_signature_tabulated :
    (∃ k, gather columns [("y", tabulated)] = .ok k ∧
      k.signature.parameters.map Parameter.name = ["f", "dst", "w", "ox", "k"]) ∧
    ¬ ∃ k, gather columns [("y", .scalar ⟨"f", .int32⟩)] = .ok k := by
  have hholds : ∀ e index, Pins.Holds [("y", e)] index → index = e := by
    rintro e index ⟨n, hn⟩
    simp only [Pins.find?, Option.none_or, Option.ite_none_right_eq_some, Option.some.injEq] at hn
    exact hn.2.symm
  constructor
  · have hinvolved : ∀ p, Involves columns [("y", tabulated)] p →
        p ∈ tabulatedEntities := by
      rintro p (rfl | ⟨index, hindex, hp⟩)
      · exact List.mem_cons_self
      · rw [hholds _ _ hindex] at hp
        exact List.mem_cons_of_mem _ hp
    have hapart : ∀ p ∈ tabulatedEntities, ∀ q ∈ tabulatedEntities, p.name = q.name → p.same q := by
      decide
    have htyped : ∀ index, Pins.Holds [("y", tabulated)] index → ∀ n, .symbol n ∉ index.nodes := by
      intro index hindex n hn
      rw [hholds _ _ hindex] at hn
      simp [tabulated, Expr.nodes, Expr.nodesAll] at hn
    obtain ⟨k, hk⟩ := (gather_signature rfl [("y", tabulated)]).1.2 ⟨by decide, htyped,
      fun p q hp hq => hapart p (hinvolved p hp) q (hinvolved q hq)⟩
    have hnames : (gather columns [("y", tabulated)]).map
        (fun k => k.signature.parameters.map Parameter.name) =
        .ok ["f", "dst", "w", "ox", "k"] := rfl
    rw [hk] at hnames
    exact ⟨k, hk, Except.ok.inj hnames⟩
  · intro hbuilt
    obtain ⟨-, -, hsame⟩ := (gather_signature rfl _).1.1 hbuilt
    have hscalar : Involves columns [("y", .scalar ⟨"f", .int32⟩)] (.scalar ⟨"f", .int32⟩) :=
      .inr ⟨_, ⟨"y", rfl⟩, List.mem_cons_self⟩
    exact absurd (hsame (.array columns) _ (.inl rfl) hscalar rfl) (by decide)

end Region

end GridKernel
