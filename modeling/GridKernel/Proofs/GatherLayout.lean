import GridKernel.Proofs.Evaluation
import GridKernel.Proofs.Extents
import GridKernel.Proofs.Names
import GridKernel.Proofs.Uses
import GridKernel.Region

/-! The layout of a gather. The drawn names denote nothing else in the kernel, so the kernel of an
array and pins is built. -/
namespace GridKernel.Region

/-- The names drawn for an axis. -/
def Axis.names (x : Axis) : List String :=
  x.target.name :: if x.pinned then [] else x.origin.names

/-- An axis is laid out for a source axis and its class. -/
inductive LaidOut (d : Dimension) : AxisClass → Axis → Prop where
  | pinned (n : String) (index : Expr) :
    LaidOut d (.pinned index) ⟨d, .incremented n d (.int 0) (.int 1), index, true⟩
  | free (n o : String) :
    LaidOut d .free ⟨d, .incremented n d (.int 0) (.int 1), .scalar ⟨o, .int32⟩, false⟩

theorem Axis.loop?_eq_some {x : Axis} {head : LoopHead} (h : x.loop? = some head) :
    head = ⟨x.source, .upTo x.extent, [x.target], .parallel⟩ := by
  unfold Axis.loop? at h
  split at h
  · cases h
  · exact (Option.some.inj h).symm

/-- The statements of a gather: two views, and an assignment in a nest of loops. -/
theorem node_of_statements {a dst : GridArray} {axes : List Axis} {x : Stmt}
    (h : x ∈ (statements a dst axes).nodes) :
    x = statements a dst axes ∨ x = .view a ∨ x = .view dst ∨
      (∃ target value, x = .assign target value) ∨ ∃ head body, x = .loop head body := by
  rcases List.mem_cons.1 h with rfl | h
  · exact .inl rfl
  obtain ⟨s, hs, h⟩ := Stmt.mem_nodesAll.1 h
  simp only [List.mem_cons, List.not_mem_nil, or_false] at hs
  rcases hs with rfl | rfl | rfl
  · exact .inr (.inl (List.mem_singleton.1 h))
  · exact .inr (.inr (.inl (List.mem_singleton.1 h)))
  · rcases Stmt.mem_nodes_nest_assign h with rfl | hloop
    · exact .inr (.inr (.inr (.inl ⟨_, _, rfl⟩)))
    · exact .inr (.inr (.inr (.inr hloop)))

/-- A gather views its array and its destination only. -/
theorem view_of_statements {a b dst : GridArray} {axes : List Axis}
    (h : .view b ∈ (statements a dst axes).nodes) : b = a ∨ b = dst := by
  rcases node_of_statements h with heq | heq | heq | ⟨_, _, heq⟩ | ⟨_, _, heq⟩
  · cases heq
  · exact .inl (Stmt.view.inj heq)
  · exact .inr (Stmt.view.inj heq)
  · cases heq
  · cases heq

theorem declaredNames_statements (a dst : GridArray) (axes : List Axis) :
    (statements a dst axes).declaredNames = [] := by
  refine List.eq_nil_iff_forall_not_mem.2 fun n hn => ?_
  obtain ⟨t, ht, -⟩ := Stmt.mem_declaredNames.1 hn
  rcases node_of_statements ht with heq | heq | heq | ⟨_, _, heq⟩ | ⟨_, _, heq⟩ <;> cases heq

/-- What the layout of an array's axes guarantees. -/
structure Planned (a : GridArray) (classes : List AxisClass) (name : String) (axes : List Axis) :
    Prop where
  laidOut : List.Forall₂ (fun p x => LaidOut p.1 p.2 x) (a.dims.zip classes) axes
  nodup : (name :: axes.flatMap Axis.names).Nodup
  fresh : ∀ n ∈ name :: axes.flatMap Axis.names, n ∉ a.namesInUse classes

open Identifier in
theorem draws_axis (target : String) (d : Dimension) (c : AxisClass) :
    Draws (axis target d c) fun names x => names = x.names ∧ LaidOut d c x := by
  unfold axis
  cases c with
  | pinned index =>
    refine ((Draws.draw _).bind fun n => Draws.pure _).mono ?_
    rintro names x ⟨ns, n, ns', rfl, ⟨rfl, -⟩, rfl, rfl⟩
    exact ⟨rfl, .pinned n index⟩
  | free =>
    refine ((Draws.draw _).bind fun n => (Draws.draw _).bind fun o => Draws.pure _).mono ?_
    rintro names x ⟨ns, n, ns', rfl, ⟨rfl, -⟩, ms, o, ms', rfl, ⟨rfl, -⟩, rfl, rfl⟩
    exact ⟨rfl, .free n o⟩

open Identifier in
theorem draws_layout (a : GridArray) (classes : List AxisClass) :
    Draws (layout a classes) fun names p => names = p.1 :: p.2.flatMap Axis.names ∧
      List.Forall₂ (fun q x => LaidOut q.1 q.2 x) (a.dims.zip classes) p.2 := by
  have haxes (target : String) := Draws.mapM (g := Axis.names)
    (fun p : Dimension × AxisClass => draws_axis target p.1 p.2) (a.dims.zip classes)
  have hdraws := (Draws.draw "dst").bind fun target =>
    (haxes target).bind fun axes => Draws.pure (target, axes)
  refine hdraws.mono ?_
  rintro names p ⟨ns, target, ns', rfl, ⟨rfl, -⟩, ms, axes, ms', rfl, ⟨rfl, haxes⟩, rfl, rfl⟩
  exact ⟨by simp, haxes⟩

theorem planned {a : GridArray} {classes : List AxisClass} {name : String} {axes : List Axis}
    (h : plan a classes = (name, axes)) : Planned a classes name axes := by
  obtain ⟨rfl, rfl⟩ : (plan a classes).1 = name ∧ (plan a classes).2 = axes := by simp [h]
  obtain ⟨names, ⟨rfl, haxes⟩, hnodup, hfresh, -⟩ := draws_layout a classes (a.namesInUse classes)
  exact ⟨haxes, hnodup, hfresh⟩

/-- The pinned indices read scalars only. -/
def PinsScalars (classes : List AxisClass) : Prop :=
  ∀ e, .pinned e ∈ classes → Machine.ReadsScalars e

/-- The names of the scalars in pinned indices denote nothing else. -/
structure PinsApart (a : GridArray) (classes : List AxisClass) : Prop where
  apart : ∀ e s, .pinned e ∈ classes → .scalar s ∈ e.nodes → s.name ≠ a.name
  same : ∀ e f s t, .pinned e ∈ classes → .pinned f ∈ classes → .scalar s ∈ e.nodes →
    .scalar t ∈ f.nodes → s.name = t.name → s = t

def destination (a : GridArray) (name : String) (axes : List Axis) : GridArray :=
  ⟨name, a.element, axes.map Axis.target, axes.map Axis.extent, axes.map fun _ => .none, .external⟩

namespace Planned

variable {a : GridArray} {classes : List AxisClass} {name : String} {axes : List Axis}

theorem laidOut_of_mem (h : Planned a classes name axes) {x : Axis} (hx : x ∈ axes) :
    ∃ d ∈ a.dims, ∃ c ∈ classes, LaidOut d c x := by
  obtain ⟨p, hp, hlaid⟩ := forall₂_mem_right h.laidOut hx
  exact ⟨p.1, (List.of_mem_zip hp).1, p.2, (List.of_mem_zip hp).2, hlaid⟩

theorem sources (h : Planned a classes name axes) (hlength : a.dims.length = classes.length) :
    axes.map Axis.source = a.dims := by
  have hmap : (a.dims.zip classes).map Prod.fst = axes.map Axis.source := by
    rw [map_eq_map_iff_forall₂]
    refine h.laidOut.imp ?_
    rintro ⟨d, c⟩ x hx
    cases hx <;> rfl
  rw [← hmap, List.map_fst_zip (by omega)]

theorem nodup_targets (h : Planned a classes name axes) :
    ((axes.map Axis.target).map Dimension.name).Nodup := by
  have hsub : ((axes.map Axis.target).map Dimension.name).Sublist (axes.flatMap Axis.names) := by
    clear h
    induction axes with
    | nil => exact .slnil
    | cons x axes ih =>
      rw [List.map_cons, List.map_cons, List.flatMap_cons]
      have hhead : [x.target.name].Sublist x.names := by simp [Axis.names]
      exact hhead.append ih
  exact hsub.nodup (List.nodup_cons.1 h.nodup).2

theorem scalar_cases (h : Planned a classes name axes) {x : Axis} (hx : x ∈ axes) {s : Scalar}
    (hs : .scalar s ∈ x.origin.nodes) :
    (∃ e, .pinned e ∈ classes ∧ .scalar s ∈ e.nodes ∧ s.name ∈ a.namesInUse classes) ∨
      s.element = .int32 ∧ s.name ∈ axes.flatMap Axis.names := by
  obtain ⟨d, -, c, hc, hlaid⟩ := h.laidOut_of_mem hx
  cases hlaid with
  | pinned n e =>
    refine .inl ⟨e, hc, hs, ?_⟩
    have hname : s.name ∈ e.names := List.mem_filterMap.2 ⟨_, hs, rfl⟩
    have hindex : e ∈ classes.filterMap AxisClass.index? := List.mem_filterMap.2 ⟨_, hc, rfl⟩
    simp only [GridArray.namesInUse, List.mem_cons, List.mem_append, List.mem_flatMap]
    exact .inr (.inr ⟨e, hindex, hname⟩)
  | free n o =>
    obtain rfl : s = ⟨o, .int32⟩ := by simpa [Expr.nodes] using hs
    have hname : o ∈
        Axis.names ⟨d, .incremented n d (.int 0) (.int 1), .scalar ⟨o, .int32⟩, false⟩ := by
      simp [Axis.names, Expr.names, Expr.nodes, Expr.name?]
    exact .inr ⟨rfl, List.mem_flatMap.2 ⟨_, hx, hname⟩⟩

/-- The entities that a gather refers to. -/
def entities (a : GridArray) (name : String) (axes : List Axis) : Entities where
  arrays := [a, destination a name axes]
  scalars := axes.flatMap fun x => x.origin.nodes.filterMap Expr.scalar?

theorem mem_scalars {s : Scalar} (hs : s ∈ (entities a name axes).scalars) :
    ∃ x ∈ axes, .scalar s ∈ x.origin.nodes := by
  obtain ⟨x, hx, hs⟩ := List.mem_flatMap.1 hs
  obtain ⟨n, hn, hs⟩ := List.mem_filterMap.1 hs
  refine ⟨x, hx, ?_⟩
  rwa [← Expr.scalar?_eq_some.1 hs]

theorem name_ne (h : Planned a classes name axes) : a.name ≠ name := by
  intro heq
  apply h.fresh name (by simp)
  simp [GridArray.namesInUse, heq]

theorem apart (h : Planned a classes name axes) (hpins : PinsApart a classes) :
    (entities a name axes).Apart := by
  constructor
  · intro b hb c hc hname
    simp only [entities, List.mem_cons, List.not_mem_nil, or_false] at hb hc
    rcases hb with rfl | rfl <;> rcases hc with rfl | rfl
    · exact GridArray.same_self _
    · exact absurd hname h.name_ne
    · exact absurd hname.symm h.name_ne
    · exact GridArray.same_self _
  · intro s hs t ht hname
    obtain ⟨x, hx, hs⟩ := mem_scalars hs
    obtain ⟨y, hy, ht⟩ := mem_scalars ht
    rcases h.scalar_cases hx hs with ⟨e, he, hse, husedS⟩ | ⟨helementS, hdrawnS⟩ <;>
      rcases h.scalar_cases hy ht with ⟨f, hf, htf, husedT⟩ | ⟨helementT, hdrawnT⟩
    · exact hpins.same e f s t he hf hse htf hname
    · exact absurd (hname ▸ husedS) (h.fresh t.name (by simp [hdrawnT]))
    · exact absurd (hname ▸ husedT) (h.fresh s.name (by simp [hdrawnS]))
    · obtain ⟨sname, selement⟩ := s
      obtain ⟨tname, telement⟩ := t
      simp_all
  · intro b hb s hs
    obtain ⟨x, hx, hs⟩ := mem_scalars hs
    simp only [entities, List.mem_cons, List.not_mem_nil, or_false] at hb
    rcases h.scalar_cases hx hs with ⟨e, he, hse, hused⟩ | ⟨-, hdrawn⟩ <;>
      rcases hb with rfl | rfl
    · exact (hpins.apart e s he hse).symm
    · intro (heq : name = s.name)
      exact h.fresh name (by simp) (heq ▸ hused)
    · intro heq
      apply h.fresh s.name (by simp [hdrawn])
      simp [GridArray.namesInUse, heq]
    · intro (heq : name = s.name)
      exact (List.nodup_cons.1 h.nodup).1 (heq ▸ hdrawn)

theorem knows_extent (h : Planned a classes name axes) {x : Axis} (hx : x ∈ axes) {u : Entities} :
    ∀ n ∈ x.extent.nodes, u.Knows n := by
  obtain ⟨d, -, c, -, hlaid⟩ := h.laidOut_of_mem hx
  cases hlaid <;>
    simp [Axis.extent, Dimension.extent, Dimension.incremented, Expr.nodes, Entities.Knows]

theorem knows_targetIndex (h : Planned a classes name axes) {x : Axis} (hx : x ∈ axes)
    {u : Entities} : ∀ n ∈ x.targetIndex.nodes, u.Knows n := by
  obtain ⟨d, -, c, -, hlaid⟩ := h.laidOut_of_mem hx
  cases hlaid <;> simp [Axis.targetIndex, Expr.nodes, Entities.Knows]

theorem knows_sourceIndex (h : Planned a classes name axes) (hpins : PinsScalars classes)
    {x : Axis} (hx : x ∈ axes) : ∀ n ∈ x.sourceIndex.nodes, (entities a name axes).Knows n := by
  have horigin : ∀ s, .scalar s ∈ x.origin.nodes → s ∈ (entities a name axes).scalars := by
    intro s hs
    refine List.mem_flatMap.2 ⟨x, hx, List.mem_filterMap.2 ⟨_, hs, rfl⟩⟩
  obtain ⟨d, -, c, hc, hlaid⟩ := h.laidOut_of_mem hx
  cases hlaid with
  | pinned n e =>
    intro y hy
    have hread := hpins e hc y hy
    cases y with
    | scalar s => exact horigin s hy
    | symbol _ | dim _ | size _ | access _ _ => cases hread
    | _ => trivial
  | free n o =>
    intro y hy
    simp only [Axis.sourceIndex, Expr.nodes, Bool.false_eq_true, if_false, List.mem_cons,
      List.mem_append, List.not_mem_nil, or_false] at hy
    rcases hy with rfl | rfl | rfl
    · trivial
    · trivial
    · exact horigin _ (by simp [Expr.nodes])

theorem knowsAll (h : Planned a classes name axes) (hpins : PinsScalars classes) :
    (entities a name axes).KnowsAll (statements a (destination a name axes) axes) := by
  have hsource : a ∈ (entities a name axes).arrays := by simp [entities]
  have htarget : destination a name axes ∈ (entities a name axes).arrays := by simp [entities]
  have hcell : (entities a name axes).KnowsAll
      (.assign (.access (destination a name axes) (axes.map Axis.targetIndex))
        (.access a (axes.map Axis.sourceIndex))) := by
    apply Entities.KnowsAll.assign_access hsource htarget
    · intro e he
      obtain ⟨x, hx, rfl⟩ := List.mem_map.1 he
      exact h.knows_sourceIndex hpins hx
    · intro e he
      obtain ⟨x, hx, rfl⟩ := List.mem_map.1 he
      exact h.knows_targetIndex hx
  have hheads : ∀ head ∈ axes.reverse.filterMap Axis.loop?, ∀ s, ∀ e ∈ (Stmt.loop head s).exprs,
      ∀ n ∈ e.nodes, (entities a name axes).Knows n := by
    intro head hhead s e he n hn
    obtain ⟨x, hx, hloop⟩ := List.mem_filterMap.1 hhead
    have hx : x ∈ axes := by simpa using hx
    have hextent := h.knows_extent hx (u := entities a name axes)
    obtain rfl := Axis.loop?_eq_some hloop
    obtain ⟨d, -, c, -, hlaid⟩ := h.laidOut_of_mem hx
    have hstepping : x.target.stepping = [.int 0, .int 1] := by cases hlaid <;> rfl
    simp only [Stmt.exprs, Bounds.upTo, List.flatMap_cons, List.flatMap_nil, hstepping,
      List.mem_cons, List.append_nil, List.not_mem_nil, or_false] at he
    rcases he with rfl | rfl | rfl | rfl
    · simp_all [Expr.nodes, Entities.Knows]
    · exact hextent n hn
    · simp_all [Expr.nodes, Entities.Knows]
    · simp_all [Expr.nodes, Entities.Knows]
  apply Entities.KnowsAll.block
  intro s hs
  simp only [List.mem_cons, List.not_mem_nil, or_false] at hs
  rcases hs with rfl | rfl | rfl
  · exact .view hsource
  · exact .view htarget
  · exact hcell.nest fun head hhead => hheads head hhead _

theorem gatherSplit_eq (hplan : plan a classes = (name, axes)) (h : Planned a classes name axes) :
    gatherSplit a classes = do
      let body := statements a (destination a name axes) axes
      return ⟨⟨"copy", none, ← body.parameters, [.static]⟩, body⟩ := by
  have hshape : (axes.map Axis.extent).length = (axes.map Axis.target).length := by simp
  rw [gatherSplit, hplan]
  simp only [GridArray.named_of_nodup _ _ h.nodup_targets, ok_bind, GridArray.setShape,
    GridArray.rank, hshape, if_true]
  rw [List.map_map]
  rfl

theorem body_of_gatherSplit (hplan : plan a classes = (name, axes))
    (h : Planned a classes name axes) {k : Kernel} (hk : gatherSplit a classes = .ok k) :
    k.body = statements a (destination a name axes) axes := by
  rw [gatherSplit_eq hplan h] at hk
  obtain ⟨ps, -, hk⟩ := bind_eq_ok.1 hk
  rw [← Except.ok.inj hk]

/-- The gather kernel of an array is built when no name denotes two entities. -/
theorem gatherSplit_ok (hplan : plan a classes = (name, axes)) (h : Planned a classes name axes)
    (hreads : PinsScalars classes) (hpins : PinsApart a classes) :
    ∃ k, gatherSplit a classes = .ok k := by
  obtain ⟨ps, hps⟩ := Entities.parameters (h.apart hpins) (h.knowsAll hreads)
  rw [gatherSplit_eq hplan h]
  exact ⟨_, bind_eq_ok.2 ⟨ps, hps, rfl⟩⟩

end Planned

end GridKernel.Region
