import GridKernel.Halo.Plan
import GridKernel.Proofs.Names
import GridKernel.Proofs.Results

/-! Names of a halo exchange. The drawn names differ from each other and from the names in use
around the array, and those of axes are identifiers. -/
namespace GridKernel.Halo

def sides (names : Side → String) : List String := Side.all.map names

section Sided

variable {α : Type} {p : α → Bool} {xs : List α}

/-- Both sides of the entries that a test selects. -/
theorem mem_sided {q : α × Side} :
    q ∈ (xs.filter p).flatMap (fun x => Side.all.map fun side => (x, side)) ↔
      q.1 ∈ xs ∧ p q.1 := by
  obtain ⟨x, side⟩ := q
  simp only [List.mem_flatMap, List.mem_filter, List.mem_map, Prod.mk.injEq]
  constructor
  · rintro ⟨x', hx', side', -, rfl, rfl⟩
    exact hx'
  · intro hx
    exact ⟨x, hx, side, by cases side <;> simp [Side.all], rfl, rfl⟩

theorem map_sided_sublist (f : α → Side → String) :
    (((xs.filter p).flatMap fun x => Side.all.map fun side => (x, side)).map
      fun q => f q.1 q.2).Sublist (xs.flatMap fun x => sides (f x)) := by
  rw [List.map_flatMap]
  exact List.filter_sublist.flatMap _

end Sided

theorem mem_exchanged {axes : List Axis} {p : Axis × Side} :
    p ∈ exchanged axes ↔ p.1 ∈ axes ∧ p.1.cls.isPinned = false := by
  rw [exchanged, mem_sided, Bool.not_eq_true']

/-- The names drawn for a slot axis and the axes of an array. -/
def drawn (slot : String) (axes : List Axis) : List String :=
  slot :: (axes.map (·.names.width) ++ (axes.flatMap (sides ·.names.buffers) ++
    axes.flatMap (sides ·.names.masks)))

/-- The names in what is drawn for the axes of an array. -/
def namesIn (p : String × List AxisNames) : List String :=
  p.1 :: (p.2.map AxisNames.width ++ (p.2.flatMap (sides ·.buffers) ++
    p.2.flatMap (sides ·.masks)))

/-- What the axes of an exchange and their names guarantee. -/
structure Named (a : GridArray) (classes : List AxisClass) (slot : String) (axes : List Axis) :
    Prop where
  dims : axes.map Axis.dim = a.dims
  cls : axes.map Axis.cls = classes
  position : ∀ (i : Nat) (x : Axis), axes[i]? = some x → x.position = i
  nodup : (drawn slot axes).Nodup
  fresh : ∀ n ∈ drawn slot axes, n ∉ a.namesInUse classes
  slot_valid : Identifier.isValid slot
  width_valid : ∀ x ∈ axes, Identifier.isValid x.dim.name → Identifier.isValid x.names.width

open Identifier

theorem draws_sides (stem : String) (d : Dimension) :
    Draws (drawSides stem d) fun names f => names = sides f ∧ True := by
  refine ((Draws.draw _).bind fun left => (Draws.draw _).bind fun right => Draws.pure _).mono ?_
  rintro names f ⟨ns, left, ns', rfl, ⟨rfl, -⟩, ms, right, ms', rfl, ⟨rfl, -⟩, rfl, rfl⟩
  exact ⟨rfl, trivial⟩

theorem isValid_width {name : String} (h : isValid name) : isValid (s!"h{name}") := by
  exact isValid_append (by decide) (isPart_of_isValid h)

/-- The names of all axes from the three lists they were drawn in. -/
theorem zipped_names {ws : List String} {bs ms : List (Side → String)} (hwb : ws.length = bs.length)
    (hbm : bs.length = ms.length) {ns : List AxisNames}
    (hns : ns = (ws.zip (bs.zip ms)).map fun (w, b, m) => ⟨w, b, m⟩) :
    ns.map AxisNames.width = ws ∧ ns.map AxisNames.buffers = bs ∧ ns.map AxisNames.masks = ms := by
  subst hns
  simp only [List.map_map]
  exact columns_zip_zip hwb hbm

theorem draws_names (dims : List Dimension) :
    Draws (drawNames dims) fun names p => names = namesIn p ∧
      isValid p.1 ∧ List.Forall₂ (fun d n => isValid d.name → isValid n.width) dims p.2 := by
  have hwidths := Draws.mapM (g := fun w => [w]) (fun d : Dimension =>
    (Draws.draw s!"h{d.name}").mono (Q := fun names w => names = [w] ∧
      (isValid d.name → isValid w)) fun names w h => ⟨h.1, fun hd => h.2 (isValid_width hd)⟩) dims
  have hbuffers := Draws.mapM (g := sides) (draws_sides "B") dims
  have hmasks := Draws.mapM (g := sides) (draws_sides "m_") dims
  refine ((Draws.draw "b").bind fun slot => hwidths.bind fun ws => hbuffers.bind fun bs =>
    hmasks.bind fun ms => Draws.pure _).mono ?_
  rintro names p ⟨ns, slot, ns', rfl, ⟨rfl, hslot⟩, nw, ws, nw', rfl, ⟨rfl, hws⟩, nb, bs, nb', rfl,
    ⟨rfl, hbs⟩, nm, ms, nm', rfl, ⟨rfl, hms⟩, rfl, hp⟩
  obtain ⟨hwidth, hbuffer, hmask⟩ := zipped_names (hws.length_eq.symm.trans hbs.length_eq)
    (hbs.length_eq.symm.trans hms.length_eq) rfl
  subst hp
  refine ⟨?_, hslot (by decide), ?_⟩
  · rw [namesIn, ← List.flatMap_map AxisNames.buffers sides,
      ← List.flatMap_map AxisNames.masks sides, hwidth, hbuffer, hmask, List.flatMap_singleton']
    simp
  · rw [← hwidth, List.forall₂_map_right_iff] at hws
    exact hws

/-- Axes put together from three lists keep their entries and know their positions. -/
theorem joined_axes {dims : List Dimension} {classes : List AxisClass} {ns : List AxisNames}
    (hclasses : dims.length = classes.length) (hns : dims.length = ns.length) {xs : List Axis}
    (hxs : xs = (dims.zip (classes.zip ns)).zipIdx.map fun ((d, c, n), i) => ⟨i, d, c, n⟩) :
    xs.map Axis.dim = dims ∧ xs.map Axis.cls = classes ∧ xs.map Axis.names = ns ∧
      ∀ (i : Nat) (x : Axis), xs[i]? = some x → x.position = i := by
  obtain ⟨hfirst, hsecond, hthird⟩ := columns_zip_zip hclasses (hclasses.symm.trans hns)
  have hmap {β : Type} (f : Dimension × AxisClass × AxisNames → β) (g : Axis → β)
      (hg : ∀ q i, g ⟨i, q.1, q.2.1, q.2.2⟩ = f q) :
      xs.map g = (dims.zip (classes.zip ns)).map f := by
    have hfst := List.zipIdx_map_fst 0 (dims.zip (classes.zip ns))
    rw [hxs, List.map_map, ← congrArg (List.map f) hfst, List.map_map]
    exact List.map_congr_left fun q _ => hg q.1 q.2
  refine ⟨(hmap _ _ fun _ _ => rfl).trans hfirst, (hmap _ _ fun _ _ => rfl).trans hsecond,
    (hmap _ _ fun _ _ => rfl).trans hthird, fun i x hx => ?_⟩
  rw [hxs, List.getElem?_map, List.getElem?_zipIdx, Nat.zero_add] at hx
  obtain ⟨q, hq, rfl⟩ := Option.map_eq_some_iff.1 hx
  obtain ⟨p, -, rfl⟩ := Option.map_eq_some_iff.1 hq
  rfl

/-- The axes of an exchange are put together from the drawn names. -/
theorem axes_eq {a : GridArray} {classes : List AxisClass}
    (hlength : classes.length = a.dims.length) {slot : String} {xs : List Axis}
    (h : axes a classes = (slot, xs)) :
    ((drawNames a.dims).run (a.namesInUse classes)).1 = (slot, xs.map Axis.names) ∧
      xs.map Axis.dim = a.dims ∧ xs.map Axis.cls = classes ∧
      ∀ (i : Nat) (x : Axis), xs[i]? = some x → x.position = i := by
  obtain ⟨names, ⟨-, -, hvalid⟩, -⟩ := draws_names a.dims (a.namesInUse classes)
  obtain ⟨rfl, hxs⟩ := Prod.mk.inj h
  obtain ⟨hdims, hcls, hns, hposition⟩ := joined_axes hlength.symm hvalid.length_eq hxs.symm
  exact ⟨by rw [hns]; rfl, hdims, hcls, hposition⟩

theorem namesIn_axes (slot : String) (xs : List Axis) :
    namesIn (slot, xs.map Axis.names) = drawn slot xs := by
  rw [namesIn, List.map_map, List.flatMap_map, List.flatMap_map]
  rfl

/-- The axes of an exchange have the drawn names. -/
theorem named {a : GridArray} {classes : List AxisClass}
    (hlength : classes.length = a.dims.length) {slot : String} {xs : List Axis}
    (h : axes a classes = (slot, xs)) : Named a classes slot xs := by
  obtain ⟨hrun, hdims, hcls, hposition⟩ := axes_eq hlength h
  obtain ⟨names, ⟨hnames, hslot, hvalid⟩, hnodup, hfresh, -⟩ :=
    draws_names a.dims (a.namesInUse classes)
  change ((drawNames a.dims) (a.namesInUse classes)).1 = _ at hrun
  rw [hrun] at hnames hslot hvalid
  rw [namesIn_axes] at hnames
  refine ⟨hdims, hcls, hposition, hnames ▸ hnodup, hnames ▸ hfresh, hslot, ?_⟩
  rw [← hdims, List.forall₂_map_left_iff, List.forall₂_map_right_iff,
    List.forall₂_same] at hvalid
  exact hvalid

namespace Named

variable {a : GridArray} {classes : List AxisClass} {slot : String} {axes : List Axis} {x y : Axis}

theorem dim_at (h : Named a classes slot axes) (hx : x ∈ axes) :
    a.dims[x.position]? = some x.dim := by
  obtain ⟨i, hi⟩ := List.getElem?_of_mem hx
  rw [← h.dims, List.getElem?_map, h.position i x hi, hi]
  rfl

theorem eq_of_position (h : Named a classes slot axes) (hx : x ∈ axes) (hy : y ∈ axes)
    (hposition : x.position = y.position) : x = y := by
  obtain ⟨i, hi⟩ := List.getElem?_of_mem hx
  obtain ⟨j, hj⟩ := List.getElem?_of_mem hy
  have hij : i = j := by rw [← h.position i x hi, ← h.position j y hj, hposition]
  subst hij
  exact Option.some.inj (hi.symm.trans hj)

/-- No drawn name is the name of an axis. -/
theorem drawn_ne (h : Named a classes slot axes) {n : String} (hn : n ∈ drawn slot axes)
    (hx : x ∈ axes) : n ≠ x.dim.name := by
  rintro rfl
  apply h.fresh _ hn
  have hdim : x.dim ∈ a.dims := h.dims ▸ List.mem_map_of_mem hx
  rw [GridArray.namesInUse, List.mem_cons, List.mem_append]
  exact .inr (.inl (List.mem_map_of_mem hdim))

end Named

theorem widths_drawn (slot : String) (axes : List Axis) :
    (slot :: axes.map (·.names.width)).Sublist (drawn slot axes) :=
  (List.sublist_append_left _ _).cons_cons slot

/-- The name of the axis of a buffer of `x` along `y`. -/
def Axis.bufferName (x y : Axis) : String :=
  if y.cls.isPinned ∨ y.position = x.position then y.names.width else y.dim.name

theorem Axis.bufferName_cases (x y : Axis) :
    x.bufferName y = y.names.width ∨ x.bufferName y = y.dim.name := by
  unfold bufferName
  split
  · exact .inl rfl
  · exact .inr rfl

namespace Named

variable {a : GridArray} {classes : List AxisClass} {slot : String} {axes : List Axis}

theorem names_distinct (h : Named a classes slot axes) (hdims : (a.dims.map Dimension.name).Nodup) :
    (axes.map (·.names.width) ++ axes.map fun y => y.dim.name).Nodup := by
  refine List.nodup_append.2 ⟨?_, ?_, ?_⟩
  · exact (List.nodup_cons.1 ((widths_drawn slot axes).nodup h.nodup)).2
  · rw [← h.dims, List.map_map] at hdims
    exact hdims
  · rintro w hw d hd rfl
    obtain ⟨y, hy, hwy⟩ := List.mem_map.1 hd
    exact h.drawn_ne ((widths_drawn slot axes).subset (List.mem_cons_of_mem _ hw)) hy hwy.symm

/-- The axes of a transfer buffer have different names. -/
theorem bufferNames_distinct (h : Named a classes slot axes)
    (hdims : (a.dims.map Dimension.name).Nodup) (x : Axis) :
    (slot :: axes.map x.bufferName).Nodup := by
  have hslot : slot ∈ drawn slot axes := by simp [drawn]
  refine List.nodup_cons.2 ⟨?_, ?_⟩
  · intro hmem
    obtain ⟨y, hy, heq⟩ := List.mem_map.1 hmem
    rcases x.bufferName_cases y with hname | hname
    · apply (List.nodup_cons.1 ((widths_drawn slot axes).nodup h.nodup)).1
      rw [← heq, hname]
      exact List.mem_map_of_mem hy
    · exact h.drawn_ne hslot hy (heq.symm.trans hname)
  · rw [List.map_eq_flatMap]
    refine nodup_flatMap_of_sublist (fun y _ => ?_) (h.names_distinct hdims)
    rcases x.bufferName_cases y with hname | hname <;> simp [hname]

end Named

end GridKernel.Halo
