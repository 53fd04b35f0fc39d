import GridKernel.Proofs.GatherLayout
import GridKernel.Proofs.HaloParts

/-! Names generated around an array. They differ from each other and from the names in use around
it. The names in the shape of the array are not among these, though views and loop bounds evaluate
it, so a generated name can be one of them. -/
namespace GridKernel

/-- The names in the shape of an array and in the sizes of its axes. -/
def GridArray.shapeNames (a : GridArray) : List String :=
  (a.shape ++ a.dims.map Dimension.extent).flatMap Expr.names

/-- Names drawn for the kernels of an array. They avoid those in its shape exactly when reserving
these as well would draw the same. -/
structure Generated {α : Type} (a : GridArray) (classes : List AxisClass)
    (draw : StateM (List String) α) (names : List String) : Prop where
  nodup : names.Nodup
  unused : ∀ n ∈ names, n ∉ a.namesInUse classes
  shape : (∀ n ∈ names, n ∉ a.shapeNames) ↔
    (draw.run (a.shapeNames ++ a.namesInUse classes)).1 = (draw.run (a.namesInUse classes)).1

variable {a : GridArray} {pins : Pins}

theorem Region.generated {classes : List AxisClass} {name : String} {axes : List Axis}
    (h : plan a classes = (name, axes)) :
    Generated a classes (layout a classes) (name :: axes.flatMap Axis.names) := by
  have hplanned := planned h
  have hrun : ((layout a classes).run (a.namesInUse classes)).1 = (name, axes) := h
  have havoids := (draws_layout a classes).avoids_iff a.shapeNames (a.namesInUse classes)
  exact ⟨hplanned.nodup, hplanned.fresh, by simpa only [hrun] using havoids⟩

theorem Halo.generated {classes : List AxisClass} {slot : String} {axes : List Axis}
    (hlength : classes.length = a.dims.length) (h : Halo.axes a classes = (slot, axes)) :
    Generated a classes (drawNames a.dims) (drawn slot axes) := by
  have hnamed := named hlength h
  obtain ⟨hrun, -⟩ := axes_eq hlength h
  have havoids := (draws_names a.dims).avoids_iff a.shapeNames (a.namesInUse classes)
  refine ⟨hnamed.nodup, hnamed.fresh, ?_⟩
  rw [hrun, namesIn_axes] at havoids
  rwa [hrun]

/-- The names generated by a gather and by a halo exchange differ from each other and from the
array's, its axes' and those in the pinned indices. They avoid the names in the array's shape
exactly when reserving these as well would draw the same. -/
theorem generated_names (a : GridArray) (pins : Pins) :
    (∀ k, Region.gather a pins = .ok k → ∃ classes name axes,
      splitAxes a.dims pins = .ok classes ∧ Region.plan a classes = (name, axes) ∧
      k.body = Region.statements a (Region.destination a name axes) axes ∧
      Generated a classes (Region.layout a classes)
        (name :: axes.flatMap Region.Axis.names)) ∧
    ∀ rule? e, Halo.exchange a pins rule? = .ok e → ∃ classes slot axes,
      Halo.axes a classes = (slot, axes) ∧
      Halo.Parts a pins (rule?.getD .own) classes slot axes e ∧
      Generated a classes (Halo.drawNames a.dims) (Halo.drawn slot axes) := by
  constructor
  · intro k hk
    obtain ⟨classes, hclasses, hk⟩ := bind_eq_ok.1 hk
    rcases hplan : Region.plan a classes with ⟨name, axes⟩
    have hbody := (Region.planned hplan).body_of_gatherSplit hplan hk
    exact ⟨classes, name, axes, hclasses, hplan, hbody, Region.generated hplan⟩
  · intro rule? e he
    obtain ⟨classes, slot, axes, haxes, hparts⟩ := Halo.exists_axes he
    exact ⟨classes, slot, axes, haxes, hparts,
      Halo.generated (length_of_splitAxes hparts.split) haxes⟩

/-- A plane whose second extent is a scalar under the name of an offset. -/
def capturedPlane : GridArray :=
  ⟨"f", .float64, [⟨"y", .spatial⟩, ⟨"x", .spatial⟩], [.int 3, .scalar ⟨"ox", .int32⟩],
    [.none, .none], .external⟩

/-- The offset of a gather captures the scalar in the shape: one parameter stands for both. -/
theorem generated_names_offset :
    ∃ k, Region.gather capturedPlane [] = .ok k ∧ k.parameterNames = ["f", "dst", "oy", "ox"] ∧
      let plan := Region.plan capturedPlane [.free, .free]
      ¬ ∀ n ∈ plan.1 :: plan.2.flatMap Region.Axis.names, n ∉ capturedPlane.shapeNames := by
  obtain ⟨k, hk, hnames⟩ : ∃ k, Region.gather capturedPlane [] = .ok k ∧
      k.parameterNames = ["f", "dst", "oy", "ox"] := ⟨_, rfl, rfl⟩
  obtain ⟨classes, name, axes, hclasses, hplan, -, hgenerated⟩ :=
    (generated_names capturedPlane []).1 k hk
  obtain rfl : [AxisClass.free, .free] = classes := Except.ok.inj hclasses
  refine ⟨k, hk, hnames, fun havoid => ?_⟩
  simp only [hplan] at havoid
  have hsame := congrArg (fun p => p.2.flatMap Region.Axis.names) (hgenerated.shape.1 havoid)
  revert hsame
  decide

end GridKernel
