import GridKernel.Proofs.ExactValues
import GridKernel.Proofs.HaloPlans

/-! The faces that a halo plan moves. Along the axes other than its own a transfer buffer takes the
symbolic extent of the axis, not the extent that the array has there, so it spans the whole face
only where the two agree. -/
namespace GridKernel

/-- The extent of an axis under a valuation is that of the domain, shifted by both halo widths. -/
theorem GridArray.exact_allocated {a : GridArray} {i : Nat} {halo : Extent} {size e : Expr}
    {width : UInt64} (hhalo : a.halo[i]? = some halo) (hsize : a.shape[i]? = some size)
    (hwidth : Word.addSize halo.left halo.right = .ok width) (h : a.allocated i = .ok e)
    (v : Valuation) :
    e.exact v = (size.exact v).map (· + (width.toInt64.toInt : ℚ)) := by
  obtain ⟨halo', size', width', hhalo', hsize', hwidth', h⟩ := allocated_eq_ok.1 h
  obtain rfl := Option.some.inj (hhalo.symm.trans hhalo')
  obtain rfl := Option.some.inj (hsize.symm.trans hsize')
  obtain rfl := Except.ok.inj (hwidth.symm.trans hwidth')
  rw [Expr.exact_add h]
  cases hv : size.exact v <;> simp [Expr.exact, hv, BinaryOp.exact, Expr.ofSize]

namespace Halo

variable {a : GridArray} {pins : Pins} {rule : WidthRule} {table : BySide Transfer}
  {q : Dimension × Side × Transfer} {slot : String} {axes : List Axis}
  {classes : List AxisClass} {x y : Axis} {side : Side} {t : Transfer} {halo : Extent}
  {size receive send : Expr} {inner : List BufferAxis}

/-- Along a free axis that is not its own a side moves the axis itself, with its halo. -/
theorem inner_across (hnamed : Named a classes slot axes)
    (hlined : Lined a rule slot axes x side t halo size receive send inner) (hy : y ∈ axes)
    (hfree : y.cls = .free) (hne : y.position ≠ x.position) :
    ∃ width, a.halo[y.position]? = some width ∧
      inner[y.position]? = some ⟨y.dim, width, .int 0, .int 0⟩ := by
  obtain ⟨b, hinner, hb⟩ := axis_at hnamed hlined hy
  unfold bufferAxis at hb
  simp only [hfree, beq_eq_false_iff_ne.2 hne, Bool.false_eq_true, if_false] at hb
  obtain ⟨width, hwidth, hb⟩ := bind_eq_ok.1 hb
  obtain rfl := Except.ok.inj hb
  exact ⟨width, entryAt_eq_ok.1 hwidth, hinner⟩

/-- The axis at a position that is not pinned. -/
theorem Planned.free_at (h : Planned a pins rule q classes slot axes x) {j : Nat} {d : Dimension}
    (hd : a.dims[j]? = some d) (hpin : pins.find? d.name = none) :
    ∃ y ∈ axes, y.position = j ∧ y.dim = d ∧ y.cls = .free := by
  obtain ⟨y, hy, hposition, rfl⟩ := h.named.exists_at hd
  refine ⟨y, hy, hposition, rfl, ?_⟩
  rw [h.named.class_eq h.split hy, hpin]
  rfl

/-- Along an axis that a side moves whole, the buffer's cells and the array's have one index, from
zero up to the extent of the buffer. -/
theorem moveAxis_across {j : Nat} {d : Dimension} {width : Extent}
    (hlined : Lined a rule slot axes x side t halo size receive send inner)
    (hinner : inner[j]? = some ⟨d, width, .int 0, .int 0⟩) (direction : Direction) {face : Expr}
    (hface : t.buffer.allocated (j + 1) = .ok face) :
    moveAxis t direction j .free = .ok (.dim d, .dim d, some ⟨d, .upTo face, [], .parallel⟩) := by
  have hdim : entryAt t.buffer.dims (j + 1) = .ok d := by
    rw [entryAt_eq_ok, hlined.buffer]
    simp [hinner]
  have hoffset : entryAt (direction.offsets t) j = .ok (.int 0) := by
    rw [entryAt_eq_ok]
    cases direction with
    | pack => simp [Direction.offsets, hlined.sends, hinner]
    | unpack => simp [Direction.offsets, hlined.receives, hinner]
  unfold moveAxis
  simp only [hdim, hoffset, hface, ok_bind]
  rfl

/-- **A plan moves whole faces exactly where the extents of axes are the array's.** Along every free
axis but its own, the buffer of a side is allocated as the array would be if its domain had the
symbolic extent of the axis. The two allocations are the same where the array has that extent, and
under a valuation they have the same value if and only if the two extents do; both kernels move the
cells from zero up to the allocation of the buffer. -/
theorem plan_faces_iff (h : plan a pins rule = .ok table) (hq : q ∈ table) :
    ∃ i : Nat, a.dims[i]? = some q.1 ∧ ∀ (j : Nat) (d : Dimension) (size : Expr), j ≠ i →
      a.dims[j]? = some d → pins.find? d.name = none → a.shape[j]? = some size →
      (d.extent = size → q.2.2.buffer.allocated (j + 1) = a.allocated j) ∧
      ∀ face whole, q.2.2.buffer.allocated (j + 1) = .ok face → a.allocated j = .ok whole →
        (∀ v : Valuation, face.exact v = whole.exact v ↔ d.extent.exact v = size.exact v) ∧
        ∀ direction, moveAxis q.2.2 direction j .free =
          .ok (.dim d, .dim d, some ⟨d, .upTo face, [], .parallel⟩) := by
  obtain ⟨classes, slot, axes, x, hplanned⟩ := exists_planned h hq
  obtain ⟨halo, own, receive, send, inner, hlined⟩ := exists_lined hplanned.transfer
  refine ⟨x.position, hplanned.unpinned.1, fun j d size hne hd hpin hsize => ?_⟩
  obtain ⟨y, hy, rfl, rfl, hfree⟩ := hplanned.free_at hd hpin
  obtain ⟨width, hhalo, hinner⟩ := inner_across hplanned.named hlined hy hfree hne
  have hhalo' : q.2.2.buffer.halo[y.position + 1]? = some width := by
    simp [hlined.buffer, hinner]
  have hsize' : q.2.2.buffer.shape[y.position + 1]? = some y.dim.extent := by
    simp [hlined.buffer, hinner]
  constructor
  · rintro rfl
    unfold GridArray.allocated
    simp only [entryAt, hhalo, hhalo', hsize, hsize']
  · intro face whole hface hwhole
    refine ⟨fun v => ?_, fun direction => moveAxis_across hlined hinner direction hface⟩
    obtain ⟨width', size', n, hhalo'', -, hn, -⟩ := GridArray.allocated_eq_ok.1 hwhole
    obtain rfl := Option.some.inj (hhalo.symm.trans hhalo'')
    rw [GridArray.exact_allocated hhalo' hsize' hn hface,
      GridArray.exact_allocated hhalo hsize hn hwhole]
    exact (Option.map_injective (add_left_injective _)).eq_iff

/-- A rectangle over two axes of the grid whose domain is given by numbers. -/
def rectangle : GridArray :=
  ⟨"f", .float64, [⟨"x", .spatial⟩, ⟨"y", .spatial⟩], [.int 4, .int 5], [⟨1, 1⟩, ⟨1, 1⟩],
    .external⟩

/-- Each axis of the grid has four cells. -/
def fourCells : Valuation :=
  ⟨fun _ => none, fun _ => none, fun _ => none, fun _ => some 4, fun _ _ => none⟩

theorem plan_faces_iff_rectangle :
    ∃ table q face whole, plan rectangle [] .own = .ok table ∧ q ∈ table ∧ q.1.name = "x" ∧
      q.2.2.buffer.allocated 2 = .ok face ∧ rectangle.allocated 1 = .ok whole ∧
      face.exact fourCells ≠ whole.exact fourCells := by
  have hfirst : (fun table => (table.head?.map fun q => q.1.name,
      table.head?.map fun q => q.2.2.buffer.allocated 2)) <$> plan rectangle [] .own =
        .ok (some "x", some (.ok (.binary .add (.size "y") (.int 2)))) := rfl
  have hwhole : rectangle.allocated 1 = .ok (.int 7) := rfl
  obtain ⟨table, htable, hfirst⟩ := map_eq_ok.1 hfirst
  obtain ⟨hname, hface⟩ := Prod.mk.inj hfirst
  obtain ⟨q, hq, hname⟩ := Option.map_eq_some_iff.1 hname
  rw [hq, Option.map_some] at hface
  have hface := Option.some.inj hface
  have hmem := List.mem_of_head? hq
  refine ⟨table, q, _, _, htable, hmem, hname, hface, hwhole, ?_⟩
  obtain ⟨i, hi, hfaces⟩ := plan_faces_iff htable hmem
  have hne : 1 ≠ i := by
    rintro rfl
    rw [← Option.some.inj hi] at hname
    exact absurd hname (by decide)
  obtain ⟨-, hboth⟩ := hfaces 1 ⟨"y", .spatial⟩ (.int 5) hne rfl rfl rfl
  rw [Ne, (hboth _ _ hface hwhole).1 fourCells]
  simp [Dimension.extent, Expr.exact, fourCells]

end Halo

end GridKernel
