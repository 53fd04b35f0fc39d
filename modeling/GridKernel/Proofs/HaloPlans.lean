import GridKernel.Proofs.HaloFootprints

/-! The regions that a halo plan sends. The width of a side is checked against the halo it fills,
never against the domain it is taken from, so a domain narrower than that width is sent together
with cells of the halo behind it. -/
namespace GridKernel.Halo

/-- What an entry of a plan consists of: the transfer of one side of the free axis `x`. -/
structure Planned (a : GridArray) (pins : Pins) (rule : WidthRule)
    (q : Dimension × Side × Transfer) (classes : List AxisClass) (slot : String)
    (axes : List Axis) (x : Axis) : Prop where
  split : splitAxes a.dims pins = .ok classes
  named : Named a classes slot axes
  mem : x ∈ axes
  free : x.cls.isPinned = false
  dim : q.1 = x.dim
  transfer : transfer a rule slot axes x q.2.1 = .ok q.2.2

variable {a : GridArray} {pins : Pins} {rule : WidthRule} {table : BySide Transfer}
  {q : Dimension × Side × Transfer}

theorem exists_planned (h : plan a pins rule = .ok table) (hq : q ∈ table) :
    ∃ classes slot axes x, Planned a pins rule q classes slot axes x := by
  unfold plan at h
  obtain ⟨classes, hclasses, h⟩ := bind_eq_ok.1 h
  rcases haxes : Halo.axes a classes with ⟨slot, axes⟩
  simp only [haxes] at h
  obtain ⟨⟨x, side⟩, hx, hdim, rfl, ht⟩ := forall₂_mem_right (entries_of_transfers h) hq
  obtain ⟨hmem, hfree⟩ := mem_exchanged.1 hx
  exact ⟨classes, slot, axes, x, hclasses, named (length_of_splitAxes hclasses) haxes, hmem, hfree,
    hdim, ht⟩

theorem classes_of_splitAxes {dims : List Dimension} {classes : List AxisClass}
    (h : splitAxes dims pins = .ok classes) :
    classes = dims.map fun d => ((pins.find? d.name).map AxisClass.pinned).getD .free := by
  unfold splitAxes at h
  split at h
  · cases h
  · exact (Except.ok.inj h).symm

variable {classes : List AxisClass} {slot : String} {axes : List Axis} {x : Axis}

/-- The class of each axis of an exchange tells whether it is pinned. -/
theorem Named.class_eq (h : Named a classes slot axes) (hsplit : splitAxes a.dims pins = .ok classes)
    (hx : x ∈ axes) : x.cls = ((pins.find? x.dim.name).map AxisClass.pinned).getD .free := by
  obtain ⟨i, hi⟩ := List.getElem?_of_mem hx
  have hcls : classes[i]? = some x.cls := by
    rw [← h.cls, List.getElem?_map, hi]
    rfl
  have hdim : a.dims[i]? = some x.dim := by
    rw [← h.dims, List.getElem?_map, hi]
    rfl
  rw [classes_of_splitAxes hsplit, List.getElem?_map, hdim] at hcls
  exact (Option.some.inj hcls).symm

theorem Named.free_iff (h : Named a classes slot axes) (hsplit : splitAxes a.dims pins = .ok classes)
    (hx : x ∈ axes) : x.cls.isPinned = false ↔ pins.find? x.dim.name = none := by
  rw [h.class_eq hsplit hx]
  cases pins.find? x.dim.name <;> simp [AxisClass.isPinned]

/-- Every axis of the array is one of the exchange. -/
theorem Named.exists_at (h : Named a classes slot axes) {i : Nat} {d : Dimension}
    (hd : a.dims[i]? = some d) : ∃ x ∈ axes, x.position = i ∧ x.dim = d := by
  rw [← h.dims, List.getElem?_map] at hd
  obtain ⟨x, hx, rfl⟩ := Option.map_eq_some_iff.1 hd
  exact ⟨x, List.mem_of_getElem? hx, h.position i x hx, rfl⟩

/-- The axis of an entry is one of the array's that is not pinned. -/
theorem Planned.unpinned (h : Planned a pins rule q classes slot axes x) :
    a.dims[x.position]? = some q.1 ∧ pins.find? q.1.name = none := by
  rw [h.dim]
  exact ⟨h.named.dim_at h.mem, (h.named.free_iff h.split h.mem).1 h.free⟩

/-- The cells of a domain of `n` cells behind a halo, counted from the start of the allocation. -/
def owned (halo : Extent) (n : Int64) : Set ℤ :=
  {i | halo.left.toNat ≤ i ∧ i < halo.left.toNat + n.toInt}

/-- The cells that a side of a given width sends from an offset on. -/
def sent (offset : Int64) (width : UInt64) : Set ℤ :=
  {i | offset.toInt ≤ i ∧ i < offset.toInt + width.toNat}

theorem sent_subset_owned {offset n : Int64} {width : UInt64} {halo : Extent} :
    sent offset width ⊆ owned halo n ↔ width = 0 ∨
      halo.left.toNat ≤ offset.toInt ∧ offset.toInt + width.toNat ≤ halo.left.toNat + n.toInt := by
  rw [← UInt64.toNat_inj, UInt64.toNat_zero]
  constructor
  · intro h
    by_cases hw : width.toNat = 0
    · exact .inl hw
    · -- The first and the last cell sent tell where the others are.
      obtain ⟨hfirst, -⟩ := h (show offset.toInt ∈ sent offset width from ⟨by omega, by omega⟩)
      obtain ⟨-, hlast⟩ := h (show offset.toInt + width.toNat - 1 ∈ sent offset width from
        ⟨by omega, by omega⟩)
      exact .inr ⟨hfirst, by omega⟩
  · rintro (hw | ⟨hfirst, hlast⟩) i ⟨hlow, hhigh⟩
    · omega
    · exact ⟨by omega, by omega⟩

/-- With an integer size, the left side sends from the start of the domain on and the right side
up to its end, each as a signed word. -/
theorem send_of_span {array : String} {d : Dimension} {side : Side} {halo : Extent}
    {width : UInt64} {n : Int64} {receive send : Expr}
    (h : span array d side halo width (.int n) = .ok (receive, send)) :
    ∃ offset, send = .int offset ∧ offset.toInt = match side with
      | .left => halo.left.toInt64.toInt
      | .right => halo.left.toInt64.toInt + n.toInt - width.toInt64.toInt := by
  cases side with
  | left =>
    obtain ⟨-, -, rfl⟩ := span_left_eq_ok.1 h
    exact ⟨_, rfl, rfl⟩
  | right =>
    obtain ⟨-, hreceive, hsend⟩ := span_right_eq_ok.1 h
    obtain ⟨last, hlast, rfl⟩ := map_eq_ok.1 hreceive
    obtain ⟨offset, hoffset, rfl⟩ := map_eq_ok.1 hsend
    refine ⟨offset, rfl, ?_⟩
    rw [Word.sub_eq_ok hoffset, Word.add_eq_ok hlast]

/-- The start of the domain is a signed word as long as it is below 2^63; from there on it is
negative and outside the allocation. -/
theorem sent_owned_iff {array : String} {d : Dimension} {side : Side} {halo : Extent}
    {width : UInt64} {n offset : Int64} {receive : Expr}
    (h : span array d side halo width (.int n) = .ok (receive, .int offset)) :
    sent offset width ⊆ owned halo n ↔
      width = 0 ∨ width.toNat ≤ n.toInt ∧ halo.left.toNat < 2 ^ 63 := by
  obtain ⟨_, hsend, hoffset⟩ := send_of_span h
  obtain rfl := Expr.int.inj hsend
  have hleft := Word.toInt_toInt64 halo.left
  have hwidth := Word.toInt_toInt64 width
  have hn := n.toInt_lt
  have hwidth' := width.toNat_lt
  have hleft' := halo.left.toNat_lt
  rw [sent_subset_owned]
  refine or_congr_right ?_
  cases side with
  | left =>
    rw [hoffset, hleft]
    split <;> omega
  | right =>
    rw [hoffset, hleft, hwidth]
    split <;> split <;> omega

/-- **What a plan sends lies in the domain exactly when the width fits it.** For integer sizes, the
cells sent along the own axis of a side are cells of the domain if and only if nothing is sent or
the width is at most the size, the left halo being a signed word. -/
theorem plan_sends_owned_iff (h : plan a pins rule = .ok table) (hq : q ∈ table)
    (hsizes : ∀ e ∈ a.shape, ∃ n, e = .int n) :
    ∃ (i : Nat) (halo : Extent) (n offset : Int64),
      a.dims[i]? = some q.1 ∧ pins.find? q.1.name = none ∧
      a.halo[i]? = some halo ∧ a.shape[i]? = some (.int n) ∧
      q.2.2.send[i]? = some (.int offset) ∧
      q.2.2.buffer.shape[i + 1]? = some (.ofSize (rule.width q.2.1 halo)) ∧
      (sent offset (rule.width q.2.1 halo) ⊆ owned halo n ↔ rule.width q.2.1 halo = 0 ∨
        (rule.width q.2.1 halo).toNat ≤ n.toInt ∧ halo.left.toNat < 2 ^ 63) := by
  obtain ⟨classes, slot, axes, x, hplanned⟩ := exists_planned h hq
  obtain ⟨halo, size, receive, send, inner, hlined⟩ := exists_lined hplanned.transfer
  obtain ⟨n, rfl⟩ := hsizes size (List.mem_of_getElem? hlined.shape_at)
  have hspan := hlined.spanned
  obtain ⟨offset, rfl, -⟩ := send_of_span hspan
  have hinner := inner_at hplanned.named hlined hplanned.mem hplanned.free
  obtain ⟨hdim, hfree⟩ := hplanned.unpinned
  refine ⟨x.position, halo, n, offset, hdim, hfree, hlined.halo_at, hlined.shape_at, ?_, ?_,
    sent_owned_iff hspan⟩
  · rw [hlined.sends, List.getElem?_map, hinner]
    rfl
  · rw [hlined.buffer]
    simp [hinner, Dimension.extent]

/-- A domain of one cell between halos of two. -/
def narrow : GridArray :=
  ⟨"f", .float64, [⟨"x", .sized (.int 1)⟩], [.int 1], [⟨2, 2⟩], .external⟩

theorem plan_sends_owned_iff_narrow :
    ∃ table q offset, plan narrow [] .own = .ok table ∧ q ∈ table ∧ q.2.1 = .left ∧
      q.2.2.send[0]? = some (.int offset) ∧ ¬ sent offset 2 ⊆ owned ⟨2, 2⟩ 1 := by
  have hsides : (List.map fun q => q.2.1) <$> plan narrow [] .own = .ok [.left, .right] := rfl
  obtain ⟨table, htable, hsides⟩ := map_eq_ok.1 hsides
  obtain ⟨q, rest, rfl, hq, -⟩ := List.map_eq_cons_iff.1 hsides
  have hsizes : ∀ e ∈ narrow.shape, ∃ n, e = .int n := by simp [narrow]
  obtain ⟨i, halo, n, offset, hdim, -, hhalo, hn, hsend, -, hiff⟩ :=
    plan_sends_owned_iff htable List.mem_cons_self hsizes
  obtain rfl : i = 0 := by
    have hi := (List.getElem?_eq_some_iff.1 hdim).1
    simpa [narrow] using hi
  obtain rfl : ⟨2, 2⟩ = halo := Option.some.inj hhalo
  obtain rfl : 1 = n := Expr.int.inj (Option.some.inj hn)
  refine ⟨_, q, offset, htable, List.mem_cons_self, hq, hsend, ?_⟩
  rw [hq] at hiff
  exact fun hsub => absurd (hiff.1 hsub) (by decide)

end GridKernel.Halo
