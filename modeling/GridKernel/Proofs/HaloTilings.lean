import Mathlib.Order.Interval.Set.LinearOrder
import GridKernel.Proofs.HaloFaces
import GridKernel.Proofs.HaloWidths

/-! The tiling of an axis by its exchange. Under own widths every array that can be planned is, with one
transfer for each side of each free axis. What the left side receives, the domain and what the right
side receives follow one another and fill the allocation of the axis. -/
namespace GridKernel.Halo

/-- No two of the parts meet, and together they are the whole. -/
def Tiles (parts : List (Set ℚ)) (whole : Set ℚ) : Prop :=
  (parts.Pairwise fun part other => ∀ q ∈ part, q ∉ other) ∧
    ∀ q, q ∈ whole ↔ ∃ part ∈ parts, q ∈ part

theorem tiles_consecutive {p q r s : ℚ} (hpq : p ≤ q) (hqr : q ≤ r) (hrs : r ≤ s) :
    Tiles [Set.Ico p q, Set.Ico q r, Set.Ico r s] (Set.Ico p s) := by
  constructor
  · have hapart : ∀ {b c : ℚ}, b ≤ c → ∀ {a d i}, i ∈ Set.Ico a b → i ∉ Set.Ico c d :=
      fun hbc _ _ _ hi hi' => absurd (hbc.trans hi'.1) (not_le.2 hi.2)
    refine .cons ?_ (.cons ?_ (.cons ?_ .nil))
    · simp only [List.forall_mem_cons]
      exact ⟨fun i => hapart le_rfl, fun i => hapart hqr, by simp⟩
    · simp only [List.forall_mem_cons]
      exact ⟨fun i => hapart le_rfl, by simp⟩
    · simp
  · intro i
    simp only [List.mem_cons, List.not_mem_nil, or_false, exists_eq_or_imp, exists_eq_left,
      ← Set.mem_union]
    rw [Set.Ico_union_Ico_eq_Ico hqr hrs, Set.Ico_union_Ico_eq_Ico hpq (hqr.trans hrs)]

/-- Along an axis a transfer receives the cells from `first` up to `last`, and its buffer has as many
there. -/
def Transfer.Fills (t : Transfer) (axis : Nat) (v : Valuation) (first last : ℚ) : Prop :=
  ∃ offset extent, t.receive[axis]? = some offset ∧ t.buffer.allocated (axis + 1) = .ok extent ∧
    offset.exact v = some first ∧ extent.exact v = some (last - first)

/-- The ends of the halo of a side around a domain of `n` cells. -/
def haloEnds (halo : Extent) (n : ℚ) : Side → ℚ × ℚ
  | .left => (0, halo.left.toNat)
  | .right => (halo.left.toNat + n, halo.left.toNat + n + halo.right.toNat)

variable {a : GridArray} {pins : Pins} {rule : WidthRule} {table : BySide Transfer}
  {classes : List AxisClass} {slot : String} {axes : List Axis} {x y : Axis} {side : Side}
  {t : Transfer} {halo : Extent} {size receive send : Expr} {inner : List BufferAxis}
  {v : Valuation} {n : ℚ}

theorem exact_ofSize {w : UInt64} (h : w.toNat < 2 ^ 63) : (Expr.ofSize w).exact v = some w.toNat := by
  rw [Expr.ofSize, Expr.exact, Word.toInt_of_lt h]
  rfl

/-- A side of its own width receives from the start of its halo on. -/
theorem exact_receive {array : String} {d : Dimension} (hfits : halo.Fits size)
    (hspan : span array d side halo (WidthRule.own.width side halo) size = .ok (receive, send))
    (hn : size.exact v = some n) : receive.exact v = some (haloEnds halo n side).1 := by
  have hwidths := hfits.widths
  cases side with
  | left =>
    obtain ⟨-, rfl, -⟩ := span_left_eq_ok.1 hspan
    have hzero : halo.left - WidthRule.own.width .left halo = 0 :=
      UInt64.sub_self _
    rw [hzero, exact_ofSize (by decide)]
    rfl
  | right =>
    obtain ⟨-, hstop, -⟩ := span_right_eq_ok.1 hspan
    rw [Expr.exact_add hstop, Expr.exact, exact_ofSize (by omega), hn]
    rfl

/-- A side of its own width fills its halo. -/
theorem fills_halo (hnamed : Named a classes slot axes)
    (hlined : Lined a .own slot axes x side t halo size receive send inner) (hx : x ∈ axes)
    (hfree : x.cls.isPinned = false) (hfits : halo.Fits size) (hn : size.exact v = some n) :
    t.Fills x.position v (haloEnds halo n side).1 (haloEnds halo n side).2 := by
  have hinner := inner_at hnamed hlined hx hfree
  have hwidths := hfits.widths
  refine ⟨receive, _, by simp [hlined.receives, hinner], allocated_inner hlined hinner,
    exact_receive hfits hlined.spanned hn, ?_⟩
  cases side with
  | left =>
    refine (exact_ofSize (by simp only [WidthRule.width]; omega)).trans ?_
    simp [haloEnds, WidthRule.width]
  | right =>
    refine (exact_ofSize (by simp only [WidthRule.width]; omega)).trans ?_
    simp [haloEnds, WidthRule.width]

theorem exists_allocated {i : Nat} (hhalo : a.halo[i]? = some halo) (hsize : a.shape[i]? = some size)
    (hfits : halo.Fits size) : ∃ whole, a.allocated i = .ok whole ∧
      ∀ v n, size.exact v = some n →
        whole.exact v = some (halo.left.toNat + n + halo.right.toNat) := by
  have hwidths := hfits.widths
  obtain ⟨w, hw⟩ : ∃ w, Word.addSize halo.left halo.right = .ok w :=
    ⟨_, if_pos (by omega : halo.left.toNat + halo.right.toNat < 2 ^ 64)⟩
  have hsum := Word.size_eq_ok hw
  obtain ⟨whole, hwhole⟩ := Expr.exists_add_ofSize (e := size) (n := w) (by omega) fun k hk => by
    have hliteral := (hfits.literal k hk).1
    omega
  refine ⟨whole, (GridArray.allocated_eq hhalo hsize hw).trans hwhole, fun v n hn => ?_⟩
  have hallocated := (GridArray.allocated_eq hhalo hsize hw).trans hwhole
  rw [GridArray.exact_allocated hhalo hsize hw hallocated, hn, Word.toInt_of_lt (by omega), hsum]
  push_cast
  rw [Option.map_some]
  congr 1
  ring

/-- The entry of an axis and a side, if there are no others of this name and side. -/
theorem BySide.get?_eq_some {α : Type} {table : BySide α} {q : Dimension × Side × α}
    (hq : q ∈ table)
    (hunique : ∀ q' ∈ table, q'.1.name = q.1.name → q'.2.1 = q.2.1 → q' = q) :
    table.get? q.1.name q.2.1 = some q.2.2 := by
  have hget : table.get? q.1.name q.2.1 =
      (table.find? fun e => e.1.name == q.1.name && e.2.1 == q.2.1).map (·.2.2) := rfl
  rw [hget]
  cases hfind : table.find? fun e => e.1.name == q.1.name && e.2.1 == q.2.1 with
  | none => simpa using List.find?_eq_none.1 hfind q hq
  | some q' =>
    have hmatch := List.find?_some hfind
    simp only [Bool.and_eq_true, beq_iff_eq] at hmatch
    rw [hunique q' (List.mem_of_find?_eq_some hfind) hmatch.1 hmatch.2]
    rfl

/-- A table of transfers is looked up by the name of an axis. -/
theorem get?_of_transfers (hnamed : Named a classes slot axes)
    (hdims : (a.dims.map Dimension.name).Nodup) (htable : transfers a rule slot axes = .ok table)
    (hx : x ∈ axes) (hfree : x.cls.isPinned = false) (side : Side) :
    ∃ t, table.get? x.dim.name side = some t ∧ transfer a rule slot axes x side = .ok t := by
  have hentries := entries_of_transfers htable
  have hmem : (x, side) ∈ exchanged axes := mem_exchanged.2 ⟨hx, hfree⟩
  obtain ⟨q, hq, hdim, hside, ht⟩ := forall₂_mem_left hentries hmem
  refine ⟨q.2.2, ?_, ht⟩
  have hget := BySide.get?_eq_some hq fun q' hq' hname hside' => ?_
  · rwa [hdim, hside] at hget
  obtain ⟨p, hp, hdim', hside'', ht'⟩ := forall₂_mem_right hentries hq'
  rw [← hnamed.dims, List.map_map] at hdims
  have haxis : p.1 = x := by
    apply List.inj_on_of_nodup_map hdims (mem_exchanged.1 hp).1 hx
    rwa [hdim', hdim] at hname
  have hp' : p = (x, side) := Prod.ext haxis (by rw [← hside'', hside', hside])
  subst hp'
  have htransfer : q'.2.2 = q.2.2 := Except.ok.inj (ht'.symm.trans ht)
  exact Prod.ext (hdim'.trans hdim.symm) (Prod.ext hside' htransfer)

/-- The entries of a table are both sides of every axis that is not pinned. -/
theorem sides_of_transfers (harranged : Arranged a pins classes slot axes)
    (htable : transfers a rule slot axes = .ok table) :
    table.map (fun q => (q.1, q.2.1)) =
      (a.dims.filter fun d => (pins.find? d.name).isNone).flatMap fun d =>
        Side.all.map fun side => (d, side) := by
  have hsides : table.map (fun q => (q.1, q.2.1)) =
      (exchanged axes).map fun p => (p.1.dim, p.2) := by
    refine map_eq_map_iff_forall₂.2 ((entries_of_transfers htable).flip.imp ?_)
    rintro q p ⟨hdim, hside, -⟩
    rw [hdim, hside]
  have hfree : axes.filter (!·.cls.isPinned) =
      axes.filter ((fun d => (pins.find? d.name).isNone) ∘ Axis.dim) := by
    apply List.filter_congr
    intro x hx
    rw [harranged.named.class_eq harranged.split hx]
    cases hfind : pins.find? x.dim.name <;> simp [hfind, AxisClass.isPinned]
  rw [hsides, exchanged, hfree, ← harranged.named.dims, List.filter_map, List.flatMap_map,
    List.map_flatMap]
  simp only [List.map_map]
  rfl

/-- **The halos and the domain tile the allocation of an axis.** Under own widths an array that can be
planned is, with a transfer for each side of each axis that is not pinned, axes in order and left
before right. Along such an axis what the left side receives, the domain and what the right side
receives follow one another from the start of the allocation to its end. The other axes of the
buffers are the two slots and one cell for each pinned axis. -/
theorem plan_tiles (h : Plannable a pins) :
    ∃ table, plan a pins .own = .ok table ∧
      table.map (fun q => (q.1, q.2.1)) =
        (a.dims.filter fun d => (pins.find? d.name).isNone).flatMap
          (fun d => Side.all.map fun side => (d, side)) ∧
      ∀ i d halo size, FreeAxis a pins i d halo size → ∃ left right whole,
        table.get? d.name .left = some left ∧ table.get? d.name .right = some right ∧
        a.allocated i = .ok whole ∧
        (∀ t ∈ [left, right], t.buffer.allocated 0 = .ok (.int 2) ∧
          ∀ j e, a.dims[j]? = some e → pins.find? e.name ≠ none →
            t.buffer.allocated (j + 1) = .ok (.int 1)) ∧
        ∀ v n, size.exact v = some n → 0 ≤ n → ∃ stop, whole.exact v = some stop ∧
          left.Fills i v 0 halo.left.toNat ∧ right.Fills i v (halo.left.toNat + n) stop ∧
          Tiles [Set.Ico 0 halo.left.toNat, Set.Ico halo.left.toNat (halo.left.toNat + n),
            Set.Ico (halo.left.toNat + n) stop] (Set.Ico 0 stop) := by
  obtain ⟨table, hplan⟩ := h.exists_own_plan
  obtain ⟨classes, slot, axes, harranged⟩ := h.exists_arranged
  have htable := hplan
  rw [harranged.plan] at htable
  refine ⟨table, hplan, sides_of_transfers harranged htable, ?_⟩
  intro i d halo size haxis
  have hfits := h.fits i d halo size haxis
  obtain ⟨x, hx, rfl, rfl⟩ := harranged.named.exists_at haxis.dim
  have hfree := (harranged.named.free_iff harranged.split hx).2 haxis.unpinned
  have hside : ∀ side, ∃ t, table.get? x.dim.name side = some t ∧
      (t.buffer.allocated 0 = .ok (.int 2) ∧
        ∀ j e, a.dims[j]? = some e → pins.find? e.name ≠ none →
          t.buffer.allocated (j + 1) = .ok (.int 1)) ∧
      ∀ v n, size.exact v = some n →
        t.Fills x.position v (haloEnds halo n side).1 (haloEnds halo n side).2 := by
    intro side
    obtain ⟨t, ht, htransfer⟩ :=
      get?_of_transfers harranged.named h.aligned.names htable hx hfree side
    obtain ⟨halo', size', receive, send, inner, hlined⟩ := exists_lined htransfer
    obtain rfl := Option.some.inj (haxis.halo.symm.trans hlined.halo_at)
    obtain rfl := Option.some.inj (haxis.size.symm.trans hlined.shape_at)
    refine ⟨t, ht, ⟨allocated_slots hlined, ?_⟩, fun v n hn =>
      fills_halo harranged.named hlined hx hfree hfits hn⟩
    intro j e he hpinned
    obtain ⟨y, hy, rfl, rfl⟩ := harranged.named.exists_at he
    apply allocated_pinned harranged.named hlined hy
    rw [← Bool.not_eq_false]
    exact mt (harranged.named.free_iff harranged.split hy).1 hpinned
  obtain ⟨left, hleft, hleftAxes, hleftFills⟩ := hside .left
  obtain ⟨right, hright, hrightAxes, hrightFills⟩ := hside .right
  obtain ⟨whole, hwhole, hexact⟩ := exists_allocated haxis.halo haxis.size hfits
  refine ⟨left, right, whole, hleft, hright, hwhole, ?_, fun v n hn hnonneg => ?_⟩
  · simp only [List.mem_cons, List.not_mem_nil, or_false]
    rintro t (rfl | rfl)
    · exact hleftAxes
    · exact hrightAxes
  · have hl : (0 : ℚ) ≤ halo.left.toNat := Nat.cast_nonneg _
    have hr : (0 : ℚ) ≤ halo.right.toNat := Nat.cast_nonneg _
    refine ⟨_, hexact v n hn, hleftFills v n hn, hrightFills v n hn,
      tiles_consecutive hl ?_ ?_⟩
    · linarith
    · linarith

/-- Along the second axis of a plane, its first pinned, two cells, five and one are all eight. -/
theorem plan_tiles_lopsided :
    Plannable lopsided [("x", .int 1)] ∧ ∃ table left right,
      plan lopsided [("x", .int 1)] .own = .ok table ∧
      table.map (fun q => (q.1.name, q.2.1)) = [("y", .left), ("y", .right)] ∧
      table.get? "y" .left = some left ∧ table.get? "y" .right = some right ∧
      left.buffer.allocated 1 = .ok (.int 1) ∧ left.Fills 1 fourCells 0 2 ∧
      right.Fills 1 fourCells 7 8 ∧
      Tiles [Set.Ico 0 2, Set.Ico 2 7, Set.Ico 7 8] (Set.Ico 0 8) := by
  have hplannable : Plannable lopsided [("x", .int 1)] :=
    plannable_lopsided (by simp [lopsided])
  obtain ⟨table, htable, hsides, haxes⟩ := plan_tiles hplannable
  obtain ⟨left, right, whole, hleft, hright, hwhole, hothers, hfills⟩ :=
    haxes 1 ⟨"y", .spatial⟩ ⟨2, 1⟩ (.int 5) ⟨rfl, by decide, rfl, rfl⟩
  obtain ⟨stop, hstop, hleftFills, hrightFills, htiles⟩ :=
    hfills fourCells 5 rfl (by norm_num)
  obtain rfl : .int 8 = whole := Except.ok.inj hwhole
  obtain rfl : 8 = stop := Option.some.inj hstop
  have htwo : ((2 : UInt64).toNat : ℚ) = 2 := rfl
  have hseven : (2 : ℚ) + 5 = 7 := by norm_num
  simp only [htwo, hseven] at hleftFills hrightFills htiles
  refine ⟨hplannable, table, left, right, htable, ?_, hleft, hright, ?_, hleftFills, hrightFills,
    htiles⟩
  · have hnames := congrArg (List.map fun p : Dimension × Side => (p.1.name, p.2)) hsides
    rw [List.map_map] at hnames
    exact hnames
  · exact (hothers left (by simp)).2 0 ⟨"x", .spatial⟩ rfl (by decide)

end GridKernel.Halo
