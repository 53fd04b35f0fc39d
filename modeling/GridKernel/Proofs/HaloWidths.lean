import GridKernel.Proofs.HaloPlans
import GridKernel.Proofs.ListAccess
import GridKernel.Proofs.Words

/-! The widths that a halo plan can serve. The transfer of a side exists exactly when its width is at
most the halo that it fills; nothing else stops the planning of an array with valid names. Exchanged
widths fit both sides of an axis only where they are equal. -/
namespace GridKernel

/-- The sums of a domain and of the widths around it are signed words. Their difference is one too
unless the domain is a negative literal, so its bound asks nothing else of a size. -/
structure Extent.Fits (halo : Extent) (size : Expr) : Prop where
  widths : halo.left.toNat + halo.right.toNat < 2 ^ 63
  literal : ∀ n, size = .int n → halo.left.toNat + n.toInt + halo.right.toNat < 2 ^ 63 ∧
    -2 ^ 63 ≤ halo.left.toNat + n.toInt - halo.right.toNat

namespace Expr

variable {e : Expr} {n : UInt64}

theorem exists_add_ofSize (hn : n.toNat < 2 ^ 63)
    (h : ∀ k, e = .int k → k.toInt + n.toNat < 2 ^ 63) : ∃ f, e.add (.ofSize n) = .ok f := by
  have hnonneg := Word.toInt64_nonneg hn
  cases e with
  | int k =>
    have hlow := k.le_toInt
    have hsum := h k rfl
    have hword := Word.toInt_of_lt hn
    exact ⟨_, map_eq_ok.2 ⟨_, Word.int_eq ⟨by omega, by omega⟩, rfl⟩⟩
  | _ =>
    simp only [add, ofSize, hnonneg]
    split <;> simp

theorem exists_sub_ofSize (hn : n.toNat < 2 ^ 63)
    (h : ∀ k, e = .int k → -2 ^ 63 ≤ k.toInt - n.toNat) : ∃ f, e.sub (.ofSize n) = .ok f := by
  have hnonneg := Word.toInt64_nonneg hn
  cases e with
  | int k =>
    have hhigh := k.toInt_lt
    have hdifference := h k rfl
    have hword := Word.toInt_of_lt hn
    exact ⟨_, map_eq_ok.2 ⟨_, Word.int_eq ⟨by omega, by omega⟩, rfl⟩⟩
  | _ =>
    simp only [sub, ofSize, hnonneg]
    split <;> simp

/-- A size before an expression is added to a literal, or stays a sum that is no literal. -/
theorem exists_ofSize_add (hn : n.toNat < 2 ^ 63)
    (h : ∀ k, e = .int k → n.toNat + k.toInt < 2 ^ 63) :
    ∃ f, (ofSize n).add e = .ok f ∧
      ∀ j, f = .int j → ∃ k, e = .int k ∧ j.toInt = n.toNat + k.toInt := by
  cases e with
  | int k =>
    have hlow := k.le_toInt
    have hsum := h k rfl
    have hword := Word.toInt_of_lt hn
    obtain ⟨j, hj⟩ : ∃ j, Word.add n.toInt64 k = .ok j :=
      ⟨_, Word.int_eq ⟨by omega, by omega⟩⟩
    refine ⟨.int j, map_eq_ok.2 ⟨j, hj, rfl⟩, ?_⟩
    rintro _ ⟨⟩
    exact ⟨k, rfl, by rw [Word.add_eq_ok hj, hword]⟩
  | _ =>
    refine ⟨_, rfl, fun j hj => ?_⟩
    split at hj <;> cases hj

end Expr

namespace Halo

variable {array : String} {d : Dimension} {side : Side} {halo : Extent} {width : UInt64}
  {size : Expr}

/-- A width up to the halo of its side has offsets. -/
theorem exists_span (hfits : halo.Fits size) (hwidth : width ≤ WidthRule.own.width side halo) :
    ∃ receive send, span array d side halo width size = .ok (receive, send) := by
  have hwidths := hfits.widths
  have hle : width.toNat ≤ (WidthRule.own.width side halo).toNat := hwidth
  cases side with
  | left => exact ⟨_, _, span_left_eq_ok.2 ⟨hwidth, rfl, rfl⟩⟩
  | right =>
    have hright : width.toNat ≤ halo.right.toNat := hle
    obtain ⟨stop, hstop, hliteral⟩ := Expr.exists_ofSize_add (n := halo.left) (by omega)
      fun k hk => by have hsum := (hfits.literal k hk).1; omega
    obtain ⟨send, hsend⟩ := Expr.exists_sub_ofSize (e := stop) (n := width) (by omega) fun j hj => by
      obtain ⟨k, hk, hsum⟩ := hliteral j hj
      have hdifference := (hfits.literal k hk).2
      omega
    exact ⟨stop, send, span_right_eq_ok.2 ⟨hwidth, hstop, hsend⟩⟩

theorem span_of_lt (h : WidthRule.own.width side halo < width) :
    span array d side halo width size = refuse (.haloExceeded side d.name array width.toNat
      (WidthRule.own.width side halo).toNat) := by
  cases side with
  | left => exact if_pos h
  | right => exact if_pos h

/-- An axis of an array that takes part in an exchange. -/
structure FreeAxis (a : GridArray) (pins : Pins) (i : Nat) (d : Dimension) (halo : Extent)
    (size : Expr) : Prop where
  dim : a.dims[i]? = some d
  unpinned : pins.find? d.name = none
  halo : a.halo[i]? = some halo
  size : a.shape[i]? = some size

/-- An array with valid names and pinned axes of its own, whose sums fit words. -/
structure Plannable (a : GridArray) (pins : Pins) : Prop where
  aligned : a.Aligned
  valid : ∀ d ∈ a.dims, Identifier.isValid d.name
  pinned : ∀ p ∈ pins, p.1 ∈ a.dims.map Dimension.name
  fits : ∀ i d halo size, FreeAxis a pins i d halo size → halo.Fits size

variable {a : GridArray} {pins : Pins} {rule : WidthRule} {classes : List AxisClass}
  {slot : String} {axes : List Axis} {x : Axis} {receive send : Expr}

theorem splitAxes_of_known {dims : List Dimension}
    (h : ∀ p ∈ pins, p.1 ∈ dims.map Dimension.name) :
    ∃ classes, splitAxes dims pins = .ok classes := by
  have hnone : unknownName? dims (pins.map Prod.fst) = none := by
    have hknown : (pins.map Prod.fst).filter (fun n => !(dims.map Dimension.name).contains n) = [] := by
      rw [List.filter_eq_nil_iff]
      intro n hn
      obtain ⟨p, hp, rfl⟩ := List.mem_map.1 hn
      simpa using h p hp
    rw [unknownName?, hknown, leastName]
  exact ⟨_, by rw [splitAxes, hnone]⟩

/-- The axes of an array, as its exchanges have them. -/
structure Arranged (a : GridArray) (pins : Pins) (classes : List AxisClass) (slot : String)
    (axes : List Axis) : Prop where
  split : splitAxes a.dims pins = .ok classes
  named : Named a classes slot axes
  plan : ∀ rule, plan a pins rule = transfers a rule slot axes

theorem Plannable.exists_arranged (h : Plannable a pins) :
    ∃ classes slot axes, Arranged a pins classes slot axes := by
  obtain ⟨classes, hclasses⟩ := splitAxes_of_known h.pinned
  rcases haxes : Halo.axes a classes with ⟨slot, axes⟩
  refine ⟨classes, slot, axes, hclasses, named (length_of_splitAxes hclasses) haxes, fun rule => ?_⟩
  simp only [Halo.plan, hclasses, ok_bind, haxes]

theorem Arranged.freeAxis (h : Arranged a pins classes slot axes) (ha : a.Aligned) (hx : x ∈ axes)
    (hfree : x.cls.isPinned = false) :
    ∃ halo size, FreeAxis a pins x.position x.dim halo size := by
  have hdim := h.named.dim_at hx
  obtain ⟨halo, size, hhalo, hsize⟩ := ha.entries (List.getElem?_eq_some_iff.1 hdim).1
  exact ⟨halo, size, hdim, (h.named.free_iff h.split hx).1 hfree, hhalo, hsize⟩

theorem exists_inner (ha : a.Aligned) (hvalid : ∀ d ∈ a.dims, Identifier.isValid d.name)
    (hnamed : Named a classes slot axes) (x : Axis) (width : UInt64) (receive send : Expr) :
    ∃ inner, axes.mapM (fun y => bufferAxis a y (y.position == x.position) width receive send) =
        .ok inner ∧ inner.map (fun b => b.dim.name) = axes.map x.bufferName := by
  have hone : ∀ y ∈ axes, ∃ b, bufferAxis a y (y.position == x.position) width receive send = .ok b ∧
      x.bufferName y = b.dim.name := by
    intro y hy
    have hdim := hnamed.dim_at hy
    have hwidth := hnamed.width_valid y hy (hvalid y.dim (List.mem_of_getElem? hdim))
    obtain ⟨halo, size, hhalo, -⟩ := ha.entries (List.getElem?_eq_some_iff.1 hdim).1
    unfold bufferAxis Axis.bufferName
    cases hcls : y.cls with
    | pinned index =>
      simp only [sized_eq_ok hwidth, ok_bind]
      exact ⟨_, rfl, by simp [AxisClass.isPinned]⟩
    | free =>
      by_cases hposition : y.position = x.position
      · simp only [hposition, beq_self_eq_true, if_true, sized_eq_ok hwidth, ok_bind]
        exact ⟨_, rfl, by simp⟩
      · simp only [beq_eq_false_iff_ne.2 hposition, entryAt_eq_ok.2 hhalo, ok_bind]
        exact ⟨_, rfl, by simp [hposition, AxisClass.isPinned]⟩
  obtain ⟨inner, hinner⟩ := exists_forall₂ hone
  refine ⟨inner, mapM_eq_ok.2 (hinner.imp fun _ _ hb => hb.1), ?_⟩
  exact (map_eq_map_iff_forall₂.2 (hinner.imp fun _ _ hb => hb.2)).symm

/-- The transfer of a side stops where its offsets do. -/
theorem transfer_of_refused (hhalo : a.halo[x.position]? = some halo)
    (hsize : a.shape[x.position]? = some size) {c : Cause}
    (hspan : span a.name x.dim side halo (rule.width side halo) size = refuse c) :
    transfer a rule slot axes x side = refuse c := by
  unfold transfer
  simp only [entryAt_eq_ok.2 hhalo, entryAt_eq_ok.2 hsize, ok_bind, hspan]
  rfl

/-- A side has a transfer as long as its width is at most the halo that it fills. -/
theorem Plannable.exists_transfer (h : Plannable a pins) (hnamed : Named a classes slot axes)
    (hx : FreeAxis a pins x.position x.dim halo size)
    (hwidth : rule.width side halo ≤ WidthRule.own.width side halo) :
    ∃ t, transfer a rule slot axes x side = .ok t := by
  obtain ⟨receive, send, hspan⟩ := exists_span (h.fits _ _ _ _ hx) hwidth
  obtain ⟨inner, hinner, hnames⟩ :=
    exists_inner h.aligned h.valid hnamed x (rule.width side halo) receive send
  exact ⟨_, transfer_of_inner hnamed hx.halo hx.size hspan hinner hnames h.aligned.names⟩

theorem width_le_of_transfer (hhalo : a.halo[x.position]? = some halo) {t : Transfer}
    (ht : transfer a rule slot axes x side = .ok t) :
    rule.width side halo ≤ WidthRule.own.width side halo := by
  obtain ⟨halo', size, receive, send, inner, hlined⟩ := exists_lined ht
  obtain rfl := Option.some.inj (hhalo.symm.trans hlined.halo_at)
  have hspan := hlined.spanned
  rw [← UInt64.not_lt]
  intro hlt
  rw [span_of_lt hlt] at hspan
  cases hspan

theorem exists_transfers (h : ∀ p ∈ exchanged axes, ∃ t, transfer a rule slot axes p.1 p.2 = .ok t) :
    ∃ table, transfers a rule slot axes = .ok table := by
  have hentries : ∀ p ∈ exchanged axes, ∃ q : Dimension × Side × Transfer,
      (do return (p.1.dim, p.2, ← transfer a rule slot axes p.1 p.2)) = Except.ok q := by
    intro p hp
    obtain ⟨t, ht⟩ := h p hp
    exact ⟨_, by rw [ht]; rfl⟩
  obtain ⟨table, htable⟩ := exists_forall₂ hentries
  exact ⟨table, mapM_eq_ok.2 htable⟩

/-- A table stops at the first side without a transfer. -/
theorem transfers_eq_error {f : Fault} (h : transfers a rule slot axes = .error f) :
    ∃ before p after, exchanged axes = before ++ p :: after ∧
      (∀ q ∈ before, ∃ t, transfer a rule slot axes q.1 q.2 = .ok t) ∧
      transfer a rule slot axes p.1 p.2 = .error f := by
  obtain ⟨before, p, after, hsplit, hbefore, hp⟩ := mapM_eq_error.1 h
  refine ⟨before, p, after, hsplit, ?_, ?_⟩
  · intro q hq
    obtain ⟨_, hok⟩ := hbefore q hq
    obtain ⟨t, ht, -⟩ := bind_eq_ok.1 hok
    exact ⟨t, ht⟩
  · rcases bind_eq_error.1 hp with hp | ⟨t, -, hp⟩
    · exact hp
    · cases hp

/-- A plan exists where all widths are at most the halos that they fill. -/
theorem Plannable.exists_plan (h : Plannable a pins)
    (hwidths : ∀ i d halo size, FreeAxis a pins i d halo size →
      ∀ side, rule.width side halo ≤ WidthRule.own.width side halo) :
    ∃ table, plan a pins rule = .ok table := by
  obtain ⟨classes, slot, axes, harranged⟩ := h.exists_arranged
  rw [harranged.plan]
  apply exists_transfers
  intro p hp
  obtain ⟨hmem, hfree⟩ := mem_exchanged.1 hp
  obtain ⟨halo, size, hx⟩ := harranged.freeAxis h.aligned hmem hfree
  exact h.exists_transfer harranged.named hx (hwidths _ _ _ _ hx p.2)

theorem Plannable.exists_own_plan (h : Plannable a pins) : ∃ table, plan a pins .own = .ok table :=
  h.exists_plan fun _ _ _ _ _ _ => UInt64.le_refl _

/-- The sides of the axes taking part come in the order of the axes. -/
theorem Named.exchanged_sorted (h : Named a classes slot axes) :
    (exchanged axes).Pairwise fun p q => p.1.position ≤ q.1.position := by
  have hsorted : axes.Pairwise fun x y => x.position ≤ y.position := by
    rw [List.pairwise_iff_getElem]
    intro i j hi hj hij
    rw [h.position i _ (List.getElem?_eq_getElem hi), h.position j _ (List.getElem?_eq_getElem hj)]
    exact hij.le
  refine List.pairwise_flatMap.2 ⟨fun x _ => ?_, (hsorted.filter _).imp fun {x y} hxy p hp q hq => ?_⟩
  · simp [Side.all]
  · obtain ⟨s, -, rfl⟩ := List.mem_map.1 hp
    obtain ⟨t, -, rfl⟩ := List.mem_map.1 hq
    exact hxy

theorem Named.mem_before (h : Named a classes slot axes) {p q : Axis × Side}
    {before after : List (Axis × Side)} (hsplit : exchanged axes = before ++ p :: after)
    (hq : q ∈ exchanged axes) (hlt : q.1.position < p.1.position) : q ∈ before := by
  have hsorted := h.exchanged_sorted
  rw [hsplit] at hq hsorted
  obtain ⟨-, hafter, -⟩ := List.pairwise_append.1 hsorted
  rcases List.mem_append.1 hq with hq | hq
  · exact hq
  rcases List.mem_cons.1 hq with rfl | hq
  · exact absurd hlt (lt_irrefl _)
  · exact absurd hlt (Nat.not_lt.2 ((List.pairwise_cons.1 hafter).1 _ hq))

/-- Every axis that takes part has halos of equal widths. -/
def Even (a : GridArray) (pins : Pins) : Prop :=
  ∀ i d halo size, FreeAxis a pins i d halo size → halo.left = halo.right

theorem width_of_even {side : Side} (h : halo.left = halo.right) :
    WidthRule.opposite.width side halo = WidthRule.own.width side halo := by
  cases side with
  | left => exact h.symm
  | right => exact h

theorem even_of_widths
    (h : ∀ side, WidthRule.opposite.width side halo ≤ WidthRule.own.width side halo) :
    halo.left = halo.right :=
  UInt64.le_antisymm (h .right) (h .left)

theorem transfer_congr {rule' : WidthRule} (hhalo : a.halo[x.position]? = some halo)
    (hwidth : rule.width side halo = rule'.width side halo) :
    transfer a rule slot axes x side = transfer a rule' slot axes x side := by
  unfold transfer
  simp only [entryAt_eq_ok.2 hhalo, ok_bind, hwidth]

/-- Where the halos are even, exchanging the widths changes nothing. -/
theorem Plannable.exists_even_plan (h : Plannable a pins) (heven : Even a pins) :
    ∃ table, plan a pins .opposite = .ok table ∧ plan a pins .own = .ok table := by
  obtain ⟨classes, slot, axes, harranged⟩ := h.exists_arranged
  obtain ⟨table, htable⟩ := h.exists_own_plan
  refine ⟨table, ?_, htable⟩
  rw [harranged.plan] at htable ⊢
  refine mapM_eq_ok.2 ((forall₂_mem (mapM_eq_ok.1 htable)).imp ?_)
  rintro ⟨x, side⟩ q ⟨hp, hq⟩
  obtain ⟨hx, hfree⟩ := mem_exchanged.1 hp
  obtain ⟨halo, size, haxis⟩ := harranged.freeAxis h.aligned hx hfree
  simp only [transfer_congr haxis.halo (width_of_even (heven _ _ _ _ haxis))]
  exact hq

theorem Plannable.even_of_plan (h : Plannable a pins) {table : BySide Transfer}
    (htable : plan a pins .opposite = .ok table) : Even a pins := by
  obtain ⟨classes, slot, axes, harranged⟩ := h.exists_arranged
  rw [harranged.plan] at htable
  intro i d halo size haxis
  obtain ⟨x, hx, rfl, rfl⟩ := harranged.named.exists_at haxis.dim
  have hfree := (harranged.named.free_iff harranged.split hx).2 haxis.unpinned
  apply even_of_widths
  intro side
  have hmem : (x, side) ∈ exchanged axes := mem_exchanged.2 ⟨hx, hfree⟩
  obtain ⟨q, -, -, -, ht⟩ := forall₂_mem_left (entries_of_transfers htable) hmem
  exact width_le_of_transfer haxis.halo ht

/-- A plan with exchanged widths is refused at the first axis whose halos differ, for the side whose
own halo is the narrower one. -/
theorem Plannable.first_uneven (h : Plannable a pins) {f : Fault}
    (hf : plan a pins .opposite = .error f) :
    ∃ i d halo size side, FreeAxis a pins i d halo size ∧
      WidthRule.own.width side halo < WidthRule.opposite.width side halo ∧
      (∀ j < i, ∀ e w s, FreeAxis a pins j e w s → w.left = w.right) ∧
      f = .cause (.haloExceeded side d.name a.name (WidthRule.opposite.width side halo).toNat
        (WidthRule.own.width side halo).toNat) := by
  obtain ⟨classes, slot, axes, harranged⟩ := h.exists_arranged
  rw [harranged.plan] at hf
  obtain ⟨before, ⟨x, side⟩, after, hsplit, hbefore, hrefused⟩ := transfers_eq_error hf
  have hmem : (x, side) ∈ exchanged axes := by rw [hsplit]; simp
  obtain ⟨hx, hfree⟩ := mem_exchanged.1 hmem
  obtain ⟨halo, size, haxis⟩ := harranged.freeAxis h.aligned hx hfree
  have hnarrow : WidthRule.own.width side halo < WidthRule.opposite.width side halo := by
    rw [← UInt64.not_le]
    intro hle
    obtain ⟨t, ht⟩ : ∃ t, transfer a .opposite slot axes x side = .ok t :=
      h.exists_transfer harranged.named haxis hle
    cases ht.symm.trans hrefused
  refine ⟨_, _, halo, size, side, haxis, hnarrow, ?_, ?_⟩
  · intro j hj e w s hearlier
    obtain ⟨y, hy, rfl, rfl⟩ := harranged.named.exists_at hearlier.dim
    have hyfree := (harranged.named.free_iff harranged.split hy).2 hearlier.unpinned
    -- Both sides of an earlier axis come before the side refused, so both have transfers.
    apply even_of_widths
    intro side'
    have hbefore' := harranged.named.mem_before hsplit (q := (y, side'))
      (mem_exchanged.2 ⟨hy, hyfree⟩) hj
    obtain ⟨t, ht⟩ := hbefore _ hbefore'
    exact width_le_of_transfer hearlier.halo ht
  · have hstops : transfer a .opposite slot axes x side = refuse (.haloExceeded side x.dim.name
        a.name (WidthRule.opposite.width side halo).toNat (WidthRule.own.width side halo).toNat) :=
      transfer_of_refused haxis.halo haxis.size (span_of_lt hnarrow)
    exact Except.error.inj (hrefused.symm.trans hstops)

/-- **Exchanged widths can be planned exactly for even halos.** The plan is then the one with own
widths. Otherwise it is refused for the first axis whose two halos differ, on the side of the
narrower one. -/
theorem plan_opposite_iff (h : Plannable a pins) :
    ((∃ table, plan a pins .opposite = .ok table) ↔ Even a pins) ∧
    (Even a pins → ∃ table, plan a pins .opposite = .ok table ∧ plan a pins .own = .ok table) ∧
    (¬ Even a pins → ∃ i d halo size side, FreeAxis a pins i d halo size ∧
      halo.left ≠ halo.right ∧ (∀ j < i, ∀ e w s, FreeAxis a pins j e w s → w.left = w.right) ∧
      WidthRule.own.width side halo < WidthRule.opposite.width side halo ∧
      plan a pins .opposite = refuse (.haloExceeded side d.name a.name
        (WidthRule.opposite.width side halo).toNat (WidthRule.own.width side halo).toNat)) := by
  refine ⟨⟨?_, ?_⟩, h.exists_even_plan, ?_⟩
  · rintro ⟨table, htable⟩
    exact h.even_of_plan htable
  · intro heven
    obtain ⟨table, htable, -⟩ := h.exists_even_plan heven
    exact ⟨table, htable⟩
  · intro huneven
    cases hplan : plan a pins .opposite with
    | ok table => exact absurd (h.even_of_plan hplan) huneven
    | error f =>
      obtain ⟨i, d, halo, size, side, haxis, hnarrow, hfirst, rfl⟩ := h.first_uneven hplan
      refine ⟨i, d, halo, size, side, haxis, ?_, hfirst, hnarrow, rfl⟩
      intro heven
      rw [width_of_even heven] at hnarrow
      exact absurd hnarrow (UInt64.lt_irrefl _)

/-- A plane with one more cell before its second axis than behind it. -/
def lopsided : GridArray :=
  ⟨"f", .float64, [⟨"x", .spatial⟩, ⟨"y", .spatial⟩], [.size "x", .int 5], [⟨1, 1⟩, ⟨2, 1⟩],
    .external⟩

theorem plannable_lopsided {pins : Pins}
    (h : ∀ p ∈ pins, p.1 ∈ lopsided.dims.map Dimension.name) : Plannable lopsided pins := by
  refine ⟨⟨rfl, rfl, by decide⟩, by decide, h, ?_⟩
  rintro i d halo size ⟨-, -, hhalo, hsize⟩
  match i with
  | 0 =>
    obtain rfl := Option.some.inj hhalo
    obtain rfl := Option.some.inj hsize
    exact ⟨by decide, by simp⟩
  | 1 =>
    obtain rfl := Option.some.inj hhalo
    obtain rfl := Option.some.inj hsize
    refine ⟨by decide, ?_⟩
    rintro n ⟨⟩
    decide

theorem plan_opposite_iff_lopsided :
    Plannable lopsided [] ∧ (∃ table, plan lopsided [] .own = .ok table) ∧
      plan lopsided [] .opposite = refuse (.haloExceeded .right "y" "f" 2 1) := by
  have hplannable : Plannable lopsided [] := plannable_lopsided (by simp)
  have huneven : ¬ Even lopsided [] := fun h =>
    absurd (h 1 ⟨"y", .spatial⟩ ⟨2, 1⟩ (.int 5) ⟨rfl, rfl, rfl, rfl⟩) (by decide)
  obtain ⟨i, d, halo, size, side, haxis, hne, -, hnarrow, hrefused⟩ :=
    (plan_opposite_iff hplannable).2.2 huneven
  refine ⟨hplannable, hplannable.exists_own_plan, ?_⟩
  match i with
  | 0 =>
    obtain rfl := Option.some.inj haxis.halo
    exact absurd rfl hne
  | 1 =>
    obtain rfl := Option.some.inj haxis.halo
    obtain rfl := Option.some.inj haxis.dim
    cases side with
    | left => exact absurd hnarrow (by decide)
    | right => exact hrefused

end Halo

end GridKernel
