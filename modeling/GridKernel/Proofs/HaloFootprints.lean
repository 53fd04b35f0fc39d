import GridKernel.Proofs.Footprints
import GridKernel.Proofs.HaloExchange
import GridKernel.Proofs.HaloParts

/-! What a halo exchange can change. Packing writes slot 0 of the buffers whose masks are open, and
unpacking writes the halos of the sides whose masks are open, wherever a run stops. -/
namespace GridKernel.Halo

/-- The indices along an axis in the halo of a side. -/
def InGhost (halo : Extent) (size : Nat) (side : Side) (i : Int64) : Prop :=
  match side with
  | .left => 0 ≤ i.toInt ∧ i.toInt < halo.left.toNat
  | .right => halo.left.toNat + (size : Int) ≤ i.toInt ∧
      i.toInt < halo.left.toNat + (size : Int) + halo.right.toNat

/-- The multi-indices of an array in the halo of a side along the axis at a position. -/
def GhostAt (a : GridArray) (ns : List Nat) (position : Nat) (side : Side) (is : List Int64) :
    Prop :=
  ∃ halo n i, a.halo[position]? = some halo ∧ ns[position]? = some n ∧ is[position]? = some i ∧
    InGhost halo n side i

/-- The cells that the move of one side may change. -/
def MoveTouches (a : GridArray) (ns : List Nat) (direction : Direction) (position : Nat)
    (side : Side) (t : Transfer) (name : String) (is : List Int64) : Prop :=
  match direction with
  | .pack => name = t.buffer.name ∧ is[0]? = some 0
  | .unpack => name = a.name ∧ GhostAt a ns position side is

variable {R : Type} [Arithmetic R] [ExactIntegers R]

/-- An expression has an exact integer as its value in all machines of a kind. -/
def Settled (K : Machine R → Prop) (e : Expr) (n : Int) : Prop := ∀ m, K m → m.Reads e n

/-- The extents of an array have exact values, also with both halo widths. -/
structure Measured (K : Machine R → Prop) (a : GridArray) (ns : List Nat) : Prop where
  settled : List.Forall₂ (fun s (n : Nat) => Settled K s n) a.shape ns
  bounded : ∀ p ∈ a.halo.zip ns, p.1.left.toNat + p.2 + p.1.right.toNat ≤ 2 ^ 53

variable {K : Machine R → Prop} {m m' : Machine R} {a : GridArray} {ns : List Nat}
  {rule : WidthRule} {slot : String} {axes : List Axis} {x : Axis} {side : Side} {t : Transfer}
  {classes : List AxisClass} {direction : Direction} {halo : Extent} {size receive send : Expr}
  {inner : List BufferAxis} {lines : List (Expr × Expr × Option LoopHead)}

theorem Settled.ofSize {n : UInt64} (h : n.toNat ≤ 2 ^ 53) : Settled K (.ofSize n) n.toNat :=
  fun _ _ => .ofSize h

theorem Settled.add {e f g : Expr} {i j : Int} (he : Settled K e i) (hf : Settled K f j)
    (hle : (i + j).natAbs ≤ 2 ^ 53) (h : e.add f = .ok g) : Settled K g (i + j) := by
  intro m hm
  obtain ⟨g', hg', hreads⟩ := (he m hm).add (hf m hm) hle
  obtain rfl := Except.ok.inj (h.symm.trans hg')
  exact hreads

omit [ExactIntegers R] in
theorem Measured.entry (h : Measured K a ns) {i : Nat} (hhalo : a.halo[i]? = some halo)
    (hsize : a.shape[i]? = some size) :
    ∃ n : Nat, ns[i]? = some n ∧ Settled K size n ∧
      halo.left.toNat + n + halo.right.toNat ≤ 2 ^ 53 := by
  obtain ⟨n, hn, hsettled⟩ := forall₂_getElem? h.settled hsize
  refine ⟨n, hn, hsettled, h.bounded (halo, n) ?_⟩
  apply List.mem_of_getElem? (i := i)
  rw [List.getElem?_zip_eq_some]
  exact ⟨hhalo, hn⟩

/-- A side receives from the outer end of its halo, or from the end of the domain on. -/
theorem settled_receive {width : UInt64} {n : Nat}
    (hspan : span a.name x.dim side halo width size = .ok (receive, send)) (hn : Settled K size n)
    (hle : halo.left.toNat + n + halo.right.toNat ≤ 2 ^ 53) :
    ∃ origin : Int, Settled K receive origin ∧ 0 ≤ origin ∧ origin + width.toNat ≤ 2 ^ 53 ∧
      ∀ i : Int64, origin ≤ i.toInt → i.toInt < origin + width.toNat → InGhost halo n side i := by
  cases side with
  | left =>
    obtain ⟨hwidth, rfl, -⟩ := span_left_eq_ok.1 hspan
    have hsub : (halo.left - width).toNat = halo.left.toNat - width.toNat :=
      UInt64.toNat_sub_of_le _ _ hwidth
    have hle' : width.toNat ≤ halo.left.toNat := hwidth
    refine ⟨_, .ofSize (by omega), by omega, by omega, fun i hlow hhigh => ?_⟩
    simp only [InGhost]
    omega
  | right =>
    obtain ⟨hwidth, hstop, -⟩ := span_right_eq_ok.1 hspan
    have hle' : width.toNat ≤ halo.right.toNat := hwidth
    have hleft : Settled K (.ofSize halo.left) halo.left.toNat := .ofSize (by omega)
    refine ⟨_, hleft.add hn (by omega) hstop, by omega, by omega, fun i hlow hhigh => ?_⟩
    simp only [InGhost]
    omega

section Lines

omit [Arithmetic R] [ExactIntegers R]

variable (hnamed : Named a classes slot axes)
  (hlined : Lined a rule slot axes x side t halo size receive send inner)
  (hlines : List.Forall₂ (fun p l => moveAxis t direction p.2 p.1 = .ok l) classes.zipIdx lines)
include hnamed hlined hlines

theorem length_lines : inner.length = lines.length ∧ classes.length = lines.length := by
  have hclasses : classes.length = lines.length := by
    simpa using hlines.length_eq
  refine ⟨?_, hclasses⟩
  rw [← hlined.lined.length_eq, ← hclasses, ← hnamed.cls, List.length_map]

omit hnamed hlined in
theorem line_at {i : Nat} {l : Expr × Expr × Option LoopHead} (hl : lines[i]? = some l) :
    ∃ cls, classes[i]? = some cls ∧ moveAxis t direction i cls = .ok l := by
  obtain ⟨hi, hl⟩ := List.getElem?_eq_some_iff.1 hl
  have hi' : i < classes.zipIdx.length := hlines.length_eq ▸ hi
  have hmove := hlines.get hi' hi
  simp only [List.get_eq_getElem, hl, List.getElem_zipIdx, Nat.zero_add] at hmove
  have hi : i < classes.length := by simpa using hi'
  exact ⟨classes[i], List.getElem?_eq_getElem hi, hmove⟩

/-- Every loop of a move runs from zero up over an axis of the buffer. -/
theorem head_of_line : List.Forall₂ (fun b l => ∀ head, l.2.2 = some head →
    ∃ e, head = ⟨b.dim, .upTo e, [], .parallel⟩) inner lines := by
  rw [List.forall₂_iff_get]
  refine ⟨(length_lines hnamed hlined hlines).1, fun i hi hi' head hhead => ?_⟩
  obtain ⟨cls, -, hmove⟩ := line_at hlines (List.getElem?_eq_getElem hi')
  unfold moveAxis at hmove
  obtain ⟨d, hd, hmove⟩ := bind_eq_ok.1 hmove
  obtain ⟨offset, -, hmove⟩ := bind_eq_ok.1 hmove
  have hdim : d = inner[i].dim := by
    rw [entryAt_eq_ok, hlined.buffer] at hd
    simpa [hi] using hd.symm
  cases cls with
  | pinned index =>
    obtain hmove := Except.ok.inj hmove
    simp only [List.get_eq_getElem, ← hmove] at hhead
    cases hhead
  | free =>
    simp only [AxisClass.isPinned, Bool.false_eq_true, if_false] at hmove
    obtain ⟨e, -, hmove⟩ := bind_eq_ok.1 hmove
    obtain ⟨far, -, hmove⟩ := bind_eq_ok.1 hmove
    obtain hmove := Except.ok.inj hmove
    simp only [List.get_eq_getElem, ← hmove, Option.some.injEq] at hhead
    exact ⟨e, by rw [← hhead, hdim]; rfl⟩

theorem heads_upTo {head : LoopHead} (h : head ∈ lines.reverse.filterMap (·.2.2)) :
    ∃ d e order, head = ⟨d, .upTo e, [], order⟩ := by
  obtain ⟨l, hl, hloop⟩ := List.mem_filterMap.1 h
  obtain ⟨b, -, hb⟩ := forall₂_mem_right (head_of_line hnamed hlined hlines)
    (List.mem_reverse.1 hl)
  obtain ⟨e, rfl⟩ := hb head hloop
  exact ⟨_, _, _, rfl⟩

theorem heads_nodup :
    ((lines.reverse.filterMap (·.2.2)).map fun head => head.dim.name).Nodup := by
  have hsub : ∀ {bs : List BufferAxis} {ls : List (Expr × Expr × Option LoopHead)},
      List.Forall₂ (fun b l => ∀ head, l.2.2 = some head →
        ∃ e, head = ⟨b.dim, .upTo e, [], .parallel⟩) bs ls →
      ((ls.filterMap (·.2.2)).map fun head => head.dim.name).Sublist
        (bs.map fun b => b.dim.name) := by
    intro bs ls hrel
    induction hrel with
    | nil => exact .slnil
    | @cons b l bs ls hl _ ih =>
      cases hloop : l.2.2 with
      | none =>
        rw [List.filterMap_cons, hloop]
        exact ih.cons _
      | some head =>
        obtain ⟨e, rfl⟩ := hl head hloop
        rw [List.filterMap_cons, hloop]
        exact ih.cons_cons _
  have hnames := (List.nodup_cons.1 hlined.distinct).2
  rw [List.filterMap_reverse, List.map_reverse, List.nodup_reverse]
  exact (hsub (head_of_line hnamed hlined hlines)).nodup hnames

omit hlines in
/-- Along its own axis a buffer has the width of the side. -/
theorem inner_at (hx : x ∈ axes) (hfree : x.cls.isPinned = false) :
    inner[x.position]? = some ⟨⟨x.names.width, .sized (.ofSize (rule.width side halo))⟩, .none,
      receive, send⟩ := by
  obtain ⟨b, hinner, hb⟩ := axis_at hnamed hlined hx
  unfold bufferAxis at hb
  cases hcls : x.cls with
  | pinned index => simp [hcls, AxisClass.isPinned] at hfree
  | free =>
    simp only [hcls, beq_self_eq_true, if_true] at hb
    obtain ⟨d, hd, hb⟩ := bind_eq_ok.1 hb
    obtain rfl := of_sized_eq_ok hd
    rw [hinner, ← Except.ok.inj hb]

/-- Along its own axis a side is moved by a loop over the width. -/
theorem exchanged_line (hx : x ∈ axes) (hfree : x.cls.isPinned = false) :
    let d : Dimension := ⟨x.names.width, .sized (.ofSize (rule.width side halo))⟩
    ∃ e far, lines[x.position]? = some (.dim d, far, some ⟨d, .upTo e, [], .parallel⟩) ∧
      t.buffer.allocated (x.position + 1) = .ok e ∧
      (match direction with | .pack => send | .unpack => receive).add (.dim d) = .ok far := by
  have hinner := inner_at hnamed hlined hx hfree
  obtain ⟨hlt, -⟩ := List.getElem?_eq_some_iff.1 hinner
  have hlt' : x.position < lines.length := (length_lines hnamed hlined hlines).1 ▸ hlt
  obtain ⟨cls, hcls, hmove⟩ := line_at hlines (List.getElem?_eq_getElem hlt')
  obtain ⟨i, hi⟩ := List.getElem?_of_mem hx
  have hcls' : (axes.map Axis.cls)[x.position]? = some x.cls := by
    rw [List.getElem?_map, hnamed.position i x hi, hi]
    rfl
  rw [hnamed.cls] at hcls'
  obtain rfl := Option.some.inj (hcls.symm.trans hcls')
  unfold moveAxis at hmove
  obtain ⟨d, hd, hmove⟩ := bind_eq_ok.1 hmove
  obtain ⟨offset, hoffset, hmove⟩ := bind_eq_ok.1 hmove
  simp only [hfree, Bool.false_eq_true, if_false] at hmove
  obtain ⟨e, he, hmove⟩ := bind_eq_ok.1 hmove
  obtain ⟨far, hfar, hmove⟩ := bind_eq_ok.1 hmove
  rw [entryAt_eq_ok] at hd hoffset
  simp only [hlined.buffer, List.getElem?_cons_succ, List.getElem?_map, hinner, Option.map_some,
    Option.some.injEq] at hd
  subst hd
  refine ⟨e, far, ?_, he, ?_⟩
  · rw [List.getElem?_eq_getElem hlt', ← Except.ok.inj hmove]
  · rw [← hfar]
    congr 1
    cases direction with
    | pack => simpa [Direction.offsets, hlined.sends, hinner] using hoffset
    | unpack => simpa [Direction.offsets, hlined.receives, hinner] using hoffset

end Lines

/-- The width of a buffer along its own axis is the bound of the loop over it. -/
theorem steady_width (hnamed : Named a classes slot axes)
    (hlined : Lined a rule slot axes x side t halo size receive send inner) (hx : x ∈ axes)
    (hfree : x.cls.isPinned = false) (hle : (rule.width side halo).toNat ≤ 2 ^ 53) {e : Expr}
    (he : t.buffer.allocated (x.position + 1) = .ok e) :
    m.Steady e (rule.width side halo).toNat := by
  have hinner := inner_at hnamed hlined hx hfree
  have hhalo : t.buffer.halo[x.position + 1]? = some .none := by simp [hlined.buffer, hinner]
  have hshape : t.buffer.shape[x.position + 1]? = some (.ofSize (rule.width side halo)) := by
    simp [hlined.buffer, hinner, Dimension.extent]
  obtain rfl := Except.ok.inj (he.symm.trans (GridArray.allocated_bare hhalo hshape))
  exact .ofSize hle

/-- What is known of the index of a loop while a side is moved: the loop over its width is within
the width. -/
def WidthIndex (x : Axis) (width : UInt64) (head : LoopHead) (i : Int64) : Prop :=
  head.dim.name = x.names.width → 0 ≤ i.toInt ∧ i.toInt < width.toNat

/-- The index along its own axis of a cell that a side receives is in the halo of the side. -/
theorem ghost_of_far {width : UInt64} {n : Nat} {origin : Int} {far : Expr} {d : Dimension}
    {i j : Int64} (hreceive : Settled K receive origin) (hm : K m)
    (hfar : receive.add (.dim d) = .ok far) (hi : m.indices[d.name]? = some i)
    (hlow : 0 ≤ i.toInt) (hhigh : i.toInt < width.toNat) (hnonneg : 0 ≤ origin)
    (hwidth : origin + width.toNat ≤ 2 ^ 53)
    (hghost : ∀ i : Int64, origin ≤ i.toInt → i.toInt < origin + width.toNat →
      InGhost halo n side i) (hj : m.evalIndex far = .ok j) : InGhost halo n side j := by
  have hsum : (origin + i.toInt).natAbs ≤ 2 ^ 53 := by omega
  have hdim : m.Evaluates (.dim d) i.toInt :=
    Machine.Evaluates.dim (by omega) (by rw [hi, Int64.ofInt_toInt])
  obtain ⟨g, hg, hreads⟩ := (hreceive m hm).add (hdim.reads (by simp)) hsum
  obtain rfl := Except.ok.inj (hfar.symm.trans hg)
  obtain rfl := Except.ok.inj (hj.symm.trans hreads.1.evalIndex)
  have hvalue := toInt_ofInt hsum
  exact hghost _ (by omega) (by omega)

/-- The move of one side changes slot 0 of its buffer, or the halo of the side. -/
theorem changesOnly_move (hnamed : Named a classes slot axes) (hx : x ∈ axes)
    (hfree : x.cls.isPinned = false) (hm : Measured K a ns)
    (hK : ∀ m', m.ChangesOnly (MoveTouches a ns direction x.position side t) m' → K m')
    (ht : transfer a rule slot axes x side = .ok t) {c : Stmt}
    (hc : move a classes t direction = .ok c) :
    m.ChangesOnly (MoveTouches a ns direction x.position side t) (Machine.run c m).machine := by
  obtain ⟨halo, size, receive, send, inner, hlined⟩ := exists_lined ht
  obtain ⟨lines, hlines, rfl⟩ := exists_lines hc
  obtain ⟨n, hn, hsize, hle⟩ := hm.entry hlined.halo_at hlined.shape_at
  obtain ⟨origin, hreceive, hnonneg, hwidth, hghost⟩ := settled_receive hlined.spanned hsize hle
  obtain ⟨e, far, hline, he, hfar⟩ := exchanged_line hnamed hlined hlines hx hfree
  have hnodup := heads_nodup hnamed hlined hlines
  have hbound := steady_width (m := m) hnamed hlined hx hfree (by omega) he
  have hexchanged : ⟨⟨x.names.width, .sized (.ofSize (rule.width side halo))⟩, .upTo e, [],
      .parallel⟩ ∈ lines.reverse.filterMap (·.2.2) :=
    List.mem_filterMap.2 ⟨_, List.mem_reverse.2 (List.mem_of_getElem? hline), rfl⟩
  refine Machine.run_nest_keeps
    (P := m.ChangesOnly (MoveTouches a ns direction x.position side t))
    (I := WidthIndex x (rule.width side halo))
    (fun _ hhead => heads_upTo hnamed hlined hlines hhead) hnodup ?_ ?_ ?_ ?_ (.refl _ _ m)
  · cases direction <;> simp [cellOf]
  · exact fun m' name i h => h.bindIndex name i
  · intro head hhead m' hm' upper hupper i hlow hhigh hname
    obtain rfl := List.inj_on_of_nodup_map hnodup hhead hexchanged hname
    have hagrees : m.Agrees m' := ⟨hm'.scalars, hm'.sizes⟩
    obtain rfl := Except.ok.inj (hupper.symm.trans (hbound.reads m' hagrees).1.evalIndex)
    rw [toInt_ofInt (by omega)] at hhigh
    exact ⟨hlow, hhigh⟩
  · intro m' hm' hindices
    obtain ⟨i, hi, hI⟩ := hindices _ hexchanged
    obtain ⟨hlow, hhigh⟩ := hI rfl
    cases direction with
    | pack =>
      refine Outcome.attempt_machine hm' fun v _ => Outcome.attempt_machine hm' fun m'' hstore => ?_
      obtain ⟨is, f, g, his, hf, hg, rfl⟩ := Machine.store_access_eq_ok.1 hstore
      cases Machine.evalIndices_eq_ok.1 his with
      | @cons _ j _ js hj hjs =>
        have hzero := (Machine.Evaluates.int (m := m') (n := 0) (by decide)).evalIndex
        obtain rfl := Except.ok.inj (hj.symm.trans hzero)
        exact hm'.set hf hg ⟨rfl, rfl⟩
    | unpack =>
      refine Outcome.attempt_machine hm' fun v _ => Outcome.attempt_machine hm' fun m'' hstore => ?_
      obtain ⟨is, f, g, his, hf, hg, rfl⟩ := Machine.store_access_eq_ok.1 hstore
      obtain ⟨j, hj, hjfar⟩ := forall₂_getElem? (Machine.evalIndices_eq_ok.1 his)
        (i := x.position) (x := far) (by simp [hline])
      refine hm'.set hf hg ⟨rfl, halo, n, j, hlined.halo_at, hn, hj, ?_⟩
      exact ghost_of_far hreceive (hK m' hm') hfar hi hlow hhigh hnonneg hwidth hghost hjfar

/-- A mask has a value that counts as true. -/
def Open (m : Machine R) (mask : Scalar) : Prop :=
  ∃ v, m.scalars[mask.name]? = some v ∧ Arithmetic.isTrue v

/-- The cells that a kernel of an exchange may change. -/
def Touched (m : Machine R) (a : GridArray) (e : Exchange) (ns : List Nat) :
    Direction → String → List Int64 → Prop
  | .pack, name, is => ∃ q ∈ e.buffers.zip e.masks, Open m q.2.2.2 ∧
      name = q.1.2.2.buffer.name ∧ is[0]? = some 0
  | .unpack, name, is => name = a.name ∧ ∃ position d side mask,
      a.dims[position]? = some d ∧ (d, side, mask) ∈ e.masks ∧ Open m mask ∧
        GhostAt a ns position side is

/-- A multi-index is inside the domain along every axis that is exchanged. -/
def Owned (a : GridArray) (e : Exchange) (ns : List Nat) (is : List Int64) : Prop :=
  ∀ (position : Nat) d, a.dims[position]? = some d →
    (∃ side mask, (d, side, mask) ∈ e.masks) → ∃ (halo : Extent) (n : Nat) (i : Int64),
      a.halo[position]? = some halo ∧ ns[position]? = some n ∧ is[position]? = some i ∧
        halo.left.toNat ≤ i.toInt ∧ i.toInt < halo.left.toNat + (n : Int)

variable {pins : Pins} {e : Exchange}

theorem Parts.changesOnly (h : Parts a pins rule classes slot axes e)
    (hm : Measured m.Agrees a ns)
    (direction : Direction) :
    m.ChangesOnly (Touched m a e ns direction) (m.runKernel (e.kernel direction)).machine := by
  obtain ⟨moves, hbody, hmoves⟩ := h.body direction
  have hzip := forall₂_zip_map
    (fun p : Axis × Side => (p.1.dim, p.2, (⟨p.1.names.masks p.2, .int32⟩ : Scalar))) h.buffers
  have hmasks : e.masks = (exchanged axes).map fun p =>
      (p.1.dim, p.2, ⟨p.1.names.masks p.2, .int32⟩) := h.masks
  rw [← hmasks] at hzip
  have hstart : m.ChangesOnly (Touched m a e ns direction) m.idle := .idle _ _ m
  rw [Machine.runKernel, hbody, Machine.run]
  refine Machine.runAll_keeps_each (fun s hs m' hm' => ?_) hstart
  rcases List.mem_append.1 hs with hs | hs
  · obtain ⟨b, -, rfl⟩ := List.mem_map.1 hs
    exact Outcome.attempt_machine hm' fun _ _ => hm'
  · obtain ⟨p, hp, t, c, ht, hc, rfl⟩ := forall₂_mem_right hmoves hs
    obtain ⟨x, side⟩ := p
    obtain ⟨hx, hfree⟩ := mem_exchanged.1 hp
    refine Outcome.attempt_machine hm' fun v hv => ?_
    split
    · rename_i htrue
      have hopen : Open m ⟨x.names.masks side, .int32⟩ := by
        rw [Machine.eval, Machine.bound_eq_ok, hm'.scalars] at hv
        exact ⟨v, hv, htrue⟩
      have hmove := changesOnly_move (m := m') h.named hx hfree hm
        (fun m'' h' => ⟨h'.scalars.trans hm'.scalars, h'.sizes.trans hm'.sizes⟩) ht hc
      refine hm'.trans (hmove.mono fun name is htouched => ?_)
      cases direction with
      | pack =>
        obtain ⟨z, hz, ⟨-, -, ht'⟩, hmask⟩ := forall₂_mem_left hzip hp
        obtain rfl := Except.ok.inj (ht.symm.trans ht')
        exact ⟨z, hz, by rw [hmask]; exact hopen, htouched⟩
      | unpack =>
        refine ⟨htouched.1, x.position, x.dim, side, _, h.named.dim_at hx, ?_, hopen, htouched.2⟩
        rw [hmasks]
        exact List.mem_map_of_mem hp
    · exact hm'

omit [Arithmetic R] [ExactIntegers R] in
theorem Parts.name_ne (h : Parts a pins rule classes slot axes e)
    {q : Dimension × Side × Transfer} (hq : q ∈ e.buffers) : a.name ≠ q.2.2.buffer.name := by
  obtain ⟨p, hp, -, -, ht⟩ := forall₂_mem_right h.buffers hq
  obtain ⟨halo, size, receive, send, inner, hlined⟩ := exists_lined ht
  intro heq
  rw [hlined.buffer] at heq
  refine h.named.fresh a.name ?_ (by simp [GridArray.namesInUse])
  have hside : p.1.names.buffers p.2 ∈ sides p.1.names.buffers := by
    cases p.2 <;> simp [sides, Side.all]
  rw [heq]
  simp only [drawn, List.mem_cons, List.mem_append, List.mem_flatMap]
  exact .inr (.inr (.inl ⟨p.1, (mem_exchanged.1 hp).1, hside⟩))

omit [Arithmetic R] [ExactIntegers R] in
theorem Owned.not_ghost {is : List Int64} (h : Owned a e ns is) {position : Nat} {d : Dimension}
    {mask : Scalar} (hd : a.dims[position]? = some d) (hmask : (d, side, mask) ∈ e.masks) :
    ¬ GhostAt a ns position side is := by
  rintro ⟨halo, n, i, hhalo, hn, hi, hghost⟩
  obtain ⟨halo', n', i', hhalo', hn', hi', hlow, hhigh⟩ := h position d hd ⟨side, mask, hmask⟩
  obtain rfl := Option.some.inj (hhalo.symm.trans hhalo')
  obtain rfl := Option.some.inj (hn.symm.trans hn')
  obtain rfl := Option.some.inj (hi.symm.trans hi')
  cases side <;> simp only [InGhost] at hghost <;> omega

/-- Wherever a run stops, packing has changed slot 0 of the buffers with open masks only, and
unpacking the halos of the sides with open masks only; no owned cell, no scalar and no other array
has changed. -/
theorem exchange_changes {rule? : Option WidthRule} (he : exchange a pins rule? = .ok e)
    (hshape : ∀ s ∈ a.shape, s.IsExtent)
    (hns : List.Forall₂ (fun s (n : Nat) => m.Reads s n) a.shape ns)
    (hle : ∀ p ∈ a.halo.zip ns, p.1.left.toNat + p.2 + p.1.right.toNat ≤ 2 ^ 53) :
    (∀ direction, m.ChangesOnly (Touched m a e ns direction)
      (m.runKernel (e.kernel direction)).machine) ∧
    (m.runKernel e.pack).machine.arrays[a.name]? = m.arrays[a.name]? ∧
    (∀ q ∈ e.buffers, (m.runKernel e.unpack).machine.arrays[q.2.2.buffer.name]? =
      m.arrays[q.2.2.buffer.name]?) ∧
    ∀ direction is, Owned a e ns is →
      (m.runKernel (e.kernel direction)).machine.cell? a.name is = m.cell? a.name is := by
  obtain ⟨classes, slot, axes, hparts⟩ := exists_parts he
  have hsettled : List.Forall₂ (fun s (n : Nat) => Settled m.Agrees s n) a.shape ns := by
    rw [List.forall₂_iff_zip] at hns ⊢
    exact ⟨hns.1, fun hp => (Machine.Steady.extent (hshape _ (List.of_mem_zip hp).1)
      (hns.2 hp)).reads⟩
  have hchanges := hparts.changesOnly ⟨hsettled, hle⟩
  have hpack : ∀ is, ¬ Touched m a e ns .pack a.name is := by
    rintro is ⟨q, hq, -, hname, -⟩
    exact hparts.name_ne (List.of_mem_zip hq).1 hname
  have howned : ∀ direction is, Owned a e ns is → ¬ Touched m a e ns direction a.name is := by
    intro direction is his htouched
    cases direction with
    | pack => exact hpack is htouched
    | unpack =>
      obtain ⟨-, position, d, side, mask, hd, hmask, -, hghost⟩ := htouched
      exact his.not_ghost hd hmask hghost
  refine ⟨hchanges, ?_, fun q hq => ?_, fun direction is his => ?_⟩
  · exact (hchanges .pack).arrays a.name fun ⟨is, his⟩ => hpack is his
  · refine (hchanges .unpack).arrays _ ?_
    rintro ⟨is, hname, -⟩
    exact hparts.name_ne hq hname.symm
  · exact (hchanges direction).cells a.name is (howned direction is his)

theorem exchange_changes_line :
    ∃ e, exchange line [] none = .ok e ∧
      ((lineOwner 1 2).runKernel e.unpack).machine.cell? "f" [1] = some (Binary64.ofInt 1) := by
  obtain ⟨e, he⟩ : ∃ e, exchange line [] none = .ok e := ⟨_, rfl⟩
  have hshape : ∀ s ∈ line.shape, s.IsExtent := by
    intro s hs
    exact .inr ⟨"x", List.mem_singleton.1 hs⟩
  obtain ⟨-, -, -, howned⟩ :=
    exchange_changes (m := lineOwner 1 2) he hshape (lineOwner_reads 1 2) (by decide)
  refine ⟨e, he, (howned .unpack [1] ?_).trans rfl⟩
  intro position d hd _
  obtain rfl : position = 0 := by
    have hlt := (List.getElem?_eq_some_iff.1 hd).1
    simpa [line] using hlt
  exact ⟨⟨1, 1⟩, 2, 1, rfl, rfl, rfl, by decide, by decide⟩

end GridKernel.Halo
