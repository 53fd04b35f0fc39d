import GridKernel.Proofs.HaloFootprints
import GridKernel.Proofs.Reorder

/-! The order of the transfers of a halo exchange. The transfers that pack write buffers of their
own, so their order does not matter. Those that unpack along different axes both write the cells in
the halos of both axes; all other cells, and whether the run stops early, are the same in every
order. -/
namespace GridKernel

namespace Expr.ReadsOutside

variable {written index : String → Prop} {e f g : Expr}

theorem int (k : Int64) : (Expr.int k).ReadsOutside written index := nodes_of_leaf rfl trivial

theorem dim {d : Dimension} (h : index d.name) : (Expr.dim d).ReadsOutside written index :=
  nodes_of_leaf rfl h

theorem add (he : e.ReadsOutside written index) (hf : f.ReadsOutside written index)
    (h : e.add f = .ok g) : g.ReadsOutside written index :=
  nodes_of_folded (fun _ => trivial) (fun _ _ _ => trivial) (folded_of_add h) he hf

theorem sub (he : e.ReadsOutside written index) (hf : f.ReadsOutside written index)
    (h : e.sub f = .ok g) : g.ReadsOutside written index :=
  nodes_of_folded (fun _ => trivial) (fun _ _ _ => trivial) (folded_of_sub h) he hf

/-- An access to an array that is not written. -/
theorem access {a : GridArray} {es : List Expr} (ha : ¬ written a.name)
    (hes : ∀ e ∈ es, e.ReadsOutside written index) :
    (Expr.access a es).ReadsOutside written index := by
  intro x hx
  rcases List.mem_cons.1 hx with rfl | hx
  · exact ha
  · obtain ⟨e, he, hx⟩ := mem_nodesAll.1 hx
    exact hes e he x hx

end Expr.ReadsOutside

theorem Expr.Unmoved.reads {written : String → Prop} {e : Expr} (h : e.Unmoved written)
    (index : String → Prop) : e.ReadsOutside written index := by
  intro x hx
  have hread := h x hx
  cases x with
  | dim d => cases hread
  | _ => exact hread

theorem Pins.mem_of_find? {pins : Pins} {name : String} {e : Expr} (h : pins.find? name = some e) :
    ∃ p ∈ pins, p.2 = e := by
  induction pins with
  | nil => cases h
  | cons p pins ih =>
    obtain ⟨key, value⟩ := p
    rw [find?] at h
    cases hrest : find? pins name with
    | some e' =>
      rw [hrest] at h
      obtain rfl := Option.some.inj h
      obtain ⟨p, hp, hpe⟩ := ih hrest
      exact ⟨p, by simp [hp], hpe⟩
    | none =>
      rw [hrest, Option.none_or] at h
      split at h
      · obtain rfl := Option.some.inj h
        exact ⟨_, List.mem_cons_self, rfl⟩
      · cases h

theorem pin_of_splitAxes {dims : List Dimension} {pins : Pins} {classes : List AxisClass}
    (h : splitAxes dims pins = .ok classes) {index : Expr} (hmem : .pinned index ∈ classes) :
    ∃ p ∈ pins, p.2 = index := by
  unfold splitAxes at h
  split at h
  · cases h
  · rw [← Except.ok.inj h] at hmem
    obtain ⟨d, -, hd⟩ := List.mem_map.1 hmem
    cases hfind : pins.find? d.name with
    | none => simp [hfind] at hd
    | some e =>
      rw [hfind] at hd
      obtain rfl := AxisClass.pinned.inj hd
      exact Pins.mem_of_find? hfind

namespace Halo

variable {a : GridArray} {rule : WidthRule} {slot : String} {axes : List Axis} {x : Axis}
  {side : Side} {t : Transfer} {classes : List AxisClass} {direction : Direction} {halo : Extent}
  {size receive send : Expr} {inner : List BufferAxis}
  {lines : List (Expr × Expr × Option LoopHead)} {written : String → Prop}

/-- No extent and no pinned index of an exchange mentions an index or accesses a written array. -/
structure Still (written : String → Prop) (a : GridArray) (classes : List AxisClass) : Prop where
  shape : ∀ e ∈ a.shape, e.Unmoved written
  extents : ∀ d ∈ a.dims, d.extent.Unmoved written
  pinned : ∀ index, .pinned index ∈ classes → index.Unmoved written

theorem unmoved_span {name : String} {d : Dimension} {width : UInt64}
    (h : span name d side halo width size = .ok (receive, send)) (hsize : size.Unmoved written) :
    receive.Unmoved written ∧ send.Unmoved written := by
  cases side with
  | left =>
    obtain ⟨-, rfl, rfl⟩ := span_left_eq_ok.1 h
    exact ⟨.int _, .int _⟩
  | right =>
    obtain ⟨-, hreceive, hsend⟩ := span_right_eq_ok.1 h
    have hstop : receive.Unmoved written := .add (.int _) hsize hreceive
    exact ⟨hstop, .sub hstop (.int _) hsend⟩

section Lines

variable (hnamed : Named a classes slot axes)
  (hlined : Lined a rule slot axes x side t halo size receive send inner)
  (hlines : List.Forall₂ (fun p l => moveAxis t direction p.2 p.1 = .ok l) classes.zipIdx lines)
  (hstill : Still written a classes)
include hnamed hlined hstill

theorem unmoved_inner {b : BufferAxis} (hb : b ∈ inner) :
    b.dim.extent.Unmoved written ∧ b.receive.Unmoved written ∧ b.send.Unmoved written := by
  obtain ⟨hreceive, hsend⟩ := unmoved_span hlined.spanned
    (hstill.shape _ (List.mem_of_getElem? hlined.shape_at))
  obtain ⟨y, hy, hb⟩ := forall₂_mem_right hlined.lined hb
  unfold bufferAxis at hb
  cases hcls : y.cls with
  | pinned index =>
    have hindex : index.Unmoved written := by
      refine hstill.pinned index ?_
      rw [← hnamed.cls, ← hcls]
      exact List.mem_map_of_mem hy
    simp only [hcls] at hb
    obtain ⟨d, hd, hb⟩ := bind_eq_ok.1 hb
    obtain rfl := of_sized_eq_ok hd
    obtain rfl := Except.ok.inj hb
    exact ⟨.int 1, hindex, hindex⟩
  | free =>
    simp only [hcls] at hb
    split at hb
    · obtain ⟨d, hd, hb⟩ := bind_eq_ok.1 hb
      obtain rfl := of_sized_eq_ok hd
      obtain rfl := Except.ok.inj hb
      exact ⟨.int _, hreceive, hsend⟩
    · obtain ⟨kept, -, hb⟩ := bind_eq_ok.1 hb
      obtain rfl := Except.ok.inj hb
      have hdim : y.dim ∈ a.dims := hnamed.dims ▸ List.mem_map_of_mem hy
      exact ⟨hstill.extents _ hdim, .int 0, .int 0⟩

theorem unmoved_offset {i : Nat} {offset : Expr}
    (h : (direction.offsets t)[i]? = some offset) : offset.Unmoved written := by
  cases direction with
  | pack =>
    rw [Direction.offsets, hlined.sends, List.getElem?_map] at h
    obtain ⟨b, hb, rfl⟩ := Option.map_eq_some_iff.1 h
    exact (unmoved_inner hnamed hlined hstill (List.mem_of_getElem? hb)).2.2
  | unpack =>
    rw [Direction.offsets, hlined.receives, List.getElem?_map] at h
    obtain ⟨b, hb, rfl⟩ := Option.map_eq_some_iff.1 h
    exact (unmoved_inner hnamed hlined hstill (List.mem_of_getElem? hb)).2.1

theorem unmoved_allocated {i : Nat} {e : Expr} (h : t.buffer.allocated (i + 1) = .ok e) :
    e.Unmoved written := by
  obtain ⟨-, extent, -, -, hextent, -⟩ := GridArray.allocated_eq_ok.1 h
  obtain ⟨b, hb, rfl⟩ : ∃ b, inner[i]? = some b ∧ b.dim.extent = extent := by
    simpa [hlined.buffer] using hextent
  exact GridArray.nodes_of_allocated (fun _ => trivial) (fun _ _ _ => trivial) hextent
    (unmoved_inner hnamed hlined hstill (List.mem_of_getElem? hb)).1 h

include hlines

/-- The indices of a move mention its own loops, which run to unmoved bounds. -/
theorem line_reads {l : Expr × Expr × Option LoopHead} (hl : l ∈ lines) :
    let index := fun name => ∃ head ∈ lines.reverse.filterMap (·.2.2), head.dim.name = name
    l.1.ReadsOutside written index ∧ l.2.1.ReadsOutside written index ∧
      ∀ head, l.2.2 = some head → head.bounds.upper.Unmoved written := by
  intro index
  obtain ⟨⟨cls, i⟩, -, hmove⟩ := forall₂_mem_right hlines hl
  unfold moveAxis at hmove
  obtain ⟨d, -, hmove⟩ := bind_eq_ok.1 hmove
  obtain ⟨offset, hoffset, hmove⟩ := bind_eq_ok.1 hmove
  have hunmoved := unmoved_offset hnamed hlined hstill (entryAt_eq_ok.1 hoffset)
  cases cls with
  | pinned index =>
    obtain rfl := Except.ok.inj hmove
    exact ⟨.int 0, hunmoved.reads _, by simp⟩
  | free =>
    simp only [AxisClass.isPinned, Bool.false_eq_true, if_false] at hmove
    obtain ⟨e, he, hmove⟩ := bind_eq_ok.1 hmove
    obtain ⟨far, hfar, hmove⟩ := bind_eq_ok.1 hmove
    obtain rfl := Except.ok.inj hmove
    have hindex : index d.name :=
      ⟨_, List.mem_filterMap.2 ⟨_, List.mem_reverse.2 hl, rfl⟩, rfl⟩
    refine ⟨.dim hindex, .add (hunmoved.reads _) (.dim hindex) hfar, fun head hhead => ?_⟩
    obtain rfl := Option.some.inj hhead
    exact unmoved_allocated hnamed hlined hstill he

end Lines

/-- The array that a move stores to. -/
def Transfer.target (a : GridArray) (t : Transfer) : Direction → GridArray
  | .pack => t.buffer
  | .unpack => a

/-- The array that a move reads. -/
def Transfer.source (a : GridArray) (t : Transfer) : Direction → GridArray
  | .pack => a
  | .unpack => t.buffer

variable {R : Type} [Arithmetic R]

theorem blind_move (hnamed : Named a classes slot axes) (hstill : Still written a classes)
    (ht : transfer a rule slot axes x side = .ok t)
    (htarget : written (t.target a direction).name)
    (hsource : ¬ written (t.source a direction).name) {c : Stmt}
    (hc : move a classes t direction = .ok c) : Machine.Blind R written c := by
  obtain ⟨halo, size, receive, send, inner, hlined⟩ := exists_lined ht
  obtain ⟨lines, hlines, rfl⟩ := exists_lines hc
  have hreads := fun l (hl : l ∈ lines) => line_reads hnamed hlined hlines hstill hl
  intro same m m' h
  refine Machine.run_nest_relates (fun _ hhead => heads_upTo hnamed hlined hlines hhead)
    (heads_nodup hnamed hlined hlines) ?_ (fun _ _ name i h => h.bindIndices name i) ?_ ?_ h
  · cases direction <;> simp [cellOf]
  · intro head hhead m m' h
    obtain ⟨l, hl, hloop⟩ := List.mem_filterMap.1 hhead
    exact h.evalIndex ((hreads l (List.mem_reverse.1 hl)).2.2 head hloop) fun _ => False.elim
  · intro m m' h hon
    have hindex : ∀ name, (∃ head ∈ lines.reverse.filterMap (·.2.2), head.dim.name = name) →
        m.indices[name]? = m'.indices[name]? := by
      rintro _ ⟨head, hhead, rfl⟩
      exact hon head hhead
    have hnear : ∀ e ∈ Expr.int direction.slot :: lines.map (·.1), e.ReadsOutside written
        fun name => ∃ head ∈ lines.reverse.filterMap (·.2.2), head.dim.name = name := by
      intro e he
      rcases List.mem_cons.1 he with rfl | he
      · exact .int _
      · obtain ⟨l, hl, rfl⟩ := List.mem_map.1 he
        exact (hreads l hl).1
    have hfar : ∀ e ∈ lines.map (·.2.1), e.ReadsOutside written
        fun name => ∃ head ∈ lines.reverse.filterMap (·.2.2), head.dim.name = name := by
      intro e he
      obtain ⟨l, hl, rfl⟩ := List.mem_map.1 he
      exact (hreads l hl).2.1
    cases direction with
    | pack =>
      exact .attempt h (h.eval (.access hsource hfar) hindex) fun v _ =>
        h.store htarget (h.evalIndices hnear hindex) v
    | unpack =>
      exact .attempt h (h.eval (.access hsource hnear) hindex) fun v _ =>
        h.store htarget (h.evalIndices hfar hindex) v

/-- The arrays that the moves of a direction store to. -/
def Written (a : GridArray) (e : Exchange) : Direction → String → Prop
  | .pack, name => ∃ q ∈ e.buffers, name = q.2.2.buffer.name
  | .unpack, name => name = a.name

/-- An axis of an array takes part in an exchange. -/
def Exchanged (a : GridArray) (e : Exchange) (position : Nat) : Prop :=
  ∃ d side mask, a.dims[position]? = some d ∧ (d, side, mask) ∈ e.masks

/-- The cells that transfers along two axes unpack: those in the halos of both. -/
def Corner (a : GridArray) (e : Exchange) (ns : List Nat) : Direction → String → List Int64 → Prop
  | .pack, _, _ => False
  | .unpack, name, is => name = a.name ∧ ∃ i j side side', i ≠ j ∧ Exchanged a e i ∧
      Exchanged a e j ∧ GhostAt a ns i side is ∧ GhostAt a ns j side' is

variable {pins : Pins} {e : Exchange} {ns : List Nat} {p : Axis × Side} {s : Stmt} {m : Machine R}

section Names
omit [Arithmetic R]

theorem Named.buffers_nodup (h : Named a classes slot axes) :
    ((exchanged axes).map fun p => p.1.names.buffers p.2).Nodup := by
  have hnames := (List.nodup_append.1 (List.nodup_append.1 (List.nodup_cons.1 h.nodup).2).2.1).1
  exact (map_sided_sublist fun (x : Axis) side => x.names.buffers side).nodup hnames

theorem Parts.exchanged_axis (h : Parts a pins rule classes slot axes e)
    (hp : p ∈ exchanged axes) : Exchanged a e p.1.position := by
  have hmask : (p.1.dim, p.2, ⟨p.1.names.masks p.2, .int32⟩) ∈ e.masks := by
    rw [h.masks]
    exact List.mem_map_of_mem hp
  exact ⟨_, _, _, h.named.dim_at (mem_exchanged.1 hp).1, hmask⟩

theorem Parts.target_written (h : Parts a pins rule classes slot axes e) (hp : p ∈ exchanged axes)
    (ht : transfer a rule slot axes p.1 p.2 = .ok t) :
    Written a e direction (t.target a direction).name ∧
      ¬ Written a e direction (t.source a direction).name := by
  obtain ⟨q, hq, -, -, ht'⟩ := forall₂_mem_left h.buffers hp
  obtain rfl := Except.ok.inj (ht.symm.trans ht')
  cases direction with
  | pack =>
    refine ⟨⟨q, hq, rfl⟩, ?_⟩
    rintro ⟨q', hq', hname⟩
    exact h.name_ne hq' hname
  | unpack => exact ⟨rfl, fun hname => h.name_ne hq hname.symm⟩

end Names

theorem Parts.blind (h : Parts a pins rule classes slot axes e)
    (hstill : Still (Written a e direction) a classes) (hp : p ∈ exchanged axes)
    (hs : Guards a rule classes slot axes direction p s) :
    Machine.Blind R (Written a e direction) s := by
  obtain ⟨t, c, ht, hc, rfl⟩ := hs
  obtain ⟨htarget, hsource⟩ := h.target_written hp ht
  intro same m m' hm
  have hmask : m.eval (.scalar ⟨p.1.names.masks p.2, .int32⟩) =
      m'.eval (.scalar ⟨p.1.names.masks p.2, .int32⟩) := by
    simp only [Machine.eval, hm.scalars]
  refine .attempt hm hmask fun v _ => ?_
  split
  · exact blind_move h.named hstill ht htarget hsource hc same m m' hm
  · exact Outcome.alike_done.2 hm

variable [ExactIntegers R]

theorem Parts.confined (h : Parts a pins rule classes slot axes e)
    (hm : Measured (m.Varies (Written a e direction)) a ns) (hp : p ∈ exchanged axes)
    {c : Stmt} (ht : transfer a rule slot axes p.1 p.2 = .ok t)
    (hc : move a classes t direction = .ok c) :
    m.Confined (Written a e direction) (MoveTouches a ns direction p.1.position p.2 t)
      (.when (.scalar ⟨p.1.names.masks p.2, .int32⟩) c) := by
  have htarget : Written a e direction (t.target a direction).name := (h.target_written hp ht).1
  have hwithin : ∀ name is, MoveTouches a ns direction p.1.position p.2 t name is →
      Written a e direction name := by
    intro name is htouched
    cases direction with
    | pack => exact htouched.1 ▸ htarget
    | unpack => exact htouched.1
  refine ⟨hwithin, fun m' hm' => ?_⟩
  refine Outcome.attempt_machine (.refl _ _ m') fun v _ => ?_
  split
  · obtain ⟨hx, hfree⟩ := mem_exchanged.1 hp
    refine changesOnly_move h.named hx hfree hm (fun m'' hm'' => hm'.trans ?_) ht hc
    exact Machine.Resembles.mono hm'' (fun name ⟨is, his⟩ => hwithin name is his)
      fun _ _ => False.elim
  · exact .refl _ _ m'

/-- Transfers of different sides change different cells, but for the corners. -/
theorem Parts.apart (h : Parts a pins rule classes slot axes e)
    (hm : Measured (m.Varies (Written a e direction)) a ns) {q : Axis × Side} {s' : Stmt}
    (hp : p ∈ exchanged axes) (hq : q ∈ exchanged axes)
    (hne : p.1.names.buffers p.2 ≠ q.1.names.buffers q.2)
    (hs : Guards a rule classes slot axes direction p s)
    (hs' : Guards a rule classes slot axes direction q s') :
    m.Apart (Written a e direction) (fun name is => ¬ Corner a e ns direction name is) s s' := by
  obtain ⟨t, c, ht, hc, rfl⟩ := hs
  obtain ⟨t', c', ht', hc', rfl⟩ := hs'
  refine ⟨_, _, h.confined hm hp ht hc, h.confined hm hq ht' hc', fun name is his => ?_⟩
  rw [← not_and_or]
  rintro ⟨htouched, htouched'⟩
  cases direction with
  | pack =>
    obtain ⟨halo, size, receive, send, inner, hlined⟩ := exists_lined ht
    obtain ⟨halo', size', receive', send', inner', hlined'⟩ := exists_lined ht'
    have hname := htouched.1.symm.trans htouched'.1
    rw [hlined.buffer, hlined'.buffer] at hname
    exact hne hname
  | unpack =>
    obtain ⟨hname, hghost⟩ := htouched
    obtain ⟨-, hghost'⟩ := htouched'
    by_cases hposition : p.1.position = q.1.position
    · -- the halos of the two sides of one axis have no cell in common
      obtain ⟨hx, -⟩ := mem_exchanged.1 hp
      obtain ⟨hy, -⟩ := mem_exchanged.1 hq
      have hsame := h.named.eq_of_position hx hy hposition
      obtain ⟨halo, n, i, hhalo, hn, hi, hin⟩ := hghost
      obtain ⟨halo', n', i', hhalo', hn', hi', hin'⟩ := hghost'
      rw [← hposition] at hhalo' hn' hi'
      obtain rfl := Option.some.inj (hhalo.symm.trans hhalo')
      obtain rfl := Option.some.inj (hn.symm.trans hn')
      obtain rfl := Option.some.inj (hi.symm.trans hi')
      have hside : p.2 ≠ q.2 := by
        intro heq
        exact hne (by rw [hsame, heq])
      cases hp2 : p.2 <;> cases hq2 : q.2 <;> rw [hp2] at hin hside <;> rw [hq2] at hin' hside <;>
        simp only [InGhost, ne_eq, not_true_eq_false] at hin hin' hside <;> omega
    · exact his ⟨hname, _, _, _, _, hposition, h.exchanged_axis hp, h.exchanged_axis hq, hghost,
        hghost'⟩

omit [ExactIntegers R] in
theorem measured_of_unmoved (hstill : ∀ s ∈ a.shape, s.Unmoved written)
    (hns : List.Forall₂ (fun s (n : Nat) => m.Reads s n) a.shape ns)
    (hle : ∀ p ∈ a.halo.zip ns, p.1.left.toNat + p.2 + p.1.right.toNat ≤ 2 ^ 53) :
    Measured (m.Varies written) a ns := by
  refine ⟨?_, hle⟩
  rw [List.forall₂_iff_zip] at hns ⊢
  refine ⟨hns.1, fun hp m' hm' => (hns.2 hp).congr ?_⟩
  exact (hm'.eval (hstill _ (List.of_mem_zip hp).1) fun _ => False.elim).symm

/-- The views and transfers of a kernel end alike in every order of the transfers. -/
theorem Parts.reorders (h : Parts a pins rule classes slot axes e)
    (hstill : Still (Written a e direction) a classes)
    (hm : Measured (m.Varies (Written a e direction)) a ns) (arrays : List GridArray)
    {moves moves' : List Stmt}
    (hmoves : List.Forall₂ (Guards a rule classes slot axes direction) (exchanged axes) moves)
    (hperm : moves.Perm moves') :
    Machine.Matches (Written a e direction) (fun name is => ¬ Corner a e ns direction name is)
      (Machine.runAll (arrays.map .view ++ moves) m.idle)
      (Machine.runAll (arrays.map .view ++ moves') m.idle) := by
  have hguards : ∀ s ∈ moves, ∃ p ∈ exchanged axes, Guards a rule classes slot axes direction p s :=
    fun s hs => forall₂_mem_right hmoves hs
  have hblind : ∀ s ∈ moves, Machine.Blind R (Written a e direction) s := by
    intro s hs
    obtain ⟨p, hp, hs⟩ := hguards s hs
    exact h.blind hstill hp hs
  have hconfined : ∀ s ∈ moves, ∃ touched, m.Confined (Written a e direction) touched s := by
    intro s hs
    obtain ⟨p, hp, t, c, ht, hc, rfl⟩ := hguards s hs
    exact ⟨_, h.confined hm hp ht hc⟩
  have hapart : moves.Pairwise (m.Apart (Written a e direction)
      fun name is => ¬ Corner a e ns direction name is) := by
    refine pairwise_of_forall₂ hmoves (List.pairwise_map.1 h.named.buffers_nodup) ?_
    exact fun p hp q hq s s' hne hs hs' => h.apart hm hp hq hne hs hs'
  have hviewed : m.Varies (Written a e direction)
      (Machine.runAll (arrays.map .view) m.idle).machine := by
    refine Machine.runAll_keeps_each (fun s hs m' hm' => ?_) (.idle _ _ m)
    obtain ⟨b, -, rfl⟩ := List.mem_map.1 hs
    exact Outcome.attempt_machine hm' fun _ _ => hm'
  rw [Machine.runAll_append, Machine.runAll_append]
  refine Machine.Matches.andThen (.refl _) fun _ => ?_
  exact Machine.runAll_matches hperm hblind hconfined hapart hviewed

/-- The transfers of a kernel of an exchange may run in any order. All orders run to the end when
one does, and then leave the same arrays, but for the cells unpacked into the halos of two axes. -/
theorem exchange_reorders {rule? : Option WidthRule} (he : exchange a pins rule? = .ok e)
    (direction : Direction)
    (hunmoved : ∀ s ∈ a.shape ++ a.dims.map Dimension.extent ++ pins.map Prod.snd,
      s.Unmoved (Written a e direction))
    (hns : List.Forall₂ (fun s (n : Nat) => m.Reads s n) a.shape ns)
    (hle : ∀ p ∈ a.halo.zip ns, p.1.left.toNat + p.2 + p.1.right.toNat ≤ 2 ^ 53) :
    ∃ moves, (e.kernel direction).body =
        .block ((a :: e.buffers.map fun q => q.2.2.buffer).map .view ++ moves) ∧
      List.Forall₂ (fun q s => ∃ c, s = .when (.scalar q.2.2) c) e.masks moves ∧
      ∀ moves', moves'.Perm moves →
        let o := m.runKernel (e.kernel direction)
        let o' := Machine.run
          (.block ((a :: e.buffers.map fun q => q.2.2.buffer).map .view ++ moves')) m.idle
        (o'.fault? = none ↔ o.fault? = none) ∧ (o.fault? = none →
          (∀ name : String, (direction = .unpack → name ≠ a.name) →
            o'.machine.arrays[name]? = o.machine.arrays[name]?) ∧
          ∀ name is, ¬ Corner a e ns direction name is →
            o'.machine.cell? name is = o.machine.cell? name is) := by
  obtain ⟨classes, slot, axes, hparts⟩ := exists_parts he
  obtain ⟨moves, hbody, hmoves⟩ := hparts.body direction
  have hstill : Still (Written a e direction) a classes := by
    refine ⟨fun s hs => hunmoved s (by simp [hs]), fun d hd => hunmoved _ ?_,
      fun index hindex => ?_⟩
    · simp only [List.mem_append, List.mem_map]
      exact .inl (.inr ⟨d, hd, rfl⟩)
    · obtain ⟨p, hp, rfl⟩ := pin_of_splitAxes hparts.split hindex
      refine hunmoved _ ?_
      simp only [List.mem_append, List.mem_map]
      exact .inr ⟨p, hp, rfl⟩
  refine ⟨moves, hbody, ?_, fun moves' hperm => ?_⟩
  · rw [hparts.masks, masks, List.forall₂_map_left_iff]
    refine hmoves.imp fun p s => ?_
    rintro ⟨t, c, -, -, rfl⟩
    exact ⟨c, rfl⟩
  · obtain ⟨hfault, hends⟩ := hparts.reorders hstill (measured_of_unmoved hstill.shape hns hle)
      (a :: e.buffers.map fun q => q.2.2.buffer) hmoves hperm.symm
    rw [Machine.runKernel, hbody, Machine.run, Machine.run]
    refine ⟨hfault.symm, fun hnone => ?_⟩
    have hsame := hends hnone
    refine ⟨fun name hname => ?_, hsame.cells⟩
    cases direction with
    | pack => exact hsame.array_eq fun _ => id
    | unpack => exact hsame.arrays name (hname rfl)

/-- A plane with one row and halos on both axes, or on the rows only. -/
def plane (columns : Int64) (halo : Extent) : GridArray :=
  ⟨"f", .float64, [⟨"x", .sized (.int 1)⟩, ⟨"y", .sized (.int 2)⟩], [.int 1, .int columns],
    [⟨1, 1⟩, halo], .external⟩

/-- A machine with empty cells of a plane, open masks, and one value in all cells of each buffer. -/
def planeOwner (dims : List UInt64) (buffers : List (String × List UInt64 × Int64)) :
    Machine Binary64 where
  arrays := buffers.foldl (fun arrays b => arrays.insert b.1
    ⟨b.2.1, Array.replicate (b.2.1.map UInt64.toNat).prod (Arithmetic.ofInt b.2.2)⟩)
    (Std.TreeMap.insert ∅ "f"
      ⟨dims, Array.replicate (dims.map UInt64.toNat).prod (Arithmetic.ofInt 0)⟩)
  scalars := ["m_xL", "m_xR", "m_yL", "m_yR"].foldl
    (fun scalars name => scalars.insert name (Arithmetic.ofInt 1)) ∅

/-- The owner of a plane with halos on both axes. -/
def cornerOwner : Machine Binary64 := planeOwner [3, 4] [("BxL", [2, 1, 4], 1),
  ("BxR", [2, 1, 4], 1), ("ByL", [2, 3, 1], 2), ("ByR", [2, 3, 1], 2)]

theorem exchange_reorders_plane :
    ∃ e moves, exchange (plane 2 ⟨1, 1⟩) [] (some .own) = .ok e ∧ e.unpack.body =
        .block ((plane 2 ⟨1, 1⟩ :: e.buffers.map fun q => q.2.2.buffer).map .view ++ moves) ∧
      ∀ moves', moves'.Perm moves → (Machine.run (.block ((plane 2 ⟨1, 1⟩ ::
        e.buffers.map fun q => q.2.2.buffer).map .view ++ moves')) cornerOwner.idle).machine.cell?
          "f" [0, 1] = some (Arithmetic.ofInt 1) := by
  have hrun : (exchange (plane 2 ⟨1, 1⟩) [] (some .own)).toOption.any fun e =>
      (cornerOwner.runKernel e.unpack).fault?.isNone &&
        (cornerOwner.runKernel e.unpack).machine.cell? "f" [0, 1] ==
          some (Arithmetic.ofInt 1) := by
    decide +kernel
  obtain ⟨e, he⟩ : ∃ e, exchange (plane 2 ⟨1, 1⟩) [] (some .own) = .ok e := by
    cases he : exchange (plane 2 ⟨1, 1⟩) [] (some .own) with
    | error fault => simp [he, Except.toOption] at hrun
    | ok e => exact ⟨e, rfl⟩
  simp only [he, Except.toOption, Option.any_some, Bool.and_eq_true, Option.isNone_iff_eq_none,
    beq_iff_eq] at hrun
  have hunmoved : ∀ s ∈ (plane 2 ⟨1, 1⟩).shape ++ (plane 2 ⟨1, 1⟩).dims.map Dimension.extent ++
      ([] : Pins).map Prod.snd, s.Unmoved (Written (plane 2 ⟨1, 1⟩) e .unpack) := by
    intro s hs
    have hint : ∃ k, s = .int k := by
      simp only [plane, Dimension.extent, List.map_cons, List.map_nil, List.append_nil,
        List.cons_append, List.nil_append, List.mem_cons, List.not_mem_nil, or_false] at hs
      rcases hs with rfl | rfl | rfl | rfl <;> exact ⟨_, rfl⟩
    obtain ⟨k, rfl⟩ := hint
    exact .int k
  have hns : List.Forall₂ (fun s (n : Nat) => cornerOwner.Reads s n)
      (plane 2 ⟨1, 1⟩).shape [1, 2] :=
    .cons (.int (by decide)) (.cons (.int (by decide)) .nil)
  obtain ⟨moves, hbody, -, hreorders⟩ := exchange_reorders he .unpack hunmoved hns (by decide)
  refine ⟨e, moves, he, hbody, fun moves' hperm => ?_⟩
  refine (((hreorders moves' hperm).2 hrun.1).2 "f" [0, 1] ?_).trans hrun.2
  -- the cell is inside the domain along the second axis
  have hinside : ∀ side, ¬ GhostAt (plane 2 ⟨1, 1⟩) [1, 2] 1 side [0, 1] := by
    rintro side ⟨halo, n, i, hhalo, hn, hi, hghost⟩
    obtain rfl := Option.some.inj hhalo
    obtain rfl := Option.some.inj hn
    obtain rfl := Option.some.inj hi
    cases side <;> exact absurd hghost (by simp only [InGhost]; decide)
  rintro ⟨-, i, j, side, side', hne, ⟨d, -, -, hi, -⟩, ⟨d', -, -, hj, -⟩, hghost, hghost'⟩
  have hlt : i < 2 := (List.getElem?_eq_some_iff.1 hi).1
  have hlt' : j < 2 := (List.getElem?_eq_some_iff.1 hj).1
  have hone : i = 1 ∨ j = 1 := by omega
  rcases hone with rfl | rfl
  · exact hinside side hghost
  · exact hinside side' hghost'

/-- With all masks open, the unpacking kernel of an exchange leaves another value in a cell when its
transfers run in the reverse order. -/
def OrderMatters (a : GridArray) (pins : Pins) (m : Machine Binary64) (is : List Int64) : Prop :=
  ∃ e moves, exchange a pins (some .own) = .ok e ∧
    let views := (a :: e.buffers.map fun q => q.2.2.buffer).map .view
    e.unpack.body = .block (views ++ moves) ∧ (∀ q ∈ e.masks, Open m q.2.2) ∧
      (Machine.run (.block (views ++ moves.reverse)) m.idle).machine.cell? a.name is ≠
        (m.runKernel e.unpack).machine.cell? a.name is

instance (m : Machine Binary64) (mask : Scalar) : Decidable (Open m mask) :=
  decidable_of_iff ((m.scalars[mask.name]?).any Arithmetic.isTrue)
    (by simp [Open, Option.any_eq_true])

/-- The unpacking kernel with its transfers in the reverse order. -/
def Exchange.reversed (e : Exchange) : Stmt :=
  match e.unpack.body with
  | .block ss => .block (ss.take (e.buffers.length + 1) ++ (ss.drop (e.buffers.length + 1)).reverse)
  | s => s

theorem orderMatters_of_reversed {m : Machine Binary64} {is : List Int64}
    (h : (exchange a pins (some .own)).toOption.any fun e =>
      (e.masks.all fun q => decide (Open m q.2.2)) &&
        (Machine.run e.reversed m.idle).machine.cell? a.name is !=
          (m.runKernel e.unpack).machine.cell? a.name is) : OrderMatters a pins m is := by
  cases he : exchange a pins (some .own) with
  | error fault => simp [he, Except.toOption] at h
  | ok e =>
    obtain ⟨classes, slot, axes, hparts⟩ := exists_parts he
    obtain ⟨moves, hbody, -⟩ := hparts.body .unpack
    have hbody : e.unpack.body =
        .block ((a :: e.buffers.map fun q => q.2.2.buffer).map .view ++ moves) := hbody
    have hreversed : e.reversed = .block ((a :: e.buffers.map fun q => q.2.2.buffer).map .view ++
        moves.reverse) := by
      have hlength : e.buffers.length + 1 =
          ((a :: e.buffers.map fun q => q.2.2.buffer).map Stmt.view).length := by simp
      simp only [Exchange.reversed, hbody, hlength, List.take_left, List.drop_left]
    simp only [he, Except.toOption, Option.any_some, Bool.and_eq_true, List.all_eq_true,
      decide_eq_true_eq, bne_iff_ne, ne_eq, hreversed] at h
    exact ⟨e, moves, he, hbody, h.1, h.2⟩

/-- The order matters in a corner, to an index that is read from the array itself, and to a run that
stops early for a shape with fewer columns than the axis. -/
theorem orderMatters_plane :
    OrderMatters (plane 2 ⟨1, 1⟩) [] cornerOwner [0, 0] ∧
    OrderMatters (plane 2 .none) [("y", .access (plane 2 .none) [.int 0, .int 0])]
      (planeOwner [3, 2] [("BxL", [2, 1, 1], 1), ("BxR", [2, 1, 1], 1)]) [2, 0] ∧
    OrderMatters (plane 1 .none) [] (planeOwner [3, 1] [("BxL", [2, 1, 2], 1),
      ("BxR", [2, 1, 2], 1), ("ByL", [2, 3, 0], 1), ("ByR", [2, 3, 0], 1)]) [0, 0] := by
  refine ⟨orderMatters_of_reversed ?_, orderMatters_of_reversed ?_, orderMatters_of_reversed ?_⟩ <;>
    decide +kernel

end Halo
end GridKernel
