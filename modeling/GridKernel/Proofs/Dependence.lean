import GridKernel.Proofs.Agreement
import GridKernel.Proofs.GatherLayout
import GridKernel.Proofs.HaloParts

/-! What a built kernel depends on. A gather, pack or unpack kernel reads its parameters, the sizes
of axes and the entities in the shape of its array; of the latter, those that occur in an extent
checked by a view only are not among its parameters. -/
namespace GridKernel

open Machine

/-- The kernels made for an array. -/
inductive MadeFor (a : GridArray) : Kernel → Prop where
  | gather {pins : Pins} {k : Kernel} (h : Region.gather a pins = .ok k) : MadeFor a k
  | gatherWith {pins : Pins} {free : List String} {k : Kernel}
    (h : Region.gatherWith a pins free = .ok k) : MadeFor a k
  | exchange {pins : Pins} {rule? : Option WidthRule} {e : Halo.Exchange}
    (h : Halo.exchange a pins rule? = .ok e) (direction : Halo.Direction) :
    MadeFor a (e.kernel direction)

def Expr.array? : Expr → Option GridArray
  | access a _ => some a
  | _ => none

/-- The arrays that a statement views or accesses. -/
def Stmt.usedArrays (s : Stmt) : List GridArray :=
  s.nodes.flatMap fun x => match x with
    | view a => [a]
    | x => (x.exprs.flatMap Expr.nodes).filterMap Expr.array?

/-- All arrays that a statement views or accesses are passed in. -/
def Stmt.UsesExternal (s : Stmt) : Prop := ∀ a ∈ s.usedArrays, a.scope = .external

instance (s : Stmt) : Decidable s.UsesExternal :=
  inferInstanceAs (Decidable (∀ a ∈ s.usedArrays, a.scope = .external))

theorem Stmt.UsesExternal.view {s : Stmt} (h : s.UsesExternal) {a : GridArray}
    (ha : .view a ∈ s.nodes) : a.scope = .external :=
  h a (List.mem_flatMap.2 ⟨.view a, ha, by simp⟩)

theorem Stmt.UsesExternal.access {s x : Stmt} (h : s.UsesExternal) (hx : x ∈ s.nodes) {e : Expr}
    (he : e ∈ x.exprs) {a : GridArray} {es : List Expr} (ha : .access a es ∈ e.nodes) :
    a.scope = .external := by
  have hmem : a ∈ (x.exprs.flatMap Expr.nodes).filterMap Expr.array? :=
    List.mem_filterMap.2 ⟨_, List.mem_flatMap.2 ⟨e, he, ha⟩, rfl⟩
  refine h a (List.mem_flatMap.2 ⟨x, hx, ?_⟩)
  cases x with
  | view b => cases he
  | _ => exact hmem

/-- A property of nodes that the extents checked by the views in a statement have when literals,
operators, sizes, the nodes of a shape and those of the statement have it. -/
def ExtentsFrom (shape : List Expr) (s : Stmt) : Prop :=
  ∀ P : Expr → Prop, (∀ k, P (.int k)) → (∀ op l r, P (.binary op l r)) →
    (∀ name, P (.size name)) → (∀ e ∈ shape, ∀ n ∈ e.nodes, P n) →
    (∀ x ∈ s.nodes, ∀ e ∈ x.exprs, ∀ n ∈ e.nodes, P n) →
    ∀ b, .view b ∈ s.nodes → ∀ i e, b.allocated i = .ok e → ∀ n ∈ e.nodes, P n

/-- What the parameters of a built kernel cover. -/
structure Grounded (a : GridArray) (k : Kernel) : Prop where
  parameters : k.body.parameters = .ok k.signature.parameters
  undeclared : k.body.declaredNames = []
  extents : ExtentsFrom a.shape k.body

theorem declaredNames_eq_nil {s : Stmt} (h : ∀ x ∈ s.nodes, x.declared? = none) :
    s.declaredNames = [] := by
  rw [Stmt.declaredNames, List.filterMap_eq_nil_iff.2 h, List.map_nil]

theorem declared?_nest {target value : Expr} {heads : List LoopHead} {x : Stmt}
    (h : x ∈ ((Stmt.assign target value).nest heads).nodes) : x.declared? = none := by
  rcases Stmt.mem_nodes_nest_assign h with rfl | ⟨head, body, rfl⟩ <;> rfl

namespace Region

theorem grounded {a : GridArray} {classes : List AxisClass} {k : Kernel}
    (hk : gatherSplit a classes = .ok k) : Grounded a k := by
  rcases hplan : plan a classes with ⟨name, axes⟩
  have hplanned := planned hplan
  have hbody := hplanned.body_of_gatherSplit hplan hk
  constructor
  · rw [hplanned.gatherSplit_eq hplan] at hk
    obtain ⟨ps, hps, hk⟩ := bind_eq_ok.1 hk
    rw [← Except.ok.inj hk]
    exact hps
  · rw [hbody]
    exact declaredNames_statements _ _ _
  · intro P hint hbinary hsize hshape _ b hb i e he
    rw [hbody] at hb
    refine GridArray.nodes_of_allocation hint hbinary ?_ he
    rcases view_of_statements hb with rfl | rfl
    · exact hshape
    · intro e he
      obtain ⟨x, hx, rfl⟩ := List.mem_map.1 he
      obtain ⟨d, -, c, -, hlaid⟩ := hplanned.laidOut_of_mem hx
      cases hlaid with
      | pinned m index => exact Expr.nodes_of_leaf rfl (hint _)
      | free m o => exact Expr.nodes_of_leaf rfl (hsize _)

end Region

namespace Halo

variable {a : GridArray} {rule : WidthRule} {slot : String} {axes : List Axis} {x : Axis}
  {side : Side} {t : Transfer} {classes : List AxisClass} {direction : Direction}

theorem undeclared_of_move {c : Stmt} (h : move a classes t direction = .ok c) {s : Stmt}
    (hs : s ∈ c.nodes) : s.declared? = none := by
  obtain ⟨lines, -, rfl⟩ := exists_lines h
  cases direction with
  | pack => exact declared?_nest hs
  | unpack => exact declared?_nest hs

theorem view_notMem_move {c : Stmt} (h : move a classes t direction = .ok c) (b : GridArray) :
    .view b ∉ c.nodes := by
  obtain ⟨lines, -, rfl⟩ := exists_lines h
  intro hb
  cases direction <;>
    rcases Stmt.mem_nodes_nest_assign hb with heq | ⟨head, body, heq⟩ <;> cases heq

/-- The loop over an axis of a buffer runs to the extent of the buffer. -/
theorem loop_of_free {c : Stmt} (h : move a classes t direction = .ok c) {i : Nat}
    (hfree : classes[i]? = some .free) {e : Expr} (he : t.buffer.allocated (i + 1) = .ok e) :
    ∃ s ∈ c.nodes, e ∈ s.exprs := by
  obtain ⟨lines, hlines, rfl⟩ := exists_lines h
  have hmem : (AxisClass.free, i) ∈ classes.zipIdx := List.mem_zipIdx_iff_getElem?.2 hfree
  obtain ⟨l, hl, hmove⟩ := forall₂_mem_left hlines hmem
  unfold moveAxis at hmove
  obtain ⟨d, -, hmove⟩ := bind_eq_ok.1 hmove
  obtain ⟨offset, -, hmove⟩ := bind_eq_ok.1 hmove
  simp only [AxisClass.isPinned, Bool.false_eq_true, if_false] at hmove
  obtain ⟨e', he', hmove⟩ := bind_eq_ok.1 hmove
  obtain ⟨far, -, hmove⟩ := bind_eq_ok.1 hmove
  obtain rfl := Except.ok.inj (he.symm.trans he')
  obtain rfl := Except.ok.inj hmove
  have hhead : ⟨d, .upTo e, [], .parallel⟩ ∈ lines.reverse.filterMap (·.2.2) :=
    List.mem_filterMap.2 ⟨_, List.mem_reverse.2 hl, rfl⟩
  obtain ⟨body, hbody⟩ := Stmt.loop_mem_nest (s := cellOf a t direction lines) hhead
  exact ⟨_, hbody, by simp [Stmt.exprs, Bounds.upTo]⟩

/-- The extents of a transfer buffer are literals or bounds of the loops that move it. -/
theorem nodes_of_buffer {P : Expr → Prop} (hint : ∀ k, P (.int k))
    (hnamed : Named a classes slot axes) (ht : transfer a rule slot axes x side = .ok t)
    {c : Stmt} (hc : move a classes t direction = .ok c)
    (hexprs : ∀ s ∈ c.nodes, ∀ e ∈ s.exprs, ∀ n ∈ e.nodes, P n) {i : Nat} {e : Expr}
    (he : t.buffer.allocated i = .ok e) : ∀ n ∈ e.nodes, P n := by
  obtain ⟨halo, size, receive, send, inner, hlined⟩ := exists_lined ht
  have hliteral : ∀ k, ∀ n ∈ (Expr.int k).nodes, P n := fun k => Expr.nodes_of_leaf rfl (hint k)
  cases i with
  | zero =>
    obtain rfl := Except.ok.inj ((allocated_slots hlined).symm.trans he)
    exact hliteral 2
  | succ i =>
    cases hclass : classes[i]? with
    | none =>
      -- the buffer has no more axes than the array
      exfalso
      have hinner : inner.length = classes.length := by
        rw [← hlined.lined.length_eq, ← hnamed.cls, List.length_map]
      have hshape : t.buffer.shape[i + 1]? = none := by
        rw [hlined.buffer, List.getElem?_eq_none_iff]
        rw [List.getElem?_eq_none_iff] at hclass
        simp only [List.length_map, List.length_cons]
        omega
      obtain ⟨-, size', -, -, hsize, -⟩ := GridArray.allocated_eq_ok.1 he
      simp [hshape] at hsize
    | some cls =>
      have hcls : (axes.map Axis.cls)[i]? = some cls := hnamed.cls ▸ hclass
      rw [List.getElem?_map] at hcls
      obtain ⟨y, hy, rfl⟩ := Option.map_eq_some_iff.1 hcls
      cases hpinned : y.cls with
      | free =>
        obtain ⟨s, hs, hes⟩ := loop_of_free hc (hpinned ▸ hclass) he
        exact hexprs s hs e hes
      | pinned index =>
        have hone := allocated_pinned hnamed hlined (List.mem_of_getElem? hy)
          (by rw [hpinned, AxisClass.isPinned])
        rw [hnamed.position i y hy] at hone
        obtain rfl := Except.ok.inj (hone.symm.trans he)
        exact hliteral 1

theorem grounded {pins : Pins} {rule? : Option WidthRule} {e : Exchange}
    (he : exchange a pins rule? = .ok e) (direction : Direction) :
    Grounded a (e.kernel direction) := by
  obtain ⟨classes, slot, axes, hparts⟩ := exists_parts he
  obtain ⟨moves, hbody, hmoves⟩ := hparts.body direction
  have hcases : ∀ s ∈ (e.kernel direction).body.nodes, s = (e.kernel direction).body ∨
      (∃ b ∈ a :: e.buffers.map fun q => q.2.2.buffer, s = .view b) ∨
      ∃ w ∈ moves, s ∈ w.nodes := by
    intro s hs
    rw [hbody] at hs ⊢
    rcases List.mem_cons.1 hs with rfl | hs
    · exact .inl rfl
    obtain ⟨w, hw, hs⟩ := Stmt.mem_nodesAll.1 hs
    rcases List.mem_append.1 hw with hw | hw
    · obtain ⟨b, hb, rfl⟩ := List.mem_map.1 hw
      exact .inr (.inl ⟨b, hb, by simpa [Stmt.nodes] using hs⟩)
    · exact .inr (.inr ⟨w, hw, hs⟩)
  refine ⟨hparts.parameters direction, declaredNames_eq_nil fun s hs => ?_, ?_⟩
  · rcases hcases s hs with rfl | ⟨b, -, rfl⟩ | ⟨w, hw, hs⟩
    · rw [hbody]
      rfl
    · rfl
    · obtain ⟨p, -, t, c, -, hc, rfl⟩ := forall₂_mem_right hmoves hw
      rcases List.mem_cons.1 hs with rfl | hs
      · rfl
      · exact undeclared_of_move hc hs
  · intro P hint hbinary _ hshape hexprs b hb i e' he'
    rcases hcases _ hb with heq | ⟨b', hb', heq⟩ | ⟨w, hw, hs⟩
    · rw [hbody] at heq
      cases heq
    · obtain rfl := Stmt.view.inj heq
      rcases List.mem_cons.1 hb' with rfl | hb'
      · exact GridArray.nodes_of_allocation hint hbinary hshape he'
      · -- a buffer is moved by one of the guarded moves
        obtain ⟨q, hq, rfl⟩ := List.mem_map.1 hb'
        obtain ⟨p, hp, -, -, ht⟩ := forall₂_mem_right hparts.buffers hq
        obtain ⟨w, hw, t, c, ht', hc, rfl⟩ := forall₂_mem_left hmoves hp
        obtain rfl := Except.ok.inj (ht.symm.trans ht')
        refine nodes_of_buffer hint hparts.named ht hc (fun s hs => hexprs s ?_) he'
        rw [hbody]
        refine List.mem_cons_of_mem _ (Stmt.mem_nodesAll.2 ⟨_, List.mem_append_right _ hw, ?_⟩)
        exact List.mem_cons_of_mem _ hs
    · obtain ⟨p, -, t, c, -, hc, rfl⟩ := forall₂_mem_right hmoves hw
      rcases List.mem_cons.1 hs with heq | hs
      · cases heq
      · exact absurd hs (view_notMem_move hc b)

end Halo

theorem MadeFor.grounded {a : GridArray} {k : Kernel} (h : MadeFor a k) : Grounded a k := by
  cases h with
  | gather h =>
    obtain ⟨classes, -, h⟩ := bind_eq_ok.1 h
    exact Region.grounded h
  | gatherWith h =>
    obtain ⟨classes, -, h⟩ := bind_eq_ok.1 h
    exact Region.grounded h
  | exchange h direction => exact Halo.grounded h direction

variable {R : Type}

/-- A statement that declares nothing and uses external arrays reads its parameters, and sizes and
indices of axes. -/
theorem sameAt_of_parameters {s : Stmt} {ps : List Parameter} (hps : s.parameters = .ok ps)
    (hundeclared : s.declaredNames = []) (hexternal : s.UsesExternal) {m m' : Machine R}
    (hparameters : ∀ p ∈ ps, m.SameParameter m' p)
    (hsizes : ∀ name : String, m.sizes[name]? = m'.sizes[name]?)
    (hindices : ∀ name : String, m.indices[name]? = m'.indices[name]?) :
    (∀ x ∈ s.nodes, ∀ e ∈ x.exprs, ∀ n ∈ e.nodes, m.SameAt m' n) ∧
      ∀ a, .view a ∈ s.nodes → m.arrays[a.name]? = m'.arrays[a.name]? := by
  have hagree : AgreeOn ps m m' := ⟨hparameters, hsizes, hindices⟩
  have hcovered := Stmt.covered_of_parameters hps (fun p hp => ⟨p, hp, rfl, rfl⟩)
    (fun t ht => ?_) fun x hx e he a es ha => hexternal.access hx he ha
  · refine ⟨fun x hx e he n hn => hagree.sameAt (hcovered x hx e he n hn), fun a ha => ?_⟩
    have huse : Use.ofArray? a = some (.entity (.array a)) := by
      rw [Use.ofArray?, hexternal.view ha]
    obtain ⟨q, hq, hname, hsame⟩ := Stmt.exists_parameter hps (Stmt.use_of_view ha huse)
    have ha : Expr.CoveredBy ps (.access a []) := ⟨q, hq, (Parameter.eq_of_same hsame).2, hname⟩
    exact hagree.sameAt ha
  · have hname : t.name ∈ s.declaredNames := Stmt.mem_declaredNames.2 ⟨t, ht, rfl⟩
    rw [hundeclared] at hname
    cases hname

variable [Arithmetic R]

/-- A gather, pack or unpack kernel over external arrays ends alike in machines that bind alike its
parameters, the sizes of axes and the entities in the shape of its array. -/
theorem runKernel_of_parameters {a : GridArray} {k : Kernel} (hk : MadeFor a k)
    (hexternal : k.body.UsesExternal) {m m' : Machine R}
    (hparameters : ∀ p ∈ k.signature.parameters, m.SameParameter m' p)
    (hsizes : ∀ name : String, m.sizes[name]? = m'.sizes[name]?)
    (hshape : ∀ e ∈ a.shape, ∀ n ∈ e.nodes, m.idle.SameAt m'.idle n) :
    (m.runKernel k).fault? = (m'.runKernel k).fault? ∧
      ∀ p ∈ k.signature.parameters,
        (m.runKernel k).machine.SameParameter (m'.runKernel k).machine p := by
  have hgrounded := hk.grounded
  have hidle : ∀ p ∈ k.signature.parameters, m.idle.SameParameter m'.idle p := by
    intro p hp
    cases p with
    | array b => exact hparameters _ hp
    | scalar s => exact hparameters _ hp
  obtain ⟨hexprs, harrays⟩ := sameAt_of_parameters hgrounded.parameters hgrounded.undeclared
    hexternal hidle hsizes fun _ => rfl
  have hextents := hgrounded.extents (m.idle.SameAt m'.idle) (fun _ => trivial)
    (fun _ _ _ => trivial) hsizes hshape hexprs
  obtain ⟨hfault, hend⟩ := run_alike hexprs fun b hb => ⟨harrays b hb, hextents b hb⟩
  exact ⟨hfault, fun p hp => hend.sameParameter (hidle p hp)⟩

/-- A line of cells whose number is a scalar. -/
def scaledLine : GridArray :=
  ⟨"f", .float64, [⟨"x", .spatial⟩], [.scalar ⟨"n", .int32⟩], [.none], .external⟩

/-- The kernel that gathers cells of the line. -/
def scaledGather : Kernel := (Region.gather scaledLine []).toOption.getD default

/-- A machine with three cells of the line, two of which the kernel gathers. -/
def scaledMachine (length stray : Int64) : Machine Binary64 where
  arrays := Std.TreeMap.insert (Std.TreeMap.insert (Std.TreeMap.insert ∅ "f"
    ⟨[3], Array.replicate 3 Binary64.zero⟩) "dst" ⟨[2], Array.replicate 2 Binary64.zero⟩) "g"
    ⟨[1], Array.replicate 1 (Arithmetic.ofInt stray)⟩
  scalars := Std.TreeMap.insert (Std.TreeMap.insert ∅ "n" (Arithmetic.ofInt length)) "ox"
    (Arithmetic.ofInt 0)
  sizes := Std.TreeMap.insert ∅ "dst_x" 2

theorem scaledGather_made : MadeFor scaledLine scaledGather := by
  have hgather : Region.gather scaledLine [] = .ok scaledGather := rfl
  exact .gather hgather

theorem scaledGather_parameters : scaledGather.signature.parameters =
    [.array scaledLine, .array (Region.destination scaledLine "dst"
      (Region.plan scaledLine [.free]).2), .scalar ⟨"ox", .int32⟩] := rfl

theorem scaledGather_external : scaledGather.body.UsesExternal := by decide +kernel

theorem runKernel_of_parameters_scaled :
    ((scaledMachine 3 0).runKernel scaledGather).fault? =
      ((scaledMachine 3 7).runKernel scaledGather).fault? := by
  have hbinds : ∀ p ∈ scaledGather.signature.parameters,
      (scaledMachine 3 0).SameParameter (scaledMachine 3 7) p := by
    simp [scaledGather_parameters, SameParameter, scaledMachine, scaledLine, Region.destination,
      Std.TreeMap.getElem?_insert]
  have hshape : ∀ e ∈ scaledLine.shape, ∀ n ∈ e.nodes,
      (scaledMachine 3 0).idle.SameAt (scaledMachine 3 7).idle n := by
    simp [scaledLine, Expr.nodes, SameAt, scaledMachine, idle]
  exact (runKernel_of_parameters scaledGather_made scaledGather_external hbinds (fun _ => rfl)
    hshape).1

/-- The run depends on the number of cells, which is no parameter. -/
theorem scaledGather_reads_length :
    (∀ p ∈ scaledGather.signature.parameters,
      (scaledMachine 3 0).SameParameter (scaledMachine 4 0) p) ∧
      (scaledMachine 3 0).sizes = (scaledMachine 4 0).sizes ∧
      ((scaledMachine 3 0).runKernel scaledGather).fault?.isNone ∧
      ((scaledMachine 4 0).runKernel scaledGather).fault?.isSome := by
  refine ⟨?_, rfl, by decide +kernel, by decide +kernel⟩
  simp [scaledGather_parameters, SameParameter, scaledMachine, scaledLine, Region.destination,
    Std.TreeMap.getElem?_insert]

end GridKernel
